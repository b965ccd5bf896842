import Mathlib.Data.List.Basic
import Mathlib.Tactic.Common

/-!
# Tokens and quoting of the shell

Token recognition of the POSIX shell as a scan over the bytes of a command string, with
what each character is taken for, and the pipelines of simple commands that the
tokens make up.

Expansions are not carried out, only marked. Reserved words, assignments and
here-documents are not looked for.

* `scan_append`: a string is scanned part by part.
* `scan_single`, `scan_single_quote`: between single quotes every character stands for
  itself, up to the next single quote.
-/

namespace AghOs.Sh

/-- What a character is taken for. -/
inductive Role
  /-- belongs to a word and stands for itself -/
  | literal
  /-- quotes what follows, or ends a quotation -/
  | quoting
  /-- begins an expansion, or belongs to a pattern -/
  | expansion
  | operator
  | blank
  | comment
  deriving DecidableEq

/-- Where the scan is: outside of quotes, between single or double quotes, behind a
    backslash (between double quotes or not), in a comment. -/
inductive Mode
  | plain | single | double
  | escape (inDouble : Bool)
  | comment
  deriving DecidableEq

/-- A word, with the quotes removed; whether a part of it was quoted, and whether it has
    characters that are to be expanded. -/
structure Word where
  chars : List UInt8
  quoted : Bool
  expands : Bool
  deriving DecidableEq

inductive Token
  | word (w : Word)
  | ioNumber (digits : List UInt8)
  | operator (op : List UInt8)
  deriving DecidableEq

/-- The state of the scan: the tokens so far, and the word and the operator that have
    been begun. -/
structure Scan where
  mode : Mode
  word : Option Word
  op : List UInt8
  tokens : List Token
  deriving DecidableEq

/-- `|`, `&`, `;`, `<`, `>`, `(`, `)` and newline; `||`, `&&`, `;;`, `<<`, `>>`, `<&`, `>&`,
    `<>`, `>|` and `<<-`. -/
def operators : List (List UInt8) :=
  [[124], [38], [59], [60], [62], [40], [41], [10], [124, 124], [38, 38], [59, 59], [60, 60],
    [62, 62], [60, 38], [62, 38], [60, 62], [62, 124], [60, 60, 45]]

/-- `$`, the backquote, `*`, `?`, `[` and `~` -/
def expansions : List UInt8 := [36, 96, 42, 63, 91, 126]

namespace Scan

def start : Scan := ⟨.plain, none, [], []⟩

/-- The word begun, or a new one. -/
def begun (s : Scan) : Word := s.word.getD ⟨[], false, false⟩

/-- A quotation is a part of the word. -/
def quote (s : Scan) (mode : Mode) : Scan :=
  { s with mode := mode, word := some { s.begun with quoted := true } }

def add (s : Scan) (c : UInt8) : Scan :=
  { s with word := some { s.begun with chars := s.begun.chars ++ [c] } }

def addExpansion (s : Scan) (c : UInt8) : Scan :=
  { s with word := some { s.begun with chars := s.begun.chars ++ [c], expands := true } }

def endOp (s : Scan) : Scan :=
  if s.op = [] then s else { s with op := [], tokens := s.tokens ++ [.operator s.op] }

/-- The word ends; digits before a redirection operator are an `IO_NUMBER`. -/
def endWord (s : Scan) (redirection : Bool) : Scan :=
  match s.word with
  | none => s
  | some w =>
    let isNumber := redirection && !w.quoted && w.chars.all fun c => 48 ≤ c && c ≤ 57
    { s with
      word := none
      tokens := s.tokens ++ [if isNumber then .ioNumber w.chars else .word w] }

/-- A character outside of quotes that does not belong to the operator before it. -/
def plain (s : Scan) (c : UInt8) : Role × Scan :=
  let s := s.endOp
  if c = 39 then (.quoting, s.quote .single)
  else if c = 34 then (.quoting, s.quote .double)
  else if c = 92 then (.quoting, { s with mode := .escape false })
  else if [c] ∈ operators then (.operator, { s.endWord (c = 60 ∨ c = 62) with op := [c] })
  else if c = 32 ∨ c = 9 then (.blank, s.endWord false)
  else if c = 35 ∧ s.word = none then (.comment, { s with mode := .comment })
  else if c ∈ expansions then (.expansion, s.addExpansion c)
  else (.literal, s.add c)

def step (s : Scan) (c : UInt8) : Role × Scan :=
  match s.mode with
  | .plain =>
    if s.op ≠ [] ∧ s.op ++ [c] ∈ operators then (.operator, { s with op := s.op ++ [c] })
    else s.plain c
  | .single => if c = 39 then (.quoting, { s with mode := .plain }) else (.literal, s.add c)
  | .double =>
    if c = 34 then (.quoting, { s with mode := .plain })
    else if c = 92 then (.quoting, { s with mode := .escape true })
    else if c = 36 ∨ c = 96 then (.expansion, s.addExpansion c)
    else (.literal, s.add c)
  | .escape inDouble =>
    let mode := if inDouble then .double else .plain
    -- a backslash and a newline are both removed
    if c = 10 then (.quoting, { s with mode := mode })
    -- between double quotes the backslash quotes these only
    else if inDouble = true ∧ c ∉ [36, 96, 34, 92] then
      (.literal, ({ s with mode := mode }.add 92).add c)
    else (.literal, (s.quote mode).add c)
  | .comment => if c = 10 then { s with mode := .plain }.plain c else (.comment, s)

/-- The tokens, unless a quotation is not ended. -/
def finish (s : Scan) : Option (List Token) :=
  if s.mode = .plain ∨ s.mode = .comment then some (s.endOp.endWord false).tokens else none

end Scan

/-- The characters `cs` one after another. -/
def scan : Scan → List UInt8 → List Role × Scan
  | s, [] => ([], s)
  | s, c :: cs => ((s.step c).1 :: (scan (s.step c).2 cs).1, (scan (s.step c).2 cs).2)

/-- What the characters of a command string are taken for. -/
def roles (cs : List UInt8) : List Role := (scan .start cs).1

def tokenize (cs : List UInt8) : Option (List Token) := (scan .start cs).2.finish

/-! ## Pipelines -/

structure Redirect where
  number : Option (List UInt8)
  op : List UInt8
  target : List UInt8
  deriving DecidableEq

/-- A simple command: its words and redirections. -/
structure Simple where
  words : List (List UInt8)
  redirects : List Redirect
  deriving DecidableEq

/-- `<`, `>`, `>>`, `<&`, `>&`, `<>` and `>|` -/
def redirections : List (List UInt8) :=
  [[60], [62], [62, 62], [60, 38], [62, 38], [60, 62], [62, 124]]

/-- A redirection before the rest of a command. -/
def redirect (number : Option (List UInt8)) (op : List UInt8) (w : Word) (rest : Option Simple) :
    Option Simple :=
  if op ∈ redirections ∧ w.expands = false then
    rest.map fun r => { r with redirects := ⟨number, op, w.chars⟩ :: r.redirects }
  else none

/-- The tokens of a simple command, if they make up one and nothing is expanded. -/
def simple : List Token → Option Simple
  | [] => some ⟨[], []⟩
  | .ioNumber n :: .operator op :: .word w :: ts => redirect (some n) op w (simple ts)
  | .operator op :: .word w :: ts => redirect none op w (simple ts)
  | .word w :: ts =>
    if w.expands then none else (simple ts).map fun r => { r with words := w.chars :: r.words }
  | _ => none

/-- The commands of a pipeline. -/
def pipeline (cs : List UInt8) : Option (List Simple) := do
  let ts ← tokenize cs
  let commands ← (ts.splitOn (.operator [124])).mapM simple
  if ∃ c ∈ commands, c.words = [] then none else some commands

/-! ## Scans -/

variable {s : Scan} {w : Word} {cs : List UInt8}

theorem scan_append (s : Scan) (as bs : List UInt8) :
    scan s (as ++ bs) =
      ((scan s as).1 ++ (scan (scan s as).2 bs).1, (scan (scan s as).2 bs).2) := by
  induction as generalizing s with
  | nil => rfl
  | cons a as ih => rw [List.cons_append, scan, ih, scan, List.cons_append]

theorem scan_cons (s : Scan) (c : UInt8) (cs : List UInt8) :
    scan s (c :: cs) = ((s.step c).1 :: (scan (s.step c).2 cs).1, (scan (s.step c).2 cs).2) := rfl

theorem length_scan (s : Scan) (cs : List UInt8) : (scan s cs).1.length = cs.length := by
  induction cs generalizing s with
  | nil => rfl
  | cons c cs ih => rw [scan, List.length_cons, List.length_cons, ih]

/-- Between single quotes every character stands for itself. -/
theorem scan_single (hmode : s.mode = .single) (hw : s.word = some w) (hcs : 39 ∉ cs) :
    scan s cs = (List.replicate cs.length .literal,
      { s with word := some { w with chars := w.chars ++ cs } }) := by
  induction cs generalizing s w with
  | nil =>
    rw [List.append_nil, ← hw]
    rfl
  | cons c cs ih =>
    obtain ⟨hc, hcs⟩ := not_or.mp (mt List.mem_cons.mpr hcs)
    have hstep : s.step c = (.literal, s.add c) := by
      rw [Scan.step, hmode]
      exact if_neg (Ne.symm hc)
    have hadd : (s.add c).word = some { w with chars := w.chars ++ [c] } := by
      rw [Scan.add, Scan.begun, hw]
      rfl
    rw [scan, hstep, ih (s := s.add c) hmode hadd hcs, List.length_cons, List.replicate_succ]
    simp only [Scan.add, List.append_assoc, List.singleton_append]

/-- The next single quote does not. -/
theorem scan_single_quote (hmode : s.mode = .single) (hw : s.word = some w) (hcs : 39 ∉ cs)
    (rest : List UInt8) : (scan s (cs ++ 39 :: rest)).1[cs.length]? = some .quoting := by
  have hstep : ∀ t : Scan, t.mode = .single → (t.step 39).1 = .quoting := fun t ht => by
    rw [Scan.step, ht]
    rfl
  rw [scan_append, scan_single hmode hw hcs, List.getElem?_append_right (by simp),
    List.length_replicate, Nat.sub_self, scan_cons, List.getElem?_cons_zero, hstep]
  exact hmode

end AghOs.Sh
