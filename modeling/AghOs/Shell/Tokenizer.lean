import AghOs.Shell.Line
import Mathlib.Data.List.Forall2

/-!
# The tokenizer of the shell

`interpret_line` follows the grammar. Its scanner overwrites the byte behind an
argument and goes on behind that; the induction is on what is left of the line,
with the rewritten part `d` of the buffer in front of it and the old bytes `r`
behind its terminating `0`.

* `scan`: what `interpret_line` does with a line, however it ends.
* `interpretLine_tokens`: it is right on every complete line.
-/

namespace AghOs.Shell

/-! ## The grammar, case by case -/

theorem tokens_congr {l l' : List UInt8} (h : l.dropWhile isSpace = l'.dropWhile isSpace) :
    tokens l = tokens l' := by
  rw [tokens, tokens, h]

theorem tokens_nil : tokens [] = ([], .blank) := by
  rw [tokens]
  rfl

theorem tokens_space {c : UInt8} (hc : isSpace c = true) (l : List UInt8) :
    tokens (c :: l) = tokens l :=
  tokens_congr (List.dropWhile_cons_of_pos hc)

theorem isSpace_quote : isSpace quote = false := by decide

theorem dropWhile_quote (cs : List UInt8) : (quote :: cs).dropWhile isSpace = quote :: cs :=
  List.dropWhile_cons_of_neg (by decide)

theorem tokens_unterminated {cs : List UInt8} (h : quote ∉ cs) :
    tokens (quote :: cs) = ([], .unterminated cs) := by
  have hd : cs.dropWhile (· ≠ quote) = [] := by
    rw [List.dropWhile_eq_nil_iff]
    intro c hc
    simpa using ne_of_mem_of_not_mem hc h
  rw [tokens, dropWhile_quote]
  simp only [if_pos]
  rw [hd]

theorem tokens_quoted {q : List UInt8} (h : quote ∉ q) (rest : List UInt8) :
    tokens (quote :: (q ++ quote :: rest)) = if rest.head?.all isSpace then
      (q :: (tokens rest).1, (tokens rest).2) else ([], .unspaced q) := by
  have hq : ∀ c ∈ q, decide (c ≠ quote) = true := by
    intro c hc
    simpa using ne_of_mem_of_not_mem hc h
  have hd : (q ++ quote :: rest).dropWhile (· ≠ quote) = quote :: rest := by
    rw [List.dropWhile_append_of_pos hq]
    simp
  have ht : (q ++ quote :: rest).takeWhile (· ≠ quote) = q := by
    rw [List.takeWhile_append_of_pos hq]
    simp
  rw [tokens, dropWhile_quote]
  simp only [if_pos]
  rw [hd, ht]


/-- A word has no white space, and does not begin with a quote. -/
structure Word (w : List UInt8) : Prop where
  ne_nil : w ≠ []
  head : w.head? ≠ some quote
  space : ∀ c ∈ w, isSpace c = false

theorem tokens_word {w : List UInt8} (h : Word w) : tokens w = ([w], .word) := by
  obtain ⟨c, cs, rfl⟩ := List.exists_cons_of_ne_nil h.ne_nil
  have hc : c ≠ quote := fun he => h.head (by rw [he]; rfl)
  have hcs : ∀ b ∈ cs, (!isSpace b) = true := by
    intro b hb
    simp [h.space b (List.mem_cons_of_mem _ hb)]
  have hd : cs.dropWhile (!isSpace ·) = [] := List.dropWhile_eq_nil_iff.mpr hcs
  have ht : cs.takeWhile (!isSpace ·) = cs := List.takeWhile_eq_self_iff.mpr hcs
  rw [tokens, List.dropWhile_cons_of_neg (by simp [h.space c List.mem_cons_self])]
  simp only [if_neg hc]
  rw [hd, ht]

theorem tokens_word_append {w : List UInt8} (h : Word w) {b : UInt8} (hb : isSpace b = true)
    (rest : List UInt8) : tokens (w ++ b :: rest) = (w :: (tokens rest).1, (tokens rest).2) := by
  obtain ⟨c, cs, rfl⟩ := List.exists_cons_of_ne_nil h.ne_nil
  have hc : c ≠ quote := fun he => h.head (by rw [he]; rfl)
  have hcs : ∀ b ∈ cs, (!isSpace b) = true := by
    intro b hb
    simp [h.space b (List.mem_cons_of_mem _ hb)]
  have hd : (cs ++ b :: rest).dropWhile (!isSpace ·) = b :: rest := by
    rw [List.dropWhile_append_of_pos hcs]
    simp [hb]
  have ht : (cs ++ b :: rest).takeWhile (!isSpace ·) = cs := by
    rw [List.takeWhile_append_of_pos hcs]
    simp [hb]
  rw [List.cons_append, tokens,
    List.dropWhile_cons_of_neg (by simp [h.space c List.mem_cons_self])]
  simp only [if_neg hc]
  rw [hd, ht]
  simp only [tokens_space hb]

theorem tokens_spaces {sp : List UInt8} (h : ∀ c ∈ sp, isSpace c = true) (l : List UInt8) :
    tokens (sp ++ l) = tokens l :=
  tokens_congr (List.dropWhile_append_of_pos h)

/-! ## The loops of the scanner -/

theorem advance_append {stop : UInt8 → Bool} {l : List UInt8} {c : UInt8} {r : List UInt8}
    (hl : ∀ b ∈ l, isEol b = false ∧ stop b = false) (hc : (isEol c || stop c) = true) (pos : ℕ) :
    advance stop (l ++ c :: r) pos = some (pos + l.length + 1) := by
  induction l generalizing pos with
  | nil => exact if_pos hc
  | cons b l ih =>
    obtain ⟨he, hs⟩ := hl b List.mem_cons_self
    have hrec := ih (fun b' hb' => hl b' (List.mem_cons_of_mem _ hb')) (pos + 1)
    rw [List.cons_append, advance, if_neg (by simp [he, hs]), hrec]
    simp only [List.length_cons]
    congr 1
    omega

/-- What the rest of `interpret_line` makes of the end of an iteration. -/
def resume : Option Turn → Option (Memory × ℤ)
  | none => none
  | some (.ret m r) => some (m, r)
  | some (.next m pos) => interpretFrom m pos

theorem interpretFrom_eq {m : Memory} {pos : ℕ} (h : pos ≤ bufferSize) :
    interpretFrom m pos = resume (m.turn pos) := by
  rw [interpretFrom, dif_pos h]
  split <;> rename_i ht <;> rw [ht] <;> rfl

theorem Text.tail_eq_nil {x y : List UInt8} (h : Text (x ++ 10 :: y)) : y = [] := by
  by_contra hy
  apply h.newline
  rw [List.dropLast_append_of_ne_nil (List.cons_ne_nil _ _), List.dropLast_cons_of_ne_nil hy]
  simp

theorem Text.of_append {x y : List UInt8} (h : Text (x ++ y)) : Text y where
  nul hy := h.nul (List.mem_append_right _ hy)
  newline hy := by
    have hne : y ≠ [] := fun he => by simp [he] at hy
    apply h.newline
    rw [List.dropLast_append_of_ne_nil hne]
    exact List.mem_append_right _ hy

/-- Where the end of a line is reached, nothing or a newline is left. -/
theorem Text.rest {x l r z : List UInt8} {c : UInt8} (h : Text (x ++ l))
    (hl : l ++ 0 :: r = c :: z) (hc : isEol c = true) : l = [] ∨ l = [10] := by
  cases l with
  | nil => exact .inl rfl
  | cons b l =>
    obtain rfl : b = c := (List.cons.inj hl).1
    have h0 : b ≠ 0 := fun he => h.nul (List.mem_append_right _ (he ▸ List.mem_cons_self))
    obtain rfl : b = 10 := by simpa [isEol, h0] using hc
    rw [h.tail_eq_nil]
    exact .inr rfl

theorem tokens_rest {l : List UInt8} (h : l = [] ∨ l = [10]) :
    tokens l = ([], .blank) ∧ l.head?.all isSpace = true := by
  obtain rfl | rfl := h
  · exact ⟨tokens_nil, rfl⟩
  · exact ⟨(tokens_space (by decide) []).trans tokens_nil, by decide⟩

/-- Only its last byte can end a line. -/
theorem Text.isEol {x y : List UInt8} (h : Text (x ++ y)) (hy : y ≠ []) {b : UInt8} (hb : b ∈ x) :
    isEol b = false := by
  have h0 : b ≠ 0 := fun he => h.nul (he ▸ List.mem_append_left _ hb)
  have h10 : b ≠ 10 := by
    intro he
    apply h.newline
    rw [List.dropLast_append_of_ne_nil hy]
    exact List.mem_append_left _ (he ▸ hb)
  simp [Shell.isEol, h0, h10]

section

variable {m : Memory} {d l r : List UInt8} {c : UInt8}

theorem getElem?_length_append (d : List UInt8) (c : UInt8) (r : List UInt8) :
    (d ++ c :: r)[d.length]? = some c := by simp

theorem drop_length_succ (d : List UInt8) (c : UInt8) (r : List UInt8) :
    (d ++ c :: r).drop (d.length + 1) = r := by
  rw [List.drop_append, List.drop_of_length_le (Nat.le_succ _)]
  simp

/-- The last loop goes to the end of the white space, or of the line. -/
theorem Memory.blanks_eq (hbuf : m.buf = d ++ c :: (l ++ 0 :: r)) :
    ∃ sp rest, l = sp ++ rest ∧ (∀ b ∈ sp, isSpace b = true) ∧
      m.blanks d.length = some (.next m (d.length + 1 + sp.length)) := by
  obtain ⟨b, hb⟩ : ∃ b, ∃ tail, l.dropWhile (fun b => isSpace b && !isEol b) ++ 0 :: r = b :: tail ∧
      (isEol b || !isSpace b) = true := by
    cases hd : l.dropWhile (fun b => isSpace b && !isEol b) with
    | nil => exact ⟨0, r, rfl, rfl⟩
    | cons b rest =>
      refine ⟨b, rest ++ 0 :: r, rfl, ?_⟩
      have hb : ¬(isSpace b && !isEol b) = true := by
        have hne : l.dropWhile (fun b => isSpace b && !isEol b) ≠ [] := by simp [hd]
        have := List.head_dropWhile_not (fun b => isSpace b && !isEol b) hne
        simpa [hd] using this
      cases hs : isSpace b <;> cases he : isEol b <;> simp_all
  obtain ⟨tail, htail, hstop⟩ := hb
  refine ⟨l.takeWhile (fun b => isSpace b && !isEol b),
    l.dropWhile (fun b => isSpace b && !isEol b), List.takeWhile_append_dropWhile.symm, ?_, ?_⟩
  · intro b hb
    have := List.mem_takeWhile_imp hb
    simp_all
  · unfold Memory.blanks
    rw [hbuf, drop_length_succ]
    conv_lhs =>
      rw [← List.takeWhile_append_dropWhile (p := fun b => isSpace b && !isEol b) (l := l)]
    rw [List.append_assoc, htail, advance_append _ hstop]
    · simp only [Option.map_some]
      congr 2
      omega
    · intro b hb
      have := List.mem_takeWhile_imp hb
      simp_all

end

/-! ## An iteration -/

/-- `args[(*argc)++] = &buf[pos]`, in bounds. -/
def Memory.push (m : Memory) (pos : ℕ) : Memory :=
  { m with argc := m.argc + 1, args := m.args.set m.argc (some pos) }

section

variable {m : Memory} {d w q z r : List UInt8} {c : UInt8}

theorem Memory.pushArg_eq (pos : ℕ) :
    m.pushArg pos = if m.argc < m.args.length then some (m.push pos) else none := rfl

theorem Memory.turn_eol (hbuf : m.buf = d ++ c :: z) (hc : isEol c = true) :
    m.turn d.length = m.finish := by
  unfold Memory.turn
  rw [hbuf, getElem?_length_append, Option.bind_eq_bind, Option.bind_some, if_pos hc]

theorem Memory.word_space (hbuf : m.buf = d ++ c :: z) (hc : isSpace c = true) :
    m.word d.length = m.blanks d.length := by
  unfold Memory.word
  rw [hbuf, getElem?_length_append, Option.bind_eq_bind, Option.bind_some, if_neg (by simp [hc])]

theorem Memory.turn_space (hbuf : m.buf = d ++ c :: z) (hc : isSpace c = true)
    (heol : isEol c = false) : m.turn d.length = m.blanks d.length := by
  have hq : c ≠ quote := fun he => by rw [he, isSpace_quote] at hc; cases hc
  unfold Memory.turn
  rw [hbuf, getElem?_length_append, Option.bind_eq_bind, Option.bind_some, if_neg (by simp [heol]),
    if_neg (by simpa using hq), word_space hbuf hc]

/-- A word, up to the end of an iteration. -/
theorem Memory.turn_word (hbuf : m.buf = d ++ (w ++ c :: z)) (hw : Word w)
    (heol : ∀ b ∈ w, isEol b = false) (hc : (isEol c || isSpace c) = true) :
    m.turn d.length = if m.argc < m.args.length then
      ((m.push d.length).cut (d.length + w.length)).blanks (d.length + w.length) else none := by
  obtain ⟨b, w, rfl⟩ := List.exists_cons_of_ne_nil hw.ne_nil
  have hq : b ≠ quote := fun he => hw.head (by rw [he]; rfl)
  have hb := hw.space b List.mem_cons_self
  have hadv : advance isSpace (m.buf.drop (d.length + 1)) d.length =
      some (d.length + (b :: w).length) := by
    rw [hbuf, List.cons_append, drop_length_succ, advance_append _ hc]
    · rfl
    · intro b' hb'
      have hmem : b' ∈ b :: w := List.mem_cons_of_mem _ hb'
      exact ⟨heol b' hmem, hw.space b' hmem⟩
  have hget : m.buf[d.length]? = some b := by
    rw [hbuf, List.cons_append, getElem?_length_append]
  unfold Memory.turn
  rw [hget, Option.bind_eq_bind, Option.bind_some, if_neg (by simp [heol b List.mem_cons_self]),
    if_neg (by simpa using hq)]
  unfold Memory.word
  rw [hget, Option.bind_eq_bind, Option.bind_some, if_pos (by simp [hb]), pushArg_eq]
  split
  · show (advance isSpace (m.buf.drop (d.length + 1)) d.length).bind _ = _
    rw [hadv, Option.bind_some]
  · rfl

/-- From an opening quote to the closing quote or the end of the line. -/
theorem Memory.turn_quote (hbuf : m.buf = d ++ quote :: (q ++ c :: z)) (hq : quote ∉ q)
    (heol : ∀ b ∈ q, isEol b = false) (hc : (isEol c || c == quote) = true) :
    m.turn d.length = if m.argc < m.args.length then
      if isEol c then some (.ret (m.push (d.length + 1)) (-1))
      else (m.push (d.length + 1)).closing (d.length + 1 + q.length)
    else none := by
  have hadv : advance (· == quote) (m.buf.drop (d.length + 1)) d.length =
      some (d.length + 1 + q.length) := by
    rw [hbuf, drop_length_succ, advance_append _ hc]
    · congr 1
      omega
    · exact fun b hb => ⟨heol b hb, by simpa using ne_of_mem_of_not_mem hb hq⟩
  have hget : m.buf[d.length + 1 + q.length]? = some c := by
    have h := getElem?_length_append (d ++ quote :: q) c z
    rw [List.append_assoc, List.cons_append, ← hbuf] at h
    rw [← h]
    congr 1
    simp only [List.length_append, List.length_cons]
    omega
  unfold Memory.turn
  rw [show m.buf[d.length]? = some quote by rw [hbuf, getElem?_length_append], Option.bind_eq_bind,
    Option.bind_some, if_neg (by decide), if_pos (by decide), pushArg_eq]
  split
  · show (advance (· == quote) (m.buf.drop (d.length + 1)) d.length).bind _ = _
    rw [hadv, Option.bind_some]
    show (m.buf[d.length + 1 + q.length]?).bind _ = _
    rw [hget, Option.bind_some]
  · rfl

end

/-! ## A line -/

/-- `a` is in the buffer at `p`, terminated. -/
def StringAt (buf : List UInt8) (p : ℕ) (a : List UInt8) : Prop :=
  ∃ tail, buf.drop p = a ++ 0 :: tail

/-- `m'` has the arguments of `m`, and behind them `as`. -/
structure Memory.Gains (m m' : Memory) (as : List (List UInt8)) : Prop where
  length : m'.args.length = m.args.length
  argc : m'.argc = m.argc + as.length
  strings : ∃ ps : List ℕ, m'.args.take m'.argc = m.args.take m.argc ++ ps.map some ∧
    List.Forall₂ (StringAt m'.buf) ps as

/-- The argument that a malformed line ends with. -/
def Ending.started : Ending → List (List UInt8)
  | .blank | .word => []
  | .unterminated arg | .unspaced arg => [arg]

/-- What `interpret_line` does at the end of the line, which is at `pos`. After a
    word it does not stop. -/
def Ending.turn (m : Memory) (pos : ℕ) : Ending → Option Turn
  | .blank => m.finish
  | .word => m.blanks pos
  | .unterminated _ | .unspaced _ => some (.ret m (-1))

/-- How many entries of `args` are written. -/
def entries (t : List (List UInt8) × Ending) : ℕ := t.1.length + if t.2 = .word then 0 else 1

/-- `interpret_line` gets all the arguments of the line `l`, which is in the
    buffer behind `d`, if they fit. -/
def Memory.Scan (m : Memory) (d l r : List UInt8) : Prop :=
  if m.argc + entries (tokens l) ≤ argsMax then
    ∃ m' l', m.Gains m' ((tokens l).1 ++ (tokens l).2.started) ∧ l'.length = l.length ∧
      m'.buf = d ++ (l' ++ 0 :: r) ∧
      interpretFrom m d.length = resume ((tokens l).2.turn m' (d.length + l.length))
  else interpretFrom m d.length = none

theorem Memory.push_args {m : Memory} (h : m.argc < m.args.length) (p : ℕ) :
    (m.push p).args.take (m.push p).argc = m.args.take m.argc ++ [some p] := by
  show (m.args.set m.argc (some p)).take (m.argc + 1) = _
  rw [List.take_add_one, List.take_set_of_le le_rfl, List.getElem?_set_self h]
  rfl

section

variable {m n : Memory} {d x l k r : List UInt8} {p : List ℕ} {a : List (List UInt8)}

/-- An iteration that reads the arguments `a` and goes on behind `x`. -/
theorem Memory.Scan.step (hturn : m.turn d.length = some (.next n (d ++ x).length))
    (hpos : d.length ≤ bufferSize) (hlen : n.args.length = m.args.length)
    (hargc : n.argc = m.argc + a.length)
    (hargs : n.args.take n.argc = m.args.take m.argc ++ p.map some)
    (hstr : ∀ z, List.Forall₂ (StringAt (d ++ x ++ z)) p a)
    (htok : tokens l = (a ++ (tokens k).1, (tokens k).2)) (hl : l.length = x.length + k.length)
    (h : n.Scan (d ++ x) k r) : m.Scan d l r := by
  have hent : entries (tokens l) = a.length + entries (tokens k) := by
    rw [htok]
    simp [entries, Nat.add_assoc]
  have hrun : interpretFrom m d.length = interpretFrom n (d ++ x).length := by
    rw [interpretFrom_eq hpos, hturn]
    rfl
  unfold Memory.Scan at h ⊢
  rw [hent, ← Nat.add_assoc, ← hargc, hrun]
  by_cases hfit : n.argc + entries (tokens k) ≤ argsMax
  · rw [if_pos hfit] at h ⊢
    obtain ⟨m', l', hg, hl', hbuf, hrest⟩ := h
    obtain ⟨qs, hqs, hstr'⟩ := hg.strings
    refine ⟨m', x ++ l', ⟨hg.length.trans hlen, ?_, p ++ qs, ?_, ?_⟩, ?_, ?_, ?_⟩
    · rw [hg.argc, hargc, htok]
      simp only [List.length_append]
      omega
    · rw [hqs, hargs, List.map_append, List.append_assoc]
    · rw [htok, List.append_assoc]
      refine List.rel_append ?_ hstr'
      rw [hbuf]
      exact hstr _
    · rw [List.length_append, hl', hl]
    · rw [hbuf]
      simp only [List.append_assoc]
    · rw [hrest, htok, hl, List.length_append, Nat.add_assoc]
  · rwa [if_neg hfit] at h ⊢

/-- There is no room for a further argument. -/
theorem Memory.Scan.full (hpos : d.length ≤ bufferSize) (hent : 1 ≤ entries (tokens l))
    (hargs : m.args.length = argsMax) (hfull : ¬m.argc < m.args.length)
    (hturn : m.turn d.length = none) : m.Scan d l r := by
  unfold Memory.Scan
  rw [if_neg (by omega), interpretFrom_eq hpos, hturn]
  rfl

/-- The line ends here, behind the arguments `a`. -/
theorem Memory.Scan.last (hpos : d.length ≤ bufferSize) (hlen : n.args.length = m.args.length)
    (hargc : n.argc = m.argc + a.length)
    (hargs : n.args.take n.argc = m.args.take m.argc ++ p.map some)
    (hstr : List.Forall₂ (StringAt n.buf) p a) (hbuf : n.buf = d ++ (x ++ 0 :: r))
    (hl : x.length = l.length) (htok : (tokens l).1 ++ (tokens l).2.started = a)
    (hfit : m.argc + entries (tokens l) ≤ argsMax)
    (hturn : resume (m.turn d.length) = resume ((tokens l).2.turn n (d.length + l.length))) :
    m.Scan d l r := by
  unfold Memory.Scan
  rw [if_pos hfit, htok]
  exact ⟨n, x, ⟨hlen, hargc, p, hargs, hstr⟩, hl, hbuf, by rw [interpretFrom_eq hpos, hturn]⟩

/-- The line ends here in order; `NULL` needs a place in `args` as well. -/
theorem Memory.Scan.blank (hpos : d.length ≤ bufferSize) (hmax : m.args.length = argsMax)
    (hlen : n.args.length = m.args.length) (hargc : n.argc = m.argc + a.length)
    (hargs : n.args.take n.argc = m.args.take m.argc ++ p.map some)
    (hstr : List.Forall₂ (StringAt n.buf) p a) (hbuf : n.buf = d ++ (x ++ 0 :: r))
    (hl : x.length = l.length) (htok : tokens l = (a, .blank))
    (hturn : m.turn d.length = n.finish) : m.Scan d l r := by
  by_cases hfit : m.argc + entries (tokens l) ≤ argsMax
  · refine .last hpos hlen hargc hargs hstr hbuf hl ?_ hfit ?_
    · rw [htok]
      exact List.append_nil _
    · rw [hturn, htok]
      rfl
  · have hnull : n.nullArg = none := by
      refine if_neg ?_
      rw [htok] at hfit
      simp only [entries, reduceCtorEq, if_false] at hfit
      omega
    unfold Memory.Scan
    rw [if_neg hfit, interpretFrom_eq hpos, hturn, Memory.finish, hnull]
    rfl

end

/-- The line `l` stands in the buffer behind `d`. -/
structure Memory.At (m : Memory) (d l r : List UInt8) : Prop where
  buf : m.buf = d ++ (l ++ 0 :: r)
  size : m.buf.length ≤ bufferSize
  args : m.args.length = argsMax

theorem Memory.At.le {m : Memory} {d l r : List UInt8} (h : m.At d l r) :
    d.length ≤ bufferSize := by
  have hsize := h.size
  rw [h.buf, List.length_append] at hsize
  omega

/-- `interpret_line` gets the arguments of `l`, wherever it begins. -/
def Scans (l r : List UInt8) : Prop := ∀ (m : Memory) (d : List UInt8), m.At d l r → m.Scan d l r

/-- An iteration that reads the arguments `a` and goes on to the end of the white
    space behind `x` and `c`. -/
theorem Memory.Scan.blanks {m n : Memory} {d x l k r : List UInt8} {c : UInt8} {p : List ℕ}
    {a : List (List UInt8)} (h : m.At d l r)
    (hturn : m.turn d.length = n.blanks (d ++ x).length)
    (hlen : n.args.length = m.args.length) (hargc : n.argc = m.argc + a.length)
    (hargs : n.args.take n.argc = m.args.take m.argc ++ p.map some)
    (hbuf : n.buf = d ++ x ++ c :: (k ++ 0 :: r))
    (hstr : ∀ z, List.Forall₂ (StringAt (d ++ x ++ c :: z)) p a)
    (htok : tokens l = (a ++ (tokens k).1, (tokens k).2))
    (hl : l.length = x.length + 1 + k.length) (ih : ∀ rest, rest <:+ k → Scans rest r) :
    m.Scan d l r := by
  have hsize : n.buf.length = m.buf.length := by
    rw [hbuf, h.buf]
    simp only [List.length_append, List.length_cons, hl]
    omega
  obtain ⟨sp, rest, rfl, hsp, hblanks⟩ := Memory.blanks_eq hbuf
  refine .step (n := n) (x := x ++ c :: sp) ?_ h.le hlen hargc hargs (fun z => ?_) ?_ ?_
    (ih rest (List.suffix_append _ _) n _ ⟨?_, hsize.trans_le h.size, hlen.trans h.args⟩)
  · rw [hturn, hblanks]
    congr 2
    simp only [List.length_append, List.length_cons]
    omega
  · have hz := hstr (sp ++ z)
    simpa only [List.append_assoc, List.cons_append] using hz
  · rw [htok, tokens_spaces hsp]
  · rw [hl]
    simp only [List.length_append, List.length_cons]
    omega
  · rw [hbuf]
    simp only [List.append_assoc, List.cons_append]

theorem stringAt_append (d a tail : List UInt8) : StringAt (d ++ (a ++ 0 :: tail)) d.length a :=
  ⟨tail, by rw [List.drop_left]⟩

theorem set_length_append (d : List UInt8) (c : UInt8) (z : List UInt8) :
    (d ++ c :: z).set d.length 0 = d ++ 0 :: z := by simp

section

variable {m : Memory} {d l r w q rest : List UInt8} {c : UInt8}

/-- At the end of a line. -/
theorem scan_end (h : m.At d l r) {z : List UInt8} (hl : l ++ 0 :: r = c :: z)
    (hc : isEol c = true) (htok : tokens l = ([], .blank)) : m.Scan d l r := by
  have hturn : m.turn d.length = m.finish := Memory.turn_eol (by rw [h.buf, hl]) hc
  exact .blank (p := []) h.le h.args rfl rfl (by simp) .nil h.buf rfl htok hturn

/-- At white space. -/
theorem scan_space (h : m.At d (c :: l) r) (hc : isSpace c = true) (heol : isEol c = false)
    (ih : ∀ rest, rest <:+ l → Scans rest r) : m.Scan d (c :: l) r := by
  refine .blanks (n := m) (x := []) (c := c) (k := l) (p := []) (a := []) h ?_ rfl rfl (by simp)
    ?_ (fun _ => .nil) (tokens_space hc l) ?_ ih
  · rw [Memory.turn_space h.buf hc heol, List.append_nil]
  · rw [h.buf, List.append_nil]
    rfl
  · simp only [List.length_cons, List.length_nil]
    omega

/-- The argument `w` has been read and the byte behind it overwritten. -/
theorem cut_push_eq (h : m.buf = d ++ (w ++ c :: rest)) (p : ℕ) :
    ((m.push p).cut (d.length + w.length)).buf = d ++ (w ++ 0 :: rest) := by
  show m.buf.set (d.length + w.length) 0 = _
  rw [h, ← List.append_assoc, ← List.length_append, set_length_append, List.append_assoc]

/-- At a word that goes to the end of the line. -/
theorem scan_word_last (h : m.At d w r) (hw : Word w) (heol : ∀ b ∈ w, isEol b = false) :
    m.Scan d w r := by
  have hturn := Memory.turn_word h.buf hw heol rfl
  have htok := tokens_word hw
  by_cases hfull : m.argc < m.args.length
  · rw [if_pos hfull] at hturn
    have hbuf := cut_push_eq h.buf d.length
    refine .last (n := (m.push d.length).cut (d.length + w.length)) (p := [d.length]) (a := [w])
      h.le (by simp [Memory.push, Memory.cut]) rfl (Memory.push_args hfull _)
      (.cons ?_ .nil) hbuf rfl (by rw [htok]; rfl) ?_ ?_
    · rw [hbuf]
      exact stringAt_append _ _ _
    · rw [htok, ← h.args]
      exact hfull
    · rw [hturn, htok]
      rfl
  · rw [if_neg hfull] at hturn
    exact .full h.le (by rw [htok]; exact le_rfl) h.args hfull hturn

/-- At a word that white space follows. -/
theorem scan_word (h : m.At d (w ++ c :: l) r) (hw : Word w) (heol : ∀ b ∈ w, isEol b = false)
    (hc : isSpace c = true)
    (ih : ∀ rest, rest <:+ l → Scans rest r) :
    m.Scan d (w ++ c :: l) r := by
  have hbuf : m.buf = d ++ (w ++ c :: (l ++ 0 :: r)) := by
    rw [h.buf]
    simp only [List.append_assoc, List.cons_append]
  have hturn := Memory.turn_word hbuf hw heol (by rw [hc, Bool.or_true])
  by_cases hfull : m.argc < m.args.length
  · rw [if_pos hfull] at hturn
    refine .blanks (n := (m.push d.length).cut (d.length + w.length)) (x := w) (c := 0) (k := l)
      (p := [d.length]) (a := [w]) h ?_ (by simp [Memory.push, Memory.cut]) rfl
      (Memory.push_args hfull _) ?_ (fun z => .cons ?_ .nil) (tokens_word_append hw hc l) ?_ ih
    · rw [hturn, List.length_append]
    · rw [cut_push_eq hbuf, List.append_assoc]
    · rw [List.append_assoc]
      exact stringAt_append _ _ _
    · simp only [List.length_append, List.length_cons]
      omega
  · rw [if_neg hfull] at hturn
    refine .full h.le ?_ h.args hfull hturn
    rw [tokens_word_append hw hc]
    simp only [entries, List.length_cons]
    omega

end

section

variable {m : Memory} {d l r q z : List UInt8} {b c : UInt8}

theorem Memory.closing_eq (hbuf : m.buf = d ++ b :: c :: z) :
    m.closing d.length = if isEol c then (m.cut d.length).finish
      else if !isSpace c then some (.ret (m.cut d.length) (-1))
      else (m.cut d.length).blanks (d.length + 1) := by
  have hcut : (m.cut d.length).buf = d ++ 0 :: c :: z := by
    show m.buf.set d.length 0 = _
    rw [hbuf, set_length_append]
  have hget : (m.cut d.length).buf[d.length + 1]? = some c := by
    rw [hcut]
    simp
  have hword (hc : isSpace c = true) :
      (m.cut d.length).word (d.length + 1) = (m.cut d.length).blanks (d.length + 1) := by
    have h := Memory.word_space (m := m.cut d.length) (d := d ++ [0]) (c := c) (z := z)
      (by rw [hcut]; simp) hc
    simpa only [List.length_append, List.length_singleton] using h
  unfold Memory.closing
  show ((m.cut d.length).buf[d.length + 1]?).bind _ = _
  rw [hget, Option.bind_some]
  split
  · rfl
  · split
    · rfl
    · rename_i hc
      exact hword (by simpa using hc)

/-- At a quote that has no closing quote. -/
theorem scan_unterminated (h : m.At d (quote :: q) r) (hq : quote ∉ q) (ht : Text (quote :: q)) :
    m.Scan d (quote :: q) r := by
  obtain ⟨x, c, z, hx, hc, hxq⟩ : ∃ x c z, q ++ 0 :: r = x ++ c :: z ∧ isEol c = true ∧
      ∀ b ∈ x, b ∈ q ∧ isEol b = false := by
    by_cases h10 : 10 ∈ q
    · obtain ⟨x, y, rfl⟩ := List.append_of_mem h10
      refine ⟨x, 10, y ++ 0 :: r, by simp, rfl, fun b hb => ⟨List.mem_append_left _ hb, ?_⟩⟩
      have ht' : Text ([quote] ++ x ++ 10 :: y) := by simpa using ht
      exact ht'.isEol (List.cons_ne_nil _ _) (List.mem_append_right _ hb)
    · refine ⟨q, 0, r, rfl, rfl, fun b hb => ⟨hb, ?_⟩⟩
      have h0 : b ≠ 0 := fun he => ht.nul (he ▸ List.mem_cons_of_mem _ hb)
      simp [isEol, h0, ne_of_mem_of_not_mem hb h10]
  have hbuf : m.buf = d ++ quote :: (x ++ c :: z) := by
    rw [h.buf, List.cons_append, hx]
  have hturn := Memory.turn_quote hbuf (fun hb => hq (hxq _ hb).1) (fun b hb => (hxq b hb).2)
    (by rw [hc, Bool.true_or])
  have htok := tokens_unterminated hq
  by_cases hfull : m.argc < m.args.length
  · rw [if_pos hfull, if_pos hc] at hturn
    refine .last (n := m.push (d.length + 1)) (p := [d.length + 1]) (a := [q]) h.le
      (by simp [Memory.push]) rfl (Memory.push_args hfull _) (.cons ⟨r, ?_⟩ .nil) h.buf rfl
      (by rw [htok]; rfl) ?_ ?_
    · show m.buf.drop _ = _
      rw [h.buf, List.cons_append, drop_length_succ]
    · rw [htok, ← h.args]
      exact hfull
    · rw [hturn, htok]
      rfl
  · rw [if_neg hfull] at hturn
    exact .full h.le (by rw [htok]; exact le_rfl) h.args hfull hturn

/-- A quoted argument has been read, and `c` is the byte behind its closing quote. -/
theorem turn_closed (hbuf : m.buf = d ++ quote :: (q ++ quote :: c :: z)) (hq : quote ∉ q)
    (heol : ∀ b ∈ q, isEol b = false) (hfull : m.argc < m.args.length) :
    ∃ n : Memory, n.args.length = m.args.length ∧ n.argc = m.argc + [q].length ∧
      n.args.take n.argc = m.args.take m.argc ++ [d.length + 1].map some ∧
      n.buf = d ++ quote :: q ++ 0 :: c :: z ∧
      m.turn d.length = if isEol c then n.finish
        else if !isSpace c then some (.ret n (-1))
        else n.blanks ((d ++ quote :: q).length + 1) := by
  have hlen : (d ++ quote :: q).length = d.length + 1 + q.length := by
    simp only [List.length_append, List.length_cons]
    omega
  have hpush : (m.push (d.length + 1)).buf = d ++ quote :: q ++ quote :: c :: z := by
    show m.buf = _
    rw [hbuf, List.append_assoc, List.cons_append]
  have hturn := Memory.turn_quote hbuf hq heol rfl
  rw [if_pos hfull, if_neg (show ¬isEol quote = true by decide), ← hlen,
    Memory.closing_eq hpush] at hturn
  refine ⟨(m.push (d.length + 1)).cut (d ++ quote :: q).length, ?_, rfl,
    Memory.push_args hfull (d.length + 1), ?_, hturn⟩
  · simp [Memory.push, Memory.cut]
  · show (m.push (d.length + 1)).buf.set _ 0 = _
    rw [hpush, set_length_append]

theorem stringAt_quoted (d q z : List UInt8) :
    StringAt (d ++ quote :: q ++ 0 :: z) (d.length + 1) q :=
  ⟨z, by rw [List.append_assoc, List.cons_append, drop_length_succ]⟩

/-- At a quoted argument. -/
theorem scan_quoted (h : m.At d (quote :: (q ++ quote :: l)) r) (hq : quote ∉ q)
    (ht : Text (quote :: (q ++ quote :: l))) (ih : ∀ rest, rest <:+ l → Scans rest r) :
    m.Scan d (quote :: (q ++ quote :: l)) r := by
  have heol : ∀ b ∈ q, isEol b = false := by
    intro b hb
    have ht' : Text ([quote] ++ q ++ quote :: l) := by simpa using ht
    exact ht'.isEol (List.cons_ne_nil _ _) (List.mem_append_right _ hb)
  obtain ⟨c, z, hcz⟩ : ∃ c z, l ++ 0 :: r = c :: z := List.exists_cons_of_ne_nil (by simp)
  have hbuf : m.buf = d ++ quote :: (q ++ quote :: c :: z) := by
    rw [h.buf, ← hcz]
    simp only [List.append_assoc, List.cons_append]
  have htok := tokens_quoted hq l
  by_cases hfull : m.argc < m.args.length
  · obtain ⟨n, hlen, hargc, hargs, hn, hturn⟩ := turn_closed hbuf hq heol hfull
    rw [← hcz] at hn
    have hn' : n.buf = d ++ (quote :: (q ++ 0 :: l) ++ 0 :: r) := by
      rw [hn]
      simp only [List.append_assoc, List.cons_append]
    have hstr : List.Forall₂ (StringAt n.buf) [d.length + 1] [q] := by
      rw [hn]
      exact .cons (stringAt_quoted _ _ _) .nil
    by_cases hc : isEol c = true
    · -- the line ends behind the closing quote
      rw [if_pos hc] at hturn
      obtain ⟨htl, hspace⟩ := tokens_rest (Text.rest (x := quote :: (q ++ [quote]))
        (by simpa using ht) hcz hc)
      rw [if_pos hspace, htl] at htok
      exact .blank h.le h.args hlen hargc hargs hstr hn' (by simp) htok hturn
    · rw [if_neg hc] at hturn
      obtain ⟨l', rfl⟩ : ∃ l', l = c :: l' := by
        cases l with
        | nil =>
          rw [← (List.cons.inj hcz).1] at hc
          exact absurd rfl hc
        | cons b l' => exact ⟨l', by rw [(List.cons.inj hcz).1]⟩
      by_cases hs : isSpace c = true
      · -- white space follows
        rw [if_neg (by simpa using hs)] at hturn
        rw [if_pos (show ((c :: l').head?.all isSpace) = true from hs)] at htok
        refine .blanks (n := n) (x := quote :: (q ++ [0])) (c := c) (k := l') h ?_ hlen hargc hargs
          ?_ (fun z => .cons ?_ .nil) (htok.trans ?_) ?_
          fun rest hr => ih rest (hr.trans (List.suffix_cons _ _))
        · rw [hturn]
          congr 1
          simp only [List.length_append, List.length_cons, List.length_nil]
          omega
        · rw [hn]
          simp only [List.append_assoc, List.cons_append, List.nil_append]
        · have hz := stringAt_quoted d q (c :: z)
          simpa only [List.append_assoc, List.cons_append, List.nil_append] using hz
        · rw [tokens_space hs]
          rfl
        · simp only [List.length_append, List.length_cons, List.length_nil]
          omega
      · -- something else follows
        rw [if_pos (by simpa using hs)] at hturn
        have hns : ¬((c :: l').head?.all isSpace) = true := by simpa using hs
        rw [if_neg hns] at htok
        refine .last h.le hlen hargc hargs hstr hn' (by simp) (by rw [htok]; rfl) ?_ ?_
        · rw [htok, ← h.args]
          exact hfull
        · rw [hturn, htok]
          rfl
  · have hturn := Memory.turn_quote hbuf hq heol rfl
    rw [if_neg hfull] at hturn
    refine .full h.le ?_ h.args hfull hturn
    rw [htok]
    split
    · simp only [entries, List.length_cons]
      omega
    · exact le_rfl

end

/-! ## Any line -/

/-- How the rest of a line can begin. -/
inductive Shape : List UInt8 → Prop
  | nil : Shape []
  | space {c : UInt8} {l : List UInt8} (hc : isSpace c = true) : Shape (c :: l)
  | unterminated {q : List UInt8} (hq : quote ∉ q) : Shape (quote :: q)
  | quoted {q l : List UInt8} (hq : quote ∉ q) : Shape (quote :: (q ++ quote :: l))
  | last {w : List UInt8} (hw : Word w) : Shape w
  | word {w l : List UInt8} {c : UInt8} (hw : Word w) (hc : isSpace c = true) : Shape (w ++ c :: l)

theorem shape (l : List UInt8) : Shape l := by
  cases l with
  | nil => exact .nil
  | cons c l =>
    by_cases hs : isSpace c = true
    · exact .space hs
    by_cases hq : c = quote
    · subst hq
      by_cases hmem : quote ∈ l
      · obtain ⟨q, l, rfl, hnq⟩ := List.eq_append_cons_of_mem hmem
        exact .quoted hnq
      · exact .unterminated hmem
    have hw : Word (c :: l.takeWhile (!isSpace ·)) := by
      refine ⟨List.cons_ne_nil _ _, by simpa using hq, ?_⟩
      intro b hb
      obtain rfl | hb := List.mem_cons.mp hb
      · simpa using hs
      · simpa using List.mem_takeWhile_imp hb
    have happ : c :: l = c :: l.takeWhile (!isSpace ·) ++ l.dropWhile (!isSpace ·) := by
      rw [List.cons_append, List.takeWhile_append_dropWhile]
    cases hd : l.dropWhile (!isSpace ·) with
    | nil =>
      rw [hd, List.append_nil] at happ
      rw [happ]
      exact .last hw
    | cons b rest =>
      have hb : isSpace b = true := by
        have hne : l.dropWhile (!isSpace ·) ≠ [] := by simp [hd]
        have := List.head_dropWhile_not (!isSpace ·) hne
        simpa [hd] using this
      rw [happ, hd]
      exact .word hw hb

theorem Word.isEol {w : List UInt8} (hw : Word w) (h0 : 0 ∉ w) : ∀ b ∈ w, isEol b = false := by
  intro b hb
  have hb0 : b ≠ 0 := ne_of_mem_of_not_mem hb h0
  have hb10 : b ≠ 10 := by
    rintro rfl
    exact absurd (hw.space 10 hb) (by decide)
  simp [Shell.isEol, hb0, hb10]

/-- `interpret_line` gets the arguments of every line. -/
theorem scan {l r : List UInt8} (ht : Text l) : Scans l r := by
  induction hn : l.length using Nat.strong_induction_on generalizing l with
  | _ n ih =>
    have hrec : ∀ x k, l = x ++ k → x ≠ [] → ∀ rest, rest <:+ k → Scans rest r := by
      rintro x k rfl hx rest ⟨y, rfl⟩
      refine ih rest.length ?_ (Text.of_append (x := x ++ y) (by simpa using ht)) rfl
      have hpos := List.length_pos_of_ne_nil hx
      simp only [List.length_append] at hn
      omega
    intro m d h
    cases shape l with
    | nil => exact scan_end h rfl rfl tokens_nil
    | @space c l hc =>
      by_cases heol : isEol c = true
      · exact scan_end h rfl heol
          (tokens_rest (Text.rest (x := []) (l := c :: l) (r := r) ht rfl heol)).1
      · exact scan_space h hc (by simpa using heol) (hrec [c] l rfl (List.cons_ne_nil _ _))
    | unterminated hq => exact scan_unterminated h hq ht
    | @quoted q l hq =>
      exact scan_quoted h hq ht (hrec (quote :: (q ++ [quote])) l (by simp) (List.cons_ne_nil _ _))
    | last hw => exact scan_word_last h hw (hw.isEol ht.nul)
    | @word w l c hw hc =>
      exact scan_word h hw (hw.isEol fun h0 => ht.nul (List.mem_append_left _ h0)) hc
        (hrec (w ++ [c]) l (by simp) (by simp))

theorem interpretLine_scan {l r : List UInt8} (ht : Text l) (args : List (Option ℕ))
    (hsize : (l ++ 0 :: r).length ≤ bufferSize) (hargs : args.length = argsMax) :
    if entries (tokens l) ≤ argsMax then
      ∃ m' l', Memory.Gains ⟨l ++ 0 :: r, 0, args⟩ m' ((tokens l).1 ++ (tokens l).2.started) ∧
        l'.length = l.length ∧ m'.buf = l' ++ 0 :: r ∧
        interpretLine (l ++ 0 :: r) args = resume ((tokens l).2.turn m' l.length)
    else interpretLine (l ++ 0 :: r) args = none := by
  have h := scan ht ⟨l ++ 0 :: r, 0, args⟩ [] ⟨rfl, hsize, hargs⟩
  simpa only [Memory.Scan, interpretLine, Nat.zero_add, List.nil_append, List.length_nil] using h

/-- What a newline behind a line changes. -/
def Ending.newline : Ending → Ending
  | .word => .blank
  | .unterminated arg => .unterminated (arg ++ [10])
  | e => e

theorem tokens_newline (b : List UInt8) :
    tokens (b ++ [10]) = ((tokens b).1, (tokens b).2.newline) := by
  induction hn : b.length using Nat.strong_induction_on generalizing b with
  | _ n ih =>
    have hspace : isSpace 10 = true := by decide
    cases shape b with
    | nil =>
      rw [List.nil_append, tokens_space hspace, tokens_nil]
      rfl
    | @space c l hc =>
      rw [List.cons_append, tokens_space hc, tokens_space hc,
        ih l.length (by simp at hn; omega) l rfl]
    | @unterminated q hq =>
      have hq' : quote ∉ q ++ [10] := by
        rw [List.mem_append, List.mem_singleton]
        exact not_or.mpr ⟨hq, by decide⟩
      rw [List.cons_append, tokens_unterminated hq, tokens_unterminated hq']
      rfl
    | @quoted q l hq =>
      have hl : (l ++ [10]).head?.all isSpace = l.head?.all isSpace := by cases l <;> simp [hspace]
      rw [List.cons_append, List.append_assoc, List.cons_append, tokens_quoted hq,
        tokens_quoted hq, hl, ih l.length (by simp at hn; omega) l rfl]
      split <;> rfl
    | last hw =>
      rw [tokens_word_append hw hspace, tokens_nil, tokens_word hw]
      rfl
    | @word w l c hw hc =>
      rw [List.append_assoc, List.cons_append, tokens_word_append hw hc, tokens_word_append hw hc,
        ih l.length (by simp at hn; omega) l rfl]

/-! ## The results -/

/-- The line is well formed. -/
def Ending.ok : Ending → Bool
  | .blank | .word => true
  | .unterminated _ | .unspaced _ => false

/-- `argc` and `args` are the arguments `as`, and `NULL` follows. -/
structure Memory.Holds (m : Memory) (as : List (List UInt8)) : Prop where
  argc : m.argc = as.length
  null : m.args[m.argc]? = some none
  strings : ∃ ps : List ℕ, m.args.take m.argc = ps.map some ∧ List.Forall₂ (StringAt m.buf) ps as

/-- The end of a line that is well formed. -/
theorem Memory.Gains.finish {m m' : Memory} {as : List (List UInt8)} (h : m.Gains m' as)
    (hm : m.argc = 0) (hlt : m'.argc < m'.args.length) :
    ∃ n, resume m'.finish = some (n, 0) ∧ n.Holds as := by
  obtain ⟨ps, hps, hstr⟩ := h.strings
  refine ⟨{ m' with args := m'.args.set m'.argc none }, ?_, ?_, ?_, ps, ?_, hstr⟩
  · unfold Memory.finish Memory.nullArg
    rw [if_pos hlt]
    rfl
  · rw [show m'.argc = _ from h.argc, hm, Nat.zero_add]
  · exact List.getElem?_set_self hlt
  · show (m'.args.set m'.argc none).take m'.argc = _
    rw [List.take_set_of_le le_rfl, hps, hm]
    rfl

/-- `interpret_line` returns the arguments of a complete line with at most 255 of
    them, or `-1` if the line is malformed. -/
theorem interpretLine_tokens {b r : List UInt8} {args : List (Option ℕ)} (h0 : 0 ∉ b) (h10 : 10 ∉ b)
    (hsize : (b ++ 10 :: 0 :: r).length = bufferSize) (hargs : args.length = argsMax)
    (hmax : (tokens b).1.length ≤ 255) :
    if (tokens b).2.ok then
      ∃ m, interpretLine (b ++ 10 :: 0 :: r) args = some (m, 0) ∧ m.Holds (tokens b).1
    else ∃ m, interpretLine (b ++ 10 :: 0 :: r) args = some (m, -1) := by
  have ht : Text (b ++ [10]) := ⟨by simpa using h0, by simpa using h10⟩
  have hbuf : b ++ 10 :: 0 :: r = b ++ [10] ++ 0 :: r := by simp
  rw [hbuf] at hsize ⊢
  have hscan := interpretLine_scan ht args hsize.le hargs
  rw [tokens_newline] at hscan
  have hent : entries ((tokens b).1, (tokens b).2.newline) = (tokens b).1.length + 1 := by
    cases (tokens b).2 <;> rfl
  have hfit : (tokens b).1.length + 1 ≤ argsMax := Nat.succ_le_succ hmax
  rw [hent, if_pos hfit] at hscan
  obtain ⟨m', l', hg, -, -, hrun⟩ := hscan
  rw [hrun]
  cases he : (tokens b).2 with
  | blank | word =>
    rw [he] at hg
    have hg' : Memory.Gains ⟨b ++ [10] ++ 0 :: r, 0, args⟩ m' (tokens b).1 := by
      simpa only [Ending.newline, Ending.started, List.append_nil] using hg
    refine hg'.finish rfl ?_
    rw [hg'.length, hg'.argc, hargs, Nat.zero_add]
    exact hfit
  | unterminated | unspaced => exact ⟨m', rfl⟩

theorem word_ls : Word [108, 115] := ⟨by decide, by decide, by simp [isSpace]⟩

/-- `ls` -/
theorem interpretLine_tokens_ls :
    ∃ m, interpretLine ([108, 115] ++ 10 :: 0 :: List.replicate 8188 1) (List.replicate 256 none) =
      some (m, 0) ∧ m.Holds [[108, 115]] := by
  have h := interpretLine_tokens (b := [108, 115]) (r := List.replicate 8188 1) (by decide)
    (by decide) (by simp only [List.length_append, List.length_cons, List.length_replicate]; rfl)
    (List.length_replicate (n := 256) (a := none)) (by rw [tokens_word word_ls]; decide)
  rw [tokens_word word_ls] at h
  exact h

end AghOs.Shell
