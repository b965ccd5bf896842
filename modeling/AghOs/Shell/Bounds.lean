import AghOs.Machine.Strtok
import AghOs.Shell.Leaks

/-!
# Where the tokenizer stays in bounds

`interpret_line` (`interpreter.c`, lines 16–74) compares `pos` with `BUFFER_SIZE`
between two arguments only, and `argc` with nothing. After a word it steps over the
byte behind it, also when that is the `0` at the end of the line.

* `Covers`: the bytes in which the scan comes to an end, and how many entries of
  `args` it writes on the way.
* `interpretFrom_iff`: the scan of any bytes.
* `in_bounds_iff`: the contents of the buffer on which it stays in bounds.
-/

namespace AghOs.Shell

/-- The scan of the bytes, which are the last of the buffer, comes to an end, and
    writes `n` entries of `args`. -/
inductive Covers : List UInt8 → ℕ → Prop
  | eol {c : UInt8} {z : List UInt8} : isEol c = true → Covers (c :: z) 1
  | space {c : UInt8} {z : List UInt8} {n : ℕ} :
      isSpace c = true → isEol c = false → Covers z n → Covers (c :: z) n
  | word {w z : List UInt8} {c : UInt8} {n : ℕ} : Word w → (∀ b ∈ w, isEol b = false) →
      (isEol c || isSpace c) = true → Covers z n → Covers (w ++ c :: z) (n + 1)
  | unterminated {q z : List UInt8} {c : UInt8} : quote ∉ q → (∀ b ∈ q, isEol b = false) →
      isEol c = true → Covers (quote :: (q ++ c :: z)) 1
  | closed {q z : List UInt8} {c : UInt8} : quote ∉ q → (∀ b ∈ q, isEol b = false) →
      isEol c = true → Covers (quote :: (q ++ quote :: c :: z)) 2
  | unspaced {q z : List UInt8} {c : UInt8} : quote ∉ q → (∀ b ∈ q, isEol b = false) →
      isEol c = false → isSpace c = false → Covers (quote :: (q ++ quote :: c :: z)) 1
  | quoted {q z : List UInt8} {c : UInt8} {n : ℕ} : quote ∉ q → (∀ b ∈ q, isEol b = false) →
      isEol c = false → isSpace c = true → Covers z n →
      Covers (quote :: (q ++ quote :: c :: z)) (n + 1)

/-! ## An iteration on any bytes -/

/-- The bytes `s` are the rest of the buffer, behind `d`. -/
structure Memory.Rest (m : Memory) (d s : List UInt8) : Prop where
  buf : m.buf = d ++ s
  size : m.buf.length ≤ bufferSize
  args : m.args.length = argsMax

theorem advance_none {stop : UInt8 → Bool} {l : List UInt8}
    (hl : ∀ b ∈ l, isEol b = false ∧ stop b = false) (pos : ℕ) : advance stop l pos = none := by
  induction l generalizing pos with
  | nil => rfl
  | cons b l ih =>
    obtain ⟨he, hs⟩ := hl b List.mem_cons_self
    rw [advance, if_neg (by simp [he, hs])]
    exact ih (fun b' hb' => hl b' (List.mem_cons_of_mem _ hb')) _

section

variable {m : Memory} {d w q z : List UInt8} {c : UInt8}

theorem Memory.Rest.le {s : List UInt8} (h : m.Rest d s) : d.length ≤ bufferSize := by
  have hsize := h.size
  rw [h.buf, List.length_append] at hsize
  omega

/-- The end of the buffer. -/
theorem from_nil (h : m.Rest d []) : interpretFrom m d.length = none := by
  have hturn : m.turn d.length = none := by
    unfold Memory.turn
    rw [h.buf, List.append_nil, List.getElem?_eq_none le_rfl]
    rfl
  rw [interpretFrom_eq h.le, hturn]
  rfl

/-- The last loop goes on as the next iteration does. -/
theorem resume_blanks (h : m.Rest d (c :: z)) :
    resume (m.blanks d.length) = interpretFrom m (d ++ [c]).length := by
  have hbuf : m.buf = (d ++ [c]) ++ z := by rw [h.buf, List.append_assoc]; rfl
  have hlen : (d ++ [c]).length = d.length + 1 := by simp
  cases z with
  | nil =>
    rw [from_nil ⟨hbuf, h.size, h.args⟩, Memory.blanks, h.buf, drop_length_succ]
    rfl
  | cons b z =>
    by_cases hb : (isEol b || !isSpace b) = true
    · rw [Memory.blanks, h.buf, drop_length_succ, advance, if_pos hb, hlen]
      rfl
    · obtain ⟨heol, hs⟩ : isEol b = false ∧ isSpace b = true := by simpa using hb
      have hle : (d ++ [c]).length ≤ bufferSize := Memory.Rest.le ⟨hbuf, h.size, h.args⟩
      rw [interpretFrom_eq hle, Memory.turn_space hbuf hs heol, Memory.blanks, Memory.blanks, h.buf,
        drop_length_succ, advance, if_neg hb, ← hlen]
      conv_rhs => rw [← h.buf, hbuf, drop_length_succ]

/-- `args[*argc] = NULL` needs an entry as well. -/
theorem resume_finish (hargs : m.args.length = argsMax) :
    resume m.finish ≠ none ↔ m.argc + 1 ≤ argsMax := by
  unfold Memory.finish Memory.nullArg
  rw [hargs]
  split
  · exact ⟨fun _ => by omega, fun _ => nofun⟩
  · exact ⟨fun h => absurd rfl h, fun _ => by omega⟩

theorem from_eol (h : m.Rest d (c :: z)) (hc : isEol c = true) :
    interpretFrom m d.length = resume m.finish := by
  rw [interpretFrom_eq h.le, Memory.turn_eol h.buf hc]

theorem from_space (h : m.Rest d (c :: z)) (hc : isSpace c = true) (heol : isEol c = false) :
    interpretFrom m d.length = interpretFrom m (d ++ [c]).length := by
  rw [interpretFrom_eq h.le, Memory.turn_space h.buf hc heol, resume_blanks h]

/-- A word, and the byte behind it. -/
theorem from_word (h : m.Rest d (w ++ c :: z)) (hw : Word w) (heol : ∀ b ∈ w, isEol b = false)
    (hc : (isEol c || isSpace c) = true) : ∃ n : Memory, n.Rest (d ++ w ++ [0]) z ∧
      n.argc = m.argc + 1 ∧ interpretFrom m d.length =
        if m.argc < argsMax then interpretFrom n (d ++ w ++ [0]).length else none := by
  have hturn := Memory.turn_word h.buf hw heol hc
  have hbuf := cut_push_eq h.buf d.length
  rw [← List.length_append] at hturn hbuf
  have hrest : ((m.push d.length).cut (d ++ w).length).Rest (d ++ w) (0 :: z) := by
    refine ⟨by rw [hbuf, List.append_assoc], ?_, ?_⟩
    · refine Nat.le_trans (Nat.le_of_eq ?_) h.size
      rw [hbuf, h.buf]
      simp
    · exact List.length_set.trans h.args
  refine ⟨_, ⟨?_, hrest.size, hrest.args⟩, rfl, ?_⟩
  · rw [hrest.buf, List.append_assoc _ [0]]
    rfl
  · rw [interpretFrom_eq h.le, hturn, h.args]
    split
    · exact resume_blanks hrest
    · rfl

/-- A word that goes to the end of the buffer. -/
theorem from_open_word (h : m.Rest d w) (hw : Word w) (heol : ∀ b ∈ w, isEol b = false) :
    interpretFrom m d.length = none := by
  obtain ⟨b, w, rfl⟩ := List.exists_cons_of_ne_nil hw.ne_nil
  have hq : b ≠ quote := fun he => hw.head (by rw [he]; rfl)
  have hb := hw.space b List.mem_cons_self
  have hadv : advance isSpace (m.buf.drop (d.length + 1)) d.length = none := by
    rw [h.buf, drop_length_succ]
    exact advance_none (fun b' hb' => ⟨heol b' (List.mem_cons_of_mem _ hb'),
      hw.space b' (List.mem_cons_of_mem _ hb')⟩) _
  have hget : m.buf[d.length]? = some b := by rw [h.buf, getElem?_length_append]
  have hturn : m.turn d.length = none := by
    unfold Memory.turn
    rw [hget, Option.bind_eq_bind, Option.bind_some, if_neg (by simp [heol b List.mem_cons_self]),
      if_neg (by simpa using hq)]
    unfold Memory.word
    rw [hget, Option.bind_eq_bind, Option.bind_some, if_pos (by simp [hb]), Memory.pushArg_eq]
    split
    · show (advance isSpace (m.buf.drop (d.length + 1)) d.length).bind _ = _
      rw [hadv]
      rfl
    · rfl
  rw [interpretFrom_eq h.le, hturn]
  rfl

/-- A quote with neither a quote nor the end of a line behind it. -/
theorem from_open_quote (h : m.Rest d (quote :: q)) (hq : quote ∉ q)
    (heol : ∀ b ∈ q, isEol b = false) : interpretFrom m d.length = none := by
  have hadv : advance (· == quote) (m.buf.drop (d.length + 1)) d.length = none := by
    rw [h.buf, drop_length_succ]
    exact advance_none (fun b hb => ⟨heol b hb, by simpa using ne_of_mem_of_not_mem hb hq⟩) _
  have hturn : m.turn d.length = none := by
    unfold Memory.turn
    rw [show m.buf[d.length]? = some quote by rw [h.buf, getElem?_length_append],
      Option.bind_eq_bind, Option.bind_some, if_neg (by decide), if_pos (by decide),
      Memory.pushArg_eq]
    split
    · show (advance (· == quote) (m.buf.drop (d.length + 1)) d.length).bind _ = _
      rw [hadv]
      rfl
    · rfl
  rw [interpretFrom_eq h.le, hturn]
  rfl

theorem from_unterminated (h : m.Rest d (quote :: (q ++ c :: z))) (hq : quote ∉ q)
    (heol : ∀ b ∈ q, isEol b = false) (hc : isEol c = true) : interpretFrom m d.length =
      if m.argc < argsMax then some (m.push (d.length + 1), -1) else none := by
  rw [interpretFrom_eq h.le, Memory.turn_quote h.buf hq heol (by rw [hc, Bool.true_or]), h.args]
  split <;> rfl

/-- A closing quote at the end of the buffer. -/
theorem from_closed_end (h : m.Rest d (quote :: (q ++ [quote]))) (hq : quote ∉ q)
    (heol : ∀ b ∈ q, isEol b = false) : interpretFrom m d.length = none := by
  have hlen : m.buf.length = d.length + 1 + q.length + 1 := by
    rw [h.buf]
    simp
    omega
  have hclosing : (m.push (d.length + 1)).closing (d.length + 1 + q.length) = none := by
    have hget : (m.buf.set (d.length + 1 + q.length) 0)[d.length + 1 + q.length + 1]? = none :=
      List.getElem?_eq_none (by rw [List.length_set, hlen])
    show ((m.buf.set (d.length + 1 + q.length) 0)[d.length + 1 + q.length + 1]?).bind _ = none
    rw [hget]
    rfl
  rw [interpretFrom_eq h.le, Memory.turn_quote h.buf hq heol rfl, hclosing]
  split <;> rfl

/-- A quote, when `args` is full. -/
theorem from_quote_full (h : m.Rest d (quote :: (q ++ c :: z))) (hq : quote ∉ q)
    (heol : ∀ b ∈ q, isEol b = false) (hc : (isEol c || c == quote) = true)
    (hfull : ¬m.argc < argsMax) : interpretFrom m d.length = none := by
  rw [interpretFrom_eq h.le, Memory.turn_quote h.buf hq heol hc, h.args, if_neg hfull]
  rfl

/-- A closing quote, and the byte behind it. -/
theorem from_closed (h : m.Rest d (quote :: (q ++ quote :: c :: z))) (hq : quote ∉ q)
    (heol : ∀ b ∈ q, isEol b = false) (hfree : m.argc < argsMax) :
    ∃ n : Memory, n.Rest (d ++ quote :: q ++ [0] ++ [c]) z ∧ n.argc = m.argc + 1 ∧
      interpretFrom m d.length =
        if isEol c then resume n.finish
        else if !isSpace c then some (n, -1)
        else interpretFrom n (d ++ quote :: q ++ [0] ++ [c]).length := by
  obtain ⟨n, hlen, hargc, -, hbuf, hturn⟩ := turn_closed h.buf hq heol (h.args ▸ hfree)
  have hbuf' : n.buf = (d ++ quote :: q ++ [0]) ++ c :: z := by
    rw [hbuf, List.append_assoc _ [0]]
    rfl
  have hrest : n.Rest (d ++ quote :: q ++ [0]) (c :: z) := by
    refine ⟨hbuf', Nat.le_trans (Nat.le_of_eq ?_) h.size, hlen.trans h.args⟩
    rw [hbuf, h.buf]
    simp
  have hpos : (d ++ quote :: q).length + 1 = (d ++ quote :: q ++ [0]).length := by
    simp [Nat.add_assoc]
  refine ⟨n, ⟨?_, hrest.size, hrest.args⟩, hargc, ?_⟩
  · rw [hbuf', List.append_assoc _ [c]]
    rfl
  · rw [interpretFrom_eq h.le, hturn, hpos]
    split
    · rfl
    · split
      · rfl
      · exact resume_blanks hrest

end

/-! ## The scan of any bytes -/

/-- If the scan comes to an end, only the entries of `args` matter. -/
theorem Covers.iff {s : List UInt8} {k : ℕ} (hs : Covers s k) {m : Memory} {d : List UInt8}
    (h : m.Rest d s) : interpretFrom m d.length ≠ none ↔ m.argc + k ≤ argsMax := by
  induction hs generalizing m d with
  | eol hc =>
    rw [from_eol h hc]
    exact resume_finish h.args
  | @space c z k hc heol _ ih =>
    rw [from_space h hc heol]
    exact ih ⟨by rw [h.buf, List.append_assoc]; rfl, h.size, h.args⟩
  | word hw heol hc _ ih =>
    obtain ⟨n, hn, hargc, hrun⟩ := from_word h hw heol hc
    have ih := ih hn
    rw [hrun]
    split
    · rw [ih, hargc]
      omega
    · exact ⟨fun h => absurd rfl h, fun _ => by omega⟩
  | unterminated hq heol hc =>
    rw [from_unterminated h hq heol hc]
    split
    · exact ⟨fun _ => by omega, fun _ => nofun⟩
    · exact ⟨fun h => absurd rfl h, fun _ => by omega⟩
  | closed hq heol hc =>
    by_cases hfree : m.argc < argsMax
    · obtain ⟨n, hn, hargc, hrun⟩ := from_closed h hq heol hfree
      rw [hrun, if_pos hc, resume_finish hn.args, hargc]
    · rw [from_quote_full h hq heol rfl hfree]
      exact ⟨fun h => absurd rfl h, fun _ => by omega⟩
  | unspaced hq heol hc hs =>
    by_cases hfree : m.argc < argsMax
    · obtain ⟨n, hn, hargc, hrun⟩ := from_closed h hq heol hfree
      rw [hrun, if_neg (by simp [hc]), if_pos (by simp [hs])]
      exact ⟨fun _ => by omega, fun _ => nofun⟩
    · rw [from_quote_full h hq heol rfl hfree]
      exact ⟨fun h => absurd rfl h, fun _ => by omega⟩
  | quoted hq heol hc hs _ ih =>
    by_cases hfree : m.argc < argsMax
    · obtain ⟨n, hn, hargc, hrun⟩ := from_closed h hq heol hfree
      have ih := ih hn
      rw [hrun, if_neg (by simp [hc]), if_neg (by simp [hs]), ih, hargc]
      omega
    · rw [from_quote_full h hq heol rfl hfree]
      exact ⟨fun h => absurd rfl h, fun _ => by omega⟩

/-- The first byte with `p`, if there is one. -/
theorem split_first (p : UInt8 → Bool) (l : List UInt8) : (∀ b ∈ l, p b = false) ∨
    ∃ x c z, l = x ++ c :: z ∧ (∀ b ∈ x, p b = false) ∧ p c = true := by
  have hx : ∀ b ∈ l.takeWhile (!p ·), p b = false := fun b hb => by
    simpa using List.mem_takeWhile_imp hb
  have hl : l = l.takeWhile (!p ·) ++ l.dropWhile (!p ·) := List.takeWhile_append_dropWhile.symm
  cases hd : l.dropWhile (!p ·) with
  | nil =>
    rw [hd, List.append_nil] at hl
    exact .inl (hl ▸ hx)
  | cons c z =>
    rw [hd] at hl
    exact .inr ⟨_, c, z, hl, hx, by simpa using dropWhile_head hd⟩

/-- The scan leaves the buffer. -/
def Leaves (s : List UInt8) : Prop :=
  ∀ (m : Memory) (d : List UInt8), m.Rest d s → interpretFrom m d.length = none

section

variable {w q z : List UInt8} {c : UInt8}

theorem Leaves.space (hz : Leaves z) (hc : isSpace c = true) (heol : isEol c = false) :
    Leaves (c :: z) := by
  intro m d h
  rw [from_space h hc heol]
  exact hz m _ ⟨by rw [h.buf, List.append_assoc]; rfl, h.size, h.args⟩

theorem Leaves.word (hz : Leaves z) (hw : Word w) (heol : ∀ b ∈ w, isEol b = false)
    (hc : (isEol c || isSpace c) = true) : Leaves (w ++ c :: z) := by
  intro m d h
  obtain ⟨n, hn, -, hrun⟩ := from_word h hw heol hc
  rw [hrun, hz n _ hn, ite_self]

theorem Leaves.quoted (hz : Leaves z) (hq : quote ∉ q) (heol : ∀ b ∈ q, isEol b = false)
    (hc : isEol c = false) (hs : isSpace c = true) :
    Leaves (quote :: (q ++ quote :: c :: z)) := by
  intro m d h
  by_cases hfree : m.argc < argsMax
  · obtain ⟨n, hn, -, hrun⟩ := from_closed h hq heol hfree
    rw [hrun, if_neg (by simp [hc]), if_neg (by simp [hs])]
    exact hz n _ hn
  · exact from_quote_full h hq heol rfl hfree

end

/-- The scan comes to an end in the bytes, or leaves them at their end. -/
def Decided (s : List UInt8) : Prop := (∃ k, Covers s k) ∨ Leaves s

section

variable {s : List UInt8} {a : UInt8} (ih : ∀ z : List UInt8, z.length < s.length → Decided z)
include ih

theorem decided_quote : Decided (quote :: s) := by
  obtain hall | ⟨q, c, z, rfl, hall, hc⟩ := split_first (fun b => isEol b || b == quote) s
  · refine .inr fun m d h => from_open_quote h (fun hq => ?_) fun b hb => ?_
    · simpa using hall quote hq
    · exact (Bool.or_eq_false_iff.mp (hall b hb)).1
  have hq : quote ∉ q := fun hq => by simpa using hall quote hq
  have hqeol : ∀ b ∈ q, isEol b = false := fun b hb => (Bool.or_eq_false_iff.mp (hall b hb)).1
  by_cases hceol : isEol c = true
  · exact .inl ⟨1, .unterminated hq hqeol hceol⟩
  obtain rfl : c = quote := by simpa [hceol] using hc
  cases z with
  | nil => exact .inr fun m d h => from_closed_end h hq hqeol
  | cons b z =>
    by_cases hbeol : isEol b = true
    · exact .inl ⟨2, .closed hq hqeol hbeol⟩
    have hbeol : isEol b = false := by simpa using hbeol
    by_cases hb : isSpace b = true
    · obtain ⟨k, hk⟩ | hz := ih z (by simp; omega)
      · exact .inl ⟨k + 1, .quoted hq hqeol hbeol hb hk⟩
      · exact .inr (hz.quoted hq hqeol hbeol hb)
    · exact .inl ⟨1, .unspaced hq hqeol hbeol (by simpa using hb)⟩

theorem decided_word (ha : Word [a]) (heol : isEol a = false) : Decided (a :: s) := by
  have hword : ∀ {x : List UInt8}, (∀ b ∈ x, (isEol b || isSpace b) = false) →
      Word (a :: x) ∧ ∀ b ∈ a :: x, isEol b = false := by
    intro x hx
    refine ⟨⟨List.cons_ne_nil _ _, ha.head, fun b hb => ?_⟩, fun b hb => ?_⟩
    · obtain rfl | hb := List.mem_cons.mp hb
      · exact ha.space b List.mem_cons_self
      · exact (Bool.or_eq_false_iff.mp (hx b hb)).2
    · obtain rfl | hb := List.mem_cons.mp hb
      · exact heol
      · exact (Bool.or_eq_false_iff.mp (hx b hb)).1
  obtain hall | ⟨w, c, z, rfl, hall, hc⟩ := split_first (fun b => isEol b || isSpace b) s
  · obtain ⟨hw, hweol⟩ := hword hall
    exact .inr fun m d h => from_open_word h hw hweol
  · obtain ⟨hw, hweol⟩ := hword hall
    obtain ⟨k, hk⟩ | hz := ih z (by simp; omega)
    · exact .inl ⟨k + 1, .word hw hweol hc hk⟩
    · exact .inr (hz.word hw hweol hc)

end

theorem decided (s : List UInt8) : Decided s := by
  induction hn : s.length using Nat.strong_induction_on generalizing s with
  | _ n ih =>
    subst hn
    cases s with
    | nil => exact .inr fun m d h => from_nil h
    | cons a s =>
      have hshort : ∀ z : List UInt8, z.length ≤ s.length → Decided z := fun z hz =>
        ih z.length (Nat.lt_succ_of_le hz) z rfl
      by_cases heol : isEol a = true
      · exact .inl ⟨1, .eol heol⟩
      have heol : isEol a = false := by simpa using heol
      by_cases hs : isSpace a = true
      · obtain ⟨k, hk⟩ | hz := hshort s (Nat.le_refl _)
        · exact .inl ⟨k, .space hs heol hk⟩
        · exact .inr (hz.space hs heol)
      by_cases hquote : a = quote
      · subst hquote
        exact decided_quote fun z hz => hshort z hz.le
      · have ha : Word [a] := ⟨List.cons_ne_nil _ _, by simpa using hquote, by simpa using hs⟩
        exact decided_word (fun z hz => hshort z hz.le) ha heol

/-- The scan of any bytes at the end of the buffer. -/
theorem interpretFrom_iff {m : Memory} {d s : List UInt8} (h : m.Rest d s) :
    interpretFrom m d.length ≠ none ↔ ∃ k, Covers s k ∧ m.argc + k ≤ argsMax := by
  constructor
  · intro hrun
    obtain ⟨k, hk⟩ | hleaves := decided s
    · exact ⟨k, hk, (hk.iff h).mp hrun⟩
    · exact absurd (hleaves m d h) hrun
  · rintro ⟨k, hk, hle⟩
    exact (hk.iff h).mpr hle

/-! ## What `fgets` leaves -/

/-- The line in the buffer, and the bytes behind its terminating `0`. -/
def lineOf (buf : List UInt8) : List UInt8 := buf.takeWhile (· ≠ 0)
def oldBytes (buf : List UInt8) : List UInt8 := (buf.dropWhile (· ≠ 0)).tail

/-- A line that does not end in a word has at most 255 arguments, with the one that is
    malformed not counted. Behind a line that does, the scan of the old bytes comes to
    an end, and the entries that it writes are counted as well. -/
def StaysIn (buf : List UInt8) : Prop :=
  if (tokens (lineOf buf)).2 = .word then
    ∃ k, Covers (oldBytes buf) k ∧ (tokens (lineOf buf)).1.length + k ≤ argsMax
  else (tokens (lineOf buf)).1.length + 1 ≤ argsMax

theorem lineOf_append {l r : List UInt8} (h0 : 0 ∉ l) :
    lineOf (l ++ 0 :: r) = l ∧ oldBytes (l ++ 0 :: r) = r := by
  have hl : ∀ b ∈ l, decide (b ≠ 0) = true := fun b hb =>
    decide_eq_true (ne_of_mem_of_not_mem hb h0)
  constructor
  · rw [lineOf, List.takeWhile_append_of_pos hl]
    simp
  · rw [oldBytes, List.dropWhile_append_of_pos hl]
    simp

theorem fgets_content {buf stream buf' rest : List UInt8} (hbuf : buf.length = bufferSize)
    (hf : fgets buf stream = some (buf', rest)) :
    ∃ l r, buf' = l ++ 0 :: r ∧ Text l ∧ buf'.length = bufferSize := by
  have h0 : 0 ∈ buf' ∧ buf'.length = bufferSize := by
    have hpos : 0 < bufferSize := by decide
    unfold fgets at hf
    split at hf
    · cases hf
    · cases hf
      refine ⟨by simp, ?_⟩
      simp only [List.length_append, List.length_cons, List.length_drop, List.length_take, hbuf]
      omega
  obtain ⟨l, r, rfl, hl⟩ := List.eq_append_cons_of_mem h0.1
  exact ⟨l, r, rfl, (fgets_leaves_iff.mpr ⟨buf, stream, _, rest, r, hbuf, hf, rfl, hl⟩).1, h0.2⟩

section

variable {l r : List UInt8} {args : List (Option ℕ)} (ht : Text l)
  (hsize : (l ++ 0 :: r).length = bufferSize) (hargs : args.length = argsMax)
include ht hsize hargs

/-- After a word the scan steps over the terminating `0`. -/
theorem staysIn_iff_word (hw : (tokens l).2 = .word) :
    interpretLine (l ++ 0 :: r) args ≠ none ↔
      ∃ k, Covers r k ∧ (tokens l).1.length + k ≤ argsMax := by
  have hscan := interpretLine_scan ht args hsize.le hargs
  by_cases hfit : entries (tokens l) ≤ argsMax
  · rw [if_pos hfit] at hscan
    obtain ⟨m, l', hg, hl', hbuf, hrun⟩ := hscan
    have hlen : m.args.length = argsMax := hg.length.trans hargs
    have hargc : m.argc = (tokens l).1.length := by
      have hargc := hg.argc
      rw [hw] at hargc
      simpa [Ending.started] using hargc
    have hm : m.buf.length ≤ bufferSize := by
      rw [hbuf, List.length_append, hl', ← List.length_append]
      exact hsize.le
    have hbuf' : m.buf = (l' ++ [0]) ++ r := by rw [hbuf, List.append_assoc]; rfl
    rw [hrun, hw, ← hl', ← hargc]
    show resume (m.blanks l'.length) ≠ none ↔ _
    rw [resume_blanks ⟨hbuf, hm, hlen⟩]
    exact interpretFrom_iff ⟨hbuf', hm, hlen⟩
  · rw [if_neg hfit] at hscan
    have hent : entries (tokens l) = (tokens l).1.length := by
      rw [entries, if_pos hw, Nat.add_zero]
    refine ⟨fun h => absurd hscan h, ?_⟩
    rintro ⟨k, -, hle⟩
    omega

theorem staysIn_iff_end (hw : (tokens l).2 ≠ .word) :
    interpretLine (l ++ 0 :: r) args ≠ none ↔ (tokens l).1.length + 1 ≤ argsMax := by
  have hscan := interpretLine_scan ht args hsize.le hargs
  rw [entries_of_ne_word hw] at hscan
  split at hscan
  · rename_i hfit
    obtain ⟨m, l', hg, -, -, hrun⟩ := hscan
    refine ⟨fun _ => hfit, fun _ => ?_⟩
    rw [hrun]
    cases he : (tokens l).2 with
    | word => exact absurd he hw
    | blank =>
      have hargc := hg.argc
      rw [he] at hargc
      refine (resume_finish (hg.length.trans hargs)).mpr ?_
      rw [hargc]
      simpa [Ending.started] using hfit
    | unterminated | unspaced => exact Option.some_ne_none _
  · exact ⟨fun h => absurd hscan h, fun h => absurd h ‹_›⟩

theorem staysIn_iff : interpretLine (l ++ 0 :: r) args ≠ none ↔ StaysIn (l ++ 0 :: r) := by
  obtain ⟨hline, hold⟩ := lineOf_append (r := r) ht.nul
  rw [StaysIn, hline, hold]
  split
  · exact staysIn_iff_word ht hsize hargs ‹_›
  · exact staysIn_iff_end ht hsize hargs ‹_›

end

/-- **Bounds of the tokenizer.** For all that `fgets` can leave in the buffer,
    `interpret_line` comes to its end within `buf` and `args` exactly if the line has
    room in `args`, together with what follows it in the old bytes when it ends in a
    word. -/
theorem in_bounds_iff {buf stream buf' rest : List UInt8} {args : List (Option ℕ)}
    (hbuf : buf.length = bufferSize) (hf : fgets buf stream = some (buf', rest))
    (hargs : args.length = argsMax) : interpretLine buf' args ≠ none ↔ StaysIn buf' := by
  obtain ⟨l, r, rfl, ht, hsize⟩ := fgets_content hbuf hf
  exact staysIn_iff ht hsize hargs

/-- The last line of a file. -/
theorem fgets_last {l : List UInt8} (hne : l ≠ []) (ht : Text l) (hlen : l.length < bufferSize)
    (buf : List UInt8) : fgets buf l = some (l ++ 0 :: buf.drop (l.length + 1), []) := by
  have hpiece : l.take (bufferSize - 1) = l := List.take_of_length_le (by omega)
  unfold fgets
  rw [if_neg hne, hpiece]
  simp only [take_idxOf_eq ht.newline, List.drop_length]

/-- `ls` -/
theorem in_bounds_iff_ls : ∃ buf', fgets (List.replicate bufferSize 0) [108, 115, 10] =
    some (buf', []) ∧ interpretLine buf' (List.replicate argsMax none) ≠ none := by
  have ht : Text [108, 115, 10] := ⟨by decide, by decide⟩
  have hf := fgets_last (by decide) ht (by decide) (List.replicate bufferSize 0)
  refine ⟨_, hf, (in_bounds_iff List.length_replicate hf List.length_replicate).mpr ?_⟩
  have htok : tokens [108, 115, 10] = ([[108, 115]], .blank) := by
    have h := tokens_newline [108, 115]
    rw [tokens_word word_ls] at h
    exact h
  rw [StaysIn, (lineOf_append ht.nul).1, htok, if_neg (by decide)]
  decide

/-- A word that fills the buffer. -/
theorem not_staysIn_word {w : List UInt8} (hw : Word w) (h0 : 0 ∉ w) : ¬StaysIn (w ++ [0]) := by
  obtain ⟨hline, hold⟩ := lineOf_append (r := []) h0
  rw [StaysIn, hline, hold, tokens_word hw, if_pos rfl]
  rintro ⟨k, hk, -⟩
  generalize hz : ([] : List UInt8) = z at hk
  cases hk <;> simp at hz

/-- A line of 8191 `a`s, without its newline, fills the buffer. -/
theorem full_buffer : ¬∀ buf stream buf' rest args, buf.length = bufferSize →
    fgets buf stream = some (buf', rest) → args.length = argsMax →
      interpretLine buf' args ≠ none := by
  intro h
  have hmem : ∀ b ∈ List.replicate 8191 (97 : UInt8), b = 97 := fun _ => List.eq_of_mem_replicate
  have hw : Word (List.replicate 8191 97) := by
    refine ⟨List.ne_nil_of_length_pos (by rw [List.length_replicate]; decide), fun hh => ?_,
      fun b hb => ?_⟩
    · exact absurd (hmem quote (List.mem_of_head? hh)) (by decide)
    · rw [hmem b hb]
      rfl
  have ht : Text (List.replicate 8191 97) :=
    ⟨fun h0 => absurd (hmem 0 h0) (by decide),
      fun h10 => absurd (hmem 10 (List.dropLast_subset _ h10)) (by decide)⟩
  have hf := fgets_last hw.ne_nil ht (by rw [List.length_replicate]; decide)
    (List.replicate bufferSize 0)
  have hold : (List.replicate bufferSize (0 : UInt8)).drop
      ((List.replicate 8191 (97 : UInt8)).length + 1) = [] :=
    List.drop_of_length_le (by rw [List.length_replicate, List.length_replicate]; decide)
  rw [hold] at hf
  have hrun := h _ _ _ _ _ List.length_replicate hf
    (List.length_replicate : (List.replicate argsMax (none : Option ℕ)).length = argsMax)
  refine not_staysIn_word hw ht.nul ((staysIn_iff ht ?_ List.length_replicate).mp hrun)
  rw [List.length_append, List.length_replicate]
  rfl

end AghOs.Shell
