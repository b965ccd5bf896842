import AghOs.Shell.Tokenizer

/-!
# Old bytes behind a line

The buffer of `interpret_file` is used for every line, and behind the
terminating `0` of a line it still holds what was there before. After a word
that ends there `interpret_line` steps over the `0`.

* `fgets_leaves_iff`: the lines that `fgets` leaves in the buffer.
* `line_only_iff`: the arguments depend on the line alone exactly if they fit and
  the line does not end in a word.
-/

namespace AghOs.Shell

/-! ## The lines that `fgets` leaves -/

theorem not_mem_dropLast_take (s : List UInt8) : 10 ∉ (s.take (s.idxOf 10 + 1)).dropLast := by
  induction s with
  | nil => simp
  | cons c s ih =>
    by_cases hc : c = 10
    · subst hc
      simp
    · rw [List.idxOf_cons_ne s hc, List.take_succ_cons]
      cases ht : s.take (s.idxOf 10 + 1) with
      | nil => simp
      | cons b t =>
        rw [ht] at ih
        rw [List.dropLast_cons_of_ne_nil (List.cons_ne_nil _ _)]
        rw [List.mem_cons, not_or]
        exact ⟨Ne.symm hc, ih⟩

theorem take_idxOf_eq {l : List UInt8} (h : 10 ∉ l.dropLast) : l.take (l.idxOf 10 + 1) = l := by
  induction l with
  | nil => rfl
  | cons c l ih =>
    by_cases hl : l = []
    · subst hl
      simp
    · rw [List.dropLast_cons_of_ne_nil hl, List.mem_cons, not_or] at h
      rw [List.idxOf_cons_ne l (Ne.symm h.1), List.take_succ_cons, ih h.2]

theorem prefix_of_append_eq {x y l r : List UInt8} (h : x ++ 0 :: y = l ++ 0 :: r) (h0 : 0 ∉ l) :
    l <+: x := by
  induction x generalizing l with
  | nil =>
    cases l with
    | nil => exact List.nil_prefix
    | cons c l =>
      rw [List.nil_append, List.cons_append, List.cons.injEq] at h
      exact absurd (h.1 ▸ List.mem_cons_self) h0
  | cons b x ih =>
    cases l with
    | nil => exact List.nil_prefix
    | cons c l =>
      rw [List.cons_append, List.cons_append, List.cons.injEq] at h
      rw [h.1, List.cons_prefix_cons]
      exact ⟨rfl, ih h.2 fun hm => h0 (List.mem_cons_of_mem _ hm)⟩

/-- The texts of less than `BUFFER_SIZE` bytes are what `fgets` leaves in the
    buffer before its first `0`. -/
theorem fgets_leaves_iff {l : List UInt8} :
    Text l ∧ l.length < bufferSize ↔ ∃ buf stream buf' rest r, buf.length = bufferSize ∧
      fgets buf stream = some (buf', rest) ∧ buf' = l ++ 0 :: r ∧ 0 ∉ l := by
  constructor
  · rintro ⟨ht, hlen⟩
    obtain ⟨buf, hbuf⟩ : ∃ buf : List UInt8, buf.length = bufferSize :=
      ⟨List.replicate bufferSize 0, List.length_replicate⟩
    by_cases hl : l = []
    · subst hl
      exact ⟨buf, [0], _, [], 0 :: buf.drop 2, hbuf, rfl, rfl, ht.nul⟩
    · have hpiece : l.take (bufferSize - 1) = l := List.take_of_length_le (by omega)
      refine ⟨buf, l, _, l.drop l.length, buf.drop (l.length + 1), hbuf, ?_, rfl, ht.nul⟩
      unfold fgets
      rw [if_neg hl, hpiece]
      simp only [take_idxOf_eq ht.newline]
  · rintro ⟨buf, stream, buf', rest, r, hbuf, hf, rfl, h0⟩
    unfold fgets at hf
    split at hf
    · cases hf
    · simp only [Option.some.injEq, Prod.mk.injEq] at hf
      have hnl := not_mem_dropLast_take (stream.take (bufferSize - 1))
      obtain ⟨y, hy⟩ := prefix_of_append_eq hf.1 h0
      have hlen := List.length_take_le' ((stream.take (bufferSize - 1)).idxOf 10 + 1)
        (stream.take (bufferSize - 1))
      rw [← hy] at hnl hlen
      refine ⟨⟨h0, fun h => hnl ?_⟩, ?_⟩
      · by_cases hne : y = []
        · rwa [hne, List.append_nil]
        · rw [List.dropLast_append_of_ne_nil hne]
          exact List.mem_append_left _ (List.dropLast_subset _ h)
      · have htake : (stream.take (bufferSize - 1)).length ≤ bufferSize - 1 :=
          List.length_take_le _ _
        have hpos : 0 < bufferSize := by decide
        rw [List.length_append] at hlen
        omega

/-! ## What a caller sees -/

/-- The C string in the buffer that `p` points to. -/
def stringOf (buf : List UInt8) : Option ℕ → List UInt8
  | none => []
  | some p => (buf.drop p).takeWhile (· ≠ 0)

/-- The argument strings. -/
def Memory.argStrings (m : Memory) : List (List UInt8) :=
  (m.args.take m.argc).map (stringOf m.buf)

/-- The value that `interpret_line` returns, and the argument strings. -/
def outcome (buf : List UInt8) (args : List (Option ℕ)) : Option (ℤ × List (List UInt8)) :=
  (interpretLine buf args).map fun p => (p.2, p.1.argStrings)

/-- `interpret_line` returns, and what it returns depends on nothing but the line
    before the terminating `0`. -/
def LineOnly (l : List UInt8) : Prop :=
  ∃ out, ∀ r args, (l ++ 0 :: r).length = bufferSize → args.length = argsMax →
    outcome (l ++ 0 :: r) args = some out

theorem tokens_nul {l : List UInt8} (h : 0 ∉ l) :
    ∀ a ∈ (tokens l).1 ++ (tokens l).2.started, 0 ∉ a := by
  induction hn : l.length using Nat.strong_induction_on generalizing l with
  | _ n ih =>
    cases shape l with
    | nil => simp [tokens_nil, Ending.started]
    | @space c l hc =>
      rw [tokens_space hc]
      exact ih l.length (by simp at hn; omega) (fun h0 => h (List.mem_cons_of_mem _ h0)) rfl
    | @unterminated q hq =>
      rw [tokens_unterminated hq]
      intro a ha
      obtain rfl : a = q := by simpa [Ending.started] using ha
      exact fun h0 => h (List.mem_cons_of_mem _ h0)
    | @quoted q l hq =>
      have hq0 : 0 ∉ q := fun h0 => h (by simp [h0])
      have hl := ih l.length (by simp at hn; omega) (fun h0 => h (by simp [h0])) rfl
      rw [tokens_quoted hq]
      split
      · intro a ha
        obtain rfl | ha := List.mem_cons.mp ha
        · exact hq0
        · exact hl a ha
      · intro a ha
        obtain rfl : a = q := by simpa [Ending.started] using ha
        exact hq0
    | last hw =>
      rw [tokens_word hw]
      intro a ha
      obtain rfl : a = l := by simpa [Ending.started] using ha
      exact h
    | @word w l c hw hc =>
      have hl := ih l.length (by simp at hn; omega) (fun h0 => h (by simp [h0])) rfl
      rw [tokens_word_append hw hc]
      intro a ha
      obtain rfl | ha := List.mem_cons.mp ha
      · exact fun h0 => h (List.mem_append_left _ h0)
      · exact hl a ha

theorem Memory.argStrings_eq {m : Memory} {ps : List ℕ} {as : List (List UInt8)}
    (hps : m.args.take m.argc = ps.map some) (hstr : List.Forall₂ (StringAt m.buf) ps as)
    (h0 : ∀ a ∈ as, 0 ∉ a) : m.argStrings = as := by
  unfold Memory.argStrings
  rw [hps, List.map_map]
  clear hps
  induction hstr with
  | nil => rfl
  | @cons p a ps as hp _ ih =>
    obtain ⟨tail, htail⟩ := hp
    rw [List.map_cons, ih fun a ha => h0 a (List.mem_cons_of_mem _ ha)]
    congr 1
    show (m.buf.drop p).takeWhile (· ≠ 0) = a
    rw [htail, List.takeWhile_append_of_pos]
    · simp
    · intro b hb
      simpa using ne_of_mem_of_not_mem hb (h0 a List.mem_cons_self)

theorem Memory.Gains.argStrings {m m' : Memory} {as : List (List UInt8)} (h : m.Gains m' as)
    (hm : m.argc = 0) (h0 : ∀ a ∈ as, 0 ∉ a) : m'.argStrings = as := by
  obtain ⟨ps, hps, hstr⟩ := h.strings
  rw [hm, List.take_zero, List.nil_append] at hps
  exact m'.argStrings_eq hps hstr h0

theorem Memory.Holds.argStrings {m : Memory} {as : List (List UInt8)} (h : m.Holds as)
    (h0 : ∀ a ∈ as, 0 ∉ a) : m.argStrings = as := by
  obtain ⟨ps, hps, hstr⟩ := h.strings
  exact m.argStrings_eq hps hstr h0

/-- `args[*argc] = NULL` is not among the argument strings. -/
theorem Memory.nullArg_argStrings {m n : Memory} (h : m.nullArg = some n) :
    n.argStrings = m.argStrings := by
  unfold Memory.nullArg at h
  split at h
  · cases h
    show ((m.args.set m.argc none).take m.argc).map _ = _
    rw [List.take_set_of_le le_rfl]
    rfl
  · cases h

/-! ## Lines whose end is found -/

/-- The value that `interpret_line` returns. -/
def Ending.ret : Ending → ℤ
  | .blank | .word => 0
  | .unterminated _ | .unspaced _ => -1

theorem entries_of_ne_word {t : List (List UInt8) × Ending} (h : t.2 ≠ .word) :
    entries t = t.1.length + 1 := by
  unfold entries
  rw [if_neg h]

/-- There is no room for the `NULL` behind the arguments. -/
theorem interpretLine_full {l r : List UInt8} {args : List (Option ℕ)} (ht : Text l)
    (hsize : (l ++ 0 :: r).length = bufferSize) (hargs : args.length = argsMax)
    (hw : (tokens l).2 ≠ .word) (hmax : ¬(tokens l).1.length ≤ 255) :
    interpretLine (l ++ 0 :: r) args = none := by
  have hscan := interpretLine_scan ht args hsize.le hargs
  rw [entries_of_ne_word hw] at hscan
  have hfit : ¬(tokens l).1.length + 1 ≤ argsMax := fun hle => hmax (Nat.le_of_succ_le_succ hle)
  rwa [if_neg hfit] at hscan

theorem lineOnly {l : List UInt8} (ht : Text l) (hmax : (tokens l).1.length ≤ 255)
    (hw : (tokens l).2 ≠ .word) : LineOnly l := by
  refine ⟨((tokens l).2.ret, (tokens l).1 ++ (tokens l).2.started), fun r args hsize hargs => ?_⟩
  have hscan := interpretLine_scan ht args hsize.le hargs
  have hfit : (tokens l).1.length + 1 ≤ argsMax := Nat.succ_le_succ hmax
  rw [entries_of_ne_word hw, if_pos hfit] at hscan
  obtain ⟨m', l', hg, -, -, hrun⟩ := hscan
  have hstr := hg.argStrings rfl (tokens_nul ht.nul)
  unfold outcome
  rw [hrun]
  cases he : (tokens l).2 with
  | blank =>
    have hlt : m'.argc < m'.args.length := by
      rw [hg.length, hg.argc, hargs, he, Nat.zero_add]
      simpa [Ending.started] using Nat.lt_of_succ_le hfit
    have hnull : m'.nullArg = some { m' with args := m'.args.set m'.argc none } := if_pos hlt
    have hn := Memory.nullArg_argStrings hnull
    rw [he] at hstr
    show Option.map _ (resume (m'.nullArg.map (Turn.ret · 0))) = _
    rw [hnull]
    show some (0, _) = _
    rw [hn, hstr]
    rfl
  | word => exact absurd he hw
  | unterminated | unspaced =>
    rw [he] at hstr
    show some (-1, m'.argStrings) = _
    rw [hstr]
    rfl

/-! ## Lines that end in a word -/

section

variable {m n : Memory} {d z : List UInt8} {c : UInt8} {v : ℤ}

/-- The old byte behind the terminating `0` is not white space: the scan goes on
    there. -/
theorem Memory.blanks_old (hbuf : m.buf = d ++ 0 :: c :: z) (hc : isSpace c = false) :
    m.blanks d.length = some (.next m (d.length + 1)) := by
  unfold Memory.blanks
  rw [hbuf, drop_length_succ, advance, if_pos (by rw [hc]; simp)]
  rfl

/-- The next old byte is `0`. -/
theorem resume_turn_nul (hbuf : m.buf = d ++ 0 :: z) (h : resume (m.turn d.length) = some (n, v)) :
    v = 0 := by
  rw [Memory.turn_eol hbuf rfl] at h
  unfold Memory.finish at h
  cases hm : m.nullArg with
  | none =>
    rw [hm] at h
    cases h
  | some m' =>
    rw [hm] at h
    cases h
    rfl

/-- The next old byte is a quote, with no other quote behind it. -/
theorem resume_turn_quote {k : ℕ} (hbuf : m.buf = d ++ quote :: List.replicate k 0)
    (h : resume (m.turn d.length) = some (n, v)) : v = -1 := by
  cases k with
  | zero =>
    have hget : m.buf[d.length]? = some quote := by
      rw [hbuf]
      exact getElem?_length_append _ _ _
    have hdrop : m.buf.drop (d.length + 1) = [] := by
      rw [hbuf]
      exact drop_length_succ _ _ _
    have hturn : m.turn d.length = none := by
      unfold Memory.turn
      rw [hget, Option.bind_eq_bind, Option.bind_some, if_neg (by decide), if_pos (by decide),
        Memory.pushArg_eq]
      split
      · show (advance _ (m.buf.drop (d.length + 1)) d.length).bind _ = _
        rw [hdrop]
        rfl
      · rfl
    rw [hturn] at h
    cases h
  | succ k =>
    have hturn := Memory.turn_quote (q := []) (c := 0) hbuf (by simp) (by simp) (by decide)
    rw [hturn] at h
    split at h
    · cases h
      rfl
    · cases h

end

section

variable {l r z : List UInt8} {c : UInt8} {n : Memory} {v : ℤ} {args : List (Option ℕ)}
  (ht : Text l) (hw : (tokens l).2 = .word) (hargs : args.length = argsMax)
include ht hw hargs

/-- After the word the scan steps over the terminating `0`. -/
theorem old_run (hsize : (l ++ 0 :: r).length = bufferSize)
    (h : interpretLine (l ++ 0 :: r) args = some (n, v)) : ∃ (m : Memory) (d : List UInt8),
      d.length = l.length ∧ m.buf = d ++ 0 :: r ∧ resume (m.blanks d.length) = some (n, v) := by
  have hscan := interpretLine_scan ht args hsize.le hargs
  split at hscan
  · obtain ⟨m, l', -, hl', hbuf, hrun⟩ := hscan
    rw [h, hw, ← hl'] at hrun
    exact ⟨m, l', hl', hbuf, hrun.symm⟩
  · rw [h] at hscan
    cases hscan

/-- There is no old byte: the scan leaves the buffer. -/
theorem old_none (hsize : (l ++ [0]).length = bufferSize) :
    interpretLine (l ++ [0]) args = none := by
  cases h : interpretLine (l ++ [0]) args with
  | none => rfl
  | some p =>
    obtain ⟨m, d, -, hbuf, hrun⟩ := old_run ht hw hargs hsize h
    have hb : m.blanks d.length = none := by
      unfold Memory.blanks
      rw [hbuf, drop_length_succ]
      rfl
    rw [hb] at hrun
    cases hrun

/-- The scan goes on at an old byte. -/
theorem old_turn (hsize : (l ++ 0 :: c :: z).length = bufferSize) (hc : isSpace c = false)
    (h : interpretLine (l ++ 0 :: c :: z) args = some (n, v)) : ∃ (m : Memory) (d : List UInt8),
      m.buf = d ++ c :: z ∧ resume (m.turn d.length) = some (n, v) := by
  obtain ⟨m, d, hd, hbuf, hrun⟩ := old_run ht hw hargs hsize h
  have hpos : (d ++ [0]).length ≤ bufferSize := by
    simp only [List.length_append, List.length_cons, List.length_nil] at hsize ⊢
    omega
  rw [Memory.blanks_old hbuf hc] at hrun
  refine ⟨m, d ++ [0], by rw [hbuf, List.append_assoc]; rfl, ?_⟩
  rw [← interpretFrom_eq hpos, List.length_append]
  exact hrun

end

/-- With a quote behind the `0` the line is taken for a malformed one. -/
theorem exists_old_quote {l : List UInt8} (ht : Text l) (hlen : l.length < bufferSize)
    (hw : (tokens l).2 = .word) : ∃ r, (l ++ 0 :: r).length = bufferSize ∧
      ∀ args n v, args.length = argsMax → interpretLine (l ++ 0 :: r) args = some (n, v) →
        v = -1 := by
  obtain ⟨k, hk⟩ : ∃ k, bufferSize = l.length + 1 + k := ⟨bufferSize - l.length - 1, by omega⟩
  cases k with
  | zero =>
    have hsize : (l ++ [0]).length = bufferSize := by rw [hk]; simp
    refine ⟨[], hsize, fun args n v hargs h => ?_⟩
    rw [old_none ht hw hargs hsize] at h
    cases h
  | succ k =>
    have hsize : (l ++ 0 :: quote :: List.replicate k 0).length = bufferSize := by
      rw [hk]
      simp
      omega
    refine ⟨_, hsize, fun args n v hargs h => ?_⟩
    obtain ⟨m, d, hbuf, hrun⟩ := old_turn ht hw hargs hsize isSpace_quote h
    exact resume_turn_quote hbuf hrun

theorem not_lineOnly_word {l : List UInt8} (ht : Text l) (hlen : l.length < bufferSize)
    (hw : (tokens l).2 = .word) : ¬LineOnly l := by
  rintro ⟨⟨v, strs⟩, hout⟩
  have hrun : ∀ r, (l ++ 0 :: r).length = bufferSize →
      ∃ n, interpretLine (l ++ 0 :: r) (List.replicate argsMax none) = some (n, v) := by
    intro r hsize
    obtain ⟨⟨n, v'⟩, hn, hv⟩ := Option.map_eq_some_iff.mp (hout r _ hsize List.length_replicate)
    cases hv
    exact ⟨n, hn⟩
  obtain ⟨r, hsize, hquote⟩ := exists_old_quote ht hlen hw
  obtain ⟨n, hn⟩ := hrun r hsize
  have h1 : v = -1 := hquote _ n v List.length_replicate hn
  cases r with
  | nil =>
    rw [old_none ht hw List.length_replicate hsize] at hn
    cases hn
  | cons c r =>
    -- with a `0` there, the line ends in order
    have hsize' : (l ++ 0 :: 0 :: r).length = bufferSize := by simpa using hsize
    obtain ⟨n', hn'⟩ := hrun _ hsize'
    obtain ⟨m, d, hbuf, hturn⟩ := old_turn ht hw List.length_replicate hsize' rfl hn'
    have h0 := resume_turn_nul hbuf hturn
    omega

theorem exists_old_bytes {l : List UInt8} (hlen : l.length < bufferSize) :
    ∃ r, (l ++ 0 :: r).length = bufferSize := by
  refine ⟨List.replicate (bufferSize - l.length - 1) 0, ?_⟩
  simp only [List.length_append, List.length_cons, List.length_replicate]
  omega

/-- What `interpret_line` returns depends on the line alone exactly if the line
    has at most 255 arguments and does not end in a word. -/
theorem line_only_iff {l : List UInt8} (ht : Text l) (hlen : l.length < bufferSize) :
    LineOnly l ↔ (tokens l).1.length ≤ 255 ∧ (tokens l).2 ≠ .word := by
  constructor
  · intro h
    have hw : (tokens l).2 ≠ .word := fun hw => not_lineOnly_word ht hlen hw h
    refine ⟨?_, hw⟩
    obtain ⟨out, hout⟩ := h
    obtain ⟨r, hsize⟩ := exists_old_bytes hlen
    have hres := hout r (List.replicate argsMax none) hsize List.length_replicate
    by_contra hmax
    unfold outcome at hres
    rw [interpretLine_full ht hsize List.length_replicate hw hmax] at hres
    cases hres
  · rintro ⟨hmax, hw⟩
    exact lineOnly ht hmax hw

theorem line_only_iff_ls :
    LineOnly [108, 115, 10] ↔
      (tokens [108, 115, 10]).1.length ≤ 255 ∧ (tokens [108, 115, 10]).2 ≠ .word :=
  line_only_iff ⟨by decide, by decide⟩ (by decide)

/-- After `ls` at the end of a file without a newline, old bytes become arguments. -/
theorem old_arguments :
    Text [108, 115] ∧ [108, 115].length < bufferSize ∧ ¬LineOnly [108, 115] := by
  have ht : Text [108, 115] := ⟨by decide, by decide⟩
  exact ⟨ht, by decide, not_lineOnly_word ht (by decide) (by rw [tokens_word word_ls])⟩

end AghOs.Shell
