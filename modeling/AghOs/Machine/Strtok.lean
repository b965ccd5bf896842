import Mathlib.Data.List.Basic
import Mathlib.Data.List.TakeWhile
import Mathlib.Tactic.Common

/-!
# Lines and tokens in a buffer

`fgets` into a buffer that is used again for every line, and `strtok`, which writes
into the buffer and keeps the position behind the last token. A `char *` into the
buffer is an index, `NULL` is `none`; what reads behind the end of the buffer is
undefined, and the model returns `none` there.

* `fgets_newline`, `fgets_whole`: the line that `fgets` leaves.
* `strtok_token`, `strtok_skip`, `strtok_end`: the token at a position, behind
  delimiters, and `NULL` at the end of the string.
-/

namespace AghOs

/-- What is behind a scan does not belong to it. -/
theorem dropWhile_head {α : Type*} {p : α → Bool} {l as : List α} {a : α}
    (h : l.dropWhile p = a :: as) : p a = false := by
  have ha := List.head_dropWhile_not p (by rw [h]; exact List.cons_ne_nil _ _)
  simpa only [h, List.head_cons] using ha

/-- A buffer, and the position that `strtok` keeps. -/
structure TokenBuffer where
  buf : List UInt8
  saved : Option ℕ

namespace TokenBuffer

variable {t : TokenBuffer} {size : ℕ} {b pre tok z rest stream : List UInt8} {c : UInt8}

/-! ## `fgets` -/

/-- `fgets(buf, size, fp)`, with `stream` still to be read; at the end of the file it
    returns `NULL`. -/
def fgets (t : TokenBuffer) (size : ℕ) (stream : List UInt8) :
    Option (TokenBuffer × List UInt8) :=
  if stream = [] then none
  else
    let piece := stream.take (size - 1)
    let line := piece.take (piece.idxOf 10 + 1)
    some ({ t with buf := line ++ 0 :: t.buf.drop (line.length + 1) }, stream.drop line.length)

/-- The buffer with the line `l`. -/
def setLine (t : TokenBuffer) (l : List UInt8) : TokenBuffer :=
  { t with buf := l ++ 0 :: t.buf.drop (l.length + 1) }

theorem setLine_length (h : b.length + 1 ≤ t.buf.length) :
    (t.setLine b).buf.length = t.buf.length := by
  show (b ++ 0 :: t.buf.drop (b.length + 1)).length = _
  simp only [List.length_append, List.length_cons, List.length_drop]
  omega

theorem fgets_newline (hb : 10 ∉ b) (hsize : b.length + 2 ≤ size) :
    t.fgets size (b ++ 10 :: rest) = some (t.setLine (b ++ [10]), rest) := by
  have hpiece : (b ++ 10 :: rest).take (size - 1) =
      b ++ 10 :: rest.take (size - 2 - b.length) := by
    obtain ⟨j, hj⟩ : ∃ j, size - 1 = b.length + (j + 1) := ⟨size - 2 - b.length, by omega⟩
    rw [hj, List.take_length_add_append, List.take_succ_cons]
    congr 3
    omega
  have hidx : (b ++ 10 :: rest.take (size - 2 - b.length)).idxOf 10 = b.length := by
    rw [List.idxOf_append_of_notMem hb]
    simp
  have htake : (b ++ 10 :: rest.take (size - 2 - b.length)).take (b.length + 1) = b ++ [10] := by
    rw [List.take_length_add_append]
    rfl
  have hdrop : (b ++ 10 :: rest).drop (b ++ [10]).length = rest := by
    rw [List.append_cons b 10 rest, List.drop_left]
  unfold fgets
  rw [if_neg (by simp), hpiece]
  simp only [hidx, htake, hdrop]
  rfl

/-- All that `fgets` can read at once is a line without its newline. -/
theorem fgets_whole (hne : b ≠ []) (hb : 10 ∉ b) (hpiece : stream.take (size - 1) = b) :
    t.fgets size stream = some (t.setLine b, stream.drop b.length) := by
  have hstream : stream ≠ [] := by
    rintro rfl
    exact hne (hpiece ▸ List.take_nil)
  have htake : b.take (b.idxOf 10 + 1) = b := by
    rw [List.idxOf_eq_length hb]
    exact List.take_of_length_le (Nat.le_succ _)
  unfold fgets
  rw [if_neg hstream, hpiece]
  simp only [htake]
  rfl

theorem fgets_lt {t' : TokenBuffer} (hsize : 2 ≤ size) (h : t.fgets size stream = some (t', rest)) :
    rest.length < stream.length := by
  unfold fgets at h
  split at h
  · cases h
  · rename_i hne
    cases h
    have hpos := List.length_pos_iff.mpr hne
    simp only [List.length_drop, List.length_take]
    omega

/-! ## `strtok` -/

/-- The first position from `i` on whose byte is not as `p` says. -/
def span (t : TokenBuffer) (p : UInt8 → Bool) (i : ℕ) : ℕ :=
  i + ((t.buf.drop i).takeWhile p).length

/-- `strtok(p, delims)` -/
def strtok (t : TokenBuffer) (p : Option ℕ) (delims : List UInt8) :
    Option (Option ℕ × TokenBuffer) := do
  let s ← p.or t.saved
  let s := t.span (· ∈ delims) s
  let c ← t.buf[s]?
  if c = 0 then some (none, { t with saved := some s })
  else
    let e := t.span (fun c => c ∉ delims ∧ c ≠ 0) s
    let c ← t.buf[e]?
    if c = 0 then some (some s, { t with saved := some e })
    else some (some s, { buf := t.buf.set e 0, saved := some (e + 1) })

/-- The C string that `p` points to. -/
def string (t : TokenBuffer) (p : Option ℕ) : Option (List UInt8) := do
  let p ← p
  if 0 ∈ t.buf.drop p then some ((t.buf.drop p).takeWhile (· ≠ 0)) else none

theorem span_append {p : UInt8 → Bool} (h : t.buf = pre ++ (tok ++ c :: z))
    (htok : ∀ b ∈ tok, p b = true) (hc : p c = false) :
    t.span p pre.length = pre.length + tok.length := by
  unfold span
  rw [h, List.drop_left, List.takeWhile_append_of_pos htok,
    List.takeWhile_cons_of_neg (by simp [hc]), List.append_nil]

/-- The token at a position, terminated where the delimiter was. -/
theorem strtok_token (p : Option ℕ) (delims : List UInt8) (h : t.buf = pre ++ (tok ++ c :: z))
    (hp : p.or t.saved = some pre.length) (hne : tok ≠ [])
    (htok : ∀ b ∈ tok, b ∉ delims ∧ b ≠ 0) (hc : c = 0 ∨ c ∈ delims) :
    t.strtok p delims = some (some pre.length,
      ⟨pre ++ (tok ++ 0 :: z), some (pre.length + tok.length + if c = 0 then 0 else 1)⟩) := by
  obtain ⟨a, tok', rfl⟩ := List.exists_cons_of_ne_nil hne
  have ha := htok a List.mem_cons_self
  have hskip : t.span (· ∈ delims) pre.length = pre.length := by
    have hnil : t.buf = pre ++ ([] ++ a :: (tok' ++ c :: z)) := h
    exact span_append hnil (by simp) (by simpa using ha.1)
  have hend : t.span (fun c => c ∉ delims ∧ c ≠ 0) pre.length =
      pre.length + (a :: tok').length := by
    refine span_append h (fun b hb => by simpa using htok b hb) ?_
    obtain rfl | hc := hc
    · simp
    · simp [hc]
  have hget : t.buf[pre.length]? = some a := by simp [h]
  have hget' : t.buf[pre.length + (a :: tok').length]? = some c := by
    rw [h, List.getElem?_append_right (by omega), Nat.add_sub_cancel_left,
      List.getElem?_append_right (Nat.le_refl _), Nat.sub_self]
    rfl
  have hset : t.buf.set (pre.length + (a :: tok').length) 0 = pre ++ (a :: tok' ++ 0 :: z) := by
    rw [h, List.set_append_right _ _ (by omega), Nat.add_sub_cancel_left,
      List.set_append_right _ _ (Nat.le_refl _), Nat.sub_self]
    rfl
  unfold strtok
  rw [hp]
  simp only [Option.bind_eq_bind, Option.bind_some, hskip, hget, hend, hget', hset]
  rw [if_neg ha.2]
  split
  · rename_i hc0
    subst hc0
    rw [← h]
    rfl
  · rfl

/-- The delimiters in front of a token are skipped. -/
theorem strtok_skip {skip : List UInt8} (p : Option ℕ) (delims : List UInt8)
    (h : t.buf = pre ++ (skip ++ rest)) (hp : p.or t.saved = some pre.length)
    (hskip : ∀ b ∈ skip, b ∈ delims) :
    t.strtok p delims = t.strtok (some (pre ++ skip).length) delims := by
  have hspan : t.span (· ∈ delims) pre.length = t.span (· ∈ delims) (pre ++ skip).length := by
    have hbuf : t.buf = (pre ++ skip) ++ rest := by rw [h, List.append_assoc]
    unfold span
    rw [hbuf, List.drop_left, List.append_assoc, List.drop_left,
      List.takeWhile_append_of_pos (by simpa using hskip)]
    simp only [List.length_append]
    omega
  unfold strtok
  rw [hp, Option.some_or]
  simp only [Option.bind_eq_bind, Option.bind_some, hspan]

/-- At the end of the string there is no token. -/
theorem strtok_end (p : Option ℕ) {delims : List UInt8} (h : t.buf = pre ++ 0 :: z)
    (hp : p.or t.saved = some pre.length) (h0 : 0 ∉ delims) :
    t.strtok p delims = some (none, { t with saved := some pre.length }) := by
  have hskip : t.span (· ∈ delims) pre.length = pre.length := by
    have hnil : t.buf = pre ++ ([] ++ 0 :: z) := h
    exact span_append hnil (by simp) (by simpa using h0)
  have hget : t.buf[pre.length]? = some 0 := by simp [h]
  unfold strtok
  rw [hp]
  simp only [Option.bind_eq_bind, Option.bind_some, hskip, hget]
  rfl

theorem strtok_length {t' : TokenBuffer} {p r : Option ℕ} {delims : List UInt8}
    (h : t.strtok p delims = some (r, t')) : t'.buf.length = t.buf.length := by
  unfold strtok at h
  simp only [Option.bind_eq_bind, Option.bind_eq_some_iff] at h
  obtain ⟨_, -, _, -, h⟩ := h
  split at h
  · cases h
    rfl
  · obtain ⟨_, -, h⟩ := Option.bind_eq_some_iff.mp h
    split at h <;> cases h
    · rfl
    · exact List.length_set

theorem string_append (h : t.buf = pre ++ (tok ++ 0 :: z)) (h0 : 0 ∉ tok) :
    t.string (some pre.length) = some tok := by
  have hne : ∀ b ∈ tok, decide (b ≠ 0) = true := fun b hb =>
    decide_eq_true (ne_of_mem_of_not_mem hb h0)
  unfold string
  rw [Option.bind_eq_bind, Option.bind_some, h, List.drop_left, if_pos (by simp),
    List.takeWhile_append_of_pos hne]
  simp

end TokenBuffer

end AghOs
