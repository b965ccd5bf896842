import Mathlib.Data.List.Basic
import Mathlib.Data.List.TakeWhile
import Mathlib.Tactic.Common

/-!
# Character arrays

`char b[n]` of C, with what the string functions do to it. A `char *` into the array
is an index. Reading or writing behind the end of the array is undefined, and the
model returns `none` there.

* `string_append`, `string_eq_some_iff`: the string at a position, and that there is one.
* `strcpy_eq_none_iff`, `string_strcpy`: a string fits if its NUL does.
* `terminateAt_append`: what a scan that ends in a store leaves.
-/

namespace AghOs

/-- `char b[n]` -/
@[ext] structure Chars (n : ℕ) where
  bytes : List UInt8
  length_bytes : bytes.length = n

namespace Chars

variable {n : ℕ} {b b' : Chars n} {pre tok z s : List UInt8} {c d : UInt8} {i : ℕ}

/-- The array with `c` in every place. -/
def fill (n : ℕ) (c : UInt8) : Chars n := ⟨List.replicate n c, List.length_replicate⟩

/-- The array with a string at its start, and NULs behind it. -/
def ofString (s : List UInt8) (h : s.length ≤ n) : Chars n :=
  ⟨s ++ List.replicate (n - s.length) 0, by
    rw [List.length_append, List.length_replicate, Nat.add_sub_cancel' h]⟩

/-- `b[i] = c` -/
def store (b : Chars n) (i : ℕ) (c : UInt8) : Option (Chars n) :=
  if i < n then some ⟨b.bytes.set i c, by rw [List.length_set, b.length_bytes]⟩ else none

/-- The bytes `l` written from the start of the array on. -/
def put (b : Chars n) (l : List UInt8) : Option (Chars n) :=
  if h : l.length ≤ n then
    some ⟨l ++ b.bytes.drop l.length, by
      rw [List.length_append, List.length_drop, b.length_bytes, Nat.add_sub_cancel' h]⟩
  else none

/-- `strcpy(b, s)` -/
def strcpy (b : Chars n) (s : List UInt8) : Option (Chars n) := b.put (s ++ [0])

/-- The first position from `i` on whose byte is not as `p` says. -/
def scan (b : Chars n) (p : UInt8 → Bool) (i : ℕ) : ℕ := i + ((b.bytes.drop i).takeWhile p).length

/-- The C string at `i`. -/
def string (b : Chars n) (i : ℕ) : Option (List UInt8) :=
  if 0 ∈ b.bytes.drop i then some ((b.bytes.drop i).takeWhile (· ≠ 0)) else none

/-- What `fgets` reads of `stream` into an array of `n`: a line, or as much of it as
    there is space for. -/
def line (n : ℕ) (stream : List UInt8) : List UInt8 :=
  let piece := stream.take (n - 1)
  piece.take (piece.idxOf 10 + 1)

/-- `fgets(b, n, fp)`, with `stream` still to be read; at the end of the file it leaves
    the array as it is. -/
def fgets (b : Chars n) (stream : List UInt8) : Option (Chars n) :=
  if stream = [] then some b else b.put (line n stream ++ [0])

/-! ## Stores -/

theorem store_isSome (b : Chars n) (c : UInt8) (hi : i < n) : ∃ b', b.store i c = some b' :=
  ⟨_, if_pos hi⟩

theorem bytes_store (h : b.store i c = some b') : b'.bytes = b.bytes.set i c := by
  unfold store at h
  split at h
  · cases h
    rfl
  · cases h

/-- The byte behind `pre` is overwritten. -/
theorem store_append (h : b.bytes = pre ++ c :: z) (d : UInt8) :
    ∃ b', b.store pre.length d = some b' ∧ b'.bytes = pre ++ d :: z := by
  have hlt : pre.length < n := by
    rw [← b.length_bytes, h, List.length_append, List.length_cons]
    omega
  obtain ⟨b', hb'⟩ := b.store_isSome d hlt
  refine ⟨b', hb', ?_⟩
  rw [bytes_store hb', h, List.set_append_right _ _ (Nat.le_refl _), Nat.sub_self]
  rfl

theorem put_eq_none_iff : b.put s = none ↔ n < s.length := by
  unfold put
  split <;> simp <;> omega

theorem bytes_put (h : b.put s = some b') : b'.bytes = s ++ b.bytes.drop s.length := by
  unfold put at h
  split at h
  · cases h
    rfl
  · cases h

theorem put_isSome (b : Chars n) (h : s.length ≤ n) : ∃ b', b.put s = some b' :=
  ⟨_, dif_pos h⟩

/-! ## Strings -/

theorem string_append (h : b.bytes = pre ++ (s ++ 0 :: z)) (h0 : 0 ∉ s) :
    b.string pre.length = some s := by
  have hne : ∀ c ∈ s, decide (c ≠ 0) = true := fun c hc =>
    decide_eq_true (ne_of_mem_of_not_mem hc h0)
  unfold string
  rw [h, List.drop_left, if_pos (by simp), List.takeWhile_append_of_pos hne]
  simp

theorem string_zero (h : b.bytes = s ++ 0 :: z) (h0 : 0 ∉ s) : b.string 0 = some s :=
  string_append (show b.bytes = [] ++ (s ++ 0 :: z) from h) h0

theorem notMem_string (h : b.string i = some s) : 0 ∉ s := by
  unfold string at h
  split at h
  · cases h
    intro h0
    simpa using List.mem_takeWhile_imp h0
  · cases h

/-- A string, its NUL, and what stands behind it. -/
theorem string_eq_some_iff :
    b.string i = some s ↔ 0 ∉ s ∧ ∃ z, b.bytes.drop i = s ++ 0 :: z := by
  constructor
  · intro h
    refine ⟨notMem_string h, ?_⟩
    unfold string at h
    split at h
    · rename_i hmem
      cases h
      have hdrop : (b.bytes.drop i).dropWhile (· ≠ 0) ≠ [] := fun hnil => by
        rw [List.dropWhile_eq_nil_iff] at hnil
        exact absurd (hnil 0 hmem) (by simp)
      obtain ⟨c, z, hz⟩ := List.exists_cons_of_ne_nil hdrop
      have hc : ¬(decide (c ≠ 0)) = true := by
        have hhead := List.head_dropWhile_not (fun c : UInt8 => decide (c ≠ 0)) hdrop
        simp only [hz, List.head_cons] at hhead
        rw [hhead]
        exact Bool.false_ne_true
      obtain rfl : c = 0 := by simpa using hc
      exact ⟨z, by rw [← hz, List.takeWhile_append_dropWhile]⟩
    · cases h
  · rintro ⟨h0, z, hz⟩
    have hne : ∀ c ∈ s, decide (c ≠ 0) = true := fun c hc =>
      decide_eq_true (ne_of_mem_of_not_mem hc h0)
    unfold string
    rw [hz, if_pos (by simp), List.takeWhile_append_of_pos hne]
    simp

theorem string_eq_none_iff : b.string i = none ↔ 0 ∉ b.bytes.drop i := by
  unfold string
  split <;> simp_all

theorem length_string (h : b.string 0 = some s) : s.length < n := by
  obtain ⟨-, z, hz⟩ := string_eq_some_iff.mp h
  have hlen := congrArg List.length hz
  rw [List.drop_zero, b.length_bytes, List.length_append, List.length_cons] at hlen
  omega

theorem string_ofString (h : s.length < n) (h0 : 0 ∉ s) :
    (ofString s h.le).string 0 = some s := by
  obtain ⟨k, hk⟩ : ∃ k, n - s.length = k + 1 := ⟨n - s.length - 1, by omega⟩
  refine string_zero (z := List.replicate k 0) ?_ h0
  show s ++ List.replicate (n - s.length) 0 = _
  rw [hk, List.replicate_succ]

theorem string_fill_zero (hn : 0 < n) : (fill n 0).string 0 = some [] := by
  obtain ⟨k, rfl⟩ := Nat.exists_eq_succ_of_ne_zero (Nat.ne_of_gt hn)
  exact string_zero (z := List.replicate k 0) rfl List.not_mem_nil

theorem string_fill_of_ne (n : ℕ) (hc : c ≠ 0) : (fill n c).string 0 = none :=
  string_eq_none_iff.mpr fun h => hc (List.eq_of_mem_replicate h).symm

/-! ## `strcpy` -/

theorem strcpy_eq_none_iff : b.strcpy s = none ↔ n ≤ s.length := by
  unfold strcpy
  rw [put_eq_none_iff, List.length_append, List.length_singleton]
  omega

theorem strcpy_isSome (b : Chars n) (h : s.length < n) : ∃ b', b.strcpy s = some b' :=
  b.put_isSome (by rw [List.length_append]; exact h)

theorem string_strcpy (h : b.strcpy s = some b') (h0 : 0 ∉ s) : b'.string 0 = some s := by
  refine string_zero (z := b.bytes.drop (s ++ [0]).length) ?_ h0
  rw [bytes_put h, List.append_assoc]
  rfl

/-! ## `fgets` -/

theorem length_line_le (n : ℕ) (stream : List UInt8) : (line n stream).length ≤ n - 1 := by
  unfold line
  simp only [List.length_take]
  omega

/-- The line and its NUL fit into the array. -/
theorem fgets_isSome (b : Chars n) {stream : List UInt8} (hn : 0 < n) (hne : stream ≠ []) :
    ∃ b' z, b.fgets stream = some b' ∧ b'.bytes = line n stream ++ 0 :: z := by
  have hlen := length_line_le n stream
  obtain ⟨b', hb'⟩ := b.put_isSome (s := line n stream ++ [0])
    (by rw [List.length_append, List.length_singleton]; omega)
  refine ⟨b', b.bytes.drop (line n stream ++ [0]).length, (if_neg hne).trans hb', ?_⟩
  rw [bytes_put hb', List.append_assoc]
  rfl

/-! ## Scans -/

theorem scan_append {p : UInt8 → Bool} (h : b.bytes = pre ++ (tok ++ c :: z))
    (htok : ∀ b ∈ tok, p b = true) (hc : p c = false) :
    b.scan p pre.length = pre.length + tok.length := by
  unfold scan
  rw [h, List.drop_left, List.takeWhile_append_of_pos htok,
    List.takeWhile_cons_of_neg (by simp [hc]), List.append_nil]

theorem scan_zero {p : UInt8 → Bool} (h : b.bytes = tok ++ c :: z)
    (htok : ∀ b ∈ tok, p b = true) (hc : p c = false) : b.scan p 0 = tok.length := by
  have hscan := scan_append (show b.bytes = [] ++ (tok ++ c :: z) from h) htok hc
  rwa [List.length_nil, Nat.zero_add] at hscan

/-- A scan, and a NUL stored where it ends. -/
def terminateAt (b : Chars n) (p : UInt8 → Bool) (i : ℕ) : Option (Chars n) :=
  b.store (b.scan p i) 0

theorem terminateAt_append {p : UInt8 → Bool} (h : b.bytes = pre ++ (tok ++ c :: z))
    (htok : ∀ b ∈ tok, p b = true) (hc : p c = false) :
    ∃ b', b.terminateAt p pre.length = some b' ∧ b'.bytes = pre ++ (tok ++ 0 :: z) := by
  have happ : b.bytes = (pre ++ tok) ++ c :: z := by rw [h, List.append_assoc]
  obtain ⟨b', hstore, hbytes⟩ := store_append happ 0
  refine ⟨b', ?_, by rw [hbytes, List.append_assoc]⟩
  unfold terminateAt
  rw [scan_append h htok hc, ← List.length_append]
  exact hstore

/-- The scan of a string stops within it or at its NUL. -/
theorem terminateAt_string {p : UInt8 → Bool} (h : b.bytes = pre ++ (s ++ 0 :: z))
    (h0 : p 0 = false) :
    ∃ b' z', b.terminateAt p pre.length = some b' ∧
      b'.bytes = pre ++ (s.takeWhile p ++ 0 :: z') := by
  have htok : ∀ c ∈ s.takeWhile p, p c = true := fun c hc => List.mem_takeWhile_imp hc
  have hsplit := List.takeWhile_append_dropWhile (p := p) (l := s)
  cases hrest : s.dropWhile p with
  | nil =>
    rw [hrest, List.append_nil] at hsplit
    rw [← hsplit] at h
    obtain ⟨b', hb', hbytes⟩ := terminateAt_append h htok h0
    exact ⟨b', z, hb', hbytes⟩
  | cons c rest =>
    have hc : p c = false := by
      have hhead := List.head_dropWhile_not p (l := s) (by rw [hrest]; exact List.cons_ne_nil _ _)
      simpa only [hrest, List.head_cons] using hhead
    rw [hrest] at hsplit
    rw [← hsplit, List.append_assoc, List.cons_append] at h
    obtain ⟨b', hb', hbytes⟩ := terminateAt_append h htok hc
    exact ⟨b', rest ++ 0 :: z, hb', hbytes⟩

theorem terminateAt_zero {p : UInt8 → Bool} (h : b.bytes = s ++ 0 :: z) (h0 : p 0 = false) :
    ∃ b' z', b.terminateAt p 0 = some b' ∧ b'.bytes = s.takeWhile p ++ 0 :: z' :=
  terminateAt_string (show b.bytes = [] ++ (s ++ 0 :: z) from h) h0

end Chars

end AghOs
