import AghOs.Machine.Heap
import AghOs.Machine.Integers
import Mathlib.Data.List.Basic
import Mathlib.Tactic.Common

/-!
# Tables of blocks

The dynamic part of `src/cw01/zad1/src/challoc.c` (lines 8–54): a table refers to
an array of pointers to blocks, both on the heap. What the code must not do is
undefined here (`none`): to free what is not allocated, and to access an array
that is not there, or beyond its end.

The size of a pointer is 8, that of `blk_t` is 0.

* `Kept`: the array of the table is there, its entries refer to blocks that are,
  and every block has exactly one entry.
* `chfreeBlk_kept`, `challocBlk_kept`, `chfree_kept`, `challoc_kept`: what the
  operations do to it.
-/

namespace AghOs.Challoc

/-- An array of `blk_ptr` or a `blk_t`. -/
inductive Obj
  | blks (entries : List (Option ℕ))
  | blk (content : List Int8)

/-- `blk_table`; `none` is `NULL`. -/
structure BlkTable where
  blkCount : ℕ
  blkSize : ℕ
  blks : Option ℕ

/-- `calloc`, of an object of `nmemb * size` bytes. -/
def calloc (A : Allocator Obj) (h : Heap Obj) (nmemb size : ℕ) (o : Obj) : Heap Obj × Option ℕ :=
  if nmemb * size < 2 ^ 64 then h.alloc A (nmemb * size) o else (h, none)

/-- The array at an address. -/
def array (h : Heap Obj) (a : ℕ) : Option (List (Option ℕ)) :=
  match h a with
  | some (.blks es) => some es
  | _ => none

namespace BlkTable

variable (tbl : BlkTable)

/-- `tbl.blks[blk_no]` -/
def get (h : Heap Obj) (blkNo : ℕ) : Option (Option ℕ) := do
  let a ← tbl.blks
  let es ← array h a
  es[blkNo]?

/-- `tbl.blks[blk_no] = p` -/
def set (h : Heap Obj) (blkNo : ℕ) (p : Option ℕ) : Option (Heap Obj) := do
  let a ← tbl.blks
  let es ← array h a
  if blkNo < es.length then some (Function.update h a (some (.blks (es.set blkNo p)))) else none

end BlkTable

def challoc (A : Allocator Obj) (h : Heap Obj) (blkCount blkSize : ℕ) : Heap Obj × BlkTable :=
  match calloc A h blkCount 8 (.blks (List.replicate blkCount none)) with
  | (h, none) => (h, ⟨0, blkSize, none⟩)
  | (h, some a) => (h, ⟨blkCount, blkSize, some a⟩)

def chfreeBlk (h : Heap Obj) (tbl : BlkTable) (blkNo : ℕ) : Option (Heap Obj) :=
  if tbl.blks = none then some h
  else do
    match ← tbl.get h blkNo with
    | none => some h
    | some p =>
      let h ← h.free p
      tbl.set h blkNo none

/-- `chfree_blk` on the first `count` entries. -/
def chfreeBlks (h : Heap Obj) (tbl : BlkTable) : ℕ → Option (Heap Obj)
  | 0 => some h
  | i + 1 => do
    let h ← chfreeBlks h tbl i
    chfreeBlk h tbl i

def chfree (h : Heap Obj) (tbl : BlkTable) : Option (Heap Obj) :=
  match tbl.blks with
  | none => some h
  | some a =>
    if tbl.blkCount = 0 then some h
    else do
      let h ← chfreeBlks h tbl tbl.blkCount
      h.free a

/-- The heap after `challoc_blk`, and what it returns. -/
def challocBlk (A : Allocator Obj) (h : Heap Obj) (tbl : BlkTable) (blkNo : ℕ) :
    Option (Heap Obj × ℤ) :=
  if tbl.blks = none then some (h, -2)
  else
    (tbl.get h blkNo).bind fun old =>
    (if old = none then some h else chfreeBlk h tbl blkNo).bind fun h =>
    let new := calloc A h 1 (0 + tbl.blkSize) (.blk (List.replicate tbl.blkSize 0))
    (tbl.set new.1 blkNo new.2).map fun h => (h, if new.2 = none then -1 else 0)

/-! ## What the operations keep -/

/-- The entries of the table are `es`. They are all there is of the array, each
    of them is `NULL` or a block that is allocated, and every block that is
    allocated has exactly one entry. -/
structure Kept (h : Heap Obj) (tbl : BlkTable) (es : List (Option ℕ)) : Prop where
  null : tbl.blks = none → es = []
  array : ∀ a, tbl.blks = some a → h a = some (.blks es)
  length : es.length = tbl.blkCount
  live : ∀ (i p : ℕ), es[i]? = some (some p) → ∃ c, h p = some (.blk c)
  once : ∀ p c, h p = some (.blk c) → ∃! i : ℕ, es[i]? = some (some p)

section

variable {h : Heap Obj} {tbl : BlkTable} {es : List (Option ℕ)} {a p i : ℕ}

theorem get_eq (hk : Kept h tbl es) (ha : tbl.blks = some a) : tbl.get h i = es[i]? := by
  unfold BlkTable.get Challoc.array
  rw [ha]
  show (match h a with | some (.blks es) => some es | _ => none).bind _ = _
  rw [hk.array a ha]
  rfl

theorem set_eq {e : Option ℕ} (ha : tbl.blks = some a) (hes : h a = some (.blks es))
    (hi : i < es.length) :
    tbl.set h i e = some (Function.update h a (some (.blks (es.set i e)))) := by
  unfold BlkTable.set Challoc.array
  rw [ha]
  show (match h a with | some (.blks es) => some es | _ => none).bind _ = _
  rw [hes]
  exact if_pos hi

/-- A block is not the array. -/
theorem Kept.ne_array (hk : Kept h tbl es) (ha : tbl.blks = some a) {c : List Int8}
    (hp : h p = some (.blk c)) : p ≠ a := by
  rintro rfl
  rw [hk.array p ha] at hp
  cases hp

/-- A block of the heap with a new array is one of the heap before. -/
theorem blk_of_update {es' : List (Option ℕ)} {c : List Int8}
    (hp : Function.update h a (some (.blks es')) p = some (.blk c)) :
    p ≠ a ∧ h p = some (.blk c) := by
  have hpa : p ≠ a := by
    rintro rfl
    rw [Function.update_self] at hp
    cases hp
  rw [Function.update_of_ne hpa] at hp
  exact ⟨hpa, hp⟩

/-- A block is freed and its entry cleared. -/
theorem Kept.clear (hk : Kept h tbl es) (ha : tbl.blks = some a) (hp : es[i]? = some (some p)) :
    Kept (Function.update (Function.update h p none) a (some (.blks (es.set i none)))) tbl
      (es.set i none) := by
  obtain ⟨c, hc⟩ := hk.live i p hp
  have hentry : ∀ {j q}, (es.set i none)[j]? = some (some q) ↔ j ≠ i ∧ es[j]? = some (some q) := by
    intro j q
    by_cases hij : i = j
    · subst hij
      rw [List.getElem?_set_self']
      cases es[i]? <;> simp
    · rw [List.getElem?_set_ne hij]
      simp [Ne.symm hij]
  refine ⟨fun hn => ?_, fun b hb => ?_, ?_, fun j q hq => ?_, fun q c' hq => ?_⟩
  · rw [ha] at hn
    cases hn
  · rw [ha] at hb
    obtain rfl := Option.some.inj hb
    exact Function.update_self ..
  · rw [List.length_set, hk.length]
  · obtain ⟨hji, hq⟩ := hentry.mp hq
    obtain ⟨c', hc'⟩ := hk.live j q hq
    have hqp : q ≠ p := by
      rintro rfl
      exact hji ((hk.once q c hc).unique hq hp)
    rw [Function.update_of_ne (hk.ne_array ha hc'), Function.update_of_ne hqp]
    exact ⟨c', hc'⟩
  · obtain ⟨hqa, hq⟩ := blk_of_update hq
    have hqp : q ≠ p := by
      rintro rfl
      rw [Function.update_self] at hq
      cases hq
    rw [Function.update_of_ne hqp] at hq
    obtain ⟨j, hj, huniq⟩ := hk.once q c' hq
    have hji : j ≠ i := by
      rintro rfl
      rw [hp] at hj
      exact hqp (Option.some.inj (Option.some.inj hj)).symm
    exact ⟨j, hentry.mpr ⟨hji, hj⟩, fun k hk' => huniq k (hentry.mp hk').2⟩

/-- A new block gets an entry that was `NULL`. -/
theorem Kept.fill (hk : Kept h tbl es) (ha : tbl.blks = some a) (hi : es[i]? = some none)
    (hp : h p = none) (c : List Int8) :
    Kept (Function.update (Function.update h p (some (.blk c))) a
      (some (.blks (es.set i (some p))))) tbl (es.set i (some p)) := by
  have hlt : i < es.length := (List.getElem?_eq_some_iff.mp hi).1
  have hpa : p ≠ a := by
    rintro rfl
    rw [hk.array p ha] at hp
    cases hp
  have hself : (es.set i (some p))[i]? = some (some p) := List.getElem?_set_self hlt
  have hother : ∀ {j}, j ≠ i → (es.set i (some p))[j]? = es[j]? :=
    fun hji => List.getElem?_set_ne (Ne.symm hji)
  have hnew : ∀ j : ℕ, es[j]? ≠ some (some p) := by
    intro j hj
    obtain ⟨c', hc'⟩ := hk.live j p hj
    rw [hp] at hc'
    cases hc'
  refine ⟨fun hn => ?_, fun b hb => ?_, ?_, fun j q hq => ?_, fun q c' hq => ?_⟩
  · rw [ha] at hn
    cases hn
  · rw [ha] at hb
    obtain rfl := Option.some.inj hb
    exact Function.update_self ..
  · rw [List.length_set, hk.length]
  · by_cases hji : j = i
    · rw [hji, hself] at hq
      obtain rfl := Option.some.inj (Option.some.inj hq)
      rw [Function.update_of_ne hpa, Function.update_self]
      exact ⟨c, rfl⟩
    · rw [hother hji] at hq
      obtain ⟨c', hc'⟩ := hk.live j q hq
      have hqp : q ≠ p := by
        rintro rfl
        exact hnew j hq
      rw [Function.update_of_ne (hk.ne_array ha hc'), Function.update_of_ne hqp]
      exact ⟨c', hc'⟩
  · obtain ⟨hqa, hq⟩ := blk_of_update hq
    by_cases hqp : q = p
    · subst hqp
      refine ⟨i, hself, fun j hj => ?_⟩
      change (es.set i (some q))[j]? = some (some q) at hj
      by_contra hji
      rw [hother hji] at hj
      exact hnew j hj
    · rw [Function.update_of_ne hqp] at hq
      obtain ⟨j, hj, huniq⟩ := hk.once q c' hq
      have hji : j ≠ i := by
        rintro rfl
        rw [hi] at hj
        cases hj
      refine ⟨j, (hother hji).trans hj, fun k hk' => ?_⟩
      by_cases hki : k = i
      · rw [hki, hself] at hk'
        exact absurd (Option.some.inj (Option.some.inj hk')).symm hqp
      · exact huniq k ((hother hki).symm.trans hk')

theorem chfreeBlk_kept (hk : Kept h tbl es) (hi : tbl.blks ≠ none → i < tbl.blkCount) :
    ∃ h', chfreeBlk h tbl i = some h' ∧ Kept h' tbl (es.set i none) := by
  unfold chfreeBlk
  cases ha : tbl.blks with
  | none =>
    obtain rfl := hk.null ha
    exact ⟨h, if_pos rfl, hk⟩
  | some a =>
    have hlt : i < es.length := by
      rw [hk.length]
      exact hi (by rw [ha]; exact Option.some_ne_none a)
    rw [if_neg (Option.some_ne_none a), get_eq hk ha, List.getElem?_eq_getElem hlt]
    cases he : es[i] with
    | none =>
      refine ⟨h, rfl, ?_⟩
      rw [← he, List.set_getElem_self]
      exact hk
    | some p =>
      have hp : es[i]? = some (some p) := by rw [List.getElem?_eq_getElem hlt, he]
      obtain ⟨c, hc⟩ := hk.live i p hp
      have harray : Function.update h p none a = some (.blks es) := by
        rw [Function.update_of_ne (hk.ne_array ha hc).symm, hk.array a ha]
      refine ⟨_, ?_, hk.clear ha hp⟩
      show (h.free p).bind _ = _
      rw [Heap.free_of_some hc, Option.bind_some]
      exact set_eq ha harray hlt

theorem chfreeBlks_kept (hk : Kept h tbl es) {n : ℕ} (hn : n ≤ tbl.blkCount) :
    ∃ h' es', chfreeBlks h tbl n = some h' ∧ Kept h' tbl es' ∧
      ∀ i < n, ∀ p : ℕ, es'[i]? ≠ some (some p) := by
  induction n with
  | zero => exact ⟨h, es, rfl, hk, fun i hi => absurd hi (Nat.not_lt_zero i)⟩
  | succ n ih =>
    obtain ⟨h₁, es₁, hrun, hk₁, hnull⟩ := ih (Nat.le_of_succ_le hn)
    obtain ⟨h₂, hstep, hk₂⟩ := chfreeBlk_kept hk₁ (i := n) fun _ => hn
    refine ⟨h₂, _, ?_, hk₂, fun i hi p => ?_⟩
    · show (chfreeBlks h tbl n).bind _ = _
      rw [hrun, Option.bind_some, hstep]
    · by_cases hin : n = i
      · subst hin
        rw [List.getElem?_set_self']
        cases es₁[n]? <;> simp
      · rw [List.getElem?_set_ne hin]
        exact hnull i (by omega) p

/-- After `chfree` no block is allocated. -/
theorem chfree_kept (hk : Kept h tbl es) :
    ∃ h', chfree h tbl = some h' ∧ ∀ p c, h' p ≠ some (.blk c) := by
  have hempty : ∀ {h' : Heap Obj} {es'}, Kept h' tbl es' →
      (∀ i < tbl.blkCount, ∀ p : ℕ, es'[i]? ≠ some (some p)) → ∀ p c, h' p ≠ some (.blk c) := by
    intro h' es' hk' hnull p c hp
    obtain ⟨i, hi, -⟩ := hk'.once p c hp
    refine hnull i ?_ p hi
    rw [← hk'.length]
    exact (List.getElem?_eq_some_iff.mp hi).1
  unfold chfree
  cases ha : tbl.blks with
  | none =>
    refine ⟨h, rfl, hempty hk fun i hi => ?_⟩
    rw [← hk.length, hk.null ha] at hi
    exact absurd hi (Nat.not_lt_zero i)
  | some a =>
    by_cases h0 : tbl.blkCount = 0
    · refine ⟨h, if_pos h0, hempty hk fun i hi => ?_⟩
      rw [h0] at hi
      exact absurd hi (Nat.not_lt_zero i)
    · obtain ⟨h', es', hrun, hk', hnull⟩ := chfreeBlks_kept hk (Nat.le_refl _)
      refine ⟨Function.update h' a none, ?_, fun p c hp => ?_⟩
      · show (if tbl.blkCount = 0 then _
          else (chfreeBlks h tbl tbl.blkCount).bind fun h => h.free a) = _
        rw [if_neg h0, hrun, Option.bind_some, Heap.free_of_some (hk'.array a ha)]
      · have hpa : p ≠ a := by
          rintro rfl
          rw [Function.update_self] at hp
          cases hp
        rw [Function.update_of_ne hpa] at hp
        exact hempty hk' hnull p c hp

theorem calloc_cases (A : Allocator Obj) (h : Heap Obj) (nmemb size : ℕ) (o : Obj) :
    calloc A h nmemb size o = (h, none) ∨
      ∃ p, h p = none ∧ nmemb * size < 2 ^ 64 ∧
        calloc A h nmemb size o = (Function.update h p (some o), some p) := by
  unfold calloc
  by_cases hsize : nmemb * size < 2 ^ 64
  · rw [if_pos hsize]
    obtain hn | ⟨p, hp, he⟩ := h.alloc_cases A (nmemb * size) o
    · exact .inl hn
    · exact .inr ⟨p, hp, hsize, he⟩
  · exact .inl (if_neg hsize)

/-- The new table, with no block. -/
theorem challoc_kept (A : Allocator Obj) (hnone : ∀ p c, h p ≠ some (.blk c))
    (blkCount blkSize : ℕ) :
    (∃ es, Kept (challoc A h blkCount blkSize).1 (challoc A h blkCount blkSize).2 es) ∧
      ((challoc A h blkCount blkSize).2.blkCount = 0 ∨
        (challoc A h blkCount blkSize).2.blkCount = blkCount ∧ blkCount * 8 < 2 ^ 64) := by
  unfold challoc
  obtain hn | ⟨a, -, hsize, he⟩ :=
    calloc_cases A h blkCount 8 (.blks (List.replicate blkCount none))
  · rw [hn]
    refine ⟨⟨[], fun _ => rfl, nofun, rfl, fun i p hp => ?_, fun p c hp => ?_⟩, .inl rfl⟩
    · cases hp
    · exact absurd hp (hnone p c)
  · rw [he]
    refine ⟨⟨List.replicate blkCount none, nofun, fun b hb => ?_, List.length_replicate,
      fun i p hp => ?_, fun p c hp => ?_⟩, .inr ⟨rfl, hsize⟩⟩
    · obtain rfl := Option.some.inj hb
      exact Function.update_self ..
    · rw [List.getElem?_replicate] at hp
      split at hp <;> cases hp
    · exact absurd (blk_of_update hp).2 (hnone p c)

theorem challocBlk_kept (A : Allocator Obj) (hk : Kept h tbl es)
    (hi : tbl.blks ≠ none → i < tbl.blkCount) :
    ∃ h' ret es', challocBlk A h tbl i = some (h', ret) ∧ Kept h' tbl es' := by
  unfold challocBlk
  cases ha : tbl.blks with
  | none => exact ⟨h, -2, es, if_pos rfl, hk⟩
  | some a =>
    have hlt : i < es.length := by
      rw [hk.length]
      exact hi (by rw [ha]; exact Option.some_ne_none a)
    -- the entry is `NULL` when `calloc` is called
    obtain ⟨h₁, es₁, hfirst, hk₁, hnull⟩ : ∃ h₁ es₁,
        (if es[i] = none then some h else chfreeBlk h tbl i) = some h₁ ∧
          Kept h₁ tbl es₁ ∧ es₁[i]? = some none := by
      by_cases he : es[i] = none
      · exact ⟨h, es, if_pos he, hk, by rw [List.getElem?_eq_getElem hlt, he]⟩
      · obtain ⟨h₁, hrun, hk₁⟩ := chfreeBlk_kept hk hi
        exact ⟨h₁, _, (if_neg he).trans hrun, hk₁, List.getElem?_set_self hlt⟩
    have hlt₁ : i < es₁.length := (List.getElem?_eq_some_iff.mp hnull).1
    rw [if_neg (Option.some_ne_none a), get_eq hk ha, List.getElem?_eq_getElem hlt,
      Option.bind_some, hfirst, Option.bind_some]
    obtain hn | ⟨p, hp, -, he⟩ :=
      calloc_cases A h₁ 1 (0 + tbl.blkSize) (.blk (List.replicate tbl.blkSize 0))
    · rw [hn]
      refine ⟨_, _, es₁, congrArg (Option.map _) (set_eq ha (hk₁.array a ha) hlt₁), ?_⟩
      have hset : es₁.set i none = es₁ := by
        rw [List.getElem?_eq_getElem hlt₁] at hnull
        rw [← Option.some.inj hnull, List.set_getElem_self]
      rw [hset, ← hk₁.array a ha, Function.update_eq_self]
      exact hk₁
    · have hpa : a ≠ p := by
        rintro rfl
        rw [hk₁.array a ha] at hp
        cases hp
      have harray : Function.update h₁ p (some (.blk (List.replicate tbl.blkSize 0))) a =
          some (.blks es₁) := by
        rw [Function.update_of_ne hpa, hk₁.array a ha]
      rw [he]
      exact ⟨_, _, _, congrArg (Option.map _) (set_eq ha harray hlt₁), hk₁.fill ha hnull hp _⟩

end

end AghOs.Challoc
