import AghOs.Challoc.Search

/-!
# The nearest sum

What `challoc.h` (lines 40–52) says that `chfind` returns, for tables in which
any of the blocks may be missing. The sum of a block is the one of `chblk_sum`;
`blkSum_eq` says when nothing overflows.

* `absDiff_eq_iff`: `abs` and `int` give the difference exactly below 2³¹.
* `chfind_eq`: the block after `blk_no` is the only candidate.
* `nearest_iff`: when that is what `challoc.h` says.
-/

namespace AghOs.Challoc

/-- A table and the contents of its blocks; `none` is a block that is not
    allocated. -/
structure Loaded (h : Heap Obj) (tbl : BlkTable) (blks : List (Option (List Int8))) : Prop where
  count : tbl.blkCount = blks.length
  content : ∀ c, some c ∈ blks → c.length = tbl.blkSize
  missing : ∀ i : ℕ, blks[i]? = some none → tbl.get h i = some none
  entry : ∀ (i : ℕ) c, blks[i]? = some (some c) →
    ∃ p, tbl.get h i = some (some p) ∧ h p = some (.blk c)

/-- The sum of a block that is allocated. -/
def sumOf (blks : List (Option (List Int8))) (i : ℕ) : Option ℤ := blks[i]?.join.map blkSum

/-- `r` is the block, and the difference, that `chfind` is to return. -/
def Documented (blks : List (Option (List Int8))) (blkNo : ℕ) (r : ℕ × ℤ) : Prop :=
  match sumOf blks blkNo with
  | none => r = (blkNo, 0)
  | some s =>
    ((∀ j ≠ blkNo, sumOf blks j = none) ∧ r = (blkNo, 0)) ∨
      (r.1 ≠ blkNo ∧ ∃ t, sumOf blks r.1 = some t ∧ r.2 = (s - t).natAbs ∧
        ∀ j ≠ blkNo, ∀ u, sumOf blks j = some u → (s - t).natAbs ≤ (s - u).natAbs)

/-- If another block is allocated, the one after `blk_no` is, its sum is not -1,
    no sum is nearer, and the difference is below 2³¹. -/
def NextIsNearest (blks : List (Option (List Int8))) (blkNo : ℕ) : Prop :=
  ∀ s, sumOf blks blkNo = some s → (∃ j ≠ blkNo, sumOf blks j ≠ none) →
    ∃ t, sumOf blks (nextBlk blkNo blks.length) = some t ∧ t ≠ -1 ∧ (s - t).natAbs < 2 ^ 31 ∧
      ∀ j ≠ blkNo, ∀ u, sumOf blks j = some u → (s - t).natAbs ≤ (s - u).natAbs

/-! ## The arithmetic -/

theorem natAbs_sum_le (content : List Int8) :
    (content.map Int8.toInt).sum.natAbs ≤ 128 * content.length := by
  induction content with
  | nil => exact Nat.zero_le _
  | cons c content ih =>
    have hlo := Int8.le_toInt c
    have hhi := Int8.toInt_lt c
    rw [List.map_cons, List.sum_cons, List.length_cons]
    omega

theorem blkSum_eq {content : List Int8} (h : content.length < 2 ^ 56) :
    blkSum content = (content.map Int8.toInt).sum := by
  have hle := natAbs_sum_le content
  unfold blkSum toLong
  apply Int.bmod_eq_of_le <;> omega

theorem absDiff_eq_iff (s t : ℤ) : absDiff s t = (s - t).natAbs ↔ (s - t).natAbs < 2 ^ 31 := by
  unfold absDiff toLong
  generalize s - t = d
  constructor
  · intro h
    have hlt : toInt (toInt (d.bmod (2 ^ 64))).natAbs < 2 ^ 31 := Int.bmod_lt (by decide)
    omega
  · intro h
    have hd : d.bmod (2 ^ 64) = d := by apply Int.bmod_eq_of_le <;> omega
    have hint : toInt d = d := by
      unfold toInt
      apply Int.bmod_eq_of_le <;> omega
    rw [hd, hint, toInt_natCast h]

/-! ## What is found -/

section

variable {h : Heap Obj} {tbl : BlkTable} {blks : List (Option (List Int8))} {blkNo i : ℕ}

/-- -1 stands for a block that is not allocated. -/
theorem Loaded.chblkSum_eq (hl : Loaded h tbl blks) (hi : i < blks.length) :
    chblkSum h tbl i = some ((sumOf blks i).getD (-1)) := by
  have hget := List.getElem?_eq_getElem hi
  have hblks : ∀ {e}, tbl.get h i = some e → tbl.blks ≠ none := by
    intro e he hn
    rw [BlkTable.get, hn] at he
    cases he
  cases hc : blks[i] with
  | none =>
    rw [hc] at hget
    have hmissing := hl.missing i hget
    rw [chblkSum, if_neg (hblks hmissing), hmissing, sumOf, hget]
    rfl
  | some c =>
    rw [hc] at hget
    obtain ⟨p, hp, hobj⟩ := hl.entry i c hget
    have hlen : c.length = tbl.blkSize := hl.content c (List.mem_of_getElem? hget)
    have hsum : contentSum c tbl.blkSize = some (blkSum c) := by
      rw [contentSum_eq (Nat.le_of_eq hlen.symm), List.take_of_length_le (Nat.le_of_eq hlen)]
    rw [chblkSum, if_neg (hblks hp), hp, sumOf, hget]
    simp only [Option.bind_some, hobj, hsum, Option.join_some, Option.map_some, Option.getD_some]

theorem Loaded.chfind_missing (hl : Loaded h tbl blks) (hb : blkNo < blks.length)
    (hs : sumOf blks blkNo = none) : chfind h tbl blkNo = some (blkNo, 0) := by
  have hget := List.getElem?_eq_getElem hb
  cases hc : blks[blkNo] with
  | none =>
    rw [hc] at hget
    rw [chfind, hl.missing blkNo hget]
    rfl
  | some c =>
    rw [hc] at hget
    rw [sumOf, hget] at hs
    cases hs

theorem Loaded.chfind_eq (hl : Loaded h tbl blks) (hb : blkNo < blks.length) {s : ℤ}
    (hs : sumOf blks blkNo = some s) :
    chfind h tbl blkNo = some
      (let t := (sumOf blks (nextBlk blkNo blks.length)).getD (-1)
      if t = -1 then (blkNo, 0) else (nextBlk blkNo blks.length, absDiff s t)) := by
  have hget := List.getElem?_eq_getElem hb
  cases hc : blks[blkNo] with
  | none =>
    rw [hc] at hget
    rw [sumOf, hget] at hs
    cases hs
  | some c =>
    rw [hc] at hget
    obtain ⟨p, hp, -⟩ := hl.entry blkNo c hget
    have hnext : nextBlk blkNo blks.length < blks.length := Nat.mod_lt _ (Nat.zero_lt_of_lt hb)
    have hsums := blkSums_eq fun i hi => hl.chblkSum_eq (i := i) hi
    rw [chfind, hp, Option.bind_some, if_neg (Option.some_ne_none p), hl.count, hsums,
      Option.bind_some, closest_eq hb, Option.bind_some, List.getElem?_map,
      List.getElem?_range hnext, hs]
    rfl

/-- The block after `blk_no` is another one, unless there is only one. -/
theorem nextBlk_ne {n : ℕ} (hn : 2 ≤ n) (hb : blkNo < n) : nextBlk blkNo n ≠ blkNo := by
  have hsize : toSize (blkNo + 1) = blkNo + 1 ∨ toSize (blkNo + 1) < blkNo := by
    unfold toSize
    omega
  unfold nextBlk
  rcases hsize with hsize | hsize
  · rw [hsize]
    by_cases hlast : blkNo + 1 = n
    · rw [hlast, Nat.mod_self]
      omega
    · rw [Nat.mod_eq_of_lt (by omega)]
      omega
  · rw [Nat.mod_eq_of_lt (by omega)]
    exact Nat.ne_of_lt hsize

theorem lt_of_sumOf {j : ℕ} (hj : sumOf blks j ≠ none) : j < blks.length := by
  by_contra hle
  exact hj (by rw [sumOf, List.getElem?_eq_none (Nat.le_of_not_lt hle)]; rfl)

/-- The only block that is allocated. -/
theorem Loaded.chfind_only (hl : Loaded h tbl blks) (hb : blkNo < blks.length) {s : ℤ}
    (hs : sumOf blks blkNo = some s) (honly : ∀ j ≠ blkNo, sumOf blks j = none) :
    chfind h tbl blkNo = some (blkNo, 0) := by
  rw [hl.chfind_eq hb hs]
  by_cases hn : 2 ≤ blks.length
  · rw [honly _ (nextBlk_ne hn hb)]
    rfl
  · obtain rfl : blkNo = 0 := by omega
    have hone : blks.length = 1 := by omega
    have hnext : nextBlk 0 1 = 0 := Nat.mod_one _
    have hdiff : absDiff s s = 0 := by
      unfold absDiff
      rw [Int.sub_self]
      rfl
    rw [hone, hnext, hs]
    simp only [Option.getD_some, hdiff, ite_self]

/-- There is another block that is allocated. -/
theorem Loaded.nearest_iff_of_other (hl : Loaded h tbl blks) (hb : blkNo < blks.length) {s : ℤ}
    (hs : sumOf blks blkNo = some s) {j : ℕ} (hj : j ≠ blkNo) (hother : sumOf blks j ≠ none) :
    (∃ r, chfind h tbl blkNo = some r ∧ Documented blks blkNo r) ↔ NextIsNearest blks blkNo := by
  have hlt := lt_of_sumOf hother
  have hne := nextBlk_ne (show 2 ≤ blks.length by omega) hb
  rw [hl.chfind_eq hb hs]
  unfold Documented NextIsNearest
  rw [hs]
  constructor
  · rintro ⟨r, hr, ⟨honly, -⟩ | ⟨hr1, t, ht, hdiff, hnear⟩⟩ s' hs' -
    · exact absurd (honly j hj) hother
    · obtain rfl := Option.some.inj hs'
      have hr := (Option.some.inj hr).symm
      by_cases hnone : (sumOf blks (nextBlk blkNo blks.length)).getD (-1) = -1
      · rw [if_pos hnone] at hr
        exact absurd (congrArg Prod.fst hr) hr1
      · rw [if_neg hnone] at hr
        subst hr
        dsimp only at ht hdiff
        rw [ht, Option.getD_some] at hnone hdiff
        exact ⟨t, ht, hnone, (absDiff_eq_iff s t).mp hdiff, hnear⟩
  · intro hnext
    obtain ⟨t, ht, hne1, hlt, hnear⟩ := hnext s rfl ⟨j, hj, hother⟩
    refine ⟨_, rfl, .inr ?_⟩
    rw [ht, Option.getD_some, if_neg hne1]
    refine ⟨hne, t, ht, ?_, hnear⟩
    dsimp only
    exact (absDiff_eq_iff s t).mpr hlt

/-- `chfind` returns what `challoc.h` says exactly when no block is nearer than
    the one after `blk_no`, whose sum is not taken for a missing block. -/
theorem nearest_iff (hl : Loaded h tbl blks) (hb : blkNo < blks.length) :
    (∃ r, chfind h tbl blkNo = some r ∧ Documented blks blkNo r) ↔ NextIsNearest blks blkNo := by
  cases hs : sumOf blks blkNo with
  | none =>
    constructor
    · intro _ s hs'
      rw [hs] at hs'
      cases hs'
    · intro _
      refine ⟨_, hl.chfind_missing hb hs, ?_⟩
      unfold Documented
      rw [hs]
  | some s =>
    by_cases honly : ∀ j ≠ blkNo, sumOf blks j = none
    · constructor
      · rintro _ _ - ⟨j, hj, hsome⟩
        exact absurd (honly j hj) hsome
      · intro _
        refine ⟨_, hl.chfind_only hb hs honly, ?_⟩
        unfold Documented
        rw [hs]
        exact .inl ⟨honly, rfl⟩
    · obtain ⟨j, hj⟩ := not_forall.mp honly
      obtain ⟨hj, hother⟩ := Classical.not_imp.mp hj
      exact hl.nearest_iff_of_other hb hs hj hother

end

/-- A table with three blocks of one character. -/
def threeBlks (c₀ c₁ c₂ : Int8) : Heap Obj
  | 0 => some (.blks [some 1, some 2, some 3])
  | 1 => some (.blk [c₀])
  | 2 => some (.blk [c₁])
  | 3 => some (.blk [c₂])
  | _ => none

theorem loaded_threeBlks (c₀ c₁ c₂ : Int8) :
    Loaded (threeBlks c₀ c₁ c₂) ⟨3, 1, some 0⟩ [some [c₀], some [c₁], some [c₂]] := by
  refine ⟨rfl, fun c hc => ?_, fun i hi => ?_, fun i c hi => ?_⟩
  · simp only [List.mem_cons, Option.some.injEq, List.not_mem_nil, or_false] at hc
    rcases hc with rfl | rfl | rfl <;> rfl
  · match i, hi with
    | 0, hi | 1, hi | 2, hi => cases hi
  · match i, hi with
    | 0, rfl => exact ⟨1, rfl, rfl⟩
    | 1, rfl => exact ⟨2, rfl, rfl⟩
    | 2, rfl => exact ⟨3, rfl, rfl⟩

theorem nearest_iff_three :
    (∃ r, chfind (threeBlks 5 4 9) ⟨3, 1, some 0⟩ 0 = some r ∧
      Documented [some [5], some [4], some [9]] 0 r) ↔
      NextIsNearest [some [5], some [4], some [9]] 0 :=
  nearest_iff (loaded_threeBlks 5 4 9) (by decide)

/-- The third block has the sum of the first, and the second is returned. -/
theorem nearer_missed :
    Loaded (threeBlks 5 9 5) ⟨3, 1, some 0⟩ [some [5], some [9], some [5]] ∧
      chfind (threeBlks 5 9 5) ⟨3, 1, some 0⟩ 0 = some (1, 4) ∧
      ¬Documented [some [5], some [9], some [5]] 0 (1, 4) := by
  refine ⟨loaded_threeBlks 5 9 5, by decide, ?_⟩
  rintro (⟨honly, -⟩ | ⟨-, t, ht, -, hnear⟩)
  · exact absurd (honly 1 (by decide)) (by decide)
  · obtain rfl := Option.some.inj ht
    exact absurd (hnear 2 (by decide) _ rfl) (by decide)

end AghOs.Challoc
