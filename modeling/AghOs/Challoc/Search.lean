import AghOs.Challoc.Table

/-!
# Searching a table

The searches of `src/cw01/zad1/src/challoc.c` (lines 56–157) through a dynamic
table on the heap and through the static one. The variable-length array of sums
is a list; an access beyond its end, or a size that is not positive, is undefined
(`none`). The result is the index and what is stored in `*difference`.

* `closest_eq`: the loop compares the difference of `index` with itself, so the
  search stays at the block after `blk_no`.
* `searches_agree_iff`: the searches agree unless the characters of that block
  add up to `-1`, which `chfind` takes for a block that is not there.
-/

namespace AghOs.Challoc

/-! ## The sums -/

/-- `ret` after `n` turns of the loop over the characters of a block. -/
def contentSum (content : List Int8) : ℕ → Option ℤ
  | 0 => some 0
  | i + 1 =>
    (contentSum content i).bind fun ret => content[i]?.map fun c => toLong (ret + c.toInt)

def chblkSum (h : Heap Obj) (tbl : BlkTable) (blkNo : ℕ) : Option ℤ :=
  if tbl.blks = none then some (-2)
  else
    (tbl.get h blkNo).bind fun blk =>
    match blk with
    | none => some (-1)
    | some p =>
      match h p with
      | some (.blk content) => contentSum content tbl.blkSize
      | _ => none

/-- `s_chblk_sum`; the blocks are those of `s_chtable`. -/
def sChblkSum (blks : List (List Int8)) (blkSize blkNo : ℕ) : Option ℤ :=
  blks[blkNo]?.bind fun content => contentSum content blkSize

/-- `blk_sums` after `n` turns of the loop that fills it. -/
def blkSums (sum : ℕ → Option ℤ) : ℕ → Option (List ℤ)
  | 0 => some []
  | i + 1 => (blkSums sum i).bind fun sums => (sum i).map fun s => sums ++ [s]

/-! ## The searches -/

/-- `abs(c_sum - sum)`, on an `int`. -/
def absDiff (cSum sum : ℤ) : ℤ := toInt (toInt (toLong (cSum - sum))).natAbs

/-- `(blk_no + 1) % blk_count` -/
def nextBlk (blkNo blkCount : ℕ) : ℕ := toSize (blkNo + 1) % blkCount

/-- `index` and `diff` after a turn of the loop. -/
def searchTurn (sums : List ℤ) (blkNo : ℕ) (cSum : ℤ) (i : ℕ) (st : ℕ × ℤ) : Option (ℕ × ℤ) :=
  if i = blkNo then some st
  else
    -- the block compared is the one at `index`, not the one at `i`
    sums[st.1]?.map fun sum =>
    let diff2 := toSize (absDiff cSum sum)
    if diff2 < toSize st.2 then (i, toLong diff2) else st

/-- `index` and `diff` after `n` turns of the loop. -/
def searchLoop (sums : List ℤ) (blkNo : ℕ) (cSum : ℤ) (st : ℕ × ℤ) : ℕ → Option (ℕ × ℤ)
  | 0 => some st
  | i + 1 => (searchLoop sums blkNo cSum st i).bind (searchTurn sums blkNo cSum i)

/-- What both functions do with the sums. -/
def closest (sums : List ℤ) (blkCount blkNo : ℕ) : Option (ℕ × ℤ) :=
  sums[blkNo]?.bind fun cSum =>
  sums[nextBlk blkNo blkCount]?.bind fun sum =>
  searchLoop sums blkNo cSum (nextBlk blkNo blkCount, absDiff cSum sum) blkCount

def chfind (h : Heap Obj) (tbl : BlkTable) (blkNo : ℕ) : Option (ℕ × ℤ) :=
  (tbl.get h blkNo).bind fun blk =>
  if blk = none then some (blkNo, 0)
  else
    (blkSums (chblkSum h tbl) tbl.blkCount).bind fun sums =>
    (closest sums tbl.blkCount blkNo).bind fun found =>
    sums[found.1]?.map fun sum => if sum = -1 then (blkNo, 0) else found

/-- `s_chfind`; `blk_count` is an `int`. -/
def sChfind (blks : List (List Int8)) (blkSize blkNo : ℕ) : Option (ℕ × ℤ) :=
  let blkCount := toInt blks.length
  if blkCount ≤ 0 then none
  else
    (blkSums (sChblkSum blks blkSize) (toSize blkCount)).bind fun sums =>
    closest sums (toSize blkCount) blkNo

/-! ## What they find -/

/-- The sum of the characters of a block. -/
def blkSum (content : List Int8) : ℤ := toLong (content.map Int8.toInt).sum

theorem contentSum_eq {content : List Int8} {n : ℕ} (hn : n ≤ content.length) :
    contentSum content n = some (blkSum (content.take n)) := by
  induction n with
  | zero => rfl
  | succ n ih =>
    have hget := List.getElem?_eq_getElem hn
    have hsum : toLong (blkSum (content.take n) + content[n].toInt) =
        blkSum (content.take (n + 1)) := by
      rw [List.take_add_one, hget]
      unfold blkSum toLong
      rw [Int.bmod_add_bmod, List.map_append, List.sum_append]
      simp only [Option.toList_some, List.map_cons, List.map_nil, List.sum_singleton]
    rw [contentSum, ih (Nat.le_of_succ_le hn), hget, Option.bind_some, Option.map_some, hsum]

theorem blkSums_eq {sum : ℕ → Option ℤ} {f : ℕ → ℤ} {n : ℕ} (h : ∀ i < n, sum i = some (f i)) :
    blkSums sum n = some ((List.range n).map f) := by
  induction n with
  | zero => rfl
  | succ n ih =>
    rw [blkSums, ih fun i hi => h i (Nat.lt_succ_of_lt hi), h n (Nat.lt_succ_self n),
      List.range_succ, List.map_append]
    rfl

theorem searchLoop_eq {sums : List ℤ} {blkNo index : ℕ} {cSum sum : ℤ}
    (hs : sums[index]? = some sum) (n : ℕ) :
    searchLoop sums blkNo cSum (index, absDiff cSum sum) n = some (index, absDiff cSum sum) := by
  induction n with
  | zero => rfl
  | succ n ih =>
    rw [searchLoop, ih, Option.bind_some, searchTurn]
    split
    · rfl
    · simp only [hs, Option.map_some, Nat.lt_irrefl, if_false]

/-- The search ends where it starts. -/
theorem closest_eq {f : ℕ → ℤ} {n blkNo : ℕ} (hb : blkNo < n) :
    closest ((List.range n).map f) n blkNo =
      some (nextBlk blkNo n, absDiff (f blkNo) (f (nextBlk blkNo n))) := by
  have hget : ∀ {i}, i < n → ((List.range n).map f)[i]? = some (f i) := by
    intro i hi
    rw [List.getElem?_map, List.getElem?_range hi, Option.map_some]
  have hnext : nextBlk blkNo n < n := Nat.mod_lt _ (Nat.zero_lt_of_lt hb)
  rw [closest, hget hb, Option.bind_some, hget hnext, Option.bind_some]
  exact searchLoop_eq (hget hnext) n

/-- A table all of whose blocks are allocated, with the contents of `blks`. -/
structure SameContents (h : Heap Obj) (tbl : BlkTable) (blks : List (List Int8))
    (blkSize : ℕ) : Prop where
  count : tbl.blkCount = blks.length
  size : tbl.blkSize = blkSize
  content : ∀ c ∈ blks, c.length = blkSize
  entry : ∀ i c, blks[i]? = some c → ∃ p, tbl.get h i = some (some p) ∧ h p = some (.blk c)

/-- The sum of a block of the static table. -/
def sumAt (blks : List (List Int8)) (i : ℕ) : ℤ := blkSum (blks.getD i [])

section

variable {h : Heap Obj} {tbl : BlkTable} {blks : List (List Int8)} {blkSize blkNo i : ℕ}

theorem SameContents.sChblkSum_eq (hs : SameContents h tbl blks blkSize) (hi : i < blks.length) :
    sChblkSum blks blkSize i = some (sumAt blks i) := by
  have hget := List.getElem?_eq_getElem hi
  have hlen : blks[i].length = blkSize := hs.content _ (List.getElem_mem hi)
  rw [sChblkSum, sumAt, List.getD_eq_getElem?_getD, hget, Option.bind_some,
    contentSum_eq (Nat.le_of_eq hlen.symm), List.take_of_length_le (Nat.le_of_eq hlen)]
  rfl

theorem SameContents.chblkSum_eq (hs : SameContents h tbl blks blkSize) (hi : i < blks.length) :
    chblkSum h tbl i = some (sumAt blks i) := by
  have hget := List.getElem?_eq_getElem hi
  obtain ⟨p, hp, hc⟩ := hs.entry i _ hget
  have hblks : tbl.blks ≠ none := by
    intro hn
    rw [BlkTable.get, hn] at hp
    cases hp
  have hsum := hs.sChblkSum_eq hi
  rw [sChblkSum, hget, Option.bind_some] at hsum
  rw [chblkSum, if_neg hblks, hp, hs.size]
  simp only [Option.bind_some, hc, hsum]

theorem SameContents.chfind_eq (hs : SameContents h tbl blks blkSize) (hb : blkNo < blks.length) :
    chfind h tbl blkNo = some
      (if sumAt blks (nextBlk blkNo blks.length) = -1 then (blkNo, 0)
      else (nextBlk blkNo blks.length,
        absDiff (sumAt blks blkNo) (sumAt blks (nextBlk blkNo blks.length)))) := by
  obtain ⟨p, hp, -⟩ := hs.entry blkNo _ (List.getElem?_eq_getElem hb)
  have hnext : nextBlk blkNo blks.length < blks.length := Nat.mod_lt _ (Nat.zero_lt_of_lt hb)
  have hsums := blkSums_eq fun i hi => hs.chblkSum_eq (i := i) hi
  rw [chfind, hp, Option.bind_some, if_neg (Option.some_ne_none p), hs.count, hsums,
    Option.bind_some, closest_eq hb, Option.bind_some, List.getElem?_map,
    List.getElem?_range hnext]
  rfl

/-- The static search sees as many blocks as the `int` says. -/
theorem SameContents.sChfind_eq (hs : SameContents h tbl blks blkSize) {n : ℕ}
    (hn : toInt blks.length = n) (hle : n ≤ blks.length) (hb : blkNo < n) :
    sChfind blks blkSize blkNo =
      some (nextBlk blkNo n, absDiff (sumAt blks blkNo) (sumAt blks (nextBlk blkNo n))) := by
  have hsize : toSize n = n := by
    apply toSize_natCast
    have : toInt blks.length < 2 ^ 31 := Int.bmod_lt (by decide)
    omega
  have hpos : ¬(n : ℤ) ≤ 0 := by omega
  have hsums := blkSums_eq fun i (hi : i < n) => hs.sChblkSum_eq (i := i) (by omega)
  rw [sChfind]
  simp only [hn, hsize, if_neg hpos, hsums, Option.bind_some]
  exact closest_eq hb

/-- An index of the static search is that of the dynamic one only if it is an
    index of the smaller table. -/
theorem nextBlk_eq_iff {n k : ℕ} (hk : k < 2 ^ 31) (hkn : k ≤ n) (hb : blkNo < k) :
    nextBlk blkNo n = nextBlk blkNo k ↔ nextBlk blkNo n < k := by
  have hsize : toSize (blkNo + 1) = blkNo + 1 := by
    have h64 : blkNo + 1 < 2 ^ 64 := by omega
    exact_mod_cast toSize_natCast h64
  unfold nextBlk
  rw [hsize]
  constructor
  · intro h
    rw [h]
    exact Nat.mod_lt _ (Nat.zero_lt_of_lt hb)
  · intro h
    by_cases hlast : blkNo + 1 = k
    · obtain rfl | hlt := Nat.eq_or_lt_of_le hkn
      · rfl
      · rw [hlast, Nat.mod_eq_of_lt hlt] at h
        exact absurd h (Nat.lt_irrefl k)
    · rw [Nat.mod_eq_of_lt (by omega), Nat.mod_eq_of_lt (by omega)]

/-- Beyond the `int`, the static search accesses what is not in `blk_sums`. -/
theorem SameContents.sChfind_none (hs : SameContents h tbl blks blkSize) {n : ℕ}
    (hn : toInt blks.length = n) (hle : n ≤ blks.length) (hb : n ≤ blkNo) :
    sChfind blks blkSize blkNo = none := by
  have hlt : toInt blks.length < 2 ^ 31 := Int.bmod_lt (by decide)
  have hsize : toSize n = n := toSize_natCast (by omega)
  have hsums := blkSums_eq fun i (hi : i < n) => hs.sChblkSum_eq (i := i) (by omega)
  rw [sChfind, hn]
  by_cases hpos : (n : ℤ) ≤ 0
  · exact if_pos hpos
  · have hnone : ((List.range n).map (sumAt blks))[blkNo]? = none := by
      rw [List.getElem?_eq_none_iff, List.length_map, List.length_range]
      exact hb
    simp only [if_neg hpos, hsize, hsums, Option.bind_some, closest, hnone, Option.bind_none]

/-- Both searches are defined and return the same. -/
def Agree (h : Heap Obj) (tbl : BlkTable) (blks : List (List Int8)) (blkSize blkNo : ℕ) : Prop :=
  ∃ r, chfind h tbl blkNo = some r ∧ sChfind blks blkSize blkNo = some r

theorem SameContents.agree_iff_of_lt (hs : SameContents h tbl blks blkSize) {n : ℕ}
    (hn : toInt blks.length = n) (hle : n ≤ blks.length) (hb : blkNo < n) :
    Agree h tbl blks blkSize blkNo ↔
      if sumAt blks (nextBlk blkNo blks.length) = -1 then n = 1
      else nextBlk blkNo blks.length < n := by
  have hlt : toInt blks.length < 2 ^ 31 := Int.bmod_lt (by decide)
  unfold Agree
  rw [hs.chfind_eq (Nat.lt_of_lt_of_le hb hle), hs.sChfind_eq hn hle hb]
  split
  · constructor
    · rintro ⟨r, hr, hr'⟩
      have hnext : blkNo = nextBlk blkNo n :=
        congrArg Prod.fst (Option.some.inj (hr.trans hr'.symm))
      have hsize : toSize (blkNo + 1) = blkNo + 1 := by
        have h64 : blkNo + 1 < 2 ^ 64 := by omega
        exact_mod_cast toSize_natCast h64
      rw [nextBlk, hsize] at hnext
      by_cases hlast : blkNo + 1 = n
      · rw [hlast, Nat.mod_self] at hnext
        omega
      · rw [Nat.mod_eq_of_lt (by omega)] at hnext
        omega
    · rintro rfl
      obtain rfl : blkNo = 0 := by omega
      refine ⟨_, rfl, ?_⟩
      rw [nextBlk, Nat.mod_one, absDiff, Int.sub_self]
      rfl
  · rw [← nextBlk_eq_iff (by omega) hle hb]
    constructor
    · rintro ⟨r, hr, hr'⟩
      exact congrArg Prod.fst (Option.some.inj (hr.trans hr'.symm))
    · intro hnext
      refine ⟨_, rfl, ?_⟩
      rw [hnext]

theorem toInt_natCast_le (n : ℕ) : toInt n ≤ n := by
  unfold toInt
  rw [Int.bmod_eq_emod]
  split <;> omega

/-- The searches agree if and only if the static one sees the block after
    `blk_no` and its characters do not add up to `-1`; for a count that an `int`
    can hold, if and only if they do not add up to `-1`. -/
theorem searches_agree_iff (hn : 2 ≤ blks.length) (hs : SameContents h tbl blks blkSize)
    (hb : blkNo < blks.length) :
    (Agree h tbl blks blkSize blkNo ↔
      blkNo < toInt blks.length ∧
        if sumAt blks (nextBlk blkNo blks.length) = -1 then toInt blks.length = 1
        else nextBlk blkNo blks.length < toInt blks.length) ∧
    (blks.length < 2 ^ 31 →
      (Agree h tbl blks blkSize blkNo ↔ sumAt blks (nextBlk blkNo blks.length) ≠ -1)) := by
  have hle := toInt_natCast_le blks.length
  have hfirst : Agree h tbl blks blkSize blkNo ↔
      blkNo < toInt blks.length ∧
        if sumAt blks (nextBlk blkNo blks.length) = -1 then toInt blks.length = 1
        else nextBlk blkNo blks.length < toInt blks.length := by
    by_cases hneg : toInt blks.length < 0
    · have hnone : sChfind blks blkSize blkNo = none := by
        rw [sChfind]
        exact if_pos (Int.le_of_lt hneg)
      constructor
      · rintro ⟨r, -, hr⟩
        rw [hnone] at hr
        cases hr
      · rintro ⟨hlt, -⟩
        omega
    · obtain ⟨k, hk⟩ := Int.eq_ofNat_of_zero_le (Int.not_lt.mp hneg)
      rw [hk] at hle ⊢
      have hkn : k ≤ blks.length := by omega
      by_cases hbk : blkNo < k
      · rw [hs.agree_iff_of_lt hk hkn hbk]
        split <;> omega
      · constructor
        · rintro ⟨r, -, hr⟩
          rw [hs.sChfind_none hk hkn (by omega)] at hr
          cases hr
        · rintro ⟨hlt, -⟩
          omega
  refine ⟨hfirst, fun hint => hfirst.trans ?_⟩
  have hnext : nextBlk blkNo blks.length < blks.length := Nat.mod_lt _ (Nat.zero_lt_of_lt hb)
  rw [toInt_natCast hint]
  split <;> omega

end

/-- A table with two blocks of one character. -/
def twoBlks (c₀ c₁ : Int8) : Heap Obj
  | 0 => some (.blks [some 1, some 2])
  | 1 => some (.blk [c₀])
  | 2 => some (.blk [c₁])
  | _ => none

theorem sameContents_twoBlks (c₀ c₁ : Int8) :
    SameContents (twoBlks c₀ c₁) ⟨2, 1, some 0⟩ [[c₀], [c₁]] 1 := by
  refine ⟨rfl, rfl, fun c hc => ?_, fun i c hi => ?_⟩
  · obtain rfl | hc := List.mem_cons.mp hc
    · rfl
    · rw [List.mem_singleton.mp hc]
      rfl
  · match i, hi with
    | 0, rfl => exact ⟨1, rfl, rfl⟩
    | 1, rfl => exact ⟨2, rfl, rfl⟩

theorem searches_agree_iff_two : Agree (twoBlks 5 3) ⟨2, 1, some 0⟩ [[5], [3]] 1 0 :=
  ((searches_agree_iff (by decide) (sameContents_twoBlks 5 3) (by decide)).2 (by decide)).mpr
    (by decide)

/-- A block with the character `-1` is taken for one that is not there. -/
theorem sentinel_sum :
    SameContents (twoBlks 0 (-1)) ⟨2, 1, some 0⟩ [[0], [-1]] 1 ∧
      chfind (twoBlks 0 (-1)) ⟨2, 1, some 0⟩ 0 = some (0, 0) ∧
      sChfind [[0], [-1]] 1 0 = some (1, 1) :=
  ⟨sameContents_twoBlks 0 (-1), by decide, by decide⟩

end AghOs.Challoc
