import AghOs.Pgm.Image
import Mathlib.Algebra.BigOperators.Fin
import Mathlib.Algebra.Order.BigOperators.Group.Finset
import Mathlib.Algebra.Order.Round
import Mathlib.Data.Rat.Floor
import Mathlib.Tactic.Linarith

/-!
# Applying a filter

Model of `apply_filter` (`src/cw08/zad1/src/filter.c`, lines 45–72) with exact
arithmetic for its `double`s: the coefficients and the sums are rational numbers.
`pgm_get_pixel` and the coefficients are reads from memory, which are undefined
outside it. The conversion to `pix_t` is a parameter; C says what it is for the
values of the type only.

* `applyFilter_eq`: the result is the rounded sum over the window, whose pixels
  outside the image are taken from its edge.
* `window_sum_bounds`: a weighted mean of pixels lies between them.
* `apply_filter_reference`: both together.
-/

namespace AghOs.Pgm

/-! ## Specification -/

/-- `filter_t`, with exact coefficients. -/
@[ext] structure Filter where
  size : ℕ
  data : List ℚ
  length_data : data.length = size * size

theorem Filter.index_lt (f : Filter) (i j : Fin f.size) :
    (j : ℕ) * f.size + i < f.data.length := by
  rw [f.length_data]
  exact row_le i.isLt j.isLt

theorem Image.index_lt (img : Image) (x : Fin img.width) (y : Fin img.height) :
    (y : ℕ) * img.width + x < img.data.length := by
  rw [img.length_data]
  exact row_le x.isLt y.isLt

/-- The coefficient in the column `i` and the row `j`. -/
def Filter.coeff (f : Filter) (i j : Fin f.size) : ℚ := f.data.get ⟨_, f.index_lt i j⟩

/-- A pixel of the image. -/
def Image.pixel (img : Image) (x : Fin img.width) (y : Fin img.height) : UInt8 :=
  img.data.get ⟨_, img.index_lt x y⟩

/-- The number of `0..n-1` that is next to `v`. -/
def clampTo {n : ℕ} (hn : 0 < n) (v : ℤ) : Fin n :=
  ⟨(min ((n : ℤ) - 1) (max 0 v)).toNat, by omega⟩

/-- The pixel under the column `i` and the row `j` of the filter around `(x, y)`;
    outside the image, the pixel at its edge. -/
def Image.under (img : Image) (hw : 0 < img.width) (hh : 0 < img.height) (c : ℕ) (x y : ℤ)
    (i j : ℕ) : UInt8 :=
  img.pixel (clampTo hw (x - (c / 2 : ℕ) + i)) (clampTo hh (y - (c / 2 : ℕ) + j))

/-- The sum over the window of the filter around `(x, y)`. -/
def windowSum (f : Filter) (img : Image) (hw : 0 < img.width) (hh : 0 < img.height) (x y : ℤ) : ℚ :=
  ∑ i : Fin f.size, ∑ j : Fin f.size, (img.under hw hh f.size x y i j).toNat * f.coeff i j

/-! ## Model of the code -/

/-- `pgm_get_pixel`; `none` outside the array. -/
def pgmGetPixel (img : Image) (x y : ℤ) : Option UInt8 := img.data[pixelIndex img.width x y]?

/-- `filter->data[j * c + i]`, with the index in `size_t` as in `pgm_get_pixel`. -/
def Filter.read (f : Filter) (i j : ℕ) : Option ℚ := f.data[pixelIndex f.size i j]?

/-- `v = fmaxl(0, v); v = fminl(n - 1, v);`, the difference in `size_t`. -/
def clampInt (n : ℕ) (v : ℤ) : ℤ := toInt (min (toSize ((n : ℤ) - 1) : ℤ) (toInt (max 0 v)))

/-- `round`: a half goes away from zero. -/
def cRound (q : ℚ) : ℤ := if q < 0 then -round (-q) else round q

/-- A loop `for (int k = 0; k < n; ++k) sum += term(k)`, from `sum = 0` on. -/
def sumLoop (n : ℕ) (term : ℕ → Option ℚ) : Option ℚ :=
  (List.range n).foldlM (fun sum k => (term k).map (sum + ·)) 0

/-- `apply_filter`; `conv` is the conversion to `pix_t`. -/
def applyFilter (conv : ℤ → UInt8) (f : Filter) (img : Image) (x y : ℤ) : Option UInt8 :=
  let c := f.size
  let centerX := toInt (x - (c / 2 : ℕ))
  let centerY := toInt (y - (c / 2 : ℕ))
  let colSum (i : ℕ) := sumLoop c fun j =>
    let xp := clampInt img.width (toInt (centerX + i))
    let yp := clampInt img.height (toInt (centerY + j))
    (pgmGetPixel img xp yp).bind fun pix =>
      (f.read i j).map fun coeff => (pix.toNat : ℚ) * coeff
  (sumLoop c colSum).map fun sum => conv (cRound sum)

/-! ## The code computes the sum -/

theorem sumLoop_eq {n : ℕ} {term : ℕ → Option ℚ} {v : Fin n → ℚ}
    (h : ∀ k : Fin n, term k = some (v k)) : sumLoop n term = some (∑ k, v k) := by
  induction n with
  | zero => rfl
  | succ n ih =>
    have hinit : sumLoop n term = some (∑ k : Fin n, v k.castSucc) := ih fun k => h k.castSucc
    have hlast : term n = some (v (Fin.last n)) := h (Fin.last n)
    rw [Fin.sum_univ_castSucc]
    unfold sumLoop at hinit ⊢
    rw [List.range_succ, List.foldlM_append, hinit, Option.bind_eq_bind, Option.bind_some,
      List.foldlM_cons, hlast]
    rfl

theorem clampInt_eq {n : ℕ} (hn : 0 < n) (hlt : n < 2 ^ 31) {v : ℤ} (hlo : -2 ^ 31 ≤ v)
    (hhi : v < 2 ^ 31) : clampInt n v = (clampTo hn v : ℕ) := by
  have hsize : (toSize ((n : ℤ) - 1) : ℤ) = n - 1 := by
    rw [natCast_toSize]
    omega
  unfold clampInt clampTo
  rw [hsize, toInt_eq_self (n := max 0 v) (by omega) (by omega),
    toInt_eq_self (by omega) (by omega)]
  dsimp only
  omega

theorem pgmGetPixel_eq {img : Image} (hw : img.width < 2 ^ 31) (hh : img.height < 2 ^ 31)
    (x : Fin img.width) (y : Fin img.height) :
    pgmGetPixel img (x : ℕ) (y : ℕ) = some (img.pixel x y) := by
  unfold pgmGetPixel
  rw [pixelIndex_eq hw hh x.isLt y.isLt, List.getElem?_eq_getElem (img.index_lt x y)]
  rfl

theorem Filter.read_eq {f : Filter} (hc : f.size < 2 ^ 31) (i j : Fin f.size) :
    f.read i j = some (f.coeff i j) := by
  unfold Filter.read
  rw [pixelIndex_eq hc hc i.isLt j.isLt, List.getElem?_eq_getElem (f.index_lt i j)]
  rfl

/-- The result is the rounded sum over the window. -/
theorem applyFilter_eq (conv : ℤ → UInt8) {f : Filter} {img : Image} (hw : 0 < img.width)
    (hh : 0 < img.height) (hwc : img.width + f.size ≤ 2 ^ 31) (hhc : img.height + f.size ≤ 2 ^ 31)
    (x : Fin img.width) (y : Fin img.height) :
    applyFilter conv f img (x : ℕ) (y : ℕ) =
      some (conv (cRound (windowSum f img hw hh (x : ℕ) (y : ℕ)))) := by
  have hx := x.isLt
  have hy := y.isLt
  have hcol : ∀ i : Fin f.size,
      (sumLoop f.size fun j =>
        (pgmGetPixel img
            (clampInt img.width (toInt (toInt ((x : ℕ) - (f.size / 2 : ℕ)) + (i : ℕ))))
            (clampInt img.height (toInt (toInt ((y : ℕ) - (f.size / 2 : ℕ)) + j)))).bind fun pix =>
          (f.read i j).map fun coeff => (pix.toNat : ℚ) * coeff) =
        some (∑ j : Fin f.size,
          ((img.under hw hh f.size (x : ℕ) (y : ℕ) i j).toNat : ℚ) * f.coeff i j) := by
    intro i
    refine sumLoop_eq fun j => ?_
    have hi := i.isLt
    have hj := j.isLt
    rw [toInt_eq_self (n := (x : ℕ) - (f.size / 2 : ℕ)) (by omega) (by omega),
      toInt_eq_self (n := (y : ℕ) - (f.size / 2 : ℕ)) (by omega) (by omega),
      toInt_eq_self (by omega) (by omega), toInt_eq_self (by omega) (by omega),
      clampInt_eq hw (by omega) (by omega) (by omega),
      clampInt_eq hh (by omega) (by omega) (by omega), pgmGetPixel_eq (by omega) (by omega),
      Option.bind_some, f.read_eq (by omega), Option.map_some]
    rfl
  unfold applyFilter
  dsimp only
  rw [sumLoop_eq hcol]
  rfl

/-! ## The mean lies between the pixels -/

/-- Every coefficient belongs to one column and one row. -/
theorem Filter.sum_coeff (f : Filter) : ∑ i, ∑ j, f.coeff i j = f.data.sum := by
  let e : Fin f.size × Fin f.size ≃ Fin f.data.length :=
    finProdFinEquiv.trans (finCongr f.length_data.symm)
  have he : ∀ j i, f.data.get (e (j, i)) = f.coeff i j := by
    intro j i
    refine congrArg f.data.get (Fin.ext ?_)
    show (i : ℕ) + f.size * j = j * f.size + i
    rw [Nat.mul_comm, Nat.add_comm]
  calc ∑ i, ∑ j, f.coeff i j = ∑ j, ∑ i, f.coeff i j := Finset.sum_comm
    _ = ∑ p : Fin f.size × Fin f.size, f.data.get (e p) := by
      rw [Fintype.sum_prod_type]
      simp only [he]
    _ = ∑ k, f.data.get k := Equiv.sum_comp e _
    _ = f.data.sum := Fin.sum_univ_getElem f.data

/-- A weighted mean lies between the bounds of its values. -/
theorem weighted_mean_bounds {ι : Type*} [Fintype ι] {w v : ι → ℚ} {lo hi : ℚ}
    (hw : ∀ k, 0 ≤ w k) (hsum : ∑ k, w k = 1) (hv : ∀ k, lo ≤ v k ∧ v k ≤ hi) :
    lo ≤ ∑ k, v k * w k ∧ ∑ k, v k * w k ≤ hi := by
  constructor
  · calc lo = ∑ k, lo * w k := by rw [← Finset.mul_sum, hsum, mul_one]
      _ ≤ ∑ k, v k * w k := Finset.sum_le_sum fun k _ =>
        mul_le_mul_of_nonneg_right (hv k).1 (hw k)
  · calc ∑ k, v k * w k ≤ ∑ k, hi * w k := Finset.sum_le_sum fun k _ =>
        mul_le_mul_of_nonneg_right (hv k).2 (hw k)
      _ = hi := by rw [← Finset.mul_sum, hsum, mul_one]

theorem windowSum_bounds {f : Filter} {img : Image} (hw : 0 < img.width) (hh : 0 < img.height)
    (hnonneg : ∀ a ∈ f.data, 0 ≤ a) (hsum : f.data.sum = 1) {lo hi : UInt8}
    (hdata : ∀ p ∈ img.data, lo ≤ p ∧ p ≤ hi) (x y : ℤ) :
    (lo.toNat : ℚ) ≤ windowSum f img hw hh x y ∧ windowSum f img hw hh x y ≤ hi.toNat := by
  have hcoeff : ∀ k : Fin f.size × Fin f.size, 0 ≤ f.coeff k.1 k.2 := fun k =>
    hnonneg _ (List.get_mem _ _)
  have hone : ∑ k : Fin f.size × Fin f.size, f.coeff k.1 k.2 = 1 := by
    rw [Fintype.sum_prod_type, f.sum_coeff, hsum]
  have hpixel : ∀ k : Fin f.size × Fin f.size,
      (lo.toNat : ℚ) ≤ (img.under hw hh f.size x y k.1 k.2).toNat ∧
        ((img.under hw hh f.size x y k.1 k.2).toNat : ℚ) ≤ hi.toNat := by
    intro k
    have hmem : img.under hw hh f.size x y k.1 k.2 ∈ img.data := List.get_mem _ _
    have hp := hdata _ hmem
    exact ⟨Nat.cast_le.mpr (UInt8.le_iff_toNat_le.mp hp.1),
      Nat.cast_le.mpr (UInt8.le_iff_toNat_le.mp hp.2)⟩
  have hbounds := weighted_mean_bounds hcoeff hone hpixel
  rwa [Fintype.sum_prod_type] at hbounds

/-- Rounding does not leave an interval of natural numbers. -/
theorem cRound_bounds {q : ℚ} {lo hi : ℕ} (hlo : (lo : ℚ) ≤ q) (hhi : q ≤ hi) :
    (lo : ℤ) ≤ cRound q ∧ cRound q ≤ hi := by
  have h0 : (0 : ℚ) ≤ lo := Nat.cast_nonneg lo
  rw [cRound, if_neg (not_lt.mpr (h0.trans hlo)), round_eq]
  constructor
  · rw [Int.le_floor]
    push_cast
    linarith
  · rw [← Int.lt_add_one_iff, Int.floor_lt]
    push_cast
    linarith

/-- **`apply_filter` is the convolution with clamped coordinates.** It reads pixels of
    the image only, and rounds the sum over the window; if the coefficients are not
    negative and their sum is 1, the result lies between the pixels of the image, and
    the conversion does not change it. -/
theorem apply_filter_reference {conv : ℤ → UInt8} (hconv : ∀ p : UInt8, conv p.toNat = p)
    {f : Filter} {img : Image} (hw : 0 < img.width) (hh : 0 < img.height)
    (hwc : img.width + f.size ≤ 2 ^ 31) (hhc : img.height + f.size ≤ 2 ^ 31)
    (x : Fin img.width) (y : Fin img.height) :
    applyFilter conv f img (x : ℕ) (y : ℕ) =
        some (conv (cRound (windowSum f img hw hh (x : ℕ) (y : ℕ)))) ∧
      ((∀ a ∈ f.data, 0 ≤ a) → f.data.sum = 1 →
        ∀ lo hi : UInt8, (∀ p ∈ img.data, lo ≤ p ∧ p ≤ hi) →
          ∃ p : UInt8, applyFilter conv f img (x : ℕ) (y : ℕ) = some p ∧
            (p.toNat : ℤ) = cRound (windowSum f img hw hh (x : ℕ) (y : ℕ)) ∧ lo ≤ p ∧ p ≤ hi) := by
  have happly := applyFilter_eq conv hw hh hwc hhc x y
  refine ⟨happly, fun hnonneg hsum lo hi hdata => ?_⟩
  obtain ⟨h1, h2⟩ := windowSum_bounds hw hh hnonneg hsum hdata (x : ℕ) (y : ℕ)
  obtain ⟨hlo, hhi⟩ := cRound_bounds h1 h2
  obtain ⟨n, hn⟩ := Int.eq_ofNat_of_zero_le (Int.natCast_nonneg lo.toNat |>.trans hlo)
  have hhi' := hi.toNat_lt
  obtain ⟨p, hp⟩ : ∃ p : UInt8, p.toNat = n := ⟨UInt8.ofNat n, by
    rw [UInt8.toNat_ofNat']
    omega⟩
  rw [hn] at happly hlo hhi
  rw [hn]
  refine ⟨p, ?_, by rw [hp], ?_, ?_⟩
  · rw [happly, ← hp, hconv]
  · rw [UInt8.le_iff_toNat_le]
    omega
  · rw [UInt8.le_iff_toNat_le]
    omega

theorem apply_filter_reference_two :
    ∃ p : UInt8, applyFilter (fun v => UInt8.ofNat v.toNat) ⟨2, [1 / 4, 1 / 4, 1 / 4, 1 / 4], rfl⟩
        ⟨2, 1, [10, 20], rfl⟩ (0 : ℕ) (0 : ℕ) = some p ∧ 10 ≤ p ∧ p ≤ 20 := by
  obtain ⟨p, hp, -, hlo, hhi⟩ := (@apply_filter_reference (fun v => UInt8.ofNat v.toNat)
    (fun _ => UInt8.ofNat_toNat) ⟨2, [1 / 4, 1 / 4, 1 / 4, 1 / 4], rfl⟩ ⟨2, 1, [10, 20], rfl⟩
    (by decide) (by decide) (by decide) (by decide) ⟨0, by decide⟩ ⟨0, by decide⟩).2
    (by decide +kernel) (by decide +kernel) 10 20 (by simp)
  exact ⟨p, hp, hlo, hhi⟩

end AghOs.Pgm
