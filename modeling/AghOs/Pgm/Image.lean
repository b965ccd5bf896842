import AghOs.Machine.Integers
import Mathlib.Data.List.Basic

/-!
# Images

Model of `pgm_image` and of `pgm_set_pixel` in `src/cw08/zad1/src/pgm.c`. An
image holds `width * height` pixels, which `pgm_create` leaves as it finds them
in the memory that `malloc` returns.

* `pixelIndex_eq`: the index of a pixel, free of overflow on images whose sides
  fit in an `int`.
* `data_storeAll`: an image after a list of stores; the order does not matter
  where the value is a function of the coordinates.
-/

namespace AghOs.Pgm

/-- `pgm_image`. -/
@[ext] structure Image where
  width : ℕ
  height : ℕ
  data : List UInt8
  length_data : data.length = width * height

/-- The image that `pgm_create` makes of the memory `mem`, when `malloc`
    succeeds. -/
def pgmCreate (mem : ℕ → UInt8) (width height : ℕ) : Image where
  width := width
  height := height
  data := (List.range (width * height)).map mem
  length_data := by rw [List.length_map, List.length_range]

/-- `y * img->width + x`, in `size_t`. -/
def pixelIndex (width : ℕ) (x y : ℤ) : ℕ :=
  toSize (toSize (toSize y * width) + toSize x)

/-- `pgm_set_pixel`. -/
def pgmSetPixel (img : Image) (x y : ℤ) (pix : UInt8) : Image where
  width := img.width
  height := img.height
  data := img.data.set (pixelIndex img.width x y) pix
  length_data := by rw [List.length_set, img.length_data]

theorem row_le {w h x y : ℕ} (hx : x < w) (hy : y < h) : y * w + x < w * h := by
  have h1 : (y + 1) * w ≤ h * w := Nat.mul_le_mul_right w hy
  have h2 : (y + 1) * w = y * w + w := Nat.succ_mul y w
  have h3 : h * w = w * h := Nat.mul_comm h w
  omega

theorem area_lt {w h : ℕ} (hw : w < 2 ^ 31) (hh : h < 2 ^ 31) : w * h < 2 ^ 62 := by
  have h1 : w * h ≤ 2 ^ 31 * h := Nat.mul_le_mul_right h (Nat.le_of_lt hw)
  omega

theorem pixelIndex_eq {w h x y : ℕ} (hw : w < 2 ^ 31) (hh : h < 2 ^ 31) (hx : x < w)
    (hy : y < h) : pixelIndex w x y = y * w + x := by
  have hlt := row_le hx hy
  have harea := area_lt hw hh
  unfold pixelIndex
  rw [toSize_natCast (by omega), toSize_natCast (by omega), ← Int.natCast_mul,
    toSize_natCast (by omega), ← Int.natCast_add, toSize_natCast (by omega)]

/-- The pixel `p` of an image of width `w` has the coordinates `p % w` and
    `p / w`. -/
theorem pixelIndex_mod_div {w h p : ℕ} (hw : w < 2 ^ 31) (hh : h < 2 ^ 31) (hp : p < w * h) :
    pixelIndex w ↑(p % w) ↑(p / w) = p := by
  have hpos : 0 < w := Nat.pos_of_ne_zero fun h0 => by simp [h0] at hp
  rw [pixelIndex_eq hw hh (Nat.mod_lt p hpos) (Nat.div_lt_of_lt_mul hp), Nat.mul_comm]
  exact Nat.div_add_mod p w

/-! ## Stores -/

section

variable (v : ℤ → ℤ → UInt8)

/-- The image after the value `v x y` has been stored at each `(x, y)` of the
    list, from left to right. -/
def storeAll (img : Image) (xys : List (ℤ × ℤ)) : Image :=
  xys.foldl (fun o xy => pgmSetPixel o xy.1 xy.2 (v xy.1 xy.2)) img

theorem storeAll_append (img : Image) (xys : List (ℤ × ℤ)) (x y : ℤ) :
    storeAll v img (xys ++ [(x, y)]) = pgmSetPixel (storeAll v img xys) x y (v x y) := by
  simp [storeAll, List.foldl_append]

theorem storeAll_sides (img : Image) (xys : List (ℤ × ℤ)) :
    (storeAll v img xys).width = img.width ∧ (storeAll v img xys).height = img.height := by
  induction xys generalizing img with
  | nil => exact ⟨rfl, rfl⟩
  | cons xy xys ih => exact ih _

/-- The coordinates of the pixels `ps` of an image of width `w`. -/
def coordinates (w : ℕ) (ps : List ℕ) : List (ℤ × ℤ) :=
  ps.map fun p : ℕ => (((p % w : ℕ) : ℤ), ((p / w : ℕ) : ℤ))

/-- The coordinates in the order of two nested loops, the rows outside. -/
def rowMajor (w h : ℕ) : List (ℤ × ℤ) :=
  (List.range h).flatMap fun y : ℕ => (List.range w).map fun x : ℕ => ((x : ℤ), (y : ℤ))

/-- The nested loops go through the pixels in the order of their indices. -/
theorem rowMajor_eq (w h : ℕ) : rowMajor w h = coordinates w (List.range (w * h)) := by
  induction h with
  | zero => rfl
  | succ h ih =>
    have hrow : coordinates w ((List.range w).map fun x => w * h + x) =
        (List.range w).map fun x : ℕ => ((x : ℤ), (h : ℤ)) := by
      unfold coordinates
      rw [List.map_map]
      apply List.map_congr_left
      intro x hx
      have hlt : x < w := List.mem_range.mp hx
      have hdiv : (w * h + x) / w = h := by
        rw [Nat.mul_add_div (by omega), Nat.div_eq_of_lt hlt, Nat.add_zero]
      show ((((w * h + x) % w : ℕ) : ℤ), (((w * h + x) / w : ℕ) : ℤ)) = ((x : ℤ), (h : ℤ))
      rw [Nat.mul_add_mod, Nat.mod_eq_of_lt hlt, hdiv]
    have hsplit : rowMajor w (h + 1) =
        rowMajor w h ++ (List.range w).map fun x : ℕ => ((x : ℤ), (h : ℤ)) := by
      unfold rowMajor
      rw [List.range_succ, List.flatMap_append, List.flatMap_singleton]
    rw [hsplit, ih, ← hrow, Nat.mul_succ, List.range_add]
    exact List.map_append.symm

variable {w h : ℕ}

theorem data_storeAll (hw : w < 2 ^ 31) (hh : h < 2 ^ 31) {img : Image} (hiw : img.width = w)
    (hih : img.height = h) {ps : List ℕ} (hps : ∀ p ∈ ps, p < w * h) {p : ℕ} (hp : p < w * h) :
    (storeAll v img (coordinates w ps)).data[p]? =
      if p ∈ ps then some (v (p % w : ℕ) (p / w : ℕ)) else img.data[p]? := by
  induction ps generalizing img with
  | nil => rfl
  | cons q ps ih =>
    have hq := hps q List.mem_cons_self
    have hlen : img.data.length = w * h := by rw [img.length_data, hiw, hih]
    show (storeAll v (pgmSetPixel img (q % w : ℕ) (q / w : ℕ) (v (q % w : ℕ) (q / w : ℕ)))
      (coordinates w ps)).data[p]? = _
    rw [@ih (pgmSetPixel img _ _ _) hiw hih fun r hr => hps r (List.mem_cons_of_mem q hr)]
    by_cases hmem : p ∈ ps
    · rw [if_pos hmem, if_pos (List.mem_cons_of_mem q hmem)]
    · rw [if_neg hmem]
      show (img.data.set (pixelIndex img.width _ _) _)[p]? = _
      rw [hiw, pixelIndex_mod_div hw hh hq, List.getElem?_set]
      by_cases hqp : q = p
      · subst hqp
        rw [if_pos rfl, if_pos (by omega), if_pos List.mem_cons_self]
      · have hne : p ∉ q :: ps := List.not_mem_cons_of_ne_of_not_mem (Ne.symm hqp) hmem
        rw [if_neg hqp, if_neg hne]

/-- Two lists of stores that both reach every pixel leave the same image. -/
theorem storeAll_eq (hw : w < 2 ^ 31) (hh : h < 2 ^ 31) {img : Image} (hiw : img.width = w)
    (hih : img.height = h) {ps qs : List ℕ} (hps : ∀ p, p ∈ ps ↔ p < w * h)
    (hqs : ∀ p, p ∈ qs ↔ p < w * h) :
    storeAll v img (coordinates w ps) = storeAll v img (coordinates w qs) := by
  have hp := storeAll_sides v img (coordinates w ps)
  have hq := storeAll_sides v img (coordinates w qs)
  apply Image.ext
  · rw [hp.1, hq.1]
  · rw [hp.2, hq.2]
  · apply List.ext_getElem?
    intro p
    by_cases hlt : p < w * h
    · rw [data_storeAll v hw hh hiw hih (fun p => (hps p).mp) hlt,
        data_storeAll v hw hh hiw hih (fun p => (hqs p).mp) hlt, if_pos ((hps p).mpr hlt),
        if_pos ((hqs p).mpr hlt)]
    · have hle : ∀ xys, (storeAll v img xys).data.length ≤ p := by
        intro xys
        have hs := storeAll_sides v img xys
        rw [Image.length_data, hs.1, hs.2, hiw, hih]
        omega
      rw [List.getElem?_eq_none (hle _), List.getElem?_eq_none (hle _)]

end

end AghOs.Pgm
