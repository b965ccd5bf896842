import Mathlib.Algebra.Order.Round
import Mathlib.Data.Int.Log
import Mathlib.Data.Rat.Floor
import Mathlib.Tactic.FieldSimp
import Mathlib.Tactic.Linarith
import Mathlib.Tactic.Ring

/-!
# Single precision

The numbers of type `float` that are not negative, as exact rational numbers:
multiples of a power of two with 24 bits. `nearestFloat` is the conversion to
`float` in the default rounding mode, where it does not overflow.

* `roundEven_le`: no integer is nearer than `roundEven`.
* `units_succ_le`: how far apart two multiples of a power of two are.
* `IsDyadic.normal`: a float in units of its last place.
* `nearestFloat_isDyadic`, `nearestFloat_le`: no float is nearer than `nearestFloat`.
* `nearestFloat_between`: what lies between a float and a number rounded to it is
  rounded to it.
-/

namespace AghOs

/-! ## Rounding to an integer -/

/-- The nearest integer; of two, the even one. -/
def roundEven (x : ℚ) : ℤ :=
  if 2 * Int.fract x = 1 then (if ⌊x⌋ % 2 = 0 then ⌊x⌋ else ⌊x⌋ + 1) else round x

theorem roundEven_le (x : ℚ) (n : ℤ) : |x - roundEven x| ≤ |x - n| := by
  by_cases h : 2 * Int.fract x = 1
  · have hfloor : x = ⌊x⌋ + 1 / 2 := by
      have := Int.floor_add_fract x
      linarith
    have hhalf : |x - roundEven x| = 1 / 2 := by
      unfold roundEven
      rw [if_pos h]
      split
      · rw [show x - ⌊x⌋ = 1 / 2 by linarith]
        norm_num
      · push_cast
        rw [show x - (⌊x⌋ + 1) = -(1 / 2) by linarith]
        norm_num
    rw [hhalf, le_abs]
    obtain hn | hn := le_or_gt n ⌊x⌋
    · have : (n : ℚ) ≤ ⌊x⌋ := by exact_mod_cast hn
      exact .inl (by linarith)
    · have : (⌊x⌋ : ℚ) + 1 ≤ n := by exact_mod_cast hn
      exact .inr (by linarith)
  · unfold roundEven
    rw [if_neg h]
    exact round_le x n

theorem roundEven_half (x : ℚ) : |x - roundEven x| ≤ 1 / 2 :=
  (roundEven_le x (round x)).trans (abs_sub_round x)

theorem roundEven_nonneg {x : ℚ} (hx : 0 ≤ x) : 0 ≤ roundEven x := by
  have h := (abs_le.mp (roundEven_half x)).2
  have hlt : (-1 : ℚ) < roundEven x := by linarith
  have : (-1 : ℤ) < roundEven x := by exact_mod_cast hlt
  omega

/-! ## Floats -/

/-- A number with 24 bits, the last of which is worth at least `2 ^ -149`. -/
def IsDyadic (q : ℚ) : Prop := ∃ (m : ℕ) (e : ℤ), m < 2 ^ 24 ∧ -149 ≤ e ∧ q = m * 2 ^ e

/-- The exponent of the last place of a number. -/
def ulpExp (q : ℚ) : ℤ := max (-149) (Int.log 2 q - 23)

def nearestFloat (q : ℚ) : ℚ := roundEven (q / 2 ^ ulpExp q) * 2 ^ ulpExp q

theorem two_zpow_pos (e : ℤ) : (0 : ℚ) < 2 ^ e := zpow_pos two_pos e

theorem two_zpow_add (d e : ℤ) : (2 : ℚ) ^ (d + e) = 2 ^ d * 2 ^ e := zpow_add₀ two_ne_zero d e

theorem two_zpow_le {d e : ℤ} (h : d ≤ e) : (2 : ℚ) ^ d ≤ 2 ^ e :=
  zpow_le_zpow_right₀ one_le_two h

theorem units_lt {m n : ℕ} {e : ℤ} (h : (m : ℚ) * 2 ^ e < n * 2 ^ e) : m < n := by
  exact_mod_cast lt_of_mul_lt_mul_right h (two_zpow_pos e).le

/-- Two multiples of a power of two are that far apart at least. -/
theorem units_succ_le {m n : ℕ} {e : ℤ} (h : (m : ℚ) * 2 ^ e < n * 2 ^ e) :
    (m : ℚ) * 2 ^ e + 2 ^ e ≤ n * 2 ^ e := by
  have hmn : (m : ℚ) + 1 ≤ n := by exact_mod_cast units_lt h
  have hmul := mul_le_mul_of_nonneg_right hmn (two_zpow_pos e).le
  linarith

theorem ulpExp_ge (q : ℚ) : -149 ≤ ulpExp q := le_max_left _ _

theorem lt_ulpExp (q : ℚ) : q < 2 ^ (24 + ulpExp q) := by
  have h : q < 2 ^ (Int.log 2 q + 1) := Int.lt_zpow_succ_log_self (by norm_num) q
  refine h.trans_le (two_zpow_le ?_)
  unfold ulpExp
  omega

theorem ulpExp_le {q : ℚ} (hq : 0 < q) (h : -149 < ulpExp q) : 2 ^ (23 + ulpExp q) ≤ q := by
  have hlog : 2 ^ Int.log 2 q ≤ q := Int.zpow_log_le_self (by norm_num) hq
  have he : 23 + ulpExp q = Int.log 2 q := by
    unfold ulpExp at h ⊢
    omega
  rwa [he]

/-- A float is a multiple of `2 ^ e`, or so small that its last place is worth less. -/
theorem IsDyadic.cases {b : ℚ} (hb : IsDyadic b) (e : ℤ) :
    (∃ n : ℕ, b = n * 2 ^ e) ∨ b < 2 ^ (23 + e) ∧ -149 < e := by
  obtain ⟨m, d, hm, hd, rfl⟩ := hb
  by_cases hde : e ≤ d
  · obtain ⟨k, hk⟩ := Int.eq_ofNat_of_zero_le (Int.sub_nonneg_of_le hde)
    refine .inl ⟨m * 2 ^ k, ?_⟩
    have hd' : d = k + e := by omega
    rw [hd', two_zpow_add, zpow_natCast]
    push_cast
    ring
  · refine .inr ⟨?_, by omega⟩
    have hm' : (m : ℚ) < 2 ^ (24 : ℤ) := by exact_mod_cast hm
    calc (m : ℚ) * 2 ^ d < 2 ^ (24 : ℤ) * 2 ^ d := mul_lt_mul_of_pos_right hm' (two_zpow_pos d)
      _ = 2 ^ (24 + d) := (two_zpow_add 24 d).symm
      _ ≤ 2 ^ (23 + e) := two_zpow_le (by omega)

/-- A float in units of its last place. -/
theorem IsDyadic.normal {a : ℚ} (ha : IsDyadic a) (hpos : 0 < a) :
    ∃ m : ℕ, a = m * 2 ^ ulpExp a ∧ m < 2 ^ 24 := by
  obtain ⟨m, hm⟩ | ⟨hlt, he⟩ := ha.cases (ulpExp a)
  · refine ⟨m, hm, ?_⟩
    have hmul : (m : ℚ) * 2 ^ ulpExp a < (2 ^ 24 : ℕ) * 2 ^ ulpExp a := by
      have hlt := lt_ulpExp a
      rw [two_zpow_add] at hlt
      rw [← hm]
      exact_mod_cast hlt
    exact units_lt hmul
  · exact absurd hlt (not_lt.mpr (ulpExp_le hpos he))

/-- The neighbours of a float. -/
theorem IsDyadic.pred {m : ℕ} {e : ℤ} (hm : m < 2 ^ 24) (he : -149 ≤ e) :
    IsDyadic (((m - 1 : ℕ) : ℚ) * 2 ^ e) := ⟨m - 1, e, by omega, he, rfl⟩

theorem IsDyadic.succ {m : ℕ} {e : ℤ} (hm : m < 2 ^ 24) (he : -149 ≤ e) :
    IsDyadic (((m + 1 : ℕ) : ℚ) * 2 ^ e) := by
  obtain hlt | heq : m + 1 < 2 ^ 24 ∨ m + 1 = 2 ^ 24 := by omega
  · exact ⟨m + 1, e, hlt, he, rfl⟩
  · refine ⟨2 ^ 23, e + 1, by norm_num, by omega, ?_⟩
    rw [heq, two_zpow_add, zpow_one]
    push_cast
    ring

/-! ## The nearest float -/

section

variable {q : ℚ}

/-- No multiple of the last place is nearer. -/
theorem nearestFloat_le_multiple (q : ℚ) (n : ℤ) :
    |q - nearestFloat q| ≤ |q - n * 2 ^ ulpExp q| := by
  have hu := two_zpow_pos (ulpExp q)
  have hscale : ∀ r : ℤ, |q - r * 2 ^ ulpExp q| = |q / 2 ^ ulpExp q - r| * 2 ^ ulpExp q := by
    intro r
    rw [← abs_of_pos hu, ← abs_mul, abs_of_pos hu, sub_mul, div_mul_cancel₀ q hu.ne']
  unfold nearestFloat
  rw [hscale, hscale]
  exact mul_le_mul_of_nonneg_right (roundEven_le _ n) hu.le

theorem nearestFloat_le (hq : 0 ≤ q) {b : ℚ} (hb : IsDyadic b) :
    |q - nearestFloat q| ≤ |q - b| := by
  obtain hq | rfl := hq.lt_or_eq
  · obtain ⟨n, hn⟩ | ⟨hlt, he⟩ := hb.cases (ulpExp q)
    · rw [hn]
      exact nearestFloat_le_multiple q n
    · -- the float is below the power of two below `q`
      have hpow := ulpExp_le hq he
      have hle := nearestFloat_le_multiple q (2 ^ 23)
      have hmul : ((2 ^ 23 : ℤ) : ℚ) * 2 ^ ulpExp q = 2 ^ (23 + ulpExp q) := by
        rw [two_zpow_add]
        norm_num
      rw [hmul, abs_of_nonneg (sub_nonneg.mpr hpow)] at hle
      rw [abs_of_nonneg (sub_nonneg.mpr (hlt.le.trans hpow))]
      linarith
  · have hle := nearestFloat_le_multiple 0 0
    rw [Int.cast_zero, zero_mul, sub_zero, abs_zero] at hle
    exact hle.trans (abs_nonneg _)

theorem nearestFloat_isDyadic (hq : 0 ≤ q) : IsDyadic (nearestFloat q) := by
  have hu := two_zpow_pos (ulpExp q)
  have hquot : q / 2 ^ ulpExp q < 2 ^ 24 := by
    rw [div_lt_iff₀ hu]
    have := lt_ulpExp q
    rw [two_zpow_add] at this
    exact_mod_cast this
  have hhalf := (abs_le.mp (roundEven_half (q / 2 ^ ulpExp q))).1
  obtain ⟨r, hr⟩ := Int.eq_ofNat_of_zero_le (roundEven_nonneg (div_nonneg hq hu.le))
  have hr' : nearestFloat q = r * 2 ^ ulpExp q := by
    unfold nearestFloat
    rw [hr]
    norm_num
  have hle : r ≤ 2 ^ 24 := by
    rw [hr] at hhalf
    have : (r : ℚ) < 2 ^ 24 + 1 := by
      push_cast at hhalf
      linarith
    have : r < 2 ^ 24 + 1 := by exact_mod_cast this
    omega
  obtain hlt | rfl := hle.lt_or_eq
  · exact ⟨r, ulpExp q, hlt, ulpExp_ge q, hr'⟩
  · refine ⟨2 ^ 23, ulpExp q + 1, by norm_num, by have := ulpExp_ge q; omega, ?_⟩
    rw [hr', two_zpow_add, zpow_one]
    push_cast
    ring

/-- A float is its own nearest float. -/
theorem nearestFloat_self {a : ℚ} (ha : IsDyadic a) (h0 : 0 ≤ a) : nearestFloat a = a := by
  have h := nearestFloat_le h0 ha
  rw [sub_self, abs_zero] at h
  have := abs_nonpos_iff.mp h
  linarith

/-- What lies between a float and a number that is rounded to it. -/
theorem nearestFloat_between {a x y : ℚ} (hx : 0 ≤ x) (hy : 0 ≤ y) (ha : nearestFloat x = a)
    (h : a ≤ y ∧ y ≤ x ∨ x ≤ y ∧ y ≤ a) : nearestFloat y = a := by
  have hdy := nearestFloat_le hy (ha ▸ nearestFloat_isDyadic hx)
  have hdx := nearestFloat_le hx (nearestFloat_isDyadic hy)
  rw [ha] at hdx
  obtain ⟨hay, hyx⟩ | ⟨hxy, hya⟩ := h
  · rw [abs_of_nonneg (sub_nonneg.mpr hay), abs_le] at hdy
    rw [abs_of_nonneg (sub_nonneg.mpr (hay.trans hyx)), le_abs] at hdx
    obtain hdx | hdx := hdx
    · linarith
    · -- the midpoint is not before `x`, and `y` not behind it
      have hxy : x = y := by linarith
      rw [← hxy, ha]
  · rw [abs_of_nonpos (sub_nonpos.mpr hya), abs_le] at hdy
    rw [abs_of_nonpos (sub_nonpos.mpr (hxy.trans hya)), le_abs] at hdx
    obtain hdx | hdx := hdx
    · have hxy' : x = y := by linarith
      rw [← hxy', ha]
    · linarith

end

end AghOs
