import Mathlib.Algebra.Order.Ring.Int

/-!
# The integer types of C

The conversions to `int` (32 bits), `long` and `size_t` (64 bits). Arithmetic in
a type is arithmetic in `ℤ` followed by the conversion to it. Signed overflow is
taken to wrap; `toInt_eq_self`, `toLong_natCast` and `toSize_natCast` say where
there is none, `toLong_toSize` and `toSize_toSize_mul` what a detour through
`size_t` does to a negative number.
-/

namespace AghOs

/-- The conversion to `int`. -/
def toInt (n : ℤ) : ℤ := n.bmod (2 ^ 32)

/-- The conversion to `long`. -/
def toLong (n : ℤ) : ℤ := n.bmod (2 ^ 64)

/-- The conversion to `size_t`. -/
def toSize (n : ℤ) : ℕ := (n % 2 ^ 64).toNat

theorem toInt_eq_self {n : ℤ} (hlo : -2 ^ 31 ≤ n) (hhi : n < 2 ^ 31) : toInt n = n := by
  unfold toInt
  apply Int.bmod_eq_of_le <;> omega

theorem toInt_natCast {n : ℕ} (h : n < 2 ^ 31) : toInt n = n :=
  toInt_eq_self (by omega) (by omega)

theorem toLong_natCast {n : ℕ} (h : n < 2 ^ 63) : toLong n = n := by
  unfold toLong
  apply Int.bmod_eq_of_le <;> omega

theorem toSize_natCast {n : ℕ} (h : n < 2 ^ 64) : toSize n = n := by
  unfold toSize
  omega

theorem natCast_toSize (n : ℤ) : (toSize n : ℤ) = n % 2 ^ 64 := by
  unfold toSize
  omega

/-- A `long` passed as a `size_t` comes back. -/
theorem toLong_toSize {n : ℤ} (hlo : -2 ^ 63 ≤ n) (hhi : n < 2 ^ 63) : toLong (toSize n) = n := by
  have hmod : (n % (2 ^ 64 : ℕ)).bmod (2 ^ 64) = n := by
    rw [Int.emod_bmod]
    apply Int.bmod_eq_of_le <;> omega
  unfold toLong
  rw [natCast_toSize]
  exact hmod

/-- A product in `size_t` with a factor that was negative. -/
theorem toSize_toSize_mul (n : ℤ) (m : ℕ) : toSize (toSize n * m) = toSize (n * m) := by
  have hmod : (toSize n * m : ℤ) % 2 ^ 64 = n * m % 2 ^ 64 := by
    rw [natCast_toSize, Int.mul_emod, Int.emod_emod, ← Int.mul_emod]
  exact congrArg Int.toNat hmod

end AghOs
