import Mathlib.Algebra.Order.Ring.Nat
import Mathlib.Data.Nat.Digits.Defs

/-!
# Numbers in memory

The bytes of a number in memory, least significant first.

* `leNat_leBytes`: reading back what was written.
-/

namespace AghOs

/-- The `n` low bytes of `v`, least significant first. -/
def leBytes : ℕ → ℕ → List UInt8
  | 0, _ => []
  | n + 1, v => UInt8.ofNat v :: leBytes n (v / 256)

/-- The number with the given bytes, least significant first. -/
def leNat (bs : List UInt8) : ℕ := Nat.ofDigits 256 (bs.map UInt8.toNat)

@[simp] theorem length_leBytes (n v : ℕ) : (leBytes n v).length = n := by
  induction n generalizing v with
  | zero => rfl
  | succ n ih => simp [leBytes, ih]

theorem leNat_leBytes_mod (n v : ℕ) : leNat (leBytes n v) = v % 256 ^ n := by
  induction n generalizing v with
  | zero => simp [leBytes, leNat, Nat.mod_one]
  | succ n ih =>
    have hd : leNat (leBytes (n + 1) v) = v % 256 + 256 * leNat (leBytes n (v / 256)) := by
      simp [leBytes, leNat, Nat.ofDigits_cons]
    rw [hd, ih, pow_succ', Nat.mod_mul]

theorem leNat_leBytes {n v : ℕ} (h : v < 256 ^ n) : leNat (leBytes n v) = v := by
  rw [leNat_leBytes_mod, Nat.mod_eq_of_lt h]

end AghOs
