import AghOs.Machine.Integers

/-!
# Loops with an `int` counter

`for (int i = 0; i < bound; ++i)` with a bound of type `size_t`: the counter is
converted for the comparison, so a negative counter counts as a number near
`2 ^ 64`. `intLoop bound` is the number of iterations.

* `intLoop_spec`: the test holds that many times and fails then.
* `toInt_succ`: a counter after `++`.
* `times_times`: nested loops whose bodies do not use the counters.
-/

namespace AghOs

/-- The number of iterations of `for (int i = 0; i < bound; ++i)`. -/
def intLoop (bound : ℕ) : ℕ :=
  if bound ≤ 2 ^ 31 then bound
  else if bound ≤ 2 ^ 64 - 2 ^ 31 then 2 ^ 31
  else bound - (2 ^ 64 - 2 ^ 32)

/-- The counter as it is compared. -/
theorem toSize_toInt {n : ℕ} (h : n < 2 ^ 32) :
    toSize (toInt n) = if n < 2 ^ 31 then n else n + (2 ^ 64 - 2 ^ 32) := by
  by_cases hn : n < 2 ^ 31
  · rw [if_pos hn, toInt_natCast hn, toSize_natCast (by omega)]
  · have hneg : toInt n = (n : ℤ) - 2 ^ 32 := by
      have hmod : ((n : ℤ) - (2 ^ 32 : ℕ)).bmod (2 ^ 32) = (n : ℤ).bmod (2 ^ 32) :=
        Int.sub_bmod_right _ _
      unfold toInt
      rw [← hmod]
      apply Int.bmod_eq_of_le <;> omega
    rw [if_neg hn, hneg]
    unfold toSize
    omega

theorem toInt_succ (n : ℤ) : toInt (toInt n + 1) = toInt (n + 1) := Int.bmod_add_bmod

/-- The test of the loop holds for the first `intLoop bound` values of the counter,
    and fails for the next. -/
theorem intLoop_spec {bound : ℕ} (h : bound < 2 ^ 64) :
    (∀ n < intLoop bound, toSize (toInt n) < bound) ∧
      ¬toSize (toInt (intLoop bound)) < bound := by
  have hlt : intLoop bound < 2 ^ 32 := by
    unfold intLoop
    split_ifs <;> omega
  constructor
  · intro n hn
    rw [toSize_toInt (by omega)]
    unfold intLoop at hn
    split_ifs at hn ⊢ <;> omega
  · rw [toSize_toInt hlt]
    unfold intLoop
    split_ifs <;> omega

section

variable {σ ε : Type*}

/-- `n` times the same step. -/
def times : ℕ → (σ → Except ε σ) → σ → Except ε σ
  | 0, _, s => .ok s
  | n + 1, f, s => (f s).bind (times n f)

theorem times_add (f : σ → Except ε σ) (m n : ℕ) (s : σ) :
    times (m + n) f s = (times m f s).bind (times n f) := by
  induction m generalizing s with
  | zero => rw [Nat.zero_add]; rfl
  | succ m ih =>
    rw [Nat.succ_add, times, times]
    cases f s with
    | error e => rfl
    | ok s => exact ih s

theorem times_times (f : σ → Except ε σ) (m n : ℕ) (s : σ) :
    times m (times n f) s = times (m * n) f s := by
  induction m generalizing s with
  | zero => rw [Nat.zero_mul]; rfl
  | succ m ih =>
    have hih : times m (times n f) = times (m * n) f := funext ih
    calc times (m + 1) (times n f) s = (times n f s).bind (times m (times n f)) := rfl
      _ = times (n + m * n) f s := by rw [hih, times_add]
      _ = times ((m + 1) * n) f s := by rw [Nat.succ_mul, Nat.add_comm]

end

end AghOs
