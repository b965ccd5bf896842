import Mathlib.Algebra.BigOperators.Group.Finset.Basic
import Mathlib.Algebra.Order.BigOperators.Group.Finset
import Mathlib.Data.Fintype.BigOperators
import Mathlib.Logic.Function.Basic

/-!
# Counting over a family of threads

The local states of the threads of a system are a function `t : ι → α`. An
invariant of the system often says how many threads are in a certain part of
their program: `weigh w t` sums a weight `w : α → ℕ` over all threads, and
`weigh_update` says how the sum changes when one thread moves. With it the
preservation of such an invariant is linear arithmetic.
-/

namespace AghOs

section

variable {ι α : Type*} [Fintype ι]

/-- The sum of the weight `w` over the threads. -/
def weigh (w : α → ℕ) (t : ι → α) : ℕ := ∑ i, w (t i)

theorem le_weigh (w : α → ℕ) (t : ι → α) (i : ι) : w (t i) ≤ weigh w t :=
  Finset.single_le_sum (f := fun i => w (t i)) (fun _ _ => Nat.zero_le _) (Finset.mem_univ i)

theorem weigh_eq_zero_iff {w : α → ℕ} {t : ι → α} : weigh w t = 0 ↔ ∀ i, w (t i) = 0 := by
  simp [weigh, Finset.sum_eq_zero_iff]

theorem weigh_pos_iff {w : α → ℕ} {t : ι → α} : 0 < weigh w t ↔ ∃ i, 0 < w (t i) := by
  rw [Nat.pos_iff_ne_zero, Ne, weigh_eq_zero_iff]
  push Not
  simp only [Nat.pos_iff_ne_zero]

theorem weigh_mono {w v : α → ℕ} (h : ∀ a, w a ≤ v a) (t : ι → α) : weigh w t ≤ weigh v t :=
  Finset.sum_le_sum fun i _ => h (t i)

theorem weigh_add (w v : α → ℕ) (t : ι → α) :
    weigh (fun a => w a + v a) t = weigh w t + weigh v t :=
  Finset.sum_add_distrib

variable [DecidableEq ι]

/-- One thread moves: its old weight goes, its new weight comes. -/
theorem sum_update {β : Type*} [AddCommMonoid β] (w : ι → α → β) (t : ι → α) (i : ι) (a : α) :
    ∑ j, w j (Function.update t i a j) + w i (t i) = ∑ j, w j (t j) + w i a := by
  rw [← Finset.add_sum_erase _ _ (Finset.mem_univ i),
    ← Finset.add_sum_erase _ (fun j => w j (t j)) (Finset.mem_univ i)]
  have h : ∑ j ∈ Finset.univ.erase i, w j (Function.update t i a j) =
      ∑ j ∈ Finset.univ.erase i, w j (t j) :=
    Finset.sum_congr rfl fun j hj => by rw [Function.update_of_ne (Finset.ne_of_mem_erase hj)]
  rw [h, Function.update_self, add_right_comm, add_comm (w i a), add_right_comm]

omit [Fintype ι] in
/-- The same where only the threads in `S` count. -/
theorem sum_update_mem {β : Type*} [AddCommMonoid β] (w : α → β) (t : ι → α) {S : Finset ι}
    {i : ι} (hi : i ∈ S) (a : α) :
    ∑ j ∈ S, w (Function.update t i a j) + w (t i) = ∑ j ∈ S, w (t j) + w a := by
  rw [← Finset.add_sum_erase _ _ hi, ← Finset.add_sum_erase _ (fun j => w (t j)) hi]
  have h : ∑ j ∈ S.erase i, w (Function.update t i a j) = ∑ j ∈ S.erase i, w (t j) :=
    Finset.sum_congr rfl fun j hj => by rw [Function.update_of_ne (Finset.ne_of_mem_erase hj)]
  rw [h, Function.update_self, add_right_comm, add_comm (w a), add_right_comm]

theorem weigh_update (w : α → ℕ) (t : ι → α) (i : ι) (a : α) :
    weigh w (Function.update t i a) + w (t i) = weigh w t + w a :=
  sum_update (fun _ => w) t i a

/-- A move that keeps the weight keeps the sum. -/
theorem weigh_update_of_eq {w : α → ℕ} {t : ι → α} {i : ι} {a : α} (h : w a = w (t i)) :
    weigh w (Function.update t i a) = weigh w t := by
  have := weigh_update w t i a
  omega

/-- Two threads are not both counted when the sum is at most one. -/
theorem eq_of_weigh_le_one {w : α → ℕ} {t : ι → α} (h : weigh w t ≤ 1) {i j : ι}
    (hi : 0 < w (t i)) (hj : 0 < w (t j)) : i = j := by
  by_contra hne
  have h2 : w (t i) + w (t j) ≤ weigh w t := by
    unfold weigh
    rw [← Finset.add_sum_erase _ _ (Finset.mem_univ i)]
    have := Finset.single_le_sum (f := fun j => w (t j)) (fun _ _ => Nat.zero_le _)
      (Finset.mem_erase.mpr ⟨Ne.symm hne, Finset.mem_univ j⟩)
    omega
  omega

omit [Fintype ι] in
/-- Two systems that are related thread by thread stay so when one thread moves in
    both. -/
theorem update_rel {β : Type*} {R : α → β → Prop} {t : ι → α} {u : ι → β}
    (h : ∀ j, R (t j) (u j)) {i : ι} {a : α} {b : β} (hab : R a b) (j : ι) :
    R (Function.update t i a j) (Function.update u i b j) := by
  by_cases hj : j = i
  · subst hj
    rwa [Function.update_self, Function.update_self]
  · rw [Function.update_of_ne hj, Function.update_of_ne hj]
    exact h j

omit [Fintype ι] in
/-- If at most one of the other threads is in `P`, and the thread that moves
    goes to `P` only if none of them is, then at most one thread is in `P`. -/
theorem unique_update {P : α → Prop} {t : ι → α} {i : ι} {a : α}
    (h : ∀ j k, j ≠ i → k ≠ i → P (t j) → P (t k) → j = k) (hn : P a → ∀ j, j ≠ i → ¬P (t j))
    {j k : ι} (hj : P (Function.update t i a j)) (hk : P (Function.update t i a k)) : j = k := by
  by_cases hji : j = i <;> by_cases hki : k = i
  · exact hji.trans hki.symm
  · subst hji
    rw [Function.update_self] at hj
    rw [Function.update_of_ne hki] at hk
    exact absurd hk (hn hj k hki)
  · subst hki
    rw [Function.update_self] at hk
    rw [Function.update_of_ne hji] at hj
    exact absurd hj (hn hk j hji)
  · rw [Function.update_of_ne hji] at hj
    rw [Function.update_of_ne hki] at hk
    exact h j k hji hki hj hk

end

end AghOs
