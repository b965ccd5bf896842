import Mathlib.Data.Nat.ModEq
import Mathlib.Data.List.Range
import Mathlib.Logic.Function.Basic

/-!
# Positions in a ring

Arithmetic of a ring of `n` slots: the `d`-th slot after `s` is `(s + d) % n`.

* `ringList f n s l`: the contents of the `l` slots from `s` on.
* `ringList_push`, `ringList_pop`: writing the slot behind them appends to this
  list, stepping forward drops its head; so a ring is a queue.
-/

namespace AghOs

/-- Fewer than `n` slots further on, the ring has not come round. -/
theorem ring_ne {n s d : ℕ} (hs : s < n) (h0 : 0 < d) (hd : d < n) : (s + d) % n ≠ s := by
  intro h
  have h1 : s + d ≡ s + 0 [MOD n] := by
    rw [Nat.ModEq, h, add_zero, Nat.mod_eq_of_lt hs]
  have h2 := (Nat.ModEq.add_left_cancel' s h1)
  rw [Nat.ModEq, Nat.mod_eq_of_lt hd, Nat.zero_mod] at h2
  omega

/-- Stepping forward moves the count of the slots that follow. -/
theorem ring_succ (n s d : ℕ) : ((s + 1) % n + d) % n = (s + (d + 1)) % n := by
  rw [Nat.mod_add_mod]
  congr 1
  omega

/-- The slot before the end is the last of the `c` slots. -/
theorem ring_last {n m s c : ℕ} (hm : m < n) (hc : 0 < c) (h : (m + 1) % n = (s + c) % n) :
    m = (s + (c - 1)) % n := by
  have h1 : m + 1 ≡ s + (c - 1) + 1 [MOD n] := by
    rw [Nat.ModEq, h]
    congr 1
    omega
  have h2 := Nat.ModEq.add_right_cancel' 1 h1
  rw [Nat.ModEq, Nat.mod_eq_of_lt hm] at h2
  exact h2

/-- Two of `n` consecutive slots are different. -/
theorem ring_inj {n s d e : ℕ} (hde : d < e) (he : e < n) : (s + d) % n ≠ (s + e) % n := by
  intro h
  have h1 : s + d ≡ s + e [MOD n] := h
  have h2 := Nat.ModEq.add_left_cancel' s h1
  rw [Nat.ModEq, Nat.mod_eq_of_lt (hde.trans he), Nat.mod_eq_of_lt he] at h2
  omega

section

variable {α : Type*}

/-- The contents of the `l` slots from `s` on. -/
def ringList (f : ℕ → α) (n s l : ℕ) : List α := (List.range l).map fun d => f ((s + d) % n)

@[simp] theorem length_ringList (f : ℕ → α) (n s l : ℕ) : (ringList f n s l).length = l := by
  simp [ringList]

/-- Writing the slot after the last one appends to the list. -/
theorem ringList_push (f : ℕ → α) {n s l : ℕ} (h : l < n) (x : α) :
    ringList (Function.update f ((s + l) % n) x) n s (l + 1) = ringList f n s l ++ [x] := by
  rw [ringList, ringList, List.range_succ, List.map_append]
  congr 1
  · refine List.map_congr_left fun d hd => ?_
    rw [Function.update_of_ne (ring_inj (List.mem_range.mp hd) h)]
  · simp

/-- The first slot is the head of the list, and the rest starts one slot on. -/
theorem ringList_pop (f : ℕ → α) (n s l : ℕ) :
    ringList f n s (l + 1) = f (s % n) :: ringList f n ((s + 1) % n) l := by
  rw [ringList, ringList, List.range_succ_eq_map, List.map_cons, List.map_map]
  congr 1
  refine List.map_congr_left fun d _ => ?_
  rw [ring_succ]
  rfl

end

end AghOs
