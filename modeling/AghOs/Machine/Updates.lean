import Mathlib.Data.List.Basic
import Mathlib.Tactic.Common

/-!
# Updates one after another

A state after a list of updates, seen through `get`.

* `foldl_last`: if an update either sets what `get` sees or leaves it, the last one
  that sets it counts.
* `Local.foldl_congr`: if only the updates with `p` change what `get` sees, two lists
  with the same updates with `p` in the same order do the same to it.
-/

namespace AghOs

variable {σ α β : Type*} {step : σ → α → σ} {get : σ → β}

/-- The last write wins. -/
theorem foldl_last (step : σ → α → σ) (get : σ → β) {val : α → Option β}
    (h : ∀ s a, get (step s a) = (val a).getD (get s)) (xs : List α) (s : σ) :
    get (xs.foldl step s) = (xs.filterMap val).getLast?.getD (get s) := by
  induction xs generalizing s with
  | nil => rfl
  | cons a xs ih =>
    rw [List.foldl_cons, ih, h]
    cases hv : val a with
    | none => rw [List.filterMap_cons_none hv, Option.getD_none]
    | some b =>
      rw [List.filterMap_cons_some hv, List.getLast?_cons, Option.getD_some, Option.getD_some]

/-- What `get` sees is changed by the updates with `p` only, and what they make of it
    depends on nothing else. -/
structure Local (step : σ → α → σ) (get : σ → β) (p : α → Bool) : Prop where
  frame : ∀ s a, p a = false → get (step s a) = get s
  own : ∀ s s' a, p a = true → get s = get s' → get (step s a) = get (step s' a)

namespace Local

variable {p : α → Bool}

/-- Updates that set or leave what `get` sees. -/
theorem of_last {val : α → Option β} (h : ∀ s a, get (step s a) = (val a).getD (get s))
    (hp : ∀ a, p a = false → val a = none) : Local step get p where
  frame s a ha := by rw [h, hp a ha, Option.getD_none]
  own s s' a _ hs := by rw [h, h, hs]

theorem foldl_filter (h : Local step get p) (xs : List α) {s s' : σ} (hs : get s = get s') :
    get (xs.foldl step s) = get ((xs.filter p).foldl step s') := by
  induction xs generalizing s s' with
  | nil => exact hs
  | cons a xs ih =>
    cases hp : p a with
    | false =>
      rw [List.filter_cons_of_neg (by simp [hp])]
      exact ih ((h.frame s a hp).trans hs)
    | true =>
      rw [List.filter_cons_of_pos hp]
      exact ih (h.own s s' a hp hs)

theorem foldl_congr (h : Local step get p) {xs ys : List α} (hxy : xs.filter p = ys.filter p)
    (s : σ) : get (xs.foldl step s) = get (ys.foldl step s) := by
  rw [h.foldl_filter xs rfl, hxy, ← h.foldl_filter ys rfl]

end Local

end AghOs
