import Mathlib.Data.List.Basic
import Mathlib.Logic.Function.Basic

/-!
# A heap

Objects of a type `ω` at addresses. An allocator answers a request with an
address that is free at that moment, or not at all; which one, and when, is left
open. `free` of an address where nothing is allocated is undefined (`none`).

* `alloc_cases`: what an allocation does.
* `free_of_some`: what `free` does.
-/

namespace AghOs

/-- The objects that are allocated. -/
abbrev Heap (ω : Type*) := ℕ → Option ω

/-- What `malloc` and its like answer to a request of a size. -/
structure Allocator (ω : Type*) where
  answer : Heap ω → ℕ → Option ℕ
  unused : ∀ {h n p}, answer h n = some p → h p = none

/-- The allocator that answers with the first free address below `n`. -/
def Allocator.firstFree (ω : Type*) (n : ℕ) : Allocator ω where
  answer h _ := (List.range n).find? fun p => (h p).isNone
  unused {h _ p} hp := by
    have hnone := List.find?_some (p := fun p => (h p).isNone) hp
    exact Option.isNone_iff_eq_none.mp hnone

namespace Heap

variable {ω : Type*} {h h' : Heap ω} {p q : ℕ} {o : ω}

/-- Allocate `o`; the pointer is `none` if that fails. -/
def alloc (A : Allocator ω) (h : Heap ω) (size : ℕ) (o : ω) : Heap ω × Option ℕ :=
  match A.answer h size with
  | none => (h, none)
  | some p => (Function.update h p (some o), some p)

def free (h : Heap ω) (p : ℕ) : Option (Heap ω) :=
  if h p = none then none else some (Function.update h p none)

theorem alloc_cases (A : Allocator ω) (h : Heap ω) (size : ℕ) (o : ω) :
    h.alloc A size o = (h, none) ∨
      ∃ p, h p = none ∧ h.alloc A size o = (Function.update h p (some o), some p) := by
  unfold alloc
  cases hp : A.answer h size with
  | none => exact .inl rfl
  | some p => exact .inr ⟨p, A.unused hp, rfl⟩

theorem free_of_some (hp : h p = some o) : h.free p = some (Function.update h p none) :=
  if_neg (by rw [hp]; exact Option.some_ne_none o)

end Heap

end AghOs
