import AghOs.Machine.Threads
import Mathlib.Algebra.BigOperators.Group.Multiset.Basic

/-!
# Carriers

Threads that take items off a sequence one after another and put them out some time
later, each in the order in which it took them. `Carry` is one step of such a system,
as it changes what has been taken and what each thread holds.

* `Carry.balance`: nothing gets lost and nothing is put out twice.
* `Carry.order`: a single carrier puts the items out in order.
-/

namespace AghOs

variable {ι α : Type*} [DecidableEq ι]

/-- A step in which what has been taken and what each thread holds changes and `put` is
    put out: nothing happens, an idle thread takes some items, or a thread puts out
    what it holds. -/
inductive Carry (taken : List α) (held : ι → List α) (taken' : List α) (held' : ι → List α)
    (put : List α) : Prop
  | idle : taken' = taken → held' = held → put = [] → Carry taken held taken' held' put
  | take (j : ι) (xs : List α) : held j = [] → taken' = taken ++ xs →
      held' = Function.update held j xs → put = [] → Carry taken held taken' held' put
  | give (j : ι) : taken' = taken → held' = Function.update held j [] → put = held j →
      Carry taken held taken' held' put

variable {taken taken' out put : List α} {held held' : ι → List α}

/-- What has been put out and what is held is what has been taken. -/
theorem Carry.balance [Fintype ι] (h : Carry taken held taken' held' put)
    (hbal : (out : Multiset α) + ∑ j, (held j : Multiset α) = taken) :
    ((out ++ put : List α) : Multiset α) + ∑ j, (held' j : Multiset α) = taken' := by
  cases h with
  | idle ht hh hp =>
    subst ht hh hp
    rwa [List.append_nil]
  | take j xs h0 ht hh hp =>
    subst ht hh hp
    have hsum := sum_update (fun _ : ι => ((↑) : List α → Multiset α)) held j xs
    rw [h0, Multiset.coe_nil, add_zero] at hsum
    rw [List.append_nil, hsum, ← add_assoc, hbal, Multiset.coe_add]
  | give j ht hh hp =>
    subst ht hh hp
    have hsum := sum_update (fun _ : ι => ((↑) : List α → Multiset α)) held j []
    rw [Multiset.coe_nil, add_zero] at hsum
    rw [← Multiset.coe_add, add_assoc, add_comm (held j : Multiset α), hsum, hbal]

/-- A single carrier puts out in the order in which it takes. -/
theorem Carry.order [Unique ι] (h : Carry taken held taken' held' put)
    (hord : out ++ held default = taken) : (out ++ put) ++ held' default = taken' := by
  cases h with
  | idle ht hh hp =>
    subst ht hh hp
    rwa [List.append_nil]
  | take j xs h0 ht hh hp =>
    subst ht hh hp
    obtain rfl : j = default := Subsingleton.elim _ _
    rw [h0, List.append_nil] at hord
    rw [List.append_nil, Function.update_self, hord]
  | give j ht hh hp =>
    subst ht hh hp
    obtain rfl : j = default := Subsingleton.elim _ _
    rwa [Function.update_self, List.append_nil]

end AghOs
