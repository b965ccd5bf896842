import Mathlib.Algebra.Order.Ring.Nat
import Mathlib.Data.List.FinRange
import Mathlib.Data.List.TakeWhile
import Mathlib.Logic.Function.Basic
import Mathlib.Tactic.Common

/-!
# The table of clients

`server_cllist.c`, stream build: the array `clients`, which `clients_mx`
protects, and the loops over it.

* `isNameTaken_iff`, `clientFreeid_some`: what the loops find.
* `Fits`: every name ends inside its `cl_name`.
* `Distinct`: the names of the active slots are pairwise distinct; what
  keeps it (`Distinct.mono`, `Distinct.occupy`) and what breaks it
  (`not_distinct_occupy`).
-/

namespace AghOs.Calc

def confInactivityMax : ℕ := 3
def confClientsMax : ℕ := 16
def confClientNameMax : ℕ := 256

abbrev Slot := Fin confClientsMax

instance : NeZero confClientsMax := ⟨by decide⟩

/-- `struct client_t`, less `addr`. `name` is the C string in `cl_name`. -/
structure Client where
  active : Bool
  sock : ℕ
  name : List UInt8
  inactivity : ℕ

/-- `struct client_t clients[CONF_CLIENTS_MAX]` -/
abbrev Clients := Slot → Client

/-- The C string at the start of `bs`. -/
def cstring (bs : List UInt8) : List UInt8 := bs.takeWhile (· ≠ 0)

/-- It ends at the first zero, or with `bs`. -/
theorem cstring_length_le : ∀ {bs : List UInt8} {k : ℕ}, (∀ c ∈ bs[k]?, c = 0) →
    (cstring bs).length ≤ k
  | [], _, _ => Nat.zero_le _
  | c :: bs, 0, h => by simp [cstring, h c rfl]
  | c :: bs, k + 1, h => by
    have ih : (cstring bs).length ≤ k := cstring_length_le fun c' hc' => h c' (by simpa using hc')
    unfold cstring at ih ⊢
    rw [List.takeWhile_cons]
    split
    · simpa using ih
    · simp

theorem cstring_zero_notMem (bs : List UInt8) : 0 ∉ cstring bs := fun h => by
  simpa using List.mem_takeWhile_imp h

/-- A C string that ends before `bs` does ends at a zero. -/
theorem cstring_append : ∀ {bs : List UInt8}, (cstring bs).length < bs.length →
    ∃ rest, bs = cstring bs ++ 0 :: rest
  | [], h => absurd h (Nat.lt_irrefl 0)
  | c :: bs, h => by
    by_cases hc : c = 0
    · exact ⟨bs, by simp [cstring, hc]⟩
    · have hcons : cstring (c :: bs) = c :: cstring bs := by simp [cstring, hc]
      rw [hcons] at h ⊢
      obtain ⟨rest, hrest⟩ := cstring_append (Nat.lt_of_succ_lt_succ h)
      exact ⟨rest, by rw [List.cons_append, ← hrest]⟩

namespace Clients

/-- `client_freeid`; `none` is `-1`. -/
def clientFreeid (cl : Clients) : Option Slot :=
  (List.finRange confClientsMax).find? fun i => !(cl i).active

/-- `client_for_sock`; `none` is `-1`. -/
def clientForSock (cl : Clients) (sock : ℕ) : Option Slot :=
  (List.finRange confClientsMax).find? fun i => (cl i).active && (cl i).sock == sock

/-- `is_name_taken` -/
def isNameTaken (cl : Clients) (name : List UInt8) : Bool :=
  (List.finRange confClientsMax).any fun i => (cl i).active && (cl i).name == name

/-- `next_free_client` from `free_cl`: the next active slot and the new
    `free_cl`. -/
def nextFreeClient (cl : Clients) (freeCl : ℕ) : Option (Slot × ℕ) :=
  let slot (k : ℕ) : Slot := ⟨k % confClientsMax, Nat.mod_lt _ (by decide)⟩
  (((List.range confClientsMax).map (freeCl + ·)).find? fun k => (cl (slot k)).active).map
    fun k => (slot k, k % confClientsMax + 1)

/-- What `register_client` writes into a free slot. Its `strcpy` stays inside `cl_name`
    as long as `name` is shorter than `CONF_CLIENT_NAME_MAX`. -/
def occupy (cl : Clients) (id : Slot) (sock : ℕ) (name : List UInt8) : Clients :=
  Function.update cl id ⟨true, sock, name, 0⟩

/-- `clients[id].cl_active = 0` -/
def deactivate (cl : Clients) (id : Slot) : Clients :=
  Function.update cl id { cl id with active := false }

/-- `clients[id].cl_inactivity = v` -/
def setInactivity (cl : Clients) (id : Slot) (v : ℕ) : Clients :=
  Function.update cl id { cl id with inactivity := v }

variable {cl : Clients}

theorem isNameTaken_iff {name : List UInt8} :
    cl.isNameTaken name = true ↔ ∃ i, (cl i).active = true ∧ (cl i).name = name := by
  simp [isNameTaken]

theorem clientFreeid_some {id : Slot} (h : cl.clientFreeid = some id) : (cl id).active = false := by
  simpa using List.find?_some h

theorem clientForSock_some {sock : ℕ} {id : Slot} (h : cl.clientForSock sock = some id) :
    (cl id).active = true ∧ (cl id).sock = sock := by
  simpa using List.find?_some h

section

variable {i id : Slot} {sock : ℕ} {name : List UInt8}

@[simp] theorem occupy_self : cl.occupy id sock name id = ⟨true, sock, name, 0⟩ :=
  Function.update_self ..

theorem occupy_of_ne (h : i ≠ id) : cl.occupy id sock name i = cl i := Function.update_of_ne h ..

theorem deactivate_self : (cl.deactivate id id).active = false := by simp [deactivate]

theorem deactivate_of_ne (h : i ≠ id) : cl.deactivate id i = cl i := Function.update_of_ne h ..

theorem setInactivity_of_ne {v : ℕ} (h : i ≠ id) : cl.setInactivity id v i = cl i :=
  Function.update_of_ne h ..

end

/-- Every `cl_name` is a string. -/
def Fits (cl : Clients) : Prop := ∀ i, (cl i).name.length < confClientNameMax

theorem Fits.of_name {cl' : Clients} (h : cl.Fits) (hname : ∀ i, (cl' i).name = (cl i).name) :
    cl'.Fits := by
  intro i
  rw [hname i]
  exact h i

theorem Fits.deactivate (h : cl.Fits) (id : Slot) : (cl.deactivate id).Fits := by
  refine h.of_name fun i => ?_
  by_cases hi : i = id
  · rw [hi, Clients.deactivate, Function.update_self]
  · rw [deactivate_of_ne hi]

theorem Fits.setInactivity (h : cl.Fits) (id : Slot) (v : ℕ) : (cl.setInactivity id v).Fits := by
  refine h.of_name fun i => ?_
  by_cases hi : i = id
  · rw [hi, Clients.setInactivity, Function.update_self]
  · rw [setInactivity_of_ne hi]

theorem Fits.occupy {id : Slot} {sock : ℕ} {name : List UInt8} (h : cl.Fits)
    (hname : name.length < confClientNameMax) : (cl.occupy id sock name).Fits := by
  intro i
  by_cases hi : i = id
  · rw [hi, occupy_self]
    exact hname
  · rw [occupy_of_ne hi]
    exact h i

/-! ## Distinct names -/

/-- The names of the active slots are pairwise distinct. -/
def Distinct (cl : Clients) : Prop :=
  ∀ i j, (cl i).active = true → (cl j).active = true → (cl i).name = (cl j).name → i = j

/-- Every active slot of `cl'` is active in `cl`, with the same name. -/
def Shrinks (cl cl' : Clients) : Prop :=
  ∀ i, (cl' i).active = true → (cl i).active = true ∧ (cl' i).name = (cl i).name

theorem Shrinks.refl (cl : Clients) : cl.Shrinks cl := fun _ h => ⟨h, rfl⟩

theorem shrinks_deactivate (cl : Clients) (id : Slot) : cl.Shrinks (cl.deactivate id) := by
  intro i hi
  by_cases h : i = id
  · subst h
    rw [deactivate_self] at hi
    cases hi
  · rw [deactivate_of_ne h] at hi ⊢
    exact ⟨hi, rfl⟩

theorem shrinks_setInactivity (cl : Clients) (id : Slot) (v : ℕ) :
    cl.Shrinks (cl.setInactivity id v) := by
  intro i hi
  by_cases h : i = id
  · subst h
    simpa [setInactivity] using hi
  · rw [setInactivity_of_ne h] at hi ⊢
    exact ⟨hi, rfl⟩

theorem Distinct.mono {cl' : Clients} (h : cl.Distinct) (hs : cl.Shrinks cl') : cl'.Distinct := by
  intro i j hi hj hij
  obtain ⟨hi, hin⟩ := hs i hi
  obtain ⟨hj, hjn⟩ := hs j hj
  exact h i j hi hj (by rw [← hin, ← hjn, hij])

/-- What tells the active slots apart still does when a slot is occupied by
    something new. -/
theorem occupy_apart {α : Type*} (f : Client → α) {id : Slot} {sock : ℕ} {name : List UInt8}
    (h : ∀ i j, (cl i).active = true → (cl j).active = true → f (cl i) = f (cl j) → i = j)
    (hnew : ∀ k, (cl k).active = true → f (cl k) ≠ f ⟨true, sock, name, 0⟩) (i j : Slot)
    (hi : (cl.occupy id sock name i).active = true)
    (hj : (cl.occupy id sock name j).active = true)
    (hij : f (cl.occupy id sock name i) = f (cl.occupy id sock name j)) : i = j := by
  by_cases hii : i = id <;> by_cases hjj : j = id
  · rw [hii, hjj]
  · subst hii
    rw [occupy_of_ne hjj] at hj hij
    rw [occupy_self] at hij
    exact absurd hij.symm (hnew j hj)
  · subst hjj
    rw [occupy_of_ne hii] at hi hij
    rw [occupy_self] at hij
    exact absurd hij (hnew i hi)
  · rw [occupy_of_ne hii] at hi hij
    rw [occupy_of_ne hjj] at hj hij
    exact h i j hi hj hij

/-- A slot is occupied under a name that no active slot has. -/
theorem Distinct.occupy {id : Slot} {sock : ℕ} {name : List UInt8} (h : cl.Distinct)
    (hname : cl.isNameTaken name = false) : (cl.occupy id sock name).Distinct := by
  apply occupy_apart Client.name h
  intro k hk hn
  rw [isNameTaken_iff.mpr ⟨k, hk, hn⟩] at hname
  cases hname

/-- A slot is occupied under a name that an active slot has. -/
theorem not_distinct_occupy {id : Slot} {sock : ℕ} {name : List UInt8}
    (hid : cl.clientFreeid = some id) (hname : cl.isNameTaken name = true) :
    ¬(cl.occupy id sock name).Distinct := by
  intro h
  obtain ⟨i, hi, hn⟩ := isNameTaken_iff.mp hname
  have hne : i ≠ id := fun he => by
    rw [he, clientFreeid_some hid] at hi
    cases hi
  refine hne (h i id ?_ ?_ ?_)
  · rwa [occupy_of_ne hne]
  · rw [occupy_self]
  · rw [occupy_of_ne hne, hn, occupy_self]

end Clients

end AghOs.Calc
