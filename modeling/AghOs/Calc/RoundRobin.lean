import AghOs.Calc.Clients
import AghOs.Machine.Ring

/-!
# Choosing a client

`next_free_client` (`src/cw10/zad1/src/server_cllist.c`, lines 166–188), for a
table of any size `N`, between the steps that change which slots are active:
`register_client`, `unregister_client` and the time-outs of `thread_pinger`.
Each takes `clients_mx` and is one step.

The cursor `free_cl` runs over `0`, and after the first success over `1..N`.

* `nextFreeClient_slots`: the table of `CONF_CLIENTS_MAX` slots is a case of it.
* `round_robin`: a call returns `-1` exactly when no slot is active, and does not
  return a slot again before every other slot that stays active.
-/

namespace AghOs.Calc.RoundRobin

/-- `cl_active` of every slot, and `free_cl`. -/
structure Table (N : ℕ) where
  active : Fin N → Bool
  freeCl : ℕ

/-- What changes the table. -/
inductive Event (N : ℕ)
  /-- `next_free_client` -/
  | call
  /-- `register_client`, once the name is known not to be taken -/
  | register
  /-- `unregister_client`; `none` is `-1` -/
  | unregister (id : Option (Fin N))
  /-- `thread_pinger` finds slot `i` inactive for too long -/
  | timeOut (i : Fin N)

namespace Table

variable {N : ℕ} [NeZero N]

/-- `next_free_client`: what it returns (`none` is `-1`) and the table after it. -/
def nextFreeClient (t : Table N) : Option (Fin N) × Table N :=
  match ((List.range N).map (t.freeCl + ·)).find? fun k => t.active (Fin.ofNat N k) with
  | none => (none, t)
  | some k => (some (Fin.ofNat N k), { t with freeCl := k % N + 1 })

/-- `client_freeid`; `none` is `-1`. -/
def clientFreeid (t : Table N) : Option (Fin N) := (List.finRange N).find? fun i => !t.active i

/-- `clients[i].cl_active = b` -/
def setActive (t : Table N) (i : Fin N) (b : Bool) : Table N :=
  { t with active := Function.update t.active i b }

def step (t : Table N) : Event N → Table N
  | .call => t.nextFreeClient.2
  | .register =>
    match t.clientFreeid with
    | none => t
    | some i => t.setActive i true
  | .unregister none => t
  | .unregister (some i) => t.setActive i false
  | .timeOut i => t.setActive i false

def run (t : Table N) (es : List (Event N)) : Table N := es.foldl step t

/-- The slots that the calls of a history return. -/
def returned (t : Table N) : List (Event N) → List (Fin N)
  | [] => []
  | .call :: es => t.nextFreeClient.1.toList ++ returned (t.step .call) es
  | e :: es => returned (t.step e) es

/-- Slot `j` is active before, after and between the events of a history. -/
def Throughout (j : Fin N) (t : Table N) : List (Event N) → Prop
  | [] => t.active j = true
  | e :: es => t.active j = true ∧ Throughout j (t.step e) es

/-! ## One call -/

variable {t : Table N} {i j : Fin N}

/-- The loop stops at the first active slot, `d` slots behind the cursor. -/
theorem nextFreeClient_some (h : t.nextFreeClient.1 = some i) :
    ∃ d < N, Fin.ofNat N (t.freeCl + d) = i ∧ t.active i = true ∧
      (∀ e < d, t.active (Fin.ofNat N (t.freeCl + e)) = false) ∧
      t.nextFreeClient.2 = ⟨t.active, (t.freeCl + d) % N + 1⟩ := by
  unfold nextFreeClient at h ⊢
  rw [List.find?_map] at h ⊢
  cases hf : (List.range N).find? ((fun k => t.active (Fin.ofNat N k)) ∘ (t.freeCl + ·)) with
  | none => rw [hf] at h; cases h
  | some d =>
    rw [hf] at h
    obtain ⟨hd, hmem, hfirst⟩ := List.find?_range_eq_some.mp hf
    obtain rfl := Option.some.inj h
    exact ⟨d, List.mem_range.mp hmem, rfl, hd, fun e he => by simpa using hfirst e he, rfl⟩

/-- Some `d < N` slots behind the cursor is every slot. -/
theorem exists_offset (c : ℕ) (i : Fin N) : ∃ d < N, Fin.ofNat N (c + d) = i := by
  have hN : 0 < N := Nat.pos_of_neZero N
  have hc := Nat.mod_lt c hN
  refine ⟨(i.val + (N - c % N)) % N, Nat.mod_lt _ hN, Fin.ext ?_⟩
  show (c + (i.val + (N - c % N)) % N) % N = i.val
  rw [Nat.add_mod_mod, ← Nat.mod_add_mod, show c % N + (i.val + (N - c % N)) = i.val + N by omega,
    Nat.add_mod_right, Nat.mod_eq_of_lt i.isLt]

theorem nextFreeClient_none_iff :
    t.nextFreeClient.1 = none ↔ ∀ i, t.active i = false := by
  unfold nextFreeClient
  rw [List.find?_map]
  cases hf : (List.range N).find? ((fun k => t.active (Fin.ofNat N k)) ∘ (t.freeCl + ·)) with
  | none =>
    refine iff_of_true rfl fun i => ?_
    obtain ⟨d, hd, rfl⟩ := exists_offset t.freeCl i
    simpa using List.find?_range_eq_none.mp hf d hd
  | some d =>
    obtain ⟨hd, -, -⟩ := List.find?_range_eq_some.mp hf
    refine iff_of_false (fun h => by cases h) fun hall => ?_
    rw [Function.comp_apply, hall] at hd
    cases hd

/-! ## From one call to the next -/

/-- From the cursor on, `j` comes before `i`. -/
def Before (t : Table N) (j i : Fin N) : Prop :=
  ∃ a b, a < b ∧ b < N ∧ Fin.ofNat N (t.freeCl + a) = j ∧ Fin.ofNat N (t.freeCl + b) = i

/-- Behind the slot that was returned, every other slot comes before it. -/
theorem before_of_returned (h : t.nextFreeClient.1 = some i) (hj : j ≠ i) :
    (t.step .call).Before j i := by
  obtain ⟨d, -, rfl, -, -, hnext⟩ := nextFreeClient_some h
  have hN : 0 < N := Nat.pos_of_neZero N
  have hlast : Fin.ofNat N ((t.freeCl + d) % N + 1 + (N - 1)) = Fin.ofNat N (t.freeCl + d) := by
    apply Fin.ext
    show ((t.freeCl + d) % N + 1 + (N - 1)) % N = (t.freeCl + d) % N
    rw [show (t.freeCl + d) % N + 1 + (N - 1) = (t.freeCl + d) % N + N by omega,
      Nat.add_mod_right, Nat.mod_mod]
  obtain ⟨a, ha, haj⟩ := exists_offset ((t.freeCl + d) % N + 1) j
  have hne : a ≠ N - 1 := by
    rintro rfl
    exact hj (haj.symm.trans hlast)
  show (t.nextFreeClient.2).Before j _
  rw [hnext]
  exact ⟨a, N - 1, by omega, by omega, haj, hlast⟩

/-- While `j` comes before `i` and is active, a call returns a slot other than
    `i`, and if it is not `j`, then `j` still comes before `i`. -/
theorem Before.call (h : t.Before j i) (hj : t.active j = true) :
    ∃ k, t.nextFreeClient.1 = some k ∧ k ≠ i ∧ (k ≠ j → (t.step .call).Before j i) := by
  obtain ⟨a, b, hab, hb, rfl, rfl⟩ := h
  cases hk : t.nextFreeClient.1 with
  | none =>
    rw [nextFreeClient_none_iff.mp hk] at hj
    cases hj
  | some k =>
    obtain ⟨d, hd, rfl, -, hfirst, hnext⟩ := nextFreeClient_some hk
    have hda : d ≤ a := by
      by_contra hlt
      rw [hfirst a (by omega)] at hj
      cases hj
    refine ⟨_, rfl, fun he => ?_, fun hne => ?_⟩
    · exact ring_inj (s := t.freeCl) (show d < b by omega) hb (congrArg Fin.val he)
    · have hlt : d < a := by
        refine lt_of_le_of_ne hda ?_
        rintro rfl
        exact hne rfl
      have hmove : ∀ e, d < e → Fin.ofNat N ((t.freeCl + d) % N + 1 + (e - d - 1)) =
          Fin.ofNat N (t.freeCl + e) := by
        intro e he
        apply Fin.ext
        show ((t.freeCl + d) % N + 1 + (e - d - 1)) % N = (t.freeCl + e) % N
        rw [Nat.add_assoc, Nat.mod_add_mod]
        congr 1
        omega
      show (t.nextFreeClient.2).Before _ _
      rw [hnext]
      exact ⟨a - d - 1, b - d - 1, by omega, by omega, hmove a hlt, hmove b (by omega)⟩

/-- The cursor moves in calls only. -/
theorem Before.of_freeCl {t' : Table N} (h : t.Before j i) (hc : t'.freeCl = t.freeCl) :
    t'.Before j i := by
  unfold Before
  rw [hc]
  exact h

theorem step_freeCl {e : Event N} (h : e ≠ .call) : (t.step e).freeCl = t.freeCl := by
  cases e with
  | call => exact absurd rfl h
  | register =>
    simp only [step]
    split <;> rfl
  | unregister id => cases id <;> rfl
  | timeOut i => rfl

/-- `i` is not returned before `j`, which comes before it and stays active. -/
theorem Before.returned {es : List (Event N)} (h : t.Before j i) (hj : Throughout j t es)
    (hi : (t.run es).nextFreeClient.1 = some i) : j ∈ t.returned es := by
  induction es generalizing t with
  | nil =>
    obtain ⟨k, hk, hki, -⟩ := h.call hj
    exact absurd (Option.some.inj (hk.symm.trans hi)) hki
  | cons e es ih =>
    obtain ⟨hj, hes⟩ := hj
    cases e with
    | call =>
      obtain ⟨k, hk, -, hstill⟩ := h.call hj
      show j ∈ t.nextFreeClient.1.toList ++ _
      rw [hk, Option.toList_some, List.singleton_append]
      by_cases hkj : k = j
      · rw [hkj]
        exact List.mem_cons_self
      · exact List.mem_cons_of_mem _ (ih (hstill hkj) hes hi)
    | register => exact ih (h.of_freeCl (step_freeCl nofun)) hes hi
    | unregister id => exact ih (h.of_freeCl (step_freeCl nofun)) hes hi
    | timeOut k => exact ih (h.of_freeCl (step_freeCl nofun)) hes hi

/-- A call returns `-1` exactly when no slot is active and otherwise an active
    slot; and when a later call returns the same slot again, every other slot that
    was active throughout has been returned in between. -/
theorem round_robin (t : Table N) :
    (t.nextFreeClient.1 = none ↔ ∀ i, t.active i = false) ∧
    (∀ i, t.nextFreeClient.1 = some i → t.active i = true) ∧
    ∀ i j es, t.nextFreeClient.1 = some i → j ≠ i → Throughout j t (.call :: es) →
      ((t.step .call).run es).nextFreeClient.1 = some i → j ∈ (t.step .call).returned es := by
  refine ⟨nextFreeClient_none_iff, fun i hi => ?_, fun i j es hi hj hes hagain => ?_⟩
  · obtain ⟨-, -, -, hactive, -, -⟩ := nextFreeClient_some hi
    exact hactive
  · exact (before_of_returned hi hj).returned hes.2 hagain

/-- Slots `0` and `2` of three are active, and slot `1` becomes active. -/
theorem round_robin_three :
    2 ∈ ((⟨fun i => i ≠ 1, 0⟩ : Table 3).step .call).returned [.register, .call, .call] :=
  (round_robin (⟨fun i => i ≠ 1, 0⟩ : Table 3)).2.2 0 2 [.register, .call, .call]
    (by decide) (by decide) ⟨rfl, rfl, rfl, rfl, rfl⟩ (by decide)

/-- The table of the server is a case of it. -/
theorem nextFreeClient_slots (cl : Clients) (freeCl : ℕ) :
    cl.nextFreeClient freeCl =
      let r := (⟨fun i => (cl i).active, freeCl⟩ : Table confClientsMax).nextFreeClient
      r.1.map (·, r.2.freeCl) := by
  unfold Clients.nextFreeClient nextFreeClient
  show Option.map (fun k => (Fin.ofNat confClientsMax k, k % confClientsMax + 1)) _ = _
  cases h : ((List.range confClientsMax).map (freeCl + ·)).find? fun k =>
    (cl (Fin.ofNat confClientsMax k)).active with
  | none => exact congrArg (Option.map _) h
  | some k => exact congrArg (Option.map _) h

end Table

end AghOs.Calc.RoundRobin
