import AghOs.Barber.Closing

/-!
# The semaphore sets of the System V build

In the System V build `new_seat` creates a semaphore set for every seat, in the waiting
room as well as for the chair, and `delete_seat` removes it. With no more clients than
seats no set gets lost: in every state the sets in the system are those there were when
the shop opened and those of clients that will still remove them (`sets_returned`).
-/

namespace AghOs.Barber

variable {ι : Type*} {cap : ℕ}

/-! ## One step -/

section

variable [DecidableEq ι]

/-- A client's step leaves every set as it is but those the client has, and a set that
    the client has no more is removed. -/
theorem clientStep_sets {i : ι} {id : ℕ} {m m' : Shared ι} {c c' : Client}
    (h : clientStep .sysv cap i id m c = some (m', c')) (hs : c.pc.SeatOk .sysv m i) (k : ℕ) :
    (c.pc.Owns m.bs k → c'.pc.Owns m'.bs k ∨ m'.sems k = none) ∧
      (m'.sems k = m.sems k ∨ c.pc.Owns m.bs k ∨ c'.pc.Owns m'.bs k) := by
  obtain ⟨pc, haircuts, completed⟩ := c
  cases pc with
  | newSeat my =>
    simp only [clientStep] at h
    split at h
    · cases h
    rename_i w sems hw
    cases h
    obtain ⟨hb, -⟩ | ⟨-, -, rfl⟩ := newSeatSem_cases hw
    · cases hb
    · refine ⟨False.elim, ?_⟩
      by_cases hk : k = w
      · exact .inr (.inr hk)
      · exact .inl (Function.update_of_ne hk _ _)
  | newChair my =>
    simp only [clientStep] at h
    split at h
    · cases h
    rename_i w sems hw
    cases h
    obtain ⟨hb, -⟩ | ⟨-, -, rfl⟩ := newSeatSem_cases hw
    · cases hb
    · have hsit : k = w → (ClientPc.sit my w).Owns m.bs k := fun hk => by
        cases my with
        | none => exact hk
        | some my => exact .inl hk
      refine ⟨fun ho => .inl ?_, ?_⟩
      · cases my with
        | none => exact ho.elim
        | some my => exact .inr ho
      · by_cases hk : k = w
        · exact .inr (.inr (hsit hk))
        · exact .inl (Function.update_of_ne hk _ _)
  | writeSeat my w =>
    cases h
    refine ⟨fun ho => .inl ?_, .inl rfl⟩
    simpa [ClientPc.Owns] using ho
  | waitSeat my sem =>
    obtain ⟨-, rfl, -, htok⟩ := hs
    simp only [clientStep, show m.semValue (convTp .sysv m.bs my) = some (m.call i) from htok] at h
    split at h
    · simp_all
    · cases h
    · cases h
      refine ⟨.inl, ?_⟩
      by_cases hk : k = (m.bs.waitingRoom my).waiting
      · exact .inr (.inl hk)
      · exact .inl (Function.update_of_ne hk _ _)
  | sit my w =>
    cases my with
    | none =>
      cases h
      exact ⟨.inl, .inl rfl⟩
    | some my =>
      cases h
      exact ⟨fun ho => .inl ho.symm, .inl rfl⟩
  | removeSeat w =>
    cases h
    by_cases hk : k = w
    · subst hk
      exact ⟨fun _ => .inr (Function.update_self _ _ _), .inr (.inl (.inl rfl))⟩
    · exact ⟨fun ho => .inl (ho.resolve_left hk), .inl (Function.update_of_ne hk _ _)⟩
  | removeChair w =>
    cases h
    by_cases hk : k = w
    · subst hk
      exact ⟨fun _ => .inr (Function.update_self _ _ _), .inr (.inl rfl)⟩
    · exact ⟨fun ho => absurd ho hk, .inl (Function.update_of_ne hk _ _)⟩
  | _ =>
    simp only [clientStep] at h
    repeat' split at h
    all_goals cases h
    all_goals exact ⟨.inl, .inl rfl⟩

variable [Fintype ι]

/-- The sets in the system are those there were when the shop opened, and those that
    the clients have created since and will still remove. -/
structure Shop.SetsInv (s₀ s : Shop ι) : Prop where
  others : ∀ id, (∀ i, ¬(s.client i).pc.Owns s.mem.bs id) → s.mem.sems id = s₀.mem.sems id
  created : ∀ i id, (s.client i).pc.Owns s.mem.bs id → s₀.mem.sems id = none

theorem Shop.SetsInv.barber_step {s₀ s : Shop ι} {m' : Shared ι} {bar' : BarberState}
    (h : s₀.SetsInv s) (hI : s.SeatInv .sysv cap)
    (hst : barberStep .sysv cap s.mem s.barber = some (m', bar')) :
    s₀.SetsInv { s with mem := m', barber := bar' } := by
  have hch := barberStep_barberChair hst
  obtain ⟨-, hr, hs, hi, -⟩ | ⟨next, sem, hpc, rfl, -⟩ :=
    barberStep_seats hst fun _ _ => hI.postWaiting
  · have hown : ∀ j id, (s.client j).pc.Owns m'.bs id ↔ (s.client j).pc.Owns s.mem.bs id :=
      fun j => ((hI.seats j).frame (fun k _ => by rw [hr]) (fun _ id _ => by rw [hs])
        (fun _ => hch) (Shared.call_congr hi j)).2 rfl
    exact ⟨fun id hid => by simp only [hs]; exact h.others id fun j => (hown j id).not.mp (hid j),
      fun j id ho => h.created j id ((hown j id).mp ho)⟩
  · -- the set that is posted belongs to the client that waits in the seat
    obtain ⟨i, hw, -⟩ := hI.queued next (.inr (by rw [hpc]; rfl))
    have hnone := hI.choosing (by rw [hpc]; rfl)
    have hown := fun j => (hI.posted hw hnone j).2 rfl
    refine ⟨fun id hid => ?_, fun j id ho => h.created j id ((hown j id).mp ho)⟩
    refine (Function.update_of_ne ?_ _ _).trans (h.others id fun j => (hown j id).not.mp (hid j))
    rintro rfl
    refine hid i ((hown i _).mpr ?_)
    cases hp : (s.client i).pc <;> simp_all [ClientPc.Waits, ClientPc.Owns]

theorem Shop.SetsInv.client_step {s₀ s : Shop ι} {i : ι} {id : ℕ} {m' : Shared ι} {c' : Client}
    (h : s₀.SetsInv s) (hI : s.SeatInv .sysv cap) (hfresh : FreshSeat .sysv s (.client i id))
    (hst : clientStep .sysv cap i id s.mem (s.client i) = some (m', c')) :
    s₀.SetsInv { s with mem := m', client := Function.update s.client i c' } := by
  have hown := fun j (hji : j ≠ i) => (hI.others hfresh hst hji).2 rfl
  have hnew := (clientStep_seatOk hst (hI.seats i) fun _ _ => hI.call_writeSeat).2 rfl
  refine ⟨fun k hk => ?_, fun j k ho => ?_⟩
  · obtain ⟨hdrop, hkeep⟩ := clientStep_sets hst (hI.seats i) k
    have hi := hk i
    simp only [Function.update_self] at hi
    by_cases ho : (s.client i).pc.Owns s.mem.bs k
    · exact ((hdrop ho).resolve_left hi).trans (h.created i k ho).symm
    · refine ((hkeep.resolve_right (not_or.mpr ⟨ho, hi⟩))).trans (h.others k fun j => ?_)
      by_cases hji : j = i
      · rwa [hji]
      · have hj := hk j
        simp only [Function.update_of_ne hji] at hj
        exact (hown j hji k).not.mp hj
  · by_cases hji : j = i
    · subst hji
      simp only [Function.update_self] at ho
      obtain ho | hn := hnew k ho
      · exact h.created j k ho
      · by_cases hex : ∃ j, (s.client j).pc.Owns s.mem.bs k
        · obtain ⟨j', hj'⟩ := hex
          exact h.created j' k hj'
        · rw [← h.others k (not_exists.mp hex)]
          exact hn
    · simp only [Function.update_of_ne hji] at ho
      exact h.created j k ((hown j hji k).mp ho)

/-! ## A whole run -/

/-- With no more clients than seats, a run leaves every set as it was at the opening,
    but for the new ones, each of which is still one client's to remove. When all
    clients have exited, none is left. -/
theorem sets_returned (hroom : Fintype.card ι ≤ cap) {s₀ s : Shop ι} (hinit : s₀.Init)
    {ls : List (Label ι)} (hr : (shop .sysv cap).run ls s₀ = some s) :
    (∀ id, s.mem.sems id = s₀.mem.sems id ∨
      s₀.mem.sems id = none ∧ ∃! i, (s.client i).pc.Owns s.mem.bs id) ∧
    ((∀ i, (s.client i).pc = .exited) → s.mem.sems = s₀.mem.sems) := by
  obtain ⟨hroom', hsets⟩ : s.RoomInv .sysv cap ∧ s₀.SetsInv s := by
    refine Machine.run_invariant (I := fun s => s.RoomInv .sysv cap ∧ s₀.SetsInv s)
      (fun s l s' hI hn => ⟨hI.1.step hroom hn, ?_⟩) ⟨hinit.roomInv, fun _ _ => rfl, ?_⟩ hr
    · have hfresh := hI.1.freshSeat hroom l
      obtain ⟨m', bar', -, hst, rfl⟩ | ⟨i, id, m', c', rfl, hst, rfl⟩ := shop_next_cases hn
      · exact hI.2.barber_step hI.1.seats hst
      · exact hI.2.client_step hI.1.seats hfresh hst
    · intro i id ho
      rw [hinit.pc i] at ho
      exact ho.elim
  refine ⟨fun id => ?_, fun hex => funext fun id => hsets.others id fun i ho => ?_⟩
  · by_cases hown : ∃ i, (s.client i).pc.Owns s.mem.bs id
    · obtain ⟨i, hi⟩ := hown
      exact .inr ⟨hsets.created i id hi, i, hi, fun j hj => hroom'.seats.ownOne rfl j i id hj hi⟩
    · exact .inl (hsets.others id (not_exists.mp hown))
  · rw [hex i] at ho
    exact ho

end

/-- A client takes a seat and a set for it. -/
theorem sets_returned_one : ∃ s : Shop (Fin 1),
    s.mem.sems 7 = some 0 ∧ ∃! i, (s.client i).pc.Owns s.mem.bs 7 := by
  obtain ⟨s, hs⟩ : ∃ s, (shop .sysv 1).run (List.replicate 12 (.client 0 7))
      (openShop fun _ : Fin 1 => 1) = some s := ⟨_, rfl⟩
  have hsem : s.mem.sems 7 = some 0 := by
    cases hs
    rfl
  have h := (sets_returned (by simp : Fintype.card (Fin 1) ≤ 1) (openShop_init fun _ => 1) hs).1 7
  refine ⟨s, hsem, (h.resolve_left ?_).2⟩
  rw [hsem]
  simp [openShop]

end AghOs.Barber
