import AghOs.Barber.Refine

/-!
# The seats and their semaphores

What the steps of the clients do to the seats of the waiting room, and which
seats and semaphore sets a client still refers to. In the POSIX build a client
is done with its seat when it has passed its wait; in the System V build
`delete_seat(my_seat)` reads the seat once more, and a client also has the sets
it created.

`Shared.Effect` lists what a client's step may do to the seats;
`ClientPc.SeatOk` is what a client relies on about its own seat, and
`ClientPc.SeatOk.frame` says when it survives the steps of the others.
-/

namespace AghOs.Barber

variable {ι : Type*} {b : Build} {cap : ℕ}

/-! ## What a client refers to -/

/-- The client has written its seat `k` and has not passed its wait. -/
def ClientPc.Waits (k : ℕ) : ClientPc → Prop
  | .postMx my | .convWaiting my | .waitSeat my _ => my = k
  | _ => False

/-- The seat that the client has written and will still access. -/
def ClientPc.uses (b : Build) : ClientPc → Option ℕ
  | .postMx my | .convWaiting my | .waitSeat my _ => some my
  | .newChair my | .sit my _ =>
    match b with
    | .posix => none
    | .sysv => my
  | .deleteSeat my =>
    match b with
    | .posix => none
    | .sysv => some my
  | _ => none

/-- In the System V build, the client has created the set `id` and not yet
    removed it. -/
def ClientPc.Owns (bs : BarberShopMem ι) (id : ℕ) : ClientPc → Prop
  | .writeSeat _ w => id = w
  | .postMx my | .convWaiting my | .waitSeat my _ | .newChair (some my) =>
    id = (bs.waitingRoom my).waiting
  | .sit none w => id = w
  | .sit (some my) w => id = w ∨ id = (bs.waitingRoom my).waiting
  | .deleteSeat my => id = (bs.waitingRoom my).waiting ∨ id = bs.barberChair.waiting
  | .removeSeat w => id = w ∨ id = bs.barberChair.waiting
  | .postCustomer | .waitReady | .deleteChair => id = bs.barberChair.waiting
  | .removeChair w => id = w
  | _ => False

theorem ClientPc.Waits.uses {k : ℕ} {pc : ClientPc} (h : pc.Waits k) : pc.uses b = some k := by
  cases pc <;> first | exact h.elim | exact congrArg some h

theorem ClientPc.Waits.eq {k k' : ℕ} {pc : ClientPc} (h : pc.Waits k) (h' : pc.Waits k') :
    k = k' := by
  cases pc <;> first | exact h.elim | exact h.symm.trans h'

/-- The value of the semaphore of seat `k`. -/
def Shared.token (b : Build) (m : Shared ι) (k : ℕ) : Option ℕ := m.semValue (convTp b m.bs k)

theorem Shared.token_congr {m m' : Shared ι} {k : ℕ}
    (hr : m'.bs.waitingRoom k = m.bs.waitingRoom k)
    (hs : b = .sysv → m'.sems (m.bs.waitingRoom k).waiting = m.sems (m.bs.waitingRoom k).waiting) :
    m'.token b k = m.token b k := by
  cases b with
  | posix => simp [token, convTp, semValue, hr]
  | sysv => simp [token, convTp, semValue, hr, hs]

variable [DecidableEq ι]

/-- `1` if `i` is invited. -/
def Shared.call (m : Shared ι) (i : ι) : ℕ := if m.invited.bind WrSeat.pid = some i then 1 else 0

/-- What client `i` relies on about its seat: the seat holds its process id, its
    semaphore has a token exactly when it is invited, and the sets it has
    created exist and are different. -/
def ClientPc.SeatOk (b : Build) (m : Shared ι) (i : ι) (pc : ClientPc) : Prop :=
  (b = .sysv → ∀ id, pc.Owns m.bs id → m.sems id ≠ none) ∧
  match pc with
  | .writeSeat _ w =>
    match b with
    | .posix => w = 0
    | .sysv => m.sems w = some 0
  | .postMx my | .convWaiting my =>
    (m.bs.waitingRoom my).pid = some i ∧ m.token b my = some (m.call i)
  | .waitSeat my sem =>
    sem = convTp b m.bs my ∧ (m.bs.waitingRoom my).pid = some i ∧
      m.token b my = some (m.call i)
  | .sit (some my) w => b = .sysv → w ≠ (m.bs.waitingRoom my).waiting
  | .deleteSeat my => b = .sysv → (m.bs.waitingRoom my).waiting ≠ m.bs.barberChair.waiting
  | .removeSeat w => b = .sysv → w ≠ m.bs.barberChair.waiting
  | _ => True

theorem ClientPc.SeatOk.waits {m : Shared ι} {i : ι} {pc : ClientPc} {k : ℕ}
    (h : pc.SeatOk b m i) (hw : pc.Waits k) :
    (m.bs.waitingRoom k).pid = some i ∧ m.token b k = some (m.call i) := by
  cases pc with
  | postMx my | convWaiting my => cases hw; exact h.2
  | waitSeat my sem => cases hw; exact h.2.2
  | _ => exact hw.elim

/-- The steps of the others leave what a client relies on, if they leave the
    seat it uses, the sets it has created, the chair while it is its own, and
    whether it is invited. -/
theorem ClientPc.SeatOk.frame {m m' : Shared ι} {j : ι} {pc : ClientPc} (h : pc.SeatOk b m j)
    (hr : ∀ k, pc.uses b = some k → m'.bs.waitingRoom k = m.bs.waitingRoom k)
    (hs : b = .sysv → ∀ id, pc.Owns m.bs id → m'.sems id = m.sems id)
    (hch : pc.OwnsChair → m'.bs.barberChair = m.bs.barberChair) (hcall : m'.call j = m.call j) :
    pc.SeatOk b m' j ∧ (b = .sysv → ∀ id, pc.Owns m'.bs id ↔ pc.Owns m.bs id) := by
  have hown : b = .sysv → ∀ id, pc.Owns m'.bs id ↔ pc.Owns m.bs id := by
    rintro rfl id
    cases pc with
    | postMx my | convWaiting my | waitSeat my _ => simp [Owns, hr my rfl]
    | newChair my | sit my _ =>
      cases my with
      | none => rfl
      | some my => simp [Owns, hr my rfl]
    | deleteSeat my => simp [Owns, hr my rfl, hch trivial]
    | removeSeat _ | postCustomer | waitReady | deleteChair => simp [Owns, hch trivial]
    | _ => rfl
  refine ⟨⟨fun hb id ho => ?_, ?_⟩, hown⟩
  · rw [hs hb id ((hown hb id).mp ho)]
    exact h.1 hb id ((hown hb id).mp ho)
  · have htok : ∀ k, pc.Waits k → (b = .sysv → pc.Owns m.bs (m.bs.waitingRoom k).waiting) →
        m'.token b k = m.token b k := fun k hw ho =>
      Shared.token_congr (hr k hw.uses) fun hb => hs hb _ (ho hb)
    cases pc with
    | writeSeat my w =>
      cases b with
      | posix => exact h.2
      | sysv => exact (hs rfl w rfl).trans h.2
    | postMx my | convWaiting my =>
      simpa only [hr my rfl, htok my rfl fun _ => rfl, hcall] using h.2
    | waitSeat my sem =>
      have hc : convTp b m'.bs my = convTp b m.bs my := by cases b <;> simp [convTp, hr my rfl]
      simpa only [hr my rfl, htok my rfl fun _ => rfl, hcall, hc] using h.2
    | sit my w =>
      cases my with
      | none => trivial
      | some my => rintro rfl; simpa only [hr my rfl] using h.2 rfl
    | deleteSeat my => rintro rfl; simpa only [hr my rfl, hch trivial] using h.2 rfl
    | removeSeat w => exact fun hb => by simpa only [hch trivial] using h.2 hb
    | _ => trivial

/-! ## What a client's step does to the seats -/

/-- What a step of client `i` from `pc` may do to the seats and the sets. -/
inductive Shared.Effect (b : Build) (i : ι) (m m' : Shared ι) (pc : ClientPc) : Prop
  | same : m'.bs.waitingRoom = m.bs.waitingRoom → m'.sems = m.sems → m'.invited = m.invited →
      Effect b i m m' pc
  | take (my w : ℕ) : pc = .writeSeat my w →
      m'.bs.waitingRoom = Function.update m.bs.waitingRoom my ⟨true, some i, w⟩ →
      m'.sems = m.sems → m'.invited = m.invited → Effect b i m m' pc
  | pass (my : ℕ) (sem : SemaphoreP) (v : ℕ) : pc = .waitSeat my sem →
      m.semValue sem = some (v + 1) →
      m'.bs.waitingRoom = (m.setSem sem v).bs.waitingRoom → m'.sems = (m.setSem sem v).sems →
      m'.invited = (if m.invited.bind WrSeat.pid = some i then none else m.invited) →
      Effect b i m m' pc
  | alloc (id : ℕ) : b = .sysv → m.sems id = none → m'.bs.waitingRoom = m.bs.waitingRoom →
      m'.sems = Function.update m.sems id (some 0) → m'.invited = m.invited → Effect b i m m' pc
  | remove (w : ℕ) : pc = .removeSeat w ∨ pc = .removeChair w →
      m'.bs.waitingRoom = m.bs.waitingRoom → m'.sems = Function.update m.sems w none →
      m'.invited = m.invited → Effect b i m m' pc

section ClientSteps

variable {i : ι} {id : ℕ} {m m' : Shared ι} {c c' : Client}

theorem newSeatSem_cases {w : ℕ} {sems sems' : ℕ → Option ℕ}
    (h : newSeatSem b id sems = some (w, sems')) :
    (b = .posix ∧ w = 0 ∧ sems' = sems) ∨
      (b = .sysv ∧ sems w = none ∧ sems' = Function.update sems w (some 0)) := by
  cases b with
  | posix => cases h; exact .inl ⟨rfl, rfl, rfl⟩
  | sysv =>
    simp only [newSeatSem] at h
    split at h
    · cases h; exact .inr ⟨rfl, ‹_›, rfl⟩
    · cases h

theorem clientStep_effect (h : clientStep b cap i id m c = some (m', c')) :
    m.Effect b i m' c.pc := by
  obtain ⟨pc, haircuts, completed⟩ := c
  cases pc with
  | writeSeat my w => cases h; exact .take my w rfl rfl rfl rfl
  | waitSeat my sem =>
    simp only [clientStep] at h
    split at h
    · cases h; exact .same rfl rfl rfl
    · cases h
    · cases h; exact .pass my sem _ rfl ‹_› rfl rfl rfl
  | newSeat my | newChair my =>
    simp only [clientStep] at h
    split at h
    · cases h
    · rename_i hw
      cases h
      obtain ⟨-, -, rfl⟩ | ⟨hb, hn, rfl⟩ := newSeatSem_cases hw
      · exact .same rfl rfl rfl
      · exact .alloc _ hb hn rfl rfl rfl
  | removeSeat w => cases h; exact .remove w (.inl rfl) rfl rfl rfl
  | removeChair w => cases h; exact .remove w (.inr rfl) rfl rfl rfl
  | _ =>
    simp only [clientStep] at h
    repeat' split at h
    all_goals cases h
    all_goals exact .same rfl rfl rfl

/-- A client keeps what it relies on, and every set it has afterwards is one it
    had or a new one. -/
theorem clientStep_seatOk (h : clientStep b cap i id m c = some (m', c'))
    (hs : c.pc.SeatOk b m i) (hcall : ∀ my w, c.pc = .writeSeat my w → m.call i = 0) :
    c'.pc.SeatOk b m' i ∧
      (b = .sysv → ∀ id', c'.pc.Owns m'.bs id' → c.pc.Owns m.bs id' ∨ m.sems id' = none) := by
  obtain ⟨hlive, hs⟩ := hs
  obtain ⟨pc, haircuts, completed⟩ := c
  cases pc with
  | newSeat my =>
    simp only [clientStep] at h
    split at h
    · cases h
    rename_i hw
    cases h
    obtain ⟨rfl, rfl, rfl⟩ | ⟨rfl, hn, rfl⟩ := newSeatSem_cases hw
    · exact ⟨⟨by simp, rfl⟩, by simp⟩
    · refine ⟨⟨?_, by simp⟩, ?_⟩
      · rintro - id' rfl; simp
      · rintro - id' rfl; exact .inr hn
  | writeSeat my w =>
    cases h
    have hcall := hcall my w rfl
    refine ⟨⟨fun hb id' ho => ?_, ?_, ?_⟩, fun hb id' ho => .inl ?_⟩
    · obtain rfl : id' = w := by simpa [ClientPc.Owns] using ho
      exact hlive hb id' rfl
    · simp
    · change _ = some (m.call i)
      rw [hcall]
      cases b with
      | posix => simpa [Shared.token, convTp, Shared.semValue] using hs
      | sysv => simpa [Shared.token, convTp, Shared.semValue] using hs
    · simpa [ClientPc.Owns] using ho
  | convWaiting my => cases h; exact ⟨⟨hlive, rfl, hs⟩, fun _ _ ho => .inl ho⟩
  | waitSeat my sem =>
    obtain ⟨rfl, -, -⟩ := hs
    simp only [clientStep] at h
    split at h
    · cases h; exact ⟨⟨fun _ _ ho => ho.elim, trivial⟩, fun _ _ ho => ho.elim⟩
    · cases h
    · cases h
      refine ⟨⟨fun hb id' ho => ?_, trivial⟩, fun hb id' ho => .inl ?_⟩
      · subst hb
        cases ho
        simp [Shared.setSem, convTp]
      · subst hb; exact ho
  | newChair my =>
    simp only [clientStep] at h
    split at h
    · cases h
    rename_i hw
    cases h
    obtain ⟨rfl, rfl, rfl⟩ | ⟨rfl, hn, rfl⟩ := newSeatSem_cases hw
    · refine ⟨⟨by simp, ?_⟩, by simp⟩
      cases my <;> first | trivial | simp
    · cases my with
      | none =>
        refine ⟨⟨?_, trivial⟩, ?_⟩
        · rintro - id' rfl; simp
        · rintro - id' rfl; exact .inr hn
      | some my =>
        have hl := hlive rfl _ rfl
        refine ⟨⟨?_, fun _ he => ?_⟩, ?_⟩
        · rintro - id' (rfl | rfl)
          · simp
          · simp only
            rw [Function.update_of_ne]
            · exact hl
            · rintro he; rw [he] at hl; exact hl hn
        · exact hl ((congrArg m.sems he).symm.trans hn)
        · rintro - id' (rfl | rfl)
          · exact .inr hn
          · exact .inl rfl
  | sit my w =>
    simp only [clientStep] at h
    split at h <;> cases h
    · exact ⟨⟨fun hb id' ho => hlive hb id' ho, trivial⟩, fun _ _ ho => .inl ho⟩
    · refine ⟨⟨fun hb id' ho => hlive hb id' ho.symm, fun hb he => hs hb he.symm⟩, ?_⟩
      exact fun _ _ ho => .inl ho.symm
  | deleteSeat my =>
    simp only [clientStep] at h
    split at h <;> cases h
    · exact ⟨⟨by simp, trivial⟩, by simp⟩
    · exact ⟨⟨hlive, hs⟩, fun _ _ ho => .inl ho⟩
  | removeSeat w =>
    cases h
    refine ⟨⟨fun hb id' ho => ?_, trivial⟩, fun _ _ ho => .inl (.inr ho)⟩
    have hne : id' ≠ w := by rintro rfl; exact hs hb ho
    simp only [Function.update_of_ne hne]
    exact hlive hb id' (.inr ho)
  | removeChair w =>
    cases h
    exact ⟨⟨fun _ _ ho => ho.elim, trivial⟩, fun _ _ ho => ho.elim⟩
  | deleteChair =>
    simp only [clientStep] at h
    split at h <;> cases h
    · exact ⟨⟨by simp, trivial⟩, by simp⟩
    · exact ⟨⟨hlive, trivial⟩, fun _ _ ho => .inl ho⟩
  | _ =>
    simp only [clientStep] at h
    repeat' split at h
    all_goals cases h
    all_goals exact ⟨⟨hlive, hs⟩, fun _ _ ho => .inl ho⟩

/-- A client uses a seat that it has just written, or that it used before. -/
theorem clientStep_uses {k : ℕ} (h : clientStep b cap i id m c = some (m', c'))
    (hu : c'.pc.uses b = some k) : c.pc.uses b = some k ∨ ∃ w, c.pc = .writeSeat k w := by
  obtain ⟨pc, haircuts, completed⟩ := c
  cases pc with
  | writeSeat my w => cases h; cases hu; exact .inr ⟨w, rfl⟩
  | waitSeat my sem =>
    simp only [clientStep] at h
    split at h <;> cases h
    · cases hu
    · cases b with
      | posix => cases hu
      | sysv => exact .inl hu
  | newChair my =>
    simp only [clientStep] at h
    split at h <;> cases h
    exact .inl hu
  | sit my w =>
    cases my with
    | none => cases h; cases hu
    | some k => cases h; exact .inl hu
  | _ =>
    simp only [clientStep] at h
    repeat' split at h
    all_goals cases h
    all_goals first
      | cases hu; done
      | exact .inl hu
      | cases b <;> cases hu

/-- A client that waits in its seat goes on waiting until it takes up its
    invitation. -/
theorem clientStep_waits {k : ℕ} (h : clientStep b cap i id m c = some (m', c'))
    (hs : c.pc.SeatOk b m i) (hw : c.pc.Waits k) :
    c'.pc.Waits k ∨ m.call i = 1 ∧ m'.invited = none := by
  have htok := (hs.waits hw).2
  obtain ⟨pc, haircuts, completed⟩ := c
  cases pc with
  | postMx my | convWaiting my => cases h; exact .inl hw
  | waitSeat my sem =>
    cases hw
    obtain ⟨-, rfl, -⟩ := hs
    simp only [clientStep] at h
    change m.semValue _ = _ at htok
    split at h
    · simp_all
    · cases h
    · cases h
      simp only [Shared.call] at htok ⊢
      split_ifs at htok ⊢
      · exact .inr ⟨rfl, rfl⟩
      · simp_all
  | _ => exact hw.elim

/-- A client waits in a seat that it has just written, or in which it waited
    before. -/
theorem clientStep_waits_of {k : ℕ} (h : clientStep b cap i id m c = some (m', c'))
    (hw : c'.pc.Waits k) :
    m'.invited = m.invited ∧ (c.pc.Waits k ∨ ∃ w, c.pc = .writeSeat k w) := by
  obtain ⟨pc, haircuts, completed⟩ := c
  cases pc with
  | writeSeat my w => cases h; cases hw; exact ⟨rfl, .inr ⟨w, rfl⟩⟩
  | postMx my | convWaiting my => cases h; exact ⟨rfl, .inl hw⟩
  | _ =>
    simp only [clientStep] at h
    repeat' split at h
    all_goals cases h
    all_goals exact hw.elim

/-- How many invitations are pending. -/
def Shared.pending (m : Shared ι) : ℕ :=
  match m.invited with
  | none => 0
  | some _ => 1

/-- A client comes from the waiting room to the chair by taking up the pending
    invitation. -/
theorem clientStep_pending (h : clientStep b cap i id m c = some (m', c'))
    (hs : c.pc.SeatOk b m i) :
    c.pc.stage.Calls False c'.pc.stage m.pending m'.pending := by
  obtain ⟨pc, haircuts, completed⟩ := c
  cases pc with
  | waitSeat my sem =>
    obtain ⟨-, rfl, -, htok⟩ := hs
    change m.semValue _ = _ at htok
    simp only [clientStep] at h
    split at h
    · simp_all
    · cases h
    · rename_i v hv
      cases h
      rw [hv] at htok
      simp only [Shared.call] at htok
      split_ifs at htok with hc
      · obtain ⟨seat, hseat, hpid⟩ := Option.bind_eq_some_iff.mp hc
        simp [ClientPc.stage, Stage.Calls, Shared.pending, hseat, hpid]
      · simp at htok
  | _ =>
    simp only [clientStep] at h
    repeat' split at h
    all_goals cases h
    all_goals first
      | exact .inl rfl
      | rfl

end ClientSteps

/-! ## What it means for the others -/

section Others

variable {i j : ι} {m m' : Shared ι} {pc pcj : ClientPc}

theorem Shared.Effect.invited (h : m.Effect b i m' pc) :
    m'.invited = m.invited ∨ m'.invited = none ∧ m.call i = 1 := by
  cases h with
  | pass my sem v _ _ _ _ hi =>
    rw [hi]
    split_ifs with hc
    · exact .inr ⟨rfl, if_pos hc⟩
    · exact .inl rfl
  | _ => exact .inl ‹_›

theorem Shared.call_congr (h : m'.invited = m.invited) (j : ι) : m'.call j = m.call j := by
  rw [call, call, h]

theorem Shared.Effect.call_of_ne (h : m.Effect b i m' pc) (hne : j ≠ i) :
    m'.call j = m.call j := by
  obtain hi | ⟨hi, hc⟩ := h.invited
  · exact call_congr hi j
  · have hpid : m.invited.bind WrSeat.pid = some i := by
      by_contra hp
      simp [call, hp] at hc
    simp [call, hi, hpid, hne.symm]

theorem Shared.Effect.call_le (h : m.Effect b i m' pc) (j : ι) : m'.call j ≤ m.call j := by
  obtain hi | ⟨hi, -⟩ := h.invited
  · exact (call_congr hi j).le
  · simp [call, hi]

omit [DecidableEq ι] in
/-- There are still finitely many sets after one has been written. -/
theorem finite_sems_update {sems : ℕ → Option ℕ} (hf : {id | sems id ≠ none}.Finite) (id : ℕ)
    (v : Option ℕ) : {k | Function.update sems id v k ≠ none}.Finite := by
  refine (hf.insert id).subset fun k hk => ?_
  by_cases hki : k = id
  · exact .inl hki
  · exact .inr (by simpa [Function.update_of_ne hki] using hk)

omit [DecidableEq ι] in
theorem Shared.finite_setSem (hf : {id | m.sems id ≠ none}.Finite) (p : SemaphoreP) (v : ℕ) :
    {id | (m.setSem p v).sems id ≠ none}.Finite := by
  cases p with
  | seat k => exact hf
  | set id => exact finite_sems_update hf id _

theorem Shared.Effect.finite (h : m.Effect b i m' pc) (hf : {id | m.sems id ≠ none}.Finite) :
    {id | m'.sems id ≠ none}.Finite := by
  cases h with
  | same _ hs _ | take _ _ _ _ hs _ => rwa [hs]
  | pass my sem v _ _ _ hs _ => rw [hs]; exact finite_setSem hf sem v
  | alloc id _ _ _ hs _ | remove id _ _ hs _ => rw [hs]; exact finite_sems_update hf id _

/-- A client's step leaves what client `j` relies on, if they use different
    seats and have different sets. -/
theorem ClientPc.SeatOk.of_effect (hj : pcj.SeatOk b m j) (h : m.Effect b i m' pc) (hne : j ≠ i)
    (hi : pc.SeatOk b m i) (huse : ∀ k, pc.uses b = some k → pcj.uses b ≠ some k)
    (htake : ∀ my w, pc = .writeSeat my w → pcj.uses b ≠ some my)
    (hown : b = .sysv → ∀ id, pc.Owns m.bs id → ¬pcj.Owns m.bs id)
    (hch : pcj.OwnsChair → m'.bs.barberChair = m.bs.barberChair) :
    pcj.SeatOk b m' j ∧ (b = .sysv → ∀ id, pcj.Owns m'.bs id ↔ pcj.Owns m.bs id) := by
  refine hj.frame (fun k hk => ?_) (fun hb id ho => ?_) hch (h.call_of_ne hne)
  · cases h with
    | take my w hpc hr _ _ =>
      rw [hr, Function.update_of_ne]
      rintro rfl
      exact htake _ _ hpc hk
    | pass my sem v hpc _ hr _ _ =>
      subst hpc
      rw [hr]
      obtain ⟨-, rfl, -⟩ := hi
      cases b with
      | posix =>
        refine Function.update_of_ne ?_ _ _
        rintro rfl
        exact huse _ rfl hk
      | sysv => rfl
    | same hr _ _ | alloc _ _ _ hr _ _ | remove _ _ hr _ _ => rw [hr]
  · subst hb
    cases h with
    | pass my sem v hpc _ _ hs _ =>
      subst hpc
      rw [hs]
      obtain ⟨-, rfl, -⟩ := hi
      refine Function.update_of_ne ?_ _ _
      rintro rfl
      exact hown rfl _ rfl ho
    | alloc id' _ hn _ hs _ =>
      rw [hs, Function.update_of_ne]
      rintro rfl
      exact hj.1 rfl _ ho hn
    | remove w hpc _ hs _ =>
      rw [hs, Function.update_of_ne]
      rintro rfl
      rcases hpc with rfl | rfl
      · exact hown rfl _ (.inl rfl) ho
      · exact hown rfl _ rfl ho
    | same _ hs _ | take _ _ _ _ hs _ => rw [hs]

/-- The memory after the barber has posted the semaphore of seat `k`. -/
def Shared.posted (b : Build) (m : Shared ι) (k : ℕ) : Shared ι :=
  { m.setSem (convTp b m.bs k) 1 with invited := some (m.bs.waitingRoom k) }

/-- The barber's post is what the client that waits in the seat relies on from
    then on. -/
theorem ClientPc.SeatOk.posted {k : ℕ} (h : pc.SeatOk b m j) (hw : pc.Waits k) :
    pc.SeatOk b (m.posted b k) j ∧
      (b = .sysv → ∀ id, pc.Owns (m.posted b k).bs id ↔ pc.Owns m.bs id) := by
  have hpid := (h.waits hw).1
  have hcall : (m.posted b k).call j = 1 := by simp [Shared.call, Shared.posted, hpid]
  have htok : (m.posted b k).token b k = some 1 := by
    cases b <;> simp [Shared.token, convTp, Shared.semValue, Shared.posted, Shared.setSem]
  have hpid' : ((m.posted b k).bs.waitingRoom k).pid = some j := by
    cases b <;> simp [Shared.posted, convTp, Shared.setSem, hpid]
  have hown : b = .sysv → ∀ id, pc.Owns (m.posted b k).bs id ↔ pc.Owns m.bs id := by
    rintro rfl id
    exact Iff.rfl
  refine ⟨⟨fun hb id ho => ?_, ?_⟩, hown⟩
  · have hid := h.1 hb id ((hown hb id).mp ho)
    subst hb
    by_cases he : id = (m.bs.waitingRoom k).waiting
    · simp [Shared.posted, convTp, Shared.setSem, he]
    · simpa [Shared.posted, convTp, Shared.setSem, Function.update_of_ne he] using hid
  · cases pc with
    | postMx my | convWaiting my =>
      cases hw
      exact ⟨hpid', by rw [htok, hcall]⟩
    | waitSeat my sem =>
      cases hw
      refine ⟨?_, hpid', by rw [htok, hcall]⟩
      rw [h.2.1]
      cases b <;> rfl
    | _ => exact hw.elim

/-- The barber's post leaves what the other clients rely on. -/
theorem ClientPc.SeatOk.of_posted {k : ℕ} (hj : pcj.SeatOk b m j) (hi : pc.SeatOk b m i)
    (hw : pc.Waits k) (hne : j ≠ i) (huse : pcj.uses b ≠ some k) (hnone : m.invited = none)
    (hown : b = .sysv → ∀ id, pc.Owns m.bs id → ¬pcj.Owns m.bs id) :
    pcj.SeatOk b (m.posted b k) j ∧
      (b = .sysv → ∀ id, pcj.Owns (m.posted b k).bs id ↔ pcj.Owns m.bs id) := by
  refine hj.frame (fun k' hk => ?_) (fun hb id ho => ?_) (fun _ => rfl) ?_
  · cases b with
    | posix =>
      refine Function.update_of_ne ?_ _ _
      rintro rfl
      exact huse hk
    | sysv => rfl
  · subst hb
    refine Function.update_of_ne ?_ _ _
    rintro rfl
    refine hown rfl _ ?_ ho
    cases pc with
    | postMx my | convWaiting my | waitSeat my _ => cases hw; rfl
    | _ => exact hw.elim
  · have hpid := (hi.waits hw).1
    simp [Shared.call, Shared.posted, hnone, hpid, hne.symm]

end Others

end AghOs.Barber
