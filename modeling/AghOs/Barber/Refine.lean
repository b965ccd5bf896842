import AghOs.Barber.Chair
import AghOs.Barber.Mutex

/-!
# The shop refines the chair protocol

`Shop.chair` reads the state of the chair protocol off the state of the shop;
`Shop.chair_step` says that every step of the shop is a step of the protocol
or leaves it as it is. How many invitations are pending (`called`) is not
stored anywhere in the shop, so the two directions of use supply their own
count: the tokens that lie in the seats, and the client that was invited last.
-/

namespace AghOs.Barber

variable {ι : Type*} {b : Build} {cap : ℕ} {lossy : Prop}

/-- What the barber does at the chair. -/
def BarberPc.phase : BarberPc → Phase
  | .sleepPostMx | .waitSleeping => .dozing
  | .postMx | .waitCustomer => .waiting
  | .logStart | .logReady | .postReady => .cutting
  | .waitGone => .leaving
  | _ => .choosing

/-- What a client does at the chair. -/
def ClientPc.stage : ClientPc → Stage
  | .postSleeping => .waking
  | .wakePostMx | .newChair _ | .sit _ _ | .deleteSeat _ | .removeSeat _ | .postCustomer => .coming
  | .waitReady => .seated
  | .deleteChair | .removeChair _ | .clearChair | .postGone => .going
  | _ => .idle

/-- The state of the protocol, from the shared memory and the counts. -/
def Shared.chair (m : Shared ι) (ph : Phase) (called : ℕ) (n : Stage → ℕ) (cycles haircuts : ℕ) :
    Chair where
  phase := ph
  asleep := m.bs.barberSleeping
  wake := m.bs.semBarberSleeping
  customer := m.bs.semCustomerReady
  ready := m.bs.semBarberReady
  called := called
  clients := n
  cycles := cycles
  haircuts := haircuts

/-- How the pending invitations may change when the barber goes from phase `a`
    to phase `b`. -/
def Phase.Calls (a b : Phase) (v v' : ℕ) : Prop :=
  match a, b with
  | .choosing, .waiting => v' = v + 1
  | _, _ => v' = v

/-- How the pending invitations may change when a client goes from stage `a` to
    stage `b`. -/
def Stage.Calls (lossy : Prop) (a b : Stage) (v v' : ℕ) : Prop :=
  match a, b with
  | .idle, .coming => v = v' + 1
  | .idle, .idle => v' = v ∨ lossy ∧ v' ≤ v
  | _, _ => v' = v

theorem barberStep_chair {m m' : Shared ι} {s s' : BarberState} {v v' haircuts : ℕ} {n : Stage → ℕ}
    (h : barberStep b cap m s = some (m', s')) (hv : s.pc.phase.Calls s'.pc.phase v v') :
    Chair.Step lossy (m.chair s.pc.phase v n s.cycles haircuts)
      (m'.chair s'.pc.phase v' n s'.cycles haircuts) ∨
    m'.chair s'.pc.phase v' n s'.cycles haircuts = m.chair s.pc.phase v n s.cycles haircuts := by
  obtain ⟨pc, cycles⟩ := s
  cases pc with
  | postWaiting next sem =>
    simp only [barberStep] at h
    split at h
    · cases h; cases hv; exact .inr rfl
    · cases h; cases hv; exact .inl (.invite rfl)
  | setSleeping => cases h; cases hv; exact .inl (.doze rfl)
  | postReady => cases h; cases hv; exact .inl (.finish rfl)
  | waitSleeping =>
    simp only [barberStep] at h
    split at h
    · cases h
    · cases h; cases hv; exact .inl (.wakeUp rfl ‹_›)
  | waitCustomer =>
    simp only [barberStep] at h
    split at h
    · cases h
    · cases h; cases hv; exact .inl (.start rfl ‹_›)
  | waitGone =>
    simp only [barberStep] at h
    split at h
    · cases h
    · cases h; cases hv; exact .inl (.next rfl ‹_›)
  | _ =>
    simp only [barberStep] at h
    repeat' split at h
    all_goals cases h
    all_goals cases hv; exact .inr rfl

theorem barberStep_barberChair {b : Build} {m m' : Shared ι} {s s' : BarberState}
    (h : barberStep b cap m s = some (m', s')) : m'.bs.barberChair = m.bs.barberChair := by
  unfold barberStep at h
  repeat' split at h
  all_goals cases h
  all_goals rfl

variable [DecidableEq ι]

theorem clientStep_chair {i : ι} {id : ℕ} {m m' : Shared ι} {c c' : Client} {ph : Phase}
    {v v' cycles haircuts haircuts' : ℕ} {n n' : Stage → ℕ}
    (h : clientStep b cap i id m c = some (m', c')) (ho : c.pc.Ok cap m.bs)
    (hn : Moves n c.pc.stage c'.pc.stage n') (hv : c.pc.stage.Calls lossy c'.pc.stage v v')
    (hh : haircuts' + c.completed = haircuts + c'.completed) :
    Chair.Step lossy (m.chair ph v n cycles haircuts) (m'.chair ph v' n' cycles haircuts') ∨
      m'.chair ph v' n' cycles haircuts' = m.chair ph v n cycles haircuts := by
  obtain ⟨pc, hc, completed⟩ := c
  cases pc with
  | clearSleeping =>
    cases h; cases hv
    obtain rfl : haircuts' = haircuts := by simpa using hh
    exact .inl (.rouse ho hn)
  | postSleeping =>
    cases h; cases hv
    obtain rfl : haircuts' = haircuts := by simpa using hh
    exact .inl (.shake hn)
  | postCustomer =>
    cases h; cases hv
    obtain rfl : haircuts' = haircuts := by simpa using hh
    exact .inl (.sit hn)
  | postGone =>
    cases h; cases hv
    obtain rfl : haircuts' = haircuts + 1 := by simp only at hh; omega
    exact .inl (.leave hn)
  | waitSeat my sem =>
    simp only [clientStep] at h
    split at h
    · cases h
      obtain rfl : haircuts' = haircuts := by simpa using hh
      obtain rfl := hn.eq_of_same
      obtain rfl | ⟨hl, hle⟩ := hv
      · exact .inr rfl
      · exact .inl (.lose hl hle)
    · cases h
    · cases h
      obtain rfl : haircuts' = haircuts := by simpa using hh
      exact .inl (.accept hv hn)
  | waitReady =>
    simp only [clientStep] at h
    split at h
    · cases h
    · cases h; cases hv
      obtain rfl : haircuts' = haircuts := by simpa using hh
      exact .inl (.rise ‹_› hn)
  | _ =>
    simp only [clientStep] at h
    repeat' split at h
    all_goals cases h
    all_goals
      obtain rfl : haircuts' = haircuts := by simpa using hh
      obtain rfl := hn.eq_of_same
    all_goals first
      | (cases hv; exact .inr rfl)
      | (obtain rfl | ⟨hl, hle⟩ := hv
         · exact .inr rfl
         · exact .inl (.lose hl hle))

/-! ## The whole shop -/

variable [Fintype ι]

/-- `1` if the client is in this stage. -/
def Client.inStage (st : Stage) (c : Client) : ℕ := if st = c.pc.stage then 1 else 0

/-- The state of the protocol in the shop, with `called` pending invitations. -/
def Shop.chair (s : Shop ι) (called : ℕ) : Chair :=
  s.mem.chair s.barber.pc.phase called (fun st => weigh (Client.inStage st) s.client)
    s.barber.cycles (weigh Client.completed s.client)

theorem moves_update (t : ι → Client) (i : ι) (c : Client) :
    Moves (fun st => weigh (Client.inStage st) t) (t i).pc.stage c.pc.stage
      (fun st => weigh (Client.inStage st) (Function.update t i c)) :=
  fun st => weigh_update (Client.inStage st) t i c

/-! ### Who is at the chair -/

/-- The client has sat down (`bs->barber_chair = new_seat()`) and has not yet
    posted `sem_customer_ready` for the last time of its iteration. -/
def ClientPc.InChair : ClientPc → Prop
  | .deleteSeat _ | .removeSeat _ | .postCustomer | .waitReady | .deleteChair | .removeChair _
  | .clearChair | .postGone => True
  | _ => False

/-- The chair is the client's, until it clears it. -/
def ClientPc.OwnsChair : ClientPc → Prop
  | .postGone => False
  | pc => pc.InChair

theorem ClientPc.OwnsChair.inChair {pc : ClientPc} (h : pc.OwnsChair) : pc.InChair := by
  cases pc <;> first | exact h | exact trivial

/-- `1` from the moment the client is called to the chair until it has left. -/
def Client.atChair (c : Client) : ℕ :=
  c.inStage .coming + c.inStage .seated + c.inStage .going

theorem ClientPc.InChair.atChair {c : Client} (h : c.pc.InChair) : 0 < c.atChair := by
  obtain ⟨pc, haircuts, completed⟩ := c
  cases pc <;> first | exact h.elim | simp [Client.atChair, Client.inStage, ClientPc.stage]

omit [Fintype ι] in
/-- A client writes the chair only when it is at the chair. -/
theorem clientStep_barberChair {i : ι} {id : ℕ} {m m' : Shared ι} {c c' : Client}
    (h : clientStep b cap i id m c = some (m', c')) :
    m'.bs.barberChair = m.bs.barberChair ∨ 0 < c.atChair := by
  obtain ⟨pc, haircuts, completed⟩ := c
  cases pc with
  | sit my w | clearChair =>
    exact .inr (by simp [Client.atChair, Client.inStage, ClientPc.stage])
  | _ =>
    simp only [clientStep] at h
    repeat' split at h
    all_goals cases h
    all_goals exact .inl rfl

/-- In every phase at most one client is at the chair. -/
theorem Chair.Ok.one_at_chair {c : Chair} (h : c.Ok lossy) :
    c.clients .coming + c.clients .seated + c.clients .going ≤ 1 := by
  have hc := h.counts
  cases hp : c.phase <;> simp only [Chair.Counts, hp] at hc <;> omega

omit [DecidableEq ι] in
theorem Chair.Ok.atChair_le_one {s : Shop ι} {v : ℕ} (h : (s.chair v).Ok lossy) :
    weigh Client.atChair s.client ≤ 1 := by
  have h1 := h.one_at_chair
  simp only [Shop.chair, Shared.chair, ← weigh_add] at h1
  exact h1

/-! ### The invariant of the protocol -/

omit [DecidableEq ι] in
/-- A step of the barber keeps the invariant of the protocol. -/
theorem Shop.chair_barber {s : Shop ι} {m' : Shared ι} {bar' : BarberState} {v v' : ℕ}
    (hst : barberStep b cap s.mem s.barber = some (m', bar'))
    (hv : s.barber.pc.phase.Calls bar'.pc.phase v v') (hok : (s.chair v).Ok lossy) :
    (Shop.chair { s with mem := m', barber := bar' } v').Ok lossy := by
  have h : Chair.Step lossy (s.chair v) (Shop.chair { s with mem := m', barber := bar' } v') ∨
      Shop.chair { s with mem := m', barber := bar' } v' = s.chair v := barberStep_chair hst hv
  rcases h with h | h
  · exact hok.step h
  · rw [h]; exact hok

/-- A step of a client keeps the invariant of the protocol. -/
theorem Shop.chair_client {s : Shop ι} {i : ι} {id : ℕ} {m' : Shared ι} {c' : Client} {v v' : ℕ}
    (hmx : s.MxInv cap) (hst : clientStep b cap i id s.mem (s.client i) = some (m', c'))
    (hv : (s.client i).pc.stage.Calls lossy c'.pc.stage v v') (hok : (s.chair v).Ok lossy) :
    (Shop.chair { s with mem := m', client := Function.update s.client i c' } v').Ok lossy := by
  have h : Chair.Step lossy (s.chair v)
        (Shop.chair { s with mem := m', client := Function.update s.client i c' } v') ∨
      Shop.chair { s with mem := m', client := Function.update s.client i c' } v' = s.chair v :=
    clientStep_chair hst (hmx.clients i) (moves_update s.client i c') hv
      (weigh_update Client.completed s.client i c')
  rcases h with h | h
  · exact hok.step h
  · rw [h]; exact hok

omit [DecidableEq ι] in
theorem Shop.Init.chair_ok {s : Shop ι} (h : s.Init) : (s.chair 0).Ok lossy := by
  have hn : ∀ st, st ≠ .idle → weigh (Client.inStage st) s.client = 0 := by
    intro st hst
    exact weigh_eq_zero_iff.mpr fun i => by simp [Client.inStage, h.pc i, ClientPc.stage, hst]
  have hc : weigh Client.completed s.client = 0 := weigh_eq_zero_iff.mpr h.completed
  refine ⟨?_, ?_, ?_⟩
  · simp [Shop.chair, Shared.chair, Chair.Counts, h.bs, h.barber, BarberPc.phase, initializeBarber,
      hn, hc]
  · simp [Shop.chair, Shared.chair, h.bs, initializeBarber]
  · simp [Shop.chair, Shared.chair, h.barber, BarberPc.phase]

end AghOs.Barber
