import AghOs.Barber.Refine

/-!
# Mutual exclusion at the chair

In the POSIX build the pending invitations are the tokens in the `waiting`
semaphores of the seats. A seat that is taken again before its last client has
woken loses its token, so the chair protocol is used in its lossy form: at most
one client is on its way to, in, or on its way out of the chair.

* `sleeping_barber`: mutual exclusion at the chair and agreement of the barber
  and his clients on whose turn it is, in every reachable state.
-/

namespace AghOs.Barber

variable {ι : Type*} {cap : ℕ}

/-! ## The tokens in the seats -/

/-- The number of tokens in the seats of the waiting room. -/
def Shared.tokens (cap : ℕ) (m : Shared ι) : ℕ :=
  weigh WrSeat.waiting fun k : Fin cap => m.bs.waitingRoom k

theorem weigh_seat_update (room : ℕ → WrSeat ι) {k : ℕ} (hk : k < cap) (x : WrSeat ι) :
    weigh WrSeat.waiting (fun j : Fin cap => Function.update room k x j) + (room k).waiting =
      weigh WrSeat.waiting (fun j : Fin cap => room j) + x.waiting := by
  have h : (fun j : Fin cap => Function.update room k x j) =
      Function.update (fun j : Fin cap => room j) ⟨k, hk⟩ x := by
    funext j
    by_cases hj : (j : ℕ) = k
    · obtain rfl : j = ⟨k, hk⟩ := Fin.ext hj
      simp
    · rw [Function.update_of_ne hj, Function.update_of_ne fun e => hj (congrArg Fin.val e)]
  rw [h]
  exact weigh_update WrSeat.waiting (fun j : Fin cap => room j) ⟨k, hk⟩ x

/-- In the POSIX build `next->waiting` is the semaphore in the seat. -/
def BarberPc.InSeat : BarberPc → Prop
  | .postWaiting next sem => sem = .seat next
  | _ => True

/-- In the POSIX build `my_seat->waiting` is the semaphore in the seat, and a
    new seat has no token. -/
def ClientPc.InSeat : ClientPc → Prop
  | .waitSeat my sem => sem = .seat my
  | .writeSeat _ w => w = 0
  | _ => True

theorem barberStep_inSeat {m m' : Shared ι} {s s' : BarberState}
    (h : barberStep .posix cap m s = some (m', s')) : s'.pc.InSeat := by
  unfold barberStep at h
  repeat' split at h
  all_goals cases h
  all_goals first
    | exact trivial
    | rfl

theorem clientStep_inSeat [DecidableEq ι] {i : ι} {id : ℕ} {m m' : Shared ι} {c c' : Client}
    (h : clientStep .posix cap i id m c = some (m', c')) : c'.pc.InSeat := by
  unfold clientStep at h
  repeat' split at h
  all_goals cases h
  all_goals first
    | exact trivial
    | rfl
    | (rename_i heq; cases heq; rfl)

/-- The barber's post is one more token. -/
theorem barberStep_tokens {m m' : Shared ι} {s s' : BarberState}
    (h : barberStep .posix cap m s = some (m', s')) (hs : s.pc.InSeat) (ho : s.pc.Ok cap m.bs) :
    s.pc.phase.Calls s'.pc.phase (m.tokens cap) (m'.tokens cap) := by
  obtain ⟨pc, cycles⟩ := s
  cases pc with
  | postWaiting next sem =>
    cases hs
    cases h
    have hw := weigh_seat_update m.bs.waitingRoom ho.1
      { m.bs.waitingRoom next with waiting := (m.bs.waitingRoom next).waiting + 1 }
    simp only [BarberPc.phase, Phase.Calls, Shared.tokens, Shared.setSem] at hw ⊢
    omega
  | _ =>
    simp only [barberStep] at h
    repeat' split at h
    all_goals cases h
    all_goals rfl

/-- A client that passes its wait takes a token; a client that sits down in the
    waiting room clears whatever its seat held. -/
theorem clientStep_tokens [DecidableEq ι] {i : ι} {id : ℕ} {m m' : Shared ι} {c c' : Client}
    (h : clientStep .posix cap i id m c = some (m', c')) (hs : c.pc.InSeat)
    (ho : c.pc.Ok cap m.bs) :
    c.pc.stage.Calls True c'.pc.stage (m.tokens cap) (m'.tokens cap) := by
  obtain ⟨pc, haircuts, completed⟩ := c
  cases pc with
  | waitSeat my sem =>
    cases hs
    simp only [clientStep, Shared.semValue] at h
    split at h
    · cases ‹_ = none›
    · cases h
    · rename_i v hv
      cases h
      have hv := Option.some.inj hv
      have hw := weigh_seat_update m.bs.waitingRoom ho { m.bs.waitingRoom my with waiting := v }
      simp only [ClientPc.stage, Stage.Calls, Shared.tokens, Shared.setSem] at hw ⊢
      omega
  | writeSeat my w =>
    cases hs
    cases h
    have hw := weigh_seat_update m.bs.waitingRoom ho.1 ⟨true, some i, 0⟩
    refine .inr ⟨trivial, ?_⟩
    simp only [Shared.tokens] at hw ⊢
    omega
  | newSeat my | newChair my =>
    simp only [clientStep, newSeatSem] at h
    cases h
    first
      | exact .inl rfl
      | rfl
  | _ =>
    simp only [clientStep] at h
    repeat' split at h
    all_goals cases h
    all_goals first
      | exact .inl rfl
      | rfl

/-! ## The chair holds its client -/

/-- A client that has sat down finds its process id in the chair. -/
theorem clientStep_chairPid [DecidableEq ι] {b : Build} {i : ι} {id : ℕ} {m m' : Shared ι}
    {c c' : Client} (h : clientStep b cap i id m c = some (m', c'))
    (hp : c.pc.OwnsChair → m.bs.barberChair.pid = some i) :
    c'.pc.OwnsChair → m'.bs.barberChair.pid = some i := by
  obtain ⟨pc, haircuts, completed⟩ := c
  cases pc with
  | sit my w =>
    simp only [clientStep] at h
    split at h <;> cases h
    all_goals exact fun _ => rfl
  | clearChair =>
    cases h
    exact fun hf => hf.elim
  | _ =>
    simp only [clientStep] at h
    repeat' split at h
    all_goals cases h
    all_goals exact hp

/-! ## The invariant -/

variable [Fintype ι]

/-- What holds between two steps in the POSIX build. -/
structure Shop.PosixInv (cap : ℕ) (s : Shop ι) : Prop where
  barber : s.barber.pc.InSeat
  clients : ∀ i, (s.client i).pc.InSeat
  chair : (s.chair (s.mem.tokens cap)).Ok True
  pid : ∀ i, (s.client i).pc.OwnsChair → s.mem.bs.barberChair.pid = some i

theorem Shop.Init.posixInv {s : Shop ι} (h : s.Init) : s.PosixInv cap := by
  refine ⟨?_, fun i => ?_, ?_, fun i ho => ?_⟩
  · simp [h.barber, BarberPc.InSeat]
  · simp [h.pc i, ClientPc.InSeat]
  · have ht : s.mem.tokens cap = 0 :=
      weigh_eq_zero_iff.mpr fun k => by simp [h.bs, initializeBarber, emptySeat]
    rw [ht]
    exact h.chair_ok
  · rw [h.pc i] at ho
    exact ho.elim

variable [DecidableEq ι]

theorem Shop.PosixInv.step {s s' : Shop ι} {l : Label ι} (hmx : s.MxInv cap)
    (hI : s.PosixInv cap) (h : (shop .posix cap).next s l = some s') : s'.PosixInv cap := by
  have hone := hI.chair.atChair_le_one
  obtain ⟨hb, hc, hch, hpid⟩ := hI
  obtain ⟨m', bar', -, hst, rfl⟩ | ⟨i, id, m', c', -, hst, rfl⟩ := shop_next_cases h
  · refine ⟨barberStep_inSeat hst, hc, ?_, ?_⟩
    · exact Shop.chair_barber hst (barberStep_tokens hst hb hmx.barber) hch
    · simp only [barberStep_barberChair hst]
      exact hpid
  · have hpid' := clientStep_chairPid hst (hpid i)
    refine ⟨hb, fun j => ?_, ?_, fun j => ?_⟩
    · by_cases hji : j = i
      · subst hji; simpa using clientStep_inSeat hst
      · simpa [Function.update_of_ne hji] using hc j
    · exact Shop.chair_client hmx hst (clientStep_tokens hst (hc i) (hmx.clients i)) hch
    · by_cases hji : j = i
      · subst hji; simpa using hpid'
      · simp only [Function.update_of_ne hji]
        intro hj
        rcases clientStep_barberChair hst with hchair | hat
        · rw [hchair]; exact hpid j hj
        · exact absurd (eq_of_weigh_le_one hone (hj.inChair.atChair) hat) hji

theorem reach_posixInv {s : Shop ι} (h : (shop .posix cap).Reach s) : s.PosixInv cap :=
  Machine.ReachIf.invariant_of h (fun _ => reach_mxInv) (fun _ => Shop.Init.posixInv)
    fun _ _ _ hmx _ hI _ hn => hI.step hmx hn

/-! ## Mutual exclusion and agreement -/

/-- The barber has passed his first wait for `sem_customer_ready` of this
    iteration and has not yet posted `sem_barber_ready`. -/
def BarberPc.Cutting : BarberPc → Prop
  | .logStart | .logReady | .postReady => True
  | _ => False

/-- What the barber and his clients rely on: the barber sleeps only when nobody
    waits; one client at most is in the chair; the barber cuts the hair of the
    one client who is in the chair, and whose process id the chair holds; he
    and his clients count the same haircuts, up to the one in the chair. -/
structure Shop.Agreement (s : Shop ι) : Prop where
  asleep : s.mem.bs.barberSleeping = true → s.mem.bs.wrCount = 0
  one : ∀ i j, (s.client i).pc.InChair → (s.client j).pc.InChair → i = j
  cutting : s.barber.pc.Cutting →
    ∃ i, (s.client i).pc.InChair ∧ (∀ j, (s.client j).pc.InChair → j = i) ∧
      s.mem.bs.barberChair.pid = some i
  counts : s.barber.cycles ≤ ∑ i, (s.client i).completed ∧
    ∑ i, (s.client i).completed ≤ s.barber.cycles + 1

omit [DecidableEq ι] in
/-- While the barber cuts, a client is seated and waits for him. -/
theorem Shop.PosixInv.seated {s : Shop ι} (h : s.PosixInv cap) (hc : s.barber.pc.Cutting) :
    ∃ i, (s.client i).pc = .waitReady := by
  have hp : s.barber.pc.phase = .cutting := by
    cases hpc : s.barber.pc <;> rw [hpc] at hc <;> first | exact hc.elim | rfl
  have hn := h.chair.counts
  simp only [Shop.chair, Shared.chair, Chair.Counts, hp] at hn
  obtain ⟨i, hi⟩ := weigh_pos_iff.mp (show 0 < weigh (Client.inStage .seated) s.client by omega)
  refine ⟨i, ?_⟩
  cases hpc : (s.client i).pc <;> simp [Client.inStage, hpc, ClientPc.stage] at hi
  rfl

/-- **The sleeping barber.** In every reachable state of the POSIX build, for
    any number of clients, any number of haircuts and any number of seats. -/
theorem sleeping_barber {s : Shop ι} (h : (shop .posix cap).Reach s) : s.Agreement := by
  have hmx := reach_mxInv h
  have hI := reach_posixInv h
  have hone := hI.chair.atChair_le_one
  refine ⟨hmx.bounds.asleep, fun i j hi hj => ?_, fun hc => ?_, ?_⟩
  · exact eq_of_weigh_le_one hone hi.atChair hj.atChair
  · obtain ⟨i, hi⟩ := hI.seated hc
    have hin : (s.client i).pc.InChair := by rw [hi]; trivial
    refine ⟨i, hin, fun j hj => ?_, hI.pid i (by rw [hi]; trivial)⟩
    exact eq_of_weigh_le_one hone hj.atChair hin.atChair
  · have hn := hI.chair.counts
    change s.barber.cycles ≤ weigh Client.completed s.client ∧
      weigh Client.completed s.client ≤ s.barber.cycles + 1
    cases hp : s.barber.pc.phase <;>
      simp only [Shop.chair, Shared.chair, Chair.Counts, hp] at hn <;> omega

/-- A client waits in its seat, is invited and sits down, and the barber
    starts. -/
theorem sleeping_barber_cutting : ∃ s : Shop (Fin 2), s.barber.pc = .logStart ∧ s.Agreement := by
  obtain ⟨s, hr, hs⟩ := Machine.Reach.of_run (M := shop .posix 1)
    (List.replicate 13 (.client (0 : Fin 2) 0) ++ List.replicate 11 .barber ++
      List.replicate 6 (.client 0 0) ++ [.barber])
    (fun s => s.barber.pc) .logStart (openShop_init fun _ => 1) rfl
  exact ⟨s, hs, sleeping_barber hr⟩

end AghOs.Barber
