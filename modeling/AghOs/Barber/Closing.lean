import AghOs.Barber.Invitation
import AghOs.Machine.Runs

/-!
# Closing time

`barber.c` forks as many clients as the waiting room has seats (`clients_count =
wr_cap`, line 83), and each asks for the same number of haircuts. With no more
clients than seats, in both builds:

* `Shop.RoomInv.freshSeat`: a client never takes a seat that another one still uses,
  so the invitations are kept in every run (`reach_roomInv`);
* `Shop.RoomInv.not_full`: nobody is turned away.

Whatever the number of clients, the shop comes to rest: `shop_variant` bounds the
steps of every run. `closing_time` puts the two together.
-/

namespace AghOs.Barber

variable {ι : Type*} {b : Build} {cap : ℕ}

/-! ## How many steps are left -/

/-- The steps of the barber up to his next wait for a customer; what follows a wait
    is paid for by the semaphore (`customerWorth`). -/
def BarberPc.rank : BarberPc → ℕ
  | .waitCustomer | .exited => 0
  | .postMx | .waitSleeping => 1
  | .postWaiting _ _ | .sleepPostMx => 2
  | .convWaiting _ | .setSleeping => 3
  | .logInvite _ | .waitGone => 4
  | .popWriteCount _ _ | .postReady => 5
  | .popReadCount _ | .logReady => 6
  | .popWriteStart _ _ | .logStart => 7
  | .popReadStart _ => 8
  | .popSeat => 9
  | .popTest => 10
  | .lockMx => 11

/-- The steps that one `sem_customer_ready` lets the barber take. -/
def customerWorth : ℕ := 8

/-- The steps of a client up to its next iteration, with those that its two
    `sem_customer_ready` let the barber take. -/
def ClientPc.rank : ClientPc → ℕ
  | .exited => 0
  | .head => 1
  | .fork => 2
  | .postGone => 10
  | .clearChair => 11
  | .removeChair _ => 12
  | .deleteChair => 13
  | .waitReady => 14
  | .postCustomer => 23
  | .removeSeat _ => 24
  | .deleteSeat _ => 25
  | .sit _ _ => 26
  | .newChair _ => 27
  | .waitSeat _ _ => 28
  | .convWaiting _ => 29
  | .postMx _ => 30
  | .writeSeat _ _ => 31
  | .newSeat _ => 32
  | .pushWriteCount _ _ => 33
  | .pushReadCount _ => 34
  | .pushWriteEnd _ _ => 35
  | .pushReadEnd _ | .wakePostMx => 36
  | .pushSeat | .postSleeping | .fullPostMx => 37
  | .pushTest | .clearSleeping => 38
  | .readSleeping => 39
  | .lockMx => 40

/-- The steps that a client's remaining haircuts take. -/
def Client.rank (c : Client) : ℕ := c.pc.rank + 40 * c.haircuts

theorem barberStep_rank {m m' : Shared ι} {s s' : BarberState}
    (h : barberStep b cap m s = some (m', s')) :
    s'.pc.rank + customerWorth * m'.bs.semCustomerReady + 1 ≤
      s.pc.rank + customerWorth * m.bs.semCustomerReady := by
  unfold barberStep at h
  repeat' split at h
  all_goals cases h
  all_goals simp_all only [BarberPc.rank, customerWorth, Shared.setSem]
  all_goals omega

section

variable [DecidableEq ι]

theorem clientStep_rank {i : ι} {id : ℕ} {m m' : Shared ι} {c c' : Client}
    (h : clientStep b cap i id m c = some (m', c')) :
    c'.rank + customerWorth * m'.bs.semCustomerReady + 1 ≤
      c.rank + customerWorth * m.bs.semCustomerReady := by
  unfold clientStep at h
  repeat' split at h
  all_goals cases h
  all_goals simp_all only [Client.rank, ClientPc.rank, customerWorth, Shared.setSem]
  all_goals omega

variable [Fintype ι]

/-- The steps that are left in the shop. -/
def Shop.rank (s : Shop ι) : ℕ :=
  s.barber.pc.rank + weigh Client.rank s.client + customerWorth * s.mem.bs.semCustomerReady

theorem shop_variant (b : Build) (cap : ℕ) :
    (shop b cap).Variant (fun _ : Shop ι => True) (fun _ => 0) Shop.rank where
  keep _ _ _ _ _ := trivial
  lower s l s' _ hn := by
    obtain ⟨m', bar', -, hst, rfl⟩ | ⟨i, id, m', c', -, hst, rfl⟩ := shop_next_cases hn
    · have hb := barberStep_rank hst
      simp only [Shop.rank]
      omega
    · have hc := clientStep_rank hst
      have hw := weigh_update Client.rank s.client i c'
      simp only [Shop.rank]
      omega

/-! ## The seat that was popped last -/

/-- Between two steps, a client that still uses its seat, and does not wait there for
    its invitation, is in the seat that was popped last. -/
structure Shop.RoomInv (b : Build) (cap : ℕ) (s : Shop ι) : Prop where
  mx : s.MxInv cap
  seats : s.SeatInv b cap
  last : ∀ j k, (s.client j).pc.uses b = some k →
    ((s.client j).pc.Waits k → s.mem.call j = 1) → s.mem.bs.wrStart = (k + 1) % cap

theorem Shop.Init.roomInv {s : Shop ι} (h : s.Init) : s.RoomInv b cap := by
  refine ⟨h.mxInv, h.seatInv, fun j k hu => ?_⟩
  rw [h.pc j] at hu
  cases hu

omit [DecidableEq ι] [Fintype ι] in
/-- A client that uses a seat it does not wait in has been called to the chair. -/
theorem ClientPc.uses_stage {pc : ClientPc} {k : ℕ} (h : pc.uses b = some k) :
    pc.Waits k ∨ pc.stage = .coming := by
  cases pc with
  | postMx my | convWaiting my | waitSeat my _ => exact .inl (Option.some.inj h)
  | newChair my | sit my _ | deleteSeat my => exact .inr rfl
  | _ => cases h

/-- While the barber chooses, no seat is in use but by clients that wait for their
    invitation. -/
theorem Shop.SeatInv.uses_choosing {s : Shop ι} (hI : s.SeatInv b cap)
    (hph : s.barber.pc.phase = .choosing) {j : ι} {k : ℕ}
    (hu : (s.client j).pc.uses b = some k) : (s.client j).pc.Waits k ∧ s.mem.call j = 0 := by
  have hnone := hI.choosing hph
  refine ⟨(ClientPc.uses_stage hu).resolve_right fun hst => ?_, by simp [Shared.call, hnone]⟩
  have hc := hI.chair.counts
  simp only [Chair.Counts, Shop.chair, Shared.chair, hph] at hc
  have hj := weigh_eq_zero_iff.mp hc.2.2.2.2.2.1 j
  simp [Client.inStage, hst] at hj

omit [DecidableEq ι] [Fintype ι] in
/-- The barber moves the start of the queue only while he chooses. -/
theorem barberStep_start {m m' : Shared ι} {s s' : BarberState}
    (h : barberStep b cap m s = some (m', s')) :
    s.pc.phase = .choosing ∧ (∀ next sem, s.pc ≠ .postWaiting next sem) ∨
      m'.bs.wrStart = m.bs.wrStart := by
  obtain ⟨pc, cycles⟩ := s
  cases pc with
  | popWriteStart next start => exact .inl ⟨rfl, by simp⟩
  | _ =>
    simp only [barberStep] at h
    repeat' split at h
    all_goals cases h
    all_goals exact .inr rfl

theorem Shop.RoomInv.barber_step {s : Shop ι} {m' : Shared ι} {bar' : BarberState}
    (hI : s.RoomInv b cap) (hst : barberStep b cap s.mem s.barber = some (m', bar')) (j : ι) (k : ℕ)
    (hu : (s.client j).pc.uses b = some k) (hw : (s.client j).pc.Waits k → m'.call j = 1) :
    m'.bs.wrStart = (k + 1) % cap := by
  obtain ⟨-, -, -, hinv, -⟩ | ⟨next, sem, hpc, rfl, -⟩ :=
    barberStep_seats hst fun _ _ => hI.seats.postWaiting
  · have hcall := Shared.call_congr hinv j
    rw [hcall] at hw
    obtain ⟨hph, -⟩ | hstart := barberStep_start hst
    · obtain ⟨hwait, h0⟩ := hI.seats.uses_choosing hph hu
      have h1 := hw hwait
      omega
    · rw [hstart]
      exact hI.last j k hu hw
  · -- only the client in the popped seat is invited now
    have hpop : s.barber.pc.Popped next := by rw [hpc]; rfl
    obtain ⟨-, hstart, -⟩ := hpop.before hI.mx.barber hI.mx.bounds.count
    obtain ⟨hwait, -⟩ := hI.seats.uses_choosing (by rw [hpc]; rfl) hu
    obtain ⟨i, hwi, -⟩ := hI.seats.queued next (.inr hpop)
    have hpid := hI.seats.pid hwi
    have hji : j = i := by
      by_contra hne
      have h1 := hw hwait
      simp [Shared.call, Shared.posted, hpid, Ne.symm hne] at h1
    subst hji
    obtain rfl : next = k := hwi.eq hwait
    exact hstart

theorem Shop.RoomInv.client_step {s : Shop ι} {i : ι} {id : ℕ} {m' : Shared ι} {c' : Client}
    (hI : s.RoomInv b cap) (hst : clientStep b cap i id s.mem (s.client i) = some (m', c'))
    (j : ι) (k : ℕ) (hu : (Function.update s.client i c' j).pc.uses b = some k)
    (hw : (Function.update s.client i c' j).pc.Waits k → m'.call j = 1) :
    m'.bs.wrStart = (k + 1) % cap := by
  have heff := clientStep_effect hst
  rw [(clientStep_ends hst (hI.mx.clients i)).1]
  by_cases hji : j = i
  · subst hji
    rw [Function.update_self] at hu hw
    have hle := heff.call_le j
    obtain hu' | ⟨w, hpc⟩ := clientStep_uses hst hu
    · refine hI.last j k hu' fun hwait => ?_
      obtain hwait' | ⟨h1, -⟩ := clientStep_waits hst (hI.seats.seats j) hwait
      · have h1 := hw hwait'
        have h2 : s.mem.call j ≤ 1 := by unfold Shared.call; split <;> simp
        omega
      · exact h1
    · -- a seat that was just written is not invited
      have h0 := hI.seats.call_writeSeat hpc
      have hpc' : c'.pc = .postMx k := by
        unfold clientStep at hst
        simp only [hpc] at hst
        cases hst
        rfl
      have h1 := hw (by rw [hpc']; rfl)
      omega
  · rw [Function.update_of_ne hji] at hu hw
    rw [heff.call_of_ne hji] at hw
    exact hI.last j k hu hw

/-! ## As many seats as clients -/

/-- The clients that wait for their invitation, one in each seat of the queue. -/
theorem Shop.SeatInv.card_waiting {s : Shop ι} (hI : s.SeatInv b cap) {n : ℕ} (hn : n ≤ cap)
    (hq : ∀ d < n, s.InQueue cap ((s.mem.bs.wrStart + d) % cap)) {t : Finset ι}
    (ht : ∀ i ∈ t, ∀ k, (s.client i).pc.Waits k → s.mem.call i ≠ 0) :
    n + t.card ≤ Fintype.card ι := by
  have hf : ∀ d : Fin n, ∃ j, (s.client j).pc.Waits ((s.mem.bs.wrStart + d) % cap) ∧
      s.mem.call j = 0 := fun d => hI.queued _ (.inl (hq d d.isLt))
  choose f hf using hf
  have hinj : Function.Injective f := by
    intro d e hde
    have hseat := (hf d).1.eq (hde ▸ (hf e).1)
    by_contra hne
    obtain h | h := Nat.lt_or_gt_of_ne (Fin.val_ne_of_ne hne)
    · exact ring_inj h (by omega) hseat
    · exact ring_inj h (by omega) hseat.symm
  have hdisj : Disjoint (Finset.univ.image f) t := by
    refine Finset.disjoint_left.mpr fun i hi hit => ?_
    obtain ⟨d, -, rfl⟩ := Finset.mem_image.mp hi
    exact ht _ hit _ (hf d).1 (hf d).2
  have hcard := Finset.card_le_univ (Finset.univ.image f ∪ t)
  rwa [Finset.card_union_of_disjoint hdisj, Finset.card_image_of_injective _ hinj,
    Finset.card_univ, Fintype.card_fin] at hcard

/-- With no more clients than seats, the seat that a client takes is one that nobody
    uses any more. -/
theorem Shop.RoomInv.freshSeat {s : Shop ι} (hI : s.RoomInv b cap)
    (hroom : Fintype.card ι ≤ cap) (l : Label ι) : FreshSeat b s l := by
  cases l with
  | barber => trivial
  | client i id =>
    intro my hmy j hu
    obtain ⟨w, hpc⟩ : ∃ w, (s.client i).pc = .writeSeat my w := by
      cases hp : (s.client i).pc <;> simp_all [ClientPc.writes]
    have hok := hI.mx.clients i
    rw [hpc] at hok
    obtain ⟨hlt, h0, hend⟩ := hok
    have hcount := hI.mx.bounds.count
    obtain ⟨hbar, hcl⟩ := hI.mx.client_alone (i := i) (by rw [hpc]; rfl)
    have hP : s.barber.pc.popping = 0 := Nat.le_zero.mp (hbar ▸ s.barber.pc.popping_le_holds)
    have hU : weigh (fun c => c.pc.unwritten) s.client = 1 := by
      rw [hcl _ ClientPc.unwritten_le_holds, hpc]; rfl
    have hV : weigh (fun c => c.pc.pushing) s.client = 0 := by
      rw [hcl _ ClientPc.pushing_le_holds, hpc]; rfl
    have hends : (my + 1) % cap = (s.mem.bs.wrStart + s.mem.bs.wrCount) % cap := by
      have he := hI.seats.ends
      simpa only [Shop.EndsOk, hP, hV, hend, Nat.add_zero, Nat.ModEq, Nat.mod_mod] using he
    have hlast := ring_last hlt h0 hends
    by_cases hwait : (s.client j).pc.Waits my ∧ s.mem.call j = 0
    · -- the seat is not in the queue yet
      obtain h1 | ⟨d, hd, hk⟩ | hpop := hI.seats.waits j my hwait.1
      · omega
      · exact ring_inj (show d < s.mem.bs.wrCount - 1 by omega) (by omega) (hk.symm.trans hlast)
      · cases hb : s.barber.pc <;> simp_all [BarberPc.Popped, BarberPc.holds]
    · -- every other seat is taken, and neither `i` nor `j` waits in one
      have hj : ∀ k, (s.client j).pc.Waits k → s.mem.call j ≠ 0 := by
        intro k hk hc
        obtain rfl : my = k := Option.some.inj (hu.symm.trans hk.uses)
        exact hwait ⟨hk, hc⟩
      have hstart := hI.last j my hu fun hk => by
        have h2 : s.mem.call j ≤ 1 := by unfold Shared.call; split <;> simp
        have h1 := hj my hk
        omega
      have hfull : s.mem.bs.wrCount = cap := by
        by_contra hne
        rw [← hstart] at hends
        exact ring_ne (hI.mx.bounds.start (by omega)) h0 (by omega) hends.symm
      have hij : i ≠ j := by
        rintro rfl
        rw [hpc] at hu
        cases hu
      have hcard := hI.seats.card_waiting (n := cap - 1) (t := {i, j}) (by omega)
        (fun d hd => ⟨d, by omega, rfl⟩) (by
          simp only [Finset.mem_insert, Finset.mem_singleton]
          rintro i' (rfl | rfl)
          · intro k hk
            rw [hpc] at hk
            exact hk.elim
          · exact hj)
      rw [Finset.card_pair hij] at hcard
      omega

/-- With no more clients than seats, there is a seat for everybody. -/
theorem Shop.RoomInv.not_full {s : Shop ι} (hI : s.RoomInv b cap)
    (hroom : Fintype.card ι ≤ cap) {i : ι} (hpc : (s.client i).pc = .pushTest) :
    s.mem.bs.wrCount < cap := by
  by_contra hfull
  obtain ⟨hbar, hcl⟩ := hI.mx.client_alone (i := i) (by rw [hpc]; rfl)
  have hP : s.barber.pc.popping = 0 := Nat.le_zero.mp (hbar ▸ s.barber.pc.popping_le_holds)
  have hU : weigh (fun c => c.pc.unwritten) s.client = 0 := by
    rw [hcl _ ClientPc.unwritten_le_holds, hpc]; rfl
  have hcard := hI.seats.card_waiting (n := cap) (t := {i}) le_rfl
    (fun d hd => ⟨d, by omega, rfl⟩) (by
      simp only [Finset.mem_singleton]
      rintro i' rfl k hk
      rw [hpc] at hk
      exact hk.elim)
  rw [Finset.card_singleton] at hcard
  omega

/-! ## Every client is served -/

theorem Shop.RoomInv.step {s s' : Shop ι} {l : Label ι} (hroom : Fintype.card ι ≤ cap)
    (hI : s.RoomInv b cap) (hn : (shop b cap).next s l = some s') : s'.RoomInv b cap := by
  refine ⟨hI.mx.step hn, ?_, ?_⟩
  · have hfresh := hI.freshSeat hroom l
    obtain ⟨m', bar', -, hst, rfl⟩ | ⟨i, id, m', c', rfl, hst, rfl⟩ := shop_next_cases hn
    · exact hI.seats.barber_step hI.mx hst
    · exact hI.seats.client_step hI.mx hfresh hst
  · obtain ⟨m', bar', -, hst, rfl⟩ | ⟨i, id, m', c', -, hst, rfl⟩ := shop_next_cases hn
    · exact hI.barber_step hst
    · exact hI.client_step hst

omit [DecidableEq ι] [Fintype ι] in
/-- `1` while the client is in an iteration of its loop. -/
def ClientPc.busy : ClientPc → ℕ
  | .fork | .head | .exited => 0
  | _ => 1

/-- The client has not been turned away, and of the `n` haircuts it asked for it has
    had `completed`, may be having one, and is still to have `haircuts`. -/
structure Client.Account (n : ℕ) (c : Client) : Prop where
  total : c.completed + c.pc.busy + c.haircuts = n
  exited : c.pc = .exited → c.haircuts = 0
  seated : c.pc ≠ .fullPostMx

omit [Fintype ι] in
theorem Client.Account.step {n : ℕ} {i : ι} {id : ℕ} {m m' : Shared ι} {c c' : Client}
    (h : c.Account n) (hst : clientStep b cap i id m c = some (m', c'))
    (hfree : c.pc = .pushTest → m.bs.wrCount < cap) (hseat : c.pc.SeatOk b m i) :
    c'.Account n := by
  obtain ⟨htot, hex, hsd⟩ := h
  obtain ⟨pc, haircuts, completed⟩ := c
  cases pc with
  | pushTest =>
    have hlt := hfree rfl
    simp only [clientStep, if_neg (Nat.not_le.mpr hlt)] at hst
    cases hst
    exact ⟨htot, by simp, by simp⟩
  | fullPostMx => exact absurd rfl hsd
  | waitSeat my sem =>
    -- the set of the seat has not been removed
    obtain ⟨-, rfl, -, htok⟩ := hseat
    simp only [clientStep, show m.semValue (convTp b m.bs my) = some (m.call i) from htok] at hst
    split at hst
    · simp_all
    · cases hst
    · cases hst
      exact ⟨htot, by simp, by simp⟩
  | postGone =>
    cases hst
    exact ⟨by simp only [ClientPc.busy] at htot ⊢; omega, by simp, by simp⟩
  | head =>
    simp only [clientStep] at hst
    split at hst <;> cases hst
    · exact ⟨htot, fun _ => rfl, by simp⟩
    · exact ⟨by simp_all only [ClientPc.busy]; omega, by simp, by simp⟩
  | _ =>
    simp only [clientStep] at hst
    repeat' split at hst
    all_goals cases hst
    all_goals exact ⟨htot, by simp, by simp⟩

/-- A shop with as many seats as clients, at work. -/
structure Shop.AtWork (b : Build) (cap : ℕ) (n : ι → ℕ) (s : Shop ι) : Prop where
  room : s.RoomInv b cap
  account : ∀ i, (s.client i).Account (n i)

theorem Shop.Init.atWork {s : Shop ι} (h : s.Init) :
    s.AtWork b cap fun i => (s.client i).haircuts := by
  refine ⟨h.roomInv, fun i => ⟨?_, ?_, ?_⟩⟩
  · rw [h.completed i, h.pc i]
    simp [ClientPc.busy]
  · rw [h.pc i]
    simp
  · rw [h.pc i]
    simp

theorem Shop.AtWork.step {n : ι → ℕ} {s s' : Shop ι} {l : Label ι}
    (hroom : Fintype.card ι ≤ cap) (h : s.AtWork b cap n)
    (hn : (shop b cap).next s l = some s') : s'.AtWork b cap n := by
  refine ⟨h.room.step hroom hn, fun j => ?_⟩
  obtain ⟨m', bar', -, hst, rfl⟩ | ⟨i, id, m', c', -, hst, rfl⟩ := shop_next_cases hn
  · exact h.account j
  · by_cases hji : j = i
    · subst hji
      simpa using (h.account j).step hst (h.room.not_full hroom) (h.room.seats.seats j)
    · simpa [Function.update_of_ne hji] using h.account j

theorem Shop.AtWork.run {n : ι → ℕ} {s s' : Shop ι} {ls : List (Label ι)}
    (hroom : Fintype.card ι ≤ cap) (h : s.AtWork b cap n)
    (hr : (shop b cap).run ls s = some s') : s'.AtWork b cap n :=
  Machine.run_invariant (fun _ _ _ h hn => h.step hroom hn) h hr

/-- When no step is left, every client has had what it asked for. -/
theorem Shop.AtWork.served {n : ι → ℕ} {s : Shop ι} (h : s.AtWork b cap n)
    (hend : ¬(shop b cap).CanStep s) (i : ι) :
    (s.client i).pc = .exited ∧ (s.client i).completed = n i := by
  have hbarber : barberStep b cap s.mem s.barber = none := by
    by_contra hne
    obtain ⟨r, hr⟩ := Option.ne_none_iff_exists'.mp hne
    refine hend ⟨.barber, { s with mem := r.1, barber := r.2 }, ?_⟩
    simp only [shop, hr, Option.map_some]
  have hclient : ∀ j, ¬s.CanMove b cap j := by
    rintro j ⟨id, r, hr⟩
    refine hend ⟨.client j id, { s with mem := r.1, client := Function.update s.client j r.2 }, ?_⟩
    simp only [shop, if_neg h.room.seats.barber, hr, Option.map_some]
  have hexit : (s.client i).pc = .exited := by
    refine (h.room.seats.stuck h.room.mx ⟨hbarber, fun j _ => hclient j⟩ i).resolve_left ?_
    intro hpc
    refine hclient i ⟨0, (s.mem, { s.client i with pc := .head }), ?_⟩
    unfold clientStep
    rw [hpc]
  have hacc := h.account i
  have htot := hacc.total
  have h0 := hacc.exited hexit
  rw [hexit] at htot
  simp only [ClientPc.busy] at htot
  exact ⟨hexit, by omega⟩

/-- The shop closes: any run from the opening is bounded, nobody is ever turned away,
    and the run can go on until every client has had all its haircuts, which it has
    whenever the run cannot go on. -/
theorem closing_time (b : Build) {cap : ℕ} (hroom : Fintype.card ι ≤ cap) {s₀ s : Shop ι}
    (hinit : s₀.Init) {ls : List (Label ι)} (hr : (shop b cap).run ls s₀ = some s) :
    ls.length ≤ 11 + ∑ i, (2 + 40 * (s₀.client i).haircuts) ∧
    (∀ i, (s.client i).pc ≠ .fullPostMx) ∧
    (¬(shop b cap).CanStep s →
      ∀ i, (s.client i).pc = .exited ∧ (s.client i).completed = (s₀.client i).haircuts) ∧
    ∃ ls' s', (shop b cap).run ls' s = some s' ∧
      ∀ i, (s'.client i).pc = .exited ∧ (s'.client i).completed = (s₀.client i).haircuts := by
  have hwork := Shop.AtWork.run hroom hinit.atWork hr
  have hvar := shop_variant (ι := ι) b cap
  refine ⟨?_, fun i => (hwork.account i).seated, hwork.served, ?_⟩
  · have hlen := hvar.length_le trivial hr
    have hrank : s₀.rank = 11 + ∑ i, (2 + 40 * (s₀.client i).haircuts) := by
      simp only [Shop.rank, hinit.barber, hinit.bs, initializeBarber, BarberPc.rank, weigh,
        Client.rank, hinit.pc, ClientPc.rank]
      rfl
    have hgain : (ls.map fun _ => 0).sum = 0 := by simp
    rw [hgain, hrank] at hlen
    omega
  · obtain ⟨ls', s', -, hr', hend⟩ := hvar.exists_final (s := s) trivial
    refine ⟨ls', s', hr', (hwork.run hroom hr').served ?_⟩
    rintro ⟨l, t, ht⟩
    rw [hend l rfl] at ht
    cases ht

end

/-- Two clients, two seats, three haircuts each. -/
theorem closing_time_two : ∃ ls s',
    (shop .sysv 2).run ls (openShop fun _ : Fin 2 => 3) = some s' ∧
      ∀ i, (s'.client i).pc = .exited ∧ (s'.client i).completed = 3 :=
  (closing_time .sysv (by simp : Fintype.card (Fin 2) ≤ 2) (openShop_init fun _ => 3)
    (Machine.run_nil _)).2.2.2

end AghOs.Barber
