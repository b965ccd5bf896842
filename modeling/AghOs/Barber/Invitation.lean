import AghOs.Barber.Queue
import AghOs.Barber.Seats

/-!
# Invitations to the chair

A client takes a seat in the waiting room, the barber pops the seat and posts
its semaphore, and the client that waits there comes to the chair. The seat is
free for the next client from the moment it is popped, while the client that
was invited may not yet have passed its wait, and in the System V build may
still have to delete the semaphore it finds in the seat.

* `lost_invitation`: a client that takes the seat in between resets the
  semaphore, and everybody waits for ever.
* `invitation_kept`: in both builds, as long as every seat that is taken is one
  that nobody uses any more, no invitation is lost and nobody is left waiting.
-/

namespace AghOs.Barber

variable {ι : Type*} {b : Build} {cap : ℕ}

/-! ## Statements -/

/-- The client is on its way to its wait, or in it, and the semaphore it waits
    on has a token. -/
def ClientPc.CanPass (b : Build) (m : Shared ι) : ClientPc → Prop
  | .postMx my | .convWaiting my => ∃ v, m.token b my = some (v + 1)
  | .waitSeat _ sem => ∃ v, m.semValue sem = some (v + 1)
  | _ => False

variable [DecidableEq ι]

/-- Client `j` can take a step. -/
def Shop.CanMove (b : Build) (cap : ℕ) (s : Shop ι) (j : ι) : Prop :=
  ∃ id r, clientStep b cap j id s.mem (s.client j) = some r

/-- The barber and every client that has been forked are blocked, or have
    exited. -/
def Shop.Stuck (b : Build) (cap : ℕ) (s : Shop ι) : Prop :=
  barberStep b cap s.mem s.barber = none ∧
    ∀ j, (s.client j).pc ≠ .fork → ¬s.CanMove b cap j

/-- No invitation is lost: the client whose seat the barber posted last can
    pass its wait; the barber is not blocked on `sem_customer_ready` while every
    client is blocked; and when everybody is blocked, no client is waiting for
    anything: all have exited. -/
structure Shop.NoLostInvitation (b : Build) (cap : ℕ) (s : Shop ι) : Prop where
  invited : ∀ seat, s.mem.invited = some seat →
    ∃ j, seat.pid = some j ∧ (s.client j).pc.CanPass b s.mem
  served : s.barber.pc = .waitCustomer ∨ s.barber.pc = .waitGone →
    s.mem.bs.semCustomerReady = 0 → ∃ j, (s.client j).pc ≠ .fork ∧ s.CanMove b cap j
  stuck : s.Stuck b cap → ∀ j, (s.client j).pc = .fork ∨ (s.client j).pc = .exited

/-- The seat that the client writes in its next step (`*my_seat = new_seat()`). -/
def ClientPc.writes : ClientPc → Option ℕ
  | .writeSeat my _ => some my
  | _ => none

/-- When a client writes the seat it has pushed, no other client still uses
    that seat. -/
def FreshSeat (b : Build) (s : Shop ι) : Label ι → Prop
  | .barber => True
  | .client i _ => ∀ my ∈ (s.client i).pc.writes, ∀ j, (s.client j).pc.uses b ≠ some my

instance [Fintype ι] (s : Shop ι) : (l : Label ι) → Decidable (FreshSeat b s l)
  | .barber => .isTrue trivial
  | .client i _ =>
    inferInstanceAs (Decidable
      (∀ my ∈ (s.client i).pc.writes, ∀ j, (s.client j).pc.uses b ≠ some my))

omit [DecidableEq ι] in
theorem FreshSeat.ne {s : Shop ι} {i : ι} {id my w : ℕ} (h : FreshSeat b s (.client i id))
    (hpc : (s.client i).pc = .writeSeat my w) (j : ι) : (s.client j).pc.uses b ≠ some my :=
  h my (by rw [hpc]; rfl) j

/-! ## The invariant -/

/-- In the System V build the barber posts the set whose identifier is in the
    seat. -/
def BarberPc.SemOk (b : Build) (bs : BarberShopMem ι) : BarberPc → Prop
  | .postWaiting next sem => sem = convTp b bs next
  | _ => True

variable [Fintype ι]

/-- What holds between two steps as long as only fresh seats are written. Every
    seat in the queue, and the seat the barber has popped, is that of a client
    that waits there and is not invited; a waiting client that is not invited
    is in one of these seats. -/
structure Shop.SeatInv (b : Build) (cap : ℕ) (s : Shop ι) : Prop where
  chair : (s.chair s.mem.pending).Ok False
  ends : s.EndsOk cap
  finite : {id | s.mem.sems id ≠ none}.Finite
  seats : ∀ i, (s.client i).pc.SeatOk b s.mem i
  useOne : ∀ i j k, (s.client i).pc.uses b = some k → (s.client j).pc.uses b = some k → i = j
  ownOne : b = .sysv → ∀ i j id, (s.client i).pc.Owns s.mem.bs id →
    (s.client j).pc.Owns s.mem.bs id → i = j
  sem : s.barber.pc.SemOk b s.mem.bs
  barber : s.barber.pc ≠ .exited
  invited : ∀ seat, s.mem.invited = some seat →
    ∃ j k, seat.pid = some j ∧ (s.client j).pc.Waits k
  queued : ∀ k, s.InQueue cap k ∨ s.barber.pc.Popped k →
    ∃ j, (s.client j).pc.Waits k ∧ s.mem.call j = 0
  waits : ∀ j k, (s.client j).pc.Waits k →
    s.mem.call j = 1 ∨ s.InQueue cap k ∨ s.barber.pc.Popped k

theorem Shop.Init.seatInv {s : Shop ι} (h : s.Init) : s.SeatInv b cap := by
  have hpend : s.mem.pending = 0 := by simp [Shared.pending, h.invited]
  refine ⟨hpend ▸ h.chair_ok, h.endsOk, h.sems, fun i => ?_, fun i j k hi => ?_,
    fun _ i j k hi => ?_, ?_, ?_, fun seat hs => ?_, fun k hk => ?_, fun j k hj => ?_⟩
  · rw [h.pc i]
    exact ⟨fun _ _ ho => ho.elim, trivial⟩
  · rw [h.pc i] at hi; cases hi
  · rw [h.pc i] at hi; exact hi.elim
  · rw [h.barber]; trivial
  · simp [h.barber]
  · rw [h.invited] at hs; cases hs
  · rcases hk with hk | hk
    · exact absurd hk (h.not_inQueue k)
    · rw [h.barber] at hk; exact hk.elim
  · rw [h.pc j] at hj; exact hj.elim

/-- A client that waits in a seat is the one whose process id the seat holds. -/
theorem Shop.SeatInv.pid {s : Shop ι} (hI : s.SeatInv b cap) {j : ι} {k : ℕ}
    (h : (s.client j).pc.Waits k) : (s.mem.bs.waitingRoom k).pid = some j :=
  ((hI.seats j).waits h).1

/-- Nobody is invited while the barber chooses. -/
theorem Shop.SeatInv.choosing {s : Shop ι} (hI : s.SeatInv b cap)
    (h : s.barber.pc.phase = .choosing) : s.mem.invited = none := by
  have hc := hI.chair.counts
  simp only [Chair.Counts, Shop.chair, Shared.chair, h, Shared.pending] at hc
  cases hi : s.mem.invited with
  | none => rfl
  | some seat => simp [hi] at hc

/-- The semaphore of the seat that the barber has popped has no token yet. -/
theorem Shop.SeatInv.postWaiting {s : Shop ι} (hI : s.SeatInv b cap) {next : ℕ} {sem : SemaphoreP}
    (h : s.barber.pc = .postWaiting next sem) :
    sem = convTp b s.mem.bs next ∧ s.mem.token b next = some 0 := by
  have hsem := hI.sem
  rw [h] at hsem
  obtain ⟨j, hw, hc⟩ := hI.queued next (.inr (by rw [h]; rfl))
  exact ⟨hsem, hc ▸ ((hI.seats j).waits hw).2⟩

/-! ### The barber's steps -/

omit [Fintype ι] [DecidableEq ι] in
/-- The barber touches the seats only when he posts the semaphore of the seat
    that he has popped. -/
theorem barberStep_seats {m m' : Shared ι} {s s' : BarberState}
    (h : barberStep b cap m s = some (m', s'))
    (hv : ∀ next sem, s.pc = .postWaiting next sem →
      sem = convTp b m.bs next ∧ m.token b next = some 0) :
    ((∀ next sem, s.pc ≠ .postWaiting next sem) ∧ m'.bs.waitingRoom = m.bs.waitingRoom ∧
      m'.sems = m.sems ∧ m'.invited = m.invited ∧ s'.pc ≠ .exited ∧
      (s.pc.SemOk b m.bs → s'.pc.SemOk b m'.bs) ∧
      s.pc.phase.Calls s'.pc.phase m.pending m.pending) ∨
    ∃ next sem, s.pc = .postWaiting next sem ∧ m' = m.posted b next ∧ s'.pc = .postMx := by
  obtain ⟨pc, cycles⟩ := s
  cases pc with
  | postWaiting next sem =>
    obtain ⟨rfl, htok⟩ := hv next sem rfl
    simp only [barberStep, show m.semValue (convTp b m.bs next) = some 0 from htok] at h
    cases h
    exact .inr ⟨_, _, rfl, rfl, rfl⟩
  | convWaiting next => cases h; exact .inl ⟨by simp, rfl, rfl, rfl, by simp, fun _ => rfl, rfl⟩
  | _ =>
    simp only [barberStep] at h
    repeat' split at h
    all_goals cases h
    all_goals exact .inl ⟨by simp, rfl, rfl, rfl, by simp, fun _ => trivial, rfl⟩

/-- No set gets a second owner in a step that leaves the owners as they were. -/
theorem Shop.SeatInv.ownOne_congr {s : Shop ι} {m' : Shared ι} (hI : s.SeatInv b cap)
    (hown : ∀ j, b = .sysv → ∀ id,
      (s.client j).pc.Owns m'.bs id ↔ (s.client j).pc.Owns s.mem.bs id)
    (hb : b = .sysv) (i j : ι) (id : ℕ) (hi : (s.client i).pc.Owns m'.bs id)
    (hj : (s.client j).pc.Owns m'.bs id) : i = j :=
  hI.ownOne hb i j id ((hown i hb id).mp hi) ((hown j hb id).mp hj)

/-- Posting the semaphore of the seat of client `i` leaves what each client relies on. -/
theorem Shop.SeatInv.posted {s : Shop ι} {i : ι} {next : ℕ} (hI : s.SeatInv b cap)
    (hw : (s.client i).pc.Waits next) (hnone : s.mem.invited = none) (j : ι) :
    (s.client j).pc.SeatOk b (s.mem.posted b next) j ∧
      (b = .sysv → ∀ id, (s.client j).pc.Owns (s.mem.posted b next).bs id ↔
        (s.client j).pc.Owns s.mem.bs id) := by
  by_cases hji : j = i
  · subst hji
    exact (hI.seats j).posted hw
  · have huse : (s.client j).pc.uses b ≠ some next :=
      fun hu => hji (hI.useOne j i next hu hw.uses)
    exact (hI.seats j).of_posted (hI.seats i) hw hji huse hnone
      fun hb id h1 h2 => hji (hI.ownOne hb j i id h2 h1)

theorem Shop.SeatInv.barber_step {s : Shop ι} {m' : Shared ι} {bar' : BarberState}
    (hmx : s.MxInv cap) (hI : s.SeatInv b cap)
    (hst : barberStep b cap s.mem s.barber = some (m', bar')) :
    Shop.SeatInv b cap { s with mem := m', barber := bar' } := by
  have hq := Shop.queue_barber hmx hst
  have hch := barberStep_barberChair hst
  have hends := hI.ends.barber hmx.barber hst
  obtain ⟨hpc, hr, hs, hi, hex, hsem, hcalls⟩ | ⟨next, sem, hpc, rfl, hpc'⟩ :=
    barberStep_seats hst fun _ _ => hI.postWaiting
  · -- the seats are as they were
    have hcall := Shared.call_congr hi
    have hpend : m'.pending = s.mem.pending := by simp [Shared.pending, hi]
    have hfr : ∀ j, (s.client j).pc.SeatOk b m' j ∧
        (b = .sysv → ∀ id, (s.client j).pc.Owns m'.bs id ↔ (s.client j).pc.Owns s.mem.bs id) :=
      fun j => (hI.seats j).frame (fun k _ => by rw [hr]) (fun _ id _ => by rw [hs]) (fun _ => hch)
        (hcall j)
    refine ⟨Shop.chair_barber hst (by rw [hpend]; exact hcalls) hI.chair, hends,
      by rw [hs]; exact hI.finite, fun i => (hfr i).1, hI.useOne,
      hI.ownOne_congr fun j => (hfr j).2, hsem hI.sem, hex, ?_, ?_, ?_⟩
    · rw [hi]; exact hI.invited
    · intro k hk
      simp only [hcall]
      refine hI.queued k ?_
      rcases hk with hk | hk
      · exact .inl ((hq k).1 hk)
      · exact ((hq k).2.1 hk).symm
    · intro j k hj
      simp only [hcall]
      obtain h | h | h := hI.waits j k hj
      · exact .inl h
      · exact .inr ((hq k).2.2.1 h)
      · obtain h | ⟨sem, h⟩ := (hq k).2.2.2 h
        · exact .inr (.inr h)
        · exact absurd h (hpc k sem)
  · -- the client in seat `next` is invited
    have hphase : s.barber.pc.phase = .choosing := by rw [hpc]; rfl
    have hnone := hI.choosing hphase
    have hpop : s.barber.pc.Popped next := by rw [hpc]; rfl
    obtain ⟨i, hw, hc⟩ := hI.queued next (.inr hpop)
    have hcalls : s.barber.pc.phase.Calls bar'.pc.phase s.mem.pending
        (s.mem.posted b next).pending := by
      rw [hphase, hpc']
      simp [Phase.Calls, BarberPc.phase, Shared.pending, Shared.posted, hnone]
    have hfr := hI.posted hw hnone
    have hpid := hI.pid hw
    refine ⟨Shop.chair_barber hst hcalls hI.chair, hends, ?_,
      fun j => (hfr j).1, hI.useOne, hI.ownOne_congr fun j => (hfr j).2, ?_, ?_, ?_, ?_, ?_⟩
    · exact Shared.finite_setSem hI.finite _ _
    · simp [hpc', BarberPc.SemOk]
    · simp [hpc']
    · rintro seat hs
      cases hs
      exact ⟨i, next, hpid, hw⟩
    · rintro k hk
      have hk' : s.InQueue cap k := by
        rcases hk with hk | hk
        · exact (hq k).1 hk
        · rw [hpc'] at hk; exact hk.elim
      obtain ⟨j, hj, hcj⟩ := hI.queued k (.inl hk')
      refine ⟨j, hj, ?_⟩
      have hji : j ≠ i := by
        rintro rfl
        exact hmx.popped_not_inQueue hpop (hw.eq hj ▸ hk')
      simp [Shared.call, Shared.posted, hpid, hji.symm]
    · intro j k hj
      obtain h | h | h := hI.waits j k hj
      · simp [Shared.call, hnone] at h
      · obtain h | h := (hq k).2.2.1 h
        · exact .inr (.inl h)
        · exact .inr (.inr h)
      · left
        rw [hpc] at h
        cases h
        have : j = i := hI.useOne j i next hj.uses hw.uses
        simp [Shared.call, Shared.posted, hpid, this]

/-! ### The clients' steps -/

/-- A client does not change the identifier in the seat that the barber has
    popped. -/
theorem Shop.SeatInv.sem_client {s : Shop ι} {i : ι} {id : ℕ} {m' : Shared ι}
    (hI : s.SeatInv b cap) (heff : s.mem.Effect b i m' (s.client i).pc)
    (hfresh : FreshSeat b s (.client i id)) : s.barber.pc.SemOk b m'.bs := by
  have hsem := hI.sem
  have hpop := fun k hk => hI.queued k (.inr hk)
  cases hbar : s.barber.pc with
  | postWaiting next sem =>
    rw [hbar] at hsem hpop
    obtain ⟨j, hw, -⟩ := hpop next rfl
    change sem = convTp b s.mem.bs next at hsem
    change sem = convTp b m'.bs next
    rw [hsem]
    cases b with
    | posix => rfl
    | sysv =>
      have hroom : (m'.bs.waitingRoom next).waiting = (s.mem.bs.waitingRoom next).waiting := by
        have hi := hI.seats i
        cases heff with
        | take my w hpc hr _ _ =>
          rw [hr, Function.update_of_ne]
          rintro rfl
          exact hfresh.ne hpc j hw.uses
        | pass my sem v hpc _ hr _ _ =>
          rw [hpc] at hi
          obtain ⟨-, rfl, -⟩ := hi
          rw [hr]
          rfl
        | same hr _ _ | alloc _ _ _ hr _ _ | remove _ _ hr _ _ => rw [hr]
      simp [convTp, hroom]
  | _ => trivial

/-- A client that has yet to write its seat is not invited. -/
theorem Shop.SeatInv.call_writeSeat {s : Shop ι} {i : ι} {my w : ℕ} (hI : s.SeatInv b cap)
    (hpc : (s.client i).pc = .writeSeat my w) : s.mem.call i = 0 := by
  by_contra hc
  have hb : s.mem.invited.bind WrSeat.pid = some i := by
    by_contra hb
    simp [Shared.call, hb] at hc
  obtain ⟨seat, hseat, hpid⟩ := Option.bind_eq_some_iff.mp hb
  obtain ⟨j, k, hj, hw⟩ := hI.invited seat hseat
  obtain rfl : j = i := Option.some.inj (hj.symm.trans hpid)
  rw [hpc] at hw
  exact hw

/-- The step of a client leaves what the others rely on. -/
theorem Shop.SeatInv.others {s : Shop ι} {i j : ι} {id : ℕ} {m' : Shared ι} {c' : Client}
    (hI : s.SeatInv b cap) (hfresh : FreshSeat b s (.client i id))
    (hst : clientStep b cap i id s.mem (s.client i) = some (m', c')) (hji : j ≠ i) :
    (s.client j).pc.SeatOk b m' j ∧
      (b = .sysv → ∀ id, (s.client j).pc.Owns m'.bs id ↔ (s.client j).pc.Owns s.mem.bs id) := by
  refine (hI.seats j).of_effect (clientStep_effect hst) hji (hI.seats i)
    (fun k h1 h2 => hji (hI.useOne j i k h2 h1)) (fun my w hpc => hfresh.ne hpc j)
    (fun hb id h1 h2 => hji (hI.ownOne hb j i id h2 h1)) fun ho => ?_
  obtain hch | hat := clientStep_barberChair hst
  · exact hch
  · exact absurd (eq_of_weigh_le_one hI.chair.atChair_le_one ho.inChair.atChair hat) hji

/-- A waiting client that is not invited goes on waiting. -/
theorem Shop.SeatInv.keeps_waiting {s : Shop ι} {i : ι} {id k : ℕ} {m' : Shared ι} {c' : Client}
    (hI : s.SeatInv b cap)
    (hst : clientStep b cap i id s.mem (s.client i) = some (m', c'))
    (h : ∃ j, (s.client j).pc.Waits k ∧ s.mem.call j = 0) :
    ∃ j, (Function.update s.client i c' j).pc.Waits k ∧ m'.call j = 0 := by
  obtain ⟨j, hw, hc⟩ := h
  refine ⟨j, ?_, Nat.le_zero.mp (hc ▸ (clientStep_effect hst).call_le j)⟩
  by_cases hji : j = i
  · subst hji
    obtain h | ⟨h, -⟩ := clientStep_waits hst (hI.seats j) hw
    · simpa using h
    · omega
  · simpa [Function.update_of_ne hji] using hw

theorem Shop.SeatInv.client_step {s : Shop ι} {i : ι} {id : ℕ} {m' : Shared ι} {c' : Client}
    (hmx : s.MxInv cap) (hI : s.SeatInv b cap) (hfresh : FreshSeat b s (.client i id))
    (hst : clientStep b cap i id s.mem (s.client i) = some (m', c')) :
    Shop.SeatInv b cap { s with mem := m', client := Function.update s.client i c' } := by
  have hq := Shop.queue_client hmx hI.ends hst
  have heff := clientStep_effect hst
  obtain ⟨hci, hownc⟩ := clientStep_seatOk hst (hI.seats i) fun _ _ => hI.call_writeSeat
  have hfr := fun j (hji : j ≠ i) => hI.others hfresh hst hji
  refine ⟨Shop.chair_client hmx hst (clientStep_pending hst (hI.seats i)) hI.chair,
    hI.ends.client (hmx.clients i) hst, heff.finite hI.finite, fun j => ?_, fun j j' k => ?_,
    fun hb j j' k => ?_, ?_, hI.barber, fun seat hseat => ?_, fun k hk => ?_, fun j k hj => ?_⟩
  · by_cases hji : j = i
    · subst hji; simpa using hci
    · simpa [Function.update_of_ne hji] using (hfr j hji).1
  · refine unique_update (P := fun c : Client => c.pc.uses b = some k)
      (fun j j' _ _ h1 h2 => hI.useOne j j' k h1 h2) fun hu j hji hj => ?_
    obtain hu | ⟨w, hpc⟩ := clientStep_uses hst hu
    · exact hji (hI.useOne j i k hj hu)
    · exact hfresh.ne hpc j hj
  · refine unique_update (P := fun c : Client => c.pc.Owns m'.bs k) (fun j j' hj hj' h1 h2 => ?_)
      fun ho j hji hj => ?_
    · exact hI.ownOne hb j j' k (((hfr j hj).2 hb k).mp h1) (((hfr j' hj').2 hb k).mp h2)
    · have hj := ((hfr j hji).2 hb k).mp hj
      obtain ho | hn := hownc hb k ho
      · exact hji (hI.ownOne hb j i k hj ho)
      · exact (hI.seats j).1 hb k hj hn
  · exact hI.sem_client heff hfresh
  · obtain hi | ⟨hi, -⟩ := heff.invited
    · obtain ⟨j, k, hj, hw⟩ := hI.invited seat (hi ▸ hseat)
      refine ⟨j, k, hj, ?_⟩
      by_cases hji : j = i
      · subst hji
        obtain h | ⟨-, h⟩ := clientStep_waits hst (hI.seats j) hw
        · simpa using h
        · simp only [h] at hseat; cases hseat
      · simpa [Function.update_of_ne hji] using hw
    · simp only [hi] at hseat; cases hseat
  · rcases hk with hk | hk
    · obtain hk | ⟨w, hpc⟩ := (hq k).mp hk
      · exact hI.keeps_waiting hst (hI.queued k (.inl hk))
      · have hc := hI.call_writeSeat hpc
        refine ⟨i, ?_, Nat.le_zero.mp (hc ▸ heff.call_le i)⟩
        unfold clientStep at hst
        simp only [hpc] at hst
        cases hst
        simp [ClientPc.Waits]
    · exact hI.keeps_waiting hst (hI.queued k (.inr hk))
  · have hin : s.InQueue cap k ∨ s.barber.pc.Popped k →
        Shop.InQueue cap { s with mem := m', client := Function.update s.client i c' } k ∨
          s.barber.pc.Popped k := fun h => h.imp_left fun h => (hq k).mpr (.inl h)
    by_cases hji : j = i
    · subst hji
      simp only [Function.update_self] at hj
      obtain ⟨hi, hw | ⟨w, hpc⟩⟩ := clientStep_waits_of hst hj
      · exact (hI.waits j k hw).imp (fun h => (Shared.call_congr hi j).trans h) hin
      · exact .inr (.inl ((hq k).mpr (.inr ⟨w, hpc⟩)))
    · simp only [Function.update_of_ne hji] at hj
      exact (hI.waits j k hj).imp (fun h => (heff.call_of_ne hji).trans h) hin

theorem reach_seatInv {s : Shop ι} (h : (shop b cap).ReachIf (FreshSeat b) s) :
    s.SeatInv b cap := by
  refine Machine.ReachIf.invariant_of h (fun _ => reach_mxInv) (fun _ => Shop.Init.seatInv) ?_
  intro s l s' hmx _ hI hfresh hn
  obtain ⟨m', bar', -, hst, rfl⟩ | ⟨i, id, m', c', rfl, hst, rfl⟩ := shop_next_cases hn
  · exact hI.barber_step hmx hst
  · exact hI.client_step hmx hfresh hst

/-! ## Who is blocked -/

omit [DecidableEq ι] [Fintype ι] in
theorem barberStep_blocked {m : Shared ι} {s : BarberState} (h : barberStep b cap m s = none) :
    s.pc = .lockMx ∧ m.bs.mxWaitingRoom = 0 ∨ s.pc = .waitSleeping ∧ m.bs.semBarberSleeping = 0 ∨
      (s.pc = .waitCustomer ∨ s.pc = .waitGone) ∧ m.bs.semCustomerReady = 0 ∨ s.pc = .exited := by
  obtain ⟨pc, cycles⟩ := s
  unfold barberStep at h
  repeat' split at h
  all_goals first
    | cases h; done
    | simp_all

omit [Fintype ι] in
theorem clientStep_blocked {i : ι} {m : Shared ι} {c : Client} (hid : ∃ id, m.sems id = none)
    (h : ∀ id, clientStep b cap i id m c = none) :
    c.pc = .lockMx ∧ m.bs.mxWaitingRoom = 0 ∨
      (∃ my sem, c.pc = .waitSeat my sem ∧ m.semValue sem = some 0) ∨
      c.pc = .waitReady ∧ m.bs.semBarberReady = 0 ∨ c.pc = .exited := by
  obtain ⟨id, hid⟩ := hid
  have h := h id
  obtain ⟨pc, haircuts, completed⟩ := c
  cases pc with
  | newSeat my | newChair my => cases b <;> simp [clientStep, newSeatSem, hid] at h
  | waitSeat my sem =>
    simp only [clientStep] at h
    split at h <;> cases h
    exact .inr (.inl ⟨my, sem, rfl, ‹_›⟩)
  | _ =>
    simp only [clientStep] at h
    repeat' split at h
    all_goals first
      | cases h; done
      | simp_all

/-- A client that cannot move waits for the mutex, in its seat without being
    invited, or for the barber, or has exited. -/
theorem Shop.SeatInv.blocked {s : Shop ι} (hI : s.SeatInv b cap) {j : ι} (h : ¬s.CanMove b cap j) :
    (s.client j).pc = .lockMx ∧ s.mem.bs.mxWaitingRoom = 0 ∨
      (∃ my sem, (s.client j).pc = .waitSeat my sem ∧ s.mem.call j = 0) ∨
      (s.client j).pc = .waitReady ∧ s.mem.bs.semBarberReady = 0 ∨ (s.client j).pc = .exited := by
  have hnone : ∀ id, clientStep b cap j id s.mem (s.client j) = none := by
    intro id
    by_contra hne
    obtain ⟨r, hr⟩ := Option.ne_none_iff_exists'.mp hne
    exact h ⟨id, r, hr⟩
  have hid : ∃ id, s.mem.sems id = none := by
    obtain ⟨id, hid⟩ := hI.finite.exists_notMem
    exact ⟨id, by simpa using hid⟩
  refine (clientStep_blocked hid hnone).imp_right (Or.imp_left ?_)
  rintro ⟨my, sem, hpc, hv⟩
  have hok := hI.seats j
  rw [hpc] at hok
  obtain ⟨-, rfl, -, htok⟩ := hok
  have : some 0 = some (s.mem.call j) := hv.symm.trans htok
  exact ⟨my, _, hpc, (Option.some.inj this).symm⟩

/-- A client at the chair can move, unless it waits for the barber. -/
theorem Shop.SeatInv.canMove {s : Shop ι} (hI : s.SeatInv b cap) (st : Stage)
    (hst : st ≠ .idle) (hready : st = .seated → s.mem.bs.semBarberReady ≠ 0)
    (h : 0 < weigh (Client.inStage st) s.client) :
    ∃ j, (s.client j).pc ≠ .fork ∧ s.CanMove b cap j := by
  obtain ⟨j, hj⟩ := weigh_pos_iff.mp h
  have hj : (s.client j).pc.stage = st := by
    by_contra hne
    simp [Client.inStage, Ne.symm hne] at hj
  refine ⟨j, ?_, ?_⟩
  · intro hpc
    rw [hpc] at hj
    exact hst hj.symm
  · by_contra hb
    obtain ⟨hpc, -⟩ | ⟨my, sem, hpc, -⟩ | ⟨hpc, hr⟩ | hpc := hI.blocked hb <;> rw [hpc] at hj
    · exact hst hj.symm
    · exact hst hj.symm
    · exact hready hj.symm hr
    · exact hst hj.symm

/-- Somebody holds the mutex and can move, or it is free. -/
theorem Shop.SeatInv.mutex {s : Shop ι} (hmx : s.MxInv cap) (hI : s.SeatInv b cap)
    (hb : s.barber.pc.holds = 0) (h0 : s.mem.bs.mxWaitingRoom = 0) :
    ∃ j, (s.client j).pc ≠ .fork ∧ s.CanMove b cap j := by
  have hone := hmx.one
  obtain ⟨j, hj⟩ := weigh_pos_iff.mp
    (show 0 < weigh (fun c : Client => c.pc.holds) s.client by omega)
  refine ⟨j, fun hpc => ?_, ?_⟩
  · simp [hpc, ClientPc.holds] at hj
  · by_contra hc
    obtain ⟨hpc, -⟩ | ⟨my, sem, hpc, -⟩ | ⟨hpc, -⟩ | hpc := hI.blocked hc <;>
      simp [hpc, ClientPc.holds] at hj

/-- The client that is invited can pass its wait. -/
theorem Shop.SeatInv.canPass {s : Shop ι} (hI : s.SeatInv b cap) {seat : WrSeat ι}
    (h : s.mem.invited = some seat) :
    ∃ j, seat.pid = some j ∧ (s.client j).pc.CanPass b s.mem := by
  obtain ⟨j, k, hj, hw⟩ := hI.invited seat h
  refine ⟨j, hj, ?_⟩
  have hc : s.mem.call j = 1 := by simp [Shared.call, h, hj]
  have hok := hI.seats j
  have htok := (hok.waits hw).2
  rw [hc] at htok
  cases hpc : (s.client j).pc with
  | postMx my | convWaiting my => rw [hpc] at hw; cases hw; exact ⟨0, htok⟩
  | waitSeat my sem =>
    rw [hpc] at hw hok
    cases hw
    exact ⟨0, hok.2.1 ▸ htok⟩
  | _ => rw [hpc] at hw; exact hw.elim

theorem ClientPc.CanPass.canMove {s : Shop ι} {j : ι} (hI : s.SeatInv b cap)
    (h : (s.client j).pc.CanPass b s.mem) : (s.client j).pc ≠ .fork ∧ s.CanMove b cap j := by
  refine ⟨fun hpc => by rw [hpc] at h; exact h, ?_⟩
  by_contra hb
  obtain ⟨hpc, -⟩ | ⟨my, sem, hpc, hc⟩ | ⟨hpc, -⟩ | hpc := hI.blocked hb
  · rw [hpc] at h; exact h
  · have hok := hI.seats j
    rw [hpc] at h hok
    obtain ⟨v, hv⟩ := h
    obtain ⟨-, rfl, -, htok⟩ := hok
    have : some (v + 1) = some (s.mem.call j) := hv.symm.trans htok
    simp [hc] at this
  · rw [hpc] at h; exact h
  · rw [hpc] at h; exact h

/-- The barber is not left waiting for a customer. -/
theorem Shop.SeatInv.served {s : Shop ι} (hI : s.SeatInv b cap)
    (hb : s.barber.pc = .waitCustomer ∨ s.barber.pc = .waitGone)
    (h0 : s.mem.bs.semCustomerReady = 0) :
    ∃ j, (s.client j).pc ≠ .fork ∧ s.CanMove b cap j := by
  have hc := hI.chair.counts
  rcases hb with hb | hb
  · have ho := hI.chair.owed id (by rw [Shop.chair, Shared.chair, hb]; rfl)
    simp only [Chair.Counts, Shop.chair, Shared.chair, hb, BarberPc.phase] at hc ho
    by_cases hcom : 0 < weigh (Client.inStage .coming) s.client
    · exact hI.canMove .coming (by simp) (by simp) hcom
    · have hp : s.mem.pending = 1 := by omega
      cases hi : s.mem.invited with
      | none => simp [Shared.pending, hi] at hp
      | some seat =>
        obtain ⟨j, -, hj⟩ := hI.canPass hi
        exact ⟨j, hj.canMove hI⟩
  · simp only [Chair.Counts, Shop.chair, Shared.chair, hb, BarberPc.phase] at hc
    by_cases hg : 0 < weigh (Client.inStage .going) s.client
    · exact hI.canMove .going (by simp) (by simp) hg
    · exact hI.canMove .seated (by simp) (fun _ => by omega) (by omega)

/-- When everybody is blocked, every client that was forked has exited. -/
theorem Shop.SeatInv.stuck {s : Shop ι} (hmx : s.MxInv cap) (hI : s.SeatInv b cap)
    (h : s.Stuck b cap) (j : ι) : (s.client j).pc = .fork ∨ (s.client j).pc = .exited := by
  have hno : ¬∃ j, (s.client j).pc ≠ .fork ∧ s.CanMove b cap j :=
    fun ⟨j, hf, hj⟩ => h.2 j hf hj
  obtain ⟨hb, h0⟩ | ⟨hb, h0⟩ | ⟨hb, h0⟩ | hb := barberStep_blocked h.1
  · exact absurd (hI.mutex hmx (by rw [hb]; rfl) h0) hno
  · -- the barber sleeps, so the waiting room is empty and nobody is at the chair
    have hc := hI.chair.counts
    simp only [Chair.Counts, Shop.chair, Shared.chair, hb, BarberPc.phase] at hc
    have hwaking : weigh (Client.inStage .waking) s.client = 0 := by
      by_contra hne
      exact hno (hI.canMove .waking (by simp) (by simp) (Nat.pos_of_ne_zero hne))
    have hsleep : s.mem.bs.barberSleeping = true := by
      cases hs : s.mem.bs.barberSleeping with
      | true => rfl
      | false => simp only [hs, Bool.toNat_false] at hc; omega
    have hempty := hmx.bounds.asleep hsleep
    by_cases hf : (s.client j).pc = .fork
    · exact .inl hf
    obtain ⟨-, h1⟩ | ⟨my, sem, hpc, hcall⟩ | ⟨hpc, -⟩ | hpc := hI.blocked (h.2 j hf)
    · exact absurd (hI.mutex hmx (by rw [hb]; rfl) h1) hno
    · obtain hw | ⟨d, hd, -⟩ | hw := hI.waits j my (by rw [hpc]; rfl)
      · omega
      · omega
      · rw [hb] at hw; exact hw.elim
    · have hseat := le_weigh (Client.inStage .seated) s.client j
      have : Client.inStage .seated (s.client j) = 1 := by
        simp [Client.inStage, hpc, ClientPc.stage]
      omega
    · exact .inr hpc
  · exact absurd (hI.served hb h0) hno
  · exact absurd hb hI.barber

/-- **A lost invitation.** One seat, two clients, one haircut each: the first
    client is invited and about to wait when the second takes its seat and
    resets the semaphore. -/
theorem lost_invitation : ∃ s : Shop (Fin 2), (shop .posix 1).Reach s ∧
    s.barber.pc = .waitCustomer ∧ (∀ i, (s.client i).pc = .waitSeat 0 (.seat 0)) ∧
    s.Stuck .posix 1 ∧ ¬s.NoLostInvitation .posix 1 := by
  obtain ⟨s, hr, hs⟩ := Machine.Reach.of_run (M := shop .posix 1)
    (List.replicate 13 (.client (0 : Fin 2) 0) ++ List.replicate 11 .barber ++
      List.replicate 14 (.client 1 0) ++ [.client 0 0])
    (fun s => (s.barber.pc, s.mem.bs.semCustomerReady, (s.mem.bs.waitingRoom 0).waiting,
      (s.client 0).pc, (s.client 1).pc))
    (.waitCustomer, 0, 0, .waitSeat 0 (.seat 0), .waitSeat 0 (.seat 0))
    (openShop_init fun _ => 1) rfl
  simp only [Prod.mk.injEq] at hs
  obtain ⟨hb, hc, hw, h0, h1⟩ := hs
  have hpc : ∀ i, (s.client i).pc = .waitSeat 0 (.seat 0) := Fin.forall_fin_two.mpr ⟨h0, h1⟩
  have hstuck : s.Stuck .posix 1 := by
    refine ⟨by simp [barberStep, hb, hc], fun j _ => ?_⟩
    rintro ⟨id, r, hr⟩
    simp [clientStep, hpc j, Shared.semValue, hw] at hr
  refine ⟨s, hr, hb, hpc, hstuck, fun h => ?_⟩
  have hj := h.stuck hstuck 0
  simp [hpc 0] at hj

/-- **No lost invitation.** In both builds, in every run in which every seat
    that a client writes is one that no other client still uses. -/
theorem invitation_kept {s : Shop ι} (h : (shop b cap).ReachIf (FreshSeat b) s) :
    s.NoLostInvitation b cap := by
  have hmx := reach_mxInv h
  have hI := reach_seatInv h
  exact ⟨fun _ => hI.canPass, hI.served, hI.stuck hmx⟩

/-- The second client takes the seat after the first has passed its wait, and
    is invited in its turn. -/
theorem invitation_kept_twice : ∃ s : Shop (Fin 2), s.mem.invited.isSome ∧
    s.NoLostInvitation .posix 1 := by
  obtain ⟨s, hr, hs⟩ := Machine.ReachIf.of_runIf (M := shop .posix 1) (C := FreshSeat .posix)
    (List.replicate 13 (.client (0 : Fin 2) 0) ++ List.replicate 11 .barber ++
      List.replicate 6 (.client 0 0) ++ List.replicate 13 (.client 1 0) ++
      List.replicate 4 .barber ++ List.replicate 4 (.client 0 0) ++ List.replicate 11 .barber)
    (fun s => s.mem.invited.isSome) true (openShop_init fun _ => 1) rfl
  exact ⟨s, hs, invitation_kept hr⟩

end AghOs.Barber
