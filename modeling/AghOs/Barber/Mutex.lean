import AghOs.Barber.Shop
import AghOs.Machine.Threads
import Mathlib.Tactic.Common

/-!
# The mutex of the waiting room

`mx_waiting_room` is held by at most one process, and what it protects
(`barber_sleeping`, `wr_count`, `wr_start`, `wr_end`) is what its holder has
read: `Shop.MxInv`, which holds in every reachable state (`reach_mxInv`). In
particular the barber sleeps only in front of an empty waiting room.
-/

namespace AghOs.Barber

variable {ι : Type*} {b : Build} {cap : ℕ}

/-- `1` while the barber holds the mutex of the waiting room. -/
def BarberPc.holds : BarberPc → ℕ
  | .popTest | .popSeat | .popReadStart _ | .popWriteStart _ _ | .popReadCount _
  | .popWriteCount _ _ | .logInvite _ | .convWaiting _ | .postWaiting _ _ | .postMx
  | .setSleeping | .sleepPostMx | .exited => 1
  | _ => 0

/-- `1` while the client holds the mutex of the waiting room. -/
def ClientPc.holds : ClientPc → ℕ
  | .readSleeping | .clearSleeping | .postSleeping | .wakePostMx | .pushTest | .fullPostMx
  | .pushSeat | .pushReadEnd _ | .pushWriteEnd _ _ | .pushReadCount _ | .pushWriteCount _ _
  | .newSeat _ | .writeSeat _ _ | .postMx _ => 1
  | _ => 0

/-- What the barber knows about the waiting room at each point of `wr_pop`. -/
def BarberPc.Ok (cap : ℕ) (bs : BarberShopMem ι) : BarberPc → Prop
  | .setSleeping => bs.wrCount = 0
  | .popSeat => 0 < bs.wrCount
  | .popReadStart next => 0 < bs.wrCount ∧ next = bs.wrStart
  | .popWriteStart next start => 0 < bs.wrCount ∧ next = bs.wrStart ∧ start = bs.wrStart
  | .popReadCount next => 0 < bs.wrCount ∧ next < cap ∧ bs.wrStart = (next + 1) % cap
  | .popWriteCount next count =>
    0 < bs.wrCount ∧ next < cap ∧ bs.wrStart = (next + 1) % cap ∧ count = bs.wrCount
  | .logInvite next | .convWaiting next | .postWaiting next _ =>
    next < cap ∧ bs.wrCount < cap ∧ bs.wrStart = (next + 1) % cap
  | _ => True

/-- What a client knows about the waiting room at each point of `wr_push`, and
    that the seat it took is a seat of the waiting room. -/
def ClientPc.Ok (cap : ℕ) (bs : BarberShopMem ι) : ClientPc → Prop
  | .clearSleeping => bs.barberSleeping = true
  | .pushTest => bs.barberSleeping = false
  | .pushSeat => bs.barberSleeping = false ∧ bs.wrCount < cap
  | .pushReadEnd my => bs.barberSleeping = false ∧ bs.wrCount < cap ∧ my = bs.wrEnd
  | .pushWriteEnd my e =>
    bs.barberSleeping = false ∧ bs.wrCount < cap ∧ my = bs.wrEnd ∧ e = bs.wrEnd
  | .pushReadCount my =>
    bs.barberSleeping = false ∧ bs.wrCount < cap ∧ my < cap ∧ bs.wrEnd = (my + 1) % cap
  | .pushWriteCount my count =>
    bs.barberSleeping = false ∧ bs.wrCount < cap ∧ my < cap ∧ bs.wrEnd = (my + 1) % cap ∧
      count = bs.wrCount
  | .newSeat my | .writeSeat my _ | .postMx my =>
    my < cap ∧ 0 < bs.wrCount ∧ bs.wrEnd = (my + 1) % cap
  | .convWaiting my | .waitSeat my _ => my < cap
  | _ => True

/-- The part of the memory that the mutex protects is the same. -/
def BarberShopMem.SameRoom (bs bs' : BarberShopMem ι) : Prop :=
  bs'.barberSleeping = bs.barberSleeping ∧ bs'.wrCount = bs.wrCount ∧
    bs'.wrStart = bs.wrStart ∧ bs'.wrEnd = bs.wrEnd

theorem ClientPc.Ok.of_sameRoom {bs bs' : BarberShopMem ι} {pc : ClientPc} (h : pc.Ok cap bs)
    (hs : bs.SameRoom bs') : pc.Ok cap bs' := by
  obtain ⟨h1, h2, -, h4⟩ := hs
  cases pc <;> simp_all [Ok]

theorem ClientPc.Ok.of_not_holds {bs bs' : BarberShopMem ι} {pc : ClientPc} (h : pc.Ok cap bs)
    (hh : pc.holds = 0) : pc.Ok cap bs' := by
  cases pc <;> simp_all [Ok, holds]

theorem BarberPc.Ok.of_sameRoom {bs bs' : BarberShopMem ι} {pc : BarberPc} (h : pc.Ok cap bs)
    (hs : bs.SameRoom bs') : pc.Ok cap bs' := by
  obtain ⟨-, h2, h3, -⟩ := hs
  cases pc <;> simp_all [Ok]

theorem BarberPc.Ok.of_not_holds {bs bs' : BarberShopMem ι} {pc : BarberPc} (h : pc.Ok cap bs)
    (hh : pc.holds = 0) : pc.Ok cap bs' := by
  cases pc <;> simp_all [Ok, holds]

/-- The bounds of the waiting room. -/
structure BarberShopMem.Bounds (cap : ℕ) (bs : BarberShopMem ι) : Prop where
  count : bs.wrCount ≤ cap
  start : 0 < cap → bs.wrStart < cap
  wrEnd : 0 < cap → bs.wrEnd < cap
  asleep : bs.barberSleeping = true → bs.wrCount = 0

/-! ## The barber's steps -/

section BarberSteps

variable {m m' : Shared ι} {s s' : BarberState}

theorem barberStep_mutex (h : barberStep b cap m s = some (m', s')) :
    m'.bs.mxWaitingRoom + s'.pc.holds = m.bs.mxWaitingRoom + s.pc.holds := by
  unfold barberStep at h
  repeat' split at h
  all_goals cases h
  all_goals simp_all only [BarberPc.holds, Shared.setSem]

theorem barberStep_room (h : barberStep b cap m s = some (m', s')) (hh : s.pc.holds = 0) :
    m.bs.SameRoom m'.bs := by
  unfold barberStep at h
  repeat' split at h
  all_goals cases h
  all_goals simp_all [BarberPc.holds, BarberShopMem.SameRoom]

/-- The barber keeps the bounds of the waiting room and what he knows about it.
    Only the steps that write to it have something to show. -/
theorem barberStep_ok (h : barberStep b cap m s = some (m', s')) (hb : m.bs.Bounds cap)
    (ho : s.pc.Ok cap m.bs) : m'.bs.Bounds cap ∧ s'.pc.Ok cap m'.bs := by
  obtain ⟨h1, h2, h3, h4⟩ := hb
  obtain ⟨pc, cycles⟩ := s
  cases pc with
  | popWriteStart next start =>
    cases h
    obtain ⟨hc, rfl, rfl⟩ := ho
    have hcap : 0 < cap := by omega
    exact ⟨⟨h1, fun _ => Nat.mod_lt _ hcap, h3, h4⟩, hc, h2 hcap, rfl⟩
  | popWriteCount next count =>
    cases h
    obtain ⟨hc, hn, hs, rfl⟩ := ho
    refine ⟨⟨?_, h2, h3, fun ha => ?_⟩, hn, ?_, hs⟩
    · simp only; omega
    · simp only [h4 ha]
    · simp only; omega
  | setSleeping => cases h; exact ⟨⟨h1, h2, h3, fun _ => ho⟩, trivial⟩
  | _ =>
    simp only [barberStep] at h
    repeat' split at h
    all_goals cases h
    all_goals
      refine ⟨⟨h1, h2, h3, h4⟩, ?_⟩
      simp_all [BarberPc.Ok]
    all_goals omega

end BarberSteps

/-! ## The clients' steps -/

section ClientSteps

variable [DecidableEq ι] {i : ι} {id : ℕ} {m m' : Shared ι} {c c' : Client}

theorem clientStep_mutex (h : clientStep b cap i id m c = some (m', c')) :
    m'.bs.mxWaitingRoom + c'.pc.holds = m.bs.mxWaitingRoom + c.pc.holds := by
  unfold clientStep at h
  repeat' split at h
  all_goals cases h
  all_goals simp_all only [ClientPc.holds, Shared.setSem]

theorem clientStep_room (h : clientStep b cap i id m c = some (m', c')) (hh : c.pc.holds = 0) :
    m.bs.SameRoom m'.bs := by
  unfold clientStep at h
  repeat' split at h
  all_goals cases h
  all_goals simp_all [ClientPc.holds, BarberShopMem.SameRoom, Shared.setSem]

/-- A client keeps the bounds of the waiting room and what it knows about it. -/
theorem clientStep_ok (h : clientStep b cap i id m c = some (m', c')) (hb : m.bs.Bounds cap)
    (ho : c.pc.Ok cap m.bs) : m'.bs.Bounds cap ∧ c'.pc.Ok cap m'.bs := by
  obtain ⟨h1, h2, h3, h4⟩ := hb
  obtain ⟨pc, haircuts, completed⟩ := c
  cases pc with
  | pushWriteEnd my e =>
    cases h
    obtain ⟨ha, hc, rfl, rfl⟩ := ho
    have hcap : 0 < cap := by omega
    exact ⟨⟨h1, h2, fun _ => Nat.mod_lt _ hcap, h4⟩, ha, hc, h3 hcap, rfl⟩
  | pushWriteCount my count =>
    cases h
    obtain ⟨ha, hc, hm, he, rfl⟩ := ho
    refine ⟨⟨hc, h2, h3, fun h => ?_⟩, hm, Nat.succ_pos _, he⟩
    simp only [ha] at h
    cases h
  | clearSleeping => cases h; exact ⟨⟨h1, h2, h3, fun h => by cases h⟩, trivial⟩
  | _ =>
    simp only [clientStep] at h
    repeat' split at h
    all_goals cases h
    all_goals
      refine ⟨⟨h1, h2, h3, h4⟩, ?_⟩
      simp_all [ClientPc.Ok]

end ClientSteps

/-! ## The invariant -/

variable [Fintype ι]

/-- The mutex has at most one holder, and the processes know what it protects. -/
structure Shop.MxInv (cap : ℕ) (s : Shop ι) : Prop where
  one : s.mem.bs.mxWaitingRoom + s.barber.pc.holds + weigh (fun c => c.pc.holds) s.client = 1
  bounds : s.mem.bs.Bounds cap
  barber : s.barber.pc.Ok cap s.mem.bs
  clients : ∀ i, (s.client i).pc.Ok cap s.mem.bs

theorem Shop.Init.mxInv {s : Shop ι} (h : s.Init) : s.MxInv cap := by
  refine ⟨?_, ?_, ?_, ?_⟩
  · have : weigh (fun c => c.pc.holds) s.client = 0 :=
      weigh_eq_zero_iff.mpr fun i => by simp [h.pc i, ClientPc.holds]
    simp [h.bs, h.barber, initializeBarber, BarberPc.holds, this]
  · rw [h.bs]
    exact ⟨Nat.zero_le _, fun h => h, fun h => h, fun _ => rfl⟩
  · simp [h.barber, BarberPc.Ok]
  · intro i; simp [h.pc i, ClientPc.Ok]

variable [DecidableEq ι]

theorem Shop.MxInv.step {s s' : Shop ι} {l : Label ι} (hI : s.MxInv cap)
    (h : (shop b cap).next s l = some s') : s'.MxInv cap := by
  obtain ⟨hone, hbd, hbar, hcl⟩ := hI
  obtain ⟨m', bar', -, hst, rfl⟩ | ⟨i, id, m', c', -, hst, rfl⟩ := shop_next_cases h
  · -- the barber moves
    obtain ⟨hbd', hbar'⟩ := barberStep_ok hst hbd hbar
    have hmx := barberStep_mutex hst
    refine ⟨by simp only at *; omega, hbd', hbar', fun j => ?_⟩
    by_cases hh : s.barber.pc.holds = 0
    · exact (hcl j).of_sameRoom (barberStep_room hst hh)
    · have := le_weigh (fun c : Client => c.pc.holds) s.client j
      exact (hcl j).of_not_holds (by omega)
  · -- client `i` moves
    obtain ⟨hbd', hc'⟩ := clientStep_ok hst hbd (hcl i)
    have hmx := clientStep_mutex hst
    have hw := weigh_update (fun c : Client => c.pc.holds) s.client i c'
    refine ⟨by simp only at *; omega, hbd', ?_, fun j => ?_⟩
    · by_cases hh : (s.client i).pc.holds = 0
      · exact hbar.of_sameRoom (clientStep_room hst hh)
      · have := le_weigh (fun c : Client => c.pc.holds) s.client i
        exact hbar.of_not_holds (by omega)
    · by_cases hji : j = i
      · subst hji; simpa using hc'
      · simp only [Function.update_of_ne hji]
        by_cases hh : (s.client i).pc.holds = 0
        · exact (hcl j).of_sameRoom (clientStep_room hst hh)
        · refine (hcl j).of_not_holds ?_
          -- `i` holds the mutex, so `j` does not
          by_contra hj
          exact hji (eq_of_weigh_le_one (w := fun c : Client => c.pc.holds) (t := s.client)
            (by omega) (Nat.pos_of_ne_zero hj) (Nat.pos_of_ne_zero hh))

/-- `mx_waiting_room` is a mutex in every reachable state. -/
theorem reach_mxInv {C : Shop ι → Label ι → Prop} {s : Shop ι}
    (h : (shop b cap).ReachIf C s) : s.MxInv cap :=
  h.invariant (fun _ => Shop.Init.mxInv) fun _ _ _ hI _ hn => hI.step hn

end AghOs.Barber
