import AghOs.Barber.Shop
import AghOs.Machine.Ring
import Mathlib.Algebra.Order.Ring.Int

/-!
# The waiting room as a queue

`wr_pop` and `wr_push` (`barber-shop.c`, lines 25–42) with the `int`s of the source, and
what their callers do with the pointer before they release `mx_waiting_room`: a
client writes the seat (`client.c`, lines 65–76), the barber reads it and posts its
semaphore (`barber.c`, lines 102–112). In between nobody else gets into the waiting
room.

* `waitingRoom_fifo`: the ring is a queue of the pids of the clients.
* `pop_steps`, `push_steps`: the steps of the barber and of a client in `Shop` carry out
  `wr_pop` and `wr_push`.
-/

namespace AghOs.Barber.Room

variable {ι : Type*}

/-- The private part of `struct barber_shop_mem` but for `wr_capacity`; a seat is its
    index in `waiting_room`. -/
structure WaitingRoom (ι : Type*) where
  wrCount : ℤ
  wrStart : ℤ
  wrEnd : ℤ
  seats : ℤ → WrSeat ι

/-- `wr_pop`; `none` is the return value 1. -/
def wrPop (cap : ℤ) (r : WaitingRoom ι) : Option (ℤ × WaitingRoom ι) :=
  if r.wrCount ≤ 0 then none
  else some (r.wrStart,
    { r with wrStart := (r.wrStart + 1).tmod cap, wrCount := r.wrCount - 1 })

/-- `wr_push`; `none` is `NULL`. -/
def wrPush (cap : ℤ) (r : WaitingRoom ι) : Option (ℤ × WaitingRoom ι) :=
  if r.wrCount ≥ cap then none
  else some (r.wrEnd, { r with wrEnd := (r.wrEnd + 1).tmod cap, wrCount := r.wrCount + 1 })

/-- `*seat = w` -/
def WaitingRoom.write (r : WaitingRoom ι) (seat : ℤ) (w : WrSeat ι) : WaitingRoom ι :=
  { r with seats := Function.update r.seats seat w }

/-- Who is in the waiting room: nobody, client `i` with the seat pushed, or the barber
    with the seat popped. -/
inductive Holder (ι : Type*)
  | nobody
  | client (i : ι) (mySeat : ℤ)
  | barber (next : ℤ)

/-- The waiting room, the pids of the clients that have written their seats, and the
    pids that the barber has invited (history). -/
structure State (ι : Type*) where
  room : WaitingRoom ι
  holder : Holder ι
  taken : List ι
  invited : List (Option ι)

/-- A client with pid `i` calls `wr_push` or writes its seat, the barber calls `wr_pop`
    or uses the seat. -/
inductive Label (ι : Type*)
  | push (i : ι)
  | write (waiting : ℕ)
  | pop
  | use

/-- `log_barber2` and `semaphore_post`; in the System V build the value of the semaphore
    is not in the seat. -/
def postSeat (b : Build) (seat : WrSeat ι) : WrSeat ι :=
  match b with
  | .posix => { seat with waiting := seat.waiting + 1 }
  | .sysv => seat

def next (b : Build) (cap : ℤ) (s : State ι) : Label ι → Option (State ι)
  | .push i =>
    match s.holder with
    | .nobody =>
      match wrPush cap s.room with
      | none => some s
      | some (seat, room) => some { s with room := room, holder := .client i seat }
    | _ => none
  | .write waiting =>
    match s.holder with
    | .client i seat =>
      some { s with
        room := s.room.write seat ⟨true, some i, waiting⟩
        holder := .nobody
        taken := s.taken ++ [i] }
    | _ => none
  | .pop =>
    match s.holder with
    | .nobody =>
      match wrPop cap s.room with
      | none => some s
      | some (seat, room) => some { s with room := room, holder := .barber seat }
    | _ => none
  | .use =>
    match s.holder with
    | .barber seat =>
      some { s with
        room := s.room.write seat (postSeat b (s.room.seats seat))
        holder := .nobody
        invited := s.invited ++ [(s.room.seats seat).pid] }
    | _ => none

/-- Arrivals and invitations in any order. -/
def machine (b : Build) (cap : ℤ) : Machine (State ι) (Label ι) where
  init s := s = ⟨⟨0, 0, 0, fun _ => emptySeat⟩, .nobody, [], []⟩
  next := next b cap

/-! ## The queue -/

/-- The pid in the seat with index `k`. -/
def WaitingRoom.pid (r : WaitingRoom ι) (k : ℕ) : Option ι := (r.seats k).pid

/-- `count` seats from `start` on are taken. -/
structure WaitingRoom.Holds (cap : ℕ) (r : WaitingRoom ι) (start count : ℕ) : Prop where
  wrStart : r.wrStart = start
  wrCount : r.wrCount = count
  wrEnd : r.wrEnd = ((start + count) % cap : ℕ)
  start_lt : start < cap
  count_le : count ≤ cap

/-- The pids taken and not yet invited are in the queue, but for the one whose seat is
    in use. -/
def State.Queued (cap : ℕ) (s : State ι) (start count : ℕ) : Prop :=
  match s.holder with
  | .nobody => s.taken.map some = s.invited ++ ringList s.room.pid cap start count
  | .client _ seat => ∃ n : ℕ, count = n + 1 ∧ seat = ((start + n) % cap : ℕ) ∧
      s.taken.map some = s.invited ++ ringList s.room.pid cap start n
  | .barber seat => ∃ k : ℕ, seat = k ∧ count < cap ∧
      s.taken.map some = s.invited ++ s.room.pid k :: ringList s.room.pid cap start count

def State.Inv (cap : ℕ) (s : State ι) : Prop :=
  ∃ start count, s.room.Holds cap start count ∧ s.Queued cap start count

section

variable {cap : ℕ} {r r' : WaitingRoom ι} {start count : ℕ} {seat : ℤ}

theorem WaitingRoom.Holds.push (h : r.Holds cap start count)
    (hp : wrPush cap r = some (seat, r')) :
    count < cap ∧ seat = ((start + count) % cap : ℕ) ∧ r'.pid = r.pid ∧
      r'.Holds cap start (count + 1) := by
  unfold wrPush at hp
  split at hp
  · cases hp
  · rename_i hfull
    cases hp
    have hlt : count < cap := by
      rw [h.wrCount] at hfull
      omega
    refine ⟨hlt, h.wrEnd, rfl, h.wrStart, ?_, ?_, h.start_lt, hlt⟩
    · show r.wrCount + 1 = _
      rw [h.wrCount]
      rfl
    · show (r.wrEnd + 1).tmod cap = _
      rw [h.wrEnd]
      show (((start + count) % cap + 1 : ℕ) : ℤ).tmod cap = _
      rw [← Int.ofNat_tmod, Nat.mod_add_mod, Nat.add_assoc]

theorem WaitingRoom.Holds.pop (h : r.Holds cap start count)
    (hp : wrPop cap r = some (seat, r')) :
    ∃ n, count = n + 1 ∧ seat = start ∧ r'.pid = r.pid ∧
      r'.Holds cap ((start + 1) % cap) n := by
  unfold wrPop at hp
  split at hp
  · cases hp
  · rename_i hempty
    cases hp
    have hpos : 0 < count := by
      rw [h.wrCount] at hempty
      omega
    obtain ⟨n, rfl⟩ := Nat.exists_eq_succ_of_ne_zero (Nat.ne_of_gt hpos)
    refine ⟨n, rfl, h.wrStart, rfl, ?_, ?_, ?_, ?_, ?_⟩
    · show (r.wrStart + 1).tmod cap = _
      rw [h.wrStart]
      exact (Int.ofNat_tmod (start + 1) cap).symm
    · show r.wrCount - 1 = _
      rw [h.wrCount, Nat.cast_succ, Int.add_sub_cancel]
    · rw [ring_succ]
      exact h.wrEnd
    · exact Nat.mod_lt _ (Nat.zero_lt_of_lt h.start_lt)
    · exact Nat.le_of_succ_le h.count_le

theorem WaitingRoom.Holds.wrPush_eq_none_iff (h : r.Holds cap start count) :
    wrPush cap r = none ↔ count = cap := by
  have hle := h.count_le
  unfold wrPush
  rw [h.wrCount]
  split <;> simp <;> omega

theorem WaitingRoom.Holds.wrPop_eq_none_iff (h : r.Holds cap start count) :
    wrPop cap r = none ↔ count = 0 := by
  unfold wrPop
  rw [h.wrCount]
  split <;> simp <;> omega

theorem WaitingRoom.Holds.write (h : r.Holds cap start count) (seat : ℤ) (w : WrSeat ι) :
    (r.write seat w).Holds cap start count :=
  ⟨h.wrStart, h.wrCount, h.wrEnd, h.start_lt, h.count_le⟩

/-- Writing a seat sets its pid. -/
theorem pid_write (r : WaitingRoom ι) (k : ℕ) (w : WrSeat ι) :
    (r.write k w).pid = Function.update r.pid k w.pid := by
  funext j
  unfold WaitingRoom.pid WaitingRoom.write
  by_cases hj : j = k
  · subst hj
    dsimp only
    rw [Function.update_self, Function.update_self]
  · rw [Function.update_of_ne hj]
    exact congrArg WrSeat.pid (Function.update_of_ne (fun he => hj (Int.ofNat.inj he)) _ _)

theorem pid_post (b : Build) (r : WaitingRoom ι) (seat : ℤ) :
    (r.write seat (postSeat b (r.seats seat))).pid = r.pid := by
  funext j
  unfold WaitingRoom.pid WaitingRoom.write
  by_cases hj : (j : ℤ) = seat
  · rw [← hj]
    dsimp only
    rw [Function.update_self]
    cases b <;> rfl
  · dsimp only
    rw [Function.update_of_ne hj]

end

/-! ## Runs -/

theorem State.Inv.init {cap : ℕ} (hcap : 1 ≤ cap) :
    (⟨⟨0, 0, 0, fun _ => emptySeat⟩, .nobody, [], []⟩ : State ι).Inv cap :=
  ⟨0, 0, ⟨rfl, rfl, by rw [Nat.zero_mod]; rfl, hcap, Nat.zero_le _⟩, rfl⟩

section

variable {b : Build} {cap : ℕ} {s s' : State ι} {start count : ℕ}

theorem State.Inv.push {i : ι} (h : s.Inv cap) (hn : next b cap s (.push i) = some s') :
    s'.Inv cap := by
  have hinv := h
  obtain ⟨start, count, hroom, hq⟩ := h
  cases hholder : s.holder with
  | nobody =>
    simp only [State.Queued, hholder] at hq
    simp only [next, hholder] at hn
    cases hp : wrPush cap s.room with
    | none =>
      rw [hp] at hn
      cases hn
      exact hinv
    | some p =>
      obtain ⟨seat, room⟩ := p
      rw [hp] at hn
      cases hn
      obtain ⟨hlt, hseat, hpid, hroom'⟩ := hroom.push hp
      refine ⟨start, count + 1, hroom', count, rfl, hseat, ?_⟩
      dsimp only
      rw [hpid]
      exact hq
  | client j seat => simp [next, hholder] at hn
  | barber seat => simp [next, hholder] at hn

theorem State.Inv.write {waiting : ℕ} (h : s.Inv cap)
    (hn : next b cap s (.write waiting) = some s') : s'.Inv cap := by
  obtain ⟨start, count, hroom, hq⟩ := h
  cases hholder : s.holder with
  | nobody => simp [next, hholder] at hn
  | client i seat =>
    simp only [State.Queued, hholder] at hq
    simp only [next, hholder, Option.some.injEq] at hn
    subst hn
    obtain ⟨n, rfl, hseat, hq⟩ := hq
    subst hseat
    refine ⟨start, n + 1, hroom.write _ _, ?_⟩
    -- the pid goes to the end of the queue
    show (s.taken ++ [i]).map some = _
    rw [pid_write, ringList_push _ hroom.count_le, List.map_append, hq, List.append_assoc]
    rfl
  | barber seat => simp [next, hholder] at hn

theorem State.Inv.pop (h : s.Inv cap) (hn : next b cap s .pop = some s') : s'.Inv cap := by
  have hinv := h
  obtain ⟨start, count, hroom, hq⟩ := h
  cases hholder : s.holder with
  | nobody =>
    simp only [State.Queued, hholder] at hq
    simp only [next, hholder] at hn
    cases hp : wrPop cap s.room with
    | none =>
      rw [hp] at hn
      cases hn
      exact hinv
    | some p =>
      obtain ⟨seat, room⟩ := p
      rw [hp] at hn
      cases hn
      obtain ⟨n, rfl, hseat, hpid, hroom'⟩ := hroom.pop hp
      refine ⟨(start + 1) % cap, n, hroom', start, hseat, hroom.count_le, ?_⟩
      rw [ringList_pop, Nat.mod_eq_of_lt hroom.start_lt] at hq
      dsimp only
      rw [hpid]
      exact hq
  | client j seat => simp [next, hholder] at hn
  | barber seat => simp [next, hholder] at hn

theorem State.Inv.use (h : s.Inv cap) (hn : next b cap s .use = some s') : s'.Inv cap := by
  obtain ⟨start, count, hroom, hq⟩ := h
  cases hholder : s.holder with
  | nobody => simp [next, hholder] at hn
  | client i seat => simp [next, hholder] at hn
  | barber seat =>
    simp only [State.Queued, hholder] at hq
    simp only [next, hholder, Option.some.injEq] at hn
    subst hn
    obtain ⟨k, rfl, -, hq⟩ := hq
    refine ⟨start, count, hroom.write _ _, ?_⟩
    -- posting the semaphore leaves the pids
    show s.taken.map some = s.invited ++ [(s.room.seats k).pid] ++ _
    rw [pid_post, hq, List.append_assoc]
    rfl

theorem reach_inv (hcap : 1 ≤ cap) (h : (machine b cap).Reach s) : s.Inv cap := by
  refine h.invariant (fun s hs => ?_) fun s l s' hs _ hn => ?_
  · rw [show s = _ from hs]
    exact State.Inv.init hcap
  · cases l with
    | push i => exact State.Inv.push (b := b) hs hn
    | write waiting => exact State.Inv.write (b := b) hs hn
    | pop => exact State.Inv.pop (b := b) hs hn
    | use => exact State.Inv.use (b := b) hs hn

end

/-- The waiting room as it should be. -/
structure Fifo (cap : ℤ) (s : State ι) : Prop where
  wrEnd : s.room.wrEnd = (s.room.wrStart + s.room.wrCount) % cap
  count_nonneg : 0 ≤ s.room.wrCount
  count_le : s.room.wrCount ≤ cap
  /-- a client writes none of the seats in the queue -/
  intact : ∀ i seat, s.holder = .client i seat →
    ∀ (w : WrSeat ι) (d : ℤ), 0 ≤ d → d + 1 < s.room.wrCount →
      (s.room.write seat w).seats ((s.room.wrStart + d) % cap) =
        s.room.seats ((s.room.wrStart + d) % cap)
  push_fails : s.holder = .nobody →
    (wrPush cap s.room = none ↔ (s.taken.length : ℤ) = s.invited.length + cap)
  pop_fails : s.holder = .nobody →
    (wrPop cap s.room = none ↔ s.taken.length = s.invited.length)
  /-- nobody is invited twice or out of order -/
  invited : s.invited <+: s.taken.map some
  /-- who has not been invited is in the queue -/
  queued : s.holder = .nobody →
    s.taken.map some = s.invited ++
      (List.range s.room.wrCount.toNat).map fun d : ℕ =>
        (s.room.seats ((s.room.wrStart + d) % cap)).pid

theorem State.Inv.isFifo {cap : ℕ} {s : State ι} (h : s.Inv cap) : Fifo cap s := by
  obtain ⟨start, count, hroom, hq⟩ := h
  have hring : ∀ d : ℕ, (s.room.wrStart + d) % cap = ((start + d) % cap : ℕ) := fun d => by
    rw [hroom.wrStart]
    rfl
  have hlen : s.holder = .nobody → s.taken.length = s.invited.length + count := fun hh => by
    simp only [State.Queued, hh] at hq
    have hcount := congrArg List.length hq
    rwa [List.length_map, List.length_append, length_ringList] at hcount
  refine ⟨?_, ?_, ?_, ?_, fun hh => ?_, fun hh => ?_, ?_, fun hh => ?_⟩
  · rw [hroom.wrCount, hring]
    exact hroom.wrEnd
  · rw [hroom.wrCount]
    exact Int.natCast_nonneg count
  · rw [hroom.wrCount]
    exact Int.ofNat_le.mpr hroom.count_le
  · intro i seat hh w d hd hlt
    simp only [State.Queued, hh] at hq
    obtain ⟨n, rfl, rfl, -⟩ := hq
    obtain ⟨d, rfl⟩ := Int.eq_ofNat_of_zero_le hd
    rw [hroom.wrCount] at hlt
    rw [hring]
    refine Function.update_of_ne (fun he => ?_) _ _
    have hle := hroom.count_le
    exact ring_inj (show d < n by omega) (show n < cap by omega) (Int.ofNat.inj he)
  · rw [hroom.wrPush_eq_none_iff, hlen hh]
    omega
  · rw [hroom.wrPop_eq_none_iff, hlen hh]
    omega
  · cases hh : s.holder with
    | nobody =>
      simp only [State.Queued, hh] at hq
      rw [hq]
      exact List.prefix_append _ _
    | client i seat =>
      simp only [State.Queued, hh] at hq
      obtain ⟨n, -, -, hq⟩ := hq
      rw [hq]
      exact List.prefix_append _ _
    | barber seat =>
      simp only [State.Queued, hh] at hq
      obtain ⟨k, -, -, hq⟩ := hq
      rw [hq]
      exact List.prefix_append _ _
  · simp only [State.Queued, hh] at hq
    rw [hq, ringList, hroom.wrCount]
    simp only [hring]
    rfl

/-! ## The steps of `Shop` -/

/-- The private part of the memory. -/
def ofMem (bs : BarberShopMem ι) : WaitingRoom ι :=
  ⟨bs.wrCount, bs.wrStart, bs.wrEnd, fun k => bs.waitingRoom k.toNat⟩

/-- `n` steps one after another. -/
def steps {α : Type*} (f : α → Option α) : ℕ → α → Option α
  | 0, a => some a
  | n + 1, a => (f a).bind (steps f n)

/-- From the test in `wr_pop` to its end. -/
theorem pop_steps (b : Build) (cap : ℕ) (m : Shared ι) (s : BarberState)
    (hpc : s.pc = .popTest) :
    match wrPop cap (ofMem m.bs) with
    | none => barberStep b cap m s = some (m, { s with pc := .setSleeping })
    | some (seat, room) => ∃ m' next, steps (fun p => barberStep b cap p.1 p.2) 6 (m, s) =
        some (m', { s with pc := .logInvite next }) ∧ seat = next ∧ room = ofMem m'.bs := by
  obtain ⟨pc, cycles⟩ := s
  cases hpc
  unfold wrPop
  by_cases h : m.bs.wrCount ≤ 0
  · have hroom : (ofMem m.bs).wrCount ≤ 0 := Int.ofNat_le.mpr h
    rw [if_pos hroom]
    simp [barberStep, h]
  · have hroom : ¬(ofMem m.bs).wrCount ≤ 0 := fun hle => h (Int.ofNat_le.mp hle)
    have hpred : (m.bs.wrCount : ℤ) - 1 = (m.bs.wrCount - 1 : ℕ) := by omega
    rw [if_neg hroom]
    refine ⟨{ m with bs := { m.bs with
      wrStart := (m.bs.wrStart + 1) % cap, wrCount := m.bs.wrCount - 1 } }, m.bs.wrStart,
      by simp [steps, barberStep, h], rfl, ?_⟩
    simp only [ofMem, hpred]
    rfl

/-- From the test in `wr_push` to its end. -/
theorem push_steps [DecidableEq ι] (b : Build) (cap : ℕ) (i : ι) (id : ℕ) (m : Shared ι)
    (c : Client) (hpc : c.pc = .pushTest) :
    match wrPush cap (ofMem m.bs) with
    | none => clientStep b cap i id m c = some (m, { c with pc := .fullPostMx })
    | some (seat, room) => ∃ m' my, steps (fun p => clientStep b cap i id p.1 p.2) 6 (m, c) =
        some (m', { c with pc := .newSeat my }) ∧ seat = my ∧ room = ofMem m'.bs := by
  obtain ⟨pc, haircuts, completed⟩ := c
  cases hpc
  unfold wrPush
  by_cases h : m.bs.wrCount ≥ cap
  · have hroom : (ofMem m.bs).wrCount ≥ cap := Int.ofNat_le.mpr h
    rw [if_pos hroom]
    simp [clientStep, h]
  · have hroom : ¬(ofMem m.bs).wrCount ≥ cap := fun hle => h (Int.ofNat_le.mp hle)
    rw [if_neg hroom]
    refine ⟨{ m with bs := { m.bs with
      wrEnd := (m.bs.wrEnd + 1) % cap, wrCount := m.bs.wrCount + 1 } }, m.bs.wrEnd,
      by simp [steps, clientStep, h], rfl, ?_⟩
    rfl

/-- The waiting room is a queue, with any capacity and for every sequence of arrivals
    and invitations. -/
theorem waitingRoom_fifo (b : Build) (cap : ℕ) (hcap : 1 ≤ cap) (s : State ι)
    (h : (machine b cap).Reach s) : Fifo cap s :=
  (reach_inv hcap h).isFifo

/-- Two clients, one seat. -/
theorem waitingRoom_fifo_two :
    ∃ s : State ℕ, s.taken = [5, 8] ∧ Fifo ((1 : ℕ) : ℤ) s := by
  obtain ⟨s, hs, htaken⟩ := Machine.Reach.of_run (M := machine .posix ((1 : ℕ) : ℤ))
    [.push 5, .write 0, .push 6, .pop, .use, .push 8, .write 0] State.taken [5, 8] rfl rfl
  exact ⟨s, htaken, waitingRoom_fifo .posix 1 (Nat.le_refl 1) s hs⟩

end AghOs.Barber.Room
