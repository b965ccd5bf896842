import AghOs.Machine.Reach
import Mathlib.Data.Set.Finite.Basic
import Mathlib.Logic.Function.Basic

/-!
# The barber shop

Model of `cw07`: the main loops of the barber (`barber.c`, lines 96–150) and
of the clients (`client.c`, lines 43–103) over the shared memory of
`barber-shop.h`, in both builds (POSIX semaphores, and System V semaphores
under `-DSYS_V`).

Every semaphore operation and every access to `*bs` is one step: a C statement
that reads and writes the shared memory is cut at each access, and the program
counters carry what was read. `wr_capacity` is written once, before anybody
else runs, and is a parameter (`cap`).

Clients are named by their process ids (`ι`); any number of them can be
waiting for the listener to fork them. A semaphore is a natural number. In the
POSIX build the `waiting` semaphore of a seat lies in the seat; in the System V
build the seat holds an identifier and the semaphore sets of the kernel are
`sems`, with `none` for a set that does not exist. A wait on a semaphore whose
value is `0` is not enabled.
-/

namespace AghOs.Barber

/-- The two builds: `zad1/Makefile`, and `zad2/Makefile` with `-DSYS_V`. -/
inductive Build
  | posix
  | sysv
  deriving DecidableEq

section

variable {ι : Type*}

/-- `struct wr_seat` (`barber-shop.h`, lines 29–33). `none` is `(pid_t) -1`. -/
structure WrSeat (ι : Type*) where
  taken : Bool
  pid : Option ι
  waiting : ℕ

/-- `empty_seat` (`barber-shop.c`, lines 64–67). -/
def emptySeat : WrSeat ι := ⟨false, none, 0⟩

/-- `struct barber_shop_mem` (`barber-shop.h`, lines 35–51) without
    `wr_capacity`. -/
structure BarberShopMem (ι : Type*) where
  barberChair : WrSeat ι
  mxWaitingRoom : ℕ
  semBarberSleeping : ℕ
  semBarberReady : ℕ
  semCustomerReady : ℕ
  barberSleeping : Bool
  wrCount : ℕ
  wrStart : ℕ
  wrEnd : ℕ
  waitingRoom : ℕ → WrSeat ι

/-- The memory after `initialize_barber` (lines 125–153). -/
def initializeBarber : BarberShopMem ι where
  barberChair := emptySeat
  mxWaitingRoom := 1
  semBarberSleeping := 0
  semBarberReady := 0
  semCustomerReady := 0
  barberSleeping := false
  wrCount := 0
  wrStart := 0
  wrEnd := 0
  waitingRoom := fun _ => emptySeat

/-- `semaphore_p` of a seat in the waiting room: the address of the semaphore
    in seat `k`, or the identifier of a semaphore set. -/
inductive SemaphoreP
  | seat (k : ℕ)
  | set (id : ℕ)
  deriving DecidableEq

/-- `conv_tp(bs->waiting_room[k].waiting)` (`barber-shop.h`, lines 19 and 24):
    the address in the POSIX build, the stored identifier in the System V
    build. -/
def convTp (b : Build) (bs : BarberShopMem ι) (k : ℕ) : SemaphoreP :=
  match b with
  | .posix => .seat k
  | .sysv => .set (bs.waitingRoom k).waiting

/-! ## Program counters -/

/-- Where the barber is in his loop (`barber.c`, lines 96–150, with `wr_pop`,
    `barber-shop.c`, lines 25–33). `next` is the index of the seat `next`
    points to. -/
inductive BarberPc
  | lockMx
  | popTest
  | popSeat
  | popReadStart (next : ℕ)
  | popWriteStart (next start : ℕ)
  | popReadCount (next : ℕ)
  | popWriteCount (next count : ℕ)
  | logInvite (next : ℕ)
  | convWaiting (next : ℕ)
  | postWaiting (next : ℕ) (sem : SemaphoreP)
  | postMx
  | setSleeping
  | sleepPostMx
  | waitSleeping
  | waitCustomer
  | logStart
  | logReady
  | postReady
  | waitGone
  | exited
  deriving DecidableEq

/-- Where a client is in its loop (`client.c`, lines 43–103, with `wr_push`,
    `new_seat` and `delete_seat`, `barber-shop.c`, lines 35–62). `my` is the
    seat `my_seat` points to; `w` is the `waiting` field of a new seat. -/
inductive ClientPc
  | fork
  | head
  | lockMx
  | readSleeping
  | clearSleeping
  | postSleeping
  | wakePostMx
  | pushTest
  | fullPostMx
  | pushSeat
  | pushReadEnd (my : ℕ)
  | pushWriteEnd (my e : ℕ)
  | pushReadCount (my : ℕ)
  | pushWriteCount (my count : ℕ)
  | newSeat (my : ℕ)
  | writeSeat (my w : ℕ)
  | postMx (my : ℕ)
  | convWaiting (my : ℕ)
  | waitSeat (my : ℕ) (sem : SemaphoreP)
  | newChair (my : Option ℕ)
  | sit (my : Option ℕ) (w : ℕ)
  | deleteSeat (my : ℕ)
  | removeSeat (w : ℕ)
  | postCustomer
  | waitReady
  | deleteChair
  | removeChair (w : ℕ)
  | clearChair
  | postGone
  | exited
  deriving DecidableEq

/-- The barber: where he is, and how many loop iterations he has completed. -/
structure BarberState where
  pc : BarberPc
  cycles : ℕ

/-- A client: where it is, `haircuts` of `main`, and how many loop iterations
    it has completed. -/
structure Client where
  pc : ClientPc
  haircuts : ℕ
  completed : ℕ

/-- What the processes share: the memory segment and the kernel's semaphore
    sets. `invited` is the seat the barber popped last, as it was when he
    posted its semaphore, until the client who took that seat has passed its
    wait; no process reads it. -/
structure Shared (ι : Type*) where
  bs : BarberShopMem ι
  sems : ℕ → Option ℕ
  invited : Option (WrSeat ι)

/-- The value of a seat's semaphore; `none` if the set was removed. -/
def Shared.semValue (m : Shared ι) : SemaphoreP → Option ℕ
  | .seat k => some (m.bs.waitingRoom k).waiting
  | .set id => m.sems id

/-- Write the value of a seat's semaphore. -/
def Shared.setSem (m : Shared ι) (p : SemaphoreP) (v : ℕ) : Shared ι :=
  { m with
    bs := { m.bs with
      waitingRoom :=
        match p with
        | .seat k =>
          Function.update m.bs.waitingRoom k { m.bs.waitingRoom k with waiting := v }
        | .set _ => m.bs.waitingRoom }
    sems :=
      match p with
      | .seat _ => m.sems
      | .set id => Function.update m.sems id (some v) }

/-! ## The barber -/

/-- One step of the barber. A failing `semaphore_post` on a removed set is
    `perror("Cannot post"); exit(1)`. -/
def barberStep (b : Build) (cap : ℕ) (m : Shared ι) (s : BarberState) :
    Option (Shared ι × BarberState) :=
  match s.pc with
  | .lockMx =>
    match m.bs.mxWaitingRoom with
    | 0 => none
    | v + 1 => some ({ m with bs := { m.bs with mxWaitingRoom := v } }, { s with pc := .popTest })
  | .popTest =>
    if m.bs.wrCount ≤ 0 then some (m, { s with pc := .setSleeping })
    else some (m, { s with pc := .popSeat })
  | .popSeat => some (m, { s with pc := .popReadStart m.bs.wrStart })
  | .popReadStart next => some (m, { s with pc := .popWriteStart next m.bs.wrStart })
  | .popWriteStart next start =>
    some ({ m with bs := { m.bs with wrStart := (start + 1) % cap } },
      { s with pc := .popReadCount next })
  | .popReadCount next => some (m, { s with pc := .popWriteCount next m.bs.wrCount })
  | .popWriteCount next count =>
    some ({ m with bs := { m.bs with wrCount := count - 1 } }, { s with pc := .logInvite next })
  | .logInvite next => some (m, { s with pc := .convWaiting next })
  | .convWaiting next => some (m, { s with pc := .postWaiting next (convTp b m.bs next) })
  | .postWaiting next sem =>
    match m.semValue sem with
    | none => some (m, { s with pc := .exited })
    | some v =>
      some ({ (m.setSem sem (v + 1)) with invited := some (m.bs.waitingRoom next) },
        { s with pc := .postMx })
  | .postMx =>
    some ({ m with bs := { m.bs with mxWaitingRoom := m.bs.mxWaitingRoom + 1 } },
      { s with pc := .waitCustomer })
  | .setSleeping =>
    some ({ m with bs := { m.bs with barberSleeping := true } }, { s with pc := .sleepPostMx })
  | .sleepPostMx =>
    some ({ m with bs := { m.bs with mxWaitingRoom := m.bs.mxWaitingRoom + 1 } },
      { s with pc := .waitSleeping })
  | .waitSleeping =>
    match m.bs.semBarberSleeping with
    | 0 => none
    | v + 1 =>
      some ({ m with bs := { m.bs with semBarberSleeping := v } }, { s with pc := .waitCustomer })
  | .waitCustomer =>
    match m.bs.semCustomerReady with
    | 0 => none
    | v + 1 =>
      some ({ m with bs := { m.bs with semCustomerReady := v } }, { s with pc := .logStart })
  | .logStart => some (m, { s with pc := .logReady })
  | .logReady => some (m, { s with pc := .postReady })
  | .postReady =>
    some ({ m with bs := { m.bs with semBarberReady := m.bs.semBarberReady + 1 } },
      { s with pc := .waitGone })
  | .waitGone =>
    match m.bs.semCustomerReady with
    | 0 => none
    | v + 1 =>
      some ({ m with bs := { m.bs with semCustomerReady := v } },
        { s with pc := .lockMx, cycles := s.cycles + 1 })
  | .exited => none

/-! ## The clients -/

/-- `new_seat` (`barber-shop.c`, lines 44–55): the `waiting` field of the new
    seat, and the semaphore sets. In the System V build `id` is the identifier
    `semget` returns, that of no existing set. -/
def newSeatSem (b : Build) (id : ℕ) (sems : ℕ → Option ℕ) : Option (ℕ × (ℕ → Option ℕ)) :=
  match b with
  | .posix => some (0, sems)
  | .sysv => if sems id = none then some (id, Function.update sems id (some 0)) else none

/-- One step of client `i`. `id` is the identifier that `semget` returns, if
    the step calls it. A failing `semaphore_wait2` on a removed set is
    `perror("Cannot wait"); exit(1)`. -/
def clientStep [DecidableEq ι] (b : Build) (cap : ℕ) (i : ι) (id : ℕ) (m : Shared ι) (c : Client) :
    Option (Shared ι × Client) :=
  match c.pc with
  | .fork => some (m, { c with pc := .head })
  | .head =>
    match c.haircuts with
    | 0 => some (m, { c with pc := .exited })
    | h + 1 => some (m, { c with pc := .lockMx, haircuts := h })
  | .lockMx =>
    match m.bs.mxWaitingRoom with
    | 0 => none
    | v + 1 =>
      some ({ m with bs := { m.bs with mxWaitingRoom := v } }, { c with pc := .readSleeping })
  | .readSleeping =>
    if m.bs.barberSleeping then some (m, { c with pc := .clearSleeping })
    else some (m, { c with pc := .pushTest })
  | .clearSleeping =>
    some ({ m with bs := { m.bs with barberSleeping := false } }, { c with pc := .postSleeping })
  | .postSleeping =>
    some ({ m with bs := { m.bs with semBarberSleeping := m.bs.semBarberSleeping + 1 } },
      { c with pc := .wakePostMx })
  | .wakePostMx =>
    some ({ m with bs := { m.bs with mxWaitingRoom := m.bs.mxWaitingRoom + 1 } },
      { c with pc := .newChair none })
  | .pushTest =>
    if m.bs.wrCount ≥ cap then some (m, { c with pc := .fullPostMx })
    else some (m, { c with pc := .pushSeat })
  | .fullPostMx =>
    some ({ m with bs := { m.bs with mxWaitingRoom := m.bs.mxWaitingRoom + 1 } },
      { c with pc := .exited })
  | .pushSeat => some (m, { c with pc := .pushReadEnd m.bs.wrEnd })
  | .pushReadEnd my => some (m, { c with pc := .pushWriteEnd my m.bs.wrEnd })
  | .pushWriteEnd my e =>
    some ({ m with bs := { m.bs with wrEnd := (e + 1) % cap } }, { c with pc := .pushReadCount my })
  | .pushReadCount my => some (m, { c with pc := .pushWriteCount my m.bs.wrCount })
  | .pushWriteCount my count =>
    some ({ m with bs := { m.bs with wrCount := count + 1 } }, { c with pc := .newSeat my })
  | .newSeat my =>
    match newSeatSem b id m.sems with
    | none => none
    | some (w, sems) => some ({ m with sems := sems }, { c with pc := .writeSeat my w })
  | .writeSeat my w =>
    some ({ m with bs := { m.bs with
              waitingRoom := Function.update m.bs.waitingRoom my ⟨true, some i, w⟩ } },
      { c with pc := .postMx my })
  | .postMx my =>
    some ({ m with bs := { m.bs with mxWaitingRoom := m.bs.mxWaitingRoom + 1 } },
      { c with pc := .convWaiting my })
  | .convWaiting my => some (m, { c with pc := .waitSeat my (convTp b m.bs my) })
  | .waitSeat my sem =>
    match m.semValue sem with
    | none => some (m, { c with pc := .exited })
    | some 0 => none
    | some (v + 1) =>
      some ({ (m.setSem sem v) with
                invited := if m.invited.bind WrSeat.pid = some i then none else m.invited },
        { c with pc := .newChair (some my) })
  | .newChair my =>
    match newSeatSem b id m.sems with
    | none => none
    | some (w, sems) => some ({ m with sems := sems }, { c with pc := .sit my w })
  | .sit my w =>
    match my with
    | none =>
      some ({ m with bs := { m.bs with barberChair := ⟨true, some i, w⟩ } },
        { c with pc := .postCustomer })
    | some k =>
      some ({ m with bs := { m.bs with barberChair := ⟨true, some i, w⟩ } },
        { c with pc := .deleteSeat k })
  | .deleteSeat my =>
    match b with
    | .posix => some (m, { c with pc := .postCustomer })
    | .sysv => some (m, { c with pc := .removeSeat (m.bs.waitingRoom my).waiting })
  | .removeSeat w =>
    some ({ m with sems := Function.update m.sems w none }, { c with pc := .postCustomer })
  | .postCustomer =>
    some ({ m with bs := { m.bs with semCustomerReady := m.bs.semCustomerReady + 1 } },
      { c with pc := .waitReady })
  | .waitReady =>
    match m.bs.semBarberReady with
    | 0 => none
    | v + 1 =>
      some ({ m with bs := { m.bs with semBarberReady := v } }, { c with pc := .deleteChair })
  | .deleteChair =>
    match b with
    | .posix => some (m, { c with pc := .clearChair })
    | .sysv => some (m, { c with pc := .removeChair m.bs.barberChair.waiting })
  | .removeChair w =>
    some ({ m with sems := Function.update m.sems w none }, { c with pc := .clearChair })
  | .clearChair =>
    some ({ m with bs := { m.bs with barberChair := emptySeat } }, { c with pc := .postGone })
  | .postGone =>
    some ({ m with bs := { m.bs with semCustomerReady := m.bs.semCustomerReady + 1 } },
      { c with pc := .head, completed := c.completed + 1 })
  | .exited => none

/-! ## The machine -/

/-- The shop: the shared memory, the barber and the clients. -/
structure Shop (ι : Type*) where
  mem : Shared ι
  barber : BarberState
  client : ι → Client

/-- Who moves. -/
inductive Label (ι : Type*)
  | barber
  | client (i : ι) (id : ℕ)

/-- The shop is open and no client has been forked yet. Clients may ask for any
    number of haircuts; `sems` holds whatever sets exist in the system (finitely
    many, so `semget` finds an identifier). -/
structure Shop.Init (s : Shop ι) : Prop where
  bs : s.mem.bs = initializeBarber
  sems : {id | s.mem.sems id ≠ none}.Finite
  invited : s.mem.invited = none
  barber : s.barber = ⟨.lockMx, 0⟩
  pc : ∀ i, (s.client i).pc = .fork
  completed : ∀ i, (s.client i).completed = 0

/-- The shop as it opens, with no other semaphore set in the system, when client
    `i` will ask for `n i` haircuts. -/
def openShop (n : ι → ℕ) : Shop ι where
  mem := ⟨initializeBarber, fun _ => none, none⟩
  barber := ⟨.lockMx, 0⟩
  client := fun i => ⟨.fork, n i, 0⟩

theorem openShop_init (n : ι → ℕ) : (openShop n).Init :=
  ⟨rfl, by simp [openShop], rfl, rfl, fun _ => rfl, fun _ => rfl⟩

/-- The barber and his clients in a shop with `cap` seats in the waiting
    room. The barber's `exit` disposes of the shared memory, so a run is
    followed up to it. -/
def shop [DecidableEq ι] (b : Build) (cap : ℕ) : Machine (Shop ι) (Label ι) where
  init := Shop.Init
  next s
    | .barber =>
      (barberStep b cap s.mem s.barber).map fun r => { s with mem := r.1, barber := r.2 }
    | .client i id =>
      if s.barber.pc = .exited then none
      else
        (clientStep b cap i id s.mem (s.client i)).map fun r =>
          { s with mem := r.1, client := Function.update s.client i r.2 }

/-- A step of the shop is one of the barber or one of a client. -/
theorem shop_next_cases [DecidableEq ι] {b : Build} {cap : ℕ} {s s' : Shop ι} {l : Label ι}
    (h : (shop b cap).next s l = some s') :
    (∃ m' bar', l = .barber ∧ barberStep b cap s.mem s.barber = some (m', bar') ∧
      s' = { s with mem := m', barber := bar' }) ∨
    (∃ i id m' c', l = .client i id ∧ clientStep b cap i id s.mem (s.client i) = some (m', c') ∧
      s' = { s with mem := m', client := Function.update s.client i c' }) := by
  cases l with
  | barber =>
    obtain ⟨⟨m', bar'⟩, hst, rfl⟩ := Option.map_eq_some_iff.mp h
    exact .inl ⟨m', bar', rfl, hst, rfl⟩
  | client i id =>
    simp only [shop] at h
    split at h
    · cases h
    obtain ⟨⟨m', c'⟩, hst, rfl⟩ := Option.map_eq_some_iff.mp h
    exact .inr ⟨i, id, m', c', rfl, hst, rfl⟩

end

end AghOs.Barber
