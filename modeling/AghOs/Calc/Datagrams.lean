import AghOs.Calc.Lengths

/-!
# The server over datagrams

The listener and the pinger of the datagram build (`server_listen.c`,
`server_pinger.c`, `server_cllist.c`). All clients send to the same two sockets, and
the listener finds a client by the address that a datagram comes from. Which
datagrams come, from where and when, is left open. As in the stream build every
locked region is a step, and so is every turn of the pinger's loop.

`unanswered` is history: how many `PING`s have been sent to an address since a
client registered from it or the listener last handled a `PONG` from it.

A slot holds a name of any length here, so what `register_client` writes behind its
arrays when a `REGISTER` is too long is not in the model: `Fresh` asks that none is.

* `clients_by_address`: if a client registers only from an address that no active
  slot has, every client is found by its address, and no client is timed out before
  four `PING`s in a row have been left unanswered.
* `two_names_one_address`: a client that registers twice.
-/

namespace AghOs.Calc

/-- What `recvfrom` stores in `addr`, as many bytes as it says. -/
abbrev Addr := List UInt8

namespace Datagrams

/-- Where the listener is. -/
inductive Pc
  /-- at `epoll_wait` and `receive_sm` -/
  | idle
  /-- at `client_for_addr` -/
  | lookup (sock : ℕ) (addr : Addr) (sm : SocketMessage)
  /-- at `switch (msg_type)` -/
  | dispatch (sock : ℕ) (addr : Addr) (client : Option Slot) (sm : SocketMessage)
  /-- at `unregister_client` -/
  | unregister (addr : Addr) (client : Option Slot)
  /-- in `register_client`, at `is_name_taken` -/
  | check (sock : ℕ) (addr : Addr) (sm : SocketMessage)
  /-- in `register_client`, about to send `MSG_TYPE_NAMEINUSE` -/
  | refuse
  /-- in `register_client`, at the second `lock_clients` -/
  | insert (sock : ℕ) (addr : Addr) (name : List UInt8)

/-- The table with its addresses, the listener, and the slot that the pinger is at
    while it holds `clients_mx`. -/
structure State where
  clients : Clients
  addr : Slot → Addr
  pc : Pc
  pinger : Option ℕ
  unanswered : Addr → ℕ

inductive Label
  /-- A datagram comes from an address, at the socket that `epoll_wait` returns. -/
  | receive (sock : ℕ) (addr : Addr) (k : Call) (datagram : List UInt8)
  | listener
  | pinger

namespace State

def initial : State := ⟨fun _ => ⟨false, 0, [], 0⟩, fun _ => [], .idle, none, fun _ => 0⟩

variable (s : State)

/-- `client_for_addr`; `none` is `-1`. -/
def clientForAddr (addr : Addr) : Option Slot :=
  (List.finRange confClientsMax).find? fun i => (s.clients i).active && s.addr i == addr

/-- The second region of `register_client`. -/
def insertClient (sock : ℕ) (addr : Addr) (name : List UInt8) : State :=
  match s.clients.clientFreeid with
  | none => s
  | some id => { s with
      clients := s.clients.occupy id sock name
      addr := Function.update s.addr id addr
      unanswered := Function.update s.unanswered addr 0 }

/-- `unregister_client` -/
def unregisterClient : Option Slot → State
  | none => s
  | some id => { s with clients := s.clients.deactivate id }

/-- `handle_pong`, for a message from an address. -/
def handlePong (addr : Addr) (id : Slot) : State :=
  { s with
    clients := s.clients.setInactivity id 0
    unanswered := Function.update s.unanswered addr 0 }

/-- `thread_listen`, from the check for unknown clients on; a response is printed. -/
def dispatch (sock : ℕ) (addr : Addr) (client : Option Slot) (sm : SocketMessage) : State :=
  if sm.type = msgTypeRegister then { s with pc := .check sock addr sm }
  else if sm.type = msgTypeUnregister then { s with pc := .unregister addr client }
  else
    match client with
    | none => { s with pc := .idle }
    | some id =>
      if sm.type = msgTypePong then { s.handlePong addr id with pc := .idle }
      else { s with pc := .idle }

/-- A step of the listener after `receive_sm`. -/
def listenerStep : Option State :=
  match s.pc with
  | .idle => none
  | .lookup sock addr sm =>
    if s.pinger.isSome then none
    else some { s with pc := .dispatch sock addr (s.clientForAddr addr) sm }
  | .dispatch sock addr client sm => some (s.dispatch sock addr client sm)
  | .unregister _ client =>
    if s.pinger.isSome then none else some { s.unregisterClient client with pc := .idle }
  | .check sock addr sm =>
    if s.pinger.isSome then none
    else some { s with
      pc := if s.clients.isNameTaken sm.name then .refuse else .insert sock addr sm.name }
  | .refuse => some { s with pc := .idle }
  | .insert sock addr name =>
    if s.pinger.isSome then none else some { s.insertClient sock addr name with pc := .idle }

/-- A turn of the loop of `thread_pinger`. -/
def pingSlot (i : Slot) : State :=
  if !(s.clients i).active then s
  else if (s.clients i).inactivity > confInactivityMax then
    { s with clients := s.clients.deactivate i }
  else
    { s with
      clients := s.clients.setInactivity i ((s.clients i).inactivity + 1)
      unanswered := Function.update s.unanswered (s.addr i) (s.unanswered (s.addr i) + 1) }

/-- `thread_pinger`: `lock_clients`, the turns of the loop, `unlock_clients`. -/
def pingerStep : State :=
  match s.pinger with
  | none => { s with pinger := some 0 }
  | some i =>
    if h : i < confClientsMax then { s.pingSlot ⟨i, h⟩ with pinger := some (i + 1) }
    else { s with pinger := none }

def next : Label → Option State
  | .receive sock addr k datagram =>
    match s.pc with
    | .idle =>
      match receiveSmDatagram k datagram with
      | none => some s
      | some sm => some { s with pc := .lookup sock addr sm }
    | _ => none
  | .listener => s.listenerStep
  | .pinger => some s.pingerStep

end State

/-- The server. -/
def server : Machine State Label where
  init s := s = State.initial
  next s l := s.next l

/-- The address from which `register_client` takes a slot in the next step of the
    listener. -/
def Pc.inserting : Pc → Option Addr
  | .insert _ addr _ => some addr
  | _ => none

/-- A `REGISTER` that is received fits, and `register_client` takes a slot only for an
    address that no active slot has: the condition on a step. -/
def Fresh (s : State) : Label → Prop
  | .receive _ _ k datagram => ∀ sm ∈ receiveSmDatagram k datagram, sm.NameEnds
  | .listener => ∀ addr ∈ s.pc.inserting, s.clients.clientFreeid ≠ none →
      ∀ i, (s.clients i).active = true → s.addr i ≠ addr
  | .pinger => True

instance (s : State) : ∀ l, Decidable (Fresh s l)
  | .listener => inferInstanceAs (Decidable (∀ addr ∈ s.pc.inserting,
      s.clients.clientFreeid ≠ none → ∀ i, (s.clients i).active = true → s.addr i ≠ addr))
  | .receive _ _ k datagram =>
    inferInstanceAs (Decidable (∀ sm ∈ receiveSmDatagram k datagram, sm.NameEnds))
  | .pinger => inferInstanceAs (Decidable True)

/-! ## The invariant -/

/-- The address that the listener has looked up, and what it has found. -/
def Pc.found : Pc → Option (Addr × Option Slot)
  | .dispatch _ addr client _ => some (addr, client)
  | .unregister addr client => some (addr, client)
  | _ => none

/-- The slot found for an address is the one that has it. -/
structure State.Own (s : State) (addr : Addr) (client : Option Slot) : Prop where
  sound : ∀ i, client = some i → s.addr i = addr
  complete : ∀ i, (s.clients i).active = true → s.addr i = addr → client = some i

/-- The invariant. -/
structure State.Ok (s : State) : Prop where
  distinct : ∀ i j, (s.clients i).active = true → (s.clients j).active = true →
    s.addr i = s.addr j → i = j
  own : ∀ addr client, s.pc.found = some (addr, client) → s.Own addr client
  unanswered : ∀ i, (s.clients i).active = true →
    (s.clients i).inactivity ≤ s.unanswered (s.addr i)

section

variable {s s' : State} {i id : Slot} {addr : Addr}

theorem State.clientForAddr_some (h : s.clientForAddr addr = some i) :
    (s.clients i).active = true ∧ s.addr i = addr := by
  simpa using List.find?_some h

/-- If the addresses are distinct, a look-up finds the slot that has the address. -/
theorem State.Ok.clientForAddr (h : s.Ok) (hi : (s.clients i).active = true) :
    s.clientForAddr (s.addr i) = some i := by
  cases hf : s.clientForAddr (s.addr i) with
  | none =>
    have := List.find?_eq_none.mp hf i (List.mem_finRange i)
    simp [hi] at this
  | some j =>
    obtain ⟨hj, hij⟩ := State.clientForAddr_some hf
    rw [h.distinct j i hj hi hij]

/-- Slots that are only deactivated keep the invariant. -/
theorem State.Ok.shrink (h : s.Ok) (haddr : s'.addr = s.addr)
    (hactive : ∀ i, (s'.clients i).active = true → (s.clients i).active = true)
    (hown : ∀ addr client, s'.pc.found = some (addr, client) → s.Own addr client)
    (hunanswered : ∀ i, (s'.clients i).active = true →
      (s'.clients i).inactivity ≤ s'.unanswered (s'.addr i)) : s'.Ok := by
  refine ⟨fun i j hi hj hij => ?_, fun addr client hf => ?_, hunanswered⟩
  · rw [haddr] at hij
    exact h.distinct i j (hactive i hi) (hactive j hj) hij
  · have ho := hown addr client hf
    refine ⟨fun i hi => ?_, fun i hi hij => ?_⟩
    · rw [haddr]
      exact ho.sound i hi
    · rw [haddr] at hij
      exact ho.complete i (hactive i hi) hij

theorem active_of_deactivate {cl : Clients} (h : (cl.deactivate id i).active = true) :
    i ≠ id ∧ (cl i).active = true := by
  have hi : i ≠ id := by
    rintro rfl
    rw [Clients.deactivate_self] at h
    cases h
  rw [Clients.deactivate_of_ne hi] at h
  exact ⟨hi, h⟩

theorem active_of_setInactivity {cl : Clients} {v : ℕ}
    (h : (cl.setInactivity id v i).active = true) : (cl i).active = true :=
  (Clients.shrinks_setInactivity cl id v i h).1

theorem State.Ok.deactivate (h : s.Ok) (id : Slot) {pc : Pc} (pinger : Option ℕ)
    (hown : ∀ addr client, pc.found = some (addr, client) → s.Own addr client) :
    ({ s with clients := s.clients.deactivate id, pc := pc, pinger := pinger } : State).Ok := by
  refine h.shrink rfl (fun i hi => (active_of_deactivate hi).2) hown fun i hi => ?_
  obtain ⟨hne, hi⟩ := active_of_deactivate hi
  show (s.clients.deactivate id i).inactivity ≤ _
  rw [Clients.deactivate_of_ne hne]
  exact h.unanswered i hi

theorem State.Ok.goto (h : s.Ok) {pc : Pc} (pinger : Option ℕ)
    (hown : ∀ addr client, pc.found = some (addr, client) → s.Own addr client) :
    ({ s with pc := pc, pinger := pinger } : State).Ok :=
  h.shrink rfl (fun _ hi => hi) hown h.unanswered

theorem State.Ok.pingSlot (h : s.Ok) (id : Slot) (pinger : Option ℕ) :
    ({ s.pingSlot id with pinger := pinger } : State).Ok := by
  unfold State.pingSlot
  split
  · exact h.goto pinger h.own
  · split
    · exact h.deactivate id pinger h.own
    · refine h.shrink rfl (fun i hi => active_of_setInactivity hi) h.own fun i hi => ?_
      have hi' := h.unanswered i (active_of_setInactivity hi)
      by_cases hii : i = id
      · subst hii
        simpa [Clients.setInactivity] using hi'
      · show (s.clients.setInactivity id _ i).inactivity ≤
          Function.update s.unanswered (s.addr id) _ (s.addr i)
        rw [Clients.setInactivity_of_ne hii]
        by_cases ha : s.addr i = s.addr id
        · rw [ha, Function.update_self, ← ha]
          exact Nat.le_succ_of_le hi'
        · rwa [Function.update_of_ne ha]

theorem State.Ok.handlePong (h : s.Ok) (ho : s.Own addr (some id)) :
    ({ s.handlePong addr id with pc := .idle } : State).Ok := by
  refine h.shrink rfl (fun i hi => active_of_setInactivity hi) nofun fun i hi => ?_
  have hi' := active_of_setInactivity hi
  show (s.clients.setInactivity id 0 i).inactivity ≤ Function.update s.unanswered addr 0 (s.addr i)
  by_cases hii : i = id
  · subst hii
    simp [Clients.setInactivity]
  · have ha : s.addr i ≠ addr := by
      intro ha
      exact hii (Option.some.inj (ho.complete i hi' ha)).symm
    rw [Clients.setInactivity_of_ne hii, Function.update_of_ne ha]
    exact h.unanswered i hi'

theorem State.Ok.insertClient (h : s.Ok) {sock : ℕ} {name : List UInt8}
    (hfresh : s.clients.clientFreeid ≠ none → ∀ i, (s.clients i).active = true → s.addr i ≠ addr) :
    ({ s.insertClient sock addr name with pc := .idle } : State).Ok := by
  unfold State.insertClient
  cases hid : s.clients.clientFreeid with
  | none => exact h.goto s.pinger nofun
  | some id =>
    have hfresh := hfresh (hid ▸ Option.some_ne_none id)
    -- what an active slot of the new table is
    have hslot : ∀ i, (s.clients.occupy id sock name i).active = true →
        i = id ∨ i ≠ id ∧ (s.clients i).active = true ∧ s.addr i ≠ addr := by
      intro i hi
      by_cases hii : i = id
      · exact .inl hii
      · rw [Clients.occupy_of_ne hii] at hi
        exact .inr ⟨hii, hi, hfresh i hi⟩
    refine ⟨fun i j hi hj hij => ?_, nofun, fun i hi => ?_⟩
    · change Function.update s.addr id addr i = Function.update s.addr id addr j at hij
      obtain rfl | ⟨hii, hi, hai⟩ := hslot i hi <;> obtain rfl | ⟨hjj, hj, haj⟩ := hslot j hj
      · rfl
      · rw [Function.update_self, Function.update_of_ne hjj] at hij
        exact absurd hij.symm haj
      · rw [Function.update_self, Function.update_of_ne hii] at hij
        exact absurd hij hai
      · rw [Function.update_of_ne hii, Function.update_of_ne hjj] at hij
        exact h.distinct i j hi hj hij
    · show (s.clients.occupy id sock name i).inactivity ≤
        Function.update s.unanswered addr 0 (Function.update s.addr id addr i)
      obtain rfl | ⟨hii, hi, hai⟩ := hslot i hi
      · simp
      · rw [Clients.occupy_of_ne hii, Function.update_of_ne hii, Function.update_of_ne hai]
        exact h.unanswered i hi

theorem State.Ok.listener (h : s.Ok) (hc : Fresh s .listener) (hn : s.listenerStep = some s') :
    s'.Ok := by
  unfold State.listenerStep at hn
  split at hn
  case h_1 => cases hn
  case h_2 sock addr sm hpc =>
    split at hn
    · cases hn
    · obtain rfl := Option.some.inj hn
      refine h.goto s.pinger fun a client hf => ?_
      obtain ⟨rfl, rfl⟩ := Prod.mk.inj (Option.some.inj hf)
      exact ⟨fun i hi => (State.clientForAddr_some hi).2, fun i hi ha => ha ▸ h.clientForAddr hi⟩
  case h_3 sock addr client sm hpc =>
    obtain rfl := Option.some.inj hn
    have hown : s.Own addr client := h.own addr client (hpc ▸ rfl)
    unfold State.dispatch
    split
    · exact h.goto s.pinger nofun
    · split
      · refine h.goto s.pinger fun a c hf => ?_
        obtain ⟨rfl, rfl⟩ := Prod.mk.inj (Option.some.inj hf)
        exact hown
      · split
        · exact h.goto s.pinger nofun
        · split
          · exact h.handlePong hown
          · exact h.goto s.pinger nofun
  case h_4 addr client hpc =>
    split at hn
    · cases hn
    · obtain rfl := Option.some.inj hn
      unfold State.unregisterClient
      split
      · exact h.goto s.pinger nofun
      · exact h.deactivate _ s.pinger nofun
  case h_5 sock addr sm hpc =>
    split at hn
    · cases hn
    · obtain rfl := Option.some.inj hn
      refine h.goto s.pinger fun a c hf => ?_
      split at hf <;> cases hf
  case h_6 hpc =>
    obtain rfl := Option.some.inj hn
    exact h.goto s.pinger nofun
  case h_7 sock addr name hpc =>
    split at hn
    · cases hn
    · obtain rfl := Option.some.inj hn
      have hfresh := hc addr (hpc ▸ rfl)
      exact h.insertClient hfresh

theorem State.Ok.next (h : s.Ok) {l : Label} (hc : Fresh s l) (hn : s.next l = some s') :
    s'.Ok := by
  cases l with
  | receive sock addr k datagram =>
    simp only [State.next] at hn
    split at hn
    · split at hn <;> obtain rfl := Option.some.inj hn
      · exact h
      · exact h.goto s.pinger nofun
    · cases hn
  | listener => exact h.listener hc hn
  | pinger =>
    obtain rfl := Option.some.inj hn
    unfold State.pingerStep
    split
    · exact h.goto (some 0) h.own
    · split
      · exact h.pingSlot _ _
      · exact h.goto none h.own

/-! ## Names -/

/-- The name that the listener is about to register fits `cl_name`. -/
def Pc.NameFits : Pc → Prop
  | .lookup _ _ sm | .dispatch _ _ _ sm => sm.NameEnds
  | .check _ _ sm => sm.name.length < confClientNameMax
  | .insert _ _ name => name.length < confClientNameMax
  | _ => True

/-- The names in the table and the one that the listener has read. -/
structure State.NamesFit (s : State) : Prop where
  clients : s.clients.Fits
  listener : s.pc.NameFits

theorem State.NamesFit.dispatch {sock : ℕ} {client : Option Slot} {sm : SocketMessage}
    (h : s.NamesFit) (hsm : sm.NameEnds) : (s.dispatch sock addr client sm).NamesFit := by
  unfold State.dispatch
  split
  · exact ⟨h.clients, hsm.name ‹_›⟩
  · split
    · exact ⟨h.clients, trivial⟩
    · split
      · exact ⟨h.clients, trivial⟩
      · split
        · exact ⟨h.clients.setInactivity _ _, trivial⟩
        · exact ⟨h.clients, trivial⟩

theorem State.NamesFit.listener_step (h : s.NamesFit) (hn : s.listenerStep = some s') :
    s'.NamesFit := by
  have hname := h.listener
  unfold State.listenerStep at hn
  split at hn
  case h_1 => cases hn
  case h_2 sock addr sm hpc =>
    rw [hpc] at hname
    split at hn
    · cases hn
    · obtain rfl := Option.some.inj hn
      exact ⟨h.clients, hname⟩
  case h_3 sock addr client sm hpc =>
    rw [hpc] at hname
    obtain rfl := Option.some.inj hn
    exact h.dispatch hname
  case h_4 addr client hpc =>
    split at hn
    · cases hn
    · obtain rfl := Option.some.inj hn
      unfold State.unregisterClient
      split
      · exact ⟨h.clients, trivial⟩
      · exact ⟨h.clients.deactivate _, trivial⟩
  case h_5 sock addr sm hpc =>
    rw [hpc] at hname
    split at hn
    · cases hn
    · obtain rfl := Option.some.inj hn
      refine ⟨h.clients, ?_⟩
      dsimp only
      split
      · trivial
      · exact hname
  case h_6 hpc =>
    obtain rfl := Option.some.inj hn
    exact ⟨h.clients, trivial⟩
  case h_7 sock addr name hpc =>
    rw [hpc] at hname
    split at hn
    · cases hn
    · obtain rfl := Option.some.inj hn
      unfold State.insertClient
      split
      · exact ⟨h.clients, trivial⟩
      · exact ⟨h.clients.occupy hname, trivial⟩

theorem State.NamesFit.next (h : s.NamesFit) {l : Label} (hc : Fresh s l)
    (hn : s.next l = some s') : s'.NamesFit := by
  cases l with
  | receive sock addr k datagram =>
    simp only [State.next] at hn
    split at hn
    · split at hn <;> obtain rfl := Option.some.inj hn
      · exact h
      · exact ⟨h.clients, hc _ ‹_›⟩
    · cases hn
  | listener => exact h.listener_step hn
  | pinger =>
    obtain rfl := Option.some.inj hn
    unfold State.pingerStep
    split
    · exact ⟨h.clients, h.listener⟩
    · split
      · unfold State.pingSlot
        split
        · exact ⟨h.clients, h.listener⟩
        · split
          · exact ⟨h.clients.deactivate _, h.listener⟩
          · exact ⟨h.clients.setInactivity _ _, h.listener⟩
      · exact ⟨h.clients, h.listener⟩

theorem reach_namesFit (h : server.ReachIf Fresh s) : s.NamesFit := by
  refine h.invariant (fun s hs => ?_) fun _ _ _ hI hc hn => hI.next hc hn
  cases hs
  exact ⟨fun _ => (by decide : 0 < 256), trivial⟩

/-! ## Runs -/

theorem State.ok_initial : State.initial.Ok := ⟨nofun, nofun, nofun⟩

theorem reach_ok (h : server.ReachIf Fresh s) : s.Ok :=
  h.invariant (fun _ hs => hs ▸ State.ok_initial) fun _ _ _ hI hc hn => hI.next hc hn

/-- A turn of the pinger's loop deactivates an inactive client only. -/
theorem State.inactive_of_pingSlot (hi : (s.clients i).active = true)
    (hi' : ((s.pingSlot id).clients i).active = false) :
    confInactivityMax < (s.clients i).inactivity := by
  unfold State.pingSlot at hi'
  split at hi'
  · exact absurd (hi.symm.trans hi') nofun
  · split at hi'
    · by_cases hii : i = id
      · exact hii ▸ ‹_›
      · change (s.clients.deactivate id i).active = false at hi'
        rw [Clients.deactivate_of_ne hii, hi] at hi'
        cases hi'
    · change (s.clients.setInactivity id _ i).active = false at hi'
      by_cases hii : i = id
      · subst hii
        simp [Clients.setInactivity, hi] at hi'
      · rw [Clients.setInactivity_of_ne hii, hi] at hi'
        cases hi'

/-- The pinger times a client out only after more than `CONF_INACTIVITY_MAX` `PING`s. -/
theorem State.Ok.timeOut (h : s.Ok) (hi : (s.clients i).active = true)
    (hi' : (s.pingerStep.clients i).active = false) :
    confInactivityMax < s.unanswered (s.addr i) := by
  unfold State.pingerStep at hi'
  split at hi'
  · exact absurd (hi.symm.trans hi') nofun
  · split at hi'
    · exact Nat.lt_of_lt_of_le (State.inactive_of_pingSlot hi hi') (h.unanswered i hi)
    · exact absurd (hi.symm.trans hi') nofun

/-- Every name is inside its `cl_name`, a look-up finds the active slot that has the
    address, what the listener has found is the slot of the sender, and the pinger
    deactivates a slot only when more than `CONF_INACTIVITY_MAX` `PING`s to its address
    are unanswered. -/
theorem clients_by_address (h : server.ReachIf Fresh s) :
    s.clients.Fits ∧
    (∀ i, (s.clients i).active = true → s.clientForAddr (s.addr i) = some i) ∧
    (∀ addr client, s.pc.found = some (addr, client) →
      (∀ i, client = some i → s.addr i = addr) ∧
        ∀ i, (s.clients i).active = true → s.addr i = addr → client = some i) ∧
    ∀ s' i, s.next .pinger = some s' → (s.clients i).active = true →
      (s'.clients i).active = false → confInactivityMax < s.unanswered (s.addr i) := by
  have hok := reach_ok h
  refine ⟨(reach_namesFit h).clients, fun i hi => hok.clientForAddr hi,
    fun addr client hf => ?_, fun s' i hn hi hi' => ?_⟩
  · have ho := hok.own addr client hf
    exact ⟨ho.sound, ho.complete⟩
  · obtain rfl := Option.some.inj hn
    exact hok.timeOut hi hi'

end

/-- A call of `receive_sm` that finds zeros in memory. -/
def zeros : Call := ⟨⟨0, List.replicate 256 0⟩, List.replicate 256 0⟩

/-- The steps of the server when `datagram` is a `REGISTER` under a new name. -/
def registers (addr : Addr) (datagram : List UInt8) : List Label :=
  [.receive 3 addr zeros datagram, .listener, .listener, .listener, .listener]

theorem clients_by_address_one :
    ∃ s : State, ((s.clients 0).active, s.addr 0) = (true, [1]) ∧ s.clients.Fits ∧
      (∀ i, (s.clients i).active = true → s.clientForAddr (s.addr i) = some i) ∧
      (∀ addr client, s.pc.found = some (addr, client) →
        (∀ i, client = some i → s.addr i = addr) ∧
          ∀ i, (s.clients i).active = true → s.addr i = addr → client = some i) ∧
      ∀ s' i, s.next .pinger = some s' → (s.clients i).active = true →
        (s'.clients i).active = false → confInactivityMax < s.unanswered (s.addr i) := by
  obtain ⟨s, hs, ha⟩ := Machine.ReachIf.of_runIf (M := server) (C := Fresh)
    (registers [1] [2, 0, 0, 97]) (fun s => ((s.clients 0).active, s.addr 0)) _ rfl rfl
  exact ⟨s, ha, clients_by_address hs⟩

/-- A client registers as `a` and then as `b`: its second slot is not found. -/
theorem two_names_one_address :
    ∃ s, server.Reach s ∧
      ((s.clients 0).active, (s.clients 1).active, s.clientForAddr (s.addr 1)) =
        (true, true, some 0) :=
  Machine.Reach.of_run (registers [1] [2, 0, 0, 97] ++ registers [1] [2, 0, 0, 98]) _ _ rfl rfl

end Datagrams

end AghOs.Calc
