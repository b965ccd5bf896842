import AghOs.Calc.Epoll
import AghOs.Calc.Lengths

/-!
# Whom a message acts on

The listener looks a message's client up in one region and acts on it in a later
one. In between the connection can be closed by the pinger, its descriptor given
to a new connection and its slot to another client.

`watched` is the server with its history: the descriptor and the connection that
each thread has read its message from, and the connection that registered each
slot.

* `reach_watched_iff`: the history does not restrict the runs.
* `acts_on_sender_iff`: what the listener does to a slot or a descriptor, it does
  to those of the sender, if and only if the sender's connection is still open,
  or there is nothing left to act on; in runs in which every message fits.
* `late_unregister`: an UNREGISTER that closes the connection of another client.
-/

namespace AghOs.Calc

variable {P : Peer Message} {strtod : List UInt8 → Double × List UInt8}

/-- `hand t` is the descriptor and the connection that thread `t` has read from
    last, `owner i` the connection that registered slot `i`. -/
structure Watched (P : Peer Message) where
  state : State P
  hand : Thread → ℕ × ℕ
  owner : Slot → ℕ

/-- A thread reads a message. -/
def Watched.handAfter (w : Watched P) (l : Label P) : Thread → ℕ × ℕ :=
  match l with
  | .receive t (some _) =>
    match w.state.pc t with
    | .receive fd => Function.update w.hand t (fd, (w.state.mem.net.fd fd).getD 0)
    | _ => w.hand
  | _ => w.hand

/-- A slot that becomes active is registered by the connection whose message the
    thread handles that takes the step. -/
def Watched.ownerAfter (w : Watched P) (l : Label P) (s' : State P) : Slot → ℕ := fun i =>
  if (w.state.mem.clients i).active = false ∧ (s'.mem.clients i).active = true then
    (l.actor.map fun t => (w.hand t).2).getD (w.owner i)
  else w.owner i

/-- The server with its history. -/
def watched (strtod : List UInt8 → Double × List UInt8) (P : Peer Message) :
    Machine (Watched P) (Label P) where
  init w := w = ⟨State.initial, fun _ => (0, 0), fun _ => 0⟩
  next w l := ((server strtod P).next w.state l).map fun s' =>
    ⟨s', w.handAfter l, w.ownerAfter l s'⟩

theorem watched_next {w w' : Watched P} {l : Label P}
    (h : (watched strtod P).next w l = some w') :
    (server strtod P).next w.state l = some w'.state ∧ w'.hand = w.handAfter l ∧
      w'.owner = w.ownerAfter l w'.state := by
  obtain ⟨s', hs, rfl⟩ := Option.map_eq_some_iff.mp h
  exact ⟨hs, rfl, rfl⟩

/-- The runs of the server with its history are runs of the server. -/
theorem reachIf_watched {C : State P → Label P → Prop} {w : Watched P}
    (h : (watched strtod P).ReachIf (fun w l => C w.state l) w) :
    (server strtod P).ReachIf C w.state := by
  refine Machine.ReachIf.invariant (I := fun w => (server strtod P).ReachIf C w.state) h
    (fun w h0 => ?_) fun w l w' hI hc hn => hI.step hc (watched_next hn).1
  cases h0
  exact .init rfl

/-- The server and the server with its history have the same runs. -/
theorem reach_watched_iff {s : State P} :
    (server strtod P).Reach s ↔ ∃ w, (watched strtod P).Reach w ∧ w.state = s := by
  constructor
  · intro h
    refine Machine.ReachIf.invariant
      (I := fun s => ∃ w, (watched strtod P).Reach w ∧ w.state = s) h
      (fun s h0 => ?_) fun s l s' hI _ hn => ?_
    · exact ⟨⟨s, fun _ => (0, 0), fun _ => 0⟩, .init (by cases h0; rfl), rfl⟩
    · obtain ⟨w, hw, rfl⟩ := hI
      have hnext : (watched strtod P).next w l =
          some ⟨s', w.handAfter l, w.ownerAfter l s'⟩ :=
        Option.map_eq_some_iff.mpr ⟨s', hn, rfl⟩
      exact ⟨_, hw.step hnext, rfl⟩
  · rintro ⟨w, hw, rfl⟩
    exact reachIf_watched hw

/-! ## Acting in time -/

/-- The connection `hand.2` that a message was read from is still the one at its
    descriptor `hand.1`. -/
def Mem.Current {π : Type} (m : Mem π) (hand : ℕ × ℕ) : Prop := m.net.fd hand.1 = some hand.2

instance {π : Type} (m : Mem π) (hand : ℕ × ℕ) : Decidable (m.Current hand) :=
  inferInstanceAs (Decidable (_ = _))

/-- The listener acts on a client while the sender's connection is still open, or
    has nothing left to act on: the slot is not active and its descriptor not
    open, or (for a PONG) the slot is not active or its counter is zero. -/
def Pc.InTime {π : Type} (m : Mem π) (hand : ℕ × ℕ) : Pc → Prop
  | .unregister (some id) => m.Current hand ∨
      ((m.clients id).active = false ∧ m.net.fd (m.clients id).sock = none)
  | .dispatch _ _ (some id) sm => sm.type = msgTypePong → m.Current hand ∨
      (m.clients id).active = false ∨ (m.clients id).inactivity = 0
  | _ => True

/-- `register_client` takes a slot only for a connection that is still open. -/
def Pc.TakesInTime {π : Type} (m : Mem π) (hand : ℕ × ℕ) : Pc → Prop
  | .insert _ _ => m.clients.clientFreeid = none ∨ m.Current hand
  | _ => True

/-- Every thread acts on its message while the connection is still open, or has
    nothing left to act on. -/
def ActsInTime (w : Watched P) (l : Label P) : Prop :=
  l.Meets fun t => (w.state.pc t).InTime w.state.mem (w.hand t) ∧
    (w.state.pc t).TakesInTime w.state.mem (w.hand t)

instance {π : Type} (m : Mem π) (hand : ℕ × ℕ) : DecidablePred (Pc.InTime m hand)
  | .unregister (some _) => inferInstanceAs (Decidable (_ ∨ (_ ∧ _)))
  | .dispatch _ _ (some _) _ => inferInstanceAs (Decidable (_ → _ ∨ _ ∨ _))
  | .unregister none => inferInstanceAs (Decidable True)
  | .dispatch _ _ none _ => inferInstanceAs (Decidable True)
  | .idle => inferInstanceAs (Decidable True)
  | .receive _ => inferInstanceAs (Decidable True)
  | .lookup .. => inferInstanceAs (Decidable True)
  | .check .. => inferInstanceAs (Decidable True)
  | .refuse _ => inferInstanceAs (Decidable True)
  | .insert .. => inferInstanceAs (Decidable True)

instance {π : Type} (m : Mem π) (hand : ℕ × ℕ) : DecidablePred (Pc.TakesInTime m hand)
  | .insert .. => inferInstanceAs (Decidable (_ ∨ _))
  | .unregister _ => inferInstanceAs (Decidable True)
  | .dispatch .. => inferInstanceAs (Decidable True)
  | .idle => inferInstanceAs (Decidable True)
  | .receive _ => inferInstanceAs (Decidable True)
  | .lookup .. => inferInstanceAs (Decidable True)
  | .check .. => inferInstanceAs (Decidable True)
  | .refuse _ => inferInstanceAs (Decidable True)

instance (w : Watched P) : DecidablePred (ActsInTime w) :=
  fun l => inferInstanceAs (Decidable (l.Meets _))

/-- Moreover every message that is read fits. -/
def ActsSafely (w : Watched P) (l : Label P) : Prop := ActsInTime w l ∧ ReadsFitting w.state l

instance (w : Watched P) : DecidablePred (ActsSafely w) :=
  fun _ => inferInstanceAs (Decidable (_ ∧ _))

/-- The step from `w` to `w'` deactivates only a slot that was registered by the
    connection `c`, closes only the connection `c`, and changes `cl_inactivity`
    of no other client than the one registered by `c`. -/
structure OnlyOn (c : ℕ) (w w' : Watched P) : Prop where
  deactivates : ∀ i, (w.state.mem.clients i).active = true →
    (w'.state.mem.clients i).active = false → w.owner i = c
  closes : ∀ fd d, w.state.mem.net.fd fd = some d → w'.state.mem.net.fd fd ≠ some d → d = c
  resets : ∀ i, (w.state.mem.clients i).active = true →
    (w'.state.mem.clients i).inactivity ≠ (w.state.mem.clients i).inactivity → w.owner i = c

/-! ## How the descriptors and the slots evolve -/

section

variable {m m' : Mem P.State} {hand : ℕ × ℕ} {pc : Pc}

/-- What any step does to the descriptors and the slots: at most one new
    connection is opened, none is forgotten, and a slot whose socket keeps its
    connection stays active. -/
structure Mem.Evolves (m m' : Mem P.State) : Prop where
  fd : (∀ fd c, m'.net.fd fd = some c → m.net.fd fd = some c) ∨
    ∃ fd c, m.net.conn c = none ∧ (m'.net.conn c).isSome ∧ m.net.fd fd = none ∧
      m'.net.fd = Function.update m.net.fd fd (some c)
  conn : ∀ c, (m.net.conn c).isSome → (m'.net.conn c).isSome
  slot : ∀ i c, (m.clients i).active = true → m.net.fd (m.clients i).sock = some c →
    m'.net.fd (m.clients i).sock = some c →
      (m'.clients i).active = true ∧ (m'.clients i).sock = (m.clients i).sock

theorem Mem.Evolves.of_same (h : m.Same m') : m.Evolves m' := by
  refine ⟨.inl fun fd c hfd => ?_, fun c hc => ?_, fun i _ hi _ _ => ⟨?_, h.sock i⟩⟩
  · rwa [h.fd] at hfd
  · rwa [h.conn]
  · rwa [h.active]

theorem Mem.Evolves.accept {net : Net Message P.State} {fd c : ℕ} {q : P.State}
    (hn : m.net.accept fd c q = some net) : m.Evolves { m with net := net } := by
  obtain ⟨hfree, hnew, hnet, -, hconn⟩ := accept_spec hn
  refine ⟨.inr ⟨fd, c, hnew, ?_, hfree, hnet⟩, fun d hd => ?_, fun i _ hi _ _ => ⟨hi, rfl⟩⟩
  · show (net.conn c).isSome
    rw [hconn, Function.update_self]
    rfl
  · show (net.conn d).isSome
    rw [hconn]
    by_cases hdc : d = c
    · rw [hdc, Function.update_self]
      rfl
    · rwa [Function.update_of_ne hdc]

/-- `register_client` takes no slot that is active. -/
theorem insertClient_of_active {fd : ℕ} {name : List UInt8} {i : Slot}
    (hi : (m.clients i).active = true) : (m.insertClient fd name).clients i = m.clients i := by
  unfold Mem.insertClient
  cases hid : m.clients.clientFreeid with
  | none => rfl
  | some id =>
    have hne : i ≠ id := by
      intro he
      rw [he, Clients.clientFreeid_some hid] at hi
      cases hi
    have hcl : m.clients.occupy id fd name i = m.clients i := Clients.occupy_of_ne hne
    simp only
    split
    · exact hcl
    · exact hcl

theorem Mem.Evolves.insert (m : Mem P.State) (fd : ℕ) (name : List UInt8) :
    m.Evolves (m.insertClient fd name) := by
  have hnet := insertClient_net m fd name
  refine ⟨.inl fun fd' c hfd => ?_, fun c hc => ?_, fun i _ hi _ _ => ?_⟩
  · rwa [hnet.1] at hfd
  · rwa [hnet.2]
  · rw [insertClient_of_active hi]
    exact ⟨hi, rfl⟩

theorem Mem.Evolves.unregister (m : Mem P.State) (id : Slot) :
    m.Evolves (m.unregisterClient (some id)) := by
  refine ⟨.inl fun fd c hfd => (unregister_open hfd).2, fun c hc => hc, fun i c hi _ hfd => ?_⟩
  have hne : i ≠ id := by
    intro he
    exact (unregister_open hfd).1 (by rw [he])
  show (m.clients.deactivate id i).active = true ∧ (m.clients.deactivate id i).sock = _
  rw [Clients.deactivate_of_ne hne]
  exact ⟨hi, rfl⟩

theorem Effect.evolves {s s' : State P} {l : Label P} (h : Effect s l s') :
    s.mem.Evolves s'.mem := by
  cases h with
  | quiet _ hs _ => exact .of_same hs
  | goes hs _ _ => exact .of_same hs
  | accept _ _ hn => exact .accept hn
  | insert _ => exact .insert _ _ _
  | @unregister t ok client _ =>
    cases client with
    | none => exact .of_same (.refl _)
    | some id => exact .unregister _ id
  | pong _ _ => exact .of_same (.setInactivity _ _ _)
  | timeOut _ hm _ => rw [hm]; exact .unregister _ _

/-! ## What a thread knows about the message it has read -/

/-- The connection that was read from exists, and at no other descriptor. -/
structure Mem.HandOk (m : Mem P.State) (hand : ℕ × ℕ) : Prop where
  conn : (m.net.conn hand.2).isSome
  home : ∀ fd, m.net.fd fd = some hand.2 → fd = hand.1

/-- As long as the connection is open, the slot that was found for it is the
    slot of its descriptor. -/
def Mem.Found (m : Mem P.State) (hand : ℕ × ℕ) (client : Option Slot) : Prop :=
  m.Current hand → ∀ id, client = some id →
    (m.clients id).active = true ∧ (m.clients id).sock = hand.1

def Pc.Ok (m : Mem P.State) (hand : ℕ × ℕ) : Pc → Prop
  | .idle | .receive _ => True
  | .lookup fd _ _ | .check fd _ | .refuse fd | .insert fd _ => m.HandOk hand ∧ fd = hand.1
  | .dispatch fd _ client _ => m.HandOk hand ∧ fd = hand.1 ∧ m.Found hand client
  | .unregister client => m.HandOk hand ∧ m.Found hand client

theorem Mem.Evolves.current (h : m.Evolves m') (hh : m.HandOk hand) (hc : m'.Current hand) :
    m.Current hand := by
  unfold Mem.Current at hc ⊢
  obtain hold | ⟨fd, c, hnew, -, -, hfd⟩ := h.fd
  · exact hold _ _ hc
  · rw [hfd] at hc
    by_cases hff : hand.1 = fd
    · rw [hff, Function.update_self] at hc
      have hconn := hh.conn
      rw [← Option.some.inj hc, hnew] at hconn
      cases hconn
    · rwa [Function.update_of_ne hff] at hc

theorem Mem.HandOk.evolves (h : m.HandOk hand) (he : m.Evolves m') : m'.HandOk hand := by
  refine ⟨he.conn _ h.conn, fun fd hfd => ?_⟩
  obtain hold | ⟨fd', c, hnew, -, -, hup⟩ := he.fd
  · exact h.home fd (hold _ _ hfd)
  · rw [hup] at hfd
    by_cases hff : fd = fd'
    · rw [hff, Function.update_self] at hfd
      have hconn := h.conn
      rw [← Option.some.inj hfd, hnew] at hconn
      cases hconn
    · rw [Function.update_of_ne hff] at hfd
      exact h.home fd hfd

theorem Mem.Found.evolves {client : Option Slot} (h : m.Found hand client) (hh : m.HandOk hand)
    (he : m.Evolves m') : m'.Found hand client := by
  intro hc id hid
  have hc0 := he.current hh hc
  obtain ⟨hactive, hsock⟩ := h hc0 id hid
  have hstays := he.slot id hand.2 hactive (by rw [hsock]; exact hc0) (by rw [hsock]; exact hc)
  exact ⟨hstays.1, hstays.2.trans hsock⟩

theorem Pc.Ok.evolves (h : pc.Ok m hand) (he : m.Evolves m') : pc.Ok m' hand := by
  cases pc with
  | idle => trivial
  | receive fd => trivial
  | lookup fd conn sm => exact ⟨h.1.evolves he, h.2⟩
  | dispatch fd conn client sm => exact ⟨h.1.evolves he, h.2.1, h.2.2.evolves h.1 he⟩
  | unregister client => exact ⟨h.1.evolves he, h.2.evolves h.1 he⟩
  | check fd sm => exact ⟨h.1.evolves he, h.2⟩
  | refuse fd => exact ⟨h.1.evolves he, h.2⟩
  | insert fd name => exact ⟨h.1.evolves he, h.2⟩

end

/-! ## The invariant -/

/-- The slots have open sockets of their own, which are the connections that
    registered them, and the threads know what they have read. -/
structure Watched.Ok (w : Watched P) : Prop where
  slots : w.state.mem.SlotsPolled
  conn : ∀ fd c, w.state.mem.net.fd fd = some c → (w.state.mem.net.conn c).isSome
  home : ∀ fd fd' c, w.state.mem.net.fd fd = some c → w.state.mem.net.fd fd' = some c → fd = fd'
  owned : ∀ i, (w.state.mem.clients i).active = true →
    w.state.mem.net.fd (w.state.mem.clients i).sock = some (w.owner i)
  threads : ∀ t, (w.state.pc t).Ok w.state.mem (w.hand t)

section

variable {w w' : Watched P} {s' : State P} {l : Label P} {t : Thread}

theorem Watched.Ok.handOk (h : w.Ok) {fd c : ℕ} (hfd : w.state.mem.net.fd fd = some c) :
    w.state.mem.HandOk (fd, c) :=
  ⟨h.conn fd c hfd, fun fd' hfd' => h.home fd' fd c hfd' hfd⟩

theorem Watched.handAfter_of_ne {u : Thread} (hl : ∀ old, l ≠ .receive u old) :
    w.handAfter l u = w.hand u := by
  cases l with
  | receive t old =>
    have hne : u ≠ t := by
      intro he
      exact hl old (by rw [he])
    cases old with
    | none => rfl
    | some old =>
      cases hpc : w.state.pc t with
      | receive fd =>
        simp only [handAfter, hpc]
        exact Function.update_of_ne hne _ _
      | _ => simp only [handAfter, hpc]
  | _ => rfl

/-- What the thread that moves knows afterwards. -/
theorem Watched.Ok.goes (h : w.Ok) {pc : Pc} (hg : Goes w.state l t pc) :
    pc.Ok w.state.mem (w.handAfter l t) := by
  have ht := h.threads t
  cases hg with
  | wait _ _ => trivial
  | fail _ => trivial
  | @read fd conn msg net old hpc hrecv =>
    have hfd := (SameNet.of_recv hrecv).2
    have hhand : w.handAfter (.receive .listener (some old)) .listener = (fd, conn) := by
      simp only [handAfter, hpc, Function.update_self, hfd, Option.getD_some]
    rw [hhand]
    exact ⟨h.handOk hfd, rfl⟩
  | @first t fd conn msg net old _ hpc hrecv _ =>
    have hfd := (SameNet.of_recv hrecv).2
    have hhand : w.handAfter (.receive t (some old)) t = (fd, conn) := by
      simp only [handAfter, hpc, Function.update_self, hfd, Option.getD_some]
    rw [hhand]
    exact ⟨h.handOk hfd, rfl⟩
  | ignore _ _ _ _ => trivial
  | found hpc =>
    rw [hpc] at ht
    refine ⟨ht.1, ht.2, fun _ id hid => ?_⟩
    obtain ⟨hactive, hsock⟩ := Clients.clientForSock_some hid
    exact ⟨hactive, hsock.trans ht.2⟩
  | register hpc _ =>
    rw [hpc] at ht
    exact ⟨ht.1, ht.2.1⟩
  | unregister hpc _ =>
    rw [hpc] at ht
    exact ⟨ht.1, ht.2.2⟩
  | other _ _ => trivial
  | taken hpc _ =>
    rw [hpc] at ht
    exact ht
  | free hpc =>
    rw [hpc] at ht
    exact ht
  | refused _ => trivial

/-- A thread that does not move knows what it knew. -/
theorem Watched.Ok.stays (h : w.Ok) (heff : Effect w.state l s') {u : Thread}
    (hpc : s'.pc u = w.state.pc u) (hl : ∀ old, l ≠ .receive u old) :
    (s'.pc u).Ok s'.mem (w.handAfter l u) := by
  rw [hpc, Watched.handAfter_of_ne hl]
  exact (h.threads u).evolves heff.evolves

/-- The thread that moves, and those that do not. -/
theorem Watched.Ok.moves (h : w.Ok) {m : Mem P.State} {pc : Pc}
    (heff : Effect w.state l (w.state.goto t m pc)) (hl : ∀ u old, l = .receive u old → u = t)
    (hpc : pc.Ok m (w.handAfter l t)) (u : Thread) :
    ((w.state.goto t m pc).pc u).Ok m (w.handAfter l u) := by
  by_cases hut : u = t
  · subst hut
    rw [show (w.state.goto u m pc).pc u = pc from Function.update_self ..]
    exact hpc
  · exact h.stays heff (Function.update_of_ne hut ..) fun old he => hut (hl u old he)

theorem Watched.Ok.threads_next (h : w.Ok) (heff : Effect w.state l s') (u : Thread) :
    (s'.pc u).Ok s'.mem (w.handAfter l u) := by
  have heff' := heff
  cases heff with
  | quiet hactor _ hpc =>
    refine h.stays heff' (congrFun hpc u) fun old he => ?_
    rw [he] at hactor
    cases hactor
  | @goes l t m pc hs _ hg =>
    refine h.moves heff' (fun u old he => ?_) ((h.goes hg).evolves heff'.evolves) u
    subst he
    cases hg <;> rfl
  | accept _ _ _ => exact h.moves heff' (fun _ _ he => (by cases he)) trivial u
  | insert _ => exact h.moves heff' (fun _ _ he => (by cases he)) trivial u
  | unregister _ => exact h.moves heff' (fun _ _ he => (by cases he)) trivial u
  | pong _ _ => exact h.moves heff' (fun _ _ he => (by cases he)) trivial u
  | timeOut _ _ hpc => exact h.stays heff' (congrFun hpc u) fun _ he => (by cases he)

theorem Watched.Ok.conn_next (h : w.Ok) (he : w.state.mem.Evolves s'.mem) {fd c : ℕ}
    (hfd : s'.mem.net.fd fd = some c) : (s'.mem.net.conn c).isSome := by
  obtain hold | ⟨fd', c', -, hsome, -, hup⟩ := he.fd
  · exact he.conn c (h.conn fd c (hold fd c hfd))
  · rw [hup] at hfd
    by_cases hff : fd = fd'
    · rw [hff, Function.update_self] at hfd
      rwa [← Option.some.inj hfd]
    · rw [Function.update_of_ne hff] at hfd
      exact he.conn c (h.conn fd c hfd)

theorem Watched.Ok.home_next (h : w.Ok) (he : w.state.mem.Evolves s'.mem) {fd fd' c : ℕ}
    (hfd : s'.mem.net.fd fd = some c) (hfd' : s'.mem.net.fd fd' = some c) : fd = fd' := by
  obtain hold | ⟨fd₀, c₀, hnew, -, -, hup⟩ := he.fd
  · exact h.home fd fd' c (hold fd c hfd) (hold fd' c hfd')
  · -- the new connection was at no descriptor
    have hnone : ∀ e, w.state.mem.net.fd e ≠ some c₀ := by
      intro e hfe
      have hsome := h.conn e c₀ hfe
      rw [hnew] at hsome
      cases hsome
    rw [hup] at hfd hfd'
    by_cases hff : fd = fd₀ <;> by_cases hff' : fd' = fd₀
    · rw [hff, hff']
    · rw [hff, Function.update_self] at hfd
      rw [Function.update_of_ne hff', ← Option.some.inj hfd] at hfd'
      exact absurd hfd' (hnone fd')
    · rw [hff', Function.update_self] at hfd'
      rw [Function.update_of_ne hff, ← Option.some.inj hfd'] at hfd
      exact absurd hfd (hnone fd)
    · rw [Function.update_of_ne hff] at hfd
      rw [Function.update_of_ne hff'] at hfd'
      exact h.home fd fd' c hfd hfd'

/-- A thread that acts in time gives up no slot a second time whose descriptor is
    open again. -/
theorem Watched.Ok.notStale {ok : Bool} (h : w.Ok) (hc : ActsInTime w (.thread t ok)) :
    (w.state.pc t).notStale w.state.mem = true := by
  have ht := h.threads t
  have hin := hc.1
  cases hpc : w.state.pc t with
  | unregister client =>
    rw [hpc] at ht hin
    cases client with
    | none => rfl
    | some id =>
      obtain hcur | ⟨-, hclosed⟩ := hin
      · simp [Pc.notStale, (ht.2 hcur id rfl).1]
      · simp [Pc.notStale, hclosed]
  | _ => rfl

theorem Watched.ownerAfter_of_active {i : Slot}
    (hi : (w.state.mem.clients i).active = true) : w.ownerAfter l s' i = w.owner i := by
  unfold ownerAfter
  rw [if_neg]
  rw [hi]
  exact fun hact => Bool.noConfusion hact.1

/-- Slot `i` is owned after the step. -/
def Watched.Owns (w : Watched P) (l : Label P) (s' : State P) (i : Slot) : Prop :=
  (s'.mem.clients i).active = true →
    s'.mem.net.fd (s'.mem.clients i).sock = some (w.ownerAfter l s' i)

theorem Watched.Ok.owns_same (h : w.Ok) (hs : w.state.mem.Same s'.mem) (i : Slot) :
    w.Owns l s' i := by
  intro hi
  rw [hs.active] at hi
  rw [hs.fd, hs.sock, Watched.ownerAfter_of_active hi]
  exact h.owned i hi

theorem Watched.Ok.owns_unregister (h : w.Ok) {id : Slot}
    (hm : s'.mem = w.state.mem.unregisterClient (some id))
    (hid : (w.state.mem.clients id).active = true ∨
      w.state.mem.net.fd (w.state.mem.clients id).sock = none) (i : Slot) : w.Owns l s' i := by
  intro hi
  rw [hm] at hi ⊢
  change (w.state.mem.clients.deactivate id i).active = true at hi
  show Function.update w.state.mem.net.fd (w.state.mem.clients id).sock none
    (w.state.mem.clients.deactivate id i).sock = _
  by_cases hii : i = id
  · rw [hii, Clients.deactivate_self] at hi
    cases hi
  · rw [Clients.deactivate_of_ne hii] at hi ⊢
    have hsock : (w.state.mem.clients i).sock ≠ (w.state.mem.clients id).sock := by
      intro he
      obtain hid | hid := hid
      · exact hii (h.slots.distinct i id hi hid he)
      · exact h.slots.fd i hi (he ▸ hid)
    rw [Function.update_of_ne hsock, Watched.ownerAfter_of_active hi]
    exact h.owned i hi

theorem Watched.Ok.owns_insert (h : w.Ok) {ok : Bool} {fd : ℕ} {name : List UInt8}
    (hpc : w.state.pc t = .insert fd name) (hc : ActsInTime w (.thread t ok))
    (he : (w.state.mem.insertClient fd name).exited = false) (i : Slot) :
    w.Owns (.thread t ok) (w.state.goto t (w.state.mem.insertClient fd name) .idle) i := by
  show ((w.state.mem.insertClient fd name).clients i).active = true →
    (w.state.mem.insertClient fd name).net.fd
      ((w.state.mem.insertClient fd name).clients i).sock = _
  obtain ⟨-, hm⟩ | ⟨hexit, -, -⟩ | ⟨id, hid, -, hm⟩ := insertClient_cases w.state.mem fd name
  · intro hi
    rw [hm] at hi ⊢
    rw [Watched.ownerAfter_of_active hi]
    exact h.owned i hi
  · rw [hexit] at he
    cases he
  · have hcl : (w.state.mem.insertClient fd name).clients =
        w.state.mem.clients.occupy id fd name := by rw [hm]
    have hnet : (w.state.mem.insertClient fd name).net.fd = w.state.mem.net.fd := by rw [hm]
    rw [hcl, hnet]
    intro hi
    by_cases hii : i = id
    · have ht := h.threads t
      have hin := hc.2
      rw [hpc] at ht hin
      obtain hfull | hcur := hin
      · rw [hfull] at hid
        cases hid
      · have howner : w.ownerAfter (.thread t ok)
            (w.state.goto t (w.state.mem.insertClient fd name) .idle) i = (w.hand t).2 := by
          unfold ownerAfter
          rw [if_pos]
          · rfl
          · refine ⟨?_, ?_⟩
            · rw [hii, Clients.clientFreeid_some hid]
            · show ((w.state.mem.insertClient fd name).clients i).active = true
              rw [hcl, hi]
        rw [howner, hii, Clients.occupy_self, ht.2]
        exact hcur
    · rw [Clients.occupy_of_ne hii] at hi ⊢
      rw [Watched.ownerAfter_of_active hi]
      exact h.owned i hi

theorem Watched.Ok.owns (h : w.Ok) (heff : Effect w.state l s') (hc : ActsInTime w l)
    (he : s'.mem.exited = false) (i : Slot) : w.Owns l s' i := by
  cases heff with
  | quiet _ hs _ => exact h.owns_same hs i
  | goes hs _ _ => exact h.owns_same hs i
  | @accept t fd conn x net _ _ hn =>
    intro hi
    have hi' : (w.state.mem.clients i).active = true := hi
    rw [Watched.ownerAfter_of_active hi']
    obtain ⟨hfree, -, hnet, -, -⟩ := accept_spec hn
    show net.fd (w.state.mem.clients i).sock = _
    have hne : (w.state.mem.clients i).sock ≠ fd := by
      intro hsock
      exact h.slots.fd i hi' (hsock ▸ hfree)
    rw [hnet, Function.update_of_ne hne]
    exact h.owned i hi'
  | insert hpc => exact h.owns_insert hpc hc he i
  | @unregister t ok client hpc =>
    cases client with
    | none => exact h.owns_same (.refl _) i
    | some id =>
      have hnot := h.notStale hc
      rw [hpc] at hnot
      exact h.owns_unregister rfl (Pc.active_or_closed hnot) i
  | pong _ _ => exact h.owns_same (.setInactivity _ _ _) i
  | timeOut hi hm _ => exact h.owns_unregister hm (.inl hi) i

end

theorem reachIf_ok {w : Watched P} (h : (watched strtod P).ReachIf ActsInTime w) :
    w.state.mem.exited = false → w.Ok := by
  refine Machine.ReachIf.invariant
    (I := fun w : Watched P => w.state.mem.exited = false → w.Ok) h
    (fun w h0 => ?_) fun w l w' hI hc hn he' => ?_
  · cases h0
    exact fun _ => ⟨Mem.initial_slotsPolled, fun _ _ hfd => (by cases hfd),
      fun _ _ _ hfd => (by cases hfd), fun _ hi => (by cases hi), fun _ => trivial⟩
  · obtain ⟨hs, hhand, howner⟩ := watched_next hn
    obtain ⟨he, heff⟩ := server_effect hs
    have hok := hI he
    refine ⟨heff.slotsPolled hok.slots (fun t ok hl => ?_) he',
      fun fd c => hok.conn_next heff.evolves, fun fd fd' c => hok.home_next heff.evolves,
      fun i hi => ?_, fun t => ?_⟩
    · subst hl
      exact hok.notStale hc
    · rw [howner]
      exact hok.owns heff hc he' i hi
    · rw [hhand]
      exact hok.threads_next heff t

/-! ## What the listener does -/

section

variable {w w' : Watched P} {c : ℕ}

theorem OnlyOn.of_clients (hcl : w'.state.mem.clients = w.state.mem.clients)
    (hfd : w'.state.mem.net.fd = w.state.mem.net.fd) : OnlyOn c w w' := by
  refine ⟨fun i hi hi' => ?_, fun fd d hopen hclosed => ?_, fun i _ hne => ?_⟩
  · rw [hcl, hi] at hi'
    cases hi'
  · rw [hfd] at hclosed
    exact absurd hopen hclosed
  · rw [hcl] at hne
    exact absurd rfl hne

/-- A step that leaves the slots as they are looks up, reports or refuses. -/
theorem Goes.inTime {s : State P} {t u : Thread} {ok : Bool} {pc : Pc}
    (h : Goes s (.thread t ok) u pc) (m : Mem P.State) (hand : ℕ × ℕ) :
    (s.pc t).InTime m hand := by
  have hdispatch : ∀ fd conn client sm, s.pc t = .dispatch fd conn client sm →
      (sm.type = msgTypePong → client = none) → (s.pc t).InTime m hand := by
    intro fd conn client sm hpc hnone
    rw [hpc]
    cases client with
    | none => trivial
    | some id => exact fun hpong => nomatch hnone hpong
  cases h with
  | found hpc => rw [hpc]; trivial
  | register hpc htype =>
    exact hdispatch _ _ _ _ hpc fun hpong => absurd (htype.symm.trans hpong) (by decide)
  | unregister hpc hnone => exact hdispatch _ _ _ _ hpc hnone
  | other hpc hnone => exact hdispatch _ _ _ _ hpc hnone
  | taken hpc _ => rw [hpc]; trivial
  | free hpc => rw [hpc]; trivial
  | refused hpc => rw [hpc]; trivial

/-- The slot of the sender, as long as its connection is open. -/
theorem Watched.Ok.owner_of_current (h : w.Ok) {id : Slot} {hand : ℕ × ℕ}
    (hc : w.state.mem.Current hand) (hactive : (w.state.mem.clients id).active = true)
    (hsock : (w.state.mem.clients id).sock = hand.1) : w.owner id = hand.2 := by
  have hown := h.owned id hactive
  rw [hsock] at hown
  exact Option.some.inj (hown.symm.trans hc)

/-- An active slot that is the sender's shows that its connection is open. -/
theorem Watched.Ok.current_of_owner (h : w.Ok) {id : Slot} {hand : ℕ × ℕ}
    (hh : w.state.mem.HandOk hand) (hactive : (w.state.mem.clients id).active = true)
    (howner : w.owner id = hand.2) : w.state.mem.Current hand := by
  have hown := h.owned id hactive
  rw [howner] at hown
  unfold Mem.Current
  rw [← hh.home _ hown]
  exact hown

/-- REGISTER: no slot is given up, and the one that is taken was free. -/
theorem OnlyOn.of_insert {fd : ℕ} {name : List UInt8}
    (hm : w'.state.mem = w.state.mem.insertClient fd name) : OnlyOn c w w' := by
  have hfds : w'.state.mem.net.fd = w.state.mem.net.fd := by
    rw [hm]
    exact (insertClient_net _ fd name).1
  have hsame : ∀ i, (w.state.mem.clients i).active = true →
      w'.state.mem.clients i = w.state.mem.clients i := by
    intro i hi
    rw [hm]
    exact insertClient_of_active hi
  refine ⟨fun i hi hi' => ?_, fun fd d hopen hclosed => ?_, fun i hi hne => ?_⟩
  · rw [hsame i hi, hi] at hi'
    cases hi'
  · rw [hfds] at hclosed
    exact absurd hopen hclosed
  · rw [hsame i hi] at hne
    exact absurd rfl hne

/-- UNREGISTER, in time. -/
theorem Watched.Ok.unregister_onlyOn (h : w.Ok) {id : Slot}
    (hpc : w.state.pc .listener = .unregister (some id))
    (hm : w'.state.mem = w.state.mem.unregisterClient (some id))
    (hin : (Pc.unregister (some id)).InTime w.state.mem (w.hand .listener)) :
    OnlyOn (w.hand .listener).2 w w' := by
  have ht := h.threads .listener
  rw [hpc] at ht
  have hclients : w'.state.mem.clients = w.state.mem.clients.deactivate id := by rw [hm]; rfl
  refine ⟨fun i hi hi' => ?_, fun fd d hopen hclosed => ?_, fun i _ hne => ?_⟩
  · by_cases hii : i = id
    · obtain hcur | ⟨hinactive, -⟩ := hin
      · obtain ⟨hactive, hsock⟩ := ht.2 hcur id rfl
        rw [hii]
        exact h.owner_of_current hcur hactive hsock
      · rw [hii, hinactive] at hi
        cases hi
    · rw [hclients, Clients.deactivate_of_ne hii, hi] at hi'
      cases hi'
  · rw [hm] at hclosed
    change Function.update w.state.mem.net.fd (w.state.mem.clients id).sock none fd ≠ some d
      at hclosed
    by_cases hff : fd = (w.state.mem.clients id).sock
    · rw [hff] at hopen
      obtain hcur | ⟨-, hnone⟩ := hin
      · obtain ⟨-, hsock⟩ := ht.2 hcur id rfl
        rw [hsock] at hopen
        exact Option.some.inj (hopen.symm.trans hcur)
      · rw [hnone] at hopen
        cases hopen
    · rw [Function.update_of_ne hff] at hclosed
      exact absurd hopen hclosed
  · rw [hclients] at hne
    by_cases hii : i = id
    · rw [hii, Clients.deactivate, Function.update_self] at hne
      exact absurd rfl hne
    · rw [Clients.deactivate_of_ne hii] at hne
      exact absurd rfl hne

/-- An UNREGISTER that acts on its sender only acts in time. -/
theorem Watched.Ok.unregister_inTime (h : w.Ok) {id : Slot}
    (hpc : w.state.pc .listener = .unregister (some id))
    (hm : w'.state.mem = w.state.mem.unregisterClient (some id))
    (hon : OnlyOn (w.hand .listener).2 w w') :
    (Pc.unregister (some id)).InTime w.state.mem (w.hand .listener) := by
  have ht := h.threads .listener
  rw [hpc] at ht
  by_cases hactive : (w.state.mem.clients id).active = true
  · refine .inl (h.current_of_owner ht.1 hactive (hon.deactivates id hactive ?_))
    rw [hm]
    exact Clients.deactivate_self
  · cases hfd : w.state.mem.net.fd (w.state.mem.clients id).sock with
    | none => exact .inr ⟨Bool.eq_false_iff.mpr hactive, hfd⟩
    | some d =>
      have hclosed : w'.state.mem.net.fd (w.state.mem.clients id).sock = none := by
        rw [hm]
        exact Function.update_self ..
      obtain rfl : d = (w.hand .listener).2 := by
        apply hon.closes _ d hfd
        rw [hclosed]
        exact Option.some_ne_none d ∘ Eq.symm
      refine .inl ?_
      unfold Mem.Current
      rw [← ht.1.home _ hfd]
      exact hfd

section

variable {fd conn : ℕ} {id : Slot} {sm : SocketMessage}

/-- What `handle_pong` leaves as it is. -/
theorem handlePong_same (m : Mem P.State) (id : Slot) :
    m.Same (m.handlePong id) ∧ ((m.handlePong id).clients id).inactivity = 0 ∧
      ∀ i, i ≠ id → (m.handlePong id).clients i = m.clients i := by
  refine ⟨.setInactivity m id 0, ?_, fun i hne => Clients.setInactivity_of_ne hne⟩
  show (m.clients.setInactivity id 0 id).inactivity = 0
  rw [Clients.setInactivity, Function.update_self]

/-- PONG, in time. -/
theorem Watched.Ok.pong_onlyOn (h : w.Ok)
    (hpc : w.state.pc .listener = .dispatch fd conn (some id) sm) (hpong : sm.type = msgTypePong)
    (hm : w'.state.mem = w.state.mem.handlePong id)
    (hin : (Pc.dispatch fd conn (some id) sm).InTime w.state.mem (w.hand .listener)) :
    OnlyOn (w.hand .listener).2 w w' := by
  have ht := h.threads .listener
  rw [hpc] at ht
  obtain ⟨hsame, hzero, hother⟩ := handlePong_same w.state.mem id
  rw [← hm] at hsame hzero hother
  refine ⟨fun i hi hi' => ?_, fun fd d hopen hclosed => ?_, fun i hi hne => ?_⟩
  · rw [hsame.active, hi] at hi'
    cases hi'
  · rw [hsame.fd] at hclosed
    exact absurd hopen hclosed
  · by_cases hii : i = id
    · subst hii
      obtain hcur | hinactive | hnull := hin hpong
      · obtain ⟨hactive, hsock⟩ := ht.2.2 hcur i rfl
        exact h.owner_of_current hcur hactive hsock
      · rw [hinactive] at hi
        cases hi
      · exact absurd (hzero.trans hnull.symm) hne
    · rw [hother i hii] at hne
      exact absurd rfl hne

/-- A PONG that acts on its sender only acts in time. -/
theorem Watched.Ok.pong_inTime (h : w.Ok)
    (hpc : w.state.pc .listener = .dispatch fd conn (some id) sm)
    (hm : w'.state.mem = w.state.mem.handlePong id)
    (hon : OnlyOn (w.hand .listener).2 w w') :
    (Pc.dispatch fd conn (some id) sm).InTime w.state.mem (w.hand .listener) := by
  have ht := h.threads .listener
  rw [hpc] at ht
  intro _
  by_cases hactive : (w.state.mem.clients id).active = true
  · by_cases hnull : (w.state.mem.clients id).inactivity = 0
    · exact .inr (.inr hnull)
    · refine .inl (h.current_of_owner ht.1 hactive (hon.resets id hactive ?_))
      rw [hm, (handlePong_same w.state.mem id).2.1]
      exact Ne.symm hnull
  · exact .inr (.inl (Bool.eq_false_iff.mpr hactive))

end

end

/-- In a run in which every message that is read fits and every thread acts on its
    message in time, no name overruns its `cl_name`, and a step of the listener acts on
    its sender only, if and only if it acts in time as well. -/
theorem acts_on_sender_iff {w : Watched P} (h : (watched strtod P).ReachIf ActsSafely w)
    (ok : Bool) (w' : Watched P)
    (hn : (watched strtod P).next w (.thread .listener ok) = some w') :
    w.state.mem.clients.Fits ∧
      ((w.state.pc .listener).InTime w.state.mem (w.hand .listener) ↔
        OnlyOn (w.hand .listener).2 w w') := by
  refine ⟨(reachIf_namesFit (reachIf_watched (h.mono fun _ _ => And.right))).clients, ?_⟩
  obtain ⟨hnext, -, -⟩ := watched_next hn
  obtain ⟨he, heff⟩ := server_effect hnext
  have hok := reachIf_ok (h.mono fun _ _ => And.left) he
  obtain ⟨s', hand', owner'⟩ := w'
  change Effect w.state (.thread .listener ok) s' at heff
  cases heff with
  | quiet hactor _ _ => cases hactor
  | goes hs hcl hg => exact ⟨fun _ => .of_clients hcl hs.fd, fun _ => hg.inTime _ _⟩
  | insert hpc => exact ⟨fun _ => .of_insert rfl, fun _ => by rw [hpc]; trivial⟩
  | @unregister t ok client hpc =>
    cases client with
    | none => exact ⟨fun _ => .of_clients rfl rfl, fun _ => by rw [hpc]; trivial⟩
    | some id =>
      rw [hpc]
      exact ⟨hok.unregister_onlyOn hpc rfl, hok.unregister_inTime hpc rfl⟩
  | pong hpc hpong =>
    rw [hpc]
    exact ⟨hok.pong_onlyOn hpc hpong rfl, hok.pong_inTime hpc rfl⟩

/-- The first of two clients unregisters while its connection is open. -/
theorem acts_on_sender_two :
    ∃ w w' : Watched anyPeer, (watched (fun _ => (0, [])) anyPeer).ReachIf ActsSafely w ∧
      (watched (fun _ => (0, [])) anyPeer).next w (.thread .listener true) = some w' ∧
      OnlyOn 0 w w' ∧ (w.state.mem.clients 0).active = true ∧
      (w'.state.mem.clients 0).active = false := by
  obtain ⟨w, hr, hw⟩ := Machine.ReachIf.of_runIf
    (M := watched (fun _ => (0, [])) anyPeer) (C := ActsSafely)
    (registers 5 0 [97] ++ registers 6 1 [98] ++ handles 5 0 (typeMessage msgTypeUnregister) 2)
    (fun w => (w.state.pc .listener, w.hand .listener, w.state.mem.net.fd 5,
      (w.state.mem.clients 0).active,
      ((watched (fun _ => (0, [])) anyPeer).next w (.thread .listener true)).map
        fun w' => (w'.state.mem.clients 0).active))
    (.unregister (some 0), (5, 0), some 0, true, some false) rfl rfl
  simp only [Prod.mk.injEq] at hw
  obtain ⟨hpc, hhand, hfd, h0, hnext⟩ := hw
  obtain ⟨w', hn, h0'⟩ := Option.map_eq_some_iff.mp hnext
  have hiff := (acts_on_sender_iff hr true w' hn).2
  rw [hpc, hhand] at hiff
  exact ⟨w, w', hr, hn, hiff.mp (.inl hfd), h0, h0'⟩

/-! ### An UNREGISTER that comes too late -/

/-- Connection `0` sends UNREGISTER, and the listener looks its slot up. Then the
    pinger times the client out in five rounds, and connection `1` gets its
    descriptor and its slot. -/
def lateRun : List (Label anyPeer) :=
  registers 5 0 [97] ++ handles 5 0 (typeMessage msgTypeUnregister) 2 ++
    List.replicate (5 * (confClientsMax + 2)) (.pinger false) ++ registers 5 1 [98]

/-- The listener deactivates and closes the client of connection `1`. -/
theorem late_unregister :
    ∃ w w' : Watched anyPeer, (watched (fun _ => (0, [])) anyPeer).Reach w ∧
      (watched (fun _ => (0, [])) anyPeer).next w (.thread .listener true) = some w' ∧
      w.state.pc .listener = .unregister (some 0) ∧ ¬OnlyOn (w.hand .listener).2 w w' := by
  obtain ⟨w, hr, hw⟩ := Machine.Reach.of_run (M := watched (fun _ => (0, [])) anyPeer) lateRun
    (fun w => (w.state.pc .listener, w.hand .listener, w.owner 0,
      (w.state.mem.clients 0).active,
      ((watched (fun _ => (0, [])) anyPeer).next w (.thread .listener true)).map
        fun w' => (w'.state.mem.clients 0).active))
    (.unregister (some 0), (5, 0), 1, true, some false) rfl rfl
  simp only [Prod.mk.injEq] at hw
  obtain ⟨hpc, hhand, howner, h0, hnext⟩ := hw
  obtain ⟨w', hn, h0'⟩ := Option.map_eq_some_iff.mp hnext
  refine ⟨w, w', hr, hn, hpc, fun hon => ?_⟩
  have hsame := hon.deactivates 0 h0 h0'
  rw [howner, hhand] at hsame
  cases hsame

end AghOs.Calc
