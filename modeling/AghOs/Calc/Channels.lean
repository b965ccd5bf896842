import AghOs.Calc.Agreement
import AghOs.Calc.Refused
import AghOs.Calc.Senders

/-!
# Connections while nobody leaves

Responses can get lost with a client that leaves, that is timed out, or whose send
fails. The runs in which nothing of this happens are calm.

* `Calm`: the condition on the steps.
* `Channel`: the messages on a connection, with its client. It is `Fresh` until the
  accept thread reads the REGISTER, `Read` until the thread has handled it, and
  `Serving` while the listener polls it.
* `touches_send`, `touches_recv`, `touches_act`: what an operation does to the one
  connection that it is about.
* `State.Grounded`, `State.Steady`: the descriptors and the slots of a calm run, and
  what its threads know of the connections.
-/

namespace AghOs.Calc

variable {A : Arith} {strtod : List UInt8 → Double × List UInt8}

/-! ## Runs in which nobody leaves -/

/-- A client that has been refused, after its UNREGISTER. -/
def ClientPc.leaving : ClientPc → Bool
  | .close => true
  | _ => false

/-- Nobody is timed out, no client leaves by itself, what the clients send arrives, and
    their names fit into the message that registers them, with the zero behind. -/
def Calm (s : State (client A)) : Label (client A) → Prop
  | .accept _ _ _ name => (name : List UInt8).length + 1 < datagramSize
  | .pinger _ => ∀ i : Slot, s.pinger = some i.val → (s.mem.clients i).active = true →
      (s.mem.clients i).inactivity ≤ confInactivityMax
  | .peer _ _ (.send ok) => ok = true
  | .peer c _ .internal => (s.mem.net.peer c).all ClientPc.leaving = true
  | _ => True

instance (s : State (client A)) : DecidablePred (Calm s)
  | .pinger _ => inferInstanceAs (Decidable (∀ _ : Slot, _ → _ → _))
  | .peer _ _ (.send _) => inferInstanceAs (Decidable (_ = _))
  | .peer _ _ .internal => inferInstanceAs (Decidable (_ = _))
  | .peer _ _ .recv => inferInstanceAs (Decidable True)
  | .accept .. => inferInstanceAs (Decidable (_ < _))
  | .epollWait _ => inferInstanceAs (Decidable True)
  | .receive .. => inferInstanceAs (Decidable True)
  | .thread .. => inferInstanceAs (Decidable True)
  | .readRequest _ => inferInstanceAs (Decidable True)
  | .main _ => inferInstanceAs (Decidable True)

/-! ## Channels -/

/-- A connection as its two ends have it. -/
structure Channel where
  toServer : List Message
  toClient : List Message
  peer : Option ClientPc

def channel (n : Net Message ClientPc) (c : ℕ) : Channel :=
  ⟨n.toServer c, n.toClient c, n.peer c⟩

/-- What a client sends that has registered. -/
def Message.IsReply (m : Message) : Prop :=
  m.data.head? = some msgTypePong ∨ m.data.head? = some msgTypeResponse

/-- What the server sends to a client that has registered. -/
def Message.IsCall (m : Message) : Prop :=
  m.data.head? = some msgTypePing ∨ m.data.head? = some msgTypeRequest

/-- A client that answers PING and REQUEST. -/
def ClientPc.Serves : ClientPc → Prop
  | .receive => True
  | .answer sm => sm.message.IsReply
  | _ => False

structure Channel.Serving (k : Channel) : Prop where
  peer : ∃ q, k.peer = some q ∧ q.Serves
  replies : ∀ m ∈ k.toServer, m.IsReply
  calls : ∀ m ∈ k.toClient, m.IsCall

inductive Channel.Fresh : Channel → Prop
  | silent (name : List UInt8) : Fresh ⟨[], [], some (.register name)⟩
  | registered (name : List UInt8) :
      Fresh ⟨[(registerMessage name).message], [], some .receive⟩

theorem Channel.Fresh.peer {k : Channel} (h : k.Fresh) :
    (∃ name, k.peer = some (.register name)) ∨ k.peer = some .receive := by
  cases h with
  | silent name => exact .inl ⟨name, rfl⟩
  | registered name => exact .inr rfl

/-- The first message is a REGISTER, and the only one. -/
theorem Channel.Fresh.message {k : Channel} {m : Message} {ms : List Message} (h : k.Fresh)
    (hm : k.toServer = m :: ms) :
    m.response = none ∧ (⟨ms, k.toClient, k.peer⟩ : Channel) = ⟨[], [], some .receive⟩ := by
  cases h with
  | silent name => cases hm
  | registered name =>
    cases hm
    exact ⟨response_registerMessage name, rfl⟩

/-- The REGISTER has been read. -/
def Channel.Read (k : Channel) : Prop := k = ⟨[], [], some .receive⟩

theorem Channel.Read.serving {k : Channel} (h : k.Read) : k.Serving := by
  subst h
  exact ⟨⟨.receive, rfl, trivial⟩, by simp, by simp⟩

theorem over_type_of_head {m : Message} {old : List UInt8} {b : UInt8}
    (h : m.data.head? = some b) : (m.over old).type = b := by
  obtain ⟨bs, hbs⟩ := List.head?_eq_some_iff.mp h
  simp [SocketMessage.type, Message.over, hbs]

theorem isReply_pong : (typeMessage msgTypePong).message.IsReply := .inl rfl

theorem isReply_response (resp : Response) (padding : UInt32) :
    (responseMessage resp padding).message.IsReply := by
  refine .inr ?_
  rw [responseMessage_data]
  rfl

theorem isCall_request (req : Request) : (requestMessage req).message.IsCall := by
  refine .inr ?_
  rw [requestMessage_data]
  rfl

/-- A call is answered with a reply, if at all. -/
theorem clientReceive_serves {m : Message} (h : m.IsCall) (padding : UInt32) (old : List UInt8) :
    (clientReceive A padding (m.over old)).Serves := by
  unfold clientReceive
  obtain h | h := h
  · rw [if_pos (over_type_of_head h)]
    exact isReply_pong
  · have htype : (m.over old).type = msgTypeRequest := over_type_of_head h
    rw [if_neg (by rw [htype]; decide), if_pos htype]
    split
    · trivial
    · split
      · trivial
      · exact isReply_response _ _

/-- What the client has in hand is the answer to the message that it takes. -/
theorem hand_clientReceive (x : Unset) (m : Message) :
    ClientPc.hand (some (clientReceive A x.padding (m.over x.buffer))) =
      (m.answer A).toList := by
  cases hans : m.answer A with
  | none =>
    have hsub := clientReceive_hand (A := A) x m
    rw [hans] at hsub
    exact List.sublist_nil.mp hsub
  | some resp =>
    unfold Message.answer at hans
    split at hans
    · rename_i hm
      have hne : m.data ≠ [] := fun h0 => by simp [h0] at hm
      have htype : (m.over x.buffer).type = msgTypeRequest := (Message.over_type hne _).trans hm.1
      have hlen : (m.over x.buffer).length = 1 + 24 := Message.over_length_eq_iff.mpr hm.2
      unfold clientReceive
      rw [if_neg (by rw [htype]; decide), if_pos htype, if_neg (by rw [hlen]; decide),
        Message.over_tail hne, Request.ofBytes_append (by simp [hm.2]), hans]
      simp [ClientPc.hand, response_responseMessage]
    · cases hans

/-! ## Operations on one connection -/

/-- Only the connection `d` changes. -/
structure Touches (d : ℕ) (n n' : Net Message ClientPc) : Prop where
  fd : n'.fd = n.fd
  polled : n'.polled = n.polled
  other : ∀ c, c ≠ d → channel n' c = channel n c

section

variable {n n' : Net Message ClientPc} {fd d : ℕ} {m : Message}

theorem touches_send (h : n.send fd m = some n') :
    ∃ d, n.fd fd = some d ∧ Touches d n n' ∧
      channel n' d = ⟨n.toServer d, n.toClient d ++ [m], n.peer d⟩ := by
  have hsame := SameNet.of_send h
  obtain ⟨d, hfd, hs, hp, hc⟩ := Net.send_eq h
  refine ⟨d, hfd, ⟨hsame.fd, hsame.polled, fun c hcd => ?_⟩, ?_⟩
  · simp only [channel, hs, hp, hc, Function.update_of_ne hcd]
  · simp only [channel, hs, hp, hc, Function.update_self]

theorem touches_recv (h : n.recv fd = some (d, m, n')) :
    n.fd fd = some d ∧ Touches d n n' ∧
      ∃ ms, n.toServer d = m :: ms ∧ channel n' d = ⟨ms, n.toClient d, n.peer d⟩ := by
  obtain ⟨hsame, -⟩ := SameNet.of_recv h
  obtain ⟨hfd, hc, hp, ms, hms, hs⟩ := Net.recv_eq h
  refine ⟨hfd, ⟨hsame.fd, hsame.polled, fun c hcd => ?_⟩, ms, hms, ?_⟩
  · simp only [channel, hs, hp, hc, Function.update_of_ne hcd]
  · simp only [channel, hs, hp, hc, Function.update_self]

/-- The client moves on, and its connection stays as far as it is. -/
structure Channel.Keeps (k k' : Channel) : Prop where
  serving : k.Serving → k'.Serving
  fresh : k.Fresh → k'.Fresh
  read : k.Read → k'.Read

theorem keeps_recv {q q' : ClientPc} {m : Message} {ms ts : List Message} {x : Unset}
    (h : (client A).recv q x m = some q') :
    Channel.Keeps ⟨ts, m :: ms, some q⟩ ⟨ts, ms, some q'⟩ := by
  refine ⟨fun hk => ?_, fun hk => (by cases hk), fun hk => (by cases hk)⟩
  have hcall := hk.calls m List.mem_cons_self
  refine ⟨⟨q', rfl, ?_⟩, hk.replies, fun m' hm' => hk.calls m' (List.mem_cons_of_mem m hm')⟩
  cases q with
  | receive =>
    obtain rfl := Option.some.inj h
    exact clientReceive_serves hcall _ _
  | _ => cases h

theorem keeps_send {q : ClientPc} {q' : Bool → ClientPc} {m : Message} {ms ts : List Message}
    {x : Unset} (h : (client A).send q x = some (m, q')) :
    Channel.Keeps ⟨ts, ms, some q⟩ ⟨ts ++ [m], ms, some (q' true)⟩ := by
  refine ⟨fun hk => ?_, fun hk => ?_, fun hk => ?_⟩
  · obtain ⟨q₀, hq₀, hserves⟩ := hk.peer
    obtain rfl := Option.some.inj hq₀
    cases q with
    | answer sm =>
      obtain ⟨rfl, rfl⟩ := Prod.mk.inj (Option.some.inj h)
      refine ⟨⟨.receive, rfl, trivial⟩, fun m' hm' => ?_, hk.calls⟩
      obtain hm' | hm' := List.mem_append.mp hm'
      · exact hk.replies m' hm'
      · rw [List.mem_singleton.mp hm']
        exact hserves
    | receive => cases h
    | register | unregister | close | ended => exact hserves.elim
  · cases hk with
    | silent name =>
      obtain ⟨rfl, rfl⟩ := Prod.mk.inj (Option.some.inj h)
      exact .registered name
    | registered name => cases h
  · cases hk
    cases h

/-- A client acts, and does not leave by itself. -/
theorem touches_act {c : ℕ} {x : Unset} {a : Act} (h : n.act (client A) c x a = some n')
    (hsend : ∀ ok, a = .send ok → ok = true)
    (hint : a = .internal → (n.peer c).all ClientPc.leaving = true) :
    Touches c n n' ∧ (channel n c).Keeps (channel n' c) ∧
      ∀ c', underWay A n' c' = underWay A n c' := by
  have hsame := SameNet.of_act h
  cases a with
  | recv =>
    obtain ⟨q, q', m, ms, hq, hms, hrecv, hs, hc, hp⟩ := Net.act_recv_eq h
    refine ⟨⟨hsame.fd, hsame.polled, fun d hd => ?_⟩, ?_, fun d => ?_⟩
    · simp only [channel, hs, hp, hc, Function.update_of_ne hd]
    · simp only [channel, hs, hp, hc, hq, hms, Function.update_self]
      exact keeps_recv hrecv
    · by_cases hd : d = c
      · subst hd
        cases q with
        | receive =>
          obtain rfl := Option.some.inj hrecv
          simp only [underWay, hq, hms, hs, hc, hp, Function.update_self, List.append_assoc,
            hand_clientReceive]
          rw [List.filterMap_cons, show ClientPc.hand (some .receive) = [] from rfl,
            List.nil_append]
          cases m.answer A <;> rfl
        | _ => cases hrecv
      · exact underWay_congr (congrFun hs d) (by rw [hc, Function.update_of_ne hd])
          (by rw [hp, Function.update_of_ne hd])
  | send ok =>
    obtain rfl := hsend ok rfl
    obtain ⟨q, m, q', hq, hq', hc, hs, hp⟩ := Net.act_send_eq h
    refine ⟨⟨hsame.fd, hsame.polled, fun d hd => ?_⟩, ?_, fun d => ?_⟩
    · simp only [channel, hs, hp, hc, Function.update_of_ne hd]
    · simp only [channel, hs, hp, hc, hq, Function.update_self, if_true]
      exact keeps_send hq'
    · by_cases hd : d = c
      · subst hd
        obtain ⟨hm, hhand⟩ := client_send_hand hq' true
        simp only [underWay, hq, hs, hc, hp, Function.update_self, hhand, ← hm, List.append_nil,
          if_true, List.filterMap_append]
        cases hr : m.response <;> simp [hr]
      · exact underWay_congr (by rw [hs, Function.update_of_ne hd]) (congrFun hc d)
          (by rw [hp, Function.update_of_ne hd])
  | internal =>
    obtain ⟨q, q', hq, hq', hs, hc, hp⟩ := Net.act_internal_eq h
    have hleave := hint rfl
    rw [hq] at hleave
    obtain rfl : q = .close := by
      cases q with
      | close => rfl
      | _ => cases hleave
    obtain rfl := Option.some.inj hq'
    refine ⟨⟨hsame.fd, hsame.polled, fun d hd => ?_⟩, ⟨fun hk => ?_, fun hk => ?_, fun hk => ?_⟩,
      fun d => ?_⟩
    · simp only [channel, hs, hp, hc, Function.update_of_ne hd]
    · obtain ⟨q, hpeer, hserves⟩ := hk.peer
      obtain rfl := Option.some.inj (hq.symm.trans hpeer)
      exact hserves.elim
    · obtain ⟨name, hpeer⟩ | hpeer := hk.peer
      · cases hq.symm.trans hpeer
      · cases hq.symm.trans hpeer
    · cases hq.symm.trans (congrArg Channel.peer hk)
    · by_cases hd : d = c
      · subst hd
        simp only [underWay, hq, hs, hc, hp, Function.update_self]
        rfl
      · exact underWay_congr (congrFun hs d) (congrFun hc d) (by rw [hp, Function.update_of_ne hd])

end

/-! ## Descriptors and slots -/

/-- The descriptors, the slots and the accept threads, while nothing is closed. -/
structure State.Grounded {P : Peer Message} (s : State P) : Prop where
  slots : s.mem.SlotsPolled
  hands : s.HandsOk
  hasSlot : ∀ fd, s.mem.net.polled fd = true → s.mem.HasSlot fd
  handOk : ∀ fd c, s.mem.net.fd fd = some c → s.mem.HandOk (fd, c)

section

variable {P : Peer Message} {s s' : State P} {l : Label P}

theorem State.Grounded.hasSlot_next (h : s.Grounded) (he : Effect s l s')
    (hup : s'.mem.exited = false) (hunregister : ∀ t client, s.pc t ≠ .unregister client)
    (htimeOut : ∀ ok, l = .pinger ok → s.mem.Same s'.mem) (fd : ℕ)
    (hfd : s'.mem.net.polled fd = true) : s'.mem.HasSlot fd := by
  have hsame : s.mem.Same s'.mem → s'.mem.HasSlot fd := fun hs => by
    rw [hs.polled] at hfd
    exact (h.hasSlot fd hfd).of_same hs
  cases he with
  | quiet _ hs _ => exact hsame hs
  | goes hs _ _ => exact hsame hs
  | @accept t fd' c x net _ _ hn =>
    obtain ⟨-, -, -, hpolled, -⟩ := accept_spec hn
    change net.polled fd = true at hfd
    rw [hpolled] at hfd
    exact h.hasSlot fd hfd
  | @insert t ok fd' name _ =>
    change (s.mem.insertClient fd' name).exited = false at hup
    change (s.mem.insertClient fd' name).net.polled fd = true at hfd
    show (s.mem.insertClient fd' name).HasSlot fd
    obtain ⟨-, hm⟩ | ⟨hexit, -, -⟩ | ⟨id, hid, -, hm⟩ := insertClient_cases s.mem fd' name
    · rw [hm] at hfd ⊢
      exact h.hasSlot fd hfd
    · rw [hexit] at hup
      cases hup
    · have hclients : (s.mem.insertClient fd' name).clients =
          s.mem.clients.occupy id fd' name := by rw [hm]
      obtain ⟨hnew, hold⟩ := Mem.HasSlot.occupy hid hclients
      by_cases hff : fd = fd'
      · rw [hff]
        exact hnew
      · rw [hm] at hfd
        change Function.update s.mem.net.polled fd' true fd = true at hfd
        rw [Function.update_of_ne hff] at hfd
        exact hold fd (h.hasSlot fd hfd)
  | unregister hpc => exact absurd hpc (hunregister _ _)
  | pong _ _ => exact hsame (.setInactivity _ _ _)
  | timeOut _ _ _ => exact hsame (htimeOut _ rfl)

/-- An open connection is at one descriptor. -/
theorem State.Grounded.handOk_next (h : s.Grounded) (he : s.mem.Evolves s'.mem) {fd c : ℕ}
    (hfd : s'.mem.net.fd fd = some c) : s'.mem.HandOk (fd, c) := by
  obtain hold | ⟨fd₀, c₀, hnew, hsome, -, hup⟩ := he.fd
  · exact (h.handOk fd c (hold fd c hfd)).evolves he
  · by_cases hff : fd = fd₀
    · obtain rfl : c₀ = c := by
        rw [hup, hff, Function.update_self] at hfd
        exact Option.some.inj hfd
      refine ⟨hsome, fun fd' hfd' => ?_⟩
      -- the new connection was at no descriptor
      by_contra hne
      rw [hup, Function.update_of_ne (hff ▸ hne)] at hfd'
      have hconn := (h.handOk fd' c₀ hfd').conn
      rw [hnew] at hconn
      cases hconn
    · rw [hup, Function.update_of_ne hff] at hfd
      exact (h.handOk fd c hfd).evolves he

/-- A connection that is polled is no accept thread's. -/
theorem State.Grounded.not_handled (h : s.Grounded) {t : Thread} {fd fd' c : ℕ}
    (ht : t ≠ .listener) (hpc : (s.pc t).handled = some fd') (hfd' : s.mem.net.fd fd' = some c)
    (hfd : s.mem.net.fd fd = some c) : s.mem.net.polled fd = false := by
  obtain rfl := (h.handOk fd' c hfd').home fd hfd
  exact (h.hands.addable t fd ht hpc).2

end

/-! ## What the threads know -/

/-- What the listener gets from a client that has registered. -/
def SocketMessage.IsReply (sm : SocketMessage) : Prop :=
  sm.type = msgTypePong ∨ sm.type = msgTypeResponse

theorem Message.IsReply.over {m : Message} (h : m.IsReply) (old : List UInt8) :
    (m.over old).IsReply :=
  h.imp over_type_of_head over_type_of_head

/-- An accept thread and the connection that it handles. -/
def Pc.Accepts (n : Net Message ClientPc) : Pc → Prop
  | .receive fd => ∀ c, n.fd fd = some c → (channel n c).Fresh
  | .check fd _ => ∀ c, n.fd fd = some c → (channel n c).Read
  | .refuse fd => ∀ c, n.fd fd = some c → (channel n c).Read
  | .insert fd _ => ∀ c, n.fd fd = some c → (channel n c).Read
  | _ => True

/-- The listener and the reply that it handles. -/
def Pc.Listens (n : Net Message ClientPc) : Pc → Prop
  | .idle => True
  | .receive fd => n.polled fd = true
  | .lookup fd _ sm => n.polled fd = true ∧ sm.IsReply
  | .dispatch _ _ client sm => client ≠ none ∧ sm.IsReply
  | _ => False

/-- The main thread and the client that it sends a request to. -/
def MainPc.Sends (A : Arith) (m : Mem ClientPc) : MainPc → Prop
  | .idle => True
  | .choose req => processRequest A req ≠ none
  | .send clid req => (m.clients clid).active = true ∧ processRequest A req ≠ none
  | .sending fd req => m.net.polled fd = true ∧ processRequest A req ≠ none

/-- The invariant of the calm runs. -/
structure State.Steady (A : Arith) (s : State (client A)) : Prop where
  grounded : s.Grounded
  serving : ∀ fd c, s.mem.net.fd fd = some c → s.mem.net.polled fd = true →
    (channel s.mem.net c).Serving
  accepts : ∀ t, t ≠ .listener → (s.pc t).Accepts s.mem.net
  listens : (s.pc .listener).Listens s.mem.net
  main : s.main.Sends A s.mem
  sent : ∀ p ∈ s.mem.sent, processRequest A p.2 ≠ none
  pipeline : ∀ c, s.pipeline A c = answersTo A s.mem.sent c

section

variable {n n' : Net Message ClientPc} {d : ℕ} {pc : Pc}

/-- The connection that the thread handles stays as it is. -/
theorem Pc.Accepts.of_handled (h : pc.Accepts n)
    (hsame : ∀ fd c, pc.handled = some fd → n'.fd fd = some c →
      n.fd fd = some c ∧ channel n' c = channel n c) : pc.Accepts n' := by
  cases pc with
  | receive fd | check fd | refuse fd | insert fd =>
    intro c hfd
    obtain ⟨hfd', hch⟩ := hsame fd c rfl hfd
    rw [hch]
    exact h c hfd'
  | _ => trivial

/-- A thread that handles another connection. -/
theorem Pc.Accepts.touches (h : pc.Accepts n) (ht : Touches d n n')
    (hd : ∀ fd, pc.handled = some fd → n.fd fd ≠ some d) : pc.Accepts n' := by
  refine h.of_handled fun fd c hpc hfd => ?_
  rw [ht.fd] at hfd
  exact ⟨hfd, ht.other c fun hcd => hd fd hpc (hcd ▸ hfd)⟩

/-- The client of the connection moves on. -/
theorem Pc.Accepts.keeps (h : pc.Accepts n) (ht : Touches d n n')
    (hk : (channel n d).Keeps (channel n' d)) : pc.Accepts n' := by
  have hkeeps : ∀ c, (channel n c).Keeps (channel n' c) := by
    intro c
    by_cases hcd : c = d
    · rw [hcd]
      exact hk
    · rw [ht.other c hcd]
      exact ⟨id, id, id⟩
  cases pc with
  | receive fd => exact fun c hfd => (hkeeps c).fresh (h c (ht.fd ▸ hfd))
  | check fd | refuse fd | insert fd => exact fun c hfd => (hkeeps c).read (h c (ht.fd ▸ hfd))
  | _ => trivial

theorem Pc.Listens.mono (h : pc.Listens n)
    (hp : ∀ fd, n.polled fd = true → n'.polled fd = true) : pc.Listens n' := by
  cases pc with
  | receive fd => exact hp fd h
  | lookup fd => exact ⟨hp fd h.1, h.2⟩
  | idle => trivial
  | dispatch => exact h
  | unregister | check | refuse | insert => exact h.elim

theorem MainPc.Sends.mono {m m' : Mem ClientPc} {pc : MainPc} (h : pc.Sends A m)
    (hp : ∀ fd, m.net.polled fd = true → m'.net.polled fd = true)
    (ha : ∀ i, (m.clients i).active = true → (m'.clients i).active = true) : pc.Sends A m' := by
  cases pc with
  | idle => trivial
  | choose req => exact h
  | send clid req => exact ⟨ha clid h.1, h.2⟩
  | sending fd req => exact ⟨hp fd h.1, h.2⟩

theorem MainPc.Sends.of_same {m m' : Mem ClientPc} {pc : MainPc} (h : pc.Sends A m)
    (hs : m.Same m') : pc.Sends A m' :=
  h.mono (fun fd hfd => by rw [hs.polled, hfd]) fun i hi => by rw [hs.active, hi]

end

section

variable {s s' : State (client A)} {l : Label (client A)}

theorem State.Steady.not_unregister (h : s.Steady A) (t : Thread) (client : Option Slot) :
    s.pc t ≠ .unregister client := by
  intro hpc
  by_cases ht : t = .listener
  · have hl := h.listens
    rw [← ht, hpc] at hl
    exact hl
  · have hacc := h.grounded.hands.accepting t ht
    rw [hpc] at hacc
    cases hacc

theorem State.Steady.staysUp (h : s.Steady A) (l : Label (client A)) : StaysUp s l := by
  cases l with
  | thread t ok =>
    refine ⟨?_, ?_⟩
    · cases hpc : s.pc t with
      | unregister client => exact absurd hpc (h.not_unregister t client)
      | _ => rfl
    · rintro rfl
      have hl := h.listens
      cases hpc : s.pc .listener with
      | insert fd name =>
        rw [hpc] at hl
        exact hl.elim
      | _ => rfl
  | _ => trivial

/-- In a calm run the pinger times nobody out. -/
theorem pinger_same {ok : Bool} (hc : Calm s (.pinger ok)) (hn : pingerStep s ok = some s') :
    s.mem.Same s'.mem := by
  unfold pingerStep at hn
  split at hn
  · cases hn
    exact .refl _
  · rename_i i hi
    split at hn
    · rename_i hlt
      obtain ⟨m, hm, rfl⟩ := Option.map_eq_some_iff.mp hn
      have hcalm := hc ⟨i, hlt⟩ hi
      unfold Mem.pingSlot at hm
      split at hm
      · cases hm
        exact .refl _
      · rename_i hactive
        split at hm
        · have := hcalm (by simpa using hactive)
          omega
        · exact (Mem.Same.setInactivity _ _ _).trans (Mem.Same.sendSm hm).1
    · cases hn
      exact .refl _

theorem State.Steady.grounded_next (h : s.Steady A) (hc : Calm s l)
    (hn : (server strtod (client A)).next s l = some s') : s'.Grounded := by
  obtain ⟨he, heff⟩ := server_effect hn
  have hstays := h.staysUp l
  have hup := heff.exited h.grounded.hands hstays he
  have htimeOut : ∀ ok, l = .pinger ok → s.mem.Same s'.mem := by
    rintro ok rfl
    simp only [server, he, Bool.false_eq_true, if_false] at hn
    exact pinger_same hc hn
  refine ⟨heff.slotsPolled h.grounded.slots (fun t ok hl => ?_) hup,
    heff.handsOk h.grounded.slots h.grounded.hands hstays,
    h.grounded.hasSlot_next heff hup h.not_unregister htimeOut,
    fun fd c => h.grounded.handOk_next heff.evolves⟩
  subst hl
  exact hstays.1

end

end AghOs.Calc
