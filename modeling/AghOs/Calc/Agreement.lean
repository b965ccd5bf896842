import AghOs.Calc.Client
import AghOs.Calc.Server

/-!
# Requests and responses

On every connection, what the listener has printed, the response it has in hand
and what is still under way (responses in the connection, the one in the hand of
the client, requests in the connection) are, in this order, responses to
requests sent on this connection, each at most once and in the order in which
they were sent. `current_request_id` counts the requests that were sent, so
their ids are distinct.

* `reach_pipeline`, `reach_ids`: both invariants.
* `agreement`: every response printed answers a request that was sent on the
  connection it came from, and no id is printed twice.
-/

namespace AghOs.Calc

variable {A : Arith} {strtod : List UInt8 → Double × List UInt8}

/-! ## What is under way on a connection -/

/-- The response in the hand of a client. -/
def ClientPc.hand : Option ClientPc → List Response
  | some (.answer sm) => sm.message.response.toList
  | _ => []

/-- The responses that are under way from connection `c`, or will be. -/
def underWay (A : Arith) (n : Net Message ClientPc) (c : ℕ) : List Response :=
  (n.toServer c).filterMap Message.response ++ ClientPc.hand (n.peer c) ++
    (n.toClient c).filterMap (Message.answer A)

theorem underWay_congr {n n' : Net Message ClientPc} {c : ℕ} (h : n'.toServer c = n.toServer c)
    (h' : n'.toClient c = n.toClient c) (h'' : n'.peer c = n.peer c) :
    underWay A n' c = underWay A n c := by
  simp only [underWay, h, h', h'']

theorem underWay_poll {n n' : Net Message ClientPc} {fd : ℕ} (h : n.poll fd = some n') (c : ℕ) :
    underWay A n' c = underWay A n c := by
  obtain ⟨hs, hc, hp⟩ := Net.poll_eq h
  exact underWay_congr (congrFun hs c) (congrFun hc c) (congrFun hp c)

theorem underWay_accept {n n' : Net Message ClientPc} {fd conn : ℕ} {name : List UInt8}
    (h : n.accept fd conn (.register name) = some n') (c : ℕ) :
    (underWay A n' c).Sublist (underWay A n c) := by
  obtain ⟨hs, hc, hs0, hc0, hp⟩ := Net.accept_eq h
  by_cases hcc : c = conn
  · subst hcc
    simp [underWay, hs, hc, hs0, hc0, hp, ClientPc.hand]
  · rw [underWay_congr (congrFun hs c) (congrFun hc c) (by rw [hp, Function.update_of_ne hcc])]

/-- A message to a client that is no request. -/
theorem underWay_send {n n' : Net Message ClientPc} {fd : ℕ} {m : Message}
    (hm : m.answer A = none) (h : n.send fd m = some n') (c : ℕ) :
    underWay A n' c = underWay A n c := by
  obtain ⟨d, -, hs, hp, hc⟩ := Net.send_eq h
  by_cases hcd : c = d
  · subst hcd
    simp [underWay, hs, hp, hc, hm]
  · exact underWay_congr (congrFun hs c) (by rw [hc, Function.update_of_ne hcd]) (congrFun hp c)

theorem underWay_request {n n' : Net Message ClientPc} {fd conn : ℕ} {req : Request}
    (hfd : n.fd fd = some conn) (h : n.send fd (requestMessage req).message = some n') (c : ℕ) :
    underWay A n' c = underWay A n c ++ if c = conn then (processRequest A req).toList else [] := by
  obtain ⟨d, hd, hs, hp, hc⟩ := Net.send_eq h
  obtain rfl : conn = d := by simpa [hfd] using hd
  by_cases hcd : c = conn
  · subst hcd
    have hans := answer_requestMessage A req
    cases hresp : processRequest A req <;> simp [underWay, hs, hp, hc, hans, hresp]
  · simp only [hcd, if_false, List.append_nil]
    exact underWay_congr (congrFun hs c) (by rw [hc, Function.update_of_ne hcd]) (congrFun hp c)

theorem underWay_recv {n n' : Net Message ClientPc} {fd conn : ℕ} {m : Message}
    (h : n.recv fd = some (conn, m, n')) (c : ℕ) :
    underWay A n c = (if conn = c then m.response.toList else []) ++ underWay A n' c := by
  obtain ⟨-, hc, hp, ms, hms, hs⟩ := Net.recv_eq h
  by_cases hcc : conn = c
  · subst hcc
    simp only [underWay, hc, hp, hs, hms, Function.update_self, if_true, List.filterMap_cons]
    cases m.response <;> simp
  · simp only [hcc, if_false, List.nil_append]
    exact (underWay_congr (by rw [hs, Function.update_of_ne (Ne.symm hcc)]) (congrFun hc c)
      (congrFun hp c)).symm

theorem clientReceive_hand (x : Unset) (m : Message) :
    (ClientPc.hand (some (clientReceive A x.padding (m.over x.buffer)))).Sublist
      (m.answer A).toList := by
  cases hq : clientReceive A x.padding (m.over x.buffer) with
  | answer sm =>
    cases hr : sm.message.response with
    | none => simp [ClientPc.hand, hr]
    | some resp => simp [ClientPc.hand, hr, clientReceive_answer hq hr]
  | _ => exact List.nil_sublist _

/-- What a client sends puts a response under way only if it had it in hand. -/
theorem client_send_hand {q : ClientPc} {x : Unset} {m : Message} {q' : Bool → ClientPc}
    (h : (client A).send q x = some (m, q')) (ok : Bool) :
    m.response.toList = ClientPc.hand (some q) ∧ ClientPc.hand (some (q' ok)) = [] := by
  cases q <;> cases h
  · rw [response_registerMessage]
    cases ok <;> exact ⟨rfl, rfl⟩
  · exact ⟨rfl, rfl⟩
  · exact ⟨rfl, rfl⟩

/-- A client moves responses on, or drops them. -/
theorem underWay_act {n n' : Net Message ClientPc} {conn : ℕ} {x : Unset} {a : Act}
    (h : n.act (client A) conn x a = some n') (c : ℕ) :
    (underWay A n' c).Sublist (underWay A n c) := by
  cases a with
  | recv =>
    obtain ⟨q, q', m, ms, hq, hms, hrecv, hs, hc, hp⟩ := Net.act_recv_eq h
    by_cases hcc : c = conn
    · subst hcc
      obtain rfl : q = .receive := by cases q <;> first | rfl | cases hrecv
      obtain rfl : clientReceive A x.padding (m.over x.buffer) = q' := Option.some.inj hrecv
      have hhand := clientReceive_hand (A := A) x m
      simp only [underWay, hq, hms, hs, hc, hp, Function.update_self, List.append_assoc]
      refine List.Sublist.append_left ?_ _
      rw [List.filterMap_cons, show ClientPc.hand (some .receive) = [] from rfl, List.nil_append]
      cases hans : m.answer A with
      | none =>
        rw [hans] at hhand
        simp [List.sublist_nil.mp hhand]
      | some resp =>
        rw [hans] at hhand
        exact hhand.append_right _
    · rw [underWay_congr (congrFun hs c) (by rw [hc, Function.update_of_ne hcc])
        (by rw [hp, Function.update_of_ne hcc])]
  | send ok =>
    obtain ⟨q, m, q', hq, hsend, hc, hs, hp⟩ := Net.act_send_eq h
    by_cases hcc : c = conn
    · subst hcc
      obtain ⟨hm, hq'⟩ := client_send_hand hsend ok
      simp only [underWay, hq, hs, hc, hp, Function.update_self, hq', ← hm, List.append_nil]
      refine List.Sublist.append_right ?_ _
      cases ok with
      | false => simp
      | true => cases hr : m.response <;> simp [hr]
    · rw [underWay_congr (by rw [hs, Function.update_of_ne hcc]) (congrFun hc c)
        (by rw [hp, Function.update_of_ne hcc])]
  | internal =>
    obtain ⟨q, q', hq, hint, hs, hc, hp⟩ := Net.act_internal_eq h
    by_cases hcc : c = conn
    · subst hcc
      have hq' : ClientPc.hand (some q') = [] := by cases q <;> cases hint <;> rfl
      simp only [underWay, hq, hs, hc, hp, Function.update_self, hq', List.append_nil]
      exact (List.sublist_append_left _ _).append_right _
    · rw [underWay_congr (congrFun hs c) (congrFun hc c) (by rw [hp, Function.update_of_ne hcc])]

/-! ## What the listener has in hand -/

/-- The response that the listener prints for a message, unless the client is
    unknown. -/
def SocketMessage.printable (sm : SocketMessage) : Option Response :=
  if sm.type = msgTypeResponse then sm.response else none

theorem over_printable (m : Message) (old : List UInt8) :
    (m.over old).printable = m.response := by
  by_cases hlen : m.data.length = 17
  · have hne : m.data ≠ [] := fun h0 => by simp [h0] at hlen
    have hl : (m.over old).length = 1 + 16 := Message.over_length_eq_iff.mpr hlen
    simp only [SocketMessage.printable, SocketMessage.response, Message.response, hl,
      Message.over_type hne, Message.over_tail hne, hlen, ne_eq, not_true_eq_false, if_false,
      and_true]
    rw [Response.ofBytes_append (by simp [hlen])]
  · have hl : (m.over old).length ≠ 1 + 16 := fun h => hlen (Message.over_length_eq_iff.mp h)
    have hr : m.response = none := if_neg fun h => hlen h.2
    rw [hr, SocketMessage.printable, SocketMessage.response, if_pos hl, ite_self]

/-- The response in the hand of the listener, if it is from connection `c`. -/
def Pc.hand (c : ℕ) : Pc → List Response
  | .lookup _ conn sm => if conn = c then sm.printable.toList else []
  | .dispatch _ conn _ sm => if conn = c then sm.printable.toList else []
  | _ => []

/-- The thread is in the part of its loop that only the listener has. -/
def Pc.listening : Pc → Bool
  | .lookup .. => true
  | .dispatch .. => true
  | _ => false

theorem Pc.hand_of_not_listening {pc : Pc} (h : pc.listening = false) (c : ℕ) :
    pc.hand c = [] := by
  cases pc <;> first | rfl | cases h

/-- The responses printed that came from connection `c`. -/
def printedOn (ps : List Printed) (c : ℕ) : List Response :=
  (ps.filter fun p => p.conn = c).map Printed.resp

/-- What is printed, in the hand of a thread, or under way. -/
def Mem.pipeline (A : Arith) (m : Mem ClientPc) (pc : Pc) (c : ℕ) : List Response :=
  printedOn m.printed c ++ pc.hand c ++ underWay A m.net c

/-- A step that sends no request: it moves responses on, or drops them. -/
structure Flows (A : Arith) (m m' : Mem ClientPc) (pc pc' : Pc) : Prop where
  sent : m'.sent = m.sent
  id : m'.currentRequestId = m.currentRequestId
  pipeline : ∀ c, (m'.pipeline A pc' c).Sublist (m.pipeline A pc c)

/-- Nothing is printed, and the hand is empty afterwards. -/
theorem Flows.of_net {m m' : Mem ClientPc} {pc pc' : Pc} (hs : m'.sent = m.sent)
    (hid : m'.currentRequestId = m.currentRequestId) (hp : m'.printed = m.printed)
    (hpc : ∀ c, (pc'.hand c).Sublist (pc.hand c))
    (hn : ∀ c, (underWay A m'.net c).Sublist (underWay A m.net c)) : Flows A m m' pc pc' :=
  ⟨hs, hid, fun c => by
    rw [Mem.pipeline, Mem.pipeline, hp]
    exact ((hpc c).append_left _).append (hn c)⟩

theorem Flows.refl_pc {m : Mem ClientPc} {pc pc' : Pc} (h : pc'.listening = false) :
    Flows A m m pc pc' :=
  .of_net rfl rfl rfl (fun c => by rw [Pc.hand_of_not_listening h]; exact List.nil_sublist _)
    fun _ => .refl _

theorem Mem.sendSm_flows {m m' : Mem ClientPc} {fd : ℕ} {sm : SocketMessage} {ok : Bool}
    {pc pc' : Pc} (hpc : ∀ c, (pc'.hand c).Sublist (pc.hand c))
    (hsm : sm.message.answer A = none) (h : m.sendSm fd sm ok = some m') :
    Flows A m m' pc pc' := by
  unfold Mem.sendSm at h
  split at h
  · obtain ⟨net, hnet, rfl⟩ := Option.map_eq_some_iff.mp h
    exact .of_net rfl rfl rfl hpc fun c => by rw [underWay_send hsm hnet]
  · cases h
    exact .of_net rfl rfl rfl hpc fun _ => .refl _

theorem Mem.sendSm_printed {m m' : Mem ClientPc} {fd : ℕ} {sm : SocketMessage} {ok : Bool}
    (h : m.sendSm fd sm ok = some m') : m'.printed = m.printed := by
  unfold Mem.sendSm at h
  split at h
  · obtain ⟨net, -, rfl⟩ := Option.map_eq_some_iff.mp h
    rfl
  · cases h
    rfl

theorem Mem.handleResponse_flows {m : Mem ClientPc} {id : Slot} {fd conn : ℕ} {client : Option Slot}
    {sm : SocketMessage} (htype : sm.type = msgTypeResponse) :
    Flows A m (m.handleResponse id conn sm) (.dispatch fd conn client sm) .idle := by
  have hp : sm.printable = sm.response := if_pos htype
  unfold Mem.handleResponse
  cases hr : sm.response with
  | none => exact .refl_pc rfl
  | some resp =>
    refine ⟨rfl, rfl, fun c => ?_⟩
    by_cases hc : conn = c
    · simp [Mem.pipeline, printedOn, Pc.hand, hc, hp, hr]
    · simp [Mem.pipeline, printedOn, Pc.hand, hc]

theorem Mem.dispatch_flows {m m' : Mem ClientPc} {fd conn : ℕ} {client : Option Slot}
    {sm : SocketMessage} {pc' : Pc} (h : m.dispatch fd conn client sm = (m', pc')) :
    Flows A m m' (.dispatch fd conn client sm) pc' := by
  unfold Mem.dispatch at h
  split at h
  · cases h
    exact .refl_pc rfl
  · split at h
    · cases h
      exact .refl_pc rfl
    · split at h
      · cases h
        exact .refl_pc rfl
      · split at h
        · cases h
          exact .of_net rfl rfl rfl (fun _ => List.nil_sublist _) fun _ => .refl _
        · split at h
          · rename_i htype
            cases h
            exact Mem.handleResponse_flows htype
          · cases h
            exact .refl_pc rfl

theorem threadStep_flows {m m' : Mem ClientPc} {locked ok : Bool} {pc pc' : Pc}
    (h : threadStep m locked ok pc = some (m', pc')) :
    Flows A m m' pc pc' ∧
      (pc.listening = false → pc'.listening = false ∧ m'.printed = m.printed) := by
  cases pc with
  | idle => cases h
  | receive fd => cases h
  | lookup fd conn sm =>
    simp only [threadStep] at h
    split at h <;> cases h
    exact ⟨.of_net rfl rfl rfl (fun _ => .refl _) fun _ => .refl _, fun hpc => by cases hpc⟩
  | dispatch fd conn client sm =>
    exact ⟨Mem.dispatch_flows (Option.some.inj h), fun hpc => by cases hpc⟩
  | unregister client =>
    simp only [threadStep] at h
    split at h <;> cases h
    cases client with
    | none => exact ⟨.refl_pc rfl, fun _ => ⟨rfl, rfl⟩⟩
    | some id =>
      exact ⟨.of_net rfl rfl rfl (fun _ => .refl _) fun _ => .refl _, fun _ => ⟨rfl, rfl⟩⟩
  | check fd sm =>
    simp only [threadStep] at h
    split at h <;> cases h
    split <;> exact ⟨.refl_pc rfl, fun _ => ⟨rfl, rfl⟩⟩
  | refuse fd =>
    obtain ⟨m'', hm, hp⟩ := Option.map_eq_some_iff.mp h
    cases hp
    exact ⟨Mem.sendSm_flows (fun _ => .refl _) (answer_typeMessage A _) hm,
      fun _ => ⟨rfl, Mem.sendSm_printed hm⟩⟩
  | insert fd name =>
    simp only [threadStep] at h
    split at h <;> cases h
    unfold Mem.insertClient
    split
    · exact ⟨.refl_pc rfl, fun _ => ⟨rfl, rfl⟩⟩
    · split
      · exact ⟨.of_net rfl rfl rfl (fun _ => .refl _) fun _ => .refl _, fun _ => ⟨rfl, rfl⟩⟩
      · rename_i net hnet
        exact ⟨.of_net rfl rfl rfl (fun _ => .refl _) fun c => by rw [underWay_poll hnet],
          fun _ => ⟨rfl, rfl⟩⟩

theorem receiveStep_flows {m m' : Mem ClientPc} {t : Thread} {old : Option (List UInt8)}
    {pc pc' : Pc} (h : receiveStep m t old pc = some (m', pc')) :
    Flows A m m' pc pc' ∧
      (t ≠ .listener → pc'.listening = false ∧ m'.printed = m.printed) := by
  unfold receiveStep at h
  split at h
  · split at h
    · cases h
      exact ⟨.refl_pc rfl, fun _ => ⟨rfl, rfl⟩⟩
    · obtain ⟨⟨conn, msg, net⟩, hrecv, hp⟩ := Option.map_eq_some_iff.mp h
      cases hp
      have hnet := underWay_recv (A := A) hrecv
      by_cases ht : t = .listener
      · -- the message goes from the connection into the hand of the listener
        refine ⟨⟨rfl, rfl, fun c => ?_⟩, fun hne => absurd ht hne⟩
        simp only [Mem.pipeline, ht, if_true, Pc.hand, List.append_nil, over_printable]
        rw [hnet c, List.append_assoc]
      · refine ⟨.of_net rfl rfl rfl (fun c => ?_) fun c => ?_, fun _ => ⟨?_, rfl⟩⟩
        · rw [if_neg ht]
          split <;> exact .refl _
        · rw [hnet c]
          exact List.sublist_append_right _ _
        · rw [if_neg ht]
          split <;> rfl
  · cases h

theorem pingSlot_flows {m m' : Mem ClientPc} {i : Slot} {ok : Bool} {pc : Pc}
    (h : m.pingSlot i ok = some m') : Flows A m m' pc pc := by
  unfold Mem.pingSlot at h
  split at h
  · cases h
    exact .of_net rfl rfl rfl (fun _ => .refl _) fun _ => .refl _
  · split at h
    · cases h
      exact .of_net rfl rfl rfl (fun _ => .refl _) fun _ => .refl _
    · have hf : Flows A _ _ pc pc :=
        Mem.sendSm_flows (fun _ => .refl _) (answer_typeMessage A _) h
      exact ⟨hf.sent, hf.id, hf.pipeline⟩

/-! ## The steps of the server -/

/-- The request that the main thread is about to send. -/
def MainPc.req : MainPc → Option Request
  | .idle => none
  | .choose req => some req
  | .send _ req => some req
  | .sending _ req => some req

def State.pipeline (A : Arith) (s : State (client A)) (c : ℕ) : List Response :=
  s.mem.pipeline A (s.pc .listener) c

/-- The requests sent, as the responses to them, on connection `c`. -/
def answersTo (A : Arith) (sent : List (ℕ × Request)) (c : ℕ) : List Response :=
  (sent.filter fun p => p.1 = c).filterMap fun p => processRequest A p.2

/-- The accept threads are not where only the listener goes. -/
def State.Apart {P : Peer Message} (s : State P) : Prop :=
  ∀ t, t ≠ .listener → (s.pc t).listening = false

/-- No request is sent: responses are moved on, or lost. -/
structure Quiet (A : Arith) (s s' : State (client A)) : Prop where
  sent : s'.mem.sent = s.mem.sent
  id : s'.mem.currentRequestId = s.mem.currentRequestId
  req : ∀ req, s'.main.req = some req →
    s.main.req = some req ∨ req.id = s.mem.currentRequestId
  pipeline : ∀ c, (s'.pipeline A c).Sublist (s.pipeline A c)
  apart : s'.Apart

/-- The main thread sends `req` on the connection `conn`. -/
structure Sends (A : Arith) (s s' : State (client A)) (conn : ℕ) (req : Request) : Prop where
  main : s.main.req = some req
  idle : s'.main.req = none
  sent : s'.mem.sent = s.mem.sent ++ [(conn, req)]
  id : s'.mem.currentRequestId = s.mem.currentRequestId + 1
  pipeline : ∀ c, s'.pipeline A c =
    s.pipeline A c ++ if c = conn then (processRequest A req).toList else []
  apart : s'.Apart

theorem Flows.quiet {s : State (client A)} {t : Thread} {m : Mem ClientPc} {pc : Pc}
    (hA : s.Apart) (hf : Flows A s.mem m (s.pc t) pc)
    (hpc : t ≠ .listener → pc.listening = false ∧ m.printed = s.mem.printed) :
    Quiet A s (s.goto t m pc) where
  sent := hf.sent
  id := hf.id
  req req h := .inl h
  pipeline c := by
    have hp := hf.pipeline c
    by_cases ht : t = .listener
    · subst ht
      simpa [State.pipeline, State.goto] using hp
    · -- an accept thread: neither what is printed nor the hand of the listener changes
      obtain ⟨hpc, hprinted⟩ := hpc ht
      have hl : (s.goto t m pc).pc .listener = s.pc .listener :=
        Function.update_of_ne (Ne.symm ht) ..
      rw [Mem.pipeline, Mem.pipeline, Pc.hand_of_not_listening hpc,
        Pc.hand_of_not_listening (hA t ht), hprinted, List.append_nil,
        List.append_sublist_append_left] at hp
      rw [State.pipeline, State.pipeline, hl, Mem.pipeline, Mem.pipeline]
      simpa only [State.goto, hprinted, List.append_sublist_append_left] using hp
  apart := by
    intro u hu
    by_cases htu : u = t
    · subst htu
      simpa [State.goto] using (hpc hu).1
    · simpa [State.goto, Function.update_of_ne htu] using hA u hu

/-- The shared memory changes, but nothing is printed. -/
theorem Quiet.of_net {s s' : State (client A)} (hA : s.Apart) (hpc : s'.pc = s.pc)
    (hs : s'.mem.sent = s.mem.sent) (hid : s'.mem.currentRequestId = s.mem.currentRequestId)
    (hp : s'.mem.printed = s.mem.printed)
    (hreq : ∀ req, s'.main.req = some req →
      s.main.req = some req ∨ req.id = s.mem.currentRequestId)
    (hn : ∀ c, (underWay A s'.mem.net c).Sublist (underWay A s.mem.net c)) : Quiet A s s' where
  sent := hs
  id := hid
  req := hreq
  pipeline c := by
    rw [State.pipeline, State.pipeline, Mem.pipeline, Mem.pipeline, hpc, hp]
    exact (hn c).append_left _
  apart := by
    rw [State.Apart, hpc]
    exact hA

/-- Nothing changes but where the main thread and the pinger are, and where the search
    for a free client starts. -/
theorem Quiet.of_main {s s' : State (client A)} (hA : s.Apart) (hpc : s'.pc = s.pc)
    (hm : ∃ freeCl, s'.mem = { s.mem with freeCl := freeCl })
    (hreq : ∀ req, s'.main.req = some req →
      s.main.req = some req ∨ req.id = s.mem.currentRequestId) : Quiet A s s' := by
  obtain ⟨freeCl, hm⟩ := hm
  refine .of_net hA hpc ?_ ?_ ?_ hreq fun _ => ?_ <;> rw [hm]

theorem pingerStep_quiet {s s' : State (client A)} {ok : Bool} (hA : s.Apart)
    (h : pingerStep s ok = some s') : Quiet A s s' := by
  simp only [pingerStep] at h
  split at h
  · cases h
    exact .of_main hA rfl ⟨_, rfl⟩ fun _ => .inl
  · split at h
    · obtain ⟨m', hm, rfl⟩ := Option.map_eq_some_iff.mp h
      have hf : Flows A _ _ (s.pc .listener) (s.pc .listener) := pingSlot_flows hm
      exact ⟨hf.sent, hf.id, fun _ => .inl, hf.pipeline, hA⟩
    · cases h
      exact .of_main hA rfl ⟨_, rfl⟩ fun _ => .inl

theorem readLine_id {id : Int32} {line : List UInt8} {req : Request}
    (h : readLine strtod id line = some req) : req.id = id := by
  simp only [readLine] at h
  split at h
  · cases h
  · exact (parseRequest_some h).1

/-- A request that is read gets the id `current_request_id`. -/
theorem readStep_quiet {s s' : State (client A)} {line : List UInt8} (hA : s.Apart)
    (h : readStep strtod s line = some s') : Quiet A s s' := by
  simp only [readStep] at h
  split at h
  · split at h
    · cases h
      exact .of_main hA rfl ⟨_, rfl⟩ fun _ => .inl
    · rename_i req hreq
      cases h
      refine .of_main hA rfl ⟨_, rfl⟩ fun req' hreq' => .inr ?_
      cases hreq'
      exact readLine_id hreq
  · cases h

theorem mainStep_cases {s s' : State (client A)} {ok : Bool} (hA : s.Apart)
    (h : mainStep s ok = some s') : Quiet A s s' ∨ ∃ conn req, Sends A s s' conn req := by
  simp only [mainStep] at h
  split at h
  · cases h
  · -- a client is chosen, once the pinger has finished its round
    rename_i req hmain
    split at h
    · split at h
      · cases h
        exact .inl (.of_main hA rfl ⟨_, rfl⟩ fun _ hr => by cases hr)
      · cases h
        refine .inl (.of_main hA rfl ⟨_, rfl⟩ fun _ hr => .inl ?_)
        rw [hmain]
        exact hr
    · cases h
  · rename_i clid req hmain
    cases h
    refine .inl (.of_main hA rfl ⟨_, rfl⟩ fun _ hr => .inl ?_)
    rw [hmain]
    exact hr
  · rename_i fd req hmain
    obtain ⟨m', hm, rfl⟩ := Option.map_eq_some_iff.mp h
    unfold Mem.sendRequest at hm
    split at hm
    · obtain ⟨conn, hfd, hm⟩ := Option.bind_eq_some_iff.mp hm
      obtain ⟨net, hnet, rfl⟩ := Option.map_eq_some_iff.mp hm
      refine .inr ⟨conn, req, by rw [hmain]; rfl, rfl, rfl, rfl, fun c => ?_, hA⟩
      simp only [State.pipeline, Mem.pipeline, underWay_request hfd hnet c, List.append_assoc]
    · cases hm
      exact .inl (.of_main hA rfl ⟨_, rfl⟩ fun _ hr => by cases hr)

/-- A step of the server sends a request, the next one with `current_request_id`,
    or it moves responses on. -/
theorem server_step {s s' : State (client A)} {l : Label (client A)} (hA : s.Apart)
    (h : (server strtod (client A)).next s l = some s') :
    Quiet A s s' ∨ ∃ conn req, Sends A s s' conn req := by
  simp only [server] at h
  split at h
  · cases h
  cases l with
  | accept t fd conn x =>
    simp only [serverNext, acceptStep] at h
    split at h
    · cases h
    · obtain ⟨net, hnet, rfl⟩ := Option.map_eq_some_iff.mp h
      refine .inl (Flows.quiet hA (.of_net rfl rfl rfl (fun _ => List.nil_sublist _)
        fun c => underWay_accept hnet c) fun _ => ⟨rfl, rfl⟩)
    · cases h
  | epollWait fd =>
    simp only [serverNext, epollStep] at h
    repeat' split at h
    all_goals cases h
    exact .inl (Flows.quiet hA (.refl_pc rfl) fun _ => ⟨rfl, rfl⟩)
  | receive t old =>
    obtain ⟨⟨m', pc'⟩, hm, rfl⟩ := Option.map_eq_some_iff.mp h
    obtain ⟨hf, hpc⟩ := receiveStep_flows (A := A) hm
    exact .inl (hf.quiet hA hpc)
  | thread t ok =>
    obtain ⟨⟨m', pc'⟩, hm, rfl⟩ := Option.map_eq_some_iff.mp h
    obtain ⟨hf, hpc⟩ := threadStep_flows (A := A) hm
    exact .inl (hf.quiet hA fun ht => hpc (hA t ht))
  | pinger ok => exact .inl (pingerStep_quiet hA h)
  | readRequest line => exact .inl (readStep_quiet hA h)
  | main ok => exact mainStep_cases hA h
  | peer conn x a =>
    obtain ⟨net, hnet, rfl⟩ := Option.map_eq_some_iff.mp h
    exact .inl (.of_net hA rfl rfl rfl rfl (fun _ => .inl) fun c => underWay_act hnet c)

/-! ## The invariants -/

theorem reach_apart {s : State (client A)} (h : (server strtod (client A)).Reach s) :
    s.Apart := by
  refine Machine.ReachIf.invariant (I := fun s : State (client A) => s.Apart) h
    (fun s h0 => ?_) fun s l s' hI _ hn => ?_
  · cases h0
    exact fun _ _ => rfl
  · obtain hq | ⟨_, _, hs⟩ := server_step hI hn
    · exact hq.apart
    · exact hs.apart

theorem answersTo_append (sent : List (ℕ × Request)) (conn c : ℕ) (req : Request) :
    answersTo A (sent ++ [(conn, req)]) c =
      answersTo A sent c ++ if c = conn then (processRequest A req).toList else [] := by
  by_cases hc : c = conn
  · subst hc
    cases hp : processRequest A req <;> simp [answersTo, hp]
  · simp [answersTo, hc, Ne.symm hc]

/-- On every connection, the pipeline holds answers to requests sent there. -/
theorem reach_pipeline {s : State (client A)} (h : (server strtod (client A)).Reach s) (c : ℕ) :
    (s.pipeline A c).Sublist (answersTo A s.mem.sent c) := by
  refine Machine.ReachIf.invariant_of
    (I := fun s : State (client A) => (s.pipeline A c).Sublist (answersTo A s.mem.sent c))
    (J := fun s : State (client A) => s.Apart) h (fun s hr => reach_apart hr)
    (fun s h0 => ?_) fun s l s' hA _ hI _ hn => ?_
  · cases h0
    exact List.nil_sublist _
  · obtain hq | ⟨conn, req, hs⟩ := server_step hA hn
    · rw [hq.sent]
      exact (hq.pipeline c).trans hI
    · rw [hs.sent, hs.pipeline, answersTo_append]
      exact hI.append_right _

/-- `current_request_id` counts the requests sent; they have the ids `0, 1, ...`,
    and the request that is about to be sent has the next one. -/
structure State.Ids {P : Peer Message} (s : State P) : Prop where
  current : s.mem.currentRequestId = Int32.ofNat s.mem.sent.length
  sent : s.mem.sent.map (fun p => p.2.id) = (List.range s.mem.sent.length).map Int32.ofNat
  req : ∀ req, s.main.req = some req → req.id = s.mem.currentRequestId

theorem reach_ids {s : State (client A)} (h : (server strtod (client A)).Reach s) : s.Ids := by
  refine Machine.ReachIf.invariant_of (I := fun s : State (client A) => s.Ids)
    (J := fun s : State (client A) => s.Apart) h (fun s hr => reach_apart hr)
    (fun s h0 => ?_) fun s l s' hA _ hI _ hn => ?_
  · cases h0
    exact ⟨rfl, rfl, fun _ hr => by cases hr⟩
  · obtain hq | ⟨conn, req, hs⟩ := server_step hA hn
    · refine ⟨by rw [hq.id, hq.sent, hI.current], by rw [hq.sent, hI.sent], fun req hr => ?_⟩
      rw [hq.id]
      exact (hq.req req hr).elim (hI.req req) id
    · have hreq : req.id = Int32.ofNat s.mem.sent.length := by
        rw [hI.req req hs.main, hI.current]
      refine ⟨?_, ?_, fun _ hr => by rw [hs.idle] at hr; cases hr⟩
      · rw [hs.id, hs.sent, hI.current, List.length_append, Int32.ofNat_add]
        rfl
      · rw [hs.sent, List.map_append, hI.sent, List.length_append, List.length_singleton,
          List.range_succ, List.map_append]
        simp [hreq]

/-- The ids of the requests sent are distinct, as long as `int` does not
    overflow. -/
theorem reach_ids_nodup {s : State (client A)} (h : (server strtod (client A)).Reach s)
    (hlt : s.mem.sent.length < 2 ^ 31) : (s.mem.sent.map fun p => p.2.id).Nodup := by
  rw [(reach_ids h).sent]
  refine List.Nodup.map_on (fun i hi j hj hij => ?_) List.nodup_range
  have hi' : i < 2 ^ 31 := (List.mem_range.mp hi).trans hlt
  have hj' : j < 2 ^ 31 := (List.mem_range.mp hj).trans hlt
  have h := congrArg Int32.toInt hij
  rw [Int32.toInt_ofNat_of_lt hi', Int32.toInt_ofNat_of_lt hj'] at h
  exact Int.ofNat_inj.mp h

/-! ## Agreement -/

theorem answersTo_ids (sent : List (ℕ × Request)) (c : ℕ) :
    ((answersTo A sent c).map Response.id).Sublist (sent.map fun p => p.2.id) := by
  induction sent with
  | nil => exact .refl _
  | cons p sent ih =>
    by_cases hp : p.1 = c
    · cases hr : processRequest A p.2 with
      | none =>
        simp only [answersTo, hp, decide_true, List.filter_cons_of_pos, List.filterMap_cons, hr]
        exact ih.cons _
      | some resp =>
        simp only [answersTo, hp, decide_true, List.filter_cons_of_pos, List.filterMap_cons, hr,
          List.map_cons, processRequest_id hr]
        exact ih.cons_cons _
    · simp only [answersTo, hp, decide_false, Bool.false_eq_true, not_false_eq_true,
        List.filter_cons_of_neg]
      exact ih.cons _

theorem mem_answersTo {sent : List (ℕ × Request)} {c : ℕ} {resp : Response}
    (h : resp ∈ answersTo A sent c) :
    ∃ req, (c, req) ∈ sent ∧ processRequest A req = some resp := by
  obtain ⟨⟨d, req⟩, hmem, hp⟩ := List.mem_filterMap.mp h
  simp only [List.mem_filter, decide_eq_true_eq] at hmem
  obtain ⟨hmem, rfl⟩ := hmem
  exact ⟨req, hmem, hp⟩

/-- What is printed answers requests of its connection, in their order. -/
theorem reach_printedOn {s : State (client A)} (h : (server strtod (client A)).Reach s) (c : ℕ) :
    (printedOn s.mem.printed c).Sublist (answersTo A s.mem.sent c) := by
  refine .trans ?_ (reach_pipeline h c)
  rw [State.pipeline, Mem.pipeline, List.append_assoc]
  exact List.sublist_append_left _ _

theorem printed_answers {s : State (client A)} (h : (server strtod (client A)).Reach s)
    {p : Printed} (hp : p ∈ s.mem.printed) :
    ∃ req, (p.conn, req) ∈ s.mem.sent ∧ processRequest A req = some p.resp :=
  mem_answersTo ((reach_printedOn h p.conn).subset
    (List.mem_map.mpr ⟨p, by simp [hp], rfl⟩))

/-- Two lines with one id would come from one connection, and would both answer
    its one request with this id. -/
theorem printed_ids_nodup {s : State (client A)} (h : (server strtod (client A)).Reach s)
    (hlt : s.mem.sent.length < 2 ^ 31) : (s.mem.printed.map fun p => p.resp.id).Nodup := by
  have hnodup := reach_ids_nodup h hlt
  rw [List.Nodup, List.pairwise_map, List.pairwise_iff_forall_sublist]
  intro a b hab hid
  obtain ⟨reqa, ha, hpa⟩ := printed_answers h (hab.subset (List.mem_cons_self ..))
  obtain ⟨reqb, hb, hpb⟩ := printed_answers h
    (hab.subset (List.mem_cons_of_mem _ (List.mem_cons_self ..)))
  have hreq : reqa.id = reqb.id := by rw [← processRequest_id hpa, ← processRequest_id hpb, hid]
  have hconn : a.conn = b.conn :=
    congrArg Prod.fst (List.inj_on_of_nodup_map hnodup ha hb hreq)
  have hsub : ([a, b].filter fun p => p.conn = b.conn).Sublist
      (s.mem.printed.filter fun p => p.conn = b.conn) := hab.filter _
  have hids : [a.resp.id, b.resp.id].Sublist (s.mem.sent.map fun p => p.2.id) := by
    refine .trans ?_ (((reach_printedOn h b.conn).map Response.id).trans (answersTo_ids _ _))
    simpa [printedOn, hconn] using (hsub.map Printed.resp).map Response.id
  have := hnodup.sublist hids
  simp [hid] at this

/-- Every response printed is the response to a request that was sent on the
    connection it came from, under its id, and no id is printed twice. -/
theorem agreement {s : State (client A)} (h : (server strtod (client A)).Reach s)
    (hlt : s.mem.sent.length < 2 ^ 31) :
    (∀ p ∈ s.mem.printed, ∃ req, (p.conn, req) ∈ s.mem.sent ∧ req.id = p.resp.id ∧
      processRequest A req = some p.resp) ∧
      (s.mem.printed.map fun p => p.resp.id).Nodup := by
  refine ⟨fun p hp => ?_, printed_ids_nodup h hlt⟩
  obtain ⟨req, hreq, hresp⟩ := printed_answers h hp
  exact ⟨req, hreq, (processRequest_id hresp).symm, hresp⟩

/-- Right for the operands `6.0` and `2.0`, which no two of the operations treat alike. -/
def Arith.sixTwo : Arith :=
  ⟨fun _ _ => 0x4020000000000000, fun _ _ => 0x4010000000000000, fun _ _ => 0x4028000000000000,
    fun _ _ => 0x4008000000000000⟩

/-- `strtod` in front of a `6` or a `2` that no digit follows. -/
def strtodDigit (text : List UInt8) : Double × List UInt8 :=
  (if text.headD 0 = 54 then 0x4018000000000000 else 0x4000000000000000, text.tail)

/-- One client, and `6-2`; the send of the first request fails, the second one has its
    id. The response is `4.0`. -/
theorem agreement_resent :
    ∃ s : State (client Arith.sixTwo),
      (server strtodDigit (client Arith.sixTwo)).Reach s ∧
        s.mem.printed.map (fun p => (p.resp.id, p.resp.result)) = [(0, 0x4010000000000000)] ∧
        (∀ p ∈ s.mem.printed, ∃ req, (p.conn, req) ∈ s.mem.sent ∧ req.id = p.resp.id ∧
          processRequest Arith.sixTwo req = some p.resp) := by
  obtain ⟨s, hr, hs⟩ := Machine.Reach.of_run
    (M := server strtodDigit (client Arith.sixTwo))
    [.accept .threadNet 5 0 [97], .peer 0 ⟨[], 0⟩ (.send true), .receive .threadNet (some []),
      .thread .threadNet true, .thread .threadNet true,
      .readRequest [54, 45, 50, 10], .main true, .main true, .main false,
      .readRequest [54, 45, 50, 10], .main true, .main true, .main true,
      .peer 0 ⟨[], 0⟩ .recv, .peer 0 ⟨[], 0⟩ (.send true), .epollWait 5,
      .receive .listener (some []), .thread .listener true, .thread .listener true]
    (fun s => (s.mem.sent.length, s.mem.printed.map fun p => (p.resp.id, p.resp.result)))
    (1, [(0, 0x4010000000000000)]) rfl rfl
  simp only [Prod.mk.injEq] at hs
  exact ⟨s, hr, hs.2, (agreement hr (by rw [hs.1]; decide)).1⟩

end AghOs.Calc
