import AghOs.Calc.Answered
import AghOs.Calc.Framing

/-!
# The calls of `send_sm` in the server

In `AghOs.Calc.Server` a frame is sent in one step. `send_sm` (`connection.c`) makes two
`send()` calls, and the main thread and the pinger send to the same connections, the one
without a lock. Here the first call is a step of its own, and both calls append to the
bytes on the connection. A `send_sm` that fails does so in its first call, and a
`receive_sm` that fails has taken nothing off the stream.

* `calls`: the server with both calls.
* `Orderly`: a calm run in which no thread makes its first call while the other one is
  between its two calls on the same connection. `Framing.torn_frame` is a run that is not.
* `reachIf_server`: without the first calls an orderly run is a calm run of the server.
* `requests_answered`: every request is answered, and it is the REQUESTs that were sent
  which the bytes on a connection decode to.
-/

namespace AghOs.Calc

open Framing (msg connection)

/-! ## The calls -/

section

variable {P : Peer Message}

/-- The `send_sm` that a thread is at: its connection, and what its message is made of. -/
def State.outgoing (s : State P) : ∀ t : Framing.Thread, Option (ℕ × t.Data)
  | .main =>
    match s.main with
    | .sending fd req => (s.mem.net.fd fd).map (·, req)
    | _ => none
  | .pinger =>
    match s.pinger with
    | none => none
    | some i =>
      if h : i < confClientsMax then
        let client := s.mem.clients ⟨i, h⟩
        if client.active = true ∧ client.inactivity ≤ confInactivityMax then
          (s.mem.net.fd client.sock).map (·, ())
        else none
      else none

/-- What the two threads have sent on a connection. -/
abbrev Wire := Senders Framing.Thread Message UInt8

/-- The server, and what has been sent on each connection. -/
structure Wired (P : Peer Message) where
  server : State P
  wire : ℕ → Wire

inductive WiredLabel (P : Peer Message)
  /-- the first call -/
  | first (t : Framing.Thread)
  | server (l : Label P)

variable (old : SocketMessage)

/-- A `send()` call on connection `c`. -/
def Wired.send (s : Wired P) (c : ℕ) (l : SendLabel Framing.Thread Framing.Thread.Data) :
    Option (ℕ → Wire) :=
  ((connection old).next (s.wire c) l).map (Function.update s.wire c)

/-- The end of the `send_sm` that a thread is at, if it is at one: the second call, or a
    first call that has failed. -/
def Wired.finish (s : Wired P) (t : Framing.Thread) (ok : Bool) :
    Option (ℕ → Wire) :=
  match s.server.outgoing t with
  | none => some s.wire
  | some (c, _) =>
    if ok then s.send old c (.body t)
    else if (s.wire c).sending t = none then some s.wire else none

/-- The bytes on the connections after a step of the server. -/
def Wired.wireNext (s : Wired P) : Label P → Option (ℕ → Wire)
  | .main ok => s.finish old .main ok
  | .pinger ok => s.finish old .pinger ok
  | _ => some s.wire

/-- The server, where the main thread and the pinger make two calls for each frame. -/
def calls (strtod : List UInt8 → Double × List UInt8) (P : Peer Message) :
    Machine (Wired P) (WiredLabel P) where
  init s := s = ⟨State.initial, fun _ => ⟨[], fun _ => none, fun _ => []⟩⟩
  next s
    | .first t =>
      if s.server.mem.exited then none
      else (s.server.outgoing t).bind fun p =>
        (s.send old p.1 (.header t p.2)).map fun wire => { s with wire := wire }
    | .server l =>
      (s.wireNext old l).bind fun wire => ((server strtod P).next s.server l).map (⟨·, wire⟩)

end

variable {A : Arith} {strtod : List UInt8 → Double × List UInt8} {old : SocketMessage}

/-- The steps of the server are calm, and no thread makes its first call between the two
    calls of the other. -/
def Orderly (s : Wired (client A)) : WiredLabel (client A) → Prop
  | .first t => ∀ p ∈ s.server.outgoing t, (s.wire p.1).Quiet
  | .server l => Calm s.server l

instance (s : Wired (client A)) : DecidablePred (Orderly s)
  | .first t => inferInstanceAs (Decidable (∀ p ∈ s.server.outgoing t, ∀ _, _ = none))
  | .server l => inferInstanceAs (Decidable (Calm s.server l))

theorem reachIf_server {s : Wired (client A)}
    (h : (calls old strtod (client A)).ReachIf Orderly s) :
    (server strtod (client A)).ReachIf Calm s.server := by
  refine Machine.ReachIf.invariant (I := fun s : Wired (client A) =>
    (server strtod (client A)).ReachIf Calm s.server) h (fun s h0 => ?_) fun s l s' hI hc hn => ?_
  · cases h0
    exact .init rfl
  · cases l with
    | first t =>
      simp only [calls] at hn
      split at hn
      · cases hn
      · obtain ⟨p, -, hn⟩ := Option.bind_eq_some_iff.mp hn
        obtain ⟨wire, -, rfl⟩ := Option.map_eq_some_iff.mp hn
        exact hI
    | server l =>
      obtain ⟨wire, -, hn⟩ := Option.bind_eq_some_iff.mp hn
      obtain ⟨t, ht, rfl⟩ := Option.map_eq_some_iff.mp hn
      exact hI.step hc ht

/-! ## What the main thread is at -/

section

variable {s s' : State (client A)} {l : Label (client A)}

theorem outgoing_main_iff {c : ℕ} {req : Request} :
    s.outgoing .main = some (c, req) ↔
      ∃ fd, s.main = .sending fd req ∧ s.mem.net.fd fd = some c := by
  unfold State.outgoing
  dsimp only
  split
  · rename_i fd req' hmain
    rw [hmain, Option.map_eq_some_iff]
    constructor
    · rintro ⟨c', hc', he⟩
      cases he
      exact ⟨fd, rfl, hc'⟩
    · rintro ⟨fd', he, hc'⟩
      cases he
      exact ⟨c, hc', rfl⟩
  · rename_i hmain
    refine ⟨fun h => (by cases h), ?_⟩
    rintro ⟨fd, he, -⟩
    exact absurd he (hmain fd req)

/-- Only the main thread moves the main thread. -/
theorem main_next (hn : (server strtod (client A)).next s l = some s') :
    s'.main = s.main ∨ s.main = .idle ∨ ∃ ok, l = .main ok := by
  simp only [server] at hn
  split at hn
  · cases hn
  cases l with
  | accept t fd conn x =>
    simp only [serverNext, acceptStep] at hn
    split at hn
    · cases hn
    · obtain ⟨net, -, rfl⟩ := Option.map_eq_some_iff.mp hn
      exact .inl rfl
    · cases hn
  | epollWait fd =>
    simp only [serverNext, epollStep] at hn
    repeat' split at hn
    all_goals cases hn
    exact .inl rfl
  | receive t old =>
    obtain ⟨p, -, rfl⟩ := Option.map_eq_some_iff.mp hn
    exact .inl rfl
  | thread t ok =>
    obtain ⟨p, -, rfl⟩ := Option.map_eq_some_iff.mp hn
    exact .inl rfl
  | pinger ok =>
    simp only [serverNext, pingerStep] at hn
    split at hn
    · cases hn
      exact .inl rfl
    · split at hn
      · obtain ⟨m, -, rfl⟩ := Option.map_eq_some_iff.mp hn
        exact .inl rfl
      · cases hn
        exact .inl rfl
  | readRequest line =>
    simp only [serverNext, readStep] at hn
    split at hn
    · exact .inr (.inl ‹_›)
    · cases hn
  | main ok => exact .inr (.inr ⟨ok, rfl⟩)
  | peer conn x a =>
    obtain ⟨net, -, rfl⟩ := Option.map_eq_some_iff.mp hn
    exact .inl rfl

/-- Only the main thread sends requests. -/
theorem sent_next (hA : s.Apart) (hl : ∀ ok, l ≠ .main ok)
    (hn : (server strtod (client A)).next s l = some s') : s'.mem.sent = s.mem.sent := by
  obtain hq | ⟨conn, req, hs⟩ := server_step hA hn
  · exact hq.sent
  · obtain hmain | hmain | ⟨ok, rfl⟩ := main_next hn
    · have hidle := hs.idle
      rw [hmain, hs.main] at hidle
      cases hidle
    · have hreq := hs.main
      rw [hmain] at hreq
      cases hreq
    · exact absurd rfl (hl ok)

/-- In a calm run no descriptor is closed. -/
theorem State.Steady.fd_next (h : s.Steady A) (hc : Calm s l)
    (hn : (server strtod (client A)).next s l = some s') {fd c : ℕ}
    (hfd : s.mem.net.fd fd = some c) : s'.mem.net.fd fd = some c := by
  obtain ⟨hup, he⟩ := server_effect hn
  have hsame : s.mem.Same s'.mem → s'.mem.net.fd fd = some c := fun hs => by rw [hs.fd, hfd]
  cases he with
  | quiet _ hs _ => exact hsame hs
  | goes hs _ _ => exact hsame hs
  | @accept t fd' c' x net _ _ hacc =>
    obtain ⟨hnew, -, hup, -, -⟩ := accept_spec hacc
    show net.fd fd = some c
    have hne : fd ≠ fd' := fun heq => by
      rw [heq, hnew] at hfd
      cases hfd
    rw [hup, Function.update_of_ne hne, hfd]
  | @insert t ok fd' name _ =>
    show (s.mem.insertClient fd' name).net.fd fd = some c
    obtain ⟨-, hm⟩ | ⟨-, hm, -⟩ | ⟨id, -, -, hm⟩ := insertClient_cases s.mem fd' name
    all_goals rw [hm]; exact hfd
  | unregister hpc => exact absurd hpc (h.not_unregister _ _)
  | pong _ _ => exact hsame (.setInactivity _ _ _)
  | timeOut _ _ _ =>
    simp only [server, hup, Bool.false_eq_true, if_false] at hn
    exact hsame (pinger_same hc hn)

/-- What the main thread is at does not change while others take their steps. -/
theorem State.Steady.outgoing_next (h : s.Steady A) (hc : Calm s l) (hl : ∀ ok, l ≠ .main ok)
    (hn : (server strtod (client A)).next s l = some s') {c : ℕ} {req : Request}
    (ho : s.outgoing .main = some (c, req)) : s'.outgoing .main = some (c, req) := by
  obtain ⟨fd, hmain, hfd⟩ := outgoing_main_iff.mp ho
  obtain he | hidle | ⟨ok, rfl⟩ := main_next hn
  · exact outgoing_main_iff.mpr ⟨fd, he.trans hmain, h.fd_next hc hn hfd⟩
  · rw [hmain] at hidle
    cases hidle
  · exact absurd rfl (hl ok)

/-- A step of the main thread ends its `send_sm`, if it is at one. -/
theorem main_finish {ok : Bool} (hn : (server strtod (client A)).next s (.main ok) = some s') :
    s.outgoing .main = none ∧ s'.mem.sent = s.mem.sent ∨
      ∃ c req, s.outgoing .main = some (c, req) ∧
        s'.mem.sent = s.mem.sent ++ if ok then [(c, req)] else [] := by
  simp only [server] at hn
  split at hn
  · cases hn
  simp only [serverNext, mainStep] at hn
  split at hn
  · cases hn
  · rename_i req hmain
    refine .inl ⟨by simp only [State.outgoing, hmain], ?_⟩
    repeat' split at hn
    all_goals cases hn
    all_goals rfl
  · rename_i clid req hmain
    cases hn
    exact .inl ⟨by simp only [State.outgoing, hmain], rfl⟩
  · rename_i fd req hmain
    obtain ⟨m, hm, rfl⟩ := Option.map_eq_some_iff.mp hn
    unfold Mem.sendRequest at hm
    split at hm
    · rename_i hok
      obtain ⟨c, hfd, hm⟩ := Option.bind_eq_some_iff.mp hm
      obtain ⟨net, -, rfl⟩ := Option.map_eq_some_iff.mp hm
      exact .inr ⟨c, req, outgoing_main_iff.mpr ⟨fd, hmain, hfd⟩, by rw [if_pos hok]⟩
    · rename_i hok
      cases hm
      cases hfd : s.mem.net.fd fd with
      | none => exact .inl ⟨by simp only [State.outgoing, hmain, hfd]; rfl, rfl⟩
      | some c =>
        exact .inr ⟨c, req, outgoing_main_iff.mpr ⟨fd, hmain, hfd⟩, by
          rw [if_neg hok, List.append_nil]⟩

end

/-! ## The bytes on the connections -/

/-- What is known of the bytes in an orderly run. -/
structure WireOk (old : SocketMessage) (s : State (client A)) (wire : ℕ → Wire) : Prop where
  whole : ∀ c, (connection old).ReachIf Format.Whole (wire c)
  /-- between its two calls the main thread is at the `send_sm` of this frame -/
  sending : ∀ c m, (wire c).sending .main = some m →
    ∃ req, s.outgoing .main = some (c, req) ∧ m = msg .main req
  requests : ∀ c, (wire c).sent .main =
    (s.mem.sent.filter fun p => p.1 = c).map fun p => msg .main p.2

section

variable {s : State (client A)} {wire wire' : ℕ → Wire} {c : ℕ}

theorem wire_send {l : SendLabel Framing.Thread Framing.Thread.Data}
    (h : Wired.send old ⟨s, wire⟩ c l = some wire') :
    ∃ w, (connection old).next (wire c) l = some w ∧ wire' = Function.update wire c w := by
  obtain ⟨w, hw, rfl⟩ := Option.map_eq_some_iff.mp h
  exact ⟨w, hw, rfl⟩

/-- A call that is orderly on its connection leaves whole frames on all. -/
theorem whole_update {l : SendLabel Framing.Thread Framing.Thread.Data} {w : Wire}
    (h : ∀ c, (connection old).ReachIf Format.Whole (wire c))
    (hw : (connection old).next (wire c) l = some w) (hl : Format.Whole (wire c) l) (d : ℕ) :
    (connection old).ReachIf Format.Whole (Function.update wire c w d) := by
  by_cases hd : d = c
  · subst hd
    rw [Function.update_self]
    exact (h d).step hl hw
  · rw [Function.update_of_ne hd]
    exact h d

/-- What a call leaves as it was on its connection is as it was on all. -/
theorem keeps_update {α : Type} (g : Wire → α) {w : Wire} (h : g w = g (wire c)) (d : ℕ) :
    g (Function.update wire c w d) = g (wire d) := by
  by_cases hd : d = c
  · rw [hd, Function.update_self, h]
  · rw [Function.update_of_ne hd]

theorem next_header {w w' : Wire} {t : Framing.Thread} {k : t.Data}
    (h : (connection old).next w (.header t k) = some w') :
    w'.sending = Function.update w.sending t (some (msg t k)) ∧ w'.sent = w.sent := by
  simp only [connection, Format.senders] at h
  split at h <;> cases h
  exact ⟨rfl, rfl⟩

theorem next_body {w w' : Wire} {t : Framing.Thread}
    (h : (connection old).next w (.body t) = some w') :
    ∃ m, w.sending t = some m ∧ w'.sending = Function.update w.sending t none ∧
      w'.sent = Function.update w.sent t (w.sent t ++ [m]) := by
  simp only [connection, Format.senders] at h
  split at h <;> cases h
  exact ⟨_, ‹_›, rfl, rfl⟩

/-- A call of the pinger. -/
theorem WireOk.pinger {l : SendLabel Framing.Thread Framing.Thread.Data} {w : Wire}
    (h : WireOk old s wire) (hw : (connection old).next (wire c) l = some w)
    (hl : Format.Whole (wire c) l) (hsending : w.sending .main = (wire c).sending .main)
    (hsent : w.sent .main = (wire c).sent .main) : WireOk old s (Function.update wire c w) := by
  refine ⟨whole_update h.whole hw hl, fun d m hm => ?_, fun d => ?_⟩
  · have hsame := keeps_update (fun w => w.sending .main) hsending d
    exact h.sending d m (hsame.symm.trans hm)
  · exact (keeps_update (fun w => w.sent .main) hsent d).trans (h.requests d)

/-- The first call of the main thread. -/
theorem WireOk.header {req : Request} {w : Wire} (h : WireOk old s wire)
    (ho : s.outgoing .main = some (c, req)) (hq : (wire c).Quiet)
    (hw : (connection old).next (wire c) (.header .main req) = some w) :
    WireOk old s (Function.update wire c w) := by
  obtain ⟨hsending, hsent⟩ := next_header hw
  refine ⟨whole_update h.whole hw hq, fun d m hm => ?_, fun d => ?_⟩
  · by_cases hd : d = c
    · subst hd
      rw [Function.update_self, hsending, Function.update_self] at hm
      exact ⟨req, ho, (Option.some.inj hm).symm⟩
    · rw [Function.update_of_ne hd] at hm
      exact h.sending d m hm
  · have hsame := keeps_update (fun w => w.sent .main) (by rw [hsent]) d
    exact hsame.trans (h.requests d)

/-- A first call, of either thread. -/
theorem WireOk.first {t : Framing.Thread} {p : ℕ × t.Data} (h : WireOk old s wire)
    (ho : s.outgoing t = some p) (hq : (wire p.1).Quiet)
    (hs : Wired.send old ⟨s, wire⟩ p.1 (.header t p.2) = some wire') : WireOk old s wire' := by
  obtain ⟨w, hw, rfl⟩ := wire_send hs
  cases t with
  | main => exact h.header ho hq hw
  | pinger =>
    obtain ⟨hsending, hsent⟩ := next_header hw
    exact h.pinger hw hq (by rw [hsending, Function.update_of_ne (by decide)]) (by rw [hsent])

/-- The pinger ends a `send_sm`. -/
theorem WireOk.pinger_finish {ok : Bool} (h : WireOk old s wire)
    (hs : Wired.finish old ⟨s, wire⟩ .pinger ok = some wire') : WireOk old s wire' := by
  unfold Wired.finish at hs
  split at hs
  · cases hs
    exact h
  · split at hs
    · obtain ⟨w, hw, rfl⟩ := wire_send hs
      obtain ⟨m, -, hsending, hsent⟩ := next_body hw
      exact h.pinger hw trivial (by rw [hsending, Function.update_of_ne (by decide)])
        (by rw [hsent, Function.update_of_ne (by decide)])
    · split at hs <;> cases hs
      exact h

/-- While others take their steps the main thread stays where it is. -/
theorem WireOk.other {s' : State (client A)} {l : Label (client A)} (h : WireOk old s wire)
    (hst : s.Steady A) (hA : s.Apart) (hn : (server strtod (client A)).next s l = some s')
    (hc : Calm s l) (hl : ∀ ok, l ≠ .main ok) : WireOk old s' wire := by
  refine ⟨h.whole, fun c m hm => ?_, fun c => ?_⟩
  · obtain ⟨req, ho, hmsg⟩ := h.sending c m hm
    exact ⟨req, hst.outgoing_next hc hl hn ho, hmsg⟩
  · rw [sent_next hA hl hn]
    exact h.requests c

/-- The main thread takes a step, and ends its `send_sm` if it is at one. -/
theorem WireOk.main_finish {s' : State (client A)} {ok : Bool} (h : WireOk old s wire)
    (hs : Wired.finish old ⟨s, wire⟩ .main ok = some wire')
    (hn : (server strtod (client A)).next s (.main ok) = some s') : WireOk old s' wire' := by
  unfold Wired.finish at hs
  obtain ⟨ho, hsent⟩ | ⟨c, req, ho, hsent⟩ := AghOs.Calc.main_finish hn
  · simp only [ho] at hs
    cases hs
    refine ⟨h.whole, fun c m hm => ?_, fun c => by rw [hsent]; exact h.requests c⟩
    obtain ⟨req, ho', -⟩ := h.sending c m hm
    cases ho.symm.trans ho'
  · -- on no other connection the main thread is between two calls
    have hother : ∀ d, d ≠ c → (wire d).sending .main = none := by
      intro d hd
      by_contra hne
      obtain ⟨m, hm⟩ := Option.ne_none_iff_exists'.mp hne
      obtain ⟨req', ho', -⟩ := h.sending d m hm
      cases ho.symm.trans ho'
      exact hd rfl
    simp only [ho] at hs
    split at hs
    · rename_i hok
      obtain ⟨w, hw, rfl⟩ := wire_send hs
      obtain ⟨m, hm, hsending, hsent'⟩ := next_body hw
      obtain ⟨req', ho', rfl⟩ := h.sending c m hm
      cases ho.symm.trans ho'
      refine ⟨whole_update h.whole hw trivial, fun d m hm => ?_, fun d => ?_⟩
      · by_cases hd : d = c
        · subst hd
          rw [Function.update_self, hsending, Function.update_self] at hm
          cases hm
        · rw [Function.update_of_ne hd, hother d hd] at hm
          cases hm
      · rw [hsent, if_pos hok, List.filter_append, List.map_append, ← h.requests d]
        by_cases hd : d = c
        · subst hd
          rw [Function.update_self, hsent', Function.update_self]
          simp
        · rw [Function.update_of_ne hd]
          simp [Ne.symm hd]
    · rename_i hok
      split at hs <;> cases hs
      rename_i hquiet
      refine ⟨h.whole, fun d m hm => ?_, fun d => ?_⟩
      · by_cases hd : d = c
        · subst hd
          cases hquiet.symm.trans hm
        · rw [hother d hd] at hm
          cases hm
      · rw [hsent, if_neg hok, List.append_nil]
        exact h.requests d

end

theorem reachIf_wireOk {s : Wired (client A)}
    (h : (calls old strtod (client A)).ReachIf Orderly s) : WireOk old s.server s.wire := by
  refine Machine.ReachIf.invariant_of
    (I := fun s : Wired (client A) => WireOk old s.server s.wire)
    (J := fun s : Wired (client A) => s.server.Steady A ∧ s.server.Apart) h
    (fun s hr => ⟨reachIf_steady (reachIf_server hr), reach_apart (reachIf_server hr).reach⟩)
    (fun s h0 => ?_) fun s l s' ⟨hst, hA⟩ _ hI hc hn => ?_
  · cases h0
    exact ⟨fun _ => .init rfl, fun _ _ hm => (by cases hm), fun _ => rfl⟩
  · cases l with
    | first t =>
      simp only [calls] at hn
      split at hn
      · cases hn
      · obtain ⟨p, hp, hn⟩ := Option.bind_eq_some_iff.mp hn
        obtain ⟨wire, hs, rfl⟩ := Option.map_eq_some_iff.mp hn
        exact hI.first hp (hc p hp) hs
    | server l =>
      obtain ⟨wire, hs, hn⟩ := Option.bind_eq_some_iff.mp hn
      obtain ⟨t, ht, rfl⟩ := Option.map_eq_some_iff.mp hn
      cases l with
      | main ok => exact hI.main_finish hs ht
      | pinger ok => exact (hI.pinger_finish hs).other hst hA ht hc nofun
      | accept | epollWait | receive | thread | readRequest | peer =>
        cases hs
        exact hI.other hst hA ht hc nofun

/-! ## The requests -/

/-- As long as nobody is timed out or leaves, no send of a client fails, and no call of a
    thread comes between the two calls of the other on the same connection, every request
    has its answer printed, in the hand of the listener or under way, on each connection
    in the order of the requests. Where no thread is between two calls, the bytes on a
    connection decode to what has been sent there, of the main thread the REQUESTs. When
    nothing is under way to or from the clients that got a request, the ids of the
    requests have been printed, each once. -/
theorem requests_answered {s : Wired (client A)}
    (h : (calls old strtod (client A)).ReachIf Orderly s) :
    (∀ c, printedOn s.server.mem.printed c ++ (s.server.pc .listener).hand c ++
      underWay A s.server.mem.net c = answersTo A s.server.mem.sent c) ∧
      (∀ p ∈ s.server.mem.sent, processRequest A p.2 ≠ none) ∧
      (∀ c, (s.wire c).sent .main =
          ((s.server.mem.sent.filter fun p => p.1 = c).map fun p => msg .main p.2) ∧
        ((s.wire c).Quiet → (wire old).Decodes (s.wire c))) ∧
      ((∀ p ∈ s.server.mem.sent,
          (s.server.pc .listener).hand p.1 = [] ∧ underWay A s.server.mem.net p.1 = []) →
        (∀ c, printedOn s.server.mem.printed c = answersTo A s.server.mem.sent c) ∧
        (s.server.mem.printed.map fun p => p.resp.id).Perm
          ((List.range s.server.mem.sent.length).map Int32.ofNat)) := by
  obtain ⟨hpipeline, hsent, hdone⟩ := all_answered (reachIf_server h)
  have hwire := reachIf_wireOk h
  exact ⟨hpipeline, hsent,
    fun c => ⟨hwire.requests c, fun hq => Format.decodes_of_whole (hwire.whole c) hq⟩, hdone⟩

/-- Two clients get `6-2` each, and the second one answers first. The pinger makes its
    calls for the first client between the two calls for the second REQUEST, and waits
    for them before it goes on to the second client. -/
theorem requests_answered_two :
    ∃ s : Wired (client Arith.sixTwo),
      (calls ⟨0, []⟩ strtodDigit (client Arith.sixTwo)).ReachIf Orderly s ∧
        s.server.mem.printed.map (fun p => (p.conn, p.resp.id, p.resp.result)) =
          [(1, 1, 0x4010000000000000), (0, 0, 0x4010000000000000)] ∧
        (s.wire 1).stream.length = 30 ∧ (wire ⟨0, []⟩).Decodes (s.wire 1) ∧
        (s.server.mem.printed.map fun p => p.resp.id).Perm
          ((List.range 2).map Int32.ofNat) := by
  obtain ⟨register, hregister⟩ : ∃ f : ℕ → ℕ → List (WiredLabel (client Arith.sixTwo)),
      f = fun fd conn => [.server (.accept .threadNet fd conn [UInt8.ofNat fd]),
        .server (.peer conn ⟨[], 0⟩ (.send true)), .server (.receive .threadNet (some [])),
        .server (.thread .threadNet true), .server (.thread .threadNet true)] := ⟨_, rfl⟩
  obtain ⟨request, hrequest⟩ : ∃ ls : List (WiredLabel (client Arith.sixTwo)),
      ls = [.server (.readRequest [54, 45, 50, 10]), .server (.main true), .server (.main true),
        .first .main] := ⟨_, rfl⟩
  obtain ⟨ping, hping⟩ : ∃ ls : List (WiredLabel (client Arith.sixTwo)),
      ls = [.first .pinger, .server (.pinger true)] := ⟨_, rfl⟩
  obtain ⟨answer, hanswer⟩ : ∃ f : ℕ → ℕ → List (WiredLabel (client Arith.sixTwo)),
      f = fun fd conn => [.server (.peer conn ⟨[], 0⟩ .recv),
        .server (.peer conn ⟨[], 0⟩ (.send true)), .server (.epollWait fd),
        .server (.receive .listener (some [])), .server (.thread .listener true),
        .server (.thread .listener true)] := ⟨_, rfl⟩
  obtain ⟨s, hr, hs⟩ := Machine.ReachIf.of_runIf
    (M := calls ⟨0, []⟩ strtodDigit (client Arith.sixTwo)) (C := Orderly)
    (register 5 0 ++ register 6 1 ++ request ++ [.server (.main true)] ++ request ++
      [.server (.pinger true)] ++ ping ++ [.server (.main true)] ++ ping ++
      List.replicate 15 (.server (.pinger true)) ++ answer 6 1 ++ answer 5 0)
    (fun s => (s.server.mem.sent.map Prod.fst,
      s.server.mem.printed.map (fun p => (p.conn, p.resp.id, p.resp.result)),
      (s.server.pc .listener).hand 0 ++ underWay Arith.sixTwo s.server.mem.net 0,
      (s.server.pc .listener).hand 1 ++ underWay Arith.sixTwo s.server.mem.net 1,
      (s.wire 1).stream.length, (s.wire 1).sending .main, (s.wire 1).sending .pinger))
    ([0, 1], [(1, 1, 0x4010000000000000), (0, 0, 0x4010000000000000)], [], [], 30, none, none)
    rfl (by subst hregister hrequest hping hanswer; rfl)
  simp only [Prod.mk.injEq] at hs
  obtain ⟨hsent, hprinted, h0, h1, hstream, hmain, hpinger⟩ := hs
  obtain ⟨-, -, hwire, hdone⟩ := requests_answered hr
  have hlen : s.server.mem.sent.length = 2 := by rw [← List.length_map, hsent]; rfl
  refine ⟨s, hr, hprinted, hstream, (hwire 1).2 ?_, ?_⟩
  · rintro (_ | _)
    · exact hmain
    · exact hpinger
  · rw [← hlen]
    refine (hdone fun p hp => ?_).2
    have hmem : p.1 ∈ s.server.mem.sent.map Prod.fst := List.mem_map_of_mem hp
    rw [hsent] at hmem
    obtain hp0 | hp1 : p.1 = 0 ∨ p.1 = 1 := by simpa using hmem
    · rw [hp0]
      exact List.append_eq_nil_iff.mp h0
    · rw [hp1]
      exact List.append_eq_nil_iff.mp h1

end AghOs.Calc
