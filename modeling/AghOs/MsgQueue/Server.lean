import AghOs.Machine.Reach
import AghOs.MsgQueue.Client
import Mathlib.Data.List.FinRange
import Mathlib.Logic.Function.Basic

/-!
# The message-queue server and its clients

`server.c`, System V build, and any number of clients. The server receives a
message, handles it and sends the response in three steps; the clients make
their steps in between.

A queue is named by the client that created it. It is found by its key as long
as it exists, and another client can use the key once it does not. `msgsnd`
refuses a message whose type is not positive, so a response to slot `0` is never
sent.

Nothing starts after the server has exited, and what the clients send then
fails. The texts of the clients are shorter than `MSG_BUF_SIZE`, and so is what
`fgets` reads from `bc` or `date`.
-/

namespace AghOs.MsgQueue

/-- `struct client_t`; `queue` is the creator of the queue, or whatever the
    uninitialised member holds. -/
structure Entry where
  pid : ℕ
  id : Slot
  stopped : Bool
  queue : Option ℕ

/-- Where the server is in its loop. -/
inductive ServerPc
  /-- at `receive_from_client` -/
  | receive
  /-- a message has been received -/
  | handle (m : Msg)
  /-- at `send_to_client`; `req` is the sender of the request, if the response is
      not to a HANDSHAKE (history) -/
  | respond (r : Response) (req : Option ℕ)
  | exited

/-- The server, its queue, the clients and the existing client queues by key.
    The rest is history: the messages of each client that it sent and that the
    server handled, the slot that the server gave to its HANDSHAKE, for each STOP
    accepted its sender and the client in the slot, and for each response to a
    request the sender of the request and the queue it went to. -/
structure State where
  pc : ServerPc
  ending : Bool
  clients : Slot → Entry
  queue : List Msg
  client : ℕ → Option Client
  key : ℕ → Option ℕ
  sent : ℕ → List Msg
  handled : ℕ → List Msg
  given : ℕ → Option Slot
  accepted : List (ℕ × ℕ)
  responded : List (ℕ × ℕ)

inductive Label
  | start (c key : ℕ)
  | client (c : ℕ) (x : Input)
  | server (ok : Bool) (out : List UInt8) (stale : Option ℕ)

/-- `mirror_text`, for the text in `from`. -/
def mirrorText (buf : List UInt8) : List UInt8 := (buf.takeWhile (· ≠ 0)).reverse

/-- The text of a response; `out` is what `fgets` reads from `bc` or `date`. -/
def responseText (m : Msg) (out : List UInt8) : List UInt8 :=
  match m.type with
  | .mirror => mirrorText m.buf
  | _ => terminateAtNl out

/-- The first slot that is stopped. -/
def freeSlot (clients : Slot → Entry) : Option Slot :=
  (List.finRange clientMax).find? fun i => (clients i).stopped

/-- The message has been handled, and the server goes on at `pc`. -/
def State.done (s : State) (m : Msg) (pc : ServerPc) : State :=
  { s with pc := pc, handled := Function.update s.handled m.sender (s.handled m.sender ++ [m]) }

/-- `case HANDSHAKE`; `stale` is the uninitialised `client.queue`, and `out` what
    the previous round has left in `response.buf`. -/
def handshake (s : State) (m : Msg) (out : List UInt8) (stale : Option ℕ) : State :=
  match freeSlot s.clients with
  | none => s.done m .receive
  | some cid =>
    let entry (queue : Option ℕ) : State :=
      { s with
        clients := Function.update s.clients cid ⟨m.sender, cid, false, queue⟩
        given := Function.update s.given m.sender (some cid) }
    match s.key m.queueKey with
    | none => (entry stale).done m .receive
    | some d => (entry (some d)).done m (.respond ⟨cid, out⟩ none)

/-- `case STOP` -/
def stop (s : State) (m : Msg) : State :=
  { s with
    clients := Function.update s.clients m.clientId { s.clients m.clientId with stopped := true }
    accepted := s.accepted ++ [(m.sender, (s.clients m.clientId).pid)] }.done m .receive

/-- The body of the loop in `main`, for a message received. -/
def handle (s : State) (m : Msg) (out : List UInt8) (stale : Option ℕ) : State :=
  if m.type ≠ .handshake ∧ (s.clients m.clientId).stopped = true then s.done m .receive
  else
    match m.type with
    | .handshake => handshake s m out stale
    | .stop => stop s m
    | .end => { s with ending := true }.done m .receive
    | _ => s.done m (.respond ⟨m.clientId, responseText m out⟩ (some m.sender))

/-- A response is put into the queue of client `d`, if it exists. -/
def State.deliver (s : State) (d : ℕ) (r : Response) : Option State :=
  (s.client d).bind fun k =>
    if s.key k.queueKey = some d then
      some { s with client := Function.update s.client d (some { k with inbox := k.inbox ++ [r] }) }
    else none

/-- `send_to_client`, of which `ok` says whether `msgsnd` succeeds where it can. -/
def respond (s : State) (r : Response) (req : Option ℕ) (ok : Bool) : State :=
  let lost := { s with pc := .receive }
  if ok = true ∧ r.clientId ≠ 0 then
    match (s.clients r.clientId).queue with
    | none => lost
    | some d =>
      match lost.deliver d r with
      | none => lost
      | some s' => { s' with responded := s.responded ++ (req.map (·, d)).toList }
  else lost

/-- The next step of the server. -/
def serverStep (s : State) (ok : Bool) (out : List UInt8) (stale : Option ℕ) : Option State :=
  match s.pc with
  | .receive =>
    match s.queue with
    | m :: q => some { s with pc := .handle m, queue := q }
    | [] => if s.ending then some { s with pc := .exited } else none
  | .handle m => some (handle s m out stale)
  | .respond r req => some (respond s r req ok)
  | .exited => none

/-- The server still runs. -/
def State.running (s : State) : Bool :=
  match s.pc with
  | .exited => false
  | _ => true

/-- `prepare_queues` of client `c` with a key that no queue has. -/
def startClient (s : State) (c key : ℕ) : Option State :=
  if s.client c = none ∧ s.key key = none ∧ s.running = true then
    some { s with
      client := Function.update s.client c (some (.new key))
      key := Function.update s.key key (some c) }
  else none

/-- Client `c` becomes `k`, with an effect on the rest. -/
def State.put (s : State) (c : ℕ) (k : Client) : Effect → Option State
  | .nothing => some { s with client := Function.update s.client c (some k) }
  | .send m =>
    if s.running = true then
      some { s with
        client := Function.update s.client c (some k)
        queue := s.queue ++ [m]
        sent := Function.update s.sent c (s.sent c ++ [m]) }
    else none
  | .remove =>
    some { s with
      client := Function.update s.client c (some k)
      key := if s.key k.queueKey = some c then Function.update s.key k.queueKey none else s.key }

def State.initial : State where
  pc := .receive
  ending := false
  clients _ := ⟨0, 0, true, none⟩
  queue := []
  client _ := none
  key _ := none
  sent _ := []
  handled _ := []
  given _ := none
  accepted := []
  responded := []

/-- The server and the clients, in any interleaving. -/
def system : Machine State Label where
  init s := s = State.initial
  next s
    | .start c key => startClient s c key
    | .client c x =>
      (s.client c).bind fun k => (clientNext c k x).bind fun p => s.put c p.1 p.2
    | .server ok out stale => serverStep s ok out stale

end AghOs.MsgQueue
