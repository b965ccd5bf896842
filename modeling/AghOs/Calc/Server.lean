import AghOs.Calc.Clients
import AghOs.Calc.Messages
import AghOs.Machine.Sockets

/-!
# The server of the calculator

`server.c`, `server_accept.c`, `server_listen.c`, `server_pinger.c` and the
parts of `server_cllist.c` that do more than search the table, stream build:
the two accept threads, the listener, the pinger and the main thread over the
shared memory, for peers that run any program. Every region between
`lock_clients()` and `unlock_clients()` is one step, but for the pinger's: it
holds `clients_mx` over its whole loop, and each turn of the loop is a step.
What the threads do outside such a region can fall between any two steps.

A frame is sent and received as a whole, and both can fail; `AghOs.Calc.Calls`
takes the two calls of a send apart. The prompt is left out, and so is what
happens after `exit`.
-/

namespace AghOs.Calc

/-- A line `out[id]: = result (from name)`, with the connection that the
    response was read from. -/
structure Printed where
  conn : ℕ
  resp : Response
  name : List UInt8

/-- What the threads of the server share. `sent` and `printed` are history: the
    requests sent, each with its connection, and the responses printed. -/
structure Mem (π : Type) where
  clients : Clients
  freeCl : ℕ
  currentRequestId : Int32
  net : Net Message π
  exited : Bool
  sent : List (ℕ × Request)
  printed : List Printed

/-- Where an accept thread or the listener is. The connection that a message
    was read from is history. -/
inductive Pc
  /-- at `accept` or `epoll_wait` -/
  | idle
  /-- at `receive_sm` -/
  | receive (fd : ℕ)
  /-- the listener, at `client_for_sock` -/
  | lookup (fd conn : ℕ) (sm : SocketMessage)
  /-- the listener, at `switch (msg_type)` -/
  | dispatch (fd conn : ℕ) (client : Option Slot) (sm : SocketMessage)
  /-- at `unregister_client` -/
  | unregister (client : Option Slot)
  /-- in `register_client`, at `is_name_taken` -/
  | check (fd : ℕ) (sm : SocketMessage)
  /-- in `register_client`, about to send `MSG_TYPE_NAMEINUSE` -/
  | refuse (fd : ℕ)
  /-- in `register_client`, at the second `lock_clients` -/
  | insert (fd : ℕ) (name : List UInt8)

/-- Where the main thread is in `read_request`. -/
inductive MainPc
  /-- at `getline` -/
  | idle
  /-- at `next_free_client` -/
  | choose (req : Request)
  /-- in `send_request`, about to read `clients[clid].cl_sock` -/
  | send (clid : Slot) (req : Request)
  /-- at `send_sm` -/
  | sending (fd : ℕ) (req : Request)

inductive Thread
  | threadNet | threadLocal | listener
  deriving DecidableEq

variable {π : Type}

/-- `send_sm`, of which `ok` says whether it succeeds. -/
def Mem.sendSm (m : Mem π) (fd : ℕ) (sm : SocketMessage) (ok : Bool) : Option (Mem π) :=
  if ok then (m.net.send fd sm.message).map fun net => { m with net := net } else some m

/-- The name in a REGISTER: `name = &sm->buffer[1]; name[sm->length - 1] = 0`. -/
def SocketMessage.name (sm : SocketMessage) : List UInt8 :=
  cstring ((sm.buffer.set sm.length.toNat 0).drop 1)

/-- The second region of `register_client`. -/
def Mem.insertClient (m : Mem π) (fd : ℕ) (name : List UInt8) : Mem π :=
  match m.clients.clientFreeid with
  | none => m
  | some id =>
    match m.net.poll fd with
    | none => { m with clients := m.clients.occupy id fd name, exited := true }
    | some net => { m with clients := m.clients.occupy id fd name, net := net }

/-- `unregister_client` -/
def Mem.unregisterClient (m : Mem π) : Option Slot → Mem π
  | none => m
  | some id => { m with
      clients := m.clients.deactivate id
      net := m.net.close (m.clients id).sock }

/-- `handle_pong` -/
def Mem.handlePong (m : Mem π) (id : Slot) : Mem π :=
  { m with clients := m.clients.setInactivity id 0 }

/-- The response that `handle_response` prints, if the length is right. -/
def SocketMessage.response (sm : SocketMessage) : Option Response :=
  if sm.length ≠ 1 + 16 then none else some (Response.ofBytes (sm.buffer.drop 1))

/-- `handle_response`, for a message read from the connection `conn`. -/
def Mem.handleResponse (m : Mem π) (id : Slot) (conn : ℕ) (sm : SocketMessage) : Mem π :=
  match sm.response with
  | none => m
  | some resp => { m with printed := m.printed ++ [⟨conn, resp, (m.clients id).name⟩] }

/-- `thread_listen`, from the check for unknown clients on. -/
def Mem.dispatch (m : Mem π) (fd conn : ℕ) (client : Option Slot) (sm : SocketMessage) :
    Mem π × Pc :=
  if sm.type = msgTypeRegister then (m, .check fd sm)
  else if sm.type = msgTypeUnregister then (m, .unregister client)
  else
    match client with
    | none => (m, .idle)
    | some id =>
      if sm.type = msgTypePong then (m.handlePong id, .idle)
      else if sm.type = msgTypeResponse then (m.handleResponse id conn sm, .idle)
      else (m, .idle)

/-- A step of an accept thread or the listener after `receive_sm`. `locked` says
    that the pinger holds `clients_mx`. -/
def threadStep (m : Mem π) (locked ok : Bool) : Pc → Option (Mem π × Pc)
  | .idle => none
  | .receive _ => none
  | .lookup fd conn sm =>
    if locked then none else some (m, .dispatch fd conn (m.clients.clientForSock fd) sm)
  | .dispatch fd conn client sm => some (m.dispatch fd conn client sm)
  | .unregister client => if locked then none else some (m.unregisterClient client, .idle)
  | .check fd sm =>
    if locked then none
    else some (m, if m.clients.isNameTaken sm.name then .refuse fd else .insert fd sm.name)
  | .refuse fd => (m.sendSm fd (typeMessage msgTypeNameInUse) ok).map (·, .idle)
  | .insert fd name => if locked then none else some (m.insertClient fd name, .idle)

/-- `receive_sm` in `thread_accept` and `thread_listen`, over `old`; with `none`
    it fails, and has stored no more than the buffer holds. -/
def receiveStep (m : Mem π) (t : Thread) (old : Option (List UInt8)) :
    Pc → Option (Mem π × Pc)
  | .receive fd =>
    match old with
    | none => some (m, .idle)
    | some old => (m.net.recv fd).map fun ⟨conn, msg, net⟩ =>
      let sm := msg.over old
      ({ m with net := net },
        if t = .listener then .lookup fd conn sm
        else if sm.type = msgTypeRegister then .check fd sm
        else .idle)
  | _ => none

/-- A turn of the loop of `thread_pinger`. -/
def Mem.pingSlot (m : Mem π) (i : Slot) (ok : Bool) : Option (Mem π) :=
  if !(m.clients i).active then some m
  else if (m.clients i).inactivity > confInactivityMax then
    some { m with clients := m.clients.deactivate i, net := m.net.close (m.clients i).sock }
  else
    { m with clients := m.clients.setInactivity i ((m.clients i).inactivity + 1) }.sendSm
      (m.clients i).sock pingMessage ok

/-- `read_request` up to `parse_request`; `none` is one of its error returns. -/
def readLine (strtod : List UInt8 → Double × List UInt8) (id : Int32) (line : List UInt8) :
    Option Request :=
  let line := skipSpaces line
  if line.headD 0 = 10 ∨ line.headD 0 = 0 then none else parseRequest strtod id line

/-- `send_request` from `send_sm` on, and the end of `read_request`. -/
def Mem.sendRequest (m : Mem π) (fd : ℕ) (req : Request) (ok : Bool) : Option (Mem π) :=
  if ok then
    (m.net.fd fd).bind fun conn => (m.net.send fd (requestMessage req).message).map fun net =>
      { m with
        net := net
        sent := m.sent ++ [(conn, req)]
        currentRequestId := m.currentRequestId + 1 }
  else some m

structure State (P : Peer Message) where
  mem : Mem P.State
  pc : Thread → Pc
  pinger : Option ℕ
  main : MainPc

inductive Label (P : Peer Message)
  | accept (t : Thread) (fd conn : ℕ) (x : P.Start)
  | epollWait (fd : ℕ)
  | receive (t : Thread) (old : Option (List UInt8))
  | thread (t : Thread) (ok : Bool)
  | pinger (ok : Bool)
  | readRequest (line : List UInt8)
  | main (ok : Bool)
  | peer (conn : ℕ) (x : P.Choice) (a : Act)

variable {P : Peer Message}

def State.initial : State P where
  mem := ⟨fun _ => ⟨false, 0, [], 0⟩, 0, 0, Net.empty, false, [], []⟩
  pc _ := .idle
  pinger := none
  main := .idle

/-- Thread `t` goes on at `pc`. -/
def State.goto (s : State P) (t : Thread) (m : Mem P.State) (pc : Pc) : State P :=
  { s with mem := m, pc := Function.update s.pc t pc }

def acceptStep (s : State P) (t : Thread) (fd conn : ℕ) (x : P.Start) : Option (State P) :=
  match t, s.pc t with
  | .listener, _ => none
  | _, .idle => (s.mem.net.accept fd conn (P.start x)).map fun net =>
    s.goto t { s.mem with net := net } (.receive fd)
  | _, _ => none

def epollStep (s : State P) (fd : ℕ) : Option (State P) :=
  match s.pc .listener with
  | .idle => if s.mem.net.polled fd then some (s.goto .listener s.mem (.receive fd)) else none
  | _ => none

/-- `thread_pinger`: `lock_clients`, the turns of the loop, `unlock_clients`. -/
def pingerStep (s : State P) (ok : Bool) : Option (State P) :=
  match s.pinger with
  | none => some { s with pinger := some 0 }
  | some i =>
    if h : i < confClientsMax then
      (s.mem.pingSlot ⟨i, h⟩ ok).map fun m => { s with mem := m, pinger := some (i + 1) }
    else some { s with pinger := none }

def readStep (strtod : List UInt8 → Double × List UInt8) (s : State P) (line : List UInt8) :
    Option (State P) :=
  match s.main with
  | .idle =>
    match readLine strtod s.mem.currentRequestId line with
    | none => some s
    | some req => some { s with main := .choose req }
  | _ => none

/-- `read_request` from `next_free_client` on. -/
def mainStep (s : State P) (ok : Bool) : Option (State P) :=
  match s.main with
  | .idle => none
  | .choose req =>
    if s.pinger = none then
      match s.mem.clients.nextFreeClient s.mem.freeCl with
      | none => some { s with main := .idle }
      | some (clid, freeCl) =>
        some { s with mem := { s.mem with freeCl := freeCl }, main := .send clid req }
    else none
  | .send clid req => some { s with main := .sending (s.mem.clients clid).sock req }
  | .sending fd req => (s.mem.sendRequest fd req ok).map fun m =>
    { s with mem := m, main := .idle }

def serverNext (strtod : List UInt8 → Double × List UInt8) (s : State P) :
    Label P → Option (State P)
  | .accept t fd conn x => acceptStep s t fd conn x
  | .epollWait fd => epollStep s fd
  | .receive t old => (receiveStep s.mem t old (s.pc t)).map fun p => s.goto t p.1 p.2
  | .thread t ok =>
    (threadStep s.mem s.pinger.isSome ok (s.pc t)).map fun p => s.goto t p.1 p.2
  | .pinger ok => pingerStep s ok
  | .readRequest line => readStep strtod s line
  | .main ok => mainStep s ok
  | .peer conn x a => (s.mem.net.act P conn x a).map fun net =>
    { s with mem := { s.mem with net := net } }

/-- The server with peers that run `P`; nothing is modelled after `exit`. -/
def server (strtod : List UInt8 → Double × List UInt8) (P : Peer Message) :
    Machine (State P) (Label P) where
  init s := s = State.initial
  next s l := if s.mem.exited then none else serverNext strtod s l

end AghOs.Calc
