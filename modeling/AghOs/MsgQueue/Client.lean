import Mathlib.Algebra.Order.Ring.Nat
import Mathlib.Data.List.Basic
import Mathlib.Tactic.Common

/-!
# The client of the message-queue server

`config.h` and `client.c`, System V build, from the installation of the signal
handler on. Each step of a client is one send, one receive, or what it does on
its own up to the next one. SIGINT can be delivered before any step.

`cleanup` runs in `exit`, as it is registered with `atexit`, and in the signal
handler, which then calls `exit`. The handler is reset when it is called: a
second SIGINT kills the client, that is, it makes no step any more.

A text is the C string that the client copies into `msg.buf`. The copy stays in its place
if the text is shorter than `MSG_BUF_SIZE`; what follows from a longer one is in
`AghOs.MsgQueue.Commands`.
-/

namespace AghOs.MsgQueue

/-- `CLIENT_MAX` in `server.c` -/
def clientMax : ℕ := 256

instance : NeZero clientMax := ⟨by decide⟩

/-- A client id: an index of the table of the server. -/
abbrev Slot := Fin clientMax

/-- `MSG_BUF_SIZE` -/
def msgBufSize : ℕ := 256

/-- `enum message_t` -/
inductive MessageType
  | handshake | mirror | calc | time | «end» | stop
  deriving DecidableEq

/-- `struct msg_t` as a client sends it. `sender` is its `from`; the members of
    the union, `buf` and `queue_key`, are apart. What the client does not set is
    `0` or empty; the server does not read it. -/
structure Msg where
  type : MessageType
  clientId : Slot
  sender : ℕ
  buf : List UInt8
  queueKey : ℕ

/-- `struct msg_t` as the server sends it; its `type` is its `client_id`. -/
structure Response where
  clientId : Slot
  buf : List UInt8
  deriving DecidableEq

/-- `terminate_at_nl` on the C string at the start of `c`. -/
def terminateAtNl (c : List UInt8) : List UInt8 := c.takeWhile fun b => b ≠ 10 ∧ b ≠ 0

/-- A line of commands: what is before the first space, and the text after it up
    to the end of the line. -/
def splitCommand (line : List UInt8) : List UInt8 × List UInt8 :=
  let line := line.takeWhile (· ≠ 0)
  (line.takeWhile (· ≠ 32), terminateAtNl (line.dropWhile (· ≠ 32)).tail)

/-- Where a client is. -/
inductive Pc
  /-- at `atexit(cleanup)` -/
  | start
  /-- in `handshake`, at `send_to_server` -/
  | shake
  /-- in `handshake`, at `receive_from_server` -/
  | shaken
  /-- in `handshake`, at `client_id = msg.client_id` -/
  | assign (id : Slot)
  /-- at `fgets` -/
  | read
  /-- at `send_to_server`, with a request -/
  | request (type : MessageType) (text : List UInt8)
  /-- at `receive_from_server`, for the response -/
  | response
  /-- at `send_to_server`, with `END` -/
  | sendEnd
  /-- at `nostop = 1` -/
  | setNostop
  /-- in `exit`, before `cleanup` is called -/
  | exit
  /-- in `cleanup`, at `if (!nostop)`. The signal handler has been called
      (`handler`); `exit` has still to call `cleanup` (`again`). -/
  | cleanup (handler again : Bool)
  /-- in `cleanup`, at `msgctl` -/
  | remove (handler again : Bool)
  | ended
  deriving DecidableEq

/-- A client: its program counter, `queue_key`, `client_id`, `nostop`, and what
    is in its queue. -/
structure Client where
  pc : Pc
  queueKey : ℕ
  clientId : Slot
  nostop : Bool
  inbox : List Response

/-- After `prepare_queues` and `signal`. -/
def Client.new (key : ℕ) : Client := ⟨.start, key, 0, false, []⟩

/-- What a step of a client does outside of the client: nothing, a message put
    into the queue of the server, or the removal of its own queue. -/
inductive Effect
  | nothing
  | send (m : Msg)
  | remove

/-- What a step of a client depends on: whether its call succeeds and what
    `fgets` returns, or the delivery of SIGINT. -/
inductive Input
  | step (ok : Bool) (line : Option (List UInt8))
  | sigint

/-- The message of client `c` with the given type and text. -/
def Client.msg (k : Client) (c : ℕ) (type : MessageType) (text : List UInt8) : Msg :=
  ⟨type, k.clientId, c, text, k.queueKey⟩

/-- The loop in `main`, for a line that `fgets` returned. -/
def command (line : List UInt8) : Pc :=
  let (command, text) := splitCommand line
  if command = [109, 105, 114, 114, 111, 114] then .request .mirror text  -- "mirror"
  else if command = [99, 97, 108, 99] then .request .calc text  -- "calc"
  else if command = [116, 105, 109, 101] then .request .time text  -- "time"
  else if command = [101, 110, 100] then .sendEnd  -- "end"
  else .read

/-- The next step of client `c`. -/
def clientStep (c : ℕ) (k : Client) (ok : Bool) (line : Option (List UInt8)) :
    Option (Client × Effect) :=
  match k.pc with
  | .start => some ({ k with pc := .shake }, .nothing)
  | .shake =>
    if ok then some ({ k with pc := .shaken }, .send (k.msg c .handshake []))
    else some ({ k with pc := .exit }, .nothing)
  | .shaken =>
    if ok then
      match k.inbox with
      | [] => none
      | r :: rs => some ({ k with pc := .assign r.clientId, inbox := rs }, .nothing)
    else some ({ k with pc := .exit }, .nothing)
  | .assign id => some ({ k with pc := .read, clientId := id }, .nothing)
  | .read =>
    match line with
    | none => some ({ k with pc := .exit }, .nothing)
    | some line => some ({ k with pc := command line }, .nothing)
  | .request type text =>
    some ({ k with pc := .response }, if ok then .send (k.msg c type text) else .nothing)
  | .response =>
    if ok then
      match k.inbox with
      | [] => none
      | _ :: rs => some ({ k with pc := .read, inbox := rs }, .nothing)
    else some ({ k with pc := .read }, .nothing)
  | .sendEnd =>
    some ({ k with pc := .setNostop }, if ok then .send (k.msg c .end []) else .nothing)
  | .setNostop => some ({ k with pc := .exit, nostop := true }, .nothing)
  | .exit => some ({ k with pc := .cleanup false false }, .nothing)
  | .cleanup handler again =>
    some ({ k with pc := .remove handler again },
      if !k.nostop && ok then .send (k.msg c .stop []) else .nothing)
  | .remove handler again =>
    some ({ k with pc := if again then .cleanup handler false else .ended, inbox := [] }, .remove)
  | .ended => none

/-- `sig_cleanup` is called. Once `exit` has called `cleanup`, it does not call
    it again. -/
def sigint (k : Client) : Option Client :=
  match k.pc with
  | .start => some { k with pc := .cleanup true false }
  | .cleanup false _ => some { k with pc := .cleanup true false }
  | .remove false _ => some { k with pc := .cleanup true false }
  | .cleanup true _ => none
  | .remove true _ => none
  | .ended => none
  | _ => some { k with pc := .cleanup true true }

def clientNext (c : ℕ) (k : Client) : Input → Option (Client × Effect)
  | .step ok line => clientStep c k ok line
  | .sigint => (sigint k).map (·, .nothing)

/-! ## What a client sends -/

inductive Phase
  | fresh | waiting | running | exiting
  deriving DecidableEq

/-- The part of the program: before the HANDSHAKE is sent, until `client_id` is
    set, the loop, and the exit. -/
def Pc.phase : Pc → Phase
  | start => .fresh
  | shake => .fresh
  | shaken => .waiting
  | assign _ => .waiting
  | read => .running
  | request _ _ => .running
  | response => .running
  | sendEnd => .running
  | setNostop => .running
  | exit => .exiting
  | cleanup _ _ => .exiting
  | remove _ _ => .exiting
  | ended => .exiting

end AghOs.MsgQueue
