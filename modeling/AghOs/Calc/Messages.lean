import AghOs.Machine.Bytes
import AghOs.Machine.Frames
import Mathlib.Tactic.Common

/-!
# The messages of the calculator

`connection.c`, `request.c` and the message types of `config.h`, stream build.
A message goes out as its length, two bytes, and as many bytes of its buffer;
`receive_sm` waits for all of them (`MSG_WAITALL`).

The server and its clients run on the same kind of machine: both copy `struct
request_t` and `struct response_t` as they are in memory. A `double` is the
eight bytes that hold it, and the operations on it are those of the machine.

* `receiveSm_sendSm`: a whole frame is received as it was sent.
* `wire`: the frames as a `Format`.
* `Request.ofBytes_bytes`, `Response.ofBytes_bytes`: the structures survive
  the copy.
-/

namespace AghOs.Calc

/-! ## `connection.c` -/

def datagramSize : ℕ := 256

/-- `struct socket_message`, less `addr`, which only datagrams are sent to. -/
structure SocketMessage where
  length : UInt16
  buffer : List UInt8
  deriving DecidableEq

/-- The bytes of the buffer that are sent. -/
def SocketMessage.data (sm : SocketMessage) : List UInt8 := sm.buffer.take sm.length.toNat

/-- `send_sm`: what its two `send()` calls append to the stream. -/
def sendSm (sm : SocketMessage) : List UInt8 × List UInt8 :=
  (leBytes 2 sm.length.toNat, sm.data)

/-- `receive_sm` into `sm`; `none` if the bytes are not all there yet. Beyond
    the bytes received, the buffer keeps what it held. -/
def receiveSm (sm : SocketMessage) (stream : List UInt8) : Option (SocketMessage × List UInt8) :=
  if 2 ≤ stream.length then
    let length := UInt16.ofNat (leNat (stream.take 2))
    let rest := stream.drop 2
    if length.toNat ≤ rest.length then
      some (⟨length, rest.take length.toNat ++ sm.buffer.drop length.toNat⟩,
        rest.drop length.toNat)
    else none
  else none

/-- What a frame carries: as many bytes as its two length bytes can say. -/
structure Message where
  data : List UInt8
  length_lt : data.length < 2 ^ 16
  deriving DecidableEq

/-- The message that `send_sm` sends. -/
def SocketMessage.message (sm : SocketMessage) : Message where
  data := sm.data
  length_lt := by
    have h := sm.length.toNat_lt
    simp only [SocketMessage.data, List.length_take]
    omega

/-- The message in memory, received over `old`. -/
def Message.over (m : Message) (old : List UInt8) : SocketMessage :=
  ⟨UInt16.ofNat m.data.length, m.data ++ old.drop m.data.length⟩

@[simp] theorem Message.over_length (m : Message) (old : List UInt8) :
    (m.over old).length.toNat = m.data.length := by
  have h := m.length_lt
  simp only [Message.over, UInt16.toNat_ofNat']
  omega

@[simp] theorem Message.over_data (m : Message) (old : List UInt8) :
    (m.over old).data = m.data := by
  rw [SocketMessage.data, Message.over_length]
  simp [Message.over]

@[simp] theorem Message.over_message (m : Message) (old : List UInt8) :
    (m.over old).message = m := by
  cases m
  simp [SocketMessage.message]

@[simp] theorem sendSm_over (m : Message) (old : List UInt8) :
    sendSm (m.over old) = (leBytes 2 m.data.length, m.data) := by
  simp [sendSm]

/-- A frame that is whole is received as it was sent. -/
theorem receiveSm_sendSm (m : Message) (sm : SocketMessage) (rest : List UInt8) :
    receiveSm sm ((sendSm (m.over [])).1 ++ (sendSm (m.over [])).2 ++ rest) =
      some (m.over sm.buffer, rest) := by
  have hlt : m.data.length < 256 ^ 2 := m.length_lt
  have hnat : (UInt16.ofNat m.data.length).toNat = m.data.length := Message.over_length m []
  rw [sendSm_over]
  simp [receiveSm, leNat_leBytes hlt, hnat, Message.over]

/-- The frames on a stream, received over `old`. -/
def wire (old : SocketMessage) : Format Message UInt8 where
  header m := (sendSm (m.over [])).1
  body m := (sendSm (m.over [])).2
  parse stream := (receiveSm old stream).map fun p => (p.1.message, p.2)
  header_ne_nil m := by simp [sendSm, leBytes]
  parse_frame m rest := by
    rw [receiveSm_sendSm]
    simp

/-! ## `request.c` -/

/-- The bytes of a `double`. -/
abbrev Double := UInt64

/-- The operations of the machine on doubles. -/
structure Arith where
  add : Double → Double → Double
  sub : Double → Double → Double
  mul : Double → Double → Double
  div : Double → Double → Double

/-- Right for sums, differences and products of zeros. -/
def Arith.zero : Arith := ⟨fun _ _ => 0, fun _ _ => 0, fun _ _ => 0, fun _ _ => 0⟩

/-- `enum request_type` -/
inductive RequestType
  | addition | subtraction | multiplication | division
  deriving DecidableEq

namespace RequestType

/-- The constant in memory. -/
def toUInt32 : RequestType → UInt32
  | addition => 0
  | subtraction => 1
  | multiplication => 2
  | division => 3

/-- The case of a `switch`; `none` is its `default`. -/
def ofUInt32 (v : UInt32) : Option RequestType :=
  if v = 0 then some addition
  else if v = 1 then some subtraction
  else if v = 2 then some multiplication
  else if v = 3 then some division
  else none

@[simp] theorem ofUInt32_toUInt32 (t : RequestType) : ofUInt32 t.toUInt32 = some t := by
  cases t <;> rfl

end RequestType

/-- `struct request_t` -/
structure Request where
  id : Int32
  type : UInt32
  left : Double
  right : Double
  deriving DecidableEq

/-- `struct response_t` -/
structure Response where
  id : Int32
  result : Double
  deriving DecidableEq

/-- `process_request`; `none` is the return value `-1`. -/
def processRequest (A : Arith) (req : Request) : Option Response :=
  match RequestType.ofUInt32 req.type with
  | some .addition => some ⟨req.id, A.add req.left req.right⟩
  | some .subtraction => some ⟨req.id, A.sub req.left req.right⟩
  | some .multiplication => some ⟨req.id, A.mul req.left req.right⟩
  | some .division => some ⟨req.id, A.div req.left req.right⟩
  | none => none

/-- A response has the id of its request. -/
theorem processRequest_id {A : Arith} {req : Request} {resp : Response}
    (h : processRequest A req = some resp) : resp.id = req.id := by
  unfold processRequest at h
  split at h <;> cases h <;> rfl

/-- `while (*data == ' ') ++data;` -/
def skipSpaces (data : List UInt8) : List UInt8 := data.dropWhile (· = 32)

/-- `parse_request`, for a request with the given id; the end of the list is the
    terminating `0`. `strtod` returns the number read and what follows it. -/
def parseRequest (strtod : List UInt8 → Double × List UInt8) (id : Int32) (data : List UInt8) :
    Option Request :=
  let (left, data) := strtod data
  let data := skipSpaces data
  let op := data.headD 0
  let data := skipSpaces data.tail
  -- no second operand
  if data.headD 0 = 10 ∨ data.headD 0 = 0 then none
  else
    let (right, _) := strtod data
    if op = 43 then some ⟨id, RequestType.addition.toUInt32, left, right⟩
    else if op = 45 then some ⟨id, RequestType.subtraction.toUInt32, left, right⟩
    else if op = 42 then some ⟨id, RequestType.multiplication.toUInt32, left, right⟩
    else if op = 47 then some ⟨id, RequestType.division.toUInt32, left, right⟩
    else none

/-- The requests that the server sends have the id they were parsed with, and
    the client can process them. -/
theorem parseRequest_some {strtod : List UInt8 → Double × List UInt8} {id : Int32}
    {data : List UInt8} {req : Request} (h : parseRequest strtod id data = some req) :
    req.id = id ∧ ∃ t, RequestType.ofUInt32 req.type = some t := by
  simp only [parseRequest] at h
  repeat' split at h
  all_goals cases h
  all_goals exact ⟨rfl, by simp⟩

/-! ### The structures in memory -/

def Request.bytes (req : Request) : List UInt8 :=
  leBytes 4 req.id.toUInt32.toNat ++ leBytes 4 req.type.toNat ++ leBytes 8 req.left.toNat ++
    leBytes 8 req.right.toNat

def Request.ofBytes (bs : List UInt8) : Request where
  id := (UInt32.ofNat (leNat (bs.take 4))).toInt32
  type := UInt32.ofNat (leNat ((bs.drop 4).take 4))
  left := UInt64.ofNat (leNat ((bs.drop 8).take 8))
  right := UInt64.ofNat (leNat ((bs.drop 16).take 8))

/-- Four bytes of padding, whose value nobody sets, align the `double`. -/
def Response.bytes (resp : Response) (padding : UInt32) : List UInt8 :=
  leBytes 4 resp.id.toUInt32.toNat ++ leBytes 4 padding.toNat ++ leBytes 8 resp.result.toNat

def Response.ofBytes (bs : List UInt8) : Response where
  id := (UInt32.ofNat (leNat (bs.take 4))).toInt32
  result := UInt64.ofNat (leNat ((bs.drop 8).take 8))

@[simp] theorem Request.length_bytes (req : Request) : req.bytes.length = 24 := by
  simp [Request.bytes]

@[simp] theorem Response.length_bytes (resp : Response) (padding : UInt32) :
    (resp.bytes padding).length = 16 := by
  simp [Response.bytes]

theorem leNat_bytes32 (v : UInt32) : UInt32.ofNat (leNat (leBytes 4 v.toNat)) = v := by
  rw [leNat_leBytes v.toNat_lt, UInt32.ofNat_toNat]

theorem leNat_bytes64 (v : UInt64) : UInt64.ofNat (leNat (leBytes 8 v.toNat)) = v := by
  rw [leNat_leBytes v.toNat_lt, UInt64.ofNat_toNat]

theorem Request.ofBytes_bytes (req : Request) (rest : List UInt8) :
    Request.ofBytes (req.bytes ++ rest) = req := by
  cases req
  simp [Request.ofBytes, Request.bytes, leNat_bytes32, leNat_bytes64, List.drop_append,
    List.drop_of_length_le]

theorem Response.ofBytes_bytes (resp : Response) (padding : UInt32) (rest : List UInt8) :
    Response.ofBytes (resp.bytes padding ++ rest) = resp := by
  cases resp
  simp [Response.ofBytes, Response.bytes, leNat_bytes32, leNat_bytes64, List.drop_append,
    List.drop_of_length_le]

/-! ## The messages -/

def msgTypeRegister : UInt8 := 0
def msgTypeUnregister : UInt8 := 1
def msgTypePing : UInt8 := 2
def msgTypePong : UInt8 := 3
def msgTypeNameInUse : UInt8 := 4
def msgTypeResponse : UInt8 := 5
def msgTypeRequest : UInt8 := 6
def msgTypeShutdown : UInt8 := 7

/-- The type of a message. -/
def SocketMessage.type (sm : SocketMessage) : UInt8 := sm.buffer.headD 0

/-- A message of one byte, its type: `sm.length = 1; sm.buffer[0] = type`. -/
def typeMessage (type : UInt8) : SocketMessage := ⟨1, [type]⟩

/-- The message that `thread_pinger` sends. -/
def pingMessage : SocketMessage := typeMessage msgTypePing

/-- The message that `send_request` sends. -/
def requestMessage (req : Request) : SocketMessage :=
  ⟨1 + 24, msgTypeRequest :: req.bytes⟩

/-- The message that a client answers a request with. -/
def responseMessage (resp : Response) (padding : UInt32) : SocketMessage :=
  ⟨1 + 16, msgTypeResponse :: resp.bytes padding⟩

/-! ### What is read of a message received -/

theorem Message.over_type {m : Message} (h : m.data ≠ []) (old : List UInt8) :
    (m.over old).type = m.data.headD 0 := by
  obtain ⟨b, bs, hb⟩ := List.exists_cons_of_ne_nil h
  simp [SocketMessage.type, Message.over, hb]

theorem Message.over_tail {m : Message} (h : m.data ≠ []) (old : List UInt8) :
    (m.over old).buffer.drop 1 = m.data.drop 1 ++ old.drop m.data.length := by
  obtain ⟨b, bs, hb⟩ := List.exists_cons_of_ne_nil h
  simp [Message.over, hb]

theorem Message.over_length_eq_iff {m : Message} {old : List UInt8} {n : UInt16} :
    (m.over old).length = n ↔ m.data.length = n.toNat := by
  rw [← UInt16.toNat_inj, Message.over_length]

theorem Request.ofBytes_append {bs : List UInt8} (h : bs.length = 24) (rest : List UInt8) :
    Request.ofBytes (bs ++ rest) = Request.ofBytes bs := by
  simp [Request.ofBytes, List.take_append_of_le_length, List.drop_append_of_le_length,
    List.take_of_length_le, h]

theorem Response.ofBytes_append {bs : List UInt8} (h : bs.length = 16) (rest : List UInt8) :
    Response.ofBytes (bs ++ rest) = Response.ofBytes bs := by
  simp [Response.ofBytes, List.take_append_of_le_length, List.drop_append_of_le_length,
    List.take_of_length_le, h]

/-! ### What is sent of a message -/

@[simp] theorem requestMessage_data (req : Request) :
    (requestMessage req).message.data = msgTypeRequest :: req.bytes := by
  simp [SocketMessage.message, SocketMessage.data, requestMessage, List.take_of_length_le]

@[simp] theorem responseMessage_data (resp : Response) (padding : UInt32) :
    (responseMessage resp padding).message.data = msgTypeResponse :: resp.bytes padding := by
  simp [SocketMessage.message, SocketMessage.data, responseMessage, List.take_of_length_le]

@[simp] theorem typeMessage_data (type : UInt8) : (typeMessage type).message.data = [type] := rfl

end AghOs.Calc
