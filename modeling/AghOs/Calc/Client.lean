import AghOs.Calc.Messages
import AghOs.Machine.Sockets

/-!
# The client of the calculator

`client.c`, stream build, from `register_me` on, as a program for the peers of
the server.

* `clientReceive_answer`: what the client answers a message with.
-/

namespace AghOs.Calc

/-- Where a client is. -/
inductive ClientPc
  /-- in `register_me`, at `send_sm` -/
  | register (name : List UInt8)
  /-- in `receive_request`, at `receive_sm` -/
  | receive
  /-- in `receive_request`, at `send_sm` -/
  | answer (sm : SocketMessage)
  /-- in `cleanup`, about to send `MSG_TYPE_UNREGISTER` -/
  | unregister
  /-- in `cleanup`, at `shutdown` -/
  | close
  | ended

/-- What no statement of the client sets: the buffer that it receives into, and
    the padding of `struct response_t`. -/
structure Unset where
  buffer : List UInt8
  padding : UInt32

/-- The message that `register_me` sends. -/
def registerMessage (name : List UInt8) : SocketMessage :=
  ⟨UInt16.ofNat (1 + name.length), msgTypeRegister :: name⟩

/-- `receive_request`, once `receive_sm` has returned a message. -/
def clientReceive (A : Arith) (padding : UInt32) (sm : SocketMessage) : ClientPc :=
  if sm.type = msgTypePing then .answer (typeMessage msgTypePong)
  else if sm.type = msgTypeRequest then
    if sm.length ≠ 1 + 24 then .receive
    else
      match processRequest A (Request.ofBytes (sm.buffer.drop 1)) with
      | none => .receive
      | some resp => .answer (responseMessage resp padding)
  else if sm.type = msgTypeNameInUse then .unregister
  else if sm.type = msgTypeShutdown then .close
  else .receive

/-- The client. A signal, or a closed connection (`receive_sm` fails with `errno`
    at `0`), makes it `exit`, that is, go on in `cleanup`. -/
abbrev client (A : Arith) : Peer Message where
  State := ClientPc
  Start := List UInt8
  Choice := Unset
  start := .register
  recv q x m :=
    match q with
    | .receive => some (clientReceive A x.padding (m.over x.buffer))
    | _ => none
  send q _ :=
    match q with
    | .register name => some ((registerMessage name).message,
        fun ok => if ok then .receive else .unregister)
    | .answer sm => some (sm.message, fun _ => .receive)
    | .unregister => some ((typeMessage msgTypeUnregister).message, fun _ => .close)
    | _ => none
  internal q _ :=
    match q with
    | .register _ => some .unregister
    | .receive => some .unregister
    | .answer _ => some .unregister
    | .close => some .ended
    | _ => none

/-! ## Requests and responses under way -/

/-- The response that the server prints for a message. -/
def Message.response (m : Message) : Option Response :=
  if m.data.headD 0 = msgTypeResponse ∧ m.data.length = 1 + 16 then
    some (Response.ofBytes (m.data.drop 1))
  else none

/-- The response that a client sends for a message. -/
def Message.answer (A : Arith) (m : Message) : Option Response :=
  if m.data.headD 0 = msgTypeRequest ∧ m.data.length = 1 + 24 then
    processRequest A (Request.ofBytes (m.data.drop 1))
  else none

theorem response_responseMessage (resp : Response) (padding : UInt32) :
    (responseMessage resp padding).message.response = some resp := by
  have h := Response.ofBytes_bytes resp padding []
  simpa [Message.response] using h

theorem answer_requestMessage (A : Arith) (req : Request) :
    (requestMessage req).message.answer A = processRequest A req := by
  have h := Request.ofBytes_bytes req []
  rw [List.append_nil] at h
  simp [Message.answer, h]

/-- A message of one byte is neither a request nor a response. -/
theorem response_typeMessage (type : UInt8) : (typeMessage type).message.response = none := by
  simp [Message.response]

theorem answer_typeMessage (A : Arith) (type : UInt8) :
    (typeMessage type).message.answer A = none := by
  simp [Message.answer]

theorem response_registerMessage (name : List UInt8) :
    (registerMessage name).message.response = none := by
  refine if_neg fun h => ?_
  obtain ⟨htype, hlen⟩ := h
  obtain h0 | ⟨n, hn⟩ : (registerMessage name).length.toNat = 0 ∨
      ∃ n, (registerMessage name).length.toNat = n + 1 := by
    cases (registerMessage name).length.toNat with
    | zero => exact .inl rfl
    | succ n => exact .inr ⟨n, rfl⟩
  · simp [SocketMessage.message, SocketMessage.data, h0] at hlen
  · simp only [SocketMessage.message, SocketMessage.data, hn] at htype
    revert htype
    simp [registerMessage, msgTypeRegister, msgTypeResponse]

/-- If a client answers a message with a response, it is the one that
    `process_request` computes. -/
theorem clientReceive_answer {A : Arith} {padding : UInt32} {m : Message} {old : List UInt8}
    {sm : SocketMessage} {resp : Response}
    (h : clientReceive A padding (m.over old) = .answer sm)
    (hr : sm.message.response = some resp) : m.answer A = some resp := by
  unfold clientReceive at h
  split at h
  · -- a PING is answered with a PONG
    cases h
    rw [response_typeMessage] at hr
    cases hr
  · split at h
    · rename_i htype
      split at h
      · cases h
      · rename_i hlen
        have hm : m.data.length = 25 := Message.over_length_eq_iff.mp (not_not.mp hlen)
        have hne : m.data ≠ [] := fun h0 => by simp [h0] at hm
        rw [Message.over_type hne] at htype
        rw [Message.over_tail hne, Request.ofBytes_append (by simp [hm])] at h
        split at h
        · cases h
        · rename_i resp' hp
          cases h
          rw [response_responseMessage] at hr
          cases hr
          rw [Message.answer, if_pos ⟨htype, hm⟩, hp]
    · repeat' split at h
      all_goals cases h

end AghOs.Calc
