import AghOs.Calc.Client
import AghOs.Calc.Transports

/-!
# What else is in a message

A `struct socket_message` is a local variable of the function that sends it, and
only the type, and what belongs to it, is written: the rest of the buffer is what
was on the stack. `send_sm` of `cw10/zad1/src/connection.c` (lines 47–78) sends as
many bytes as the message has in one build, a block of fixed size in the other.

* `sendSmDatagram_over`: the datagram of a message that was built over `stack`.
* `nothing_else_sent_iff`: what is sent depends on nothing but the message in the
  stream build, and in the datagram build for the longest messages only.
-/

namespace AghOs.Calc

/-- Without and with `CONF_DATAGRAM`. -/
inductive Build
  | stream
  | datagram
  deriving DecidableEq

/-- How many bytes the socket takes, of those it is given, by the first call of
    `send` (or by `sendto`) and by the second. -/
structure Taken where
  first : ℕ
  second : ℕ

/-- `send_sm`: the return value, and the bytes that go out. A datagram goes out
    as a whole or not at all. -/
def sendSmOn (build : Build) (taken : Taken) (sm : SocketMessage) : ℤ × List UInt8 :=
  match build with
  | .datagram => if taken.first < datagramSize then (-1, []) else (0, sendSmDatagram sm)
  | .stream =>
    let (length, data) := sendSm sm
    if taken.first < 2 then (-1, length.take taken.first)
    else (if taken.second < sm.length.toNat then -1 else 0, length ++ data.take taken.second)

/-- The bytes that `send_sm` puts on the wire for `sm` are the same for every
    message with this content, whatever else is in its buffer. -/
def NothingElseSent (build : Build) (sm : SocketMessage) : Prop :=
  ∀ (taken : Taken) (other : SocketMessage), other.buffer.length = datagramSize →
    other.content = sm.content → (sendSmOn build taken other).2 = (sendSmOn build taken sm).2

/-- When the socket takes everything, the stream build sends the message. -/
theorem sendSmOn_stream_all {sm : SocketMessage} {taken : Taken} (h1 : 2 ≤ taken.first)
    (h2 : sm.length.toNat ≤ taken.second) :
    sendSmOn .stream taken sm = (0, sentOnStream sm) := by
  have hdata : sm.data.length ≤ taken.second := by
    rw [SocketMessage.data, List.length_take]
    omega
  simp only [sendSmOn, sentOnStream, sendSm]
  rw [if_neg (by omega), if_neg (by omega), List.take_of_length_le hdata]

theorem nothingElseSent_stream (sm : SocketMessage) : NothingElseSent .stream sm := by
  intro taken other _ hc
  have hlength : other.length = sm.length := congrArg Prod.fst hc
  have hdata : other.data = sm.data := congrArg Prod.snd hc
  simp only [sendSmOn, sendSm, hlength, hdata]

/-! ## The datagram build -/

/-- The datagram of a message that was built over `stack` ends with bytes of
    `stack`. -/
theorem sendSmDatagram_over (m : Message) (stack : List UInt8)
    (h : m.data.length ≤ datagramSize - 2) :
    sendSmDatagram (m.over stack) = leBytes 2 m.data.length ++
      (m.data ++ (stack.drop m.data.length).take (datagramSize - 2 - m.data.length)) := by
  rw [sendSmDatagram, Message.over_length, Message.over, List.take_append,
    List.take_of_length_le h]

/-- Two messages of one length give one datagram if their buffers agree up to the
    last two bytes. -/
theorem sendSmDatagram_eq_iff {sm other : SocketMessage} (h : other.length = sm.length) :
    sendSmDatagram other = sendSmDatagram sm ↔
      other.buffer.take (datagramSize - 2) = sm.buffer.take (datagramSize - 2) := by
  rw [sendSmDatagram, sendSmDatagram, h, List.append_right_inj]

theorem nothingElseSent_datagram {sm : SocketMessage}
    (h : sm.length.toNat = datagramSize - 2) : NothingElseSent .datagram sm := by
  intro taken other _ hc
  have hlength : other.length = sm.length := congrArg Prod.fst hc
  have hdata : other.data = sm.data := congrArg Prod.snd hc
  have hsent : sendSmDatagram other = sendSmDatagram sm := by
    rw [sendSmDatagram_eq_iff hlength]
    unfold SocketMessage.data at hdata
    rwa [hlength, h] at hdata
  simp only [sendSmOn, hsent]

/-- The message with another byte behind its content. -/
def SocketMessage.stained (sm : SocketMessage) : SocketMessage :=
  ⟨sm.length, sm.buffer.modify sm.length.toNat (· + 1)⟩

theorem content_stained (sm : SocketMessage) : sm.stained.content = sm.content := by
  have hdata : sm.stained.data = sm.data := by
    show (sm.buffer.modify sm.length.toNat (· + 1)).take sm.length.toNat =
      sm.buffer.take sm.length.toNat
    apply List.ext_getElem?
    intro i
    by_cases hi : i < sm.length.toNat
    · rw [List.getElem?_take_of_lt hi, List.getElem?_take_of_lt hi,
        List.getElem?_modify_ne _ _ (by omega)]
    · rw [List.getElem?_take_eq_none (by omega), List.getElem?_take_eq_none (by omega)]
  unfold SocketMessage.content
  rw [hdata]
  rfl

theorem not_nothingElseSent_datagram {sm : SocketMessage}
    (hb : sm.buffer.length = datagramSize) (h : sm.length.toNat < datagramSize - 2) :
    ¬NothingElseSent .datagram sm := by
  intro hsent
  have hlt : sm.length.toNat < sm.buffer.length := by
    rw [hb]
    exact h.trans_le (Nat.sub_le _ _)
  have heq : sendSmDatagram sm.stained = sendSmDatagram sm :=
    hsent ⟨datagramSize, 0⟩ sm.stained ((List.length_modify _ _ _).trans hb) (content_stained sm)
  rw [sendSmDatagram_eq_iff (show sm.stained.length = sm.length from rfl)] at heq
  have hbyte := congrArg (·[sm.length.toNat]?) heq
  simp only [List.getElem?_take_of_lt h, SocketMessage.stained, List.getElem?_modify_eq,
    List.getElem?_eq_getElem hlt] at hbyte
  simp at hbyte

/-- A ping over a clean stack: in a datagram, its second byte shows. -/
theorem ping_shows_stack :
    (⟨1, msgTypePing :: List.replicate 255 0⟩ : SocketMessage).length.toNat ≤ datagramSize - 2 ∧
      ¬NothingElseSent .datagram ⟨1, msgTypePing :: List.replicate 255 0⟩ :=
  ⟨by decide, not_nothingElseSent_datagram
    (by rw [List.length_cons, List.length_replicate]; rfl) (by decide)⟩

/-- **What the wire shows.** The bytes that `send_sm` sends for a message of at
    most `DATAGRAM_SIZE - 2` bytes depend on these only in the stream build, and in
    the datagram build just if the message has this length. -/
theorem nothing_else_sent_iff (build : Build) {sm : SocketMessage}
    (hb : sm.buffer.length = datagramSize) (h : sm.length.toNat ≤ datagramSize - 2) :
    NothingElseSent build sm ↔ build = .stream ∨ sm.length.toNat = datagramSize - 2 := by
  cases build with
  | stream => exact ⟨fun _ => .inl rfl, fun _ => nothingElseSent_stream sm⟩
  | datagram =>
    constructor
    · intro hsent
      by_contra hne
      rw [not_or] at hne
      exact not_nothingElseSent_datagram hb (by omega) hsent
    · rintro (hbuild | hlen)
      · cases hbuild
      · exact nothingElseSent_datagram hlen

theorem nothing_else_sent_iff_ping :
    NothingElseSent .stream ⟨1, msgTypePing :: List.replicate 255 7⟩ ↔
      Build.stream = .stream ∨ (1 : UInt16).toNat = datagramSize - 2 :=
  nothing_else_sent_iff .stream
    (by rw [List.length_cons, List.length_replicate]; rfl) (by decide)

end AghOs.Calc
