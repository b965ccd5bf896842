import AghOs.Calc.Messages

/-!
# The two transports of the calculator

`connection.c` in both builds. Over a stream a message is its length and as many
bytes of its buffer (`sendSm`, `receiveSm`). With `CONF_DATAGRAM` it is one
datagram of `DATAGRAM_SIZE` bytes, which has to hold the length as well: the
last two bytes of the buffer stay behind.

* `receiveStream_sent`: the stream build delivers every message.
* `receiveDatagrams_sent`: what the datagram build delivers.
* `transports_agree_iff`: both deliver the same messages exactly when no message
  is longer than `DATAGRAM_SIZE - 2`.
-/

namespace AghOs.Calc

/-- `send_sm`, datagram build. -/
def sendSmDatagram (sm : SocketMessage) : List UInt8 :=
  leBytes 2 sm.length.toNat ++ sm.buffer.take (datagramSize - 2)

/-- What a call of `receive_sm` finds in memory: `*sm`, and what is on the stack
    where the datagram build has its local `buffer`. -/
structure Call where
  sm : SocketMessage
  stack : List UInt8

/-- `receive_sm`, datagram build, when `datagram` is the next one; `none` is the
    return value `-1`. -/
def receiveSmDatagram (k : Call) (datagram : List UInt8) : Option SocketMessage :=
  let received := datagram.take datagramSize
  if received.length = 0 then none
  else
    let buffer := received ++ k.stack.drop received.length
    some ⟨UInt16.ofNat (leNat (buffer.take 2)),
      (buffer.drop 2).take (datagramSize - 2) ++ k.sm.buffer.drop (datagramSize - 2)⟩

/-! ## Successive calls -/

/-- What the two `send()` calls of `send_sm`, stream build, put on the stream. -/
def sentOnStream (sm : SocketMessage) : List UInt8 := (sendSm sm).1 ++ (sendSm sm).2

/-- Successive calls of `receive_sm` on a stream; `none` if one of them does not
    return. -/
def receiveStream : List Call → List UInt8 → Option (List SocketMessage × List UInt8)
  | [], stream => some ([], stream)
  | k :: ks, stream => (receiveSm k.sm stream).bind fun (sm, stream) =>
    (receiveStream ks stream).map fun (sms, stream) => (sm :: sms, stream)

/-- Successive calls of `receive_sm`, one for each datagram; `none` if one of
    them fails or does not return. -/
def receiveDatagrams : List Call → List (List UInt8) → Option (List SocketMessage)
  | [], _ => some []
  | _ :: _, [] => none
  | k :: ks, d :: ds => (receiveSmDatagram k d).bind fun sm =>
    (receiveDatagrams ks ds).map fun sms => sm :: sms

/-- What a message says: its length, and that many bytes of its buffer. -/
def SocketMessage.content (sm : SocketMessage) : UInt16 × List UInt8 := (sm.length, sm.data)

/-- A message as the programs send them. -/
structure SocketMessage.Valid (sm : SocketMessage) : Prop where
  buffer : sm.buffer.length = datagramSize
  pos : 1 ≤ sm.length.toNat
  le : sm.length.toNat ≤ datagramSize

/-- In both builds the receiver gets what was sent, whatever is in its memory. -/
def TransportsAgree (ms : List SocketMessage) : Prop :=
  ∀ ks : List Call, ks.length = ms.length → (∀ k ∈ ks, k.sm.buffer.length = datagramSize) →
    (∃ rs, receiveStream ks (ms.flatMap sentOnStream) = some (rs, []) ∧
      rs.map SocketMessage.content = ms.map SocketMessage.content) ∧
    ∃ rs, receiveDatagrams ks (ms.map sendSmDatagram) = some rs ∧
      rs.map SocketMessage.content = ms.map SocketMessage.content

/-! ## The stream build -/

theorem message_over_content {sm : SocketMessage} (h : sm.length.toNat ≤ sm.buffer.length)
    (old : List UInt8) : (sm.message.over old).content = sm.content := by
  have hlen : sm.message.data.length = sm.length.toNat := by
    show (sm.buffer.take sm.length.toNat).length = _
    rw [List.length_take]
    omega
  have hlength : (sm.message.over old).length = sm.length := by
    rw [Message.over_length_eq_iff, hlen]
  unfold SocketMessage.content
  rw [hlength, Message.over_data]
  rfl

/-- A message is received from the front of a stream. -/
theorem receiveSm_sentOnStream {sm : SocketMessage} (h : sm.length.toNat ≤ sm.buffer.length)
    (old : SocketMessage) (rest : List UInt8) :
    receiveSm old (sentOnStream sm ++ rest) = some (sm.message.over old.buffer, rest) := by
  have hc := message_over_content h []
  have hlength : (sm.message.over []).length = sm.length := congrArg Prod.fst hc
  have hdata : (sm.message.over []).data = sm.data := congrArg Prod.snd hc
  have hsent : sentOnStream sm =
      (sendSm (sm.message.over [])).1 ++ (sendSm (sm.message.over [])).2 := by
    unfold sentOnStream sendSm
    rw [hlength, hdata]
  rw [hsent]
  exact receiveSm_sendSm _ _ _

/-- The stream build delivers every message. -/
theorem receiveStream_sent {ms : List SocketMessage} (h : ∀ m ∈ ms, m.Valid) {ks : List Call}
    (hks : ks.length = ms.length) :
    ∃ rs, receiveStream ks (ms.flatMap sentOnStream) = some (rs, []) ∧
      rs.map SocketMessage.content = ms.map SocketMessage.content := by
  induction ms generalizing ks with
  | nil =>
    obtain rfl := List.length_eq_zero_iff.mp hks
    exact ⟨[], rfl, rfl⟩
  | cons m ms ih =>
    obtain ⟨k, ks, rfl⟩ := List.exists_cons_of_length_eq_add_one hks
    obtain ⟨rs, hrs, hcontent⟩ := ih (fun m' hm' => h m' (List.mem_cons_of_mem _ hm'))
      (Nat.succ.inj hks)
    have hm := h m List.mem_cons_self
    have hle : m.length.toNat ≤ m.buffer.length := by
      rw [hm.buffer]
      exact hm.le
    refine ⟨m.message.over k.sm.buffer :: rs, ?_, ?_⟩
    · rw [List.flatMap_cons, receiveStream, receiveSm_sentOnStream hle, Option.bind_some]
      show Option.map _ (receiveStream ks (ms.flatMap sentOnStream)) = _
      rw [hrs]
      rfl
    · rw [List.map_cons, List.map_cons, message_over_content hle, hcontent]

/-! ## The datagram build -/

/-- A message that went through a datagram: the last two bytes of its buffer are
    those that the receiver had there. -/
def SocketMessage.throughDatagram (sm : SocketMessage) (old : List UInt8) : SocketMessage :=
  ⟨sm.length, sm.buffer.take (datagramSize - 2) ++ old.drop (datagramSize - 2)⟩

theorem receiveSmDatagram_sendSmDatagram {sm : SocketMessage} (h : sm.buffer.length = datagramSize)
    (k : Call) :
    receiveSmDatagram k (sendSmDatagram sm) = some (sm.throughDatagram k.sm.buffer) := by
  have hlen : (sendSmDatagram sm).length = datagramSize := by
    simp [sendSmDatagram, h, datagramSize]
  have hnat : UInt16.ofNat (leNat (leBytes 2 sm.length.toNat)) = sm.length := by
    rw [leNat_leBytes sm.length.toNat_lt, UInt16.ofNat_toNat]
  have htake : (sm.buffer.take (datagramSize - 2)).length = datagramSize - 2 := by
    simp [h, datagramSize]
  unfold receiveSmDatagram
  rw [List.take_of_length_le hlen.le, if_neg (by rw [hlen]; decide)]
  simp [sendSmDatagram, SocketMessage.throughDatagram, hnat, htake]

/-- What the datagram build delivers. -/
theorem receiveDatagrams_sent {ms : List SocketMessage}
    (h : ∀ m ∈ ms, m.buffer.length = datagramSize) {ks : List Call} (hks : ks.length = ms.length) :
    receiveDatagrams ks (ms.map sendSmDatagram) =
      some (List.zipWith (fun m k => m.throughDatagram k.sm.buffer) ms ks) := by
  induction ms generalizing ks with
  | nil =>
    obtain rfl := List.length_eq_zero_iff.mp hks
    rfl
  | cons m ms ih =>
    obtain ⟨k, ks, rfl⟩ := List.exists_cons_of_length_eq_add_one hks
    have hrec := ih (fun m' hm' => h m' (List.mem_cons_of_mem _ hm')) (Nat.succ.inj hks)
    rw [List.map_cons, receiveDatagrams, receiveSmDatagram_sendSmDatagram (h m List.mem_cons_self),
      Option.bind_some, hrec]
    rfl

/-- A message that leaves the last two bytes of its buffer unused is delivered. -/
theorem throughDatagram_content {sm : SocketMessage} (h : sm.buffer.length = datagramSize)
    (hle : sm.length.toNat ≤ datagramSize - 2) (old : List UInt8) :
    (sm.throughDatagram old).content = sm.content := by
  have hlen : (sm.buffer.take (datagramSize - 2)).length = datagramSize - 2 := by
    simp [h, datagramSize]
  have hdata : (sm.throughDatagram old).data = sm.data := by
    show (sm.buffer.take (datagramSize - 2) ++ _).take sm.length.toNat = _
    rw [List.take_append_of_le_length (by rw [hlen]; exact hle), List.take_take, min_eq_left hle]
    rfl
  unfold SocketMessage.content
  rw [hdata]
  rfl

theorem zipWith_throughDatagram_content {ms : List SocketMessage} (h : ∀ m ∈ ms, m.Valid)
    (hle : ∀ m ∈ ms, m.length.toNat ≤ datagramSize - 2) {ks : List Call}
    (hks : ks.length = ms.length) :
    (List.zipWith (fun m k => m.throughDatagram k.sm.buffer) ms ks).map SocketMessage.content =
      ms.map SocketMessage.content := by
  rw [List.map_zipWith]
  apply List.ext_getElem
  · simp [hks]
  · intro i hi _
    have him : i < ms.length := by simpa [hks] using hi
    have hmem : ms[i] ∈ ms := List.getElem_mem him
    rw [List.getElem_zipWith, List.getElem_map]
    exact throughDatagram_content (h _ hmem).buffer (hle _ hmem) _

/-- A longer one takes the byte behind them from the receiver's buffer. -/
theorem throughDatagram_content_ne {sm : SocketMessage} (h : sm.buffer.length = datagramSize)
    (hlt : datagramSize - 2 < sm.length.toNat) {old : List UInt8}
    (hold : old[datagramSize - 2]? ≠ sm.buffer[datagramSize - 2]?) :
    (sm.throughDatagram old).content ≠ sm.content := by
  intro hc
  have hdata : ((sm.throughDatagram old).data)[datagramSize - 2]? = sm.data[datagramSize - 2]? := by
    rw [show (sm.throughDatagram old).data = sm.data from congrArg Prod.snd hc]
  have hlen : (sm.buffer.take (datagramSize - 2)).length = datagramSize - 2 := by
    simp [h, datagramSize]
  apply hold
  calc old[datagramSize - 2]?
      = ((sm.throughDatagram old).data)[datagramSize - 2]? := by
        show _ = ((sm.buffer.take (datagramSize - 2) ++ old.drop (datagramSize - 2)).take
          sm.length.toNat)[datagramSize - 2]?
        rw [List.getElem?_take_of_lt hlt, List.getElem?_append_right hlen.le, hlen,
          List.getElem?_drop]
        rfl
    _ = sm.data[datagramSize - 2]? := hdata
    _ = sm.buffer[datagramSize - 2]? := List.getElem?_take_of_lt hlt

/-! ## Both builds -/

/-- Every byte of the receiver's buffer differs from the one it should get. -/
def otherCall (sm : SocketMessage) : Call := ⟨⟨0, sm.buffer.map (· + 1)⟩, []⟩

theorem not_transportsAgree {ms : List SocketMessage} (h : ∀ m ∈ ms, m.Valid) {m : SocketMessage}
    (hm : m ∈ ms) (hlt : datagramSize - 2 < m.length.toNat) : ¬TransportsAgree ms := by
  intro hagree
  have hbuffer : ∀ k ∈ ms.map otherCall, k.sm.buffer.length = datagramSize := by
    intro k hk
    obtain ⟨m', hm', rfl⟩ := List.mem_map.mp hk
    simp [otherCall, (h m' hm').buffer]
  obtain ⟨-, rs, hrs, hcontent⟩ := hagree (ms.map otherCall) (by simp) hbuffer
  rw [receiveDatagrams_sent (fun m hm => (h m hm).buffer) (by simp)] at hrs
  obtain rfl := Option.some.inj hrs
  rw [List.zipWith_map_right, List.zipWith_self, List.map_map] at hcontent
  refine throughDatagram_content_ne (h m hm).buffer hlt ?_ (List.map_inj_left.mp hcontent m hm)
  have hlt' : datagramSize - 2 < m.buffer.length := by rw [(h m hm).buffer]; decide
  show (m.buffer.map (· + 1))[datagramSize - 2]? ≠ _
  rw [List.getElem?_map, List.getElem?_eq_getElem hlt']
  simp

/-- Both builds deliver what was sent exactly when no message is longer than
    `DATAGRAM_SIZE - 2`. -/
theorem transports_agree_iff {ms : List SocketMessage} (h : ∀ m ∈ ms, m.Valid) :
    TransportsAgree ms ↔ ∀ m ∈ ms, m.length.toNat ≤ datagramSize - 2 := by
  constructor
  · intro hagree m hm
    by_contra hlt
    exact not_transportsAgree h hm (by omega) hagree
  · intro hle ks hks _
    exact ⟨receiveStream_sent h hks, _, receiveDatagrams_sent (fun m hm => (h m hm).buffer) hks,
      zipWith_throughDatagram_content h hle hks⟩

theorem transports_agree_iff_one :
    TransportsAgree [⟨254, List.replicate 256 0⟩] ↔
      ∀ m ∈ [(⟨254, List.replicate 256 0⟩ : SocketMessage)], m.length.toNat ≤ datagramSize - 2 :=
  transports_agree_iff fun m hm => by
    obtain rfl := List.mem_singleton.mp hm
    exact ⟨List.length_replicate, by decide, by decide⟩

/-- A message of 255 bytes does not get through a datagram. -/
theorem long_message : ∃ m : SocketMessage, m.Valid ∧ ¬TransportsAgree [m] := by
  have hm : (⟨255, List.replicate 256 0⟩ : SocketMessage).Valid :=
    ⟨List.length_replicate, by decide, by decide⟩
  exact ⟨_, hm, not_transportsAgree (fun _ h => List.mem_singleton.mp h ▸ hm)
    List.mem_cons_self (by decide)⟩

end AghOs.Calc
