import AghOs.Calc.Messages
import Mathlib.Data.Fintype.Sets

/-!
# One connection, two senders

`thread_pinger` sends its PINGs under `clients_mx`; `send_request`, on the main
thread, sends a REQUEST without it. `send_sm` makes two `send()` calls, so the
calls for a PING and for a REQUEST to the same client can come in any order, as
long as each thread makes its own in order.

* `torn_frame`: a PING between the length and the body of a REQUEST makes the
  client read neither.
* `frames_decoded_iff`: the client receives the messages that were sent if and
  only if that never happens.
-/

namespace AghOs.Calc.Framing

open Format

/-- The threads of the server that send to a registered client. -/
inductive Thread
  | main | pinger
  deriving DecidableEq

instance : Fintype Thread := ⟨{.main, .pinger}, fun t => by cases t <;> simp⟩

/-- What a thread makes its messages of. -/
abbrev Thread.Data : Thread → Type
  | main => Request
  | pinger => Unit

/-- The message passed to `send_sm`. -/
def passed : ∀ t : Thread, t.Data → SocketMessage
  | .main, req => requestMessage req
  | .pinger, () => pingMessage

def msg (t : Thread) (k : t.Data) : Message := (passed t k).message

/-- The `send()` calls of both threads on one connection, in any order. -/
def connection (old : SocketMessage) : Machine (Senders Thread Message UInt8)
    (SendLabel Thread Thread.Data) :=
  (wire old).senders msg

/-- The length byte of the messages of a thread. -/
def Thread.length : Thread → UInt8
  | main => 25
  | pinger => 1

/-- The type byte of the messages of a thread. -/
def Thread.type : Thread → UInt8
  | main => msgTypeRequest
  | pinger => msgTypePing

theorem head_msg (t : Thread) (k : t.Data) : (msg t k).data.head? = some t.type := by
  cases t <;> rfl

/-- The two parts of a frame are the two `send()` calls of `send_sm`. -/
theorem sendSm_passed (old : SocketMessage) (t : Thread) (k : t.Data) :
    sendSm (passed t k) = ((wire old).header (msg t k), (wire old).body (msg t k)) := by
  cases t with
  | main =>
    have hlen : (msg .main k).data.length = 25 := by
      have hb : (Request.bytes k).length = 24 := Request.length_bytes k
      simp [msg, passed, requestMessage, SocketMessage.message, SocketMessage.data, hb]
    simp only [wire, sendSm_over, hlen]
    rfl
  | pinger => rfl

theorem header_msg (old : SocketMessage) (t : Thread) (k : t.Data) :
    (wire old).header (msg t k) = [t.length, 0] := by
  have h : (sendSm (passed t k)).1 = [t.length, 0] := by
    cases t with
    | main => exact (by decide : leBytes 2 25 = [25, 0])
    | pinger => exact (by decide : leBytes 2 1 = [1, 0])
  rw [← h, sendSm_passed old]

/-- After a torn length the first byte of the message is a length byte. -/
theorem head_torn {old : SocketMessage} {a b : UInt8} {x : Message} {rest rest' : List UInt8}
    (ha : a ≠ 0) (h : (wire old).parse ([a, 0] ++ [b, 0] ++ rest) = some (x, rest')) :
    x.data.head? = some b := by
  have ha' : 0 < a.toNat := by
    obtain h0 | hpos := Nat.eq_zero_or_pos a.toNat
    · exact absurd (UInt8.toNat_inj.mp h0) ha
    · exact hpos
  have hlt := a.toNat_lt
  obtain ⟨⟨sm, st⟩, hp, hx⟩ := Option.map_eq_some_iff.mp h
  have hlen : (UInt16.ofNat (leNat [a, 0])).toNat = a.toNat := by
    simp [leNat, Nat.ofDigits_cons]
  simp only [receiveSm] at hp
  repeat' split at hp
  all_goals cases hp
  cases hx
  obtain ⟨n, hn⟩ : ∃ n, a.toNat = n + 1 := ⟨a.toNat - 1, by omega⟩
  simp [SocketMessage.message, SocketMessage.data, hlen, hn]

/-- The messages decode as sent if and only if, whenever a thread makes the
    first `send()` call of a `send_sm`, the other is not between the two calls of
    one. -/
theorem frames_decoded_iff (old : SocketMessage) {s : Senders Thread Message UInt8}
    (h : (connection old).Reach s) (hq : s.Quiet) :
    (wire old).Decodes s ↔ (connection old).ReachIf Whole s := by
  refine decodes_iff (fun i k j k' rest x rest' hx l k'' hl => ?_) h hq
  rw [header_msg, header_msg] at hx
  have hhead := head_torn (by cases i <;> decide) hx
  rw [hl, head_msg, Option.some.injEq] at hhead
  revert hhead
  cases l <;> cases j <;> decide

/-- One REQUEST and one PING. -/
theorem frames_decoded_iff_two :
    ∃ s : Senders Thread Message UInt8, s.stream.length = 30 ∧
      (wire ⟨0, []⟩).Decodes s ∧ (connection ⟨0, []⟩).ReachIf Whole s := by
  obtain ⟨s, hr, hs⟩ := Machine.ReachIf.of_runIf (M := connection ⟨0, []⟩) (C := Whole)
    [.header .main ⟨0, 0, 0, 0⟩, .body .main, .header .pinger (), .body .pinger]
    (fun s => (s.stream.length, s.sending .main, s.sending .pinger)) (30, none, none) rfl rfl
  simp only [Prod.mk.injEq] at hs
  refine ⟨s, hs.1, (frames_decoded_iff ⟨0, []⟩ hr.reach ?_).mpr hr, hr⟩
  rintro (_ | _)
  · exact hs.2.1
  · exact hs.2.2

/-- The length of a REQUEST, a PING, the rest of the REQUEST: every message has
    been sent, and the first message the client reads has the type `1`. -/
theorem torn_frame :
    ∃ s : Senders Thread Message UInt8, (connection ⟨0, []⟩).Reach s ∧ s.Quiet ∧
      s.sent .main = [msg .main ⟨0, 0, 0, 0⟩] ∧ s.sent .pinger = [msg .pinger ()] ∧
        ¬(wire ⟨0, []⟩).Decodes s := by
  obtain ⟨s, hr, hs⟩ := Machine.Reach.of_run (M := connection ⟨0, []⟩)
    [.header .main ⟨0, 0, 0, 0⟩, .header .pinger (), .body .pinger, .body .main]
    (fun s => (s.stream, s.sending .main, s.sending .pinger, s.sent .main, s.sent .pinger))
    ([25, 0] ++ [1, 0] ++ (2 :: 6 :: List.replicate 24 0), none, none,
      [msg .main ⟨0, 0, 0, 0⟩], [msg .pinger ()]) rfl rfl
  simp only [Prod.mk.injEq] at hs
  obtain ⟨hstream, hmain, hpinger, hsent, hsent'⟩ := hs
  refine ⟨s, hr, ?_, hsent, hsent', ?_⟩
  · rintro (_ | _)
    · exact hmain
    · exact hpinger
  · rintro ⟨xs, hxs, hp⟩
    rw [hstream] at hp
    refine absurd hp (parseN_ne (l := []) (P := fun x => ∃ t, x ∈ s.sent t) (by simp) ?_
      fun x hx => hxs.mem hx)
    rintro x rest hx ⟨t, ht⟩
    have hhead := head_torn (by decide) hx
    cases t
    · rw [hsent, List.mem_singleton] at ht
      rw [ht, head_msg] at hhead
      cases hhead
    · rw [hsent', List.mem_singleton] at ht
      rw [ht, head_msg] at hhead
      cases hhead

end AghOs.Calc.Framing
