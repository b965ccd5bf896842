import AghOs.Machine.Chars
import AghOs.MsgQueue.Server
import Mathlib.Algebra.Order.Ring.Int

/-!
# The loop of the message-queue server on raw messages

An iteration of the loop in `server.c` (lines 152–273), in both builds, on the bytes
that `receive_from_client` has left in `msg`. Every process that can write to the
queue chooses them: `type` and `client_id` are not checked. What an iteration reads or
writes outside of `clients` or of a `buf`, or reads through `NULL`, is undefined, and
the model returns `none`.

`response` and `client` are not initialised.

* `iterate_handle`: on the messages of the clients it does what `MsgQueue.handle` says.
* `dispatch_robust_iff`: when no iteration of a run accesses what is not there or
  sends a response that it has not built.
* `unknown_type_resends`: a message of an unknown type makes the server send what the
  previous iteration has left in `response`.
-/

namespace AghOs.MsgQueue.Dispatch

/-- Without or with `POSIXQ`. -/
inductive Build
  | systemV | posix
  deriving DecidableEq

/-- `struct msg_t`; `queue_key` is at the start of `buf`. -/
structure MsgT where
  type : ℤ
  clientId : ℤ
  sender : ℤ
  buf : Chars msgBufSize

/-- `struct client_t` -/
structure ClientT where
  pid : ℤ
  id : ℤ
  stopped : Bool
  queue : ℤ

/-- `clients` and `end`, and the slots of the clients that are connected: they have
    been answered a HANDSHAKE, and no STOP has been accepted since (history). -/
structure State where
  clients : Slot → ClientT
  ending : Bool
  connected : Slot → Bool

/-- What an iteration depends on besides the message: what `msgget` or `mq_open`
    returns, if it succeeds; what `bc` or `date` writes, if `malloc` and `popen`
    succeed; and what is in `response` and `client.queue`. -/
structure Env where
  opened : Option ℤ
  output : Option (List UInt8)
  response : MsgT
  staleQueue : ℤ

/-- The constants of `enum message_t`. -/
def messageType (type : ℤ) : Option MessageType :=
  if type = 1 then some .handshake
  else if type = 2 then some .mirror
  else if type = 3 then some .calc
  else if type = 4 then some .time
  else if type = 5 then some .end
  else if type = 6 then some .stop
  else none

/-- `clients[i]`, as an index of the table. -/
def slot (i : ℤ) : Option Slot :=
  if h : 0 ≤ i ∧ i < clientMax then some ⟨i.toNat, by omega⟩ else none

/-- The search in `case HANDSHAKE`. -/
def freeSlot (clients : Slot → ClientT) : Option Slot :=
  (List.finRange clientMax).find? fun i => (clients i).stopped

/-- The loop of `mirror_text`. -/
def mirrorLoop {n : ℕ} (source : Chars n) : (len dest : ℕ) → Chars n → Option (Chars n)
  | 0, dest, target => target.store dest 0
  | len + 1, dest, target => do
    let c ← source.bytes[len]?
    let target ← target.store dest c
    mirrorLoop source len (dest + 1) target

/-- `mirror_text` -/
def mirrorText {n : ℕ} (source target : Chars n) : Option (Chars n) := do
  let s ← source.string 0
  mirrorLoop source s.length 0 target

/-- `terminate_at_nl` -/
def terminateNl {n : ℕ} (b : Chars n) (i : ℕ) : Option (Chars n) :=
  b.terminateAt (fun c => c ≠ 10 ∧ c ≠ 0) i

/-- The first line of the output of a program, without the newline. -/
def readOutput {n : ℕ} (b : Chars n) (output : List UInt8) : Option (Chars n) := do
  let b ← b.store 0 0
  let b ← b.fgets output
  terminateNl b 0

/-- The state after an iteration, and the responses sent, with the slot into whose
    queue each one is put. -/
abbrev Outcome := State × List (Slot × MsgT)

/-- `send_to_client(response.client_id, &response)` -/
def sendToClient (s : State) (r : MsgT) : Option Outcome :=
  (slot r.clientId).map fun i => (s, [(i, r)])

/-- `case HANDSHAKE`; `self` is the server's pid. -/
def handshake (build : Build) (self : ℤ) (s : State) (m : MsgT) (e : Env) : Option Outcome :=
  match freeSlot s.clients with
  | none => some (s, [])
  | some cid =>
    let client : ClientT := ⟨m.sender, cid, false, e.staleQueue⟩
    -- the path of `mq_open` is `msg.buf`
    if build = .posix ∧ m.buf.string 0 = none then none
    else
      match e.opened with
      | none => some ({ s with clients := Function.update s.clients cid client }, [])
      | some queue =>
        sendToClient
          { s with
            clients := Function.update s.clients cid { client with queue := queue }
            connected := Function.update s.connected cid true }
          { e.response with type := cid, sender := self, clientId := cid }

/-- The response to a request, with its text. -/
def answer (self : ℤ) (s : State) (m : MsgT) (buf : Chars msgBufSize) : Option Outcome :=
  sendToClient s { type := m.clientId, clientId := m.clientId, sender := self, buf := buf }

/-- `case STOP`, for the client in slot `i`. -/
def stop (s : State) (i : Slot) : State :=
  { s with
    clients := Function.update s.clients i { s.clients i with stopped := true }
    connected := Function.update s.connected i false }

/-- The `switch`, for a message of a client that is not stopped. -/
def switch (self : ℤ) (s : State) (m : MsgT) (e : Env) (i : Slot) : Option Outcome :=
  match messageType m.type with
  | some .stop => some (stop s i, [])
  | some .mirror => do
    let buf ← mirrorText m.buf e.response.buf
    answer self s m buf
  | some .calc => do
    let _ ← m.buf.string 0
    let output ← e.output
    let buf ← readOutput e.response.buf output
    answer self s m buf
  | some .time => do
    let output ← e.output
    let buf ← readOutput e.response.buf output
    answer self s m buf
  | some .end => some ({ s with ending := true }, [])
  -- no `default`: what is in `response` is sent
  | _ => sendToClient s e.response

/-- An iteration of the loop in `main`, once a message has been received. -/
def iterate (build : Build) (self : ℤ) (s : State) (m : MsgT) (e : Env) : Option Outcome :=
  if messageType m.type = some .handshake then handshake build self s m e
  else do
    let i ← slot m.clientId
    if (s.clients i).stopped then some (s, []) else switch self s m e i

def State.initial : State where
  clients _ := ⟨0, 0, true, 0⟩
  ending := false
  connected _ := false

/-- The server, with a message and what the iteration depends on as the label. -/
def server (build : Build) (self : ℤ) : Machine State (MsgT × Env) where
  init s := s = .initial
  next s x := (iterate build self s x.1 x.2).map Prod.fst

/-! ## The text of a response -/

section

variable {n : ℕ} {source target b : Chars n} {s pre : List UInt8}

theorem mirrorLoop_spec {z : List UInt8} (hs : source.bytes = s ++ 0 :: z) :
    ∀ {len : ℕ} (pre : List UInt8) {post : List UInt8} {target : Chars n}, len ≤ s.length →
      target.bytes = pre ++ post → len < post.length →
      ∃ b z', mirrorLoop source len pre.length target = some b ∧
        b.bytes = pre ++ ((s.take len).reverse ++ 0 :: z')
  | len, _, [], _, _, _, hpost => absurd hpost (Nat.not_lt_zero len)
  | 0, pre, c :: post, target, _, htarget, _ => by
    obtain ⟨b, hb, hbytes⟩ := Chars.store_append htarget 0
    exact ⟨b, post, hb, hbytes⟩
  | len + 1, pre, c :: post, target, hlen, htarget, hpost => by
    have hget : source.bytes[len]? = some s[len] := by
      rw [hs, List.getElem?_append_left hlen, List.getElem?_eq_getElem hlen]
    obtain ⟨t, ht, htbytes⟩ := Chars.store_append htarget s[len]
    rw [List.append_cons] at htbytes
    obtain ⟨b, z', hb, hbytes⟩ := mirrorLoop_spec hs (pre ++ [s[len]]) (Nat.le_of_succ_le hlen)
      htbytes (Nat.lt_of_succ_lt_succ hpost)
    refine ⟨b, z', ?_, ?_⟩
    · rw [List.length_append, List.length_singleton] at hb
      simp only [mirrorLoop, hget, Option.bind_eq_bind, Option.bind_some, ht, hb]
    · rw [hbytes, List.take_add_one, List.getElem?_eq_getElem hlen, Option.toList_some,
        List.reverse_append, List.reverse_singleton, List.append_assoc]
      rfl

/-- The response is the text of the message reversed, whatever was there before. -/
theorem mirrorText_spec (h : source.string 0 = some s) (target : Chars n) :
    ∃ b, mirrorText source target = some b ∧ b.string 0 = some s.reverse := by
  obtain ⟨h0, z, hz⟩ := Chars.string_eq_some_iff.mp h
  have hlen := Chars.length_string h
  have htarget : s.length < target.bytes.length := by rwa [target.length_bytes]
  obtain ⟨b, z', hb, hbytes⟩ := mirrorLoop_spec hz [] (Nat.le_refl _) rfl htarget
  refine ⟨b, ?_, ?_⟩
  · simp only [mirrorText, h, Option.bind_eq_bind, Option.bind_some]
    exact hb
  · rw [List.take_length] at hbytes
    exact Chars.string_zero hbytes (by rwa [List.mem_reverse])

theorem mirrorText_eq_none (h : source.string 0 = none) : mirrorText source target = none := by
  rw [mirrorText, h]
  rfl

/-- The response is the first line of the output, whatever was there before. -/
theorem readOutput_spec (hn : 0 < n) (output : List UInt8) (b : Chars n) :
    ∃ b', readOutput b output = some b' ∧
      b'.string 0 = some (terminateAtNl (Chars.line n output)) := by
  have hterm : ∀ {t : Chars n} {z : List UInt8},
      t.bytes = Chars.line n output ++ 0 :: z → ∃ b', terminateNl t 0 = some b' ∧
        b'.string 0 = some (terminateAtNl (Chars.line n output)) := by
    intro t z ht
    obtain ⟨b', z', hb', hbytes⟩ := Chars.terminateAt_zero
      (p := fun c => c ≠ 10 ∧ c ≠ 0) ht (by simp)
    refine ⟨b', hb', Chars.string_zero hbytes fun hmem => ?_⟩
    simpa using List.mem_takeWhile_imp hmem
  obtain ⟨t, ht⟩ := b.store_isSome 0 hn
  by_cases hout : output = []
  · subst hout
    obtain ⟨a, z, ha⟩ := List.exists_cons_of_ne_nil (List.length_pos_iff.mp (b.length_bytes ▸ hn))
    obtain ⟨b', hb', hs⟩ := hterm (t := t) (z := z)
      (by rw [Chars.bytes_store ht, ha, List.set_cons_zero]; simp [Chars.line])
    refine ⟨b', ?_, hs⟩
    simp only [readOutput, ht, Option.bind_eq_bind, Option.bind_some, Chars.fgets, if_true, hb']
  · obtain ⟨t', z, ht', hbytes⟩ := t.fgets_isSome hn hout
    obtain ⟨b', hb', hs⟩ := hterm hbytes
    refine ⟨b', ?_, hs⟩
    simp only [readOutput, ht, Option.bind_eq_bind, Option.bind_some, ht', hb']

end

/-! ## Robust iterations -/

/-- What is read of a response that has been sent: the slot into whose queue it was
    put, `type`, `client_id`, `from`, and the text. -/
structure Reply where
  slot : Slot
  type : ℤ
  clientId : ℤ
  sender : ℤ
  text : Option (List UInt8)

def reply (text : Bool) (p : Slot × MsgT) : Reply :=
  ⟨p.1, p.2.type, p.2.clientId, p.2.sender, if text then p.2.buf.string 0 else none⟩

/-- The slot that a message names. For a HANDSHAKE it is the one that it gets. -/
def named (s : State) (m : MsgT) : Option Slot :=
  if messageType m.type = some .handshake then freeSlot s.clients else slot m.clientId

/-- The iteration accesses only what is there, and it sends at most one response. This
    is for the slot that the message names, and nothing in it is what `response` was
    before. A message of an unknown type causes no response.

    The client does not read the text of the response to a HANDSHAKE; with `full`, it
    counts as a part of it. -/
def Robust (build : Build) (self : ℤ) (full : Bool) (s : State) (x : MsgT × Env) : Prop :=
  ∃ (s' : State) (replies : List Reply),
    replies.length ≤ 1 ∧
    (∀ r ∈ replies, named s x.1 = some r.slot ∧ r.type = r.slot ∧ r.clientId = r.slot) ∧
    (messageType x.1.type = none → replies = []) ∧
    ∀ response, ∃ sent,
      iterate build self s x.1 { x.2 with response := response } = some (s', sent) ∧
      sent.map (reply (full || messageType x.1.type ≠ some .handshake)) = replies

/-- What an active client may ask for, and what is needed for it. -/
def Served (m : MsgT) (e : Env) : Option MessageType → Prop
  | none => False
  | some .mirror => 0 ∈ m.buf.bytes
  | some .calc => 0 ∈ m.buf.bytes ∧ e.output ≠ none
  | some .time => e.output ≠ none
  | some _ => True

/-- The message is a HANDSHAKE (in the POSIX build, with a string in `buf` if there is
    a free slot), or it names a slot of the table, and if that is active, the message
    is of a known type and has a string in `buf` if that is read. With `full`, no
    HANDSHAKE is answered. -/
def Handled (build : Build) (full : Bool) (s : State) (x : MsgT × Env) : Prop :=
  if messageType x.1.type = some .handshake then
    freeSlot s.clients ≠ none →
      (build = .posix → 0 ∈ x.1.buf.bytes) ∧ (full = true → x.2.opened = none)
  else
    ∃ i : Slot, x.1.clientId = i ∧
      ((s.clients i).stopped = true ∨ Served x.1 x.2 (messageType x.1.type))

section

variable {build : Build} {self : ℤ} {full : Bool} {s : State} {m : MsgT} {e : Env} {i : Slot}

theorem slot_eq_some_iff {z : ℤ} : slot z = some i ↔ z = i := by
  have hi := i.isLt
  unfold slot
  split
  · rw [Option.some.injEq, Fin.ext_iff]
    show z.toNat = i ↔ _
    omega
  · rename_i h
    simp only [reduceCtorEq, false_iff]
    omega

theorem slot_coe (i : Slot) : slot i = some i := slot_eq_some_iff.mpr rfl

theorem sendToClient_coe {r : MsgT} (h : r.clientId = i) :
    sendToClient s r = some (s, [(i, r)]) := by
  unfold sendToClient
  rw [h, slot_coe]
  rfl

theorem zero_mem_iff : 0 ∈ m.buf.bytes ↔ ∃ t, m.buf.string 0 = some t := by
  rw [← Option.ne_none_iff_exists', ne_eq, Chars.string_eq_none_iff, List.drop_zero, not_not]

/-- An iteration that sends nothing does not look at `response`. -/
theorem robust_silent (s' : State) (h : ∀ response,
    iterate build self s m { e with response := response } = some (s', [])) :
    Robust build self full s (m, e) :=
  ⟨s', [], Nat.zero_le _, fun _ hr => absurd hr List.not_mem_nil, fun _ => rfl,
    fun response => ⟨[], h response, rfl⟩⟩

/-- An iteration that answers a known request for slot `i` with a text. -/
theorem robust_answer {t : List UInt8} (htype : messageType m.type ≠ none)
    (hnamed : named s m = some i) (h : ∀ response, ∃ buf : Chars msgBufSize,
      iterate build self s m { e with response := response } =
        some (s, [(i, ⟨i, i, self, buf⟩)]) ∧ buf.string 0 = some t) :
    Robust build self full s (m, e) := by
  let text := full || messageType m.type ≠ some .handshake
  refine ⟨s, [⟨i, i, i, self, if text then some t else none⟩], Nat.le_refl _, ?_,
    fun hnone => absurd hnone htype, fun response => ?_⟩
  · intro r hr
    obtain rfl := List.mem_singleton.mp hr
    exact ⟨hnamed, rfl, rfl⟩
  · obtain ⟨buf, hit, ht⟩ := h response
    exact ⟨_, hit, by rw [List.map_singleton, reply, ht]⟩

theorem iterate_handshake (h : messageType m.type = some .handshake) :
    iterate build self s m e = handshake build self s m e := if_pos h

theorem iterate_slot (h : messageType m.type ≠ some .handshake) (hi : m.clientId = i) :
    iterate build self s m e =
      if (s.clients i).stopped then some (s, []) else switch self s m e i := by
  rw [iterate, if_neg h, hi, slot_coe]
  rfl

theorem Robust.isSome (h : Robust build self full s (m, e)) :
    iterate build self s m e ≠ none := by
  obtain ⟨s', replies, -, -, -, hrun⟩ := h
  obtain ⟨sent, hsent, -⟩ := hrun e.response
  exact fun hnone => Option.some_ne_none _ (hsent.symm.trans hnone)

/-- A HANDSHAKE that fails has taken the slot. -/
theorem handshake_fails (self : ℤ) (hfree : freeSlot s.clients = some i)
    (hpath : ¬(build = .posix ∧ m.buf.string 0 = none)) (hopen : e.opened = none)
    (response : MsgT) :
    handshake build self s m { e with response := response } =
      some ({ s with
        clients := Function.update s.clients i ⟨m.sender, i, false, e.staleQueue⟩ }, []) := by
  rw [handshake, hfree]
  dsimp only
  rw [if_neg hpath, hopen]

/-- The answer to a HANDSHAKE carries the text that `response` has had. -/
theorem handshake_answered (self : ℤ) {queue : ℤ} (hfree : freeSlot s.clients = some i)
    (hpath : ¬(build = .posix ∧ m.buf.string 0 = none)) (hopen : e.opened = some queue) :
    ∃ s', s'.clients = Function.update s.clients i ⟨m.sender, i, false, queue⟩ ∧
      ∀ response, handshake build self s m { e with response := response } =
        some (s', [(i, ⟨i, i, self, response.buf⟩)]) := by
  refine ⟨{ s with
    clients := Function.update s.clients i ⟨m.sender, i, false, queue⟩
    connected := Function.update s.connected i true }, rfl, fun response => ?_⟩
  rw [handshake, hfree]
  dsimp only
  rw [if_neg hpath, hopen]
  exact sendToClient_coe rfl

/-- Two contents of `response` make two answers to a HANDSHAKE. -/
theorem not_robust_answered {s' : State} (htype : messageType m.type = some .handshake)
    (h : ∀ response, handshake build self s m { e with response := response } =
      some (s', [(i, ⟨i, i, self, response.buf⟩)])) : ¬Robust build self true s (m, e) := by
  rintro ⟨t, replies, -, -, -, hrun⟩
  have htext : ∀ buf : Chars msgBufSize, replies = [⟨i, i, i, self, buf.string 0⟩] := by
    intro buf
    obtain ⟨sent, hsent, hmap⟩ := hrun ⟨0, 0, 0, buf⟩
    rw [iterate_handshake htype, h, Option.some.injEq, Prod.mk.injEq] at hsent
    rw [← hmap, ← hsent.2]
    rfl
  have hzero : (Chars.fill msgBufSize 0).string 0 = some [] := Chars.string_fill_zero (by decide)
  have hone : (Chars.fill msgBufSize 1).string 0 = none := Chars.string_fill_of_ne _ (by decide)
  have hne := (htext (.fill _ 0)).symm.trans (htext (.fill _ 1))
  rw [hzero, hone] at hne
  cases hne

/-- Without its text, the answer to a HANDSHAKE does not depend on `response`. -/
theorem robust_answered {s' : State} (htype : messageType m.type = some .handshake)
    (hfree : freeSlot s.clients = some i)
    (h : ∀ response, handshake build self s m { e with response := response } =
      some (s', [(i, ⟨i, i, self, response.buf⟩)])) : Robust build self false s (m, e) := by
  refine ⟨s', [⟨i, i, i, self, none⟩], Nat.le_refl _, ?_, fun hnone => ?_, fun response => ?_⟩
  · intro r hr
    obtain rfl := List.mem_singleton.mp hr
    exact ⟨(if_pos htype).trans hfree, rfl, rfl⟩
  · rw [htype] at hnone
    cases hnone
  · exact ⟨_, (iterate_handshake htype).trans (h response), by simp [htype, reply]⟩

theorem handshake_robust_iff (htype : messageType m.type = some .handshake) :
    Robust build self full s (m, e) ↔
      (freeSlot s.clients ≠ none →
        (build = .posix → 0 ∈ m.buf.bytes) ∧ (full = true → e.opened = none)) := by
  cases hfree : freeSlot s.clients with
  | none =>
    refine ⟨fun _ h => absurd rfl h, fun _ => robust_silent s fun response => ?_⟩
    rw [iterate_handshake htype, handshake, hfree]
  | some i =>
    simp only [ne_eq, reduceCtorEq, not_false_eq_true, true_implies]
    by_cases hpath : build = .posix ∧ m.buf.string 0 = none
    · refine iff_of_false (fun h => h.isSome ?_) fun h => ?_
      · rw [iterate_handshake htype, handshake, hfree]
        exact if_pos hpath
      · obtain ⟨t, ht⟩ := zero_mem_iff.mp (h.1 hpath.1)
        rw [ht] at hpath
        exact Option.some_ne_none _ hpath.2
    · have hmem : build = .posix → 0 ∈ m.buf.bytes := fun hposix =>
        zero_mem_iff.mpr (Option.ne_none_iff_exists'.mp fun hnone => hpath ⟨hposix, hnone⟩)
      rw [and_iff_right hmem]
      cases hopen : e.opened with
      | none =>
        have hfails := handshake_fails self hfree hpath hopen
        exact iff_of_true (robust_silent _ fun response =>
          (iterate_handshake htype).trans (hfails response)) fun _ => rfl
      | some queue =>
        obtain ⟨s', -, hs'⟩ := handshake_answered self hfree hpath hopen
        cases full with
        | false => exact iff_of_true (robust_answered htype hfree hs') (by simp)
        | true => exact iff_of_false (not_robust_answered htype hs') (by simp)

/-- The requests that are answered with a text. -/
def IsQuestion (t : MessageType) : Prop := t = .mirror ∨ t = .calc ∨ t = .time

/-- The text of the answer; `none` if the iteration is undefined. -/
def answerText (m : MsgT) (e : Env) : MessageType → Option (List UInt8)
  | .mirror => (m.buf.string 0).map List.reverse
  | .calc => (m.buf.string 0).bind fun _ =>
    e.output.map fun output => terminateAtNl (Chars.line msgBufSize output)
  | .time => e.output.map fun output => terminateAtNl (Chars.line msgBufSize output)
  | _ => none

theorem switch_undefined {t : MessageType} (hm : messageType m.type = some t) (ht : IsQuestion t)
    (h : answerText m e t = none) : switch self s m e i = none := by
  obtain rfl | rfl | rfl := ht
  · have hbuf : m.buf.string 0 = none := Option.map_eq_none_iff.mp h
    simp only [switch, hm, mirrorText_eq_none hbuf, Option.bind_eq_bind, Option.bind_none]
  · simp only [switch, hm, Option.bind_eq_bind]
    cases hbuf : m.buf.string 0 with
    | none => rfl
    | some question =>
      rw [answerText, hbuf, Option.bind_some, Option.map_eq_none_iff] at h
      rw [Option.bind_some, h, Option.bind_none]
  · have hout : e.output = none := Option.map_eq_none_iff.mp h
    simp only [switch, hm, hout, Option.bind_eq_bind, Option.bind_none]

theorem switch_answer {t : MessageType} (hm : messageType m.type = some t) (ht : IsQuestion t)
    (hi : m.clientId = i) {text : List UInt8} (h : answerText m e t = some text) :
    ∃ buf, switch self s m e i = some (s, [(i, ⟨i, i, self, buf⟩)]) ∧
      buf.string 0 = some text := by
  have hanswer : ∀ buf, answer self s m buf = some (s, [(i, ⟨i, i, self, buf⟩)]) := fun buf => by
    rw [answer, hi]
    exact sendToClient_coe rfl
  obtain rfl | rfl | rfl := ht
  · obtain ⟨line, hbuf, rfl⟩ := Option.map_eq_some_iff.mp h
    obtain ⟨b, hb, hbs⟩ := mirrorText_spec hbuf e.response.buf
    refine ⟨b, ?_, hbs⟩
    simp only [switch, hm, hb, Option.bind_eq_bind, Option.bind_some, hanswer]
  · obtain ⟨question, hbuf, h⟩ := Option.bind_eq_some_iff.mp h
    obtain ⟨output, hout, rfl⟩ := Option.map_eq_some_iff.mp h
    obtain ⟨b, hb, hbs⟩ := readOutput_spec (by decide) output e.response.buf
    refine ⟨b, ?_, hbs⟩
    simp only [switch, hm, hbuf, hout, hb, Option.bind_eq_bind, Option.bind_some, hanswer]
  · obtain ⟨output, hout, rfl⟩ := Option.map_eq_some_iff.mp h
    obtain ⟨b, hb, hbs⟩ := readOutput_spec (by decide) output e.response.buf
    refine ⟨b, ?_, hbs⟩
    simp only [switch, hm, hout, hb, Option.bind_eq_bind, Option.bind_some, hanswer]

theorem served_iff {t : MessageType} (ht : IsQuestion t) :
    Served m e (some t) ↔ answerText m e t ≠ none := by
  obtain rfl | rfl | rfl := ht
  · rw [answerText, ne_eq, Option.map_eq_none_iff, ← ne_eq, Option.ne_none_iff_exists']
    exact zero_mem_iff
  · show 0 ∈ m.buf.bytes ∧ e.output ≠ none ↔ _
    rw [zero_mem_iff, answerText]
    cases m.buf.string 0 <;> simp
  · rw [answerText, ne_eq, Option.map_eq_none_iff]
    rfl

/-- A request of an active client. -/
theorem switch_robust_iff (htype : messageType m.type ≠ some .handshake) (hi : m.clientId = i)
    (hactive : (s.clients i).stopped = false) :
    Robust build self full s (m, e) ↔ Served m e (messageType m.type) := by
  have hit : ∀ e, iterate build self s m e = switch self s m e i := fun e => by
    rw [iterate_slot htype hi, hactive]
    rfl
  cases hm : messageType m.type with
  | none =>
    -- `response` may hold any id, and what it holds is sent
    refine iff_of_false (fun h => ?_) id
    obtain ⟨s', replies, -, -, hnone, hrun⟩ := h
    obtain ⟨sent, hsent, hmap⟩ := hrun ⟨0, i, 0, .fill _ 0⟩
    rw [hit, switch, hm] at hsent
    dsimp only at hsent
    rw [sendToClient_coe rfl, Option.some.injEq, Prod.mk.injEq] at hsent
    rw [hnone hm, ← hsent.2] at hmap
    exact List.cons_ne_nil _ _ hmap
  | some t =>
    by_cases ht : IsQuestion t
    · rw [served_iff ht]
      cases htext : answerText m e t with
      | none =>
        refine iff_of_false (fun h => h.isSome ?_) (not_not.mpr rfl)
        exact (hit e).trans (switch_undefined hm ht htext)
      | some text =>
        have hknown : messageType m.type ≠ none := by
          rw [hm]
          exact Option.some_ne_none t
        have hnamed : named s m = some i := by rw [named, if_neg htype, hi, slot_coe]
        have hanswer : ∀ response, ∃ buf, iterate build self s m { e with response := response } =
            some (s, [(i, ⟨i, i, self, buf⟩)]) ∧ buf.string 0 = some text := fun response => by
          rw [hit]
          exact switch_answer hm ht hi htext
        exact iff_of_true (robust_answer hknown hnamed hanswer) (Option.some_ne_none _)
    · cases t with
      | handshake => exact absurd hm htype
      | stop | «end» =>
        exact iff_of_true (robust_silent _ fun response => by rw [hit, switch, hm]) trivial
      | mirror => exact absurd (.inl rfl) ht
      | «calc» => exact absurd (.inr (.inl rfl)) ht
      | time => exact absurd (.inr (.inr rfl)) ht

theorem robust_iff (build : Build) (self : ℤ) (full : Bool) (s : State) (x : MsgT × Env) :
    Robust build self full s x ↔ Handled build full s x := by
  obtain ⟨m, e⟩ := x
  unfold Handled
  split
  · exact handshake_robust_iff ‹_›
  · rename_i htype
    cases hslot : slot m.clientId with
    | none =>
      refine iff_of_false (fun h => h.isSome ?_) fun ⟨i, hi, _⟩ => ?_
      · rw [iterate, if_neg htype, hslot]
        rfl
      · rw [slot_eq_some_iff.mpr hi] at hslot
        cases hslot
    | some i =>
      have hi := slot_eq_some_iff.mp hslot
      trans (s.clients i).stopped = true ∨ Served m e (messageType m.type)
      · cases hstopped : (s.clients i).stopped with
        | true =>
          refine iff_of_true (robust_silent s fun response => ?_) (.inl rfl)
          rw [iterate_slot htype hi, hstopped]
          rfl
        | false =>
          rw [switch_robust_iff htype hi hstopped]
          simp
      · refine ⟨fun h => ⟨i, hi, h⟩, fun ⟨j, hj, h⟩ => ?_⟩
        obtain rfl : j = i := by
          rw [slot_eq_some_iff.mpr hj, Option.some.injEq] at hslot
          exact hslot
        exact h

end

/-! ## The server of the clients -/

/-- The tables agree, but for the queues. -/
def State.Matches (s : State) (t : MsgQueue.State) : Prop :=
  ∀ i, (s.clients i).pid = (t.clients i).pid ∧ (s.clients i).id = (t.clients i).id ∧
    (s.clients i).stopped = (t.clients i).stopped

/-- `m` as a client of the repository sends it. -/
structure Carries (m : MsgT) (k : Msg) : Prop where
  type : messageType m.type = some k.type
  clientId : m.clientId = k.clientId
  sender : m.sender = k.sender
  text : m.buf.string 0 = some k.buf

/-- The responses are what the server goes on to send. -/
def Sent (self : ℤ) (sent : List (Slot × MsgT)) : ServerPc → Prop
  | .respond r req => ∃ buf : Chars msgBufSize,
      sent = [(r.clientId, ⟨r.clientId, r.clientId, self, buf⟩)] ∧
      (req ≠ none → buf.string 0 = some r.buf)
  | .receive | .handle _ | .exited => sent = []

section

variable {self : ℤ} {s : State} {t : MsgQueue.State} {m : MsgT} {k : Msg} {e : Env}
  {stale : Option ℕ} {output : List UInt8}

theorem freeSlot_matches (h : s.Matches t) : freeSlot s.clients = MsgQueue.freeSlot t.clients := by
  unfold freeSlot MsgQueue.freeSlot
  congr 1
  funext i
  exact (h i).2.2

theorem State.Matches.update (h : s.Matches t) (i : Slot) {c : ClientT} {c' : Entry}
    (hc : c.pid = c'.pid ∧ c.id = c'.id ∧ c.stopped = c'.stopped) {s' : State}
    {t' : MsgQueue.State} (hs' : s'.clients = Function.update s.clients i c)
    (ht' : t'.clients = Function.update t.clients i c') : s'.Matches t' := by
  intro j
  rw [hs', ht']
  by_cases hj : j = i
  · subst hj
    simpa only [Function.update_self] using hc
  · simpa only [Function.update_of_ne hj] using h j

/-- The iteration leads to `t'`, and sends what it says. -/
def LeadsTo (self : ℤ) (o : Option Outcome) (t' : MsgQueue.State) : Prop :=
  ∃ s' sent, o = some (s', sent) ∧ s'.Matches t' ∧ Sent self sent t'.pc

theorem handshake_leadsTo (h : s.Matches t) (hm : Carries m k)
    (hopen : e.opened = none ↔ t.key k.queueKey = none) :
    LeadsTo self (handshake .systemV self s m e) (MsgQueue.handshake t k output stale) := by
  have hpath : ¬(Build.systemV = .posix ∧ m.buf.string 0 = none) := fun hp => by cases hp.1
  rw [MsgQueue.handshake, ← freeSlot_matches h]
  cases hfree : freeSlot s.clients with
  | none =>
    refine ⟨s, [], ?_, h, rfl⟩
    rw [handshake, hfree]
  | some i =>
    cases hkey : t.key k.queueKey with
    | none =>
      refine ⟨_, [], handshake_fails self hfree hpath (hopen.mpr hkey) e.response, ?_, rfl⟩
      exact h.update i ⟨hm.sender, rfl, rfl⟩ rfl rfl
    | some d =>
      obtain ⟨queue, hqueue⟩ := Option.ne_none_iff_exists'.mp
        (mt hopen.mp (by rw [hkey]; exact Option.some_ne_none d))
      obtain ⟨s', hclients, hs'⟩ := handshake_answered self hfree hpath hqueue
      exact ⟨s', _, hs' e.response, h.update i ⟨hm.sender, rfl, rfl⟩ hclients rfl,
        e.response.buf, rfl, fun hnone => absurd rfl hnone⟩

/-- A client gets the text that `responseText` says. -/
theorem answerText_eq (hm : Carries m k) (hk : IsQuestion k.type) (hout : e.output = some output) :
    answerText m e k.type = some (responseText k (Chars.line msgBufSize output)) := by
  unfold responseText
  obtain hk | hk | hk := hk
  · have hne : ∀ c ∈ k.buf, decide (c ≠ 0) = true := fun c hc =>
      decide_eq_true (ne_of_mem_of_not_mem hc (Chars.notMem_string hm.text))
    rw [hk, answerText, hm.text, Option.map_some]
    dsimp only
    rw [MsgQueue.mirrorText, List.takeWhile_eq_self_iff.mpr hne]
  · rw [hk, answerText, hm.text, hout, Option.bind_some, Option.map_some]
  · rw [hk, answerText, hout, Option.map_some]

theorem switch_leadsTo (h : s.Matches t) (hm : Carries m k) (hk : k.type ≠ .handshake)
    (hactive : (t.clients k.clientId).stopped = false) (hout : e.output = some output) :
    LeadsTo self (switch self s m e k.clientId)
      (MsgQueue.handle t k (Chars.line msgBufSize output) stale) := by
  have htype := hm.type
  have hanswer : IsQuestion k.type → ∃ s' sent, switch self s m e k.clientId = some (s', sent) ∧
      s'.Matches t ∧ Sent self sent (.respond
        ⟨k.clientId, responseText k (Chars.line msgBufSize output)⟩ (some k.sender)) := by
    intro hquestion
    obtain ⟨buf, hsent, hbuf⟩ :=
      switch_answer htype hquestion hm.clientId (answerText_eq hm hquestion hout)
    exact ⟨s, _, hsent, h, buf, rfl, fun _ => hbuf⟩
  rw [MsgQueue.handle, if_neg (by rw [hactive]; simp)]
  cases hkt : k.type with
  | handshake => exact absurd hkt hk
  | stop =>
    refine ⟨stop s k.clientId, [], by rw [switch, htype, hkt], ?_, rfl⟩
    refine h.update k.clientId ?_ rfl rfl
    exact ⟨(h _).1, (h _).2.1, rfl⟩
  | «end» => exact ⟨{ s with ending := true }, [], by rw [switch, htype, hkt], h, rfl⟩
  | mirror => exact hanswer (.inl hkt)
  | «calc» => exact hanswer (.inr (.inl hkt))
  | time => exact hanswer (.inr (.inr hkt))

/-- On the messages of the clients, an iteration does what `MsgQueue.handle` says. -/
theorem iterate_handle (h : s.Matches t) (hm : Carries m k)
    (hopen : e.opened = none ↔ t.key k.queueKey = none) (hout : e.output = some output) :
    ∃ s' sent, iterate .systemV self s m e = some (s', sent) ∧
      s'.Matches (MsgQueue.handle t k (Chars.line msgBufSize output) stale) ∧
      Sent self sent (MsgQueue.handle t k (Chars.line msgBufSize output) stale).pc := by
  have htype := hm.type
  by_cases hk : k.type = .handshake
  · rw [hk] at htype
    rw [iterate_handshake htype, MsgQueue.handle, if_neg (by simp [hk]), hk]
    exact handshake_leadsTo h hm hopen
  · have hslot : messageType m.type ≠ some .handshake := by rwa [htype, ne_eq, Option.some.injEq]
    rw [iterate_slot hslot hm.clientId, (h k.clientId).2.2]
    cases hstopped : (t.clients k.clientId).stopped with
    | true =>
      rw [if_pos rfl, MsgQueue.handle, if_pos ⟨hk, hstopped⟩]
      exact ⟨s, [], rfl, h, rfl⟩
    | false =>
      rw [if_neg Bool.false_ne_true]
      exact switch_leadsTo h hm hk hstopped hout

end

/-- The iterations of a run are robust if and only if their messages can be handled. -/
theorem dispatch_robust_iff (build : Build) (self : ℤ) (full : Bool) (run : List (MsgT × Env)) :
    (server build self).Along (Robust build self full) run .initial ↔
      (server build self).Along (Handled build full) run .initial :=
  Machine.along_congr (robust_iff build self full)

/-- A message with an empty `buf`. -/
def message (type clientId : ℤ) : MsgT := ⟨type, clientId, 42, .fill _ 0⟩

/-- The queue can be opened, and nothing is written. -/
def quiet (response : MsgT) : Env := ⟨some 3, some [], response, 0⟩

/-- The first client shakes hands, and sends a message of type 99. It gets the response
    to the HANDSHAKE again, as long as this is what `response` still holds; so the
    server is not robust. -/
theorem unknown_type_resends :
    (∃ s r, iterate .systemV 7 .initial (message 1 0) (quiet (message 0 0)) =
        some (s, [(0, r)]) ∧
      (iterate .systemV 7 s (message 99 0) (quiet r)).map Prod.snd = some [(0, r)]) ∧
    ¬(server .systemV 7).Along (Robust .systemV 7 false)
      [(message 1 0, quiet (message 0 0)), (message 99 0, quiet (message 0 0))] .initial := by
  refine ⟨⟨_, _, rfl, rfl⟩, fun h => ?_⟩
  have hsecond := (h.2 _ rfl).1
  rw [robust_iff, Handled, if_neg (by decide)] at hsecond
  obtain ⟨i, hi, hstopped | hserved⟩ := hsecond
  · have hzero : (0 : ℤ) = (i : ℕ) := hi
    obtain rfl : i = 0 := Fin.ext (Int.ofNat.inj hzero).symm
    cases hstopped
  · exact hserved

end AghOs.MsgQueue.Dispatch
