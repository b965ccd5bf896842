import AghOs.Calc.Server
import AghOs.Calc.Transports

/-!
# What a peer can do to the receive path

`receive_sm` (`connection.c`, lines 10–45), the dispatch behind it (`server_accept.c`
and `server_listen.c`) and `register_client` (`server_cllist.c`, lines 87–123), in
both builds. An access to `sm.buffer` or `cl_name` that is not inside the array is
undefined (`none`). The memory that a message is received over is arbitrary.

The bytes of a `RESPONSE`, which are printed, are left out.

* `receive_safe_iff`: for which bytes on a stream, and which datagrams, the accesses
  are inside the arrays and the type and the name that the server acts on are those
  received.
* `register_of_256_bytes`, `stale_name`: a message that makes `register_client`
  write beyond the buffer, and one whose name is what the stack held.
-/

namespace AghOs.Calc

/-! ## Strings in arrays -/

/-- `buffer[i] = c` -/
def storeAt (buffer : List UInt8) (i : ℕ) (c : UInt8) : Option (List UInt8) :=
  if i < buffer.length then some (buffer.set i c) else none

/-- `strcmp(s, t) == 0`, for pointers to what is left of two arrays. -/
def strcmpEq : List UInt8 → List UInt8 → Option Bool
  | a :: s, b :: t => if a ≠ b then some false else if a = 0 then some true else strcmpEq s t
  | _, _ => none

/-- The string that `strcpy` reads from what is left of an array. -/
def readString : List UInt8 → Option (List UInt8)
  | [] => none
  | c :: s => if c = 0 then some [] else (readString s).map (c :: ·)

/-! ## The code -/

/-- What the server does with a message. -/
inductive Outcome
  /-- `receive_sm` returns `-1`. -/
  | failed
  /-- A message of a type other than `REGISTER`. -/
  | other (type : UInt8)
  /-- `REGISTER`, with a name that is taken. -/
  | refused
  /-- `REGISTER`, and there is no free slot. -/
  | full
  | registered (name : List UInt8)

/-- `is_name_taken`, from some slot on. -/
def isNameTakenFrom (cl : Clients) (name : List UInt8) : List Slot → Option Bool
  | [] => some false
  | i :: is =>
    if (cl i).active then
      (strcmpEq ((cl i).name ++ [0]) name).bind fun eq =>
        if eq then some true else isNameTakenFrom cl name is
    else isNameTakenFrom cl name is

def registerClient (cl : Clients) (sm : SocketMessage) : Option Outcome :=
  -- `name[sm->length - 1]` is `buffer[sm->length]`
  (storeAt sm.buffer sm.length.toNat 0).bind fun buffer =>
  let name := buffer.drop 1
  (isNameTakenFrom cl name (List.finRange confClientsMax)).bind fun taken =>
  if taken then some .refused
  else
    match cl.clientFreeid with
    | none => some .full
    | some _ =>
      (readString name).bind fun s =>
      if s.length + 1 ≤ confClientNameMax then some (.registered s) else none

/-- `handle_response`: whether `memcpy` stays inside the buffer. -/
def handleResponse (sm : SocketMessage) : Option (Option Response) :=
  if sm.length ≠ 1 + 16 then some none
  else if 1 + 16 ≤ sm.buffer.length then some sm.response
  else none

/-- `thread_accept`, after `receive_sm`. -/
def acceptMessage (cl : Clients) (sm : SocketMessage) : Option Outcome :=
  if sm.type ≠ msgTypeRegister then some (.other sm.type) else registerClient cl sm

/-- `thread_listen`, after the client has been looked up. -/
def listenMessage (cl : Clients) (client : Option Slot) (sm : SocketMessage) : Option Outcome :=
  if client = none ∧ sm.type ≠ msgTypeRegister ∧ sm.type ≠ msgTypeUnregister then
    some (.other sm.type)
  else if sm.type = msgTypeRegister then registerClient cl sm
  else if sm.type = msgTypeResponse then (handleResponse sm).map fun _ => .other sm.type
  else some (.other sm.type)

/-- `sm->length` for the bytes at the head of a message. -/
def lengthOf (input : List UInt8) : ℕ := (UInt16.ofNat (leNat (input.take 2))).toNat

/-- `receive_sm` on a stream on which `input` comes; `recvfrom` stores as many bytes
    as there are, at most `length`. -/
def receiveInto (old input : List UInt8) : Option (Option SocketMessage) :=
  if ((input.drop 2).take (lengthOf input)).length ≤ old.length then
    some ((receiveSm ⟨0, old⟩ input).map Prod.fst)
  else none

/-- A message is received over `old` and handled, stream build. -/
def handleStream (handle : SocketMessage → Option Outcome) (input old : List UInt8) :
    Option Outcome :=
  (receiveInto old input).bind fun sm =>
  match sm with
  | none => some .failed
  | some sm => handle sm

/-- A datagram is received and handled. -/
def handleDatagram (handle : SocketMessage → Option Outcome) (datagram : List UInt8) (k : Call) :
    Option Outcome :=
  match receiveSmDatagram k datagram with
  | none => some .failed
  | some sm => handle sm

/-! ## What the receive path should do -/

/-- The accesses are inside the arrays, and the outcome is the same whatever the
    buffer held. -/
def StreamSafe (input : List UInt8) : Prop :=
  ∀ cl : Clients, cl.Fits →
    (∃ r, ∀ old : List UInt8, old.length = datagramSize →
      handleStream (acceptMessage cl) input old = some r) ∧
    ∀ client, ∃ r, ∀ old : List UInt8, old.length = datagramSize →
      handleStream (listenMessage cl client) input old = some r

/-- The buffers of a call have their sizes. -/
structure Call.Sized (k : Call) : Prop where
  buffer : k.sm.buffer.length = datagramSize
  stack : k.stack.length = datagramSize

def DatagramSafe (datagram : List UInt8) : Prop :=
  ∀ cl : Clients, cl.Fits → ∀ client, ∃ r, ∀ k : Call, k.Sized →
    handleDatagram (listenMessage cl client) datagram k = some r

/-! ## When it does -/

/-- Either the message is not received, after at most `DATAGRAM_SIZE` bytes, or it is
    not empty, not longer than the buffer, and shorter if it is a `REGISTER`. -/
def StreamOk (input : List UInt8) : Prop :=
  let body := input.drop 2
  input.length < 2 ∨
    body.length < lengthOf input ∧ body.length ≤ datagramSize ∨
    1 ≤ lengthOf input ∧ lengthOf input ≤ body.length ∧ lengthOf input ≤ datagramSize ∧
      (body.headD 0 = msgTypeRegister → lengthOf input < datagramSize)

/-- The name in a `REGISTER` of length `l` ends where that says, not behind what
    follows the type, or it ends before. -/
def NameKnown (tail : List UInt8) (l : ℕ) : Prop :=
  if l = 0 then 0 ∈ tail else l ≤ tail.length + 1 ∨ 0 ∈ tail.take (l - 1)

/-- The type has been received, and of a `REGISTER`, which is shorter than the
    buffer, the name. -/
def DatagramOk (datagram : List UInt8) : Prop :=
  let body := (datagram.take datagramSize).drop 2
  datagram = [] ∨
    body ≠ [] ∧ (body.headD 0 = msgTypeRegister →
      lengthOf datagram < datagramSize ∧ NameKnown (body.drop 1) (lengthOf datagram))

/-! ## Names -/

section

variable {cl : Clients} {n rest : List UInt8} {sm : SocketMessage}

/-- `strcmp` with a string that ends with `0` reads no further than that. -/
theorem strcmpEq_string : ∀ {n x : List UInt8}, 0 ∈ x → 0 ∉ n →
    ∃ b, ∀ rest, strcmpEq x (n ++ 0 :: rest) = some b
  | _, [], hx, _ => by cases hx
  | [], a :: x, _, _ => by
    by_cases ha : a = 0
    · exact ⟨true, fun rest => by simp [strcmpEq, ha]⟩
    · exact ⟨false, fun rest => by simp [strcmpEq, ha]⟩
  | c :: n, a :: x, hx, hn => by
    obtain ⟨hc, hn⟩ := not_or.mp (mt List.mem_cons.mpr hn)
    by_cases hac : a = c
    · have hx' : 0 ∈ x := (List.mem_cons.mp hx).resolve_left (hac ▸ hc)
      obtain ⟨b, hb⟩ := strcmpEq_string hx' hn
      exact ⟨b, fun rest => by simpa [strcmpEq, hac, Ne.symm hc] using hb rest⟩
    · exact ⟨false, fun rest => by simp [strcmpEq, hac]⟩

theorem isNameTakenFrom_string (cl : Clients) (hn : 0 ∉ n) (is : List Slot) :
    ∃ b, ∀ rest, isNameTakenFrom cl (n ++ 0 :: rest) is = some b := by
  induction is with
  | nil => exact ⟨false, fun _ => rfl⟩
  | cons i is ih =>
    obtain ⟨b, hb⟩ := ih
    obtain ⟨e, he⟩ := strcmpEq_string (x := (cl i).name ++ [0]) (by simp) hn
    by_cases hactive : (cl i).active = true
    · cases e with
      | true => exact ⟨true, fun rest => by simp [isNameTakenFrom, hactive, he rest]⟩
      | false => exact ⟨b, fun rest => by simp [isNameTakenFrom, hactive, he rest, hb rest]⟩
    · exact ⟨b, fun rest => by simp [isNameTakenFrom, hactive, hb rest]⟩

theorem readString_append (hn : 0 ∉ n) :
    readString (n ++ rest) = (readString rest).map (n ++ ·) := by
  induction n with
  | nil => simp
  | cons c n ih =>
    obtain ⟨hc, hn⟩ := not_or.mp (mt List.mem_cons.mpr hn)
    rw [List.cons_append, readString, if_neg (Ne.symm hc), ih hn, Option.map_map]
    rfl

theorem readString_string (hn : 0 ∉ n) : readString (n ++ 0 :: rest) = some n := by
  rw [readString_append hn]
  simp [readString]

/-- If the string goes on behind `n`, it is not `n`. -/
theorem readString_ne {c : UInt8} (hn : 0 ∉ n) (hc : c ≠ 0) :
    readString (n ++ c :: rest) ≠ some n := by
  rw [readString_append hn, readString, if_neg hc, Option.map_map]
  intro h
  obtain ⟨s, -, hs⟩ := Option.map_eq_some_iff.mp h
  have hlen := congrArg List.length hs
  simp at hlen

/-- A name that ends with `0` decides what `register_client` does. -/
theorem registerClient_string (cl : Clients) (hn : 0 ∉ n) :
    ∃ r, (∀ s, r = .registered s → s = n) ∧
      ∀ sm : SocketMessage, sm.buffer.length = datagramSize → sm.length.toNat < datagramSize →
      (∃ rest, (sm.buffer.set sm.length.toNat 0).drop 1 = n ++ 0 :: rest) →
      registerClient cl sm = some r := by
  obtain ⟨b, hb⟩ := isNameTakenFrom_string cl hn (List.finRange confClientsMax)
  refine ⟨if b then .refused else match cl.clientFreeid with
    | none => .full
    | some _ => .registered n, fun s hs => ?_, fun sm hbuf hlen hname => ?_⟩
  · split at hs
    · cases hs
    · split at hs <;> cases hs
      rfl
  obtain ⟨rest, hname⟩ := hname
  have hstore : storeAt sm.buffer sm.length.toNat 0 = some (sm.buffer.set sm.length.toNat 0) :=
    if_pos (hbuf ▸ hlen)
  have hfit : n.length + 1 ≤ confClientNameMax := by
    have := congrArg List.length hname
    simp [hbuf, datagramSize] at this
    unfold confClientNameMax
    omega
  rw [registerClient, hstore, Option.bind_some]
  simp only [hname, hb rest, Option.bind_some]
  cases b with
  | true => rfl
  | false =>
    cases cl.clientFreeid with
    | none => rfl
    | some id =>
      simp only [readString_string hn, Option.bind_some]
      exact if_pos hfit

/-- A name that has been registered fits its `cl_name`. -/
theorem Clients.Fits.register {s : List UInt8} (h : cl.Fits)
    (hr : registerClient cl sm = some (.registered s)) (id : Slot) (sock : ℕ) :
    (cl.occupy id sock s).Fits := by
  have hs : s.length < confClientNameMax := by
    obtain ⟨buffer, -, hr⟩ := Option.bind_eq_some_iff.mp hr
    obtain ⟨taken, -, hr⟩ := Option.bind_eq_some_iff.mp hr
    cases taken with
    | true => cases hr
    | false =>
      cases hfree : cl.clientFreeid with
      | none =>
        rw [hfree] at hr
        cases hr
      | some i =>
        rw [hfree] at hr
        obtain ⟨name, -, hr⟩ := Option.bind_eq_some_iff.mp hr
        split at hr
        · next hfit =>
          obtain rfl := Outcome.registered.inj (Option.some.inj hr)
          exact hfit
        · cases hr
  exact h.occupy hs

/-- The table with no client. -/
def noClients : Clients := fun _ => ⟨false, 0, [], 0⟩

theorem fits_noClients : noClients.Fits := fun _ => (by decide : 0 < 256)

/-- Without clients every name is registered. -/
theorem registerClient_noClients (hlen : sm.length.toNat < sm.buffer.length) :
    registerClient noClients sm =
      (readString ((sm.buffer.set sm.length.toNat 0).drop 1)).bind fun s =>
        if s.length + 1 ≤ confClientNameMax then some (.registered s) else none := by
  have htaken : ∀ name, isNameTakenFrom noClients name (List.finRange confClientsMax) =
      some false := fun _ => rfl
  have hfree : noClients.clientFreeid = some 0 := rfl
  rw [registerClient, storeAt, if_pos hlen, Option.bind_some]
  simp only [htaken, Option.bind_some, hfree]
  rfl

end

/-! ## Messages -/

section

variable {cl : Clients} {sm : SocketMessage} {client : Option Slot}

/-- A message that is no `REGISTER` is no danger. -/
theorem listenMessage_other (hbuf : sm.buffer.length = datagramSize)
    (htype : sm.type ≠ msgTypeRegister) :
    listenMessage cl client sm = some (.other sm.type) := by
  have hresponse : (handleResponse sm).map (fun _ => Outcome.other sm.type) =
      some (.other sm.type) := by
    unfold handleResponse
    rw [hbuf]
    split <;> rfl
  unfold listenMessage
  rw [if_neg htype, hresponse]
  split
  · rfl
  · split <;> rfl

theorem listenMessage_register (htype : sm.type = msgTypeRegister) :
    listenMessage cl client sm = registerClient cl sm := by
  unfold listenMessage
  rw [if_neg (fun h => h.2.1 htype), if_pos htype]

theorem acceptMessage_register (htype : sm.type = msgTypeRegister) :
    acceptMessage cl sm = registerClient cl sm :=
  if_neg (not_not_intro htype)

end

/-- The name ends inside what has been received, or right behind it. -/
theorem NameKnown.string {t : UInt8} {tail : List UInt8} {l : ℕ} (h : NameKnown tail l) :
    ∃ n, 0 ∉ n ∧ ∀ rest, l < (t :: tail ++ rest).length →
      ∃ z, ((t :: tail ++ rest).set l 0).drop 1 = n ++ 0 :: z := by
  cases l with
  | zero =>
    obtain ⟨n, y, htail, hn⟩ := List.eq_append_cons_of_mem (show (0 : UInt8) ∈ tail from h)
    exact ⟨n, hn, fun rest _ => ⟨y ++ rest, by simp [htail]⟩⟩
  | succ k =>
    have hset : ∀ rest, k + 1 < (t :: tail ++ rest).length →
        ((t :: tail ++ rest).set (k + 1) 0).drop 1 =
          tail.take k ++ rest.take (k - tail.length) ++ 0 :: (tail ++ rest).drop (k + 1) := by
      intro rest hlt
      rw [List.cons_append, List.set_cons_succ, List.drop_one, List.tail_cons,
        List.set_eq_take_append_cons_drop, if_pos (by simpa using hlt), List.take_append]
    obtain hle | hmem := h
    · have hnil : ∀ rest : List UInt8, rest.take (k - tail.length) = [] := by
        intro rest
        rw [Nat.sub_eq_zero_of_le (by omega), List.take_zero]
      obtain ⟨n, y, htail, hn⟩ :=
        List.eq_append_cons_of_mem (show (0 : UInt8) ∈ tail.take k ++ [0] by simp)
      refine ⟨n, hn, fun rest hlt => ⟨y ++ (tail ++ rest).drop (k + 1), ?_⟩⟩
      rw [hset rest hlt, hnil, List.append_nil, List.append_cons, htail, List.append_assoc]
      rfl
    · rw [Nat.add_sub_cancel] at hmem
      obtain ⟨n, y, htail, hn⟩ := List.eq_append_cons_of_mem hmem
      refine ⟨n, hn, fun rest hlt =>
        ⟨y ++ rest.take (k - tail.length) ++ 0 :: (tail ++ rest).drop (k + 1), ?_⟩⟩
      rw [hset rest hlt, htail, List.append_assoc, List.append_assoc, List.append_assoc]
      rfl

/-- Otherwise the name goes on in what the buffer held. -/
theorem not_nameKnown {tail : List UInt8} {l : ℕ} (h : ¬NameKnown tail l) (t c : UInt8)
    (rest : List UInt8) :
    0 ∉ tail ∧ ∃ z, ((t :: tail ++ c :: rest).set l 0).drop 1 = tail ++ c :: z := by
  cases l with
  | zero => exact ⟨h, rest, rfl⟩
  | succ k =>
    obtain ⟨hlen, hmem⟩ := not_or.mp h
    rw [Nat.add_sub_cancel, List.take_of_length_le (by omega)] at hmem
    refine ⟨hmem, rest.set (k - tail.length - 1) 0, ?_⟩
    rw [List.cons_append, List.set_cons_succ, List.drop_one, List.tail_cons,
      List.set_append_right _ _ (by omega)]
    obtain ⟨j, hj⟩ : ∃ j, k - tail.length = j + 1 := ⟨k - tail.length - 1, by omega⟩
    rw [hj, List.set_cons_succ]
    rfl

/-- Two messages that differ behind what has been received of the name are not
    registered under the same one. -/
theorem registerClient_differs {sm sm' : SocketMessage} {tail z z' : List UInt8} {r : Outcome}
    (htail : 0 ∉ tail) (hlen : sm.length.toNat < sm.buffer.length)
    (hlen' : sm'.length.toNat < sm'.buffer.length)
    (hz : (sm.buffer.set sm.length.toNat 0).drop 1 = tail ++ 0 :: z)
    (hz' : (sm'.buffer.set sm'.length.toNat 0).drop 1 = tail ++ 1 :: z')
    (hr : registerClient noClients sm = some r) : registerClient noClients sm' ≠ some r := by
  rw [registerClient_noClients hlen, hz, readString_string htail, Option.bind_some] at hr
  rw [registerClient_noClients hlen', hz']
  intro hr'
  obtain ⟨s, hs, hr'⟩ := Option.bind_eq_some_iff.mp hr'
  split at hr
  · split at hr'
    · obtain rfl := Option.some.inj hr
      obtain rfl : s = tail := Outcome.registered.inj (Option.some.inj hr')
      exact readString_ne htail (by decide) hs
    · cases hr'
  · cases hr

/-! ## The stream build -/

section

variable {input old : List UInt8} {handle : SocketMessage → Option Outcome}

/-- Too little comes, and it fits the buffer. -/
theorem handleStream_failed (hold : old.length = datagramSize)
    (h : input.length < 2 ∨
      (input.drop 2).length < lengthOf input ∧ (input.drop 2).length ≤ datagramSize) :
    handleStream handle input old = some .failed := by
  have hstored : ((input.drop 2).take (lengthOf input)).length ≤ old.length := by
    rw [hold, List.length_take]
    obtain h | h := h
    · rw [List.length_drop]
      omega
    · omega
  have hnone : receiveSm ⟨0, old⟩ input = none := by
    unfold receiveSm
    split
    · exact if_neg (Nat.not_le_of_lt (h.resolve_left (by omega)).1)
    · rfl
  rw [handleStream, receiveInto, if_pos hstored, hnone]
  rfl

/-- More comes than fits the buffer. -/
theorem handleStream_none (hold : old.length = datagramSize)
    (h : datagramSize < ((input.drop 2).take (lengthOf input)).length) :
    handleStream handle input old = none := by
  rw [handleStream, receiveInto, if_neg (by omega)]
  rfl

/-- The whole message comes, and it fits the buffer. -/
theorem handleStream_received (hold : old.length = datagramSize) (h2 : 2 ≤ input.length)
    (hle : lengthOf input ≤ (input.drop 2).length) (hfit : lengthOf input ≤ datagramSize) :
    handleStream handle input old =
      handle ⟨UInt16.ofNat (leNat (input.take 2)),
        (input.drop 2).take (lengthOf input) ++ old.drop (lengthOf input)⟩ := by
  have hstored : ((input.drop 2).take (lengthOf input)).length ≤ old.length := by
    rw [hold, List.length_take]
    omega
  have hreceived : receiveSm ⟨0, old⟩ input = some
      (⟨UInt16.ofNat (leNat (input.take 2)),
        (input.drop 2).take (lengthOf input) ++ old.drop (lengthOf input)⟩,
        (input.drop 2).drop (lengthOf input)) := by
    unfold receiveSm
    rw [if_pos h2]
    exact if_pos hle
  rw [handleStream, receiveInto, if_pos hstored, hreceived]
  rfl

/-- The buffer after a message of `k + 1` bytes. -/
theorem length_received {t : UInt8} {body : List UInt8} {k : ℕ} (hold : old.length = datagramSize)
    (hle : k ≤ body.length) (hfit : k + 1 ≤ datagramSize) :
    (t :: body.take k ++ old.drop (k + 1)).length = datagramSize := by
  rw [List.length_append, List.length_cons, List.length_take, List.length_drop, hold]
  omega

/-- A message that is not empty is its type and as much of what follows as it says. -/
theorem handleStream_body {t : UInt8} {body : List UInt8} {k : ℕ} (hold : old.length = datagramSize)
    (hbody : input.drop 2 = t :: body) (hk : lengthOf input = k + 1) (hle : k ≤ body.length)
    (hfit : k + 1 ≤ datagramSize) :
    handleStream handle input old =
      handle ⟨UInt16.ofNat (leNat (input.take 2)), t :: body.take k ++ old.drop (k + 1)⟩ := by
  have hlen := congrArg List.length hbody
  rw [List.length_drop, List.length_cons] at hlen
  have hle' : lengthOf input ≤ (input.drop 2).length := by
    rw [hbody, hk]
    exact Nat.succ_le_succ hle
  rw [handleStream_received hold (by omega) hle' (by rwa [hk]), hbody, hk]
  rfl

/-- The two ways in which a stream can be harmless. -/
theorem StreamOk.cases (h : StreamOk input) :
    (input.length < 2 ∨
      (input.drop 2).length < lengthOf input ∧ (input.drop 2).length ≤ datagramSize) ∨
    ∃ t body k, input.drop 2 = t :: body ∧ lengthOf input = k + 1 ∧ k ≤ body.length ∧
      k + 1 ≤ datagramSize ∧ (t = msgTypeRegister → k + 1 < datagramSize) := by
  obtain h | h | ⟨hpos, hle, hfit, hreg⟩ := h
  · exact .inl (.inl h)
  · exact .inl (.inr h)
  · obtain ⟨t, body, hbody⟩ : ∃ t body, input.drop 2 = t :: body :=
      List.exists_cons_of_ne_nil (List.length_pos_iff.mp (by omega))
    obtain ⟨k, hk⟩ : ∃ k, lengthOf input = k + 1 := ⟨lengthOf input - 1, by omega⟩
    rw [hbody, hk] at hle hreg
    rw [hk] at hfit
    exact .inr ⟨t, body, k, hbody, hk, Nat.le_of_succ_le_succ hle, hfit, hreg⟩

theorem StreamOk.safe (h : StreamOk input) : StreamSafe input := by
  intro cl _
  obtain hfailed | ⟨t, body, k, hbody, hk, hle, hfit, hreg⟩ := h.cases
  · exact ⟨⟨_, fun old hold => handleStream_failed hold hfailed⟩,
      fun _ => ⟨_, fun old hold => handleStream_failed hold hfailed⟩⟩
  · by_cases ht : t = msgTypeRegister
    · have htake : (body.take k).length = k := List.length_take_of_le hle
      have hknown : NameKnown (body.take k) (k + 1) := .inl (Nat.le_of_eq (by rw [htake]))
      obtain ⟨n, hn, hname⟩ := hknown.string (t := t)
      obtain ⟨r, -, hr⟩ := registerClient_string cl hn
      have hregister : ∀ old : List UInt8, old.length = datagramSize →
          registerClient cl ⟨UInt16.ofNat (leNat (input.take 2)),
            t :: body.take k ++ old.drop (k + 1)⟩ = some r := by
        intro old hold
        have hbuf := length_received (t := t) hold hle hfit
        have hlength : (UInt16.ofNat (leNat (input.take 2))).toNat = k + 1 := hk
        refine hr _ hbuf (lt_of_eq_of_lt hk (hreg ht)) ?_
        rw [hlength]
        exact hname _ (lt_of_lt_of_eq (hreg ht) hbuf.symm)
      refine ⟨⟨r, fun old hold => ?_⟩, fun client => ⟨r, fun old hold => ?_⟩⟩
      · rw [handleStream_body hold hbody hk hle hfit]
        exact Eq.trans (acceptMessage_register (by exact ht)) (hregister old hold)
      · rw [handleStream_body hold hbody hk hle hfit]
        exact Eq.trans (listenMessage_register (by exact ht)) (hregister old hold)
    · refine ⟨⟨.other t, fun old hold => ?_⟩, fun client => ⟨.other t, fun old hold => ?_⟩⟩
      · rw [handleStream_body hold hbody hk hle hfit]
        exact if_pos ht
      · rw [handleStream_body hold hbody hk hle hfit]
        exact listenMessage_other (length_received hold hle hfit) ht

/-- An empty message has the type that the buffer held. -/
theorem not_streamSafe_empty (h2 : 2 ≤ input.length) (hk : lengthOf input = 0) :
    ¬StreamSafe input := by
  intro h
  obtain ⟨⟨r, hr⟩, -⟩ := h noClients fits_noClients
  have hother : ∀ v, v ≠ msgTypeRegister → some (Outcome.other v) = some r := by
    intro v hv
    rw [← hr (List.replicate datagramSize v) List.length_replicate,
      handleStream_received List.length_replicate h2 (by omega) (by omega), hk]
    exact (if_pos hv).symm
  have heq := (hother 1 (by decide)).trans (hother 2 (by decide)).symm
  exact absurd (Outcome.other.inj (Option.some.inj heq)) (by decide)

/-- The `0` of a `REGISTER` as long as the buffer is stored behind it. -/
theorem not_streamSafe_register {body : List UInt8} {k : ℕ}
    (hbody : input.drop 2 = msgTypeRegister :: body) (hk : lengthOf input = k + 1)
    (hle : k ≤ body.length) (hfit : k + 1 = datagramSize) : ¬StreamSafe input := by
  intro h
  obtain ⟨⟨r, hr⟩, -⟩ := h noClients fits_noClients
  have hrun := hr (List.replicate datagramSize 0) List.length_replicate
  have hstore : ¬(UInt16.ofNat (leNat (input.take 2))).toNat <
      (msgTypeRegister :: body.take k ++ (List.replicate datagramSize 0).drop (k + 1)).length := by
    rw [length_received List.length_replicate hle (Nat.le_of_eq hfit), ← hfit]
    exact Nat.not_lt_of_le (Nat.le_of_eq hk.symm)
  rw [handleStream_body List.length_replicate hbody hk hle (Nat.le_of_eq hfit),
    acceptMessage_register rfl, registerClient, storeAt, if_neg hstore] at hrun
  cases hrun

theorem StreamSafe.ok (h : StreamSafe input) : StreamOk input := by
  by_contra hok
  obtain ⟨h2, hok⟩ := not_or.mp hok
  obtain ⟨hshort, hok⟩ := not_or.mp hok
  by_cases hfit : datagramSize < ((input.drop 2).take (lengthOf input)).length
  · obtain ⟨⟨r, hr⟩, -⟩ := h noClients fits_noClients
    have hrun := hr (List.replicate datagramSize 0) List.length_replicate
    rw [handleStream_none List.length_replicate hfit] at hrun
    cases hrun
  · rw [List.length_take] at hfit
    have hle : lengthOf input ≤ (input.drop 2).length := by omega
    cases hk : lengthOf input with
    | zero => exact not_streamSafe_empty (Nat.le_of_not_lt h2) hk h
    | succ k =>
      obtain ⟨t, body, hbody⟩ : ∃ t body, input.drop 2 = t :: body :=
        List.exists_cons_of_ne_nil (List.length_pos_iff.mp (by omega))
      obtain ⟨ht, hlong⟩ : t = msgTypeRegister ∧ datagramSize ≤ k + 1 := by
        by_contra hno
        refine hok ⟨by omega, hle, by omega, fun ht => ?_⟩
        rw [hbody] at ht
        by_contra hlt
        exact hno ⟨ht, by omega⟩
      rw [hbody, hk] at hle
      exact not_streamSafe_register (ht ▸ hbody) hk (Nat.le_of_succ_le_succ hle) (by omega) h

/-- The bytes on a stream for which the receive path is safe. -/
theorem streamSafe_iff : StreamSafe input ↔ StreamOk input := ⟨StreamSafe.ok, StreamOk.safe⟩

end

/-! ## The datagram build -/

/-- The memory of a call that is filled with one value. -/
def Call.filled (v : UInt8) : Call :=
  ⟨⟨0, List.replicate datagramSize v⟩, List.replicate datagramSize v⟩

theorem Call.sized_filled (v : UInt8) : (Call.filled v).Sized :=
  ⟨List.length_replicate, List.length_replicate⟩

section

variable {datagram tail : List UInt8} {t v : UInt8} {k : Call}

/-- What is behind the body of a datagram in `sm.buffer`. -/
def Call.behind (k : Call) (datagram : List UInt8) : List UInt8 :=
  k.stack.drop (datagram.take datagramSize).length ++ k.sm.buffer.drop (datagramSize - 2)

theorem Call.length_behind (hk : k.Sized)
    (hbody : (datagram.take datagramSize).drop 2 = t :: tail) :
    (t :: tail ++ k.behind datagram).length = datagramSize := by
  have hlen := congrArg List.length hbody
  have hle := List.length_take_le datagramSize datagram
  rw [← hbody, List.length_append, Call.behind, List.length_append, List.length_drop,
    List.length_drop, List.length_drop, hk.stack, hk.buffer]
  rw [List.length_drop, List.length_cons] at hlen
  omega

theorem receiveSmDatagram_body (hk : k.Sized)
    (hbody : (datagram.take datagramSize).drop 2 = t :: tail) :
    receiveSmDatagram k datagram =
      some ⟨UInt16.ofNat (leNat (datagram.take 2)), t :: tail ++ k.behind datagram⟩ := by
  have hlen := congrArg List.length hbody
  rw [List.length_drop, List.length_cons] at hlen
  have hle := List.length_take_le datagramSize datagram
  have h2 : 2 ≤ (datagram.take datagramSize).length := by omega
  have htake : ((datagram.take datagramSize ++
      k.stack.drop (datagram.take datagramSize).length).drop 2).take (datagramSize - 2) =
        t :: tail ++ k.stack.drop (datagram.take datagramSize).length := by
    rw [List.drop_append_of_le_length h2, hbody, List.take_of_length_le]
    rw [List.length_append, List.length_drop, hk.stack, List.length_cons]
    omega
  unfold receiveSmDatagram
  simp only [if_neg (show ¬(datagram.take datagramSize).length = 0 by omega), htake]
  rw [List.take_append_of_le_length h2, List.take_take, Call.behind, List.append_assoc]
  rfl

/-- Without a body the type is what the stack held. -/
theorem receiveSmDatagram_filled (hne : datagram ≠ [])
    (hbody : (datagram.take datagramSize).drop 2 = []) :
    ∃ sm, receiveSmDatagram (.filled v) datagram = some sm ∧ sm.type = v ∧
      sm.buffer.length = datagramSize := by
  have hm : (datagram.take datagramSize).length ≠ 0 := by
    rw [List.length_take]
    have := List.length_pos_iff.mpr hne
    have : 0 < datagramSize := by decide
    omega
  have h2 : (datagram.take datagramSize).length ≤ 2 := List.drop_eq_nil_iff.mp hbody
  have hdrop : (datagram.take datagramSize ++ (List.replicate datagramSize v).drop
      (datagram.take datagramSize).length).drop 2 = List.replicate (datagramSize - 2) v := by
    rw [List.drop_append, hbody, List.nil_append, List.drop_drop, List.drop_replicate]
    congr 2
    omega
  refine ⟨_, if_neg hm, ?_, ?_⟩
  · show (((datagram.take datagramSize ++ (List.replicate datagramSize v).drop
      (datagram.take datagramSize).length).drop 2).take (datagramSize - 2) ++ _).headD 0 = v
    rw [hdrop]
    rfl
  · show (((datagram.take datagramSize ++ (List.replicate datagramSize v).drop
      (datagram.take datagramSize).length).drop 2).take (datagramSize - 2) ++
        (List.replicate datagramSize v).drop (datagramSize - 2)).length = datagramSize
    rw [hdrop, List.take_replicate, List.drop_replicate, List.length_append,
      List.length_replicate, List.length_replicate]
    rfl

/-- The first byte behind the body, if the memory is filled with `v`. -/
theorem Call.behind_filled (v : UInt8) (datagram : List UInt8) :
    ∃ rest, (Call.filled v).behind datagram = v :: rest := by
  have hreplicate : (Call.filled v).behind datagram =
      List.replicate (datagramSize - (datagram.take datagramSize).length + 2) v := by
    show (List.replicate datagramSize v).drop _ ++ (List.replicate datagramSize v).drop _ = _
    rw [List.drop_replicate, List.drop_replicate, List.replicate_append_replicate]
    rfl
  exact ⟨_, hreplicate⟩

theorem DatagramOk.safe (h : DatagramOk datagram) : DatagramSafe datagram := by
  intro cl _ client
  obtain rfl | ⟨hne, hreg⟩ := h
  · exact ⟨.failed, fun k _ => rfl⟩
  · obtain ⟨t, tail, hbody⟩ := List.exists_cons_of_ne_nil hne
    rw [hbody] at hreg
    have hsm : ∀ k : Call, k.Sized → handleDatagram (listenMessage cl client) datagram k =
        listenMessage cl client
          ⟨UInt16.ofNat (leNat (datagram.take 2)), t :: tail ++ k.behind datagram⟩ := by
      intro k hk
      rw [handleDatagram, receiveSmDatagram_body hk hbody]
    by_cases ht : t = msgTypeRegister
    · obtain ⟨hlt, hknown⟩ := hreg ht
      obtain ⟨n, hn, hname⟩ := NameKnown.string (t := t) hknown
      obtain ⟨r, -, hr⟩ := registerClient_string cl hn
      refine ⟨r, fun k hk => ?_⟩
      have hbuf := Call.length_behind hk hbody
      rw [hsm k hk]
      refine Eq.trans (listenMessage_register (by exact ht)) (hr _ hbuf hlt ?_)
      exact hname _ (lt_of_lt_of_eq hlt hbuf.symm)
    · refine ⟨.other t, fun k hk => ?_⟩
      rw [hsm k hk]
      exact listenMessage_other (Call.length_behind hk hbody) ht

theorem DatagramSafe.ok (h : DatagramSafe datagram) : DatagramOk datagram := by
  obtain ⟨r, hr⟩ := h noClients fits_noClients none
  have hrun := fun v => hr _ (Call.sized_filled v)
  by_contra hok
  obtain ⟨hne, hok⟩ := not_or.mp hok
  cases hbody : (datagram.take datagramSize).drop 2 with
  | nil =>
    have hother : ∀ v, v ≠ msgTypeRegister → some (Outcome.other v) = some r := by
      intro v hv
      obtain ⟨sm, hsm, rfl, hbuf⟩ := receiveSmDatagram_filled (v := v) hne hbody
      rw [← hrun sm.type, handleDatagram, hsm]
      exact (listenMessage_other hbuf hv).symm
    have heq := (hother 1 (by decide)).trans (hother 2 (by decide)).symm
    exact absurd (Outcome.other.inj (Option.some.inj heq)) (by decide)
  | cons t tail =>
    rw [hbody] at hok
    have hreg : t = msgTypeRegister ∧
        (lengthOf datagram < datagramSize → ¬NameKnown tail (lengthOf datagram)) := by
      by_contra hno
      refine hok ⟨List.cons_ne_nil t tail, fun ht => ?_⟩
      by_contra h
      exact hno ⟨ht, fun hlt hknown => h ⟨hlt, hknown⟩⟩
    have hregister : ∀ v, registerClient noClients
        ⟨UInt16.ofNat (leNat (datagram.take 2)), t :: tail ++ (Call.filled v).behind datagram⟩ =
          some r := by
      intro v
      rw [← hrun v, handleDatagram, receiveSmDatagram_body (Call.sized_filled v) hbody]
      exact (listenMessage_register (by exact hreg.1)).symm
    have hbuf := fun v => Call.length_behind (Call.sized_filled v) hbody
    by_cases hlt : lengthOf datagram < datagramSize
    · -- the name goes on in what the stack held
      obtain ⟨z₀, h₀⟩ := Call.behind_filled 0 datagram
      obtain ⟨z₁, h₁⟩ := Call.behind_filled 1 datagram
      obtain ⟨htail, y₀, hy₀⟩ := not_nameKnown (hreg.2 hlt) t 0 z₀
      obtain ⟨-, y₁, hy₁⟩ := not_nameKnown (hreg.2 hlt) t 1 z₁
      rw [← h₀] at hy₀
      rw [← h₁] at hy₁
      exact registerClient_differs htail (lt_of_lt_of_eq hlt (hbuf 0).symm)
        (lt_of_lt_of_eq hlt (hbuf 1).symm) hy₀ hy₁ (hregister 0) (hregister 1)
    · -- a `REGISTER` whose `0` is stored behind the buffer
      have hstore : ¬(UInt16.ofNat (leNat (datagram.take 2))).toNat <
          (t :: tail ++ (Call.filled 0).behind datagram).length := by
        rw [hbuf 0]
        exact hlt
      have hnone := hregister 0
      rw [registerClient, storeAt, if_neg hstore] at hnone
      cases hnone

/-- The datagrams for which the receive path is safe. -/
theorem datagramSafe_iff : DatagramSafe datagram ↔ DatagramOk datagram :=
  ⟨DatagramSafe.ok, DatagramOk.safe⟩

end

/-! ## Both builds -/

/-- The receive path is safe for these streams and these datagrams, and no others. -/
theorem receive_safe_iff (input datagram : List UInt8) :
    (StreamSafe input ↔ StreamOk input) ∧ (DatagramSafe datagram ↔ DatagramOk datagram) :=
  ⟨streamSafe_iff, datagramSafe_iff⟩

set_option maxRecDepth 8000 in
/-- A `REGISTER` as long as the buffer: its `0` is stored behind it. -/
theorem register_of_256_bytes : handleStream (acceptMessage noClients)
    (0 :: 1 :: List.replicate 256 0) (List.replicate datagramSize 0) = none := rfl

set_option maxRecDepth 8000 in
/-- A `REGISTER` whose length says more than has been received. -/
theorem stale_name :
    handleDatagram (listenMessage noClients none) [5, 0, 0, 97] (.filled 98) =
        some (.registered [97, 98, 98, 98]) ∧
      handleDatagram (listenMessage noClients none) [5, 0, 0, 97] (.filled 99) =
        some (.registered [97, 99, 99, 99]) := ⟨rfl, rfl⟩

/-- Neither build is safe from its peers. -/
theorem not_receive_safe :
    ¬StreamSafe (0 :: 1 :: List.replicate 256 0) ∧ ¬DatagramSafe [5, 0, 0, 97] := by
  constructor
  · intro h
    obtain ⟨⟨r, hr⟩, -⟩ := h noClients fits_noClients
    have hsome := hr (List.replicate datagramSize 0) List.length_replicate
    rw [register_of_256_bytes] at hsome
    cases hsome
  · intro h
    obtain ⟨r, hr⟩ := h noClients fits_noClients none
    have hb := stale_name.1.symm.trans (hr _ (Call.sized_filled 98))
    have hc := stale_name.2.symm.trans (hr _ (Call.sized_filled 99))
    have heq := Option.some.inj (hb.trans hc.symm)
    exact absurd (Outcome.registered.inj heq) (by decide)

end AghOs.Calc
