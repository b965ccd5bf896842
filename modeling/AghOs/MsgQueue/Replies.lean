import AghOs.Machine.Runs
import AghOs.MsgQueue.Answers

/-!
# The responses come

A client waits twice: for its id, and after each request. The server handles one
message at a time, so what a client waits for is in one place: its message in the
queue of the server or in hand, the response under way, or the response in its own
queue.

* `Smooth`: the calls succeed, the texts fit into `msg.buf`, `STOP`s come in order and
  there is a slot for every HANDSHAKE. SIGINT can still end a client at any step, and
  `END` the server.
* `reachIf_exchange`: then between two requests nothing of a client is under way, and
  while it waits only what it waits for.
* `delay_step`: the measure of a wait, which the server lowers and no other client
  raises.
* `responses_come`: the response is the one to the last message that the client has
  sent, and it comes within the steps that the measure says.

The client in slot `0` waits for ever: the type of its responses is `0`.
-/

namespace AghOs.MsgQueue

/-! ## Runs without failures -/

/-- A HANDSHAKE whose queue can be opened comes from the creator of this queue, and
    finds a free slot. -/
def ServerPc.welcomes (s : State) : ServerPc → Prop
  | .handle m => m.type = .handshake → s.key m.queueKey ≠ none →
      s.key m.queueKey = some m.sender ∧ freeSlot s.clients ≠ none
  | _ => True

/-- The text of a line of commands fits into `msg.buf`, with its NUL. -/
def TextFits (line : List UInt8) : Prop := (splitCommand line).2.length < msgBufSize

instance : DecidablePred TextFits := fun _ => inferInstanceAs (Decidable (_ < msgBufSize))

/-- The calls succeed, except those of a client that leaves, and the texts fit. -/
def Smooth (s : State) : Label → Prop
  | .client c (.step ok line) =>
    (ok = true ∨ ∀ k ∈ s.client c, k.pc.phase = .exiting) ∧ ∀ l ∈ line, TextFits l
  | .server ok _ _ => ok = true ∧ s.pc.inOrder s ∧ s.pc.welcomes s
  | _ => True

instance (s : State) : DecidablePred (ServerPc.welcomes s)
  | .handle m => inferInstanceAs (Decidable (m.type = .handshake → s.key m.queueKey ≠ none →
      s.key m.queueKey = some m.sender ∧ freeSlot s.clients ≠ none))
  | .receive => inferInstanceAs (Decidable True)
  | .respond _ _ => inferInstanceAs (Decidable True)
  | .exited => inferInstanceAs (Decidable True)

instance (s : State) : DecidablePred (Smooth s)
  | .server ok _ _ => inferInstanceAs (Decidable (ok = true ∧ s.pc.inOrder s ∧ s.pc.welcomes s))
  | .start _ _ => inferInstanceAs (Decidable True)
  | .client c (.step ok line) =>
    inferInstanceAs (Decidable ((ok = true ∨ ∀ k ∈ s.client c, k.pc.phase = .exiting) ∧
      ∀ l ∈ line, TextFits l))
  | .client _ .sigint => inferInstanceAs (Decidable True)

theorem Smooth.inOrder {s : State} {l : Label} (h : Smooth s l) : StopInOrder s l := by
  cases l with
  | server ok out stale => exact h.2.1
  | start c key => trivial
  | client c x => trivial

/-! ## What is under way -/

/-- The messages of client `c` that the server has still to handle. -/
def State.asked (s : State) (c : ℕ) : List Msg := s.inbound.filter fun m => m.sender = c

/-- The response that the server is about to put into the queue of client `c`. -/
def State.way (s : State) (c : ℕ) : List Response :=
  match s.pc with
  | .respond r _ => if (s.clients r.clientId).queue = some c then [r] else []
  | _ => []

/-- `r` is the response to `m`, where the sender of `m` has been given the slot `given`. -/
def Replies (given : Option Slot) (m : Msg) (r : Response) : Prop :=
  if m.type = .handshake then given = some r.clientId
  else ∃ out, r = ⟨m.clientId, responseText m out⟩

/-- Nothing of client `c` is under way. -/
def State.Quiet (s : State) (c : ℕ) (k : Client) : Prop :=
  s.asked c = [] ∧ k.inbox ++ s.way c = []

/-- Of client `c`, its last message is under way, or the response to it. -/
def State.Waits (s : State) (c : ℕ) (k : Client) : Prop :=
  ∃ m, (s.sent c).getLast? = some m ∧ m.type ≠ .stop ∧ m.type ≠ .end ∧
    (m.type = .handshake ↔ k.pc = .shaken) ∧
    (s.asked c = [m] ∧ k.inbox ++ s.way c = [] ∨
      s.asked c = [] ∧ ∃ r, Replies (s.given c) m r ∧ k.inbox ++ s.way c = [r])

/-- What is under way of client `c`, by where it is. After `END` it waits for nothing. -/
def State.Turn (s : State) (c : ℕ) (k : Client) : Prop :=
  match k.pc with
  | .shaken => s.Waits c k
  | .response => s.Waits c k
  | .request type _ => type ≠ .end ∧ s.Quiet c k
  | .start => s.Quiet c k
  | .shake => s.Quiet c k
  | .assign _ => s.Quiet c k
  | .read => s.Quiet c k
  | .sendEnd => s.Quiet c k
  | _ => True

/-- What holds in a run without failures. -/
structure State.Exchange (s : State) : Prop where
  /-- the queue of a client exists until the client leaves -/
  key : ∀ c k, s.client c = some k → k.pc.phase ≠ .exiting → s.key k.queueKey = some c
  /-- a message carries the key of its sender -/
  carries : ∀ c k, s.client c = some k → ∀ m ∈ s.sent c, m.queueKey = k.queueKey
  /-- a response goes to a client, and has the type `0` for the one in slot `0` only -/
  respond : ∀ r req, s.pc = .respond r req →
    ∃ c k, (s.clients r.clientId).queue = some c ∧ s.client c = some k ∧
      (r.clientId = 0 → s.given c = some 0)
  turn : ∀ c k, s.client c = some k → s.given c ≠ some 0 → s.Turn c k
  /-- the server leaves nothing behind -/
  ended : s.pc = .exited → s.queue = []

section

variable {s s' : State} {c : ℕ} {k k' : Client} {m : Msg}

theorem turn_of_exiting (h : k.pc.phase = .exiting) : s.Turn c k := by
  unfold State.Turn
  cases hpc : k.pc <;> first | trivial | (rw [hpc] at h; cases h)

/-- A client whose messages and responses stay where they are. -/
theorem State.Turn.congr (h : s.Turn c k) (hpc : k'.pc = k.pc)
    (hin : k'.inbox ++ s'.way c = k.inbox ++ s.way c) (hasked : s'.asked c = s.asked c)
    (hsent : s'.sent c = s.sent c) (hgiven : s'.given c = s.given c) : s'.Turn c k' := by
  unfold State.Turn State.Waits State.Quiet at *
  rw [hpc, hin, hasked, hsent, hgiven]
  exact h

/-- A client with a message under way waits, or has left its loop. -/
theorem State.Turn.of_asked (h : s.Turn c k) (hask : s.asked c ≠ [])
    (hw : k.pc = .shaken ∨ k.pc = .response → s.Waits c k → s'.Waits c k) : s'.Turn c k := by
  cases hpc : k.pc with
  | shaken =>
    simp only [State.Turn, hpc] at h ⊢
    exact hw (.inl hpc) h
  | response =>
    simp only [State.Turn, hpc] at h ⊢
    exact hw (.inr hpc) h
  | request type text =>
    simp only [State.Turn, hpc] at h
    exact absurd h.2.1 hask
  | start | shake | assign | read | sendEnd =>
    simp only [State.Turn, hpc] at h
    exact absurd h.1 hask
  | setNostop | exit | cleanup | remove | ended => simp only [State.Turn, hpc]

theorem way_of_not_respond (h : ∀ r req, s.pc ≠ .respond r req) : s.way c = [] := by
  unfold State.way
  split
  · exact absurd ‹_› (h _ _)
  · rfl

/-- No response is under way to one that is no client. -/
theorem State.Exchange.way_absent (h : s.Exchange) (hc : s.client c = none) : s.way c = [] := by
  unfold State.way
  split
  · rename_i r req hpc
    obtain ⟨d, k, hd, hk, -⟩ := h.respond r req hpc
    refine if_neg fun hq => ?_
    rw [hd] at hq
    rw [Option.some.inj hq, hc] at hk
    cases hk
  · rfl

theorem State.Ok.asked_absent (h : s.Ok) (hc : s.client c = none) : s.asked c = [] := by
  have ho := h.order c
  rw [h.absent c hc, List.append_eq_nil_iff] at ho
  exact ho.2

/-! ## The steps of a client -/

theorem phase_sigint (h : sigint k = some k') : k'.pc.phase = .exiting := by
  unfold sigint at h
  split at h <;> cases h <;> rfl

/-- A client that is leaving goes on leaving. -/
theorem phase_clientNext {x : Input} {e : Effect} (hx : clientNext c k x = some (k', e))
    (hp : k'.pc.phase ≠ .exiting) : k.pc.phase ≠ .exiting := by
  intro hexit
  refine hp ?_
  cases x with
  | sigint =>
    obtain ⟨k'', hk, hp⟩ := Option.map_eq_some_iff.mp hx
    cases hp
    exact phase_sigint hk
  | step ok line =>
    simp only [clientNext, clientStep] at hx
    split at hx
    all_goals rename_i hpc
    all_goals first
      | (rw [hpc] at hexit; cases hexit; done)
      | (repeat' split at hx)
    all_goals cases hx
    all_goals rfl

/-- What a line of commands leads to. -/
theorem command_cases (line : List UInt8) :
    (∃ type text, command line = .request type text ∧ type ≠ .end) ∨
      command line = .sendEnd ∨ command line = .read := by
  unfold command
  simp only
  repeat' split
  · exact .inl ⟨_, _, rfl, by decide⟩
  · exact .inl ⟨_, _, rfl, by decide⟩
  · exact .inl ⟨_, _, rfl, by decide⟩
  · exact .inr (.inl rfl)
  · exact .inr (.inr rfl)

/-- The client goes on, and nothing is sent. -/
theorem State.Quiet.next {e : Effect} (h : s.Quiet c k) (he : e.msgs = [])
    (hin : k'.inbox = k.inbox) (hasked : s'.asked c = s.asked c ++ e.msgs)
    (hway : s'.way c = s.way c) : s'.Quiet c k' := by
  refine ⟨?_, ?_⟩
  · rw [hasked, he, h.1]
    rfl
  · rw [hin, hway]
    exact h.2

/-- The client sends a message that is answered. -/
theorem State.Quiet.ask {e : Effect} (h : s.Quiet c k) (he : e.msgs = [m]) (hstop : m.type ≠ .stop)
    (hend : m.type ≠ .end) (hhs : m.type = .handshake ↔ k'.pc = .shaken)
    (hin : k'.inbox = k.inbox) (hasked : s'.asked c = s.asked c ++ e.msgs)
    (hway : s'.way c = s.way c) (hsent : s'.sent c = s.sent c ++ e.msgs) : s'.Waits c k' := by
  refine ⟨m, ?_, hstop, hend, hhs, .inl ⟨?_, ?_⟩⟩
  · rw [hsent, he]
    exact List.getLast?_concat
  · rw [hasked, he, h.1]
    rfl
  · rw [hin, hway]
    exact h.2

/-- The client takes the response. -/
theorem State.Waits.take {e : Effect} {r : Response} {rs : List Response} (h : s.Waits c k)
    (hin : k.inbox = r :: rs) (hin' : k'.inbox = rs) (he : e.msgs = [])
    (hasked : s'.asked c = s.asked c ++ e.msgs) (hway : s'.way c = s.way c) :
    s'.Quiet c k' := by
  obtain ⟨m, -, -, -, -, ⟨-, hw⟩ | ⟨ha, r', -, hw⟩⟩ := h
  · rw [hin] at hw
    cases hw
  · rw [hin, List.cons_append, List.cons.injEq] at hw
    refine ⟨?_, ?_⟩
    · rw [hasked, he, ha]
      rfl
    · rw [hin', hway]
      exact hw.2

/-- A step of client `c`. -/
theorem State.Turn.client_step {x : Input} {e : Effect} (h : s.Turn c k)
    (hk : s.client c = some k) (hx : clientNext c k x = some (k', e))
    (hsm : Smooth s (.client c x)) (hok : ClientOk c k (s.sent c))
    (hasked : s'.asked c = s.asked c ++ e.msgs) (hway : s'.way c = s.way c)
    (hsent : s'.sent c = s.sent c ++ e.msgs) : s'.Turn c k' := by
  by_cases hexit : k'.pc.phase = .exiting
  · exact turn_of_exiting hexit
  cases x with
  | sigint =>
    obtain ⟨k'', hk, hp⟩ := Option.map_eq_some_iff.mp hx
    cases hp
    exact turn_of_exiting (phase_sigint hk)
  | step ok line =>
    obtain rfl : ok = true :=
      hsm.1.resolve_right fun hleave => phase_clientNext hx hexit (hleave k hk)
    simp only [clientNext, clientStep, if_true] at hx
    split at hx
    all_goals rename_i hpc
    all_goals simp only [State.Turn, hpc] at h
    · cases hx
      exact h.next rfl rfl hasked hway
    · cases hx
      exact h.ask rfl (by simp [Client.msg]) (by simp [Client.msg]) (by simp [Client.msg]) rfl
        hasked hway hsent
    · split at hx <;> cases hx
      exact h.take ‹_› rfl rfl hasked hway
    · cases hx
      exact h.next rfl rfl hasked hway
    · split at hx <;> cases hx
      · exact turn_of_exiting rfl
      · rename_i line
        have hq : s'.Quiet c { k with pc := command line } := h.next rfl rfl hasked hway
        obtain ⟨type, text, hline, hend⟩ | hline | hline := command_cases line
        all_goals rw [hline] at hq ⊢
        · exact ⟨hend, hq⟩
        · exact hq
        · exact hq
    · cases hx
      obtain ⟨hhs, hstop⟩ := hok.request _ _ hpc
      exact h.2.ask rfl hstop h.1 (by simpa [Client.msg] using hhs) rfl hasked hway hsent
    · split at hx <;> cases hx
      exact h.take ‹_› rfl rfl hasked hway
    · cases hx
      trivial
    · cases hx
      exact turn_of_exiting rfl
    · cases hx
      exact turn_of_exiting rfl
    · cases hx
      exact turn_of_exiting rfl
    · cases hx
      refine turn_of_exiting ?_
      split <;> rfl
    · cases hx

theorem carries_clientNext {x : Input} {e : Effect} (hx : clientNext c k x = some (k', e)) :
    ∀ m ∈ e.msgs, m.queueKey = k.queueKey := by
  cases x with
  | sigint =>
    obtain ⟨k'', -, hp⟩ := Option.map_eq_some_iff.mp hx
    cases hp
    simp [Effect.msgs]
  | step ok line =>
    simp only [clientNext, clientStep] at hx
    repeat' split at hx
    all_goals cases hx
    all_goals simp [Effect.msgs, Client.msg]

/-! ## The texts fit -/

/-- The text that a client is about to send fits into `msg.buf`. -/
def Pc.TextFits : Pc → Prop
  | .request _ text => text.length < msgBufSize
  | _ => True

theorem Pc.textFits_of_exiting {pc : Pc} (h : pc.phase = .exiting) : pc.TextFits := by
  cases pc <;> trivial

theorem textFits_command {line : List UInt8} (h : MsgQueue.TextFits line) :
    (command line).TextFits := by
  unfold command
  simp only
  repeat' split
  all_goals first | exact h | trivial

/-- A client sends the text that it has read, or none. -/
theorem textFits_clientNext {x : Input} {e : Effect} (hsm : Smooth s (.client c x))
    (hx : clientNext c k x = some (k', e)) (hk : k.pc.TextFits) :
    k'.pc.TextFits ∧ ∀ m ∈ e.msgs, m.buf.length < msgBufSize := by
  have hempty : ∀ type, (k.msg c type []).buf.length < msgBufSize := fun _ => by
    show 0 < msgBufSize
    decide
  cases x with
  | sigint =>
    obtain ⟨k'', hk', hp⟩ := Option.map_eq_some_iff.mp hx
    cases hp
    exact ⟨Pc.textFits_of_exiting (phase_sigint hk'), by simp [Effect.msgs]⟩
  | step ok line =>
    simp only [clientNext, clientStep] at hx
    split at hx
    all_goals rename_i hpc
    case h_5 =>
      -- what has been read
      split at hx <;> cases hx
      · exact ⟨trivial, by simp [Effect.msgs]⟩
      · exact ⟨textFits_command (hsm.2 _ rfl), by simp [Effect.msgs]⟩
    case h_6 =>
      -- what is sent
      rw [hpc] at hk
      cases hx
      refine ⟨trivial, fun m hm => ?_⟩
      split at hm
      · obtain rfl := List.mem_singleton.mp hm
        exact hk
      · cases hm
    all_goals repeat' split at hx
    all_goals cases hx
    all_goals refine ⟨trivial, fun m hm => ?_⟩
    all_goals first
      | cases hm; done
      | (obtain rfl := List.mem_singleton.mp hm; exact hempty _)

/-- What the clients are about to send, and what they have sent. -/
structure State.TextsFit (s : State) : Prop where
  pc : ∀ c k, s.client c = some k → k.pc.TextFits
  sent : ∀ c, ∀ m ∈ s.sent c, m.buf.length < msgBufSize

theorem State.TextsFit.client_step {x : Input} {e : Effect} (h : s.TextsFit)
    (hk : s.client c = some k) (hx : clientNext c k x = some (k', e))
    (hsm : Smooth s (.client c x)) (hn : s.put c k' e = some s') : s'.TextsFit := by
  obtain ⟨-, -, -, -, -, -, hclient, -, hsent⟩ := put_eq hn
  obtain ⟨hpc, hmsgs⟩ := textFits_clientNext hsm hx (h.pc c k hk)
  refine ⟨fun d l hd => ?_, fun d m hm => ?_⟩
  · by_cases hdc : d = c
    · rw [hclient, hdc, Function.update_self] at hd
      exact Option.some.inj hd ▸ hpc
    · rw [hclient, Function.update_of_ne hdc] at hd
      exact h.pc d l hd
  · by_cases hdc : d = c
    · rw [hsent, hdc, Function.update_self] at hm
      obtain hm | hm := List.mem_append.mp hm
      · exact h.sent c m hm
      · exact hmsgs m hm
    · rw [hsent, Function.update_of_ne hdc] at hm
      exact h.sent d m hm

/-! ## The steps of the system -/

theorem State.Exchange.start {key : ℕ} (h : s.Exchange) (hok : s.Ok)
    (hn : startClient s c key = some s') : s'.Exchange := by
  unfold startClient at hn
  split at hn <;> cases hn
  rename_i hfree
  obtain ⟨hnone, hkey, -⟩ := hfree
  refine ⟨fun d k hd hp => ?_, fun d k hd => ?_, fun r req hpc => ?_, fun d k hd h0 => ?_,
    h.ended⟩
  · by_cases hdc : d = c
    · subst hdc
      obtain rfl : Client.new key = k := by simpa using hd
      simp [Client.new]
    · have hd := h.key d k (by simpa [Function.update_of_ne hdc] using hd) hp
      have hne : k.queueKey ≠ key := fun he => by rw [he, hkey] at hd; cases hd
      simpa [Function.update_of_ne hne] using hd
  · by_cases hdc : d = c
    · subst hdc
      simp [hok.absent d hnone]
    · exact h.carries d k (by simpa [Function.update_of_ne hdc] using hd)
  · obtain ⟨d, k, hq, hk, hzero⟩ := h.respond r req hpc
    have hdc : d ≠ c := fun hdc => by rw [hdc, hnone] at hk; cases hk
    exact ⟨d, k, hq, by simpa [Function.update_of_ne hdc] using hk, hzero⟩
  · by_cases hdc : d = c
    · subst hdc
      obtain rfl : Client.new key = k := by simpa using hd
      exact ⟨hok.asked_absent hnone, h.way_absent hnone⟩
    · exact (h.turn d k (by simpa [Function.update_of_ne hdc] using hd) h0).congr rfl rfl rfl rfl
        rfl

theorem put_asked {e : Effect} (hn : s.put c k' e = some s') (hfrom : ∀ m ∈ e.msgs, m.sender = c)
    (d : ℕ) : s'.asked d = if d = c then s.asked d ++ e.msgs else s.asked d := by
  have hmsgs : (e.msgs.filter fun m => m.sender = d) = if d = c then e.msgs else [] := by
    split
    · rename_i hdc
      exact List.filter_eq_self.mpr fun m hm => by simp [hfrom m hm, hdc]
    · rename_i hdc
      exact List.filter_eq_nil_iff.mpr fun m hm => by simpa [hfrom m hm] using Ne.symm hdc
  rw [State.asked, State.asked, put_inbound hn, List.filter_append, hmsgs]
  split
  · rfl
  · exact List.append_nil _

theorem put_key {e : Effect} (hn : s.put c k' e = some s') (i : ℕ) :
    s'.key i = s.key i ∨ s.key i = some c ∧ e = .remove := by
  cases e with
  | nothing => cases hn; exact .inl rfl
  | send m =>
    simp only [State.put] at hn
    split at hn <;> cases hn
    exact .inl rfl
  | remove =>
    cases hn
    by_cases hkey : s.key k'.queueKey = some c
    · by_cases hi : i = k'.queueKey
      · subst hi
        exact .inr ⟨hkey, rfl⟩
      · exact .inl (by simp [hkey, Function.update_of_ne hi])
    · exact .inl (by simp [hkey])

/-- Nothing is sent to a server that has exited. -/
theorem msgs_of_exited {e : Effect} (hpc : s.pc = .exited) (hn : s.put c k' e = some s') :
    e.msgs = [] := by
  cases e with
  | nothing => rfl
  | send m => simp [State.put, State.running, hpc] at hn
  | remove => rfl

theorem exiting_of_remove {x : Input} (hx : clientNext c k x = some (k', .remove)) :
    k'.pc.phase = .exiting := by
  cases x with
  | sigint =>
    obtain ⟨k'', -, hp⟩ := Option.map_eq_some_iff.mp hx
    cases hp
  | step ok line =>
    simp only [clientNext, clientStep] at hx
    repeat' split at hx
    all_goals cases hx
    all_goals rfl

/-- The clients after a step of client `c`, which is now `k'`. -/
theorem put_client {e : Effect} {d : ℕ} {l : Client} (hn : s.put c k' e = some s')
    (hd : s'.client d = some l) : d = c ∧ l = k' ∨ d ≠ c ∧ s.client d = some l := by
  obtain ⟨-, -, -, -, -, -, hclient, -, -⟩ := put_eq hn
  rw [hclient] at hd
  by_cases hdc : d = c
  · subst hdc
    rw [Function.update_self] at hd
    exact .inl ⟨rfl, (Option.some.inj hd).symm⟩
  · rw [Function.update_of_ne hdc] at hd
    exact .inr ⟨hdc, hd⟩

section

variable {x : Input} {e : Effect} {d : ℕ} {l : Client}

/-- Only a client that leaves removes its queue. -/
theorem State.Exchange.client_key (h : s.Exchange) (hk : s.client c = some k)
    (hx : clientNext c k x = some (k', e)) (hn : s.put c k' e = some s')
    (hd : s'.client d = some l) (hp : l.pc.phase ≠ .exiting) : s'.key l.queueKey = some d := by
  obtain ⟨rfl, rfl⟩ | ⟨hdc, hd⟩ := put_client hn hd
  · have hkey : s.key l.queueKey = some d := by
      rw [(clientNext_eq hx).1]
      exact h.key d k hk (phase_clientNext hx hp)
    obtain he | ⟨-, rfl⟩ := put_key hn l.queueKey
    · rw [he, hkey]
    · exact absurd (exiting_of_remove hx) hp
  · have hkey := h.key d l hd hp
    obtain he | ⟨hc, -⟩ := put_key hn l.queueKey
    · rw [he, hkey]
    · exact absurd (Option.some.inj (hkey.symm.trans hc)) hdc

theorem State.Exchange.client_carries (h : s.Exchange) (hk : s.client c = some k)
    (hx : clientNext c k x = some (k', e)) (hn : s.put c k' e = some s')
    (hd : s'.client d = some l) : ∀ m ∈ s'.sent d, m.queueKey = l.queueKey := by
  intro m hm
  obtain ⟨-, -, -, -, -, -, -, -, hsent⟩ := put_eq hn
  rw [hsent] at hm
  obtain ⟨rfl, rfl⟩ | ⟨hdc, hd⟩ := put_client hn hd
  · rw [Function.update_self] at hm
    rw [(clientNext_eq hx).1]
    obtain hm | hm := List.mem_append.mp hm
    · exact h.carries d k hk m hm
    · exact carries_clientNext hx m hm
  · rw [Function.update_of_ne hdc] at hm
    exact h.carries d l hd m hm

theorem State.Exchange.client_step (h : s.Exchange) (hok : s.Ok)
    (hk : s.client c = some k) (hx : clientNext c k x = some (k', e))
    (hsm : Smooth s (.client c x)) (hn : s.put c k' e = some s') : s'.Exchange := by
  obtain ⟨hpc, hclients, -, hgiven, -, -, hclient, hqueue, hsent⟩ := put_eq hn
  have hokc := clientNext_ok (hok.client c k hk) hx
  have hasked := put_asked hn fun m hm => hokc.sender m (List.mem_append_right _ hm)
  have hway : ∀ d, s'.way d = s.way d := fun d => by
    rw [State.way, State.way, hpc, hclients]
  refine ⟨fun d l hd hp => h.client_key hk hx hn hd hp,
    fun d l hd => h.client_carries hk hx hn hd, fun r req hr => ?_, fun d l hd h0 => ?_,
    fun he => ?_⟩
  · rw [hpc] at hr
    rw [hclients, hgiven]
    obtain ⟨d, l, hq, hl, hzero⟩ := h.respond r req hr
    by_cases hdc : d = c
    · exact ⟨d, k', hq, by rw [hclient, hdc, Function.update_self], hzero⟩
    · exact ⟨d, l, hq, by rw [hclient, Function.update_of_ne hdc, hl], hzero⟩
  · rw [hgiven] at h0
    obtain ⟨rfl, rfl⟩ | ⟨hdc, hd⟩ := put_client hn hd
    · refine (h.turn d k hk h0).client_step hk hx hsm (hok.client d k hk) ?_ (hway d) ?_
      · rw [hasked, if_pos rfl]
      · rw [hsent, Function.update_self]
    · refine (h.turn d l hd h0).congr rfl ?_ ?_ ?_ ?_
      · rw [hway]
      · rw [hasked, if_neg hdc]
      · rw [hsent, Function.update_of_ne hdc]
      · rw [hgiven]
  · rw [hpc] at he
    rw [hqueue, h.ended he, msgs_of_exited he hn]
    rfl

end

/-! ### The server -/

/-- A HANDSHAKE that can be answered. -/
theorem handle_handshake {d : ℕ} {i : Slot} {out : List UInt8} {stale : Option ℕ}
    (ht : m.type = .handshake) (hkey : s.key m.queueKey = some d)
    (hfree : freeSlot s.clients = some i) :
    handle s m out stale = { s with
      clients := Function.update s.clients i ⟨m.sender, i, false, some d⟩
      given := Function.update s.given m.sender (some i) }.done m (.respond ⟨i, out⟩ none) := by
  have hnot : ¬(m.type ≠ .handshake ∧ (s.clients m.clientId).stopped = true) := fun h => h.1 ht
  rw [handle, if_neg hnot]
  simp only [ht, handshake, hfree, hkey]

/-- A request for an active slot. -/
theorem handle_request {out : List UInt8} {stale : Option ℕ} (hhs : m.type ≠ .handshake)
    (hstop : m.type ≠ .stop) (hend : m.type ≠ .end) (hact : s.active m.clientId) :
    handle s m out stale =
      s.done m (.respond ⟨m.clientId, responseText m out⟩ (some m.sender)) := by
  have hgo : (s.clients m.clientId).stopped = false := hact
  rw [handle, if_neg (by simp [hgo])]
  split
  · exact absurd ‹_› hhs
  · exact absurd ‹_› hstop
  · exact absurd ‹_› hend
  · rfl

/-- What handling a message leaves as it is. -/
theorem handle_frame (s : State) (m : Msg) (out : List UInt8) (stale : Option ℕ) :
    (handle s m out stale).client = s.client ∧ (handle s m out stale).key = s.key ∧
      (handle s m out stale).queue = s.queue ∧ (handle s m out stale).sent = s.sent ∧
      (handle s m out stale).inbound = s.queue ∧ (handle s m out stale).pc ≠ .exited ∧
      ∀ c, c ≠ m.sender → (handle s m out stale).given c = s.given c := by
  obtain ⟨he, -⟩ | ⟨cid, queue, pc, -, -, hpc, he⟩ | ⟨-, -, he⟩ | ⟨-, he⟩ | ⟨-, -, -, he⟩ :=
    handle_cases s m out stale
  all_goals rw [he]
  · exact ⟨rfl, rfl, rfl, rfl, rfl, by simp [State.done], fun _ _ => rfl⟩
  · refine ⟨rfl, rfl, rfl, rfl, ?_, ?_, fun c hc => Function.update_of_ne hc ..⟩
    all_goals obtain rfl | ⟨d, -, rfl⟩ := hpc
    · rfl
    · rfl
    · simp [State.done]
    · simp [State.done]
  · exact ⟨rfl, rfl, rfl, rfl, rfl, by simp [stop, State.done], fun _ _ => rfl⟩
  · exact ⟨rfl, rfl, rfl, rfl, rfl, by simp [State.done], fun _ _ => rfl⟩
  · exact ⟨rfl, rfl, rfl, rfl, rfl, by simp [State.done], fun _ _ => rfl⟩

/-- A client keeps the slot that it has been given. -/
theorem handle_given {i : Slot} {out : List UInt8} {stale : Option ℕ} (hok : s.Ok)
    (hpc : s.pc = .handle m) (hg : s.given c = some i) :
    (handle s m out stale).given c = some i := by
  by_cases hc : c = m.sender
  · have hne : m.type ≠ .handshake := fun ht => by
      refine hok.given c (by rw [hg]; exact Option.some_ne_none i) ?_
      rw [hc]
      exact hok.hand_handshake hpc ht
    obtain ⟨he, -⟩ | ⟨-, -, -, ht, -⟩ | ⟨-, -, he⟩ | ⟨-, he⟩ | ⟨-, -, -, he⟩ :=
      handle_cases s m out stale
    · rw [he]; exact hg
    · exact absurd ht hne
    all_goals rw [he]; exact hg
  · obtain ⟨-, -, -, -, -, -, hgiven⟩ := handle_frame s m out stale
    rw [hgiven c hc, hg]

/-- A response goes to the sender of the message, and has the type `0` for the one in
    slot `0` only. -/
theorem handle_respond {r : Response} {req : Option ℕ} {out : List UInt8} {stale : Option ℕ}
    (hok : s.Ok) (howned : (handle s m out stale).Owned) (hpc : s.pc = .handle m)
    (hwel : s.pc.welcomes s) (hr : (handle s m out stale).pc = .respond r req) :
    ((handle s m out stale).clients r.clientId).queue = some m.sender ∧
      (r.clientId = 0 → (handle s m out stale).given m.sender = some 0) := by
  by_cases ht : m.type = .handshake
  · have he : handle s m out stale = handshake s m out stale := by simp [handle, ht]
    rw [he] at hr
    obtain ⟨hfree, hkey⟩ := handshake_respond hr
    rw [hpc] at hwel
    rw [handle_handshake ht (hwel ht hkey).1 hfree]
    refine ⟨by simp [State.done], fun h0 => ?_⟩
    rw [← h0]
    simp [State.done]
  · -- a request carries the id of its sender
    obtain ⟨k, hk, hokk⟩ := hok.hand_client hpc
    have hmem : m ∈ s.sent m.sender := by
      rw [← hok.hand_mem hpc]
      simp
    have hreq : req = some m.sender ∧ r.clientId ≠ 0 := by
      obtain ⟨he, -⟩ | ⟨-, -, -, hhs, -⟩ | ⟨-, -, he⟩ | ⟨-, he⟩ | ⟨-, hstop, -, he⟩ :=
        handle_cases s m out stale
      · rw [he] at hr; cases hr
      · exact absurd hhs ht
      · rw [he] at hr; cases hr
      · rw [he] at hr; cases hr
      · rw [he] at hr
        cases hr
        exact ⟨rfl, hokk.requests m hmem ht hstop⟩
    exact ⟨(howned.answers r req hr).2 m.sender hreq.1, fun h0 => absurd h0 hreq.2⟩

/-- The message of a client that waits is answered. -/
theorem handle_replies (out : List UInt8) (stale : Option ℕ) (hok : s.Ok) (howned : s.Owned)
    (h : s.Exchange) (hpc : s.pc = .handle m) (hk : s.client m.sender = some k)
    (hp : k.pc = .shaken ∨ k.pc = .response) (hstop : m.type ≠ .stop) (hend : m.type ≠ .end)
    (hwel : s.pc.welcomes s) :
    ∃ r req, (handle s m out stale).pc = .respond r req ∧
      Replies ((handle s m out stale).given m.sender) m r := by
  have hmem : m ∈ s.sent m.sender := by
    rw [← hok.hand_mem hpc]
    simp
  have hokk := hok.client _ k hk
  by_cases ht : m.type = .handshake
  · have hkey : s.key m.queueKey = some m.sender := by
      rw [h.carries _ k hk m hmem]
      refine h.key _ k hk ?_
      obtain hp | hp := hp <;> rw [hp] <;> decide
    rw [hpc] at hwel
    obtain ⟨-, hfree⟩ := hwel ht (by rw [hkey]; exact Option.some_ne_none _)
    obtain ⟨i, hi⟩ := Option.ne_none_iff_exists'.mp hfree
    rw [handle_handshake ht hkey hi]
    exact ⟨⟨i, out⟩, none, rfl, by simp [Replies, ht, State.done]⟩
  · -- a request comes from the loop, so its sender has a slot
    have hrun : k.pc.phase = .running := by
      obtain hp | hp := hp
      · exact absurd (hokk.waiting (by rw [hp]; rfl) m hmem) ht
      · rw [hp]; rfl
    have hact : s.active m.clientId := by
      rw [hok.hand_id hpc ht hk]
      exact (howned.holds _ k _ hk (.inl ⟨rfl, (hokk.running hrun).2,
        hok.not_gone (hokk.running hrun).1⟩)).1
    rw [handle_request ht hstop hend hact]
    exact ⟨_, _, rfl, by simp [Replies, ht]⟩

theorem State.Exchange.handle_step {out : List UInt8} {stale : Option ℕ} (h : s.Exchange)
    (hok : s.Ok) (howned : s.Owned) (howned' : (handle s m out stale).Owned)
    (hpc : s.pc = .handle m) (hwel : s.pc.welcomes s) : (handle s m out stale).Exchange := by
  obtain ⟨hclient, hkey, hqueue, hsent, hin, hexited, hgiven⟩ := handle_frame s m out stale
  have hresp : ∀ {r req}, (handle s m out stale).pc = .respond r req →
      ((handle s m out stale).clients r.clientId).queue = some m.sender ∧
        (r.clientId = 0 → (handle s m out stale).given m.sender = some 0) :=
    handle_respond hok howned' hpc hwel
  obtain ⟨ks, hks, -⟩ := hok.hand_client hpc
  have hwayS : ∀ d, s.way d = [] := fun d => way_of_not_respond fun r req hr => by
    rw [hpc] at hr
    cases hr
  have hasked : ∀ d, (handle s m out stale).asked d = s.queue.filter fun m => m.sender = d :=
    fun d => by rw [State.asked, hin]
  have hway : ∀ d, d ≠ m.sender → (handle s m out stale).way d = [] := fun d hd => by
    unfold State.way
    split
    · rename_i r req hr
      refine if_neg fun hq => hd ?_
      rw [(hresp hr).1] at hq
      exact (Option.some.inj hq).symm
    · rfl
  refine ⟨?_, ?_, fun r req hr => ⟨m.sender, ks, (hresp hr).1, by rw [hclient, hks], (hresp hr).2⟩,
    fun d l hd h0 => ?_, fun he => absurd he hexited⟩
  · rw [hclient, hkey]
    exact h.key
  · rw [hclient, hsent]
    exact h.carries
  · rw [hclient] at hd
    have hturn := h.turn d l hd fun hg => h0 (handle_given hok hpc hg)
    by_cases hdm : d = m.sender
    · subst hdm
      have hask : s.asked m.sender = m :: s.queue.filter fun m' => m'.sender = m.sender := by
        simp [State.asked, State.inbound, hpc]
      refine hturn.of_asked (by rw [hask]; exact List.cons_ne_nil _ _) ?_
      rintro hp ⟨m', hlast, hstop, hend, hhs, hw⟩
      obtain ⟨ha, hw⟩ | ⟨ha, -⟩ := hw
      all_goals rw [hask] at ha
      · obtain ⟨rfl, hrest⟩ := List.cons.inj ha
        obtain ⟨r, req, hr, hrep⟩ :=
          handle_replies out stale hok howned h hpc hd hp hstop hend hwel
        rw [hwayS, List.append_nil] at hw
        refine ⟨m, by rw [hsent, hlast], hstop, hend, hhs,
          .inr ⟨by rw [hasked, hrest], r, hrep, ?_⟩⟩
        simp [hw, State.way, hr, (hresp hr).1]
      · cases ha
    · refine hturn.congr rfl ?_ ?_ ?_ (hgiven d hdm)
      · rw [hway d hdm, hwayS d]
      · rw [hasked]
        simp [State.asked, State.inbound, hpc, Ne.symm hdm]
      · rw [hsent]

/-- The response to client `c` is put into its queue, unless its type is `0` or the queue is
    gone. -/
theorem respond_client {r : Response} (req : Option ℕ)
    (hq : (s.clients r.clientId).queue = some c) (hk : s.client c = some k) :
    respond s r req true = { s with
      pc := .receive
      client := Function.update s.client c (some { k with inbox := k.inbox ++ [r] })
      responded := s.responded ++ (req.map (·, c)).toList } ∨
    (r.clientId = 0 ∨ s.key k.queueKey ≠ some c) ∧
      respond s r req true = { s with pc := .receive } := by
  by_cases hr : r.clientId = 0
  · exact .inr ⟨.inl hr, by simp [respond, hr]⟩
  · by_cases hkey : s.key k.queueKey = some c
    · exact .inl (by simp [respond, hr, hq, State.deliver, hk, hkey])
    · exact .inr ⟨.inr hkey, by simp [respond, hr, hq, State.deliver, hk, hkey]⟩

theorem State.Exchange.respond_step {r : Response} {req : Option ℕ} (h : s.Exchange)
    (hpc : s.pc = .respond r req) : (MsgQueue.respond s r req true).Exchange := by
  obtain ⟨c, k, hq, hk, hzero⟩ := h.respond r req hpc
  have hway : ∀ d, s.way d = if d = c then [r] else [] := fun d => by
    simp only [State.way, hpc, hq, Option.some.injEq, eq_comm]
  have hin : s.inbound = s.queue := by rw [State.inbound, hpc]
  obtain he | ⟨hlost, he⟩ := respond_client req hq hk
  all_goals rw [he]
  · have hcl : ∀ {d l}, Function.update s.client c (some { k with inbox := k.inbox ++ [r] }) d =
        some l → ∃ l', s.client d = some l' ∧ l.pc = l'.pc ∧ l.queueKey = l'.queueKey ∧
          l.inbox = l'.inbox ++ s.way d := fun {d l} hd => by
      by_cases hdc : d = c
      · subst hdc
        obtain rfl : { k with inbox := k.inbox ++ [r] } = l := by simpa using hd
        exact ⟨k, hk, rfl, rfl, by rw [hway, if_pos rfl]⟩
      · exact ⟨l, by simpa [Function.update_of_ne hdc] using hd, rfl, rfl, by
          rw [hway, if_neg hdc, List.append_nil]⟩
    refine ⟨fun d l hd hp => ?_, fun d l hd => ?_, fun _ _ hr => (by cases hr),
      fun d l hd h0 => ?_, fun he => by cases he⟩
    all_goals obtain ⟨l', hl', hpc', hkey', hinbox⟩ := hcl hd
    · rw [hkey']
      exact h.key d l' hl' (hpc' ▸ hp)
    · rw [hkey']
      exact h.carries d l' hl'
    · refine (h.turn d l' hl' h0).congr hpc' ?_ ?_ rfl rfl
      · rw [hinbox]
        exact List.append_nil _
      · rw [State.asked, State.asked, hin]
        rfl
  · refine ⟨h.key, h.carries, fun _ _ hr => (by cases hr), fun d l hd h0 => ?_,
      fun he => by cases he⟩
    by_cases hdc : d = c
    · -- a client whose queue is gone is leaving
      subst hdc
      obtain rfl : k = l := Option.some.inj (hk.symm.trans hd)
      have hkey := hlost.resolve_left fun hr => h0 (hzero hr)
      exact turn_of_exiting (by_contra fun hp => hkey (h.key d k hk hp))
    · refine (h.turn d l hd h0).congr rfl ?_ ?_ rfl rfl
      · rw [hway, if_neg hdc]
        rfl
      · rw [State.asked, State.asked, hin]
        rfl

/-- The server takes a message or exits: what is under way stays under way. -/
theorem State.Exchange.receive_step (h : s.Exchange) (hclient : s'.client = s.client)
    (hkey : s'.key = s.key) (hsent : s'.sent = s.sent) (hgiven : s'.given = s.given)
    (hin : s'.inbound = s.inbound) (hpc : ∀ r req, s.pc ≠ .respond r req)
    (hpc' : ∀ r req, s'.pc ≠ .respond r req) (hended : s'.pc = .exited → s'.queue = []) :
    s'.Exchange where
  key := by rw [hclient, hkey]; exact h.key
  carries := by rw [hclient, hsent]; exact h.carries
  respond r req hr := absurd hr (hpc' r req)
  turn c k hc h0 := by
    refine (h.turn c k (hclient ▸ hc) (hgiven ▸ h0)).congr rfl ?_ ?_ (by rw [hsent])
      (by rw [hgiven])
    · rw [way_of_not_respond hpc, way_of_not_respond hpc']
    · rw [State.asked, State.asked, hin]
  ended := hended

theorem exchange_initial : State.initial.Exchange :=
  ⟨fun _ _ hc => (by cases hc), fun _ _ hc => (by cases hc), fun _ _ hr => (by cases hr),
    fun _ _ hc _ => (by cases hc), fun _ => rfl⟩

theorem reachIf_exchange (h : system.ReachIf Smooth s) : s.Exchange := by
  refine Machine.ReachIf.invariant_of (I := fun s : State => s.Exchange)
    (J := fun s : State => s.Ok ∧ s.Owned) h
    (fun s hr => ⟨reach_ok hr.reach, reachIf_owned (hr.mono fun _ _ => Smooth.inOrder)⟩)
    (fun s h0 => ?_) fun s l s' ⟨hok, howned⟩ ⟨_, howned'⟩ hI hsm hn => ?_
  · cases h0
    exact exchange_initial
  · cases l with
    | start c key => exact hI.start hok hn
    | client c x =>
      obtain ⟨k, hk, hn⟩ := Option.bind_eq_some_iff.mp hn
      obtain ⟨⟨k', e⟩, hx, hn⟩ := Option.bind_eq_some_iff.mp hn
      exact hI.client_step hok hk hx hsm hn
    | server ok out stale =>
      obtain ⟨rfl, -, hwel⟩ := hsm
      simp only [system, serverStep] at hn
      split at hn
      · rename_i hpc
        split at hn
        · rename_i m q hq
          cases hn
          exact hI.receive_step rfl rfl rfl rfl (by simp [State.inbound, hpc, hq])
            (fun _ _ hr => by rw [hpc] at hr; cases hr) (fun _ _ hr => by cases hr)
            fun he => by cases he
        · rename_i hq
          split at hn <;> cases hn
          exact hI.receive_step rfl rfl rfl rfl (by simp [State.inbound, hpc, hq])
            (fun _ _ hr => by rw [hpc] at hr; cases hr) (fun _ _ hr => by cases hr) fun _ => hq
      · rename_i hpc
        cases hn
        exact hI.handle_step hok howned howned' hpc hwel
      · rename_i hpc
        cases hn
        exact hI.respond_step hpc
      · cases hn

/-! ## How long it takes -/

/-- The client that makes the step. -/
def Label.mover : Label → Option ℕ
  | .client c _ => some c
  | _ => none

def Label.isServer : Label → Bool
  | .server _ _ _ => true
  | _ => false

/-- The number of messages up to the last one of client `c`. -/
def ahead (c : ℕ) : List Msg → ℕ
  | [] => 0
  | m :: q => if ∃ m' ∈ m :: q, m'.sender = c then ahead c q + 1 else 0

theorem ahead_le (c : ℕ) (q : List Msg) : ahead c q ≤ q.length := by
  induction q with
  | nil => exact Nat.le_refl 0
  | cons m q ih =>
    rw [ahead, List.length_cons]
    split <;> omega

theorem ahead_append {q q' : List Msg} (h : ∀ m ∈ q', m.sender ≠ c) :
    ahead c (q ++ q') = ahead c q := by
  induction q with
  | nil =>
    cases q' with
    | nil => rfl
    | cons m q' => exact if_neg fun ⟨m', hm', hc⟩ => h m' hm' hc
  | cons m q ih =>
    rw [List.cons_append, ahead, ahead, ih]
    refine if_congr ?_ rfl rfl
    constructor
    · rintro ⟨m', hm', hc⟩
      rw [← List.cons_append, List.mem_append] at hm'
      exact ⟨m', hm'.resolve_right fun hm' => h m' hm' hc, hc⟩
    · rintro ⟨m', hm', hc⟩
      exact ⟨m', List.mem_append_left q' hm', hc⟩

/-- The steps of the server with the message that it has in hand. -/
def ServerPc.rest : ServerPc → ℕ
  | .handle _ => 2
  | .respond _ _ => 1
  | _ => 0

/-- The steps of the server until client `c`, which waits, has its response. -/
def State.delay (c : ℕ) (s : State) : ℕ := s.pc.rest + 3 * ahead c s.queue

theorem delay_le (c : ℕ) (s : State) : s.delay c ≤ 3 * s.inbound.length + 1 := by
  have hle := ahead_le c s.queue
  unfold State.delay State.inbound ServerPc.rest
  cases s.pc <;> simp only [List.length_cons] <;> omega

/-- Client `c` waits with an empty queue, and not in slot `0`. -/
def State.Blocked (c : ℕ) (s : State) : Prop :=
  s.given c ≠ some 0 ∧
    ∃ k, s.client c = some k ∧ (k.pc = .shaken ∨ k.pc = .response) ∧ k.inbox = []

theorem State.Exchange.waits (h : s.Exchange) (hk : s.client c = some k)
    (hp : k.pc = .shaken ∨ k.pc = .response) (h0 : s.given c ≠ some 0) : s.Waits c k := by
  have hturn := h.turn c k hk h0
  obtain hp | hp := hp
  all_goals
    simp only [State.Turn, hp] at hturn
    exact hturn

/-- What a blocked client waits for is with the server. -/
theorem State.Exchange.blocked (h : s.Exchange) (hb : s.Blocked c) :
    (∃ m ∈ s.inbound, m.sender = c) ∨ ∃ r req, s.pc = .respond r req := by
  obtain ⟨h0, k, hk, hp, hin⟩ := hb
  obtain ⟨m, -, -, -, -, ⟨hasked, -⟩ | ⟨-, r, -, hw⟩⟩ := h.waits hk hp h0
  · have hm : m ∈ s.asked c := by rw [hasked]; exact List.mem_singleton_self m
    obtain ⟨hm, hc⟩ := List.mem_filter.mp hm
    exact .inl ⟨m, hm, by simpa using hc⟩
  · rw [hin, List.nil_append] at hw
    by_contra hno
    push Not at hno
    rw [way_of_not_respond hno.2] at hw
    cases hw

/-- As long as a client is blocked, the server goes on. -/
theorem State.Exchange.serves (h : s.Exchange) (hb : s.Blocked c) (ok : Bool) (out : List UInt8)
    (stale : Option ℕ) : system.next s (.server ok out stale) ≠ none := by
  obtain ⟨m, hm, -⟩ | ⟨r, req, hpc⟩ := h.blocked hb
  · simp only [system, serverStep]
    cases hpc : s.pc with
    | receive =>
      have hq : m ∈ s.queue := by simpa [State.inbound, hpc] using hm
      obtain ⟨m', q, hq⟩ := List.exists_cons_of_ne_nil (List.ne_nil_of_mem hq)
      simp [hq]
    | handle m => simp
    | respond r req => simp
    | exited =>
      simp only [State.inbound, hpc, h.ended hpc] at hm
      cases hm
  · simp [system, serverStep, hpc]

theorem State.Exchange.delay_pos (h : s.Exchange) (hb : s.Blocked c) : 0 < s.delay c := by
  obtain ⟨m, hm, hc⟩ | ⟨r, req, hpc⟩ := h.blocked hb
  · unfold State.delay
    cases hpc : s.pc with
    | handle m => exact Nat.lt_add_right _ (Nat.succ_pos 1)
    | respond r req => exact Nat.lt_add_right _ Nat.one_pos
    | receive | exited =>
      have hq : m ∈ s.queue := by simpa [State.inbound, hpc] using hm
      obtain ⟨m', q, he⟩ := List.exists_cons_of_ne_nil (List.ne_nil_of_mem hq)
      rw [he, ahead, if_pos ⟨m, he ▸ hq, hc⟩]
      omega
  · simp [State.delay, hpc, ServerPc.rest]

/-- A client that makes no step only gets responses. -/
theorem other_step {l : Label} (hl : l.mover ≠ some c) (hk : s.client c = some k)
    (hn : system.next s l = some s') :
    s'.sent c = s.sent c ∧ ∃ rs, s'.client c = some { k with inbox := k.inbox ++ rs } := by
  have hsame : s.client c = some { k with inbox := k.inbox ++ [] } := by simpa using hk
  cases l with
  | start d key =>
    simp only [system, startClient] at hn
    split at hn <;> cases hn
    rename_i hfree
    have hcd : c ≠ d := fun hcd => by rw [← hcd, hk] at hfree; cases hfree.1
    exact ⟨rfl, [], by simpa [Function.update_of_ne hcd] using hsame⟩
  | client d x =>
    have hcd : c ≠ d := fun hcd => hl (by rw [hcd]; rfl)
    obtain ⟨kd, -, hn⟩ := Option.bind_eq_some_iff.mp hn
    obtain ⟨⟨k', e⟩, -, hn⟩ := Option.bind_eq_some_iff.mp hn
    obtain ⟨-, -, -, -, -, -, hclient, -, hsent⟩ := put_eq hn
    exact ⟨by rw [hsent, Function.update_of_ne hcd], [], by
      rw [hclient, Function.update_of_ne hcd, hsame]⟩
  | server ok out stale =>
    simp only [system, serverStep] at hn
    split at hn
    · repeat' split at hn
      all_goals cases hn
      all_goals exact ⟨rfl, [], hsame⟩
    · cases hn
      obtain ⟨hclient, -, -, hsent, -⟩ := handle_frame s ‹Msg› out stale
      exact ⟨by rw [hsent], [], by rw [hclient, hsame]⟩
    · rename_i r req hpc
      cases hn
      obtain he | ⟨d, kd, -, -, hkd, he⟩ := respond_cases s r req ok
      all_goals rw [he]
      · exact ⟨rfl, [], hsame⟩
      · by_cases hcd : c = d
        · subst hcd
          obtain rfl : k = kd := Option.some.inj (hk.symm.trans hkd)
          exact ⟨rfl, [r], by simp⟩
        · exact ⟨rfl, [], by simpa [Function.update_of_ne hcd] using hsame⟩
    · cases hn

theorem rest_handle_le (s : State) (m : Msg) (out : List UInt8) (stale : Option ℕ) :
    (handle s m out stale).pc.rest ≤ 1 := by
  obtain ⟨-, -, hqueue, -, hin, -⟩ := handle_frame s m out stale
  cases hpc : (handle s m out stale).pc with
  | handle m' =>
    rw [State.inbound, hpc, hqueue] at hin
    exact absurd (congrArg List.length hin) (by simp)
  | receive | respond | exited => simp [ServerPc.rest]

/-- The measure of a wait: a step of the server lowers it, and no step of the others
    raises it. -/
theorem delay_step {l : Label} (h : s.Exchange) (hok : s.Ok) (hl : l.mover ≠ some c)
    (hn : system.next s l = some s') (hb : s.Blocked c) :
    s'.delay c + (if l.isServer then 1 else 0) ≤ s.delay c := by
  cases l with
  | start d key =>
    simp only [system, startClient] at hn
    split at hn <;> cases hn
    exact Nat.le_refl _
  | client d x =>
    have hcd : c ≠ d := fun hcd => hl (by rw [hcd]; rfl)
    obtain ⟨kd, hkd, hn⟩ := Option.bind_eq_some_iff.mp hn
    obtain ⟨⟨k', e⟩, hx, hn⟩ := Option.bind_eq_some_iff.mp hn
    obtain ⟨hpc, -, -, -, -, -, -, hqueue, -⟩ := put_eq hn
    have hokd := clientNext_ok (hok.client d kd hkd) hx
    have hmsgs : ∀ m ∈ e.msgs, m.sender ≠ c := fun m hm hc =>
      hcd (hc.symm.trans (hokd.sender m (List.mem_append_right _ hm)))
    rw [State.delay, State.delay, hpc, hqueue, ahead_append hmsgs]
    exact Nat.le_refl _
  | server ok out stale =>
    simp only [Label.isServer, if_true]
    simp only [system, serverStep] at hn
    split at hn
    · rename_i hpc
      obtain ⟨m, hm, hc⟩ | ⟨r, req, hr⟩ := h.blocked hb
      · have hm : m ∈ s.queue := by simpa [State.inbound, hpc] using hm
        split at hn
        · rename_i m' q hq
          cases hn
          rw [State.delay, State.delay, hpc, hq, ahead, if_pos ⟨m, hq ▸ hm, hc⟩]
          simp only [ServerPc.rest]
          omega
        · rename_i hq
          rw [hq] at hm
          cases hm
      · rw [hpc] at hr
        cases hr
    · rename_i m hpc
      cases hn
      obtain ⟨-, -, hqueue, -⟩ := handle_frame s m out stale
      have hrest := rest_handle_le s m out stale
      have hrest' : s.pc.rest = 2 := by rw [hpc]; rfl
      rw [State.delay, State.delay, hqueue]
      omega
    · rename_i r req hpc
      cases hn
      have hrest : s.pc.rest = 1 := by rw [hpc]; rfl
      obtain he | ⟨d, kd, -, -, -, he⟩ := respond_cases s r req ok
      all_goals
        rw [he, State.delay, State.delay, hrest]
        simp only [ServerPc.rest]
        omega
    · cases hn

theorem given_step {l : Label} {i : Slot} (hok : s.Ok) (hn : system.next s l = some s')
    (hg : s.given c = some i) : s'.given c = some i := by
  cases l with
  | start d key =>
    simp only [system, startClient] at hn
    split at hn <;> cases hn
    exact hg
  | client d x =>
    obtain ⟨k, -, hn⟩ := Option.bind_eq_some_iff.mp hn
    obtain ⟨⟨k', e⟩, -, hn⟩ := Option.bind_eq_some_iff.mp hn
    obtain ⟨-, -, -, hgiven, -⟩ := put_eq hn
    rw [hgiven, hg]
  | server ok out stale =>
    simp only [system, serverStep] at hn
    split at hn
    · repeat' split at hn
      all_goals cases hn
      all_goals exact hg
    · cases hn
      exact handle_given hok ‹_› hg
    · cases hn
      obtain he | ⟨d, kd, -, -, -, he⟩ := respond_cases s _ _ ok
      all_goals rw [he]; exact hg
    · cases hn

/-! ## Runs -/

/-- The server does not change what the clients send. -/
theorem State.TextsFit.server_step {ok : Bool} {out : List UInt8} {stale : Option ℕ}
    (h : s.TextsFit) (hn : serverStep s ok out stale = some s') : s'.TextsFit := by
  unfold serverStep at hn
  split at hn
  · repeat' split at hn
    all_goals cases hn
    all_goals exact ⟨h.pc, h.sent⟩
  · cases hn
    obtain ⟨hclient, -, -, hsent, -⟩ := handle_frame s ‹Msg› out stale
    exact ⟨by rw [hclient]; exact h.pc, by rw [hsent]; exact h.sent⟩
  · cases hn
    obtain he | ⟨d, kd, -, -, hd, he⟩ := respond_cases s ‹Response› ‹Option ℕ› ok
    all_goals rw [he]
    · exact ⟨h.pc, h.sent⟩
    · refine ⟨fun c k hk => ?_, h.sent⟩
      by_cases hcd : c = d
      · subst hcd
        obtain rfl : { kd with inbox := kd.inbox ++ [_] } = k := by simpa using hk
        exact h.pc c kd hd
      · exact h.pc c k (by simpa [Function.update_of_ne hcd] using hk)
  · cases hn

theorem reachIf_textsFit (h : system.ReachIf Smooth s) : s.TextsFit := by
  refine Machine.ReachIf.invariant (I := State.TextsFit) h (fun s h0 => ?_)
    fun s l s' hI hsm hn => ?_
  · cases h0
    exact ⟨fun _ _ hc => (by cases hc), fun _ _ hm => (by cases hm)⟩
  · cases l with
    | start c key =>
      simp only [system, startClient] at hn
      split at hn <;> cases hn
      refine ⟨fun d k hd => ?_, hI.sent⟩
      by_cases hdc : d = c
      · subst hdc
        obtain rfl : Client.new key = k := by simpa using hd
        trivial
      · exact hI.pc d k (by simpa [Function.update_of_ne hdc] using hd)
    | client c x =>
      obtain ⟨k, hk, hn⟩ := Option.bind_eq_some_iff.mp hn
      obtain ⟨⟨k', e⟩, hx, hn⟩ := Option.bind_eq_some_iff.mp hn
      exact hI.client_step hk hx hsm hn
    | server ok out stale => exact hI.server_step hn

/-- What a client that waits finds in its queue. -/
theorem State.Waits.last (h : s.Waits c k) :
    ∃ m, (s.sent c).getLast? = some m ∧ (m.type = .handshake ↔ k.pc = .shaken) ∧
      (k.inbox = [] ∨ ∃ r, k.inbox = [r] ∧ Replies (s.given c) m r) := by
  obtain ⟨m, hlast, -, -, hhs, ⟨-, hw⟩ | ⟨-, r, hrep, hw⟩⟩ := h
  · exact ⟨m, hlast, hhs, .inl (List.append_eq_nil_iff.mp hw).1⟩
  · obtain ⟨hin, -⟩ | ⟨hin, -⟩ := List.append_eq_singleton_iff.mp hw
    · exact ⟨m, hlast, hhs, .inl hin⟩
    · exact ⟨m, hlast, hhs, .inr ⟨r, hin, hrep⟩⟩

/-- Client `c`, which was `k` in `s`, has made no step since. -/
structure State.Since (s : State) (c : ℕ) (k : Client) (t : State) : Prop where
  reach : system.ReachIf Smooth t
  sent : t.sent c = s.sent c
  client : ∃ rs, t.client c = some { k with inbox := k.inbox ++ rs }

theorem State.Since.next {t t' : State} {l : Label} (h : s.Since c k t)
    (hl : Smooth t l ∧ l.mover ≠ some c) (hn : system.next t l = some t') : s.Since c k t' := by
  obtain ⟨rs, hrs⟩ := h.client
  obtain ⟨hsent, rs', hrs'⟩ := other_step hl.2 hrs hn
  exact ⟨h.reach.step hl.1 hn, hsent.trans h.sent, rs ++ rs', by simpa using hrs'⟩

/-- A client that is blocked after a step of another one was blocked before it. -/
theorem State.Since.delay_next {t t' : State} {l : Label} (h : s.Since c k t)
    (hl : Smooth t l ∧ l.mover ≠ some c) (hn : system.next t l = some t') (hb : t'.Blocked c) :
    t.Blocked c ∧ t'.delay c + (if l.isServer then 1 else 0) ≤ t.delay c := by
  obtain ⟨h0, k', hk', hp, hin⟩ := hb
  obtain ⟨rs, hrs⟩ := h.client
  obtain ⟨-, rs', hrs'⟩ := other_step hl.2 hrs hn
  obtain rfl := Option.some.inj (hk'.symm.trans hrs')
  have hok := reach_ok h.reach.reach
  have hb : t.Blocked c :=
    ⟨fun hg => h0 (given_step hok hn hg), _, hrs, hp, (List.append_eq_nil_iff.mp hin).1⟩
  exact ⟨hb, delay_step (reachIf_exchange h.reach) hok hl.2 hn hb⟩

/-- In a run without failures, and with texts that fit, a client that waits and is not in
    slot `0` gets the response to its last message, or has it already, and gets nothing
    else. As long as it has none the server goes on, and the response is there after three
    steps of the server for each message up to the last one of the client. -/
theorem responses_come (h : system.ReachIf Smooth s) (hk : s.client c = some k)
    (hp : k.pc = .shaken ∨ k.pc = .response) (h0 : s.given c ≠ some 0) :
    ∃ m, (s.sent c).getLast? = some m ∧ (m.type = .handshake ↔ k.pc = .shaken) ∧
      m.buf.length < msgBufSize ∧
      (k.inbox = [] ∨ ∃ r, k.inbox = [r] ∧ Replies (s.given c) m r) ∧
      (k.inbox = [] → ∀ ok out stale, system.next s (.server ok out stale) ≠ none) ∧
      s.delay c ≤ 3 * s.inbound.length + 1 ∧
      ∀ ls s', system.Along (fun t l => Smooth t l ∧ l.mover ≠ some c) ls s →
        system.run ls s = some s' → s.delay c ≤ ls.countP Label.isServer →
          s'.given c = some 0 ∨
            ∃ r, s'.client c = some { k with inbox := [r] } ∧ Replies (s'.given c) m r := by
  have hex := reachIf_exchange h
  obtain ⟨m, hlast, hhs, hin⟩ := (hex.waits hk hp h0).last
  have hfits := (reachIf_textsFit h).sent c m (List.mem_of_getLast? hlast)
  refine ⟨m, hlast, hhs, hfits, hin, fun hin => hex.serves ⟨h0, k, hk, hp, hin⟩, delay_le c s,
    fun ls s' hall hr hlen => or_iff_not_imp_left.mpr fun h0' => ?_⟩
  have hsince : s.Since c k s := ⟨h, rfl, [], by simpa using hk⟩
  have hnext : ∀ t l t', s.Since c k t → (Smooth t l ∧ l.mover ≠ some c) →
      system.next t l = some t' → s.Since c k t' := fun _ _ _ => State.Since.next
  obtain ⟨hreach, hsent, rs, hrs⟩ := Machine.Along.run_invariant hnext hsince hall hr
  have hex' := reachIf_exchange hreach
  -- as long as the client is blocked, the measure has steps left
  have hnot : ¬s'.Blocked c := fun hb => by
    obtain ⟨-, hle⟩ := Machine.Along.count_le hnext (fun _ _ _ => State.Since.delay_next)
      hsince hall hr hb
    have hpos := hex'.delay_pos hb
    omega
  obtain ⟨m', hlast', -, hin'⟩ := (hex'.waits hrs hp h0').last
  rw [hsent, hlast] at hlast'
  obtain rfl := Option.some.inj hlast'
  obtain hin' | ⟨r, hin', hrep⟩ := hin'
  · exact absurd ⟨h0', _, hrs, hp, hin'⟩ hnot
  · exact ⟨r, hrs.trans (congrArg (fun l => some { k with inbox := l }) hin'), hrep⟩

end

/-- Client `0` waits in slot `0`; the server has a message of client `2` in hand when client
    `1` asks for a mirrored text, and the text comes after five steps. -/
theorem responses_come_mirror : ∃ s s', system.ReachIf Smooth s ∧
    system.run (serves 5) s = some s' ∧ s.delay 1 = 5 ∧
      (s'.client 1).map Client.inbox = some [⟨1, [98, 97]⟩] := by
  obtain ⟨s, hr, hs⟩ := Machine.ReachIf.of_runIf (M := system) (C := Smooth)
    (connects 0 10 0 ++ connects 1 11 2 ++ .start 2 12 :: steps 2 2 none ++ serves 1 ++
      steps 1 2 (some [109, 105, 114, 114, 111, 114, 32, 97, 98]))
    (fun s => ((s.client 1).map fun k => (k.pc, k.inbox), s.given 1, (s.sent 1).getLast?,
      s.delay 1, (system.runIf (fun t l => Smooth t l ∧ l.mover ≠ some 1) (serves 5) s).map
        fun s' => s'.given 1))
    (some (.response, []), some 1, some ⟨.mirror, 1, 1, [97, 98], 11⟩, 5, some (some 1)) rfl rfl
  simp only [Prod.mk.injEq] at hs
  obtain ⟨hclient, hgiven, hlast, hdelay, hrun⟩ := hs
  obtain ⟨k, hk, hpc⟩ := Option.map_eq_some_iff.mp hclient
  obtain ⟨s', hs', hgiven'⟩ := Option.map_eq_some_iff.mp hrun
  obtain ⟨hall, hrun⟩ := Machine.along_of_runIf hs'
  simp only [Prod.mk.injEq] at hpc
  obtain ⟨m, hm, -, -, -, -, -, hcome⟩ := responses_come hr hk (.inr hpc.1) (by rw [hgiven]; decide)
  obtain rfl := Option.some.inj (hlast.symm.trans hm)
  obtain h0 | ⟨r, hr', out, hrep⟩ := hcome _ _ hall hrun (by rw [hdelay]; decide)
  · rw [hgiven'] at h0
    cases h0
  · exact ⟨s, s', hr, hrun, hdelay, by rw [hr', hrep]; rfl⟩

end AghOs.MsgQueue
