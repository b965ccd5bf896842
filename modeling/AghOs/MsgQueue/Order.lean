import AghOs.MsgQueue.Server

/-!
# What has been sent and what has been handled

Each client sends at most one HANDSHAKE, then requests and `END` with its id, then
`STOP`s; the server handles its messages in this order.

* `clientNext_ok`: what the program of a client guarantees about what it sends.
* `reach_ok`: for every client, the messages handled and the messages under way
  are those that it sent.
-/

namespace AghOs.MsgQueue

/-! ## One client -/

/-- `m'` can follow `m` in what a client sends: there is one HANDSHAKE, and only
    `STOP`s after a `STOP`. -/
def Follows (m m' : Msg) : Prop :=
  m'.type ≠ .handshake ∧ (m.type = .stop → m'.type = .stop)

/-- Client `c` in the state `k`, having sent `sent`. -/
structure ClientOk (c : ℕ) (k : Client) (sent : List Msg) : Prop where
  sender : ∀ m ∈ sent, m.sender = c
  order : sent.Pairwise Follows
  fresh : k.pc.phase = .fresh → sent = []
  waiting : k.pc.phase = .waiting → ∀ m ∈ sent, m.type = .handshake
  running : k.pc.phase = .running → (∀ m ∈ sent, m.type ≠ .stop) ∧ k.clientId ≠ 0
  ids : ∀ m ∈ sent, m.type ≠ .handshake → m.clientId = k.clientId
  requests : ∀ m ∈ sent, m.type ≠ .handshake → m.type ≠ .stop → m.clientId ≠ 0
  inbox : ∀ r ∈ k.inbox, r.clientId ≠ 0
  assign : ∀ i, k.pc = .assign i → i ≠ 0
  request : ∀ type text, k.pc = .request type text → type ≠ .handshake ∧ type ≠ .stop

/-- The messages of an effect. -/
def Effect.msgs : Effect → List Msg
  | .nothing => []
  | .send m => [m]
  | .remove => []

section

variable {c : ℕ} {k k' t : Client} {sent : List Msg}

theorem ClientOk.new (c key : ℕ) : ClientOk c (.new key) [] where
  sender := by simp
  order := .nil
  fresh _ := rfl
  waiting h := by cases h
  running h := by cases h
  ids := by simp
  requests := by simp
  inbox := by simp [Client.new]
  assign _ h := by cases h
  request _ _ h := by cases h

/-- The client leaves its program. -/
theorem ClientOk.leave (h : ClientOk c k sent) (hp : t.pc.phase = .exiting)
    (hid : t.clientId = k.clientId) (hin : ∀ r ∈ t.inbox, r ∈ k.inbox) :
    ClientOk c t sent where
  sender := h.sender
  order := h.order
  fresh hf := by rw [hp] at hf; cases hf
  waiting hw := by rw [hp] at hw; cases hw
  running hr := by rw [hp] at hr; cases hr
  ids m hm ht := (h.ids m hm ht).trans hid.symm
  requests := h.requests
  inbox r hr := h.inbox r (hin r hr)
  assign _ ha := by rw [ha] at hp; cases hp
  request _ _ ha := by rw [ha] at hp; cases hp

/-- The client goes on in its loop. -/
theorem ClientOk.goOn (h : ClientOk c k sent) (hp : k.pc.phase = .running)
    (hp' : t.pc.phase = .running) (hid : t.clientId = k.clientId)
    (hin : ∀ r ∈ t.inbox, r ∈ k.inbox)
    (hreq : ∀ type text, t.pc = .request type text → type ≠ .handshake ∧ type ≠ .stop) :
    ClientOk c t sent where
  sender := h.sender
  order := h.order
  fresh hf := by rw [hp'] at hf; cases hf
  waiting hw := by rw [hp'] at hw; cases hw
  running _ := ⟨(h.running hp).1, hid ▸ (h.running hp).2⟩
  ids m hm ht := (h.ids m hm ht).trans hid.symm
  requests := h.requests
  inbox r hr := h.inbox r (hin r hr)
  assign _ ha := by rw [ha] at hp'; cases hp'
  request := hreq

/-- The client sends a request from its loop, or `STOP` when it exits. -/
theorem ClientOk.sendMsg (h : ClientOk c k sent) (type : MessageType) (text : List UInt8)
    (ht : type ≠ .handshake)
    (hp : k.pc.phase = .running ∧ type ≠ .stop ∨ k.pc.phase = .exiting ∧ type = .stop) :
    ClientOk c k (sent ++ [k.msg c type text]) where
  sender m hm := by
    obtain hm | rfl : m ∈ sent ∨ m = _ := by simpa using hm
    · exact h.sender m hm
    · rfl
  order := List.pairwise_append.mpr ⟨h.order, List.pairwise_singleton _ _, fun m hm m' hm' => by
    obtain rfl := List.mem_singleton.mp hm'
    refine ⟨ht, fun hstop => ?_⟩
    obtain ⟨hrun, -⟩ | ⟨-, hs⟩ := hp
    · exact absurd hstop ((h.running hrun).1 m hm)
    · exact hs⟩
  fresh hf := by obtain ⟨hp, -⟩ | ⟨hp, -⟩ := hp <;> rw [hp] at hf <;> cases hf
  waiting hw := by obtain ⟨hp, -⟩ | ⟨hp, -⟩ := hp <;> rw [hp] at hw <;> cases hw
  running hr := by
    obtain ⟨-, hs⟩ | ⟨hp, -⟩ := hp
    · refine ⟨fun m hm => ?_, (h.running hr).2⟩
      obtain hm | rfl : m ∈ sent ∨ m = _ := by simpa using hm
      · exact (h.running hr).1 m hm
      · exact hs
    · rw [hp] at hr
      cases hr
  ids m hm hh := by
    obtain hm | rfl : m ∈ sent ∨ m = _ := by simpa using hm
    · exact h.ids m hm hh
    · rfl
  requests m hm hh hs' := by
    obtain hm | rfl : m ∈ sent ∨ m = _ := by simpa using hm
    · exact h.requests m hm hh hs'
    · obtain ⟨hrun, -⟩ | ⟨-, hs⟩ := hp
      · exact (h.running hrun).2
      · exact absurd hs hs'
  inbox := h.inbox
  assign := h.assign
  request := h.request

theorem phase_command (line : List UInt8) : (command line).phase = .running := by
  unfold command
  simp only
  repeat' split
  all_goals rfl

theorem command_request {line : List UInt8} {type : MessageType} {text : List UInt8}
    (h : command line = .request type text) : type ≠ .handshake ∧ type ≠ .stop := by
  unfold command at h
  simp only at h
  repeat' split at h
  all_goals cases h
  all_goals simp

theorem ClientOk.register (h : ClientOk c k sent) (hpc : k.pc = .start) :
    ClientOk c { k with pc := .shake } sent where
  sender := h.sender
  order := h.order
  fresh _ := h.fresh (by rw [hpc]; rfl)
  waiting hw := by cases hw
  running hr := by cases hr
  ids := h.ids
  requests := h.requests
  inbox := h.inbox
  assign _ ha := by cases ha
  request _ _ hr := by cases hr

/-- The HANDSHAKE is sent. -/
theorem ClientOk.shake (h : ClientOk c k sent) (hpc : k.pc = .shake) :
    ClientOk c { k with pc := .shaken } (sent ++ [k.msg c .handshake []]) := by
  obtain rfl := h.fresh (by rw [hpc]; rfl)
  exact {
    sender := by simp [Client.msg]
    order := List.pairwise_singleton _ _
    fresh := fun hf => by cases hf
    waiting := by simp [Client.msg]
    running := fun hr => by cases hr
    ids := by simp [Client.msg]
    requests := by simp [Client.msg]
    inbox := h.inbox
    assign := fun _ ha => by cases ha
    request := fun _ _ hr => by cases hr }

/-- The answer to the HANDSHAKE is received. -/
theorem ClientOk.receive {r : Response} {rs : List Response} (h : ClientOk c k sent)
    (hpc : k.pc = .shaken) (hin : k.inbox = r :: rs) :
    ClientOk c { k with pc := .assign r.clientId, inbox := rs } sent where
  sender := h.sender
  order := h.order
  fresh hf := by cases hf
  waiting _ := h.waiting (by rw [hpc]; rfl)
  running hr := by cases hr
  ids := h.ids
  requests := h.requests
  inbox r' hr' := h.inbox r' (by rw [hin]; exact List.mem_cons_of_mem _ hr')
  assign i ha := by
    cases ha
    exact h.inbox r (by rw [hin]; exact List.mem_cons_self ..)
  request _ _ hr := by cases hr

/-- The client takes the id of the answer; it has sent its HANDSHAKE only. -/
theorem ClientOk.takeId {id : Slot} (h : ClientOk c k sent) (hpc : k.pc = .assign id) :
    ClientOk c { k with pc := .read, clientId := id } sent := by
  have hhs := h.waiting (by rw [hpc]; rfl)
  exact {
    sender := h.sender
    order := h.order
    fresh := fun hf => by cases hf
    waiting := fun hw => by cases hw
    running := fun _ => ⟨fun m hm => by rw [hhs m hm]; decide, h.assign id hpc⟩
    ids := fun m hm hne => absurd (hhs m hm) hne
    requests := h.requests
    inbox := h.inbox
    assign := fun _ ha => by cases ha
    request := fun _ _ hr => by cases hr }

/-- A step of a client keeps what its program guarantees. -/
theorem clientNext_ok {x : Input} {e : Effect} (h : ClientOk c k sent)
    (hn : clientNext c k x = some (k', e)) : ClientOk c k' (sent ++ e.msgs) := by
  cases x with
  | sigint =>
    obtain ⟨k'', hk, hp⟩ := Option.map_eq_some_iff.mp hn
    cases hp
    rw [Effect.msgs, List.append_nil]
    unfold sigint at hk
    split at hk <;> cases hk <;> exact h.leave rfl rfl fun _ => id
  | step ok line =>
    simp only [clientNext, clientStep] at hn
    split at hn
    all_goals rename_i hpc
    · cases hn
      simpa [Effect.msgs] using h.register hpc
    · split at hn <;> cases hn
      · exact h.shake hpc
      · simpa [Effect.msgs] using h.leave (t := { k with pc := .exit }) rfl rfl fun _ => id
    · split at hn
      · split at hn <;> cases hn
        simpa [Effect.msgs] using h.receive hpc ‹_›
      · cases hn
        simpa [Effect.msgs] using h.leave (t := { k with pc := .exit }) rfl rfl fun _ => id
    · cases hn
      simpa [Effect.msgs] using h.takeId hpc
    · split at hn <;> cases hn
      · simpa [Effect.msgs] using h.leave (t := { k with pc := .exit }) rfl rfl fun _ => id
      · simpa [Effect.msgs] using h.goOn (by rw [hpc]; rfl) (phase_command _) rfl
          (fun _ => id) (t := { k with pc := command _ }) fun _ _ => command_request
    · -- a request
      obtain ⟨hhs, hstop⟩ := h.request _ _ hpc
      have hp : k.pc.phase = .running := by rw [hpc]; rfl
      cases hn
      cases ok
      · simpa [Effect.msgs] using h.goOn (t := { k with pc := .response }) hp rfl rfl
          (fun _ => id) fun _ _ hr => by cases hr
      · exact (h.sendMsg _ _ hhs (.inl ⟨hp, hstop⟩)).goOn hp rfl rfl (fun _ => id)
          fun _ _ hr => by cases hr
    · -- the response to it
      have hp : k.pc.phase = .running := by rw [hpc]; rfl
      split at hn
      · split at hn <;> cases hn
        rename_i r rs hin
        simpa [Effect.msgs] using h.goOn (t := { k with pc := .read, inbox := rs }) hp rfl rfl
          (fun r' hr' => by rw [hin]; exact List.mem_cons_of_mem _ hr') fun _ _ hr => by cases hr
      · cases hn
        simpa [Effect.msgs] using h.goOn (t := { k with pc := .read }) hp rfl rfl
          (fun _ => id) fun _ _ hr => by cases hr
    · -- `END`
      have hp : k.pc.phase = .running := by rw [hpc]; rfl
      cases hn
      cases ok
      · simpa [Effect.msgs] using h.goOn (t := { k with pc := .setNostop }) hp rfl rfl
          (fun _ => id) fun _ _ hr => by cases hr
      · exact (h.sendMsg _ _ (by decide) (.inl ⟨hp, by decide⟩)).goOn hp rfl rfl (fun _ => id)
          fun _ _ hr => by cases hr
    · cases hn
      simpa [Effect.msgs] using h.leave (t := { k with pc := .exit, nostop := true }) rfl rfl
        fun _ => id
    · cases hn
      simpa [Effect.msgs] using h.leave (t := { k with pc := .cleanup false false }) rfl rfl
        fun _ => id
    · -- `cleanup` up to `msgctl`
      rename_i handler again
      cases hn
      split
      · exact (h.sendMsg .stop [] (by decide) (.inr ⟨by rw [hpc]; rfl, rfl⟩)).leave rfl rfl
          fun _ => id
      · simpa [Effect.msgs] using h.leave (t := { k with pc := .remove handler again }) rfl rfl
          fun _ => id
    · rename_i handler again
      cases hn
      cases again <;> simpa [Effect.msgs] using
        h.leave (t := ⟨_, k.queueKey, k.clientId, k.nostop, []⟩) rfl rfl fun _ hr => by cases hr
    · cases hn

end

/-- A client changes its id, its key or leaves its exit only where it may. -/
theorem clientNext_eq {c : ℕ} {k k' : Client} {x : Input} {e : Effect}
    (hn : clientNext c k x = some (k', e)) :
    k'.queueKey = k.queueKey ∧ (k'.clientId = k.clientId ∨ k.pc.phase = .waiting) := by
  cases x with
  | sigint =>
    obtain ⟨k'', hk, hp⟩ := Option.map_eq_some_iff.mp hn
    cases hp
    unfold sigint at hk
    split at hk <;> cases hk <;> exact ⟨rfl, .inl rfl⟩
  | step ok line =>
    simp only [clientNext, clientStep] at hn
    repeat' split at hn
    all_goals cases hn
    all_goals first
      | exact ⟨rfl, .inl rfl⟩
      | exact ⟨rfl, .inr (by rw [‹k.pc = _›]; rfl)⟩

/-! ## The whole system -/

/-- The messages that the server has still to handle. -/
def State.inbound (s : State) : List Msg :=
  match s.pc with
  | .handle m => m :: s.queue
  | _ => s.queue

/-- The slot is not stopped. -/
def State.active (s : State) (i : Slot) : Prop := (s.clients i).stopped = false

/-- The server has handled a `STOP` of client `c`. -/
def State.gone (s : State) (c : ℕ) : Prop := ∃ m ∈ s.handled c, m.type = .stop

theorem put_eq {s s' : State} {c : ℕ} {k : Client} {e : Effect} (h : s.put c k e = some s') :
    s'.pc = s.pc ∧ s'.clients = s.clients ∧ s'.handled = s.handled ∧ s'.given = s.given ∧
      s'.accepted = s.accepted ∧ s'.responded = s.responded ∧
      s'.client = Function.update s.client c (some k) ∧ s'.queue = s.queue ++ e.msgs ∧
      s'.sent = Function.update s.sent c (s.sent c ++ e.msgs) := by
  cases e with
  | nothing =>
    cases h
    simp [Effect.msgs]
  | send m =>
    simp only [State.put] at h
    split at h <;> cases h
    simp [Effect.msgs]
  | remove =>
    cases h
    simp [Effect.msgs]

/-- What holds in every state. -/
structure State.Ok (s : State) : Prop where
  client : ∀ c k, s.client c = some k → ClientOk c k (s.sent c)
  absent : ∀ c, s.client c = none → s.sent c = []
  order : ∀ c, s.handled c ++ s.inbound.filter (fun m => m.sender = c) = s.sent c
  given : ∀ c, s.given c ≠ none → s.handled c ≠ []
  pid : ∀ i, s.active i → s.given (s.clients i).pid = some i
  left : ∀ c k, s.client c = some k → s.gone c →
    ¬(s.active k.clientId ∧ (s.clients k.clientId).pid = c)

theorem State.Ok.start {s s' : State} {c key : ℕ} (h : s.Ok) (hn : startClient s c key = some s') :
    s'.Ok := by
  unfold startClient at hn
  split at hn <;> cases hn
  rename_i hfree
  have hsent := h.absent c hfree.1
  refine ⟨fun d k hd => ?_, fun d hd => ?_, h.order, h.given, h.pid, fun d k hd hg => ?_⟩
  · by_cases hdc : d = c
    · subst hdc
      obtain rfl : Client.new key = k := by simpa using hd
      rw [hsent]
      exact .new d key
    · exact h.client d k (by simpa [Function.update_of_ne hdc] using hd)
  · by_cases hdc : d = c
    · subst hdc; exact hsent
    · exact h.absent d (by simpa [Function.update_of_ne hdc] using hd)
  · by_cases hdc : d = c
    · subst hdc
      obtain ⟨m, hm, -⟩ := hg
      have := h.order d
      rw [hsent, List.append_eq_nil_iff] at this
      rw [this.1] at hm
      cases hm
    · exact h.left d k (by simpa [Function.update_of_ne hdc] using hd) hg

theorem put_inbound {s s' : State} {c : ℕ} {k : Client} {e : Effect} (h : s.put c k e = some s') :
    s'.inbound = s.inbound ++ e.msgs := by
  obtain ⟨hpc, -, -, -, -, -, -, hq, -⟩ := put_eq h
  rw [State.inbound, State.inbound, hpc, hq]
  split <;> simp

theorem State.Ok.client_step {s s' : State} {c : ℕ} {k k' : Client} {x : Input} {e : Effect}
    (h : s.Ok) (hk : s.client c = some k) (hx : clientNext c k x = some (k', e))
    (hn : s.put c k' e = some s') : s'.Ok := by
  obtain ⟨-, hclients, hhandled, hgiven, -, -, hclient, -, hsent⟩ := put_eq hn
  have hok := clientNext_ok (h.client c k hk) hx
  refine ⟨fun d l hd => ?_, fun d hd => ?_, fun d => ?_, ?_, ?_, fun d l hd hg => ?_⟩
  · by_cases hdc : d = c
    · subst hdc
      obtain rfl : k' = l := by simpa [hclient] using hd
      simpa [hsent] using hok
    · rw [hsent, Function.update_of_ne hdc]
      exact h.client d l (by simpa [hclient, Function.update_of_ne hdc] using hd)
  · by_cases hdc : d = c
    · subst hdc
      simp [hclient] at hd
    · rw [hsent, Function.update_of_ne hdc]
      exact h.absent d (by simpa [hclient, Function.update_of_ne hdc] using hd)
  · rw [hhandled, put_inbound hn, List.filter_append, ← List.append_assoc, h.order d, hsent]
    have hfrom : ∀ m ∈ e.msgs, m.sender = c := fun m hm =>
      hok.sender m (List.mem_append_right _ hm)
    by_cases hdc : d = c
    · subst hdc
      rw [Function.update_self, List.filter_eq_self.mpr fun m hm => by simpa using hfrom m hm]
    · rw [Function.update_of_ne hdc, List.filter_eq_nil_iff.mpr fun m hm => by
        simpa [hfrom m hm] using Ne.symm hdc, List.append_nil]
  · rw [hgiven, hhandled]
    exact h.given
  · rw [hgiven]
    simpa only [State.active, hclients] using h.pid
  · rw [State.gone, hhandled] at hg
    rw [State.active, hclients]
    by_cases hdc : d = c
    · subst hdc
      obtain rfl : k' = l := by simpa [hclient] using hd
      obtain hid | hw := (clientNext_eq hx).2
      · rw [hid]
        exact h.left d k hk hg
      · -- a client that waits for its id has sent no `STOP`
        obtain ⟨m, hm, hstop⟩ := hg
        have hmem : m ∈ s.sent d := by
          rw [← h.order d]
          exact List.mem_append_left _ hm
        have := (h.client d k hk).waiting hw m hmem
        rw [hstop] at this
        cases this
    · exact h.left d l (by simpa [hclient, Function.update_of_ne hdc] using hd) hg

/-- What `send_to_client` can do. -/
theorem respond_cases (s : State) (r : Response) (req : Option ℕ) (ok : Bool) :
    respond s r req ok = { s with pc := .receive } ∨
      ∃ d k, r.clientId ≠ 0 ∧ (s.clients r.clientId).queue = some d ∧ s.client d = some k ∧
        respond s r req ok = { s with
          pc := .receive
          client := Function.update s.client d (some { k with inbox := k.inbox ++ [r] })
          responded := s.responded ++ (req.map (·, d)).toList } := by
  simp only [MsgQueue.respond]
  split
  · rename_i hok
    split
    · exact .inl rfl
    · rename_i d hd
      split
      · exact .inl rfl
      · rename_i s' hs'
        obtain ⟨k, hk, hs'⟩ := Option.bind_eq_some_iff.mp hs'
        split at hs' <;> cases hs'
        exact .inr ⟨d, k, hok.2, hd, hk, rfl⟩
  · exact .inl rfl

theorem State.Ok.respond {s : State} {r : Response} {req : Option ℕ} {ok : Bool} (h : s.Ok)
    (hpc : s.pc = .respond r req) : (respond s r req ok).Ok := by
  have hin : s.inbound = s.queue := by rw [State.inbound, hpc]
  obtain he | ⟨d, k, hr, -, hk, he⟩ := respond_cases s r req ok
  all_goals rw [he]
  · refine ⟨h.client, h.absent, fun c => ?_, h.given, h.pid, h.left⟩
    have ho := h.order c
    rwa [hin] at ho
  · refine ⟨fun c l hc => ?_, fun c hc => ?_, fun c => ?_, h.given, h.pid, fun c l hc hg => ?_⟩
    · by_cases hcd : c = d
      · subst hcd
        obtain rfl : { k with inbox := k.inbox ++ [r] } = l := by simpa using hc
        have hok := h.client c k hk
        exact ⟨hok.sender, hok.order, hok.fresh, hok.waiting, hok.running, hok.ids, hok.requests,
          fun r' hr' => (List.mem_append.mp hr').elim (hok.inbox r') fun hr' =>
            (List.mem_singleton.mp hr') ▸ hr, hok.assign, hok.request⟩
      · exact h.client c l (by simpa [Function.update_of_ne hcd] using hc)
    · by_cases hcd : c = d
      · subst hcd
        simp at hc
      · exact h.absent c (by simpa [Function.update_of_ne hcd] using hc)
    · have ho := h.order c
      rwa [hin] at ho
    · by_cases hcd : c = d
      · subst hcd
        obtain rfl : { k with inbox := k.inbox ++ [r] } = l := by simpa using hc
        exact h.left c k hk hg
      · exact h.left c l (by simpa [Function.update_of_ne hcd] using hc) hg

/-- What handling a message can do. -/
theorem handle_cases (s : State) (m : Msg) (out : List UInt8) (stale : Option ℕ) :
    (handle s m out stale = s.done m .receive ∧ (m.type = .stop → ¬s.active m.clientId)) ∨
      (∃ cid queue pc, m.type = .handshake ∧ ¬s.active cid ∧
        (pc = .receive ∨ ∃ d, queue = some d ∧ pc = .respond ⟨cid, out⟩ none) ∧
        handle s m out stale = { s with
          clients := Function.update s.clients cid ⟨m.sender, cid, false, queue⟩
          given := Function.update s.given m.sender (some cid) }.done m pc) ∨
      (m.type = .stop ∧ s.active m.clientId ∧ handle s m out stale = stop s m) ∨
      (m.type = .end ∧ handle s m out stale = { s with ending := true }.done m .receive) ∨
      (m.type ≠ .handshake ∧ m.type ≠ .stop ∧ s.active m.clientId ∧
        handle s m out stale =
          s.done m (.respond ⟨m.clientId, responseText m out⟩ (some m.sender))) := by
  unfold MsgQueue.handle
  split
  · rename_i hign
    exact .inl ⟨rfl, fun _ hact => by rw [State.active, hign.2] at hact; cases hact⟩
  · rename_i hnot
    have hact : m.type ≠ .handshake → s.active m.clientId := fun hne => by
      simpa [State.active, hne] using hnot
    split
    · rename_i htype
      unfold handshake
      split
      · exact .inl ⟨rfl, fun hs => by rw [htype] at hs; cases hs⟩
      · rename_i cid hfree
        have hcid : ¬s.active cid := by simpa [State.active] using List.find?_some hfree
        split
        · exact .inr (.inl ⟨cid, stale, .receive, htype, hcid, .inl rfl, rfl⟩)
        · rename_i d hd
          exact .inr (.inl ⟨cid, some d, _, htype, hcid, .inr ⟨d, rfl, rfl⟩, rfl⟩)
    · rename_i htype
      exact .inr (.inr (.inl ⟨htype, hact (by rw [htype]; decide), rfl⟩))
    · rename_i htype
      exact .inr (.inr (.inr (.inl ⟨htype, rfl⟩)))
    · rename_i hhs hstop _
      exact .inr (.inr (.inr (.inr ⟨hhs, hstop, hact hhs, rfl⟩)))

section

variable {s : State} {m : Msg}

theorem State.Ok.hand_mem (h : s.Ok) (hpc : s.pc = .handle m) :
    s.handled m.sender ++ m :: s.queue.filter (fun m' => m'.sender = m.sender) =
      s.sent m.sender := by
  have ho := h.order m.sender
  rw [State.inbound, hpc] at ho
  simpa using ho

/-- The sender of the message in hand. -/
theorem State.Ok.hand_client (h : s.Ok) (hpc : s.pc = .handle m) :
    ∃ k, s.client m.sender = some k ∧ ClientOk m.sender k (s.sent m.sender) := by
  cases hk : s.client m.sender with
  | none =>
    have ho := h.hand_mem hpc
    rw [h.absent _ hk] at ho
    simp at ho
  | some k => exact ⟨k, rfl, h.client _ k hk⟩

theorem State.Ok.hand_follows (h : s.Ok) (hpc : s.pc = .handle m) :
    ∀ m' ∈ s.handled m.sender, Follows m' m := by
  obtain ⟨k, -, hok⟩ := h.hand_client hpc
  have ho := hok.order
  rw [← h.hand_mem hpc] at ho
  exact fun m' hm' => (List.pairwise_append.mp ho).2.2 m' hm' m (List.mem_cons_self ..)

/-- Nothing of the sender of a HANDSHAKE has been handled before. -/
theorem State.Ok.hand_handshake (h : s.Ok) (hpc : s.pc = .handle m) (ht : m.type = .handshake) :
    s.handled m.sender = [] :=
  List.eq_nil_iff_forall_not_mem.mpr fun m' hm' => (h.hand_follows hpc m' hm').1 ht

/-- No `STOP` is handled before a message that is none. -/
theorem State.Ok.hand_not_gone (h : s.Ok) (hpc : s.pc = .handle m) (ht : m.type ≠ .stop) :
    ¬s.gone m.sender := by
  rintro ⟨m', hm', hstop⟩
  exact ht ((h.hand_follows hpc m' hm').2 hstop)

theorem State.Ok.hand_id (h : s.Ok) (hpc : s.pc = .handle m) (ht : m.type ≠ .handshake) {k : Client}
    (hk : s.client m.sender = some k) : m.clientId = k.clientId := by
  refine (h.client _ k hk).ids m ?_ ht
  rw [← h.hand_mem hpc]
  simp

/-- A message has been handled: what holds in every state, if it holds of the
    table. -/
theorem State.Ok.done {s' : State} {pc : ServerPc} (h : s.Ok) (hpc : s.pc = .handle m)
    (hclient : s'.client = s.client) (hsent : s'.sent = s.sent) (hqueue : s'.queue = s.queue)
    (hhandled : s'.handled = s.handled) (hpc' : ∀ m', pc ≠ .handle m')
    (hgiven : ∀ c, c ≠ m.sender → s'.given c ≠ none → s.given c ≠ none)
    (hpid : ∀ i, s'.active i → s'.given (s'.clients i).pid = some i)
    (hleft : ∀ c k, s.client c = some k → (c ≠ m.sender → s.gone c) →
      (c = m.sender → m.type = .stop ∨ s.gone c) →
        ¬(s'.active k.clientId ∧ (s'.clients k.clientId).pid = c)) : (s'.done m pc).Ok := by
  have hcl : (s'.done m pc).client = s.client := hclient
  have hse : (s'.done m pc).sent = s.sent := hsent
  have hha : (s'.done m pc).handled =
      Function.update s.handled m.sender (s.handled m.sender ++ [m]) := by
    simp [State.done, hhandled]
  have hin : (s'.done m pc).inbound = s.queue := by
    rw [State.inbound]
    split
    · exact absurd ‹_› (hpc' _)
    · exact hqueue
  refine ⟨?_, ?_, fun c => ?_, fun c hc => ?_, hpid, fun c k hc hg => ?_⟩
  · rw [hcl, hse]
    exact h.client
  · rw [hcl, hse]
    exact h.absent
  · rw [hse, hha, hin]
    by_cases hcm : c = m.sender
    · subst hcm
      rw [Function.update_self, List.append_assoc]
      exact h.hand_mem hpc
    · have ho := h.order c
      rw [State.inbound, hpc] at ho
      simpa [Function.update_of_ne hcm, Ne.symm hcm] using ho
  · rw [hha]
    by_cases hcm : c = m.sender
    · subst hcm
      simp
    · rw [Function.update_of_ne hcm]
      exact h.given c (hgiven c hcm hc)
  · obtain ⟨m', hm', hstop⟩ := hg
    rw [hha] at hm'
    rw [hcl] at hc
    refine hleft c k hc (fun hcm => ?_) fun hcm => ?_
    · rw [Function.update_of_ne hcm] at hm'
      exact ⟨m', hm', hstop⟩
    · subst hcm
      rw [Function.update_self] at hm'
      obtain hm' | rfl : m' ∈ s.handled m.sender ∨ m' = m := by simpa using hm'
      · exact .inr ⟨m', hm', hstop⟩
      · exact .inl hstop

theorem State.Ok.handle {out : List UInt8} {stale : Option ℕ} (h : s.Ok)
    (hpc : s.pc = .handle m) : (handle s m out stale).Ok := by
  obtain ⟨he, hign⟩ | ⟨cid, queue, pc, ht, hcid, hpc', he⟩ | ⟨ht, hact, he⟩ | ⟨ht, he⟩ |
    ⟨hhs, hst, hact, he⟩ := handle_cases s m out stale
  all_goals rw [he]
  · refine h.done hpc rfl rfl rfl rfl (fun _ hp => by cases hp) (fun _ _ => id) h.pid
      fun c k hc hg hg' => ?_
    by_cases hcm : c = m.sender
    · obtain hs | hg := hg' hcm
      · subst hcm
        rw [← h.hand_id hpc (by rw [hs]; decide) hc]
        exact fun hact => hign hs hact.1
      · exact h.left c k hc hg
    · exact h.left c k hc (hg hcm)
  · -- a HANDSHAKE: its sender is new, so it has no other slot
    have hnone := h.hand_handshake hpc ht
    refine h.done hpc rfl rfl rfl rfl ?_ (fun c hcm => ?_) (fun i hi => ?_)
      fun c k hc hg hg' => ?_
    · obtain rfl | ⟨d, -, rfl⟩ := hpc' <;> exact fun _ hp => by cases hp
    · simp [Function.update_of_ne hcm]
    · by_cases hic : i = cid
      · subst hic
        simp
      · simp only [State.active, Function.update_of_ne hic] at hi ⊢
        have hgiven := h.pid i hi
        have hne : (s.clients i).pid ≠ m.sender := fun hp =>
          h.given _ (by rw [hgiven]; exact fun h => by cases h) (hp ▸ hnone)
        rw [Function.update_of_ne hne, hgiven]
    · have hcm : c ≠ m.sender := fun hcm => by
        obtain hs | ⟨m', hm', -⟩ := hg' hcm
        · rw [ht] at hs
          cases hs
        · rw [hcm, hnone] at hm'
          cases hm'
      rintro ⟨hact, hp⟩
      by_cases hic : k.clientId = cid
      · rw [hic] at hp
        simp only [Function.update_self] at hp
        exact hcm hp.symm
      · simp only [State.active, Function.update_of_ne hic] at hact hp
        exact h.left c k hc (hg hcm) ⟨hact, hp⟩
  · -- a `STOP`: the slot is not active any more
    have hoff : ∀ i, (Function.update s.clients m.clientId
        { s.clients m.clientId with stopped := true } i).stopped = false →
        i ≠ m.clientId := fun i hi him => by
      subst him
      simp at hi
    refine h.done hpc rfl rfl rfl rfl (fun _ hp => by cases hp) (fun _ _ => id) (fun i hi => ?_)
      fun c k hc hg hg' => ?_
    · have him := hoff i hi
      simp only [State.active, Function.update_of_ne him] at hi ⊢
      exact h.pid i hi
    · rintro ⟨hact', hp⟩
      have him := hoff k.clientId hact'
      by_cases hcm : c = m.sender
      · subst hcm
        exact him (h.hand_id hpc (by rw [ht]; decide) hc).symm
      · simp only [State.active, Function.update_of_ne him] at hact' hp
        exact h.left c k hc (hg hcm) ⟨hact', hp⟩
  · refine h.done hpc rfl rfl rfl rfl (fun _ hp => by cases hp) (fun _ _ => id) h.pid
      fun c k hc hg hg' => ?_
    by_cases hcm : c = m.sender
    · obtain hs | hg := hg' hcm
      · rw [ht] at hs
        cases hs
      · exact h.left c k hc hg
    · exact h.left c k hc (hg hcm)
  · refine h.done hpc rfl rfl rfl rfl (fun _ hp => by cases hp) (fun _ _ => id) h.pid
      fun c k hc hg hg' => ?_
    by_cases hcm : c = m.sender
    · obtain hs | hg := hg' hcm
      · exact absurd hs hst
      · exact h.left c k hc hg
    · exact h.left c k hc (hg hcm)

end

theorem reach_ok {s : State} (h : system.Reach s) : s.Ok := by
  refine Machine.ReachIf.invariant h (fun s h0 => ?_) fun s l s' hI _ hn => ?_
  · cases h0
    exact ⟨fun _ _ hc => (by cases hc), fun _ _ => rfl, fun _ => rfl,
      fun _ hg => absurd rfl hg, fun _ hi => (by cases hi), fun _ _ hc => (by cases hc)⟩
  · cases l with
    | start c key => exact hI.start hn
    | client c x =>
      obtain ⟨k, hk, hn⟩ := Option.bind_eq_some_iff.mp hn
      obtain ⟨⟨k', e⟩, hx, hn⟩ := Option.bind_eq_some_iff.mp hn
      exact hI.client_step hk hx hn
    | server ok out stale =>
      simp only [system, serverStep] at hn
      split at hn
      · rename_i hpc
        split at hn
        · rename_i m q hq
          cases hn
          refine ⟨hI.client, hI.absent, fun c => ?_, hI.given, hI.pid, hI.left⟩
          have ho := hI.order c
          simp only [State.inbound, hpc, hq] at ho
          exact ho
        · rename_i hq
          split at hn <;> cases hn
          refine ⟨hI.client, hI.absent, fun c => ?_, hI.given, hI.pid, hI.left⟩
          have ho := hI.order c
          simp only [State.inbound, hpc] at ho
          exact ho
      · rename_i hpc
        cases hn
        exact hI.handle hpc
      · rename_i hpc
        cases hn
        exact hI.respond hpc
      · cases hn

end AghOs.MsgQueue
