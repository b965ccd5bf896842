import AghOs.MsgQueue.Order

/-!
# The slots and their clients

The server frees a slot on a `STOP` that carries its number, whoever sent it. A
client that gets SIGINT sends two `STOP`s, one from the signal handler and one from
`exit`, and a client that has no id yet sends one for slot `0`. In between, the
slot can have gone to another client.

* `second_stop`: it happens, and then two clients have one id, and one gets the
  response to the other.
* `slots_owned_iff`: as long as no such `STOP` is accepted, and only then, every
  `STOP` accepted comes from the client in the slot; then ids are distinct and
  responses go to those who asked.
-/

namespace AghOs.MsgQueue

/-- The id that the client has been given, from the receipt of the answer to its
    HANDSHAKE on. No client is given the id `0`. -/
def Client.id (k : Client) : Option Slot :=
  match k.pc with
  | .assign id => some id
  | _ => if k.clientId = 0 then none else some k.clientId

/-- The client has not sent any `STOP`. -/
def State.live (s : State) (c : ℕ) : Prop := ∀ m ∈ s.sent c, m.type ≠ .stop

/-- Slots, ids and responses are those of the right clients. -/
structure State.Routed (s : State) : Prop where
  /-- every `STOP` accepted came from the client in its slot -/
  stops : ∀ p ∈ s.accepted, p.1 = p.2
  /-- a client with an id that has sent no `STOP` is active -/
  active : ∀ c k i, s.client c = some k → k.id = some i → s.live c → s.active i
  /-- no two of them have the same id -/
  distinct : ∀ c d k l i, s.client c = some k → s.client d = some l → k.id = some i →
    l.id = some i → s.live c → s.live d → c = d
  /-- every response to a request went to the queue of its sender -/
  responses : ∀ p ∈ s.responded, p.2 = p.1

/-- A `STOP` for an active slot that the server is about to handle is the first
    one of its client that it handles, and the slot is the one that it gave to the
    HANDSHAKE of this client. -/
def ServerPc.inOrder (s : State) : ServerPc → Prop
  | .handle m => m.type = .stop → s.active m.clientId →
      ¬s.gone m.sender ∧ s.given m.sender = some m.clientId
  | _ => True

def StopInOrder (s : State) : Label → Prop
  | .server _ _ _ => s.pc.inOrder s
  | _ => True

instance (s : State) (i : Slot) : Decidable (s.active i) :=
  inferInstanceAs (Decidable ((s.clients i).stopped = false))

instance (s : State) (c : ℕ) : Decidable (s.gone c) :=
  inferInstanceAs (Decidable (∃ m ∈ s.handled c, m.type = .stop))

instance (s : State) : DecidablePred (ServerPc.inOrder s)
  | .handle m => inferInstanceAs (Decidable (m.type = .stop → s.active m.clientId →
      ¬s.gone m.sender ∧ s.given m.sender = some m.clientId))
  | .receive => inferInstanceAs (Decidable True)
  | .respond _ _ => inferInstanceAs (Decidable True)
  | .exited => inferInstanceAs (Decidable True)

instance (s : State) : DecidablePred (StopInOrder s)
  | .server _ _ _ => inferInstanceAs (Decidable (s.pc.inOrder s))
  | .start _ _ => inferInstanceAs (Decidable True)
  | .client _ _ => inferInstanceAs (Decidable True)

/-! ## The invariant -/

/-- The client has the id `i`, or an answer that will give it, and the server has
    handled no `STOP` of it. -/
def Client.holds (k : Client) (gone : Prop) (i : Slot) : Prop :=
  k.clientId = i ∧ i ≠ 0 ∧ ¬gone ∨ k.pc = .assign i ∨
    (k.pc.phase = .fresh ∨ k.pc = .shaken) ∧ ∃ r ∈ k.inbox, r.clientId = i

theorem Client.holds_of_id {k : Client} {gone : Prop} {i : Slot} (h : k.id = some i)
    (hg : ¬gone) : k.holds gone i := by
  unfold Client.id at h
  split at h
  · rename_i id hpc
    cases h
    exact .inr (.inl hpc)
  · split at h <;> cases h
    exact .inl ⟨rfl, ‹_›, hg⟩

theorem Client.holds.ne_zero {c : ℕ} {k : Client} {sent : List Msg} {gone : Prop} {i : Slot}
    (h : k.holds gone i) (hok : ClientOk c k sent) : i ≠ 0 := by
  obtain ⟨-, hi, -⟩ | ha | ⟨-, r, hr, rfl⟩ := h
  · exact hi
  · exact hok.assign i ha
  · exact hok.inbox r hr

theorem Client.holds.mono {k : Client} {gone gone' : Prop} {i : Slot} (hg : gone → gone')
    (h : k.holds gone' i) : k.holds gone i := by
  obtain ⟨hid, hi, hng⟩ | h := h
  · exact .inl ⟨hid, hi, fun hg' => hng (hg hg')⟩
  · exact .inr h

/-- A client that has sent a `STOP` which the server has handled holds nothing. -/
theorem Client.not_holds {c : ℕ} {k : Client} {sent : List Msg} {gone : Prop} {i : Slot} {m : Msg}
    (hok : ClientOk c k sent) (hm : m ∈ sent) (hstop : m.type = .stop) (hg : gone) :
    ¬k.holds gone i := by
  have hw : k.pc.phase ≠ .waiting := fun hw => by
    have := hok.waiting hw m hm
    rw [hstop] at this
    cases this
  rintro (⟨-, -, hng⟩ | ha | ⟨hf | hs, -⟩)
  · exact hng hg
  · exact hw (by rw [ha]; rfl)
  · rw [hok.fresh hf] at hm
    cases hm
  · exact hw (by rw [hs]; rfl)

/-- What a client holds after a step of its own, it held before. -/
theorem clientNext_holds {c : ℕ} {k k' : Client} {x : Input} {e : Effect} {gone : Prop} {i : Slot}
    (hn : clientNext c k x = some (k', e)) (h : k'.holds gone i) : k.holds gone i := by
  cases x with
  | sigint =>
    obtain ⟨k'', hk, hp⟩ := Option.map_eq_some_iff.mp hn
    cases hp
    unfold sigint at hk
    split at hk <;> cases hk <;> obtain h | h | ⟨h | h, -⟩ := h <;>
      first | exact .inl h | cases h
  | step ok line =>
    simp only [clientNext, clientStep] at hn
    split at hn
    all_goals rename_i hpc
    case h_4 =>
      -- the id is set
      cases hn
      obtain ⟨rfl, -⟩ | h | ⟨h | h, -⟩ := h
      · exact .inr (.inl hpc)
      all_goals cases h
    case h_5 =>
      split at hn <;> cases hn
      · obtain h | h | ⟨h | h, -⟩ := h
        · exact .inl h
        all_goals cases h
      · have hrun := phase_command ‹_›
        obtain h | h | ⟨h | h, -⟩ := h
        · exact .inl h
        all_goals
          simp only at h
          rw [h] at hrun
          cases hrun
    all_goals repeat' split at hn
    all_goals cases hn
    all_goals obtain h | h | ⟨h | h, r', hr', hi⟩ := h
    all_goals first
      | exact .inl h
      | exact .inr (.inr ⟨.inl (by rw [hpc]; rfl), r', hr', hi⟩)
      | cases h
    · -- the answer to the HANDSHAKE is received
      have hin := ‹k.inbox = _ :: _›
      exact .inr (.inr ⟨.inr hpc, _, by rw [hin]; exact List.mem_cons_self .., rfl⟩)

/-- What holds as long as no `STOP` out of order is accepted. -/
structure State.Owned (s : State) : Prop where
  /-- what a client holds is its slot, with its queue -/
  holds : ∀ c k i, s.client c = some k → k.holds (s.gone c) i →
    s.active i ∧ (s.clients i).queue = some c
  /-- the slot given to a client is its own until a `STOP` of it is handled -/
  given : ∀ c i, s.given c = some i → s.gone c ∨ s.active i ∧ (s.clients i).pid = c
  /-- a response goes to an active slot, and to the client that asked -/
  answers : ∀ r req, s.pc = .respond r req → s.active r.clientId ∧
    ∀ c, req = some c → (s.clients r.clientId).queue = some c
  accepted : ∀ p ∈ s.accepted, p.1 = p.2
  responded : ∀ p ∈ s.responded, p.2 = p.1

theorem State.Owned.start {s s' : State} {c key : ℕ} (h : s.Owned)
    (hn : startClient s c key = some s') : s'.Owned := by
  unfold startClient at hn
  split at hn <;> cases hn
  refine ⟨fun d k i hd hk => ?_, h.given, h.answers, h.accepted, h.responded⟩
  by_cases hdc : d = c
  · subst hdc
    obtain rfl : Client.new key = k := by simpa using hd
    obtain ⟨hid, hi, -⟩ | ha | ⟨-, r, hr, -⟩ := hk
    · exact absurd hid.symm hi
    · cases ha
    · cases hr
  · exact h.holds d k i (by simpa [Function.update_of_ne hdc] using hd) hk

theorem State.Owned.client_step {s s' : State} {c : ℕ} {k k' : Client} {x : Input} {e : Effect}
    (h : s.Owned) (hk : s.client c = some k) (hx : clientNext c k x = some (k', e))
    (hn : s.put c k' e = some s') : s'.Owned := by
  obtain ⟨hpc, hclients, hhandled, hgiven, hacc, hresp, hclient, -, -⟩ := put_eq hn
  have hgone : s'.gone = s.gone := by
    funext d
    rw [State.gone, State.gone, hhandled]
  have hact : s'.active = s.active := by
    funext i
    rw [State.active, State.active, hclients]
  refine ⟨fun d l i hd hl => ?_, ?_, ?_, hacc ▸ h.accepted, hresp ▸ h.responded⟩
  · rw [hact, hclients]
    rw [hgone] at hl
    by_cases hdc : d = c
    · subst hdc
      obtain rfl : k' = l := by simpa [hclient] using hd
      exact h.holds d k i hk (clientNext_holds hx hl)
    · exact h.holds d l i (by simpa [hclient, Function.update_of_ne hdc] using hd) hl
  · rw [hgiven, hgone, hact, hclients]
    exact h.given
  · rw [hpc, hact, hclients]
    exact h.answers

theorem State.Owned.respond_step {s : State} {r : Response} {req : Option ℕ} {ok : Bool}
    (h : s.Owned) (hpc : s.pc = .respond r req) : (respond s r req ok).Owned := by
  obtain ⟨hact, hreq⟩ := h.answers r req hpc
  obtain he | ⟨d, k, hr, hqueue, hk, he⟩ := respond_cases s r req ok
  all_goals rw [he]
  · exact ⟨h.holds, h.given, fun _ _ hp => (by cases hp), h.accepted, h.responded⟩
  · refine ⟨fun c l i hc hl => ?_, h.given, fun _ _ hp => (by cases hp), h.accepted,
      fun p hp => ?_⟩
    · by_cases hcd : c = d
      · subst hcd
        obtain rfl : { k with inbox := k.inbox ++ [r] } = l := by simpa using hc
        obtain hid | ha | ⟨hf, r', hr', rfl⟩ := hl
        · exact h.holds c k i hk (.inl hid)
        · exact h.holds c k i hk (.inr (.inl ha))
        · -- the response that has just come is from the slot that has the queue
          obtain hr' | rfl : r' ∈ k.inbox ∨ r' = r := by simpa using hr'
          · exact h.holds c k _ hk (.inr (.inr ⟨hf, r', hr', rfl⟩))
          · exact ⟨hact, hqueue⟩
      · exact h.holds c l i (by simpa [Function.update_of_ne hcd] using hc) hl
    · obtain hp | hp := List.mem_append.mp hp
      · exact h.responded p hp
      · cases req with
        | none => cases hp
        | some c =>
          obtain rfl : p = (c, d) := by simpa using hp
          have := hreq c rfl
          rw [hqueue] at this
          exact Option.some.inj this

section

variable {s : State} {m : Msg}

/-- `gone` after a message has been handled. -/
theorem gone_done {t : State} {p : ServerPc} (hhandled : t.handled = s.handled) (c : ℕ) :
    (t.done m p).gone c ↔ s.gone c ∨ c = m.sender ∧ m.type = .stop := by
  have hha : (t.done m p).handled c =
      Function.update s.handled m.sender (s.handled m.sender ++ [m]) c := by
    simp [State.done, hhandled]
  rw [State.gone, hha]
  by_cases hcm : c = m.sender
  · subst hcm
    simp [State.gone, or_and_right, exists_or]
  · simp [State.gone, hcm]

/-- A message that changes no slot has been handled. -/
theorem State.Owned.done {s' : State} {pc : ServerPc} (h : s.Owned)
    (hclient : s'.client = s.client) (hhandled : s'.handled = s.handled)
    (hclients : s'.clients = s.clients) (hgiven : s'.given = s.given)
    (hacc : s'.accepted = s.accepted) (hresp : s'.responded = s.responded)
    (hpc : ∀ r req, pc = .respond r req → s.active r.clientId ∧
      ∀ c, req = some c → (s.clients r.clientId).queue = some c) : (s'.done m pc).Owned := by
  have hgone := fun c => gone_done (m := m) (p := pc) hhandled c
  refine ⟨fun c k i hc hk => ?_, fun c i hc => ?_, fun r req hp => ?_, ?_, ?_⟩
  · have := h.holds c k i (hclient ▸ hc) (hk.mono fun hg => (hgone c).mpr (.inl hg))
    simpa only [State.active, State.done, hclients] using this
  · obtain hg | hown := h.given c i (hgiven ▸ hc)
    · exact .inl ((hgone c).mpr (.inl hg))
    · exact .inr (by simpa only [State.active, State.done, hclients] using hown)
  · simpa only [State.active, State.done, hclients] using hpc r req hp
  · exact hacc ▸ h.accepted
  · exact hresp ▸ h.responded

/-- A HANDSHAKE has been given a slot. -/
theorem State.Owned.handshake {cid : Slot} {queue : Option ℕ} {pc : ServerPc} {out : List UInt8}
    (h : s.Owned) (hcid : ¬s.active cid)
    (hpc : pc = .receive ∨ ∃ d, queue = some d ∧ pc = .respond ⟨cid, out⟩ none) :
    State.Owned ({ s with
      clients := Function.update s.clients cid ⟨m.sender, cid, false, queue⟩
      given := Function.update s.given m.sender (some cid) }.done m pc) := by
  have hgone := fun c => gone_done (s := s) (m := m) (p := pc) (t := { s with
    clients := Function.update s.clients cid ⟨m.sender, cid, false, queue⟩
    given := Function.update s.given m.sender (some cid) }) rfl c
  refine ⟨fun c k i hc hk => ?_, fun c i hc => ?_, fun r req hp => ?_, h.accepted, h.responded⟩
  · obtain ⟨hact, hq⟩ := h.holds c k i hc (hk.mono fun hg => (hgone c).mpr (.inl hg))
    have hic : i ≠ cid := fun hic => hcid (hic ▸ hact)
    simp only [State.active, State.done, Function.update_of_ne hic]
    exact ⟨hact, hq⟩
  · by_cases hcm : c = m.sender
    · subst hcm
      obtain rfl : cid = i := by simpa [State.done] using hc
      exact .inr (by simp [State.active, State.done])
    · simp only [State.done, Function.update_of_ne hcm] at hc
      obtain hg | ⟨hact, hp⟩ := h.given c i hc
      · exact .inl ((hgone c).mpr (.inl hg))
      · have hic : i ≠ cid := fun hic => hcid (hic ▸ hact)
        refine .inr ?_
        simp only [State.active, State.done, Function.update_of_ne hic]
        exact ⟨hact, hp⟩
  · have hp : pc = .respond r req := hp
    obtain rfl | ⟨d, -, rfl⟩ := hpc <;> cases hp
    exact ⟨by simp [State.active, State.done], fun _ hr => by cases hr⟩

/-- A `STOP` in order has been accepted: it comes from the client in the slot, and
    this client holds nothing any more. -/
theorem State.Owned.stop (h : s.Owned) (hok : s.Ok) (hpc : s.pc = .handle m)
    (ht : m.type = .stop) (hg : ¬s.gone m.sender)
    (hgiven : s.given m.sender = some m.clientId) : (stop s m).Owned := by
  have hgone := fun c => gone_done (s := s) (m := m) (p := .receive) (t := { s with
    clients := Function.update s.clients m.clientId { s.clients m.clientId with stopped := true }
    accepted := s.accepted ++ [(m.sender, (s.clients m.clientId).pid)] }) rfl c
  have hpid : (s.clients m.clientId).pid = m.sender :=
    ((h.given _ _ hgiven).resolve_left hg).2
  obtain ⟨ks, hks, hoks⟩ := hok.hand_client hpc
  have hid := hok.hand_id hpc (by rw [ht]; decide) hks
  have hmem : m ∈ s.sent m.sender := by
    rw [← hok.hand_mem hpc]
    simp
  have hown : ∀ c k i, s.client c = some k → k.holds ((MsgQueue.stop s m).gone c) i →
      i ≠ m.clientId := fun c k i hc hk him => by
    subst him
    have hk' := hk.mono fun hg => (hgone c).mpr (.inl hg)
    have hne := hk'.ne_zero (hok.client c k hc)
    -- the sender holds the slot too, so its queue is that of the sender
    have hq := (h.holds c k _ hc hk').2
    rw [(h.holds m.sender ks _ hks (.inl ⟨hid.symm, hne, hg⟩)).2] at hq
    obtain rfl : m.sender = c := Option.some.inj hq
    obtain rfl : ks = k := Option.some.inj (hks.symm.trans hc)
    exact Client.not_holds hoks hmem ht ((hgone _).mpr (.inr ⟨rfl, ht⟩)) hk
  refine ⟨fun c k i hc hk => ?_, fun c i hc => ?_, fun r req hp => ?_, fun p hp => ?_,
    h.responded⟩
  · have him := hown c k i hc hk
    have := h.holds c k i hc (hk.mono fun hg => (hgone c).mpr (.inl hg))
    simpa only [State.active, MsgQueue.stop, State.done, Function.update_of_ne him] using this
  · obtain hg' | ⟨hact', hp⟩ := h.given c i hc
    · exact .inl ((hgone c).mpr (.inl hg'))
    · by_cases hcm : c = m.sender
      · exact .inl ((hgone c).mpr (.inr ⟨hcm, ht⟩))
      · have him : i ≠ m.clientId := fun him => by
          rw [him, hpid] at hp
          exact hcm hp.symm
        refine .inr ?_
        simpa only [State.active, MsgQueue.stop, State.done, Function.update_of_ne him] using
          And.intro hact' hp
  · cases hp
  · obtain hp | hp := List.mem_append.mp hp
    · exact h.accepted p hp
    · rw [List.mem_singleton.mp hp, hpid]

theorem State.Owned.handle {out : List UInt8} {stale : Option ℕ} (h : s.Owned) (hok : s.Ok)
    (hpc : s.pc = .handle m) (hin : s.pc.inOrder s) : (handle s m out stale).Owned := by
  rw [hpc] at hin
  obtain ⟨he, -⟩ | ⟨cid, queue, pc, -, hcid, hpc', he⟩ | ⟨ht, hact, he⟩ | ⟨-, he⟩ |
    ⟨hhs, hst, hact, he⟩ := handle_cases s m out stale
  all_goals rw [he]
  · exact h.done rfl rfl rfl rfl rfl rfl fun _ _ hp => by cases hp
  · exact h.handshake hcid hpc'
  · obtain ⟨hg, hgiven⟩ := hin ht hact
    exact h.stop hok hpc ht hg hgiven
  · exact h.done rfl rfl rfl rfl rfl rfl fun _ _ hp => by cases hp
  · -- a request: its sender has the id that it carries, and has not been stopped
    refine h.done rfl rfl rfl rfl rfl rfl fun r req hp => ?_
    cases hp
    refine ⟨hact, fun c hc => ?_⟩
    obtain rfl := Option.some.inj hc
    obtain ⟨k, hk, hokk⟩ := hok.hand_client hpc
    have hmem : m ∈ s.sent m.sender := by
      rw [← hok.hand_mem hpc]
      simp
    exact (h.holds _ k _ hk (.inl ⟨(hok.hand_id hpc hhs hk).symm, hokk.requests m hmem hhs hst,
      hok.hand_not_gone hpc hst⟩)).2

end

theorem reachIf_owned {s : State} (h : system.ReachIf StopInOrder s) : s.Owned := by
  refine Machine.ReachIf.invariant_of (I := fun s : State => s.Owned) (J := fun s : State => s.Ok)
    h (fun s hr => reach_ok hr.reach) (fun s h0 => ?_) fun s l s' hok _ hI hin hn => ?_
  · cases h0
    exact ⟨fun _ _ _ hc => (by cases hc), fun _ _ hc => (by cases hc),
      fun _ _ hp => (by cases hp), fun _ hp => (by cases hp), fun _ hp => (by cases hp)⟩
  · cases l with
    | start c key => exact hI.start hn
    | client c x =>
      obtain ⟨k, hk, hn⟩ := Option.bind_eq_some_iff.mp hn
      obtain ⟨⟨k', e⟩, hx, hn⟩ := Option.bind_eq_some_iff.mp hn
      exact hI.client_step hk hx hn
    | server ok out stale =>
      simp only [system, serverStep] at hn
      split at hn
      · repeat' split at hn
        all_goals cases hn
        all_goals exact ⟨hI.holds, hI.given, fun _ _ hp => (by cases hp), hI.accepted, hI.responded⟩
      · rename_i hpc
        cases hn
        exact hI.handle hok hpc hin
      · rename_i hpc
        cases hn
        exact hI.respond_step hpc
      · cases hn

/-! ## Ownership -/

theorem State.Ok.not_gone {s : State} (h : s.Ok) {c : ℕ} (hc : s.live c) : ¬s.gone c := by
  rintro ⟨m, hm, hstop⟩
  refine hc m ?_ hstop
  rw [← h.order c]
  exact List.mem_append_left _ hm

theorem State.Owned.routed {s : State} (h : s.Owned) (hok : s.Ok) : s.Routed where
  stops := h.accepted
  active c k i hc hid hlive :=
    (h.holds c k i hc (Client.holds_of_id hid (hok.not_gone hlive))).1
  distinct c d k l i hc hd hk hl hlc hld := by
    have hqc := (h.holds c k i hc (Client.holds_of_id hk (hok.not_gone hlc))).2
    have hqd := (h.holds d l i hd (Client.holds_of_id hl (hok.not_gone hld))).2
    rw [hqc] at hqd
    exact Option.some.inj hqd
  responses := h.responded

/-- What has been accepted stays so. -/
theorem mem_accepted {s s' : State} {l : Label} (hn : system.next s l = some s') {p : ℕ × ℕ}
    (hp : p ∈ s.accepted) : p ∈ s'.accepted := by
  cases l with
  | start c key =>
    simp only [system, startClient] at hn
    split at hn <;> cases hn
    exact hp
  | client c x =>
    obtain ⟨k, -, hn⟩ := Option.bind_eq_some_iff.mp hn
    obtain ⟨⟨k', e⟩, -, hn⟩ := Option.bind_eq_some_iff.mp hn
    obtain ⟨-, -, -, -, hacc, -⟩ := put_eq hn
    rwa [hacc]
  | server ok out stale =>
    simp only [system, serverStep] at hn
    split at hn
    · repeat' split at hn
      all_goals cases hn
      all_goals exact hp
    · rename_i m hpc
      cases hn
      obtain ⟨he, -⟩ | ⟨cid, queue, pc, -, -, -, he⟩ | ⟨-, -, he⟩ | ⟨-, he⟩ | ⟨-, -, -, he⟩ :=
        handle_cases s m out stale
      all_goals rw [he]
      · exact hp
      · exact hp
      · exact List.mem_append_left _ hp
      · exact hp
      · exact hp
    · rename_i r req hpc
      cases hn
      obtain he | ⟨d, k, -, -, -, he⟩ := respond_cases s r req ok
      all_goals rw [he]; exact hp
    · cases hn

/-- A `STOP` out of order does not come from the client in the slot. -/
theorem accepted_of_not_inOrder {s s' : State} {l : Label} (hok : s.Ok) (hbad : ¬StopInOrder s l)
    (hn : system.next s l = some s') : ∃ p ∈ s'.accepted, p.1 ≠ p.2 := by
  cases l with
  | start c key => exact absurd trivial hbad
  | client c x => exact absurd trivial hbad
  | server ok out stale =>
    simp only [StopInOrder] at hbad
    cases hpc : s.pc with
    | receive => rw [hpc] at hbad; exact absurd trivial hbad
    | respond r req => rw [hpc] at hbad; exact absurd trivial hbad
    | exited => rw [hpc] at hbad; exact absurd trivial hbad
    | handle m =>
      rw [hpc] at hbad
      simp only [ServerPc.inOrder, not_forall] at hbad
      obtain ⟨ht, hact, hbad⟩ := hbad
      simp only [system, serverStep, hpc, Option.some.injEq] at hn
      have hs : handle s m out stale = stop s m := by
        have hgo : (s.clients m.clientId).stopped = false := hact
        simp [handle, ht, hgo]
      subst hn
      refine ⟨(m.sender, (s.clients m.clientId).pid), by rw [hs]; simp [stop, State.done],
        fun hp => hbad ?_⟩
      have hp : (s.clients m.clientId).pid = m.sender := hp.symm
      have hgiven := hok.pid _ hact
      rw [hp] at hgiven
      refine ⟨fun hg => ?_, hgiven⟩
      -- its own `STOP` has freed the slot already, for this client to have it again
      obtain ⟨k, hk, -⟩ := hok.hand_client hpc
      have hid := hok.hand_id hpc (by rw [ht]; decide) hk
      exact hok.left _ k hk hg (hid ▸ ⟨hact, hp⟩)

/-- Slots, ids and responses are those of the right clients if and only if no
    `STOP` has been accepted out of order. -/
theorem slots_owned_iff {s : State} (h : system.Reach s) :
    s.Routed ↔ system.ReachIf StopInOrder s := by
  constructor
  · intro hr
    obtain hin | ⟨p, hp, hne⟩ := h.reachIf_or (L := fun s => ∃ p ∈ s.accepted, p.1 ≠ p.2)
      (fun _ _ _ hr hbad hn => accepted_of_not_inOrder (reach_ok hr.reach) hbad hn)
      fun _ _ _ _ hL hn => hL.imp fun _ hp => ⟨mem_accepted hn hp.1, hp.2⟩
    · exact hin
    · exact absurd (hr.stops p hp) hne
  · exact fun hin => (reachIf_owned hin).routed (reach_ok h)

/-! ### Runs -/

/-- Client `c` makes `n` steps in which all calls succeed; `fgets` returns `line`. -/
def steps (c n : ℕ) (line : Option (List UInt8)) : List Label :=
  List.replicate n (.client c (.step true line))

/-- The server makes `n` steps. -/
def serves (n : ℕ) : List Label := List.replicate n (.server true [] none)

/-- Client `c` starts and sends its HANDSHAKE, the server answers it, and the
    client takes its id; in slot `0` there is no answer to take. -/
def connects (c key taken : ℕ) : List Label :=
  .start c key :: steps c 2 none ++ serves 3 ++ steps c taken none

/-- One client in slot `0`; one in slot `1`, which asks for a mirrored text and
    leaves at the end of its input. -/
theorem slots_owned_iff_two :
    ∃ s : State, s.accepted = [(1, 1)] ∧ s.responded = [(1, 1)] ∧ s.Routed ∧
      system.ReachIf StopInOrder s := by
  obtain ⟨s, hr, hs⟩ := Machine.ReachIf.of_runIf (M := system) (C := StopInOrder)
    (connects 0 10 0 ++ connects 1 11 2 ++
      steps 1 2 (some [109, 105, 114, 114, 111, 114, 32, 120]) ++ serves 3 ++ steps 1 4 none ++
      serves 2)
    (fun s => (s.accepted, s.responded)) ([(1, 1)], [(1, 1)]) rfl rfl
  simp only [Prod.mk.injEq] at hs
  exact ⟨s, hs.1, hs.2, (slots_owned_iff hr.reach).mpr hr, hr⟩

/-- Client `1`, in slot `1`, gets SIGINT and sends its first `STOP`; client `2` gets
    slot `1`; the second `STOP` of client `1` frees it, and client `3` gets it. Then
    client `2` asks for a mirrored text, and client `3` gets it. -/
theorem second_stop :
    ∃ s : State, system.Reach s ∧ (1, 2) ∈ s.accepted ∧ (2, 3) ∈ s.responded ∧
      (s.client 2).bind Client.id = (s.client 3).bind Client.id ∧ ¬s.Routed := by
  obtain ⟨s, hr, hs⟩ := Machine.Reach.of_run (M := system)
    (connects 0 10 0 ++ connects 1 11 2 ++ [.client 1 .sigint] ++ steps 1 1 none ++ serves 2 ++
      connects 2 12 2 ++ steps 1 2 none ++ serves 2 ++ connects 3 13 2 ++
      steps 2 2 (some [109, 105, 114, 114, 111, 114, 32, 120]) ++ serves 3)
    (fun s => (s.accepted, s.responded, (s.client 2).bind Client.id, (s.client 3).bind Client.id))
    ([(1, 1), (1, 2)], [(2, 3)], some 1, some 1) rfl rfl
  simp only [Prod.mk.injEq] at hs
  obtain ⟨hacc, hresp, hid, hid'⟩ := hs
  refine ⟨s, hr, by simp [hacc], by simp [hresp], hid.trans hid'.symm, fun h => ?_⟩
  exact absurd (h.stops (1, 2) (by simp [hacc])) (by decide)

end AghOs.MsgQueue
