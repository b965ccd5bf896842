import AghOs.MsgQueue.Slots

/-!
# The types of the responses

A response has the number of the slot as its type, and `msgsnd` takes no type
that is not positive. The search for a slot (`server.c`, lines 170–176) begins at
`0`, so that the first client to shake hands waits for its id in vain.

* `answers_until`: the responses are accepted as long as no HANDSHAKE finds slot
  `0` free, and not beyond.
* `first_client_waits`: the first HANDSHAKE does.
-/

namespace AghOs.MsgQueue

/-- `type` of a response, which is `client.id` or `msg.client_id`. -/
def Response.type (r : Response) : ℕ := r.clientId

/-- A response that has been built has a type that `msgsnd` accepts; if the queue
    of the slot is there and there is space in it, the response gets there. -/
def State.Answers (s : State) : Prop :=
  ∀ r req, s.pc = .respond r req →
    0 < r.type ∧
    ∀ d k, (s.clients r.clientId).queue = some d → s.client d = some k →
      s.key k.queueKey = some d →
      (respond s r req true).client d = some { k with inbox := k.inbox ++ [r] }

/-- Slot `0` is not free for a HANDSHAKE whose queue can be opened. -/
def ServerPc.slotZeroTaken (s : State) : ServerPc → Prop
  | .handle m => m.type = .handshake → s.key m.queueKey ≠ none → s.active 0
  | _ => True

def SlotZeroTaken (s : State) : Label → Prop
  | .server _ _ _ => s.pc.slotZeroTaken s
  | _ => True

instance (s : State) : DecidablePred (ServerPc.slotZeroTaken s)
  | .handle m =>
    inferInstanceAs (Decidable (m.type = .handshake → s.key m.queueKey ≠ none → s.active 0))
  | .receive => inferInstanceAs (Decidable True)
  | .respond _ _ => inferInstanceAs (Decidable True)
  | .exited => inferInstanceAs (Decidable True)

instance (s : State) : DecidablePred (SlotZeroTaken s)
  | .server _ _ _ => inferInstanceAs (Decidable (s.pc.slotZeroTaken s))
  | .start _ _ => inferInstanceAs (Decidable True)
  | .client _ _ => inferInstanceAs (Decidable True)

section

variable {s : State} {m : Msg} {r : Response} {req : Option ℕ} {out : List UInt8}
  {stale : Option ℕ}

theorem answers_iff :
    s.Answers ↔ ∀ r req, s.pc = .respond r req → r.clientId ≠ 0 := by
  constructor
  · intro h r req hpc hzero
    have hpos := (h r req hpc).1
    rw [Response.type, hzero] at hpos
    exact absurd hpos (Nat.lt_irrefl 0)
  · intro h r req hpc
    have hne := h r req hpc
    refine ⟨Nat.pos_of_ne_zero fun hzero => hne (Fin.ext hzero), fun d k hqueue hk hkey => ?_⟩
    simp only [respond, hne, ne_eq, not_false_eq_true, and_self, if_true, hqueue, State.deliver,
      hk, Option.bind_some, hkey, Function.update_self]

/-! ## The response to a message -/

theorem freeSlot_zero {clients : Slot → Entry} (h : (clients 0).stopped = true) :
    freeSlot clients = some 0 := by
  unfold freeSlot
  show (List.finRange (255 + 1)).find? _ = _
  rw [List.finRange_succ]
  exact List.find?_cons_of_pos h

theorem freeSlot_stopped {clients : Slot → Entry} {i : Slot} (h : freeSlot clients = some i) :
    (clients i).stopped = true :=
  List.find?_some (p := fun i => (clients i).stopped) h

/-- A HANDSHAKE that is answered found a free slot, and its queue. -/
theorem handshake_respond (h : (handshake s m out stale).pc = .respond r req) :
    freeSlot s.clients = some r.clientId ∧ s.key m.queueKey ≠ none := by
  unfold handshake at h
  split at h
  · cases h
  · rename_i cid hcid
    dsimp only at h
    split at h
    · cases h
    · rename_i d hd
      cases h
      exact ⟨hcid, by rw [hd]; exact Option.some_ne_none d⟩

/-- The message is handled without a response of type 0. -/
theorem handle_answers (hok : s.Ok) (hpc : s.pc = .handle m) (hzero : s.pc.slotZeroTaken s) :
    (handle s m out stale).Answers := by
  rw [answers_iff]
  intro r req hr
  rw [hpc] at hzero
  obtain ⟨he, -⟩ | ⟨cid, queue, pc, ht, -, -, -⟩ | ⟨-, -, he⟩ | ⟨-, he⟩ | ⟨hhs, hst, -, he⟩ :=
    handle_cases s m out stale
  · rw [he] at hr
    cases hr
  · have he : handle s m out stale = handshake s m out stale := by simp [handle, ht]
    rw [he] at hr
    obtain ⟨hfree, hkey⟩ := handshake_respond hr
    intro h0
    rw [h0] at hfree
    have hstopped := freeSlot_stopped hfree
    rw [show (s.clients 0).stopped = false from hzero ht hkey] at hstopped
    cases hstopped
  · rw [he] at hr
    cases hr
  · rw [he] at hr
    cases hr
  · -- a request carries the id of its sender
    rw [he] at hr
    cases hr
    obtain ⟨k, hk, hokk⟩ := hok.hand_client hpc
    have hmem : m ∈ s.sent m.sender := by
      rw [← hok.hand_mem hpc]
      simp
    exact hokk.requests m hmem hhs hst

/-- The response to a HANDSHAKE that finds slot `0` free has the type 0. -/
theorem handle_not_answers (hpc : s.pc = .handle m) (hzero : ¬s.pc.slotZeroTaken s) :
    ¬(handle s m out stale).Answers := by
  rw [hpc] at hzero
  simp only [ServerPc.slotZeroTaken, Classical.not_imp] at hzero
  obtain ⟨ht, hkey, hfree⟩ := hzero
  obtain ⟨d, hd⟩ := Option.ne_none_iff_exists'.mp hkey
  have hstopped : (s.clients 0).stopped = true := by simpa [State.active] using hfree
  have hslot := freeSlot_zero hstopped
  have hresp : (handle s m out stale).pc = .respond ⟨0, out⟩ none := by
    have he : handle s m out stale = handshake s m out stale := by simp [handle, ht]
    rw [he]
    simp only [handshake, hslot, hd]
    rfl
  rw [answers_iff]
  exact fun h => h _ _ hresp rfl

end

/-! ## Runs -/

theorem answers_of_receive {s : State} (h : ∀ r req, s.pc ≠ .respond r req) : s.Answers :=
  fun r req hpc => absurd hpc (h r req)

theorem reachIf_answers {s : State} (h : system.ReachIf SlotZeroTaken s) : s.Answers := by
  refine Machine.ReachIf.invariant_of (I := fun s : State => s.Answers) (J := fun s : State => s.Ok)
    h (fun s hr => reach_ok hr.reach) (fun s h0 => ?_) fun s l s' hok _ hI hC hn => ?_
  · cases h0
    exact answers_of_receive fun _ _ hpc => by cases hpc
  · cases l with
    | start c key =>
      simp only [system, startClient] at hn
      split at hn <;> cases hn
      have hne := answers_iff.mp hI
      exact answers_iff.mpr hne
    | client c x =>
      obtain ⟨k, hk, hn⟩ := Option.bind_eq_some_iff.mp hn
      obtain ⟨⟨k', e⟩, hx, hn⟩ := Option.bind_eq_some_iff.mp hn
      obtain ⟨hpc, -⟩ := put_eq hn
      rw [answers_iff, hpc]
      exact answers_iff.mp hI
    | server ok out stale =>
      simp only [system, serverStep] at hn
      split at hn
      · repeat' split at hn
        all_goals cases hn
        all_goals exact answers_of_receive fun _ _ hpc => by cases hpc
      · rename_i hpc
        cases hn
        exact handle_answers hok hpc hC
      · rename_i r req hpc
        cases hn
        refine answers_of_receive fun r' req' hpc' => ?_
        obtain he | ⟨d, k, -, -, -, he⟩ := respond_cases s r req ok
        all_goals
          rw [he] at hpc'
          cases hpc'
      · cases hn

/-- As long as no HANDSHAKE finds slot `0` free every response is accepted; the
    first that does is answered with one that is not. -/
theorem answers_until {s : State} (h : system.ReachIf SlotZeroTaken s) :
    s.Answers ∧ ∀ l s', system.next s l = some s' → (s'.Answers ↔ SlotZeroTaken s l) := by
  refine ⟨reachIf_answers h, fun l s' hn => ⟨fun hans => ?_, fun hC =>
    reachIf_answers (h.step hC hn)⟩⟩
  by_contra hC
  cases l with
  | start c key => exact hC trivial
  | client c x => exact hC trivial
  | server ok out stale =>
    cases hpc : s.pc with
    | handle m =>
      simp only [system, serverStep, hpc, Option.some.injEq] at hn
      subst hn
      exact handle_not_answers hpc hC hans
    | receive => exact hC (by simp only [SlotZeroTaken, hpc]; trivial)
    | respond r req => exact hC (by simp only [SlotZeroTaken, hpc]; trivial)
    | exited => exact hC (by simp only [SlotZeroTaken, hpc]; trivial)

/-- Slot `0` goes to a client that has removed its queue again; the next client
    gets slot `1`, and its id. -/
theorem answers_until_two :
    ∃ s : State, s.given 1 = some 1 ∧ (s.client 1).bind Client.id = some 1 ∧ s.Answers ∧
      ∀ l s', system.next s l = some s' → (s'.Answers ↔ SlotZeroTaken s l) := by
  obtain ⟨s, hr, hs⟩ := Machine.ReachIf.of_runIf (M := system) (C := SlotZeroTaken)
    (.start 0 10 :: steps 0 2 none ++ [.client 0 .sigint] ++
      List.replicate 2 (.client 0 (.step false none)) ++ serves 2 ++ connects 1 11 2)
    (fun s => (s.given 1, (s.client 1).bind Client.id)) (some 1, some 1) rfl rfl
  simp only [Prod.mk.injEq] at hs
  exact ⟨s, hs.1, hs.2, answers_until hr⟩

/-- The first client gets slot `0`. -/
theorem first_client_waits :
    ∃ s : State, system.Reach s ∧ s.given 0 = some 0 ∧ s.active 0 ∧ ¬s.Answers := by
  obtain ⟨s, hr, hs⟩ := Machine.Reach.of_run (M := system)
    (.start 0 10 :: steps 0 2 none ++ serves 2)
    (fun s => (s.given 0, (s.clients 0).stopped, match s.pc with
      | .respond r _ => some r.clientId
      | _ => none)) (some 0, false, some 0) rfl rfl
  simp only [Prod.mk.injEq] at hs
  obtain ⟨hgiven, hactive, hpc⟩ := hs
  refine ⟨s, hr, hgiven, hactive, fun h => ?_⟩
  split at hpc
  · rename_i r req hpc'
    exact answers_iff.mp h r req hpc' (Option.some.inj hpc)
  · cases hpc

end AghOs.MsgQueue
