import AghOs.Signals.Requests

/-!
# When the parent hangs

* `Inv.answerable`: while the parent is in `sigsuspend`, a reply is pending or can still
  be sent.
* `lock_step`: if `SIGUSR1` finds a handler in the child, the parent does not hang, and
  it prints the right numbers.
* `hangs_iff`: otherwise it hangs.
-/

namespace AghOs.LockStep

/-! ## Replies -/

/-- The parent is in `sigsuspend`. -/
def System.Suspended (s : System) : Prop :=
  s.parent.proc.running = true ∧ (∃ old, s.parent.pc = .suspended old) ∧ s.parent.proc.frames = []

/-- A reply is pending or can still be sent: some run leads to a state where one is. -/
def Answerable (n : ℤ) (inherited : Sig → Bool) (s : System) : Prop :=
  ∃ ms s', (machine n inherited).run ms s = some s' ∧ s'.parent.proc.pending .usr1 = true

section

variable {n : ℤ} {inherited : Sig → Bool} {s s' : System} {f : SigFrame Sig HandlerPc}
  {fs : List (SigFrame Sig HandlerPc)}

theorem Answerable.of_next (m : Move) (t : System) (hs : s.next n m = some t)
    (h : Answerable n inherited t) : Answerable n inherited s := by
  obtain ⟨ms, s', hrun, hs'⟩ := h
  refine ⟨m :: ms, s', ?_, hs'⟩
  rw [Machine.run_cons]
  show (s.next n m).bind _ = _
  rw [hs]
  exact hrun

/-- Both processes run. -/
structure System.Alive (s : System) : Prop where
  parent : s.parent.proc.running = true
  child : s.child.proc.running = true

theorem System.Alive.answer_act (h : s.Alive) (hf : s.child.proc.frames = f :: fs)
    (hsig : f.sig = .usr1) (hpc : f.pc = .act) : Answerable n inherited s := by
  refine .of_next .child (s.childAct .usr1) ?_ ⟨[], _, rfl, ?_⟩
  · show s.stepChild = _
    unfold System.stepChild
    simp only [h.child, hf, hpc, hsig, if_true]
  · exact SigProcess.raise_pending h.parent

theorem System.Alive.answer_count (h : s.Alive) (hf : s.child.proc.frames = f :: fs)
    (hsig : f.sig = .usr1) (hpc : f.pc = .count) : Answerable n inherited s := by
  refine .of_next .child (s.mapChild fun c =>
    { c with receivedCount := toInt (c.receivedCount + 1), proc := c.proc.advance .act }) ?_ ?_
  · show s.stepChild = _
    unfold System.stepChild
    simp only [h.child, hf, hpc, if_true]
  · exact System.Alive.answer_act ⟨h.parent, h.child⟩ (SigProcess.frames_advance hf) hsig rfl

theorem System.Alive.answer_pending (h : s.Alive) (hp : s.child.proc.pending .usr1 = true)
    (hmask : s.child.proc.mask .usr1 = false) (hh : s.child.proc.handled .usr1 = true) :
    Answerable n inherited s := by
  refine .of_next (.signalChild .usr1) (s.mapChild fun c => { c with proc := { c.proc with
    pending := Function.update c.proc.pending .usr1 false
    mask := Function.update c.proc.mask .usr1 true
    frames := ⟨.usr1, .count, c.proc.mask⟩ :: c.proc.frames } }) ?_ ?_
  · show s.signalChild .usr1 = _
    unfold System.signalChild SigProcess.deliver
    rw [if_pos ⟨h.child, hp, by simp [hmask]⟩, if_pos hh]
    rfl
  · exact System.Alive.answer_count ⟨h.parent, h.child⟩ rfl rfl rfl

/-- A signal that is pending is answered, however far the child is. -/
theorem System.Alive.answer_nil (h : s.Alive) (hat : s.child.At) (hf : s.child.proc.frames = [])
    (hp : s.child.proc.pending .usr1 = true) : Answerable n inherited s := by
  have hinstall : ∀ t : System, t.Alive → t.child.proc.frames = [] →
      t.child.proc.pending .usr1 = true → t.child.proc.mask = childMask →
      t.child.pc = .installUsr1 → Answerable n inherited t := by
    intro t ht hf hp hmask hpc
    refine .of_next .child (t.mapChild fun c =>
      { c with pc := .installRt1, proc := c.proc.install .usr1 }) ?_ ?_
    · show t.stepChild = _
      unfold System.stepChild System.childMain
      simp only [ht.child, hf, hpc, if_true]
    · refine System.Alive.answer_pending ⟨ht.parent, ht.child⟩ hp ?_ rfl
      exact congrFun hmask .usr1
  cases hpc : s.child.pc with
  | setMask =>
    refine .of_next .child (s.mapChild fun c =>
      { c with pc := .installUsr1, proc := c.proc.setMask childMask }) ?_ ?_
    · show s.stepChild = _
      unfold System.stepChild System.childMain
      simp only [h.child, hf, hpc, if_true]
    · exact hinstall _ ⟨h.parent, h.child⟩ hf hp rfl rfl
  | installUsr1 => exact hinstall s h hf hp (hat.mask_nil hf (by simp [hpc])) hpc
  | _ =>
    have hready := hat.handled
    rw [hpc] at hready
    refine h.answer_pending hp ?_ hready
    rw [hat.mask_nil hf (by simp [hpc])]
    rfl

/-- Suspended, the parent has a reply to come. -/
theorem Inv.answerable (h : Inv n s) (hs : s.Suspended) : Answerable n inherited s := by
  obtain ⟨hrun, ⟨old, hpc⟩, hf⟩ := hs
  cases hp : s.parent.proc.pending .usr1 with
  | true => exact ⟨[], s, rfl, hp⟩
  | false =>
    have hat := h.parent
    unfold Parent.At at hat
    simp only [hpc] at hat
    obtain ⟨-, -, -, ⟨-, hflag, -⟩ | ⟨f, hf', -⟩⟩ := hat
    · have hchild := h.child (by rw [hpc]; rfl)
      have halive : s.Alive := ⟨hrun, hchild.running⟩
      have htokens := h.tokens
      unfold System.tokens at htokens
      rw [SigProcess.owed_nil hf, hp, hflag, hpc] at htokens
      cases hcf : s.child.proc.frames with
      | nil =>
        rw [SigProcess.owed_nil hcf] at htokens
        refine halive.answer_nil hchild hcf ?_
        cases hcp : s.child.proc.pending .usr1 with
        | true => rfl
        | false =>
          rw [hcp] at htokens
          cases htokens
      | cons f fs =>
        obtain ⟨hready, rfl, hsig, hsaved, -⟩ := hchild.frame hcf
        cases hk : f.pc with
        | count => exact halive.answer_count hcf hsig hk
        | act => exact halive.answer_act hcf hsig hk
        | leave =>
          have hpending : s.child.proc.pending .usr1 = true := by
            rw [SigProcess.owed_cons _ _ hcf, hk] at htokens
            cases hcp : s.child.proc.pending .usr1 with
            | true => rfl
            | false =>
              rw [hcp, if_neg fun hc => by cases hc.2] at htokens
              cases htokens
          refine .of_next .child (s.mapChild fun c => { c with proc := c.proc.leave }) ?_ ?_
          · show s.stepChild = _
            unfold System.stepChild
            simp only [halive.child, hcf, hk, if_true]
          · refine System.Alive.answer_pending ⟨hrun, hchild.running⟩ hpending ?_
              (hchild.handled.trans hready)
            show s.child.proc.leave.mask .usr1 = false
            rw [SigProcess.mask_leave hcf, hsaved]
            rfl
    · rw [hf] at hf'
      cases hf'

/-- Nothing else is printed. -/
theorem Inv.printed (h : Inv n s) {received sent : ℤ}
    (hp : s.parent.printed = some (received, sent)) : received = n ∧ sent = n + 1 := by
  have hat := h.parent
  unfold Parent.At Parent.Counts at hat
  cases hpc : s.parent.pc with
  | done =>
    simp only [hpc] at hat
    exact Prod.ext_iff.mp (Option.some.inj (hp.symm.trans hat.2))
  | _ =>
    simp only [hpc] at hat
    grind

/-! ## The runs in which `SIGUSR1` finds a handler -/

/-- The parent hangs: it is in `sigsuspend`, no reply is pending, and none can still be
    sent. -/
def Hangs (n : ℤ) (inherited : Sig → Bool) (s : System) : Prop :=
  s.Suspended ∧ ¬Answerable n inherited s

/-- If `SIGUSR1` finds a handler, the parent does not hang, and what it prints is
    right. -/
theorem lock_step (hn0 : 0 ≤ n) (hn : n < 2 ^ 31 - 1)
    (h : (machine n inherited).ReachIf Handled s) :
    ¬Hangs n inherited s ∧
      ∀ received sent, s.parent.printed = some (received, sent) → received = n ∧ sent = n + 1 :=
  have hI := inv_of_reachIf hn0 hn h
  ⟨fun hh => hh.2 (hI.answerable hh.1), fun _ _ => hI.printed⟩

end

instance (s : System) (m : Move) : Decidable (Handled s m) :=
  inferInstanceAs (Decidable (m = .signalChild .usr1 → s.child.proc.handled .usr1 = true))

/-- The child is set up first, and replies before the parent is in `sigsuspend`. -/
def oneSignal : List Move :=
  [.child, .child, .child, .child, .child,
    .parent, .parent, .parent, .parent, .parent, .parent,
    .signalChild .usr1, .child, .child, .child,
    .parent, .signalParent .usr1, .parent, .parent, .parent,
    .parent, .parent, .parent, .parent, .parent, .parent]

theorem lock_step_one :
    ∃ s : System, s.parent.printed = some (1, 2) ∧ ¬Hangs 1 (fun _ => false) s ∧
      ∀ received sent, s.parent.printed = some (received, sent) →
        received = 1 ∧ sent = 1 + 1 := by
  have hrun : ((machine 1 fun _ => false).runIf Handled oneSignal (.forked fun _ => false)).map
      (fun s => s.parent.printed) = some (some (1, 2)) := by
    decide +kernel
  obtain ⟨s, hs, hprinted⟩ := Machine.ReachIf.of_runIf oneSignal _ _ rfl hrun
  exact ⟨s, hprinted, lock_step (by omega) (by omega) hs⟩

/-! ## A request that is lost -/

/-- The child has been killed, and the parent waits for its reply. -/
structure System.Lost (s : System) : Prop where
  child : s.child.proc.running = false
  place : s.parent.pc = .whileTest ∨ ∃ old, s.parent.pc = .suspended old
  frames : s.parent.proc.frames = []
  pending : ∀ x, s.parent.proc.pending x = false
  flag : s.parent.usr1Received = false

section

variable {n : ℤ} {inherited : Sig → Bool} {s t : System} {m : Move}

/-- A delivery without a handler kills the child. -/
theorem Inv.lost (h : Inv n s) (hm : ¬Handled s m) (hs : s.next n m = some t) : t.Lost := by
  obtain ⟨rfl, hh⟩ : m = .signalChild .usr1 ∧ s.child.proc.handled .usr1 = false := by
    simpa [Handled] using hm
  obtain ⟨proc, hproc, rfl⟩ := Option.map_eq_some_iff.mp hs
  obtain ⟨-, hp, -, ⟨-, rfl⟩ | ⟨hhandled, -⟩⟩ := SigProcess.deliver_cases hproc
  · have hchild : s.child.proc.owed HandlerPc.todo .usr1 ≠ 0 := fun h0 => by
      rw [SigProcess.pending_of_owed h0] at hp
      cases hp
    have htokens := h.tokens
    unfold System.tokens at htokens
    have hle := Bool.toNat_le s.parent.pc.waits
    have hparent : s.parent.proc.owed HandlerPc.todo .usr1 = 0 := by omega
    have hflag : s.parent.usr1Received = false := Bool.toNat_eq_zero.mp (by omega)
    have hwaits : s.parent.pc.waits = true := Bool.toNat_eq_one.mp (by omega)
    have hat := h.parent
    unfold Parent.At at hat
    have hplace : (s.parent.pc = .whileTest ∨ ∃ old, s.parent.pc = .suspended old) ∧
        s.parent.proc.frames = [] := by
      cases hpc : s.parent.pc with
      | whileTest =>
        simp only [hpc] at hat
        exact ⟨.inl rfl, hat.1⟩
      | suspended old =>
        refine ⟨.inr ⟨old, rfl⟩, ?_⟩
        simp only [hpc] at hat
        obtain ⟨-, -, -, ⟨hf, -⟩ | ⟨f, hf, hsig, -, hplace⟩⟩ := hat
        · exact hf
        · rw [SigProcess.owed_cons _ _ hf] at hparent
          obtain ⟨hk, -⟩ | ⟨hk, -⟩ | ⟨-, htrue, -⟩ := hplace
          · simp [hk, hsig, HandlerPc.todo] at hparent
          · simp [hk, hsig, HandlerPc.todo] at hparent
          · rw [hflag] at htrue
            cases htrue
      | reset =>
        simp only [hpc] at hat
        rw [hflag] at hat
        cases hat.2.1
      | _ =>
        rw [hpc] at hwaits
        cases hwaits
    refine ⟨rfl, hplace.1, hplace.2, fun x => ?_, hflag⟩
    cases hx : s.parent.proc.pending x with
    | false => exact hx
    | true =>
      obtain rfl := h.replies x hx
      rw [SigProcess.pending_of_owed hparent] at hx
      cases hx
  · rw [hh] at hhandled
    cases hhandled

theorem System.Lost.next (h : s.Lost) (hs : s.next n m = some t) : t.Lost := by
  obtain ⟨hchild, hplace, hframes, hpending, hflag⟩ := h
  cases m with
  | parent =>
    change s.stepParent n = _ at hs
    unfold System.stepParent at hs
    rw [hframes] at hs
    split at hs
    · obtain hpc | ⟨old, hpc⟩ := hplace
      · simp only [System.main, hpc, System.mapParent, hflag, Bool.false_eq_true, if_false,
          Option.some.injEq] at hs
        subst hs
        exact ⟨hchild, .inr ⟨_, rfl⟩, hframes, hpending, rfl⟩
      · simp only [System.main, hpc] at hs
        cases hs
    · cases hs
  | signalParent x =>
    obtain ⟨proc, hproc, -⟩ := Option.map_eq_some_iff.mp hs
    obtain ⟨-, hp, -⟩ := SigProcess.deliver_cases hproc
    rw [hpending x] at hp
    cases hp
  | child =>
    change s.stepChild = _ at hs
    unfold System.stepChild at hs
    rw [hchild] at hs
    cases hs
  | signalChild x =>
    obtain ⟨proc, hproc, -⟩ := Option.map_eq_some_iff.mp hs
    obtain ⟨hrun, -⟩ := SigProcess.deliver_cases hproc
    rw [hchild] at hrun
    cases hrun

/-- No reply comes any more. -/
theorem System.Lost.not_answerable (h : s.Lost) : ¬Answerable n inherited s := by
  rintro ⟨ms, t, hrun, ht⟩
  induction ms generalizing s with
  | nil =>
    cases hrun
    rw [h.pending] at ht
    cases ht
  | cons m ms ih =>
    rw [Machine.run_cons] at hrun
    obtain ⟨u, hu, hrun⟩ := Option.bind_eq_some_iff.mp hrun
    exact ih (h.next hu) hrun

/-- A run whose deliveries do not all find a handler ends in a state where the reply is
    lost, and no other run does. -/
theorem reachIf_iff (hn0 : 0 ≤ n) (hn : n < 2 ^ 31 - 1) (h : (machine n inherited).Reach s) :
    (machine n inherited).ReachIf Handled s ↔ ¬s.Lost := by
  refine h.reachIf_iff (fun s m t hs hm hn' => ?_) (fun s m t _ hl hn' => hl.next hn')
    fun s hs hl => ?_
  · exact (inv_of_reachIf hn0 hn hs).lost hm hn'
  · have hI := inv_of_reachIf hn0 hn hs
    have hover : s.parent.pc.over = false := by
      obtain hpc | ⟨old, hpc⟩ := hl.place <;> rw [hpc] <;> rfl
    have hrun := (hI.child hover).running
    rw [hl.child] at hrun
    cases hrun

/-- The parent hangs in `sigsuspend` if a signal did not find a handler. -/
theorem hangs_iff (hn0 : 0 ≤ n) (hn : n < 2 ^ 31 - 1) (h : (machine n inherited).Reach s) :
    Hangs n inherited s ↔ s.Suspended ∧ ¬(machine n inherited).ReachIf Handled s := by
  constructor
  · rintro ⟨hs, hnot⟩
    exact ⟨hs, fun hr => hnot ((inv_of_reachIf hn0 hn hr).answerable hs)⟩
  · rintro ⟨hs, hnot⟩
    rw [reachIf_iff hn0 hn h, not_not] at hnot
    exact ⟨hs, hnot.not_answerable⟩

end

/-- With one signal: it is sent before the child has done anything. -/
theorem child_killed :
    ∃ s, (machine 1 fun _ => false).Reach s ∧ Hangs 1 (fun _ => false) s := by
  have hstart : (machine 1 fun _ => false).Reach (.forked fun _ => false) := .init rfl
  have hrun := (((((((hstart.step (l := .parent) rfl).step (l := .parent) rfl).step
    (l := .parent) rfl).step (l := .parent) rfl).step (l := .parent) rfl).step (l := .parent)
      rfl).step (l := .signalChild .usr1) rfl).step (l := .parent) rfl
  refine ⟨_, hrun, ⟨rfl, ⟨_, rfl⟩, rfl⟩, System.Lost.not_answerable ⟨rfl, .inr ⟨_, rfl⟩, rfl,
    fun x => rfl, rfl⟩⟩

end AghOs.LockStep
