import AghOs.Signals.LockStep

/-!
# A request at a time

* `System.tokens`: the requests and replies that are under way.
* `Inv`: the invariant of the runs in which `SIGUSR1` finds a handler in the child.
* `Inv.stepParent`, `Inv.signalParent`, `Inv.stepChild`, `Inv.signalChild`: a step
  keeps it.
-/

namespace AghOs.LockStep

/-! ## The invariant -/

/-- `main` waits for a reply, or is about to reset the flag that says that there was
    one. -/
def ParentPc.waits : ParentPc → Bool
  | .whileTest | .suspended _ | .reset => true
  | _ => false

/-- The requests that are under way to the child, the replies that are under way to the
    parent, and the flag. -/
def System.tokens (s : System) : ℕ :=
  s.child.proc.owed HandlerPc.todo .usr1 + s.parent.proc.owed HandlerPc.todo .usr1 +
    s.parent.usr1Received.toNat

/-- The variables count `k` messages. -/
def Parent.Counts (p : Parent) (sent received : ℤ) : Prop :=
  p.sent = sent ∧ p.received = received ∧ p.printed = none

/-- The parent where it is. -/
def Parent.At (n : ℤ) (p : Parent) : Prop :=
  match p.pc with
  | .installUsr1 | .installRt1 | .installInt => p.proc.frames = [] ∧ p.i = 0 ∧ p.Counts 0 0
  | .forTest => p.proc.frames = [] ∧ 0 ≤ p.i ∧ p.i ≤ n ∧ p.Counts p.i p.i
  | .block => p.proc.frames = [] ∧ 0 ≤ p.i ∧ p.i < n ∧ p.Counts p.i p.i
  | .kill =>
    p.proc.frames = [] ∧ p.proc.mask .usr1 = true ∧ 0 ≤ p.i ∧ p.i < n ∧ p.Counts p.i p.i
  | .whileTest =>
    p.proc.frames = [] ∧ p.proc.mask .usr1 = true ∧ 0 ≤ p.i ∧ p.i < n ∧
      p.Counts (p.i + 1) (p.i + p.usr1Received.toNat)
  | .suspended old =>
    old .usr1 = true ∧ 0 ≤ p.i ∧ p.i < n ∧
      (p.proc.frames = [] ∧ p.usr1Received = false ∧ p.Counts (p.i + 1) p.i ∨
        ∃ f, p.proc.frames = [f] ∧ f.sig = .usr1 ∧ f.saved .usr1 = true ∧
          (f.pc = .count ∧ p.usr1Received = false ∧ p.Counts (p.i + 1) p.i ∨
            f.pc = .act ∧ p.usr1Received = false ∧ p.Counts (p.i + 1) (p.i + 1) ∨
            f.pc = .leave ∧ p.usr1Received = true ∧ p.Counts (p.i + 1) (p.i + 1)))
  | .reset =>
    p.proc.frames = [] ∧ p.usr1Received = true ∧ 0 ≤ p.i ∧ p.i < n ∧ p.Counts (p.i + 1) (p.i + 1)
  | .restore => p.proc.frames = [] ∧ 0 ≤ p.i ∧ p.i < n ∧ p.Counts (p.i + 1) (p.i + 1)
  | .killUsr2 => p.proc.frames = [] ∧ p.Counts n n
  | .print => p.proc.frames = [] ∧ p.Counts (n + 1) n
  | .done => p.proc.running = false ∧ p.printed = some (n, n + 1)

/-- The last signal has been sent. -/
def ParentPc.over : ParentPc → Bool
  | .print | .done => true
  | _ => false

/-- The child has a handler for `SIGUSR1`. -/
def ChildPc.ready : ChildPc → Bool
  | .setMask | .installUsr1 => false
  | _ => true

/-- The child where it is, before `SIGUSR2` has been sent. -/
structure Child.At (c : Child) : Prop where
  running : c.proc.running = true
  usr2 : c.proc.pending .usr2 = false
  handled : c.proc.handled .usr1 = c.pc.ready
  place : c.proc.frames = [] ∧ (c.pc = .setMask ∨ c.proc.mask = childMask) ∨
    c.pc.ready = true ∧ ∃ k, c.proc.frames = [⟨.usr1, k, childMask⟩] ∧ c.proc.mask .usr1 = true

/-- The invariant. -/
structure Inv (n : ℤ) (s : System) : Prop where
  parent : s.parent.At n
  running : s.parent.pc ≠ .done → s.parent.proc.running = true
  handled : s.parent.pc ≠ .installUsr1 → s.parent.proc.handled .usr1 = true
  replies : ∀ x, s.parent.proc.pending x = true → x = .usr1
  tokens : s.tokens = s.parent.pc.waits.toNat
  requests : ∀ x, s.child.proc.pending x = true → x = .usr1 ∨ x = .usr2
  handlers : ∀ f ∈ s.child.proc.frames, f.sig = .usr1 ∨ f.sig = .usr2
  child : s.parent.pc.over = false → s.child.At

section

variable {n : ℤ} {inherited : Sig → Bool} {s s' : System}

theorem inv_forked (n : ℤ) (inherited : Sig → Bool) : Inv n (.forked inherited) where
  parent := ⟨rfl, rfl, rfl, rfl, rfl⟩
  running _ := rfl
  handled h := absurd rfl h
  replies x h := (by cases h)
  tokens := rfl
  requests x h := (by cases h)
  handlers f h := (by cases h)
  child _ := ⟨rfl, rfl, rfl, .inl ⟨rfl, .inl rfl⟩⟩

/-- Only the parent moves. -/
theorem Inv.setParent (h : Inv n s) {p : Parent} (hat : p.At n)
    (hrun : p.pc ≠ .done → p.proc.running = true)
    (hhandled : p.pc ≠ .installUsr1 → p.proc.handled .usr1 = true)
    (hreplies : ∀ x, p.proc.pending x = true → x = .usr1)
    (htokens : p.proc.owed HandlerPc.todo .usr1 + p.usr1Received.toNat + s.parent.pc.waits.toNat =
      s.parent.proc.owed HandlerPc.todo .usr1 + s.parent.usr1Received.toNat + p.pc.waits.toNat)
    (hover : p.pc.over = false → s.parent.pc.over = false) : Inv n { s with parent := p } where
  parent := hat
  running := hrun
  handled := hhandled
  replies := hreplies
  tokens := by
    have hold := h.tokens
    unfold System.tokens at hold
    show s.child.proc.owed HandlerPc.todo .usr1 + p.proc.owed HandlerPc.todo .usr1 +
      p.usr1Received.toNat = p.pc.waits.toNat
    omega
  requests := h.requests
  handlers := h.handlers
  child ho := h.child (hover ho)

/-- Only the child moves. -/
theorem Inv.setChild (h : Inv n s) {c : Child}
    (htokens : c.proc.owed HandlerPc.todo .usr1 = s.child.proc.owed HandlerPc.todo .usr1)
    (hrequests : ∀ x, c.proc.pending x = true → x = .usr1 ∨ x = .usr2)
    (hhandlers : ∀ f ∈ c.proc.frames, f.sig = .usr1 ∨ f.sig = .usr2)
    (hchild : s.parent.pc.over = false → c.At) : Inv n { s with child := c } where
  parent := h.parent
  running := h.running
  handled := h.handled
  replies := h.replies
  tokens := by
    have hold := h.tokens
    unfold System.tokens at hold
    show c.proc.owed HandlerPc.todo .usr1 + s.parent.proc.owed HandlerPc.todo .usr1 +
      s.parent.usr1Received.toNat = s.parent.pc.waits.toNat
    omega
  requests := hrequests
  handlers := hhandlers
  child := hchild

/-- Without a token neither process has a signal pending that counts. -/
theorem Inv.quiet (h : Inv n s) (hw : s.parent.pc.waits = false) :
    s.child.proc.owed HandlerPc.todo .usr1 = 0 ∧ s.parent.proc.owed HandlerPc.todo .usr1 = 0 ∧
      s.parent.usr1Received = false := by
  have htokens := h.tokens
  unfold System.tokens at htokens
  rw [hw, Bool.toNat_false] at htokens
  refine ⟨by omega, by omega, ?_⟩
  cases hflag : s.parent.usr1Received with
  | false => rfl
  | true =>
    rw [hflag, Bool.toNat_true] at htokens
    omega

theorem Child.requests_raise (c : Child) {y : Sig}
    (h : ∀ x, c.proc.pending x = true → x = .usr1 ∨ x = .usr2) (hy : y = .usr1 ∨ y = .usr2) :
    ∀ x, (c.proc.raise y).pending x = true → x = .usr1 ∨ x = .usr2 := by
  intro x hx
  by_cases hxy : x = y
  · exact hxy ▸ hy
  · exact h x (by rwa [SigProcess.raise_pending_ne hxy] at hx)

theorem Child.At.raise_usr1 {c : Child} (h : c.At) : { c with proc := c.proc.raise .usr1 }.At where
  running := h.running
  usr2 := (SigProcess.raise_pending_ne (by decide)).trans h.usr2
  handled := h.handled
  place := h.place

theorem Child.At.mask_nil {c : Child} (h : c.At) (hf : c.proc.frames = []) (hpc : c.pc ≠ .setMask) :
    c.proc.mask = childMask := by
  obtain ⟨-, hplace | hmask⟩ | ⟨-, k, hk, -⟩ := h.place
  · exact absurd hplace hpc
  · exact hmask
  · rw [hf] at hk
    cases hk

theorem Child.At.frame {c : Child} (h : c.At) {f : SigFrame Sig HandlerPc}
    {fs : List (SigFrame Sig HandlerPc)} (hf : c.proc.frames = f :: fs) :
    c.pc.ready = true ∧ fs = [] ∧ f.sig = .usr1 ∧ f.saved = childMask ∧
      c.proc.mask .usr1 = true := by
  obtain ⟨hnil, -⟩ | ⟨hready, k, hk, hmask⟩ := h.place
  · rw [hf] at hnil
    cases hnil
  · rw [hf] at hk
    cases hk
    exact ⟨hready, rfl, rfl, rfl, hmask⟩

/-! ## The steps of the parent -/

theorem toInt_succ_eq {k : ℤ} (hlo : 0 ≤ k) (hhi : k < 2 ^ 31 - 1) : toInt (k + 1) = k + 1 :=
  toInt_eq_self (by omega) (by omega)

/-- A step of `main` that sends nothing. -/
theorem Inv.goOn (h : Inv n s) {pc : ParentPc} (hpc : s.parent.pc = pc) (hstart : pc ≠ .installUsr1)
    (hdone : pc ≠ .done) (hover : pc.over = false) {p : Parent} (hat : p.At n)
    (hrun : p.proc.running = s.parent.proc.running)
    (hhandled : p.proc.handled .usr1 = s.parent.proc.handled .usr1)
    (hpending : p.proc.pending = s.parent.proc.pending)
    (htokens : p.proc.owed HandlerPc.todo .usr1 + p.usr1Received.toNat + pc.waits.toNat =
      s.parent.proc.owed HandlerPc.todo .usr1 + s.parent.usr1Received.toNat + p.pc.waits.toNat) :
    Inv n { s with parent := p } := by
  subst hpc
  refine h.setParent hat (fun _ => ?_) (fun _ => ?_) ?_ htokens fun _ => hover
  · rw [hrun]
    exact h.running hdone
  · rw [hhandled]
    exact h.handled hstart
  · rw [hpending]
    exact h.replies

theorem Inv.main (hn0 : 0 ≤ n) (hn : n < 2 ^ 31 - 1) (h : Inv n s) (hs : s.main n = some s') :
    Inv n s' := by
  have hat := h.parent
  unfold Parent.At at hat
  cases hpc : s.parent.pc with
  | installUsr1 =>
    simp only [System.main, hpc, Option.some.injEq] at hs hat
    subst hs
    refine h.setParent hat (fun _ => h.running (by simp [hpc])) (fun _ => rfl) h.replies ?_
      (fun _ => by rw [hpc]; rfl)
    rw [hpc]
    rfl
  | installRt1 =>
    simp only [System.main, hpc, Option.some.injEq] at hs hat
    subst hs
    exact h.goOn hpc (by simp) (by simp) rfl hat rfl rfl rfl rfl
  | installInt =>
    simp only [System.main, hpc, Option.some.injEq] at hs hat
    subst hs
    obtain ⟨hf, hi, hc⟩ := hat
    refine h.goOn hpc (by simp) (by simp) rfl ⟨hf, hi.ge, hi.trans_le hn0, ?_, ?_, hc.2.2⟩
      rfl rfl rfl rfl
    · exact hc.1.trans hi.symm
    · exact hc.2.1.trans hi.symm
  | forTest =>
    simp only [System.main, hpc, Option.some.injEq] at hs hat
    subst hs
    obtain ⟨hf, hi0, hin, hc⟩ := hat
    by_cases hlt : s.parent.i < n
    · simp only [System.mapParent, hlt, if_true]
      exact h.goOn hpc (by simp) (by simp) rfl ⟨hf, hi0, hlt, hc⟩ rfl rfl rfl rfl
    · simp only [System.mapParent, hlt, if_false]
      have hi : s.parent.i = n := by omega
      exact h.goOn hpc (by simp) (by simp) rfl ⟨hf, hi ▸ hc.1, hi ▸ hc.2.1, hc.2.2⟩
        rfl rfl rfl rfl
  | block =>
    simp only [System.main, hpc, Option.some.injEq] at hs hat
    subst hs
    obtain ⟨hf, hi0, hin, hc⟩ := hat
    exact h.goOn hpc (by simp) (by simp) rfl ⟨hf, rfl, hi0, hin, hc⟩ rfl rfl rfl rfl
  | kill =>
    simp only [System.main, hpc, Option.some.injEq] at hs hat
    subst hs
    obtain ⟨hf, hmask, hi0, hin, hc⟩ := hat
    obtain ⟨hchild, hparent, hflag⟩ := h.quiet (by rw [hpc]; rfl)
    have hat := h.child (by rw [hpc]; rfl)
    have hsent : toInt (s.parent.sent + 1) = s.parent.i + 1 := by
      rw [hc.1, toInt_succ_eq hi0 (by omega)]
    have hpending := SigProcess.pending_of_owed hchild
    refine ⟨⟨hf, hmask, hi0, hin, hsent, ?_, hc.2.2⟩, fun _ => h.running (by simp [hpc]),
      fun _ => h.handled (by simp [hpc]), h.replies, ?_,
      s.child.requests_raise h.requests (.inl rfl), h.handlers, fun _ => hat.raise_usr1⟩
    · show s.parent.received = s.parent.i + s.parent.usr1Received.toNat
      rw [hflag, hc.2.1]
      exact (Int.add_zero _).symm
    · show (s.child.proc.raise .usr1).owed HandlerPc.todo .usr1 +
        s.parent.proc.owed HandlerPc.todo .usr1 + s.parent.usr1Received.toNat = 1
      rw [SigProcess.owed_raise hat.running hpending, hchild, hparent, hflag]
      rfl
  | whileTest =>
    simp only [System.main, hpc, Option.some.injEq] at hs hat
    subst hs
    obtain ⟨hf, hmask, hi0, hin, hc⟩ := hat
    cases hflag : s.parent.usr1Received with
    | true =>
      rw [hflag, Bool.toNat_true] at hc
      simp only [System.mapParent, hflag, if_true]
      refine h.goOn hpc (by simp) (by simp) rfl ⟨hf, rfl, hi0, hin, hc⟩ rfl rfl rfl ?_
      rw [hflag]
      rfl
    | false =>
      rw [hflag, Bool.toNat_false, Int.natCast_zero, Int.add_zero] at hc
      simp only [System.mapParent, hflag, Bool.false_eq_true, if_false]
      refine h.goOn hpc (by simp) (by simp) rfl ⟨hmask, hi0, hin, .inl ⟨hf, rfl, hc⟩⟩
        rfl rfl rfl ?_
      rw [hflag]
      rfl
  | suspended old =>
    simp only [System.main, hpc] at hs
    cases hs
  | reset =>
    simp only [System.main, hpc, Option.some.injEq] at hs hat
    subst hs
    obtain ⟨hf, hflag, hi0, hin, hc⟩ := hat
    refine h.goOn hpc (by simp) (by simp) rfl ⟨hf, hi0, hin, hc⟩ rfl rfl rfl ?_
    rw [hflag]
    rfl
  | restore =>
    simp only [System.main, hpc, Option.some.injEq] at hs hat
    subst hs
    obtain ⟨hf, hi0, hin, hc⟩ := hat
    have hi : toInt (s.parent.i + 1) = s.parent.i + 1 := toInt_succ_eq hi0 (by omega)
    simp only [System.mapParent, hi]
    refine h.goOn hpc (by simp) (by simp) rfl ⟨hf, ?_, ?_, hc⟩ rfl rfl rfl rfl
    · show 0 ≤ s.parent.i + 1
      omega
    · show s.parent.i + 1 ≤ n
      omega
  | killUsr2 =>
    simp only [System.main, hpc, Option.some.injEq] at hs hat
    subst hs
    obtain ⟨hf, hc⟩ := hat
    obtain ⟨hchild, hparent, hflag⟩ := h.quiet (by rw [hpc]; rfl)
    have hsent : toInt (s.parent.sent + 1) = n + 1 := by rw [hc.1, toInt_succ_eq hn0 hn]
    refine ⟨⟨hf, hsent, hc.2.1, hc.2.2⟩, fun _ => h.running (by simp [hpc]),
      fun _ => h.handled (by simp [hpc]), h.replies, ?_,
      s.child.requests_raise h.requests (.inr rfl), h.handlers, fun ho => by cases ho⟩
    show (s.child.proc.raise .usr2).owed HandlerPc.todo .usr1 +
      s.parent.proc.owed HandlerPc.todo .usr1 + s.parent.usr1Received.toNat = 0
    rw [SigProcess.owed_raise_ne (by decide), hchild, hparent, hflag]
    rfl
  | print =>
    simp only [System.main, hpc, Option.some.injEq] at hs hat
    subst hs
    obtain ⟨hf, hc⟩ := hat
    refine h.setParent ⟨rfl, ?_⟩ (fun hne => absurd rfl hne) (fun _ => h.handled (by simp [hpc]))
      h.replies ?_ (fun ho => by cases ho)
    · show some (s.parent.received, s.parent.sent) = some (n, n + 1)
      rw [hc.2.1, hc.1]
    · rw [hpc]
      rfl
  | done =>
    simp only [System.main, hpc] at hs
    cases hs

/-- A handler of the parent runs in `sigsuspend` only. -/
theorem Inv.handler (h : Inv n s) (hrun : s.parent.proc.running = true) {f : SigFrame Sig HandlerPc}
    {fs : List (SigFrame Sig HandlerPc)} (hf : s.parent.proc.frames = f :: fs) :
    ∃ old, s.parent.pc = .suspended old ∧ fs = [] ∧ f.sig = .usr1 := by
  have hat := h.parent
  unfold Parent.At at hat
  cases hpc : s.parent.pc with
  | suspended old =>
    simp only [hpc] at hat
    obtain ⟨-, -, -, ⟨hnil, -⟩ | ⟨g, hg, hsig, -⟩⟩ := hat
    · rw [hf] at hnil
      cases hnil
    · rw [hf] at hg
      cases hg
      exact ⟨old, rfl, rfl, hsig⟩
  | done =>
    simp only [hpc] at hat
    rw [hrun] at hat
    cases hat.1
  | _ =>
    simp only [hpc] at hat
    rw [hf] at hat
    cases hat.1

theorem Inv.stepParent (hn0 : 0 ≤ n) (hn : n < 2 ^ 31 - 1) (h : Inv n s)
    (hs : s.stepParent n = some s') : Inv n s' := by
  unfold System.stepParent at hs
  cases hrun : s.parent.proc.running with
  | false =>
    rw [hrun] at hs
    cases hs
  | true =>
    rw [hrun, if_pos rfl] at hs
    cases hf : s.parent.proc.frames with
    | nil =>
      rw [hf] at hs
      exact h.main hn0 hn hs
    | cons f fs =>
      obtain ⟨old, hpc, rfl, hsig⟩ := h.handler hrun hf
      have hat := h.parent
      unfold Parent.At at hat
      simp only [hpc] at hat
      obtain ⟨hold, hi0, hin, ⟨hnil, -⟩ | ⟨g, hg, -, hsaved, hplace⟩⟩ := hat
      · rw [hf] at hnil
        cases hnil
      obtain rfl : f = g := List.singleton_inj.mp (hf.symm.trans hg)
      have hhandled := h.handled (by simp [hpc])
      have hover : s.parent.pc.over = false := by rw [hpc]; rfl
      simp only [hf] at hs
      obtain ⟨hcount, hflag, hc⟩ | ⟨hact, hflag, hc⟩ | ⟨hleave, hflag, hc⟩ := hplace
      · simp only [hcount, Option.some.injEq] at hs
        subst hs
        have hreceived : toInt (s.parent.received + 1) = s.parent.i + 1 := by
          rw [hc.2.1, toInt_succ_eq hi0 (by omega)]
        have howed := SigProcess.owed_advance (k := .act) HandlerPc.todo .usr1 hf
          (fun _ => by rw [hcount]; rfl)
        refine h.setParent (p := { s.parent with
          received := toInt (s.parent.received + 1), proc := s.parent.proc.advance .act }) ?_
          (fun _ => hrun) (fun _ => hhandled) h.replies ?_ (fun _ => hover)
        · unfold Parent.At
          simp only [hpc]
          exact ⟨hold, hi0, hin, .inr ⟨_, SigProcess.frames_advance hf, hsig, hsaved,
            .inr (.inl ⟨rfl, hflag, hc.1, hreceived, hc.2.2⟩)⟩⟩
        · rw [← howed]
          simp [HandlerPc.todo]
      · simp only [hact, hsig, Option.some.injEq] at hs
        subst hs
        have howed := SigProcess.owed_advance (k := .leave) HandlerPc.todo .usr1 hf
          (fun hk => by cases hk)
        refine h.setParent (p := { s.parent with
          usr1Received := true, proc := s.parent.proc.advance .leave }) ?_
          (fun _ => hrun) (fun _ => hhandled) h.replies ?_ (fun _ => hover)
        · unfold Parent.At
          simp only [hpc]
          exact ⟨hold, hi0, hin, .inr ⟨_, SigProcess.frames_advance hf, hsig, hsaved,
            .inr (.inr ⟨rfl, trivial, hc⟩)⟩⟩
        · rw [← howed]
          simp [HandlerPc.todo, hact, hsig, hflag]
      · simp only [hleave, Option.some.injEq] at hs
        subst hs
        have howed := SigProcess.owed_leave HandlerPc.todo .usr1 hf
          (by rw [hleave]; rfl)
        have htail := SigProcess.frames_leave hf
        have hpc' : s.parentReturn.parent.pc = .whileTest := by
          unfold System.parentReturn System.mapParent
          simp only [hpc, htail]
        refine h.setParent (p := s.parentReturn.parent) ?_ (fun _ => hrun) (fun _ => hhandled)
          h.replies ?_ (fun _ => hover)
        · unfold Parent.At
          simp only [hpc']
          refine ⟨htail, ?_, hi0, hin, hc.1, ?_, hc.2.2⟩
          · show s.parent.proc.leave.mask .usr1 = true
            rw [SigProcess.mask_leave hf]
            exact hsaved
          · show s.parent.received = s.parent.i + s.parent.usr1Received.toNat
            rw [hflag]
            exact hc.2.1
        · rw [hpc', hpc, ← howed]
          rfl

theorem Inv.signalParent {x : Sig} (h : Inv n s) (hs : s.signalParent x = some s') : Inv n s' := by
  obtain ⟨proc, hproc, rfl⟩ := Option.map_eq_some_iff.mp hs
  obtain ⟨hrun, hp, hmask, hcases⟩ := SigProcess.deliver_cases hproc
  obtain rfl := h.replies x hp
  have howed : s.parent.proc.owed HandlerPc.todo .usr1 ≠ 0 := fun h0 => by
    rw [SigProcess.pending_of_owed h0] at hp
    cases hp
  have htokens := h.tokens
  unfold System.tokens at htokens
  have hat := h.parent
  unfold Parent.At at hat
  cases hpc : s.parent.pc with
  | suspended old =>
    simp only [hpc] at hat
    rw [hpc] at htokens
    obtain ⟨hold, hi0, hin, ⟨hnil, hflag, hc⟩ | ⟨f, hf, hsig, -, hplace⟩⟩ := hat
    · have hhandled := h.handled (by simp [hpc])
      obtain ⟨hnot, -⟩ | ⟨-, hdelivered⟩ := hcases
      · rw [hhandled] at hnot
        cases hnot
      have hsaved : s.savedMask = old := by
        unfold System.savedMask
        rw [hpc, hnil]
      refine h.setParent (p := { s.parent with proc := proc }) ?_ (fun _ => ?_) (fun _ => ?_)
        (fun x hx => h.replies x (SigProcess.deliver_pending hproc hx)) ?_ (fun ho => ho)
      · unfold Parent.At
        simp only [hpc]
        refine ⟨hold, hi0, hin, .inr ⟨⟨.usr1, .count, s.savedMask⟩, ?_, rfl, ?_,
          .inl ⟨rfl, hflag, hc⟩⟩⟩
        · rw [hdelivered, hnil]
        · rw [hsaved]
          exact hold
      · rw [hdelivered]
        exact hrun
      · rw [hdelivered]
        exact hhandled
      · rw [SigProcess.owed_deliver hproc rfl]
    · -- there would be two replies
      have hone :
          s.parent.usr1Received.toNat + (if f.sig = .usr1 ∧ f.pc.todo then 1 else 0) = 1 := by
        obtain ⟨hk, hflag, -⟩ | ⟨hk, hflag, -⟩ | ⟨hk, hflag, -⟩ := hplace <;>
          simp [hk, hflag, hsig, HandlerPc.todo]
      rw [SigProcess.owed_cons _ _ hf, hp] at htokens
      simp only [ParentPc.waits, List.countP_nil, Bool.toNat_true] at htokens
      omega
  | whileTest =>
    simp only [hpc] at hat
    rw [hmask] at hat
    cases hat.2.1
  | reset =>
    simp only [hpc] at hat
    rw [hat.2.1, hpc] at htokens
    exact absurd htokens (by simp [ParentPc.waits]; omega)
  | _ =>
    rw [hpc] at htokens
    exact absurd htokens (by simp [ParentPc.waits]; omega)

/-! ## The steps of the child -/

/-- A handler of the child that has yet to reply. -/
theorem Inv.replying (h : Inv n s) {f : SigFrame Sig HandlerPc} {fs : List (SigFrame Sig HandlerPc)}
    (hf : s.child.proc.frames = f :: fs) (hsig : f.sig = .usr1) (hact : f.pc = .act) :
    s.parent.pc.waits = true ∧ s.parent.proc.owed HandlerPc.todo .usr1 = 0 ∧
      s.child.proc.owed HandlerPc.todo .usr1 = 1 ∧ s.parent.usr1Received = false := by
  have htokens := h.tokens
  unfold System.tokens at htokens
  have howed := SigProcess.owed_cons HandlerPc.todo .usr1 hf
  rw [hact, if_pos ⟨hsig, rfl⟩] at howed
  cases hw : s.parent.pc.waits with
  | false =>
    rw [hw, Bool.toNat_false] at htokens
    omega
  | true =>
    rw [hw, Bool.toNat_true] at htokens
    refine ⟨rfl, by omega, by omega, ?_⟩
    cases hflag : s.parent.usr1Received with
    | false => rfl
    | true =>
      rw [hflag, Bool.toNat_true] at htokens
      omega

theorem ParentPc.waits_over {pc : ParentPc} (h : pc.waits = true) :
    pc.over = false ∧ pc ≠ .done := by
  cases pc with
  | whileTest | suspended | reset => exact ⟨rfl, fun hd => by cases hd⟩
  | _ => cases h

theorem Inv.childMain (h : Inv n s) (hf : s.child.proc.frames = []) (hs : s.childMain = some s') :
    Inv n s' := by
  unfold System.childMain at hs
  cases hpc : s.child.pc with
  | setMask =>
    simp only [hpc, Option.some.injEq] at hs
    subst hs
    refine h.setChild rfl h.requests h.handlers fun ho => ?_
    have hat := h.child ho
    have hready := hat.handled
    rw [hpc] at hready
    exact ⟨hat.running, hat.usr2, hready, .inl ⟨hf, .inr rfl⟩⟩
  | installUsr1 =>
    simp only [hpc, Option.some.injEq] at hs
    subst hs
    refine h.setChild rfl h.requests h.handlers fun ho => ?_
    have hat := h.child ho
    exact ⟨hat.running, hat.usr2, rfl, .inl ⟨hf, .inr (hat.mask_nil hf (by simp [hpc]))⟩⟩
  | installRt1 | installUsr2 | installRt2 =>
    simp only [hpc, Option.some.injEq] at hs
    subst hs
    refine h.setChild rfl h.requests h.handlers fun ho => ?_
    have hat := h.child ho
    have hready := hat.handled
    rw [hpc] at hready
    exact ⟨hat.running, hat.usr2, hready, .inl ⟨hf, .inr (hat.mask_nil hf (by simp [hpc]))⟩⟩
  | pause =>
    simp only [hpc] at hs
    cases hs

/-- The handler of the child goes on, but for its reply. -/
theorem Inv.childAdvance (h : Inv n s) {f : SigFrame Sig HandlerPc}
    {fs : List (SigFrame Sig HandlerPc)} (hf : s.child.proc.frames = f :: fs) {k : HandlerPc}
    {count : ℤ} (hk : k.todo = true → f.pc.todo = true)
    (hreply : ¬(f.sig = .usr1 ∧ f.pc.todo = true ∧ ¬k.todo = true)) :
    Inv n { s with child := ⟨s.child.pc, s.child.proc.advance k, count⟩ } := by
  have howed := SigProcess.owed_advance (k := k) HandlerPc.todo .usr1 hf hk
  rw [if_neg hreply] at howed
  refine h.setChild howed h.requests (fun g hg => ?_) fun ho => ?_
  · rw [SigProcess.frames_advance hf] at hg
    obtain rfl | hg := List.mem_cons.mp hg
    · exact h.handlers f (hf ▸ List.mem_cons_self)
    · exact h.handlers g (hf ▸ List.mem_cons_of_mem _ hg)
  · have hat := h.child ho
    obtain ⟨hready, rfl, hsig, hsaved, hmask⟩ := hat.frame hf
    refine ⟨hat.running, hat.usr2, hat.handled, .inr ⟨hready, k, ?_, hmask⟩⟩
    rw [SigProcess.frames_advance hf, hsig, hsaved]

/-- The child replies. -/
theorem Inv.reply (h : Inv n s) {f : SigFrame Sig HandlerPc}
    {fs : List (SigFrame Sig HandlerPc)} (hf : s.child.proc.frames = f :: fs) (hsig : f.sig = .usr1)
    (hact : f.pc = .act) : Inv n (s.childAct .usr1) := by
  obtain ⟨hwaits, hparent, hchild, hflag⟩ := h.replying hf hsig hact
  obtain ⟨hover, hdone⟩ := ParentPc.waits_over hwaits
  have hrun := h.running hdone
  have hat := h.child hover
  obtain ⟨hready, rfl, -, hsaved, hmask⟩ := hat.frame hf
  have howed := SigProcess.owed_advance (k := .leave) HandlerPc.todo .usr1 hf fun hk => by cases hk
  rw [if_pos ⟨hsig, by rw [hact]; rfl, by decide⟩, hchild] at howed
  refine ⟨?_, fun _ => hrun, h.handled, fun x hx => ?_, ?_, h.requests, fun g hg => ?_, fun _ =>
    ⟨hat.running, hat.usr2, hat.handled, .inr ⟨hready, .leave, ?_, hmask⟩⟩⟩
  · exact h.parent
  · by_cases hne : x = .usr1
    · exact hne
    · exact h.replies x ((SigProcess.raise_pending_ne hne).symm.trans hx)
  · show (s.child.proc.advance .leave).owed HandlerPc.todo .usr1 +
      (s.parent.proc.raise .usr1).owed HandlerPc.todo .usr1 + s.parent.usr1Received.toNat =
        s.parent.pc.waits.toNat
    rw [SigProcess.owed_raise hrun (SigProcess.pending_of_owed hparent), hparent, hflag, hwaits]
    simp only [Bool.toNat_false, Bool.toNat_true]
    omega
  · have hg' : g ∈ (s.child.proc.advance .leave).frames := hg
    rw [SigProcess.frames_advance hf, List.mem_singleton] at hg'
    rw [hg']
    exact .inl hsig
  · show (s.child.proc.advance .leave).frames = _
    rw [SigProcess.frames_advance hf, hsig, hsaved]

theorem Inv.stepChild (h : Inv n s) (hs : s.stepChild = some s') : Inv n s' := by
  unfold System.stepChild at hs
  cases hrun : s.child.proc.running with
  | false =>
    rw [hrun] at hs
    cases hs
  | true =>
    rw [hrun, if_pos rfl] at hs
    cases hf : s.child.proc.frames with
    | nil =>
      rw [hf] at hs
      exact h.childMain hf hs
    | cons f fs =>
      simp only [hf] at hs
      cases hk : f.pc with
      | count =>
        simp only [hk, Option.some.injEq] at hs
        subst hs
        exact h.childAdvance hf (fun _ => by rw [hk]; rfl) fun hc => hc.2.2 rfl
      | act =>
        simp only [hk, Option.some.injEq] at hs
        subst hs
        obtain hsig | hsig := h.handlers f (hf ▸ List.mem_cons_self)
        · rw [hsig]
          exact h.reply hf hsig hk
        · rw [hsig]
          refine h.setChild rfl h.requests h.handlers fun ho => ?_
          obtain ⟨-, -, husr1, -⟩ := (h.child ho).frame hf
          rw [hsig] at husr1
          cases husr1
      | leave =>
        simp only [hk, Option.some.injEq] at hs
        subst hs
        refine h.setChild (SigProcess.owed_leave _ _ hf (by rw [hk]; rfl)) h.requests
          (fun g hg => ?_) fun ho => ?_
        · have hg' : g ∈ s.child.proc.leave.frames := hg
          rw [SigProcess.frames_leave hf] at hg'
          exact h.handlers g (hf ▸ List.mem_cons_of_mem _ hg')
        · have hat := h.child ho
          obtain ⟨hready, rfl, -, hsaved, -⟩ := hat.frame hf
          exact ⟨hat.running, hat.usr2, hat.handled, .inl ⟨SigProcess.frames_leave hf,
            .inr ((SigProcess.mask_leave hf).trans hsaved)⟩⟩

/-- `SIGUSR1` is not delivered to the child before it has a handler for it. -/
def Handled (s : System) (m : Move) : Prop :=
  m = .signalChild .usr1 → s.child.proc.handled .usr1 = true

theorem Inv.signalChild {x : Sig} (h : Inv n s) (hc : Handled s (.signalChild x))
    (hs : s.signalChild x = some s') : Inv n s' := by
  obtain ⟨proc, hproc, rfl⟩ := Option.map_eq_some_iff.mp hs
  obtain ⟨hrun, hp, hmask, hcases⟩ := SigProcess.deliver_cases hproc
  refine h.setChild (SigProcess.owed_deliver hproc rfl)
    (fun y hy => h.requests y (SigProcess.deliver_pending hproc hy)) (fun f hf => ?_) fun ho => ?_
  · obtain ⟨-, rfl⟩ | ⟨-, rfl⟩ := hcases
    · exact h.handlers f hf
    · obtain rfl | hf := List.mem_cons.mp hf
      · exact h.requests x hp
      · exact h.handlers f hf
  · have hat := h.child ho
    obtain rfl | rfl := h.requests x hp
    · obtain ⟨hnot, -⟩ | ⟨hhandled, rfl⟩ := hcases
      · rw [hc rfl] at hnot
        cases hnot
      · have hready := hat.handled
        rw [hhandled] at hready
        have hpc : s.child.pc ≠ .setMask := fun hpc => by
          rw [hpc] at hready
          cases hready
        cases hf : s.child.proc.frames with
        | nil =>
          refine ⟨hrun, hat.usr2, hat.handled, .inr ⟨hready.symm, .count, ?_, rfl⟩⟩
          rw [← hat.mask_nil hf hpc]
        | cons f fs =>
          obtain ⟨-, -, -, -, hblocked⟩ := hat.frame hf
          rw [hmask] at hblocked
          cases hblocked
    · rw [hat.usr2] at hp
      cases hp

/-- In runs in which `SIGUSR1` finds a handler. -/
theorem inv_of_reachIf (hn0 : 0 ≤ n) (hn : n < 2 ^ 31 - 1)
    (h : (machine n inherited).ReachIf Handled s) : Inv n s := by
  refine h.invariant (fun s hs => ?_) fun s m s' hI hc hs => ?_
  · rw [show s = .forked inherited from hs]
    exact inv_forked n inherited
  · cases m with
    | parent => exact hI.stepParent hn0 hn hs
    | signalParent x => exact hI.signalParent hs
    | child => exact hI.stepChild hs
    | signalChild x => exact hI.signalChild hc hs

end

end AghOs.LockStep
