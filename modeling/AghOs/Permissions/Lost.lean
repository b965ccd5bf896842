import AghOs.Permissions.Request

/-!
# Requests that are not lost

A request is lost when it is discarded, because another one is pending, or when
the handler runs for it before the pid of its sender is in `children`.

* `no_request_lost`: in runs without such steps every child gets its permission.
* `request_lost`: two requests at once, and one child never gets it.
-/

namespace AghOs.Permissions

/-- The step does not lose a request: a child sends one when none is pending, and
    the handler is called for a child whose pid is stored. -/
def Heard (s : Group) : Label → Prop
  | .child i => s.child i = .ready → s.pending = none
  | .handle => ∀ c ∈ s.pending, s.children c = some c
  | _ => True

instance (s : Group) : ∀ l, Decidable (Heard s l)
  | .child i => inferInstanceAs (Decidable (s.child i = .ready → s.pending = none))
  | .handle => inferInstanceAs (Decidable (∀ c ∈ s.pending, s.children c = some c))
  | .main | .reap _ | .noChild | .handler | .permission _ => inferInstanceAs (Decidable True)

/-- A request that has been sent can still be found. -/
def View.Kept (v : View) : Prop :=
  0 < v.requests → v.pending ∨ v.taken ∨ v.state = .requested ∨ v.permitted ∨ 0 < v.permissions

theorem View.Kept.move {v v' : View} (h : v.Kept) (hs : Stage v) (hm : Move v v')
    (hr : v'.requests = v.requests) (hmiss : v.taken → v.stored) : v'.Kept := by
  cases hm with
  | stay => exact h
  | _ => unfold View.Kept at *; cases hs <;> grind

/-- The second loop of the handler has no request behind it. -/
def Group.Swept (cfg : Config) (s : Group) : Prop :=
  match s.handler with
  | .idle => s.requestCount < cfg.requestThreshold ∨
      ∀ i < cfg.childrenCount, s.childrenStates i ≠ .requested
  | .grant k => ∀ i < k, s.childrenStates i ≠ .requested
  | .kill k => ∀ i ≤ k, s.childrenStates i ≠ .requested
  | _ => True

/-- The invariant of the runs that lose no request. -/
structure AllHeard (cfg : Config) (s : Group) : Prop where
  kept : ∀ i, (s.view i).Kept
  stored : ∀ i, s.handler.Takes i → s.children i = some i
  counted : s.requestCount + s.underWay = (s.requesters cfg).card
  swept : s.Swept cfg

section

variable {cfg : Config} {s s' : Group} {l : Label}

/-- What the steps of `main` and `run`, and those of the children that send
    nothing, leave alone. -/
structure Apart (s s' : Group) : Prop where
  handler : s'.handler = s.handler
  pending : s'.pending = s.pending
  requestCount : s'.requestCount = s.requestCount
  requests : s'.requests = s.requests
  children : ∀ i, s.children i = some i → s'.children i = some i
  states : ∀ i, s'.childrenStates i = .requested → s.childrenStates i = .requested

theorem AllHeard.apart (h : AllHeard cfg s) (ha : Apart s s') (hkept : ∀ i, (s'.view i).Kept) :
    AllHeard cfg s' := by
  refine ⟨hkept, fun i hi => ha.children i (h.stored i (ha.handler ▸ hi)), ?_, ?_⟩
  · have hcounted := h.counted
    unfold Group.underWay Group.requesters at *
    rwa [ha.handler, ha.pending, ha.requestCount, ha.requests]
  · have hswept := h.swept
    unfold Group.Swept at *
    rw [ha.handler, ha.requestCount]
    cases hh : s.handler with
    | idle =>
      rw [hh] at hswept
      exact hswept.imp_right fun hs i hi hr => hs i hi (ha.states i hr)
    | grant k =>
      rw [hh] at hswept
      exact fun i hi hr => hswept i hi (ha.states i hr)
    | kill k =>
      rw [hh] at hswept
      exact fun i hi hr => hswept i hi (ha.states i hr)
    | _ => trivial

theorem apart_main (hn : s.next cfg .main = some s') : Apart s s' := by
  replace hn := main_cases hn
  unfold Group.mainStep at hn
  split at hn
  case h_1 k hk =>
    split at hn <;> obtain rfl := Option.some.inj hn <;>
      exact ⟨rfl, rfl, rfl, rfl, fun _ h => h, fun _ h => h⟩
  case h_2 k hk =>
    obtain rfl := Option.some.inj hn
    refine ⟨rfl, rfl, rfl, rfl, fun i hi => ?_, fun _ h => h⟩
    show Function.update s.children k (some k) i = some i
    by_cases hik : i = k
    · rw [hik, Function.update_self]
    · rw [Function.update_of_ne hik, hi]
  case h_3 c k hk =>
    split at hn <;> obtain rfl := Option.some.inj hn
    · refine ⟨rfl, rfl, rfl, rfl, fun _ h => h, fun i hi => ?_⟩
      change (if s.children k = some c then Function.update s.childrenStates k .terminated
        else s.childrenStates) i = .requested at hi
      split at hi
      · by_cases hik : i = k
        · rw [hik, Function.update_self] at hi
          cases hi
        · rwa [Function.update_of_ne hik] at hi
      · exact hi
    · exact ⟨rfl, rfl, rfl, rfl, fun _ h => h, fun _ h => h⟩
  case h_4 k hk =>
    split at hn <;> obtain rfl := Option.some.inj hn <;>
      exact ⟨rfl, rfl, rfl, rfl, fun _ h => h, fun _ h => h⟩
  all_goals cases hn

theorem requests_handler (hn : s.next cfg .handler = some s') : s'.requests = s.requests := by
  simp only [Group.next] at hn
  unfold Group.handlerStep at hn
  split at hn
  case h_1 => cases hn
  all_goals
    repeat' split at hn
    all_goals
      obtain rfl := Option.some.inj hn
      rfl

/-- Only a child that sends a request changes how many it has sent. -/
theorem requests_next (hn : s.next cfg l = some s') {i : ℕ} (hne : s'.requests i ≠ s.requests i) :
    l = .child i ∧ s.child i = .ready ∧ s'.pending = some (s.pending.getD i) := by
  cases l with
  | main => exact absurd (congrFun (apart_main hn).requests i) hne
  | handler => exact absurd (congrFun (requests_handler hn) i) hne
  | child j =>
    obtain ⟨-, rfl⟩ | ⟨hj, rfl⟩ := child_cases hn
    · exact absurd rfl hne
    · by_cases hij : i = j
      · subst hij
        exact ⟨rfl, hj, rfl⟩
      · exact absurd (Function.update_of_ne hij _ _) hne
  | handle =>
    obtain ⟨-, c, -, rfl⟩ := handle_cases hn
    exact absurd rfl hne
  | reap c =>
    obtain ⟨-, rfl⟩ := reap_cases hn
    exact absurd rfl hne
  | noChild =>
    obtain rfl := noChild_cases hn
    exact absurd rfl hne
  | permission j =>
    obtain ⟨-, -, rfl⟩ := permission_cases hn
    exact absurd rfl hne

theorem AllHeard.kept_next (h : AllHeard cfg s) (hok : Ok cfg s) (hc : Heard s l)
    (hn : s.next cfg l = some s') (i : ℕ) : (s'.view i).Kept := by
  by_cases hr : s'.requests i = s.requests i
  · exact (h.kept i).move (hok.stage i) (hok.moves hn i) hr (h.stored i)
  · obtain ⟨rfl, hready, hp⟩ := requests_next hn hr
    rw [hc hready] at hp
    exact fun _ => .inl hp

theorem AllHeard.handler (h : AllHeard cfg s) (hn : s.next cfg .handler = some s')
    (hkept : ∀ i, (s'.view i).Kept) : AllHeard cfg s' := by
  have hcounted := h.counted
  have hswept := h.swept
  have hstored := h.stored
  simp only [Group.next] at hn
  unfold Group.handlerStep at hn
  unfold Group.Swept at hswept
  split at hn
  case h_1 => cases hn
  case h_2 c hc =>
    obtain rfl := Option.some.inj hn
    refine ⟨hkept, fun i hi => ?_, ?_, trivial⟩
    · rw [hc] at hstored
      exact hstored i hi.1
    · simp only [Group.underWay, hc, Group.requesters] at hcounted ⊢
      omega
  case h_3 c k hk =>
    rw [hk] at hstored
    split at hn <;> obtain rfl := Option.some.inj hn
    · refine ⟨hkept, fun i hi => hstored i ⟨hi.1, Nat.le_of_succ_le hi.2⟩, ?_, trivial⟩
      simpa only [Group.underWay, hk, Group.requesters] using hcounted
    · by_cases hdue : s.requestCount < cfg.requestThreshold
      · simp only [hdue, if_true] at hkept ⊢
        refine ⟨hkept, fun _ hi => hi.elim, ?_, .inl hdue⟩
        simpa only [Group.underWay, hk, Group.requesters] using hcounted
      · simp only [hdue, if_false] at hkept ⊢
        refine ⟨hkept, fun _ hi => hi.elim, ?_, fun i hi => absurd hi (Nat.not_lt_zero i)⟩
        simpa only [Group.underWay, hk, Group.requesters] using hcounted
  case h_4 k hk =>
    rw [hk] at hswept
    split at hn
    · split at hn <;> obtain rfl := Option.some.inj hn
      · refine ⟨hkept, fun _ hi => hi.elim, ?_, fun i hi hr => ?_⟩
        · simpa only [Group.underWay, hk, Group.requesters] using hcounted
        · change Function.update s.childrenStates k .running i = .requested at hr
          by_cases hik : i = k
          · rw [hik, Function.update_self] at hr
            cases hr
          · rw [Function.update_of_ne hik] at hr
            exact hswept i (Nat.lt_of_le_of_ne hi hik) hr
      · rename_i hstate
        refine ⟨hkept, fun _ hi => hi.elim, ?_, fun i hi => ?_⟩
        · simpa only [Group.underWay, hk, Group.requesters] using hcounted
        · obtain hlt | rfl := Nat.lt_succ_iff_lt_or_eq.mp hi
          · exact hswept i hlt
          · exact hstate
    · obtain rfl := Option.some.inj hn
      refine ⟨hkept, fun _ hi => hi.elim, ?_, .inr fun i hi => ?_⟩
      · simpa only [Group.underWay, hk, Group.requesters] using hcounted
      · exact hswept i (by omega)
  case h_5 k hk =>
    rw [hk] at hswept
    obtain rfl := Option.some.inj hn
    refine ⟨hkept, fun _ hi => hi.elim, ?_, fun i hi => hswept i (Nat.le_of_lt_succ hi)⟩
    simpa only [Group.underWay, hk, Group.requesters] using hcounted

theorem AllHeard.next (h : AllHeard cfg s) (hok : Ok cfg s) (hc : Heard s l)
    (hn : s.next cfg l = some s') : AllHeard cfg s' := by
  have hkept := h.kept_next hok hc hn
  cases l with
  | main => exact h.apart (apart_main hn) hkept
  | handler => exact h.handler hn hkept
  | reap c =>
    obtain ⟨-, rfl⟩ := reap_cases hn
    exact h.apart ⟨rfl, rfl, rfl, rfl, fun _ h => h, fun _ h => h⟩ hkept
  | noChild =>
    obtain rfl := noChild_cases hn
    exact h.apart ⟨rfl, rfl, rfl, rfl, fun _ h => h, fun _ h => h⟩ hkept
  | permission i =>
    obtain ⟨-, -, rfl⟩ := permission_cases hn
    exact h.apart ⟨rfl, rfl, rfl, rfl, fun _ h => h, fun _ h => h⟩ hkept
  | handle =>
    have hcounted := h.counted
    obtain ⟨hidle, c, hp, rfl⟩ := handle_cases hn
    refine ⟨hkept, fun i hi => ?_, ?_, trivial⟩
    · obtain rfl : c = i := hi
      exact hc c hp
    · simpa [Group.underWay, hidle, hp, Group.requesters] using hcounted
  | child i =>
    have hcounted := h.counted
    obtain ⟨-, rfl⟩ | ⟨hi, rfl⟩ := child_cases hn
    · exact h.apart ⟨rfl, rfl, rfl, rfl, fun _ h => h, fun _ h => h⟩ hkept
    · have hnone := hc hi
      have h0 := hok.requests_eq_zero hi
      have hborn : s.child i ≠ .unborn := by simp [hi]
      refine ⟨hkept, h.stored, ?_, h.swept⟩
      rw [card_requesters_update (s := s) (hok.inside i hborn) h0 rfl, ← hcounted]
      simp only [Group.underWay, hnone, reduceCtorEq, if_true, if_false]
      omega

theorem AllHeard.initial : AllHeard cfg Group.initial := by
  refine ⟨fun _ h => absurd h (Nat.not_lt_zero 0), nofun, ?_, .inr fun _ _ => nofun⟩
  simp [Group.underWay, Group.requesters, Group.initial]

/-- When all children have sent a request, none is pending and the handler does
    not run, they all have been sent their permission. -/
theorem no_request_lost (h : (machine cfg).ReachIf Heard s)
    (hsent : ∀ i < cfg.childrenCount, 0 < s.requests i) (hpending : s.pending = none)
    (hhandler : s.handler = .idle) : ∀ i < cfg.childrenCount, 0 < s.permissions i := by
  have hall : AllHeard cfg s := h.invariant_of (fun s hs => reach_ok hs.reach)
    (fun _ hs => hs ▸ AllHeard.initial) fun _ _ _ hok _ hI hc hn => hI.next hok hc hn
  intro i hi
  have hcard : (s.requesters cfg).card = cfg.childrenCount := by
    unfold Group.requesters
    rw [Finset.filter_true_of_mem fun j hj => hsent j (Finset.mem_range.mp hj), Finset.card_range]
  have hcounted := hall.counted
  have hswept := hall.swept
  have hkept := hall.kept i (hsent i hi)
  simp only [Group.underWay, hpending, hhandler] at hcounted
  simp only [Group.Swept, hhandler] at hswept
  have hle := cfg.le
  obtain hlt | hnone := hswept
  · simp only [if_true] at hcounted
    omega
  · simpa [Group.view, HandlerPc.Takes, HandlerPc.Permits, hpending, hhandler,
      hnone i hi] using hkept

end

theorem no_request_lost_one :
    ∃ s : Group, s.requests 0 = 1 ∧ ∀ i < 1, 0 < s.permissions i := by
  let cfg : Config := ⟨1, 1, le_rfl⟩
  obtain ⟨s, hs, ha⟩ := Machine.ReachIf.of_runIf (M := machine cfg) (C := Heard)
    ([.main, .main, .child 0, .child 0, .handle] ++ List.replicate 6 .handler)
    (fun s => (s.requests 0, s.pending, s.handler)) (1, none, .idle) rfl rfl
  simp only [Prod.mk.injEq] at ha
  obtain ⟨hr, hp, hh⟩ := ha
  have hsent : ∀ i < 1, 0 < s.requests i := by
    intro i hi
    obtain rfl := Nat.lt_one_iff.mp hi
    exact Nat.lt_of_lt_of_eq Nat.one_pos hr.symm
  exact ⟨s, hr, no_request_lost hs hsent hp hh⟩

/-- Two children send their requests before the handler is called. The second one
    is discarded, and its sender waits for its permission for ever. -/
theorem request_lost :
    ∃ s : Group, (machine ⟨2, 1, by decide⟩).Reach s ∧
      (s.requests 0, s.requests 1, s.pending, s.handler, s.permissions 1) =
        (1, 1, none, .idle, 0) :=
  Machine.Reach.of_run
    ([.main, .main, .main, .main, .child 0, .child 0, .child 1, .child 1, .handle] ++
      List.replicate 8 .handler) _ _ rfl rfl

end AghOs.Permissions
