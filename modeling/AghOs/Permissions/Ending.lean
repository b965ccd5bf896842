import AghOs.Machine.Runs
import AghOs.Machine.Threads
import AghOs.Permissions.Due
import AghOs.Permissions.Lost
import Mathlib.Tactic.Ring

/-!
# The end of a group

* `group_variant`: the steps of a group are bounded. A child pays for the run of the
  handler that its request causes, and for the loops of the parent after its end.
* `Parent`: what the parent knows of its children, by where it is.
* `group_ends`: the parent leaves after all children, each with its permission. A run
  that stops before that has lost a request.
-/

namespace AghOs.Permissions

/-! ## The variant -/

/-- The steps of the handler that are left, with `n` children. -/
def HandlerPc.rank (n : ℕ) : HandlerPc → ℕ
  | .idle => 0
  | .count _ => 3 * n + 3
  | .mark _ i => (n - i) + (2 * n + 2)
  | .grant i => 2 * (n - i) + 1
  | .kill i => 2 * (n - (i + 1)) + 2

/-- The steps of the parent that are left until it waits and one more. -/
def MainPc.rank (n : ℕ) : MainPc → ℕ
  | .fork i => 2 * (n - i) + 2
  | .store i => 2 * (n - (i + 1)) + 3
  | .wait => 1
  | .mark _ i => (n - i) + (n + 3)
  | .check i => (n - i) + 2
  | .exited => 0

/-- The steps of a child that are left, with those that it costs the parent: `3 * n + 4`
    for a request and `2 * n + 2` for its end. -/
def Child.rank (n : ℕ) : Child → ℕ
  | .unborn => 5 * n + 10
  | .started => 5 * n + 10
  | .ready => 5 * n + 9
  | .asked => 2 * n + 4
  | .exited => 2 * n + 3
  | .reaped => 0

open Finset in
/-- The steps that are left. -/
def Group.rank (cfg : Config) (s : Group) : ℕ :=
  s.main.rank cfg.childrenCount + s.handler.rank cfg.childrenCount +
    (if s.pending = none then 0 else 3 * cfg.childrenCount + 4) +
    ∑ i ∈ range cfg.childrenCount, (s.child i).rank cfg.childrenCount

section

variable {cfg : Config} {s s' : Group} {l : Label}

/-- One child moves from `c` to `d`. -/
theorem rank_update {n : ℕ} {child : ℕ → Child} {i : ℕ} {c : Child} (hc : child i = c) (hi : i < n)
    (d : Child) :
    ∑ j ∈ Finset.range n, (Function.update child i d j).rank n + c.rank n =
      ∑ j ∈ Finset.range n, (child j).rank n + d.rank n := by
  subst hc
  exact sum_update_mem (Child.rank n) child (Finset.mem_range.mpr hi) d

theorem Ok.rank_main (h : Ok cfg s) (hn : s.mainStep cfg = some s') :
    s'.rank cfg + 1 ≤ s.rank cfg := by
  unfold Group.mainStep at hn
  split at hn
  case h_1 k hk =>
    split at hn <;> obtain rfl := Option.some.inj hn
    · rename_i hlt
      have hsum := rank_update (h.fork k hk k le_rfl) hlt .started
      change _ + (5 * _ + 10) = _ + (5 * _ + 10) at hsum
      simp only [Group.rank, hk, MainPc.rank]
      omega
    · simp only [Group.rank, hk, MainPc.rank]
      omega
  case h_2 k hk =>
    obtain rfl := Option.some.inj hn
    simp only [Group.rank, hk, MainPc.rank]
    omega
  case h_3 c k hk =>
    split at hn <;> obtain rfl := Option.some.inj hn <;> simp only [Group.rank, hk, MainPc.rank] <;>
      omega
  case h_4 k hk =>
    split at hn <;> obtain rfl := Option.some.inj hn
    · by_cases hk' : s.childrenStates k = .terminated
      · simp only [Group.rank, hk, hk', if_true, MainPc.rank]
        omega
      · simp only [Group.rank, hk, hk', if_false, MainPc.rank]
        omega
    · simp only [Group.rank, hk, MainPc.rank]
      omega
  all_goals cases hn

theorem rank_handler (hn : s.handlerStep cfg = some s') : s'.rank cfg + 1 ≤ s.rank cfg := by
  unfold Group.handlerStep at hn
  split at hn
  case h_1 => cases hn
  case h_2 c hc =>
    obtain rfl := Option.some.inj hn
    simp only [Group.rank, hc, HandlerPc.rank]
    omega
  case h_3 c k hk =>
    split at hn <;> obtain rfl := Option.some.inj hn
    · simp only [Group.rank, hk, HandlerPc.rank]
      omega
    · simp only [Group.rank, hk]
      split <;> simp only [HandlerPc.rank] <;> omega
  case h_4 k hk =>
    split at hn
    · split at hn <;> obtain rfl := Option.some.inj hn <;>
        simp only [Group.rank, hk, HandlerPc.rank] <;> omega
    · obtain rfl := Option.some.inj hn
      simp only [Group.rank, hk, HandlerPc.rank]
      omega
  case h_5 k hk =>
    obtain rfl := Option.some.inj hn
    simp only [Group.rank, hk, HandlerPc.rank]
    omega

theorem reap_wait {c : ℕ} (hn : s.next cfg (.reap c) = some s') : s.main = .wait := by
  simp only [Group.next] at hn
  split at hn
  · rename_i hc
    exact hc.2.1
  · cases hn

theorem noChild_wait (hn : s.next cfg .noChild = some s') :
    s.main = .wait ∧ ∀ i < cfg.childrenCount, s.child i = .reaped := by
  simp only [Group.next] at hn
  split at hn
  · rename_i hc
    exact hc.2
  · cases hn

theorem Ok.rank_next (h : Ok cfg s) (hn : s.next cfg l = some s') :
    s'.rank cfg + 1 ≤ s.rank cfg := by
  cases l with
  | main => exact h.rank_main (main_cases hn)
  | handler => exact rank_handler hn
  | reap c =>
    have hwait := reap_wait hn
    obtain ⟨hc, rfl⟩ := reap_cases hn
    have hsum := rank_update hc (h.inside c (by simp [hc])) .reaped
    change _ + (2 * _ + 3) = _ + 0 at hsum
    simp only [Group.rank, hwait, MainPc.rank]
    omega
  | noChild =>
    obtain ⟨hwait, -⟩ := noChild_wait hn
    obtain rfl := noChild_cases hn
    simp only [Group.rank, hwait, MainPc.rank]
    omega
  | handle =>
    obtain ⟨hidle, c, hp, rfl⟩ := handle_cases hn
    simp only [Group.rank, hidle, hp, HandlerPc.rank, reduceCtorEq, if_true, if_false]
    omega
  | child i =>
    obtain ⟨hi, rfl⟩ | ⟨hi, rfl⟩ := child_cases hn
    · have hsum := rank_update hi (h.inside i (by simp [hi])) .ready
      change _ + (5 * _ + 10) = _ + (5 * _ + 9) at hsum
      simp only [Group.rank]
      omega
    · have hsum := rank_update hi (h.inside i (by simp [hi])) .asked
      change _ + (5 * _ + 9) = _ + (2 * _ + 4) at hsum
      simp only [Group.rank, reduceCtorEq, if_false]
      omega
  | permission i =>
    obtain ⟨hi | hi, -, rfl⟩ := permission_cases hn
    · have hsum := rank_update hi (h.inside i (by simp [hi])) .exited
      change _ + (5 * _ + 9) = _ + (2 * _ + 3) at hsum
      simp only [Group.rank]
      omega
    · have hsum := rank_update hi (h.inside i (by simp [hi])) .exited
      change _ + (2 * _ + 4) = _ + (2 * _ + 3) at hsum
      simp only [Group.rank]
      omega

theorem group_variant :
    (machine cfg).Variant (machine cfg).Reach (fun _ => 0) (Group.rank cfg) where
  keep _ _ _ h hn := h.step hn
  lower _ _ _ h hn := (reach_ok h).rank_next hn

/-! ## What the parent knows -/

theorem Move.child_ne_unborn {v v' : View} (hm : Move v v') (h : v.child ≠ .unborn) :
    v'.child ≠ .unborn := by
  cases hm with
  | born hu => exact absurd hu h
  | signal | ask | discard | exit | reap => simp
  | _ => exact h

theorem Move.reaped {v v' : View} (hm : Move v v') (h : v.child = .reaped) :
    v'.child = .reaped := by
  cases hm with
  | born hc | signal hc | ask hc | discard hc => simp [hc] at h
  | exit hc => simp [h] at hc
  | reap => rfl
  | _ => exact h

theorem Stage.reaped_of_terminated {v : View} (h : Stage v) (ht : v.state = .terminated) :
    v.child = .reaped := by
  cases h with
  | granted _ _ _ hs =>
    obtain hs | ⟨-, hc⟩ := hs
    · simp [ht] at hs
    · exact hc
  | early _ _ _ hs | pending _ _ _ hs | taken _ _ _ hs | lost _ _ _ hs | marked _ _ _ hs
  | permitted _ _ _ hs => simp [ht] at hs

/-- How many children the parent has forked. -/
def MainPc.forked (n : ℕ) : MainPc → ℕ
  | .fork i => i
  | .store i => i + 1
  | _ => n

/-- What the parent knows of its children. -/
structure Parent (cfg : Config) (s : Group) : Prop where
  born : ∀ i < s.main.forked cfg.childrenCount, s.child i ≠ .unborn
  checked : ∀ k, s.main = .check k → ∀ i < k, s.childrenStates i = .terminated
  reaped : s.main = .exited → ∀ i < cfg.childrenCount, s.child i = .reaped

/-- The other steps. -/
theorem Parent.keep (h : Parent cfg s) (hok : Ok cfg s) (hn : s.next cfg l = some s')
    (hmain : s'.main = s.main) : Parent cfg s' := by
  refine ⟨fun i hi => ?_, fun k hk i hi => ?_, fun he i hi => ?_⟩
  · rw [hmain] at hi
    exact (hok.moves hn i).child_ne_unborn (h.born i hi)
  · rw [hmain] at hk
    exact ((hok.stage i).terminated (hok.moves hn i) (h.checked k hk i hi)).1
  · rw [hmain] at he
    exact (hok.moves hn i).reaped (h.reaped he i hi)

theorem Parent.main (h : Parent cfg s) (hok : Ok cfg s) (hn : s.next cfg .main = some s') :
    Parent cfg s' := by
  have hborn : ∀ i, s.child i ≠ .unborn → s'.child i ≠ .unborn := fun i hi =>
    (hok.moves hn i).child_ne_unborn hi
  have hb := h.born
  replace hn := main_cases hn
  unfold Group.mainStep at hn
  split at hn
  case h_1 k hk =>
    rw [hk] at hb
    split at hn <;> obtain rfl := Option.some.inj hn
    · refine ⟨fun i hi => ?_, by simp, by simp⟩
      obtain hlt | rfl := Nat.lt_succ_iff_lt_or_eq.mp hi
      · exact hborn i (hb i hlt)
      · simp
    · exact ⟨fun i hi => hborn i (hb i (by simp only [MainPc.forked] at hi ⊢; omega)), by simp,
        by simp⟩
  case h_2 k hk =>
    rw [hk] at hb
    obtain rfl := Option.some.inj hn
    exact ⟨fun i hi => hborn i (hb i hi), by simp, by simp⟩
  case h_3 c k hk =>
    rw [hk] at hb
    split at hn <;> obtain rfl := Option.some.inj hn
    · exact ⟨fun i hi => hborn i (hb i hi), by simp, by simp⟩
    · refine ⟨fun i hi => hborn i (hb i hi), fun j hj i hi => ?_, by simp⟩
      obtain rfl := MainPc.check.inj hj
      omega
  case h_4 k hk =>
    rw [hk] at hb
    split at hn <;> obtain rfl := Option.some.inj hn
    · by_cases hterm : s.childrenStates k = .terminated
      · simp only [hterm, if_true] at hborn ⊢
        refine ⟨fun i hi => hborn i (hb i hi), fun j hj i hi => ?_, by simp⟩
        obtain rfl := MainPc.check.inj hj
        obtain hlt | rfl := Nat.lt_succ_iff_lt_or_eq.mp hi
        · exact h.checked k hk i hlt
        · exact hterm
      · simp only [hterm, if_false] at hborn ⊢
        exact ⟨fun i hi => hborn i (hb i hi), by simp, by simp⟩
    · refine ⟨fun i hi => hborn i (hb i hi), by simp, fun _ i hi => ?_⟩
      exact (hok.stage i).reaped_of_terminated (h.checked k hk i (by omega))
  all_goals cases hn

theorem handler_frame (hn : s.next cfg .handler = some s') :
    s'.main = s.main ∧ s'.children = s.children := by
  simp only [Group.next] at hn
  unfold Group.handlerStep at hn
  split at hn
  case h_1 => cases hn
  all_goals
    repeat' split at hn
    all_goals
      obtain rfl := Option.some.inj hn
      exact ⟨rfl, rfl⟩

theorem Parent.next (h : Parent cfg s) (hok : Ok cfg s) (hn : s.next cfg l = some s') :
    Parent cfg s' := by
  cases l with
  | main => exact h.main hok hn
  | handler => exact h.keep hok hn (handler_frame hn).1
  | reap c =>
    have hb := h.born
    have hborn : ∀ i, s.child i ≠ .unborn → s'.child i ≠ .unborn := fun i hi =>
      (hok.moves hn i).child_ne_unborn hi
    rw [reap_wait hn] at hb
    obtain ⟨-, rfl⟩ := reap_cases hn
    exact ⟨fun i hi => hborn i (hb i hi), by simp, by simp⟩
  | noChild =>
    have hb := h.born
    obtain ⟨hwait, hall⟩ := noChild_wait hn
    rw [hwait] at hb
    obtain rfl := noChild_cases hn
    exact ⟨hb, by simp, fun _ => hall⟩
  | handle =>
    refine h.keep hok hn ?_
    obtain ⟨-, c, -, rfl⟩ := handle_cases hn
    rfl
  | child i =>
    refine h.keep hok hn ?_
    obtain ⟨-, rfl⟩ | ⟨-, rfl⟩ := child_cases hn <;> rfl
  | permission i =>
    refine h.keep hok hn ?_
    obtain ⟨-, -, rfl⟩ := permission_cases hn
    rfl

theorem reach_parent (h : (machine cfg).Reach s) : Parent cfg s :=
  h.invariant_of (fun _ hs => reach_ok hs)
    (fun _ hs => hs ▸ ⟨fun i hi => absurd hi (Nat.not_lt_zero i), by simp [Group.initial],
      by simp [Group.initial]⟩)
    fun _ _ _ hok _ hI _ hn => hI.next hok hn

/-! ## Lost requests -/

/-- The child has sent a request that will not be answered. It has been discarded, or
    the handler runs for it, or has run, without finding its pid. -/
structure View.Lost (v : View) : Prop where
  asked : v.child = .asked
  permissions : v.permissions = 0
  state : v.state = .running
  pending : ¬v.pending
  permitted : ¬v.permitted
  taken : v.taken → ¬v.stored

theorem View.Lost.move {v v' : View} (h : v.Lost) (hm : Move v v')
    (hs : v.taken → v'.stored → v.stored) : v'.Lost := by
  obtain ⟨hasked, hperm, hstate, hpend, hpermit, htaken⟩ := h
  cases hm with
  | stay => exact ⟨hasked, hperm, hstate, hpend, hpermit, htaken⟩
  | store => exact ⟨hasked, hperm, hstate, hpend, hpermit, fun ht _ => htaken ht (hs ht trivial)⟩
  | born hc | signal hc | ask hc | discard hc | reap hc | terminate hc => simp [hasked] at hc
  | take hp => exact absurd hp hpend
  | mark ht hst => exact absurd hst (htaken ht)
  | miss => exact ⟨hasked, hperm, hstate, hpend, hpermit, False.elim⟩
  | grant hr => simp [hstate] at hr
  | permit hp => exact absurd hp hpermit
  | exit _ hp => omega

/-- The pids are not stored while the handler runs. -/
theorem children_next (hn : s.next cfg l = some s') (hh : s.handler ≠ .idle) :
    s'.children = s.children := by
  cases l with
  | main =>
    simp only [Group.next, hh, if_false] at hn
    cases hn
  | handler => exact (handler_frame hn).2
  | reap c =>
    obtain ⟨-, rfl⟩ := reap_cases hn
    rfl
  | noChild =>
    obtain rfl := noChild_cases hn
    rfl
  | handle =>
    obtain ⟨-, c, -, rfl⟩ := handle_cases hn
    rfl
  | child i => obtain ⟨-, rfl⟩ | ⟨-, rfl⟩ := child_cases hn <;> rfl
  | permission i =>
    obtain ⟨-, -, rfl⟩ := permission_cases hn
    rfl

theorem Ok.lost_next (h : Ok cfg s) {i : ℕ} (hi : (s.view i).Lost) (hn : s.next cfg l = some s') :
    (s'.view i).Lost := by
  refine hi.move (h.moves hn i) fun ht hst => ?_
  have hbusy : s.handler ≠ .idle := by
    intro hidle
    simp [Group.view, hidle, HandlerPc.Takes] at ht
  change s'.children i = some i at hst
  rwa [children_next hn hbusy] at hst

theorem Ok.lost_of_not_heard (h : Ok cfg s) (hc : ¬Heard s l) (hn : s.next cfg l = some s') :
    ∃ i, (s'.view i).Lost := by
  cases l with
  | child i =>
    obtain ⟨hready, hpend⟩ := Classical.not_imp.mp hc
    obtain ⟨c, hp⟩ := Option.ne_none_iff_exists'.mp hpend
    obtain ⟨hi, -⟩ | ⟨-, rfl⟩ := child_cases hn
    · simp [hready] at hi
    · have hview : (s.view i).child = .ready := hready
      refine ⟨i, ?_⟩
      cases h.stage i with
      | early _ hr hperm hstate hpending htaken hpermit =>
        have hne : c ≠ i := by
          rintro rfl
          exact hpending hp
        refine ⟨Function.update_self .., hperm, hstate, ?_, hpermit, fun ht => absurd ht htaken⟩
        simpa [Group.view, hp] using hne
      | _ => grind
  | handle =>
    obtain ⟨c, hp, hst⟩ : ∃ c, s.pending = some c ∧ s.children c ≠ some c := by
      by_contra hall
      push Not at hall
      exact hc hall
    obtain ⟨-, d, hd, rfl⟩ := handle_cases hn
    have hpending : (s.view c).pending := hp
    refine ⟨c, ?_⟩
    cases h.stage c with
    | pending hasked hr hperm hstate =>
      exact ⟨hasked, hperm, hstate, by simp [Group.view], by simp [Group.view, HandlerPc.Permits],
        fun _ => hst⟩
    | _ => exact absurd hpending ‹_›
  | main | handler | reap | noChild | permission => exact absurd trivial hc

/-! ## Where a run stops -/

theorem idle_of_stuck (hb : ∀ l, s.next cfg l = none) : s.handler = .idle := by
  have hhandler := hb .handler
  simp only [Group.next, Group.handlerStep] at hhandler
  split at hhandler
  case h_1 hidle => exact hidle
  all_goals
    repeat' split at hhandler
    all_goals cases hhandler

/-- What the parent does when nothing can happen any more. -/
theorem main_of_stuck (hb : ∀ l, s.next cfg l = none) : s.main = .exited ∨
    s.main = .wait ∧ s.pending = none ∧ (∀ c, s.child c ≠ .exited) ∧
      ∃ i < cfg.childrenCount, s.child i ≠ .reaped := by
  have hidle := idle_of_stuck hb
  have hmain := hb .main
  simp only [Group.next, hidle, if_true, Group.mainStep] at hmain
  split at hmain
  case h_5 hwait =>
    have hreap := fun c => hb (.reap c)
    have hno := hb .noChild
    have hhandle := hb .handle
    simp [Group.next, hidle, hwait] at hreap hno hhandle
    exact .inr ⟨hwait, hhandle, hreap, hno⟩
  case h_6 hexited => exact .inl hexited
  all_goals
    repeat' split at hmain
    all_goals cases hmain

/-- The children when nothing can happen any more while the parent waits. -/
theorem Parent.child_of_stuck (h : Parent cfg s) (hb : ∀ l, s.next cfg l = none)
    (hwait : s.main = .wait) (hexited : ∀ c, s.child c ≠ .exited) {i : ℕ}
    (hi : i < cfg.childrenCount) :
    s.child i = .reaped ∨ s.child i = .asked ∧ s.permissions i = 0 := by
  have hborn := h.born i (by rw [hwait]; exact hi)
  have hchild := hb (.child i)
  have hpermission := hb (.permission i)
  simp only [Group.next, Group.childStep] at hchild hpermission
  cases hc : s.child i with
  | unborn => exact absurd hc hborn
  | started | ready => simp [hc] at hchild
  | asked =>
    simp [hc] at hpermission
    exact .inr ⟨rfl, hpermission⟩
  | exited => exact absurd hc (hexited i)
  | reaped => exact .inl rfl

theorem Stage.requests_eq_one {v : View} (h : Stage v) (hc : v.child = .reaped ∨ v.child = .asked) :
    v.requests = 1 := by
  cases h with
  | early hearly => grind
  | granted _ hr | pending _ hr | taken _ hr | lost _ hr | marked _ hr | permitted _ hr => exact hr

/-- All children have sent their requests, and each has been answered. -/
theorem AllHeard.permissions_pos (h : AllHeard cfg s) (hok : Ok cfg s)
    (hidle : s.handler = .idle) (hpending : s.pending = none)
    (hc : ∀ i < cfg.childrenCount, s.child i = .reaped ∨ s.child i = .asked) :
    ∀ i < cfg.childrenCount, 0 < s.permissions i := by
  have hone : ∀ i < cfg.childrenCount, s.requests i = 1 := fun i hi =>
    (hok.stage i).requests_eq_one (hc i hi)
  have hcard : (s.requesters cfg).card = cfg.childrenCount := by
    unfold Group.requesters
    rw [Finset.filter_true_of_mem fun i hi => ?_, Finset.card_range]
    rw [hone i (Finset.mem_range.mp hi)]
    exact Nat.one_pos
  have hcounted := h.counted
  have hswept := h.swept
  have hle := cfg.le
  simp only [Group.underWay, hpending, hidle, if_true] at hcounted
  simp only [Group.Swept, hidle] at hswept
  intro i hi
  have hkept := h.kept i (by rw [show (s.view i).requests = 1 from hone i hi]; exact Nat.one_pos)
  simpa [Group.view, HandlerPc.Takes, HandlerPc.Permits, hpending, hidle,
    hswept.resolve_left (by omega) i hi] using hkept

/-- Without a loss, only the end is left. -/
theorem AllHeard.exited_of_stuck (h : AllHeard cfg s) (hok : Ok cfg s) (hparent : Parent cfg s)
    (hb : ∀ l, s.next cfg l = none) : s.main = .exited := by
  refine (main_of_stuck hb).resolve_right fun ⟨hwait, hpending, hexited, i, hi, hne⟩ => ?_
  have hchild : ∀ j < cfg.childrenCount,
      s.child j = .reaped ∨ s.child j = .asked ∧ s.permissions j = 0 := fun j hj =>
    hparent.child_of_stuck hb hwait hexited hj
  have hpos := h.permissions_pos hok (idle_of_stuck hb) hpending
    (fun j hj => (hchild j hj).imp_right And.left) i hi
  have hzero := ((hchild i hi).resolve_left hne).2
  omega

/-- After a loss, the parent does not leave. -/
theorem Parent.not_lost (h : Parent cfg s) (hok : Ok cfg s) (he : s.main = .exited) :
    ¬∃ i, (s.view i).Lost := by
  rintro ⟨i, hi⟩
  have hasked : s.child i = .asked := hi.asked
  have hreaped := h.reaped he i (hok.inside i (by simp [hasked]))
  simp [hasked] at hreaped

theorem initial_rank (cfg : Config) : Group.rank cfg Group.initial =
    5 * cfg.childrenCount ^ 2 + 12 * cfg.childrenCount + 2 := by
  have hsum : Group.rank cfg Group.initial =
      2 * cfg.childrenCount + 2 + cfg.childrenCount * (5 * cfg.childrenCount + 10) := by
    simp [Group.rank, Group.initial, MainPc.rank, HandlerPc.rank, Child.rank]
  rw [hsum]
  ring

/-- A run of the group is finite. The parent leaves after all its children, each with
    its permission, and a run stops before that if and only if a request has been lost:
    then the parent waits for a child that waits for its permission. -/
theorem group_ends {ls : List Label} (hr : (machine cfg).run ls Group.initial = some s) :
    ls.length ≤ 5 * cfg.childrenCount ^ 2 + 12 * cfg.childrenCount + 2 ∧
      (s.main = .exited →
        ∀ i < cfg.childrenCount, s.child i = .reaped ∧ s.permissions i = 1) ∧
      ((∀ l, (machine cfg).next s l = none) →
        (s.main = .exited ∨ s.main = .wait ∧
          ∃ i < cfg.childrenCount, s.child i = .asked ∧ s.permissions i = 0) ∧
        (s.main = .exited ↔ (machine cfg).Along Heard ls Group.initial)) := by
  have h0 : (machine cfg).Reach Group.initial := .init rfl
  have hreach : (machine cfg).Reach s := h0.runIf hr
  have hok := reach_ok hreach
  have hparent := reach_parent hreach
  refine ⟨?_, fun he i hi => ?_, fun hb => ⟨?_, fun he => ?_, fun hall => ?_⟩⟩
  · have hlen := group_variant.length_le h0 hr
    have hstart := initial_rank cfg
    have hgain : (ls.map fun _ => 0).sum = 0 := by simp
    omega
  · have hreaped := hparent.reaped he i hi
    have hview : (s.view i).child = .reaped := hreaped
    refine ⟨hreaped, ?_⟩
    cases hok.stage i with
    | granted _ _ hp => exact hp
    | _ => grind
  · refine (main_of_stuck hb).imp_right fun ⟨hwait, _, hexited, i, hi, hne⟩ => ⟨hwait, i, hi, ?_⟩
    exact (hparent.child_of_stuck hb hwait hexited hi).resolve_left hne
  · exact (Machine.along_or (I := Ok cfg) (fun _ _ _ hI hn => hI.next hn)
      (fun _ _ _ hI hc hn => hI.lost_of_not_heard hc hn)
      (fun _ _ _ hI ⟨i, hi⟩ hn => ⟨i, hI.lost_next hi hn⟩) Ok.initial hr).resolve_right
        (hparent.not_lost hok he)
  · have hheard : AllHeard cfg s :=
      (Machine.ReachIf.of_along (.init rfl) hall hr).invariant_of
        (fun _ hs => reach_ok hs.reach) (fun _ hs => hs ▸ AllHeard.initial)
        fun _ _ _ hok _ hI hc hn => hI.next hok hc hn
    exact hheard.exited_of_stuck hok hparent hb

end

/-- One child. -/
theorem group_ends_one : ∃ ls s, (machine ⟨1, 1, Int.le_refl 1⟩).run ls Group.initial = some s ∧
    s.main = .exited ∧ ls.length ≤ 19 ∧ s.child 0 = .reaped ∧ s.permissions 0 = 1 := by
  let cfg : Config := ⟨1, 1, Int.le_refl 1⟩
  obtain ⟨ls, hls⟩ : ∃ ls : List Label, ls = [.main, .main, .main, .child 0, .child 0, .handle] ++
      List.replicate 6 .handler ++ [.permission 0, .reap 0] ++ List.replicate 4 .main := ⟨_, rfl⟩
  have hend : ((machine cfg).run ls Group.initial).map Group.main = some .exited := by
    rw [hls]
    rfl
  obtain ⟨s, hr, hmain⟩ := Option.map_eq_some_iff.mp hend
  obtain ⟨hlen, hexited, -⟩ := group_ends hr
  obtain ⟨hchild, hperm⟩ := hexited hmain 0 Nat.one_pos
  exact ⟨ls, s, hr, hmain, hlen, hchild, hperm⟩

end AghOs.Permissions
