import Mathlib.Data.List.Basic
import Mathlib.Logic.Basic

/-!
# Labelled machines and their runs

A machine has a set of initial states and a partial step function: `next s l`
is the state after the step that the label `l` names (which thread moves, and
what the environment chose for it), or `none` if that step is not enabled.

* `Machine.ReachIf C`: the states of runs all of whose steps meet `C`, a
  condition on the state before the step and its label; `Machine.Reach` puts
  no condition.
* `ReachIf.invariant`, `ReachIf.invariant_of`: the induction rules.
* `Reach.reachIf_iff`: when the states reached under a condition are those outside
  a set that no step leaves.
* `Machine.runIf`: the run with a given list of labels, for conditions that can
  be computed; `ReachIf.of_runIf` and `Reach.of_run` observe its last state.
* `Machine.Along`: a condition on every step of a run; `Along.of_invariant` is its
  induction rule.
-/

namespace AghOs

/-- A machine over the states `σ` with the labels `ℓ`. -/
structure Machine (σ ℓ : Type*) where
  init : σ → Prop
  next : σ → ℓ → Option σ

namespace Machine

variable {σ ℓ : Type*} (M : Machine σ ℓ)

/-- The states that the runs reach whose steps all meet `C`. -/
inductive ReachIf (C : σ → ℓ → Prop) : σ → Prop
  | init {s : σ} : M.init s → ReachIf C s
  | step {s s' : σ} {l : ℓ} : ReachIf C s → C s l → M.next s l = some s' → ReachIf C s'

/-- The reachable states. -/
def Reach (s : σ) : Prop := M.ReachIf (fun _ _ => True) s

/-- Some step is enabled. -/
def CanStep (s : σ) : Prop := ∃ l s', M.next s l = some s'

/-- The run with the labels `ls` from `s`; `none` if one of its steps is not
    enabled or does not meet `C`. -/
def runIf (C : σ → ℓ → Prop) [∀ s l, Decidable (C s l)] : List ℓ → σ → Option σ
  | [], s => some s
  | l :: ls, s => if C s l then (M.next s l).bind (runIf C ls) else none

/-- The run with the labels `ls` from `s`. -/
def run (ls : List ℓ) (s : σ) : Option σ := M.runIf (fun _ _ => True) ls s

/-- `P` holds of every step of the run with the labels `ls` from `s`, that is, of the
    state before it and its label, up to the first step that is not enabled. -/
def Along (P : σ → ℓ → Prop) : List ℓ → σ → Prop
  | [], _ => True
  | l :: ls, s => P s l ∧ ∀ s', M.next s l = some s' → Along P ls s'

variable {M}

/-- The induction rule: what holds initially and is preserved by every step
    that meets `C` holds in every state reached. -/
theorem ReachIf.invariant {C : σ → ℓ → Prop} {I : σ → Prop} {s : σ} (h : M.ReachIf C s)
    (h0 : ∀ s, M.init s → I s)
    (hs : ∀ s l s', I s → C s l → M.next s l = some s' → I s') : I s := by
  induction h with
  | init hi => exact h0 _ hi
  | step _ hc hn ih => exact hs _ _ _ ih hc hn

/-- As `ReachIf.invariant`, with an invariant `J` that is already known. -/
theorem ReachIf.invariant_of {C : σ → ℓ → Prop} {I J : σ → Prop} {s : σ} (h : M.ReachIf C s)
    (hJ : ∀ s, M.ReachIf C s → J s) (h0 : ∀ s, M.init s → I s)
    (hs : ∀ s l s', J s → J s' → I s → C s l → M.next s l = some s' → I s') : I s := by
  induction h with
  | init hi => exact h0 _ hi
  | step hr hc hn ih => exact hs _ _ _ (hJ _ hr) (hJ _ (.step hr hc hn)) ih hc hn

theorem ReachIf.mono {C D : σ → ℓ → Prop} (hCD : ∀ s l, C s l → D s l) {s : σ}
    (h : M.ReachIf C s) : M.ReachIf D s := by
  induction h with
  | init hi => exact .init hi
  | step _ hc hn ih => exact .step ih (hCD _ _ hc) hn

theorem ReachIf.reach {C : σ → ℓ → Prop} {s : σ} (h : M.ReachIf C s) : M.Reach s :=
  h.mono fun _ _ _ => trivial

/-- As `ReachIf.mono`, for conditions that are compared in reachable states only. -/
theorem ReachIf.mono_of {C D : σ → ℓ → Prop} (hCD : ∀ s l, M.Reach s → C s l → D s l) {s : σ}
    (h : M.ReachIf C s) : M.ReachIf D s := by
  induction h with
  | init hi => exact .init hi
  | step hr hc hn ih => exact .step ih (hCD _ _ hr.reach hc) hn

/-- If a step that does not meet `C` leads to `L`, and no step leads out of `L`,
    then every reachable state is reached under `C` or is in `L`. -/
theorem Reach.reachIf_or {C : σ → ℓ → Prop} {L : σ → Prop} {s : σ} (h : M.Reach s)
    (hbad : ∀ s l s', M.ReachIf C s → ¬C s l → M.next s l = some s' → L s')
    (hL : ∀ s l s', M.Reach s → L s → M.next s l = some s' → L s') : M.ReachIf C s ∨ L s := by
  induction h with
  | init hi => exact .inl (.init hi)
  | @step s s' l hr _ hn ih =>
    obtain ih | ih := ih
    · by_cases hc : C s l
      · exact .inl (ih.step hc hn)
      · exact .inr (hbad _ _ _ ih hc hn)
    · exact .inr (hL _ _ _ hr ih hn)

/-- If moreover no state reached under `C` is in `L`, the states reached under `C`
    are those that are not. -/
theorem Reach.reachIf_iff {C : σ → ℓ → Prop} {L : σ → Prop} {s : σ} (h : M.Reach s)
    (hbad : ∀ s l s', M.ReachIf C s → ¬C s l → M.next s l = some s' → L s')
    (hL : ∀ s l s', M.Reach s → L s → M.next s l = some s' → L s')
    (hC : ∀ s, M.ReachIf C s → ¬L s) : M.ReachIf C s ↔ ¬L s :=
  ⟨hC s, (h.reachIf_or hbad hL).resolve_right⟩

theorem Reach.init {s : σ} (h : M.init s) : M.Reach s := ReachIf.init h

theorem Reach.step {s s' : σ} {l : ℓ} (h : M.Reach s) (hn : M.next s l = some s') : M.Reach s' :=
  ReachIf.step h trivial hn

/-- The last state of a run whose steps meet `C` is reached under `C`. -/
theorem ReachIf.runIf {C : σ → ℓ → Prop} [∀ s l, Decidable (C s l)] :
    ∀ {ls : List ℓ} {s s' : σ}, M.ReachIf C s → M.runIf C ls s = some s' → M.ReachIf C s'
  | [], _, _, h, hr => by cases hr; exact h
  | l :: ls, s, s', h, hr => by
    simp only [Machine.runIf] at hr
    split at hr
    · obtain ⟨t, ht, hr⟩ := Option.bind_eq_some_iff.mp hr
      exact ReachIf.runIf (h.step ‹_› ht) hr
    · cases hr

/-- What `f` observes in the last state of a run from an initial state, it
    observes in a state reached. -/
theorem ReachIf.of_runIf {α : Type*} {C : σ → ℓ → Prop} [∀ s l, Decidable (C s l)] {s : σ}
    (ls : List ℓ) (f : σ → α) (a : α) (h0 : M.init s) (hr : (M.runIf C ls s).map f = some a) :
    ∃ s', M.ReachIf C s' ∧ f s' = a := by
  obtain ⟨s', hs', ha⟩ := Option.map_eq_some_iff.mp hr
  exact ⟨s', (ReachIf.init h0).runIf hs', ha⟩

theorem Reach.of_run {α : Type*} {s : σ} (ls : List ℓ) (f : σ → α) (a : α) (h0 : M.init s)
    (hr : (M.run ls s).map f = some a) : ∃ s', M.Reach s' ∧ f s' = a :=
  ReachIf.of_runIf ls f a h0 hr

theorem run_cons (l : ℓ) (ls : List ℓ) (s : σ) :
    M.run (l :: ls) s = (M.next s l).bind (M.run ls) := by
  rw [run, runIf, if_pos trivial]
  rfl

/-! ## Conditions on the steps of a run -/

theorem along_congr {P Q : σ → ℓ → Prop} (h : ∀ s l, P s l ↔ Q s l) :
    ∀ {ls : List ℓ} {s : σ}, M.Along P ls s ↔ M.Along Q ls s
  | [], _ => Iff.rfl
  | l :: _, s => and_congr (h s l) (forall_congr' fun _ => imp_congr_right fun _ => along_congr h)

/-- The induction rule: if the steps that meet `C` preserve `I`, and `P` holds of them
    in a state with `I`, then `P` holds along every run along which `C` holds. -/
theorem Along.of_invariant {C P : σ → ℓ → Prop} {I : σ → Prop}
    (hstep : ∀ s l s', I s → C s l → M.next s l = some s' → I s')
    (hP : ∀ s l, I s → C s l → P s l) :
    ∀ {ls : List ℓ} {s : σ}, I s → M.Along C ls s → M.Along P ls s
  | [], _, _, _ => trivial
  | l :: _, s, hI, hC =>
    ⟨hP s l hI hC.1, fun s' hs' => Along.of_invariant hstep hP (hstep s l s' hI hC.1 hs')
      (hC.2 s' hs')⟩

theorem Along.mono {C P : σ → ℓ → Prop} (h : ∀ s l, C s l → P s l) {ls : List ℓ} {s : σ}
    (hC : M.Along C ls s) : M.Along P ls s :=
  Along.of_invariant (I := fun _ => True) (fun _ _ _ _ _ _ => trivial) (fun s l _ => h s l)
    trivial hC

end Machine

end AghOs
