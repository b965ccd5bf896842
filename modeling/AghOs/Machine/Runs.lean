import AghOs.Machine.Reach
import Mathlib.Algebra.BigOperators.Group.List.Basic
import Mathlib.Algebra.GroupWithZero.Nat
import Mathlib.Tactic.Common

/-!
# Whole runs of a machine

Rules about a run as a whole, given by the list of its labels.

* `run_invariant`, `Along.run_invariant`: what the steps preserve, the run preserves.
* `along_or`: the steps of a run meet a condition, or the run ends in a set that the
  other steps lead to and no step leads out of.
* `Along.count_le`: how many steps of one kind a run can make while something waits.
* `Machine.output`: what the steps of a run emit, in order; `output_invariant` is the
  rule for a relation between the state and what has been emitted so far.
* `Variant`: a natural number that every step lowers, but for what the label of the
  step adds to it (`gain`). A label without gain is a step of the program, one with
  gain an intervention of the environment, such as a spurious wake-up or a message
  from outside.
* `Variant.length_le`: a run is no longer than the variant in its first state and the
  gains of its labels.
* `Variant.exists_final`: without interventions, every run can be continued to a
  state in which no step of the program is enabled.
-/

namespace AghOs

namespace Machine

variable {σ ℓ : Type*} {M : Machine σ ℓ}

@[simp] theorem run_nil (s : σ) : M.run [] s = some s := rfl

/-- What the steps with labels in `P` preserve, a run of such steps preserves. -/
theorem run_invariant_of {I : σ → Prop} {P : ℓ → Prop}
    (hstep : ∀ s l s', I s → P l → M.next s l = some s' → I s') :
    ∀ {ls : List ℓ} {s s' : σ}, (∀ l ∈ ls, P l) → I s → M.run ls s = some s' → I s'
  | [], _, _, _, hI, hr => by cases hr; exact hI
  | l :: ls, s, s', hP, hI, hr => by
    rw [run_cons] at hr
    obtain ⟨t, ht, hr⟩ := Option.bind_eq_some_iff.mp hr
    have ht' := hstep s l t hI (hP l List.mem_cons_self) ht
    exact run_invariant_of hstep (fun k hk => hP k (List.mem_cons_of_mem l hk)) ht' hr

/-- What a run from a state with `I` preserves. -/
theorem run_invariant {I : σ → Prop} (hstep : ∀ s l s', I s → M.next s l = some s' → I s')
    {ls : List ℓ} {s s' : σ} (hI : I s) (hr : M.run ls s = some s') : I s' :=
  run_invariant_of (P := fun _ => True) (fun s l s' hs _ => hstep s l s' hs)
    (fun _ _ => trivial) hI hr

/-- A run all of whose steps meet `C`. -/
theorem along_of_runIf {C : σ → ℓ → Prop} [∀ s l, Decidable (C s l)] :
    ∀ {ls : List ℓ} {s s' : σ}, M.runIf C ls s = some s' → M.Along C ls s ∧ M.run ls s = some s'
  | [], _, _, hr => ⟨trivial, hr⟩
  | l :: ls, s, s', hr => by
    rw [runIf] at hr
    split at hr
    · rename_i hc
      obtain ⟨t, ht, hr⟩ := Option.bind_eq_some_iff.mp hr
      obtain ⟨hall, hrest⟩ := along_of_runIf hr
      refine ⟨⟨hc, fun t' ht' => ?_⟩, by rw [run_cons, ht]; exact hrest⟩
      obtain rfl : t = t' := Option.some.inj (ht.symm.trans ht')
      exact hall
    · cases hr

/-- What the steps that meet `C` preserve, a run along which `C` holds preserves. -/
theorem Along.run_invariant {C : σ → ℓ → Prop} {I : σ → Prop}
    (hstep : ∀ s l s', I s → C s l → M.next s l = some s' → I s') :
    ∀ {ls : List ℓ} {s s' : σ}, I s → M.Along C ls s → M.run ls s = some s' → I s'
  | [], _, _, hI, _, hr => by cases hr; exact hI
  | l :: ls, s, s', hI, hC, hr => by
    rw [run_cons] at hr
    obtain ⟨t, ht, hr⟩ := Option.bind_eq_some_iff.mp hr
    exact Along.run_invariant hstep (hstep s l t hI hC.1 ht) (hC.2 t ht) hr

/-- A run along which `C` holds reaches its last state under `C`. -/
theorem ReachIf.of_along {C : σ → ℓ → Prop} {ls : List ℓ} {s s' : σ} (h : M.ReachIf C s)
    (hC : M.Along C ls s) (hr : M.run ls s = some s') : M.ReachIf C s' :=
  Along.run_invariant (I := M.ReachIf C) (fun _ _ _ => ReachIf.step) h hC hr

/-- If a step that does not meet `C` leads to `L`, and no step leads out of `L`, then
    `C` holds along a run, or the run ends in `L`. -/
theorem along_or {C : σ → ℓ → Prop} {I L : σ → Prop}
    (hI : ∀ s l s', I s → M.next s l = some s' → I s')
    (hbad : ∀ s l s', I s → ¬C s l → M.next s l = some s' → L s')
    (hL : ∀ s l s', I s → L s → M.next s l = some s' → L s') :
    ∀ {ls : List ℓ} {s s' : σ}, I s → M.run ls s = some s' → M.Along C ls s ∨ L s'
  | [], _, _, _, _ => .inl trivial
  | l :: ls, s, s', hs, hr => by
    rw [run_cons] at hr
    obtain ⟨t, ht, hr⟩ := Option.bind_eq_some_iff.mp hr
    have hkeep : L t → L s' := fun hLt =>
      (run_invariant (I := fun s => I s ∧ L s)
        (fun s l s' h hn => ⟨hI s l s' h.1 hn, hL s l s' h.1 h.2 hn⟩) ⟨hI s l t hs ht, hLt⟩ hr).2
    by_cases hc : C s l
    · obtain hrest | hend := along_or hI hbad hL (hI s l t hs ht) hr
      · refine .inl ⟨hc, fun t' ht' => ?_⟩
        obtain rfl : t = t' := Option.some.inj (ht.symm.trans ht')
        exact hrest
      · exact .inr hend
    · exact .inr (hkeep (hbad s l t hs hc ht))

/-- A bounded wait: while `W` lasts, the steps with a label in `p` lower the rank and no
    other step raises it. So in a run at whose end `W` still holds, there are no more such
    steps than the rank says. -/
theorem Along.count_le {C : σ → ℓ → Prop} {I W : σ → Prop} {p : ℓ → Bool} {rank : σ → ℕ}
    (hI : ∀ s l s', I s → C s l → M.next s l = some s' → I s')
    (hW : ∀ s l s', I s → C s l → M.next s l = some s' → W s' →
      W s ∧ rank s' + (if p l then 1 else 0) ≤ rank s) :
    ∀ {ls : List ℓ} {s s' : σ}, I s → M.Along C ls s → M.run ls s = some s' → W s' →
      W s ∧ rank s' + ls.countP p ≤ rank s
  | [], _, _, _, _, hr, hw => by cases hr; exact ⟨hw, by simp⟩
  | l :: ls, s, s', hs, hC, hr, hw => by
    rw [run_cons] at hr
    obtain ⟨t, ht, hr⟩ := Option.bind_eq_some_iff.mp hr
    obtain ⟨hwt, hrest⟩ := Along.count_le hI hW (hI s l t hs hC.1 ht) (hC.2 t ht) hr hw
    obtain ⟨hws, hstep⟩ := hW s l t hs hC.1 ht hwt
    refine ⟨hws, ?_⟩
    rw [List.countP_cons]
    omega

/-! ## What a run emits -/

section

variable {α : Type*}

/-- What the steps of the run with the labels `ls` from `s` emit, where the step that
    `l` names emits `emit s l`. -/
def output (M : Machine σ ℓ) (emit : σ → ℓ → List α) : List ℓ → σ → List α
  | [], _ => []
  | l :: ls, s => emit s l ++ ((M.next s l).map (M.output emit ls)).getD []

/-- The induction rule: if the steps that meet `I` preserve the relation `R` between
    what has been emitted and the state, it holds at the end of the run. -/
theorem output_invariant {emit : σ → ℓ → List α} {R : List α → σ → Prop}
    (hstep : ∀ out s l s', R out s → M.next s l = some s' → R (out ++ emit s l) s') :
    ∀ {ls : List ℓ} {out : List α} {s s' : σ}, R out s → M.run ls s = some s' →
      R (out ++ M.output emit ls s) s'
  | [], out, _, _, hR, hr => by
    cases hr
    rwa [output, List.append_nil]
  | l :: ls, out, s, s', hR, hr => by
    rw [run_cons] at hr
    obtain ⟨t, ht, hr⟩ := Option.bind_eq_some_iff.mp hr
    have hrest := output_invariant hstep (hstep out s l t hR ht) hr
    rw [List.append_assoc] at hrest
    rw [output, ht]
    exact hrest

end

/-! ## Variants -/

/-- `rank` is a variant in the states with `I`, which no step leaves. -/
structure Variant (M : Machine σ ℓ) (I : σ → Prop) (gain : ℓ → ℕ) (rank : σ → ℕ) : Prop where
  keep : ∀ s l s', I s → M.next s l = some s' → I s'
  lower : ∀ s l s', I s → M.next s l = some s' → rank s' + 1 ≤ rank s + gain l

variable {I : σ → Prop} {gain : ℓ → ℕ} {rank : σ → ℕ}

/-- A run is bounded by the variant and the gains. -/
theorem Variant.length_le (h : M.Variant I gain rank) :
    ∀ {ls : List ℓ} {s s' : σ}, I s → M.run ls s = some s' →
      ls.length + rank s' ≤ rank s + (ls.map gain).sum
  | [], _, _, _, hr => by cases hr; simp
  | l :: ls, s, s', hI, hr => by
    rw [run_cons] at hr
    obtain ⟨t, ht, hr⟩ := Option.bind_eq_some_iff.mp hr
    have hlow := h.lower s l t hI ht
    have hrest := h.length_le (h.keep s l t hI ht) hr
    simp only [List.length_cons, List.map_cons, List.sum_cons]
    omega

/-- From every state with `I` the program runs to a state in which it has no step
    left. -/
theorem Variant.exists_final (h : M.Variant I gain rank) {s : σ} (hI : I s) :
    ∃ ls s', (∀ l ∈ ls, gain l = 0) ∧ M.run ls s = some s' ∧
      ∀ l, gain l = 0 → M.next s' l = none := by
  induction hn : rank s using Nat.strongRecOn generalizing s with
  | ind n ih =>
    by_cases hfin : ∀ l, gain l = 0 → M.next s l = none
    · exact ⟨[], s, by simp, rfl, hfin⟩
    · push Not at hfin
      obtain ⟨l, hl, hne⟩ := hfin
      obtain ⟨t, ht⟩ := Option.ne_none_iff_exists'.mp hne
      have hlow := h.lower s l t hI ht
      obtain ⟨ls, s', hls, hr, hend⟩ := ih (rank t) (by omega) (h.keep s l t hI ht) rfl
      refine ⟨l :: ls, s', ?_, ?_, hend⟩
      · rintro k (_ | ⟨_, hk⟩)
        · exact hl
        · exact hls k hk
      · rw [run_cons, ht]
        exact hr

end Machine

end AghOs
