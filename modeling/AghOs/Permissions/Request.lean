import AghOs.Permissions.Group

/-!
# The life of a request

What a step of the group can do to one child and to what the parent knows of it.

* `View`: a child as the child itself, the parent's arrays, its handler and the
  pending signal have it.
* `main_cases`, `reap_cases` and so on: what each step of the group does.
* `Move`: what can happen to a view.
* `Stage`: the stages of a request; a move leads from a stage to a stage.
* `Ok`: the invariant of the group; `Ok.moves`: a step moves every view.
-/

namespace AghOs.Permissions

/-- A child and what the parent knows of it. -/
structure View where
  child : Child
  requests : ℕ
  permissions : ℕ
  state : ChldState
  /-- its pid is in `children` -/
  stored : Prop
  /-- its request is pending -/
  pending : Prop
  /-- the handler runs for its request and has not come to its entry -/
  taken : Prop
  /-- the handler is about to send its permission -/
  permitted : Prop

/-- The handler has yet to mark child `i`. -/
def HandlerPc.Takes (i : ℕ) : HandlerPc → Prop
  | .count c => c = i
  | .mark c k => c = i ∧ k ≤ i
  | _ => False

def HandlerPc.Permits (i : ℕ) (h : HandlerPc) : Prop := h = .kill i

def Group.view (s : Group) (i : ℕ) : View where
  child := s.child i
  requests := s.requests i
  permissions := s.permissions i
  state := s.childrenStates i
  stored := s.children i = some i
  pending := s.pending = some i
  taken := s.handler.Takes i
  permitted := s.handler.Permits i

/-- What can happen to a view. -/
inductive Move (v : View) : View → Prop
  | stay : Move v v
  | born : v.child = .unborn → Move v { v with child := .started }
  | store : Move v { v with stored := True }
  | signal : v.child = .started → Move v { v with child := .ready }
  /-- the request becomes pending -/
  | ask : v.child = .ready →
      Move v { v with child := .asked, requests := v.requests + 1, pending := True }
  /-- the request is discarded -/
  | discard : v.child = .ready →
      Move v { v with child := .asked, requests := v.requests + 1 }
  | take : v.pending → Move v { v with pending := False, taken := True }
  | mark : v.taken → v.stored → Move v { v with taken := False, state := .requested }
  /-- the handler does not find the pid -/
  | miss : v.taken → ¬v.stored → Move v { v with taken := False }
  | grant : v.state = .requested → Move v { v with state := .running, permitted := True }
  | permit : v.permitted → v.stored →
      Move v { v with permitted := False, permissions := v.permissions + 1 }
  | exit : v.child = .ready ∨ v.child = .asked → 0 < v.permissions →
      Move v { v with child := .exited }
  | reap : v.child = .exited → Move v { v with child := .reaped }
  | terminate : v.child = .reaped → Move v { v with state := .terminated }

/-- The stages of a request. -/
inductive Stage (v : View) : Prop
  /-- not sent -/
  | early : v.child = .unborn ∨ v.child = .started ∨ v.child = .ready →
      v.requests = 0 → v.permissions = 0 → v.state = .running →
      ¬v.pending → ¬v.taken → ¬v.permitted → Stage v
  | pending : v.child = .asked → v.requests = 1 → v.permissions = 0 → v.state = .running →
      v.pending → ¬v.taken → ¬v.permitted → Stage v
  | taken : v.child = .asked → v.requests = 1 → v.permissions = 0 → v.state = .running →
      ¬v.pending → v.taken → ¬v.permitted → Stage v
  /-- discarded, or counted for a pid that was not stored -/
  | lost : v.child = .asked → v.requests = 1 → v.permissions = 0 → v.state = .running →
      ¬v.pending → ¬v.taken → ¬v.permitted → Stage v
  | marked : v.child = .asked → v.requests = 1 → v.permissions = 0 → v.state = .requested →
      v.stored → ¬v.pending → ¬v.taken → ¬v.permitted → Stage v
  | permitted : v.child = .asked → v.requests = 1 → v.permissions = 0 → v.state = .running →
      v.stored → ¬v.pending → ¬v.taken → v.permitted → Stage v
  | granted : v.child = .asked ∨ v.child = .exited ∨ v.child = .reaped → v.requests = 1 →
      v.permissions = 1 → v.state = .running ∨ v.state = .terminated ∧ v.child = .reaped →
      ¬v.pending → ¬v.taken → ¬v.permitted → Stage v

theorem Stage.move {v v' : View} (h : Stage v) (hm : Move v v') : Stage v' := by
  cases hm with
  | stay => exact h
  | _ => cases h <;> grind [Stage]

/-! ## The group -/

/-- The children that have sent a request. -/
def Group.requesters (cfg : Config) (s : Group) : Finset ℕ :=
  (Finset.range cfg.childrenCount).filter fun i => 0 < s.requests i

/-- The requests that are pending or about to be counted. -/
def Group.underWay (s : Group) : ℕ :=
  (if s.pending = none then 0 else 1) + (match s.handler with | .count _ => 1 | _ => 0)

/-- The invariant. -/
structure Ok (cfg : Config) (s : Group) : Prop where
  stage : ∀ i, Stage (s.view i)
  own : ∀ i j, s.children i = some j → j = i
  inside : ∀ i, s.child i ≠ .unborn → i < cfg.childrenCount
  fork : ∀ k, s.main = .fork k → ∀ i, k ≤ i → s.child i = .unborn
  store : ∀ k, s.main = .store k → ∀ i, k < i → s.child i = .unborn
  mark : ∀ c k, s.main = .mark c k → s.child c = .reaped
  counted : s.requestCount + s.underWay ≤ (s.requesters cfg).card
  due : ∀ i, s.handler = .grant i ∨ s.handler = .kill i → cfg.requestThreshold ≤ s.requestCount

section

variable {cfg : Config} {s s' : Group}

/-! ### What a step does -/

theorem main_cases (hn : s.next cfg .main = some s') : s.mainStep cfg = some s' := by
  simp only [Group.next] at hn
  split at hn
  · exact hn
  · cases hn

theorem reap_cases {c : ℕ} (hn : s.next cfg (.reap c) = some s') :
    s.child c = .exited ∧
      s' = { s with main := .mark c 0, child := Function.update s.child c .reaped } := by
  simp only [Group.next] at hn
  split at hn
  · rename_i hc
    exact ⟨hc.2.2, (Option.some.inj hn).symm⟩
  · cases hn

theorem noChild_cases (hn : s.next cfg .noChild = some s') : s' = { s with main := .exited } := by
  simp only [Group.next] at hn
  split at hn
  · exact (Option.some.inj hn).symm
  · cases hn

theorem handle_cases (hn : s.next cfg .handle = some s') :
    s.handler = .idle ∧
      ∃ c, s.pending = some c ∧ s' = { s with handler := .count c, pending := none } := by
  simp only [Group.next] at hn
  split at hn
  · rename_i hidle
    obtain ⟨c, hp, hs⟩ := Option.map_eq_some_iff.mp hn
    exact ⟨hidle.1, c, hp, hs.symm⟩
  · cases hn

theorem child_cases {i : ℕ} (hn : s.next cfg (.child i) = some s') :
    s.child i = .started ∧ s' = { s with child := Function.update s.child i .ready } ∨
    s.child i = .ready ∧ s' = { s with
      child := Function.update s.child i .asked
      requests := Function.update s.requests i (s.requests i + 1)
      pending := some (s.pending.getD i) } := by
  simp only [Group.next] at hn
  unfold Group.childStep at hn
  split at hn
  case h_1 hi => exact .inl ⟨hi, (Option.some.inj hn).symm⟩
  case h_2 hi => exact .inr ⟨hi, (Option.some.inj hn).symm⟩
  case h_3 => cases hn

theorem permission_cases {i : ℕ} (hn : s.next cfg (.permission i) = some s') :
    (s.child i = .ready ∨ s.child i = .asked) ∧ 0 < s.permissions i ∧
      s' = { s with child := Function.update s.child i .exited } := by
  simp only [Group.next] at hn
  split at hn
  · rename_i hi
    exact ⟨hi.1, hi.2, (Option.some.inj hn).symm⟩
  · cases hn

/-! ### What it does to a child -/

/-- The loops that mark an entry for a pid change that child's entry only. -/
theorem Ok.mark_other (h : Ok cfg s) {c k i : ℕ} (hne : ¬(c = i ∧ k = i)) (x : ChldState) :
    (if s.children k = some c then Function.update s.childrenStates k x
      else s.childrenStates) i = s.childrenStates i := by
  split
  · have hck : c = k := h.own k c ‹_›
    exact Function.update_of_ne (fun hik => hne ⟨hck.trans hik.symm, hik.symm⟩) _ _
  · rfl

theorem Ok.mainStep_moves (h : Ok cfg s) (hn : s.mainStep cfg = some s') (i : ℕ) :
    Move (s.view i) (s'.view i) := by
  unfold Group.mainStep at hn
  split at hn
  case h_1 k hk =>
    split at hn <;> obtain rfl := Option.some.inj hn
    · by_cases hik : i = k
      · subst hik
        simpa [Group.view] using Move.born (v := s.view i) (h.fork i hk i (Nat.le_refl i))
      · simpa [Group.view, hik] using Move.stay (v := s.view i)
    · exact .stay
  case h_2 k hk =>
    obtain rfl := Option.some.inj hn
    by_cases hik : i = k
    · subst hik
      simpa [Group.view] using Move.store (v := s.view i)
    · simpa [Group.view, hik] using Move.stay (v := s.view i)
  case h_3 c k hk =>
    split at hn <;> obtain rfl := Option.some.inj hn
    · by_cases hik : c = i ∧ k = i
      · obtain ⟨rfl, rfl⟩ := hik
        by_cases hc : s.children k = some k
        · simpa [Group.view, hc] using Move.terminate (v := s.view k) (h.mark k k hk)
        · simpa [Group.view, hc] using Move.stay (v := s.view k)
      · simpa [Group.view, h.mark_other hik] using Move.stay (v := s.view i)
    · exact .stay
  case h_4 k hk =>
    split at hn <;> obtain rfl := Option.some.inj hn <;> exact .stay
  all_goals cases hn

/-- The handler has been through all entries: it has come to the one of its sender. -/
theorem Ok.not_takes (h : Ok cfg s) {c k : ℕ} (hk : s.handler = .mark c k)
    (hle : cfg.childrenCount ≤ k) (i : ℕ) : ¬s.handler.Takes i := by
  rw [hk]
  rintro ⟨rfl, hki⟩
  have hborn : s.child c ≠ .unborn := by
    intro hc
    have htaken : (s.view c).taken := by
      show s.handler.Takes c
      rw [hk]
      exact ⟨rfl, hki⟩
    have hchild : (s.view c).child = .unborn := hc
    cases h.stage c <;> grind
  have := h.inside c hborn
  omega

theorem Ok.stored_of_permits (h : Ok cfg s) {k : ℕ} (hk : s.handler = .kill k) :
    s.children k = some k := by
  have hp : (s.view k).permitted := hk
  cases h.stage k with
  | permitted _ _ _ _ hstored => exact hstored
  | _ => exact absurd hp ‹_›

theorem Ok.handlerStep_moves (h : Ok cfg s) (hn : s.handlerStep cfg = some s') (i : ℕ) :
    Move (s.view i) (s'.view i) := by
  unfold Group.handlerStep at hn
  split at hn
  case h_1 => cases hn
  case h_2 c hc =>
    obtain rfl := Option.some.inj hn
    simpa [Group.view, HandlerPc.Takes, HandlerPc.Permits, hc] using Move.stay (v := s.view i)
  case h_3 c k hk =>
    split at hn <;> obtain rfl := Option.some.inj hn
    · by_cases hik : c = i ∧ k = i
      · obtain ⟨rfl, rfl⟩ := hik
        have htaken : (s.view k).taken := by
          show s.handler.Takes k
          rw [hk]
          exact ⟨rfl, Nat.le_refl k⟩
        have hsucc : ¬k + 1 ≤ k := Nat.not_succ_le_self k
        by_cases hc : s.children k = some k
        · simpa [Group.view, HandlerPc.Takes, HandlerPc.Permits, hc, hk, hsucc] using
            Move.mark htaken hc
        · simpa [Group.view, HandlerPc.Takes, HandlerPc.Permits, hc, hk, hsucc] using
            Move.miss htaken hc
      · have htakes : (c = i ∧ k + 1 ≤ i) = (c = i ∧ k ≤ i) := propext (by omega)
        simpa only [Group.view, HandlerPc.Takes, HandlerPc.Permits, htakes, h.mark_other hik, hk,
          reduceCtorEq] using Move.stay (v := s.view i)
    · have htakes := h.not_takes hk (Nat.le_of_not_lt ‹_›) i
      rw [hk] at htakes
      have hnone : (c = i ∧ k ≤ i) = False := eq_false htakes
      split <;>
        simpa [Group.view, HandlerPc.Takes, HandlerPc.Permits, hnone, hk] using
          Move.stay (v := s.view i)
  case h_4 k hk =>
    split at hn
    · split at hn <;> obtain rfl := Option.some.inj hn
      · by_cases hik : i = k
        · subst hik
          simpa [Group.view, HandlerPc.Takes, HandlerPc.Permits, hk] using
            Move.grant (v := s.view i) ‹_›
        · simpa [Group.view, HandlerPc.Takes, HandlerPc.Permits, hk, hik, Ne.symm hik] using
            Move.stay (v := s.view i)
      · simpa [Group.view, HandlerPc.Takes, HandlerPc.Permits, hk] using Move.stay (v := s.view i)
    · obtain rfl := Option.some.inj hn
      simpa [Group.view, HandlerPc.Takes, HandlerPc.Permits, hk] using Move.stay (v := s.view i)
  case h_5 k hk =>
    obtain rfl := Option.some.inj hn
    have hstored := h.stored_of_permits hk
    by_cases hik : i = k
    · subst hik
      have hp : (s.view i).permitted := hk
      simpa [Group.view, Group.permit, HandlerPc.Takes, HandlerPc.Permits, hk, hstored] using
        Move.permit hp hstored
    · simpa [Group.view, Group.permit, HandlerPc.Takes, HandlerPc.Permits, hk, hstored, hik,
        Ne.symm hik] using Move.stay (v := s.view i)

theorem child_moves {j : ℕ} (hn : s.next cfg (.child j) = some s') (i : ℕ) :
    Move (s.view i) (s'.view i) := by
  obtain ⟨hj, rfl⟩ | ⟨hj, rfl⟩ := child_cases hn
  · by_cases hij : i = j
    · subst hij
      simpa [Group.view] using Move.signal (v := s.view i) hj
    · simpa [Group.view, hij] using Move.stay (v := s.view i)
  · cases hp : s.pending with
    | none =>
      by_cases hij : i = j
      · subst hij
        simpa [Group.view, hp] using Move.ask (v := s.view i) hj
      · simpa [Group.view, hp, hij, Ne.symm hij] using Move.stay (v := s.view i)
    | some c =>
      by_cases hij : i = j
      · subst hij
        simpa [Group.view, hp] using Move.discard (v := s.view i) hj
      · simpa [Group.view, hp, hij] using Move.stay (v := s.view i)

/-- What a step of the group does to a child is a move. -/
theorem Ok.moves (h : Ok cfg s) {l : Label} (hn : s.next cfg l = some s') (i : ℕ) :
    Move (s.view i) (s'.view i) := by
  cases l with
  | main => exact h.mainStep_moves (main_cases hn) i
  | reap c =>
    obtain ⟨hc, rfl⟩ := reap_cases hn
    by_cases hic : i = c
    · subst hic
      simpa [Group.view] using Move.reap (v := s.view i) hc
    · simpa [Group.view, hic] using Move.stay (v := s.view i)
  | noChild =>
    obtain rfl := noChild_cases hn
    exact .stay
  | handle =>
    obtain ⟨hidle, c, hp, rfl⟩ := handle_cases hn
    by_cases hic : c = i
    · subst hic
      simpa [Group.view, HandlerPc.Takes, HandlerPc.Permits, hidle] using
        Move.take (v := s.view c) hp
    · simpa [Group.view, HandlerPc.Takes, HandlerPc.Permits, hidle, hp, hic] using
        Move.stay (v := s.view i)
  | handler => exact h.handlerStep_moves hn i
  | child j => exact child_moves hn i
  | permission j =>
    obtain ⟨hj, hp, rfl⟩ := permission_cases hn
    by_cases hij : i = j
    · subst hij
      simpa [Group.view] using Move.exit (v := s.view i) hj hp
    · simpa [Group.view, hij] using Move.stay (v := s.view i)

/-! ## The invariant -/

theorem Ok.stage_next (h : Ok cfg s) {l : Label} (hn : s.next cfg l = some s') (i : ℕ) :
    Stage (s'.view i) :=
  (h.stage i).move (h.moves hn i)

theorem Ok.main (h : Ok cfg s) (hn : s.next cfg .main = some s') : Ok cfg s' := by
  have hstage := h.stage_next hn
  replace hn := main_cases hn
  unfold Group.mainStep at hn
  split at hn
  case h_1 k hk =>
    split at hn <;> obtain rfl := Option.some.inj hn
    · rename_i hlt
      refine ⟨hstage, h.own, fun i hi => ?_, nofun, fun j hj i hi => ?_, nofun, h.counted, h.due⟩
      · by_cases hik : i = k
        · exact hik ▸ hlt
        · exact h.inside i (by simpa [hik] using hi)
      · obtain rfl := MainPc.store.inj hj
        have hik : i ≠ k := Nat.ne_of_gt hi
        simpa [hik] using h.fork k hk i (Nat.le_of_lt hi)
    · exact ⟨hstage, h.own, h.inside, nofun, nofun, nofun, h.counted, h.due⟩
  case h_2 k hk =>
    obtain rfl := Option.some.inj hn
    refine ⟨hstage, fun i j hj => ?_, h.inside, fun j hj i hi => ?_, nofun, nofun, h.counted, h.due⟩
    · change Function.update s.children k (some k) i = some j at hj
      by_cases hik : i = k
      · subst hik
        rw [Function.update_self] at hj
        exact (Option.some.inj hj).symm
      · rw [Function.update_of_ne hik] at hj
        exact h.own i j hj
    · obtain rfl := MainPc.fork.inj hj
      exact h.store k hk i hi
  case h_3 c k hk =>
    split at hn <;> obtain rfl := Option.some.inj hn
    · refine ⟨hstage, h.own, h.inside, nofun, nofun, fun c' k' hc => ?_, h.counted, h.due⟩
      obtain ⟨rfl, -⟩ := MainPc.mark.inj hc
      exact h.mark c k hk
    · exact ⟨hstage, h.own, h.inside, nofun, nofun, nofun, h.counted, h.due⟩
  case h_4 k hk =>
    split at hn <;> obtain rfl := Option.some.inj hn
    · refine ⟨hstage, h.own, h.inside, fun i hi => ?_, fun i hi => ?_, fun c i hi => ?_, h.counted,
        h.due⟩
      all_goals
        change (if _ then MainPc.check _ else MainPc.wait) = _ at hi
        split at hi <;> cases hi
    · exact ⟨hstage, h.own, h.inside, nofun, nofun, nofun, h.counted, h.due⟩
  all_goals cases hn

theorem Ok.handler (h : Ok cfg s) (hn : s.next cfg .handler = some s') : Ok cfg s' := by
  have hstage := h.stage_next hn
  have hcounted := h.counted
  simp only [Group.next] at hn
  unfold Group.handlerStep at hn
  split at hn
  case h_1 => cases hn
  case h_2 c hc =>
    obtain rfl := Option.some.inj hn
    refine ⟨hstage, h.own, h.inside, h.fork, h.store, h.mark, ?_, nofun⟩
    simp only [Group.underWay, hc, Group.requesters] at hcounted ⊢
    omega
  case h_3 c k hk =>
    split at hn <;> obtain rfl := Option.some.inj hn
    · refine ⟨hstage, h.own, h.inside, h.fork, h.store, h.mark, ?_, nofun⟩
      simpa only [Group.underWay, hk, Group.requesters] using hcounted
    · by_cases hdue : s.requestCount < cfg.requestThreshold
      · simp only [hdue, if_true] at hstage ⊢
        refine ⟨hstage, h.own, h.inside, h.fork, h.store, h.mark, ?_, nofun⟩
        simpa only [Group.underWay, hk, Group.requesters] using hcounted
      · simp only [hdue, if_false] at hstage ⊢
        refine ⟨hstage, h.own, h.inside, h.fork, h.store, h.mark, ?_,
          fun _ _ => Int.not_lt.mp hdue⟩
        simpa only [Group.underWay, hk, Group.requesters] using hcounted
  case h_4 k hk =>
    have hdue := h.due k (.inl hk)
    split at hn
    · split at hn <;> obtain rfl := Option.some.inj hn
      all_goals
        refine ⟨hstage, h.own, h.inside, h.fork, h.store, h.mark, ?_, fun _ _ => hdue⟩
        simpa only [Group.underWay, hk, Group.requesters] using hcounted
    · obtain rfl := Option.some.inj hn
      refine ⟨hstage, h.own, h.inside, h.fork, h.store, h.mark, ?_, nofun⟩
      simpa only [Group.underWay, hk, Group.requesters] using hcounted
  case h_5 k hk =>
    have hdue := h.due k (.inr hk)
    obtain rfl := Option.some.inj hn
    refine ⟨hstage, h.own, h.inside, h.fork, h.store, h.mark, ?_, fun _ _ => hdue⟩
    simpa only [Group.underWay, hk, Group.requesters] using hcounted

/-- A new child counts among those that have sent a request. -/
theorem card_requesters_update {i : ℕ} (hi : i < cfg.childrenCount) (h0 : s.requests i = 0)
    (hr : s'.requests = Function.update s.requests i (s.requests i + 1)) :
    (s'.requesters cfg).card = (s.requesters cfg).card + 1 := by
  have hinsert : s'.requesters cfg = insert i (s.requesters cfg) := by
    ext j
    by_cases hji : j = i
    · simp [Group.requesters, hr, hji, hi]
    · simp [Group.requesters, hr, hji]
  rw [hinsert, Finset.card_insert_of_notMem]
  simp [Group.requesters, h0]

theorem unborn_update {child : ℕ → Child} {i : ℕ} {c : Child} (hi : child i ≠ .unborn)
    (hc : c ≠ .unborn) (j : ℕ) : Function.update child i c j = .unborn ↔ child j = .unborn := by
  by_cases hji : j = i
  · simp [hji, hi, hc]
  · simp [hji]

/-- A child that has been forked goes on. -/
theorem Ok.update_child (h : Ok cfg s) {i : ℕ} {c : Child} (hi : s.child i ≠ .unborn)
    (hr : s.child i ≠ .reaped) (hc : c ≠ .unborn) (hchild : s'.child = Function.update s.child i c)
    (hchildren : s'.children = s.children) (hmain : s'.main = s.main)
    (hhandler : s'.handler = s.handler) (hcount : s'.requestCount = s.requestCount)
    (hstage : ∀ j, Stage (s'.view j))
    (hcounted : s'.requestCount + s'.underWay ≤ (s'.requesters cfg).card) : Ok cfg s' := by
  refine ⟨hstage, fun j k hj => h.own j k (hchildren ▸ hj), fun j hj => h.inside j fun hu => hj ?_,
    fun k hk j hj => ?_, fun k hk j hj => ?_, fun d k hd => ?_, hcounted, fun j hj => ?_⟩
  · rw [hchild]
    exact (unborn_update hi hc j).mpr hu
  · rw [hchild]
    exact (unborn_update hi hc j).mpr (h.fork k (hmain ▸ hk) j hj)
  · rw [hchild]
    exact (unborn_update hi hc j).mpr (h.store k (hmain ▸ hk) j hj)
  · have hd' := h.mark d k (hmain ▸ hd)
    have hdi : d ≠ i := by
      rintro rfl
      exact hr hd'
    rw [hchild, Function.update_of_ne hdi, hd']
  · rw [hcount]
    exact h.due j (hhandler ▸ hj)

theorem Ok.requests_eq_zero (h : Ok cfg s) {i : ℕ} (hi : s.child i = .ready) :
    s.requests i = 0 := by
  have hready : (s.view i).child = .ready := hi
  cases h.stage i with
  | early _ hr => exact hr
  | _ => grind

theorem Ok.child (h : Ok cfg s) {i : ℕ} (hn : s.next cfg (.child i) = some s') : Ok cfg s' := by
  have hstage := h.stage_next hn
  have hcounted := h.counted
  obtain ⟨hi, rfl⟩ | ⟨hi, rfl⟩ := child_cases hn
  · have hne : s.child i ≠ .unborn ∧ s.child i ≠ .reaped := by simp [hi]
    exact h.update_child hne.1 hne.2 (by simp) rfl rfl rfl rfl rfl hstage hcounted
  · have h0 := h.requests_eq_zero hi
    have hne : s.child i ≠ .unborn ∧ s.child i ≠ .reaped := by simp [hi]
    refine h.update_child hne.1 hne.2 (by simp) rfl rfl rfl rfl rfl hstage ?_
    rw [card_requesters_update (s := s) (h.inside i hne.1) h0 rfl]
    unfold Group.underWay at hcounted ⊢
    simp only [reduceCtorEq, if_false]
    split at hcounted <;> omega

theorem Ok.next (h : Ok cfg s) {l : Label} (hn : s.next cfg l = some s') : Ok cfg s' := by
  have hstage := h.stage_next hn
  have hcounted := h.counted
  cases l with
  | main => exact h.main hn
  | handler => exact h.handler hn
  | child i => exact h.child hn
  | reap c =>
    obtain ⟨hc, rfl⟩ := reap_cases hn
    have hne : s.child c ≠ .unborn := by simp [hc]
    refine ⟨hstage, h.own, fun j hj => ?_, nofun, nofun, fun d k hd => ?_, h.counted, h.due⟩
    · exact h.inside j fun hu => hj ((unborn_update hne (c := .reaped) (by simp) j).mpr hu)
    · obtain ⟨rfl, -⟩ := MainPc.mark.inj hd
      exact Function.update_self ..
  | noChild =>
    obtain rfl := noChild_cases hn
    exact ⟨hstage, h.own, h.inside, nofun, nofun, nofun, h.counted, h.due⟩
  | handle =>
    obtain ⟨hidle, c, hp, rfl⟩ := handle_cases hn
    refine ⟨hstage, h.own, h.inside, h.fork, h.store, h.mark, ?_, nofun⟩
    simpa [Group.underWay, hidle, hp, Group.requesters] using hcounted
  | permission i =>
    obtain ⟨hi, -, rfl⟩ := permission_cases hn
    have hne : s.child i ≠ .unborn ∧ s.child i ≠ .reaped := by
      obtain hi | hi := hi <;> simp [hi]
    exact h.update_child hne.1 hne.2 (by simp) rfl rfl rfl rfl rfl hstage hcounted

theorem Ok.initial : Ok cfg Group.initial :=
  ⟨fun _ => .early (.inl rfl) rfl rfl rfl nofun nofun nofun, nofun, fun _ h => absurd rfl h,
    fun _ _ _ _ => rfl, nofun, nofun, Nat.zero_le _, nofun⟩

theorem reach_ok (h : (machine cfg).Reach s) : Ok cfg s :=
  h.invariant (fun _ hs => hs ▸ Ok.initial) fun _ _ _ hI _ hn => hI.next hn

end

end AghOs.Permissions
