import AghOs.Permissions.Request

/-!
# Permissions are given when they are due

Requests may be discarded, counted for pids that are not stored, or come at any
moment. Still (`permissions_due`) the parent sends its signal only to a child that
has requested it, after enough requests and once, and never to one that is marked
`TERMINATED`.
-/

namespace AghOs.Permissions

theorem Move.permissions {v v' : View} (hm : Move v v') :
    v'.permissions = v.permissions ∨ v.permitted ∧ v'.permissions = v.permissions + 1 := by
  cases hm with
  | permit hp _ => exact .inr ⟨hp, rfl⟩
  | _ => exact .inl rfl

theorem Stage.of_permitted {v : View} (h : Stage v) (hp : v.permitted) :
    v.requests = 1 ∧ v.permissions = 0 ∧ v.state = .running ∧ v.stored := by
  cases h with
  | permitted _ hr hn hs hst _ _ _ => exact ⟨hr, hn, hs, hst⟩
  | _ => exact absurd hp ‹_›

theorem Stage.terminated {v v' : View} (h : Stage v) (hm : Move v v')
    (ht : v.state = .terminated) : v'.state = .terminated ∧ v'.permissions = v.permissions := by
  cases h with
  | granted hc hr hp hs hpend htaken hperm => cases hm <;> grind
  | _ => grind

/-- When the parent sends `SIGUSR1`, it is to a child that has sent a request and
    has not been sent a permission, after the requests of `request_threshold`
    children. What is marked `TERMINATED` stays so and gets no permission. -/
theorem permissions_due {cfg : Config} {s s' : Group} {l : Label} (h : (machine cfg).Reach s)
    (hn : s.next cfg l = some s') :
    (∀ k, s.handler = .kill k → s.children k = some k) ∧
    (∀ i, s'.permissions i ≠ s.permissions i →
      0 < s.requests i ∧ cfg.requestThreshold ≤ (s.requesters cfg).card ∧
        s.permissions i = 0 ∧ s'.permissions i = 1 ∧ s.childrenStates i ≠ .terminated) ∧
    ∀ i, s.childrenStates i = .terminated →
      s'.childrenStates i = .terminated ∧ s'.permissions i = s.permissions i := by
  have hok := reach_ok h
  refine ⟨fun k hk => hok.stored_of_permits hk, fun i hi => ?_, fun i hi => ?_⟩
  · obtain heq | ⟨hp, hone⟩ := (hok.moves hn i).permissions
    · exact absurd heq hi
    · obtain ⟨hr, h0, hs, -⟩ := (hok.stage i).of_permitted hp
      have hdue := hok.due i (.inr hp)
      have hcounted := hok.counted
      change s.requests i = 1 at hr
      change s.permissions i = 0 at h0
      change s.childrenStates i = .running at hs
      change s'.permissions i = s.permissions i + 1 at hone
      refine ⟨by omega, by omega, h0, by omega, ?_⟩
      rw [hs]
      exact nofun
  · exact (hok.stage i).terminated (hok.moves hn i) hi

/-- One child: the step that sends the permission. -/
theorem permissions_due_one :
    ∃ s s' : Group, s.permissions 0 = 0 ∧ s'.permissions 0 = 1 ∧
      (∀ k, s.handler = .kill k → s.children k = some k) ∧
      (∀ i, s'.permissions i ≠ s.permissions i →
        0 < s.requests i ∧ (1 : ℤ) ≤ (s.requesters ⟨1, 1, Int.le_refl 1⟩).card ∧
          s.permissions i = 0 ∧ s'.permissions i = 1 ∧ s.childrenStates i ≠ .terminated) ∧
      ∀ i, s.childrenStates i = .terminated →
        s'.childrenStates i = .terminated ∧ s'.permissions i = s.permissions i := by
  let cfg : Config := ⟨1, 1, Int.le_refl 1⟩
  obtain ⟨s, hs, ha⟩ := Machine.Reach.of_run (M := machine cfg)
    [.main, .main, .child 0, .child 0, .handle, .handler, .handler, .handler, .handler]
    (fun s => (s.next cfg .handler).map fun s' => (s.permissions 0, s'.permissions 0))
    (some (0, 1)) rfl rfl
  obtain ⟨s', hn, hp⟩ := Option.map_eq_some_iff.mp ha
  exact ⟨s, s', congrArg Prod.fst hp, congrArg Prod.snd hp, permissions_due hs hn⟩

end AghOs.Permissions
