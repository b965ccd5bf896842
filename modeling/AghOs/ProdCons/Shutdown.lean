import AghOs.ProdCons.SemInv
import AghOs.ProdCons.MonitorInv

/-!
# Shutting down

With `cl->time_limit == 0`, `run` joins the producers, cancels the consumers and
joins them. A consumer that has been woken for a line acts on the cancellation
all the same: the last consumer can end while there are lines in the buffer.

* `line_left`: it happens, in both builds.
* `drained_of_unwoken`: when every consumer that acts on its cancellation waits and
  has not been woken, the buffer is empty when `run` returns and every line has been
  popped once. (The pushes are in range, as they are with up to `2 ^ 30` places.)
-/

namespace AghOs.ProdCons

variable {p c size : ℕ} {file : Fin p → Option (List UInt8)}

/-- The buffer is empty, and the lines popped are the lines pushed. -/
def Pipe.Drained {π : Type*} (p : Pipe π) : Prop :=
  p.buffer.bufferLength = 0 ∧ p.popped = p.pushed.map some

theorem Pipe.Ok.drained {π : Type*} [DecidableEq π] {input : π → List UInt8} {p : Pipe π}
    {toPush : π → List Text} (h : p.Ok size input toPush) (h0 : p.buffer.bufferLength = 0) :
    p.Drained := by
  refine ⟨h0, ?_⟩
  have hc : p.buffer.content = [] := List.length_eq_zero_iff.mp (by rw [length_content, h0])
  have ho := h.order
  rwa [Pipe.Ordered, hc, List.append_nil] at ho

/-! ## The semaphore build -/

namespace Sem

/-- A consumer that acts on its cancellation is in `sem_wait`, with `consumer_line` at
    `0`. -/
def CancelsUnwoken (s : State p c) : Label p c → Prop
  | .cancel j => (s.consumer j).pc = .waitLine ∧ s.mem.consumerLine = 0
  | _ => True

instance (s : State p c) : (l : Label p c) → Decidable (CancelsUnwoken s l)
  | .cancel j =>
    match h : (s.consumer j).pc with
    | .waitLine => decidable_of_iff (s.mem.consumerLine = 0) (by simp [CancelsUnwoken, h])
    | .start | .lock | .testEmpty | .unlockEmpty | .pop | .postLine _ | .unlock _ | .use _
    | .ended => .isFalse fun hw => by simp [CancelsUnwoken, h] at hw
  | .producer _ | .consumer _ | .main => .isTrue trivial

/-- There is a line in the buffer, and every consumer has ended. -/
def State.Lost (s : State p c) : Prop :=
  0 < s.mem.pipe.buffer.bufferLength ∧ ∀ j, (s.consumer j).ended = true

/-- As long as consumers are cancelled unwoken, a line in the buffer has a consumer. -/
theorem reach_not_lost (hc : 1 ≤ c) {s : State p c}
    (h : (program size file).ReachIf CancelsUnwoken s) : ¬s.Lost := by
  refine Machine.ReachIf.invariant_of h (I := fun s : State p c => ¬s.Lost)
    (J := fun s : State p c => s.Inv size file ∧ s.RunOk)
    (fun s hr => ⟨reach_inv hr, reach_runOk hr⟩) (fun s h0 => ?_) fun s l s' hJ _ hI hok hn => ?_
  · cases h0
    exact fun hl => absurd hl.1 (Nat.not_lt_zero _)
  · obtain ⟨hinv, hrun⟩ := hJ
    rintro ⟨hpos, hall⟩
    obtain ⟨i, m', q', hst, rfl⟩ | ⟨j, m', q', hst, rfl⟩ | ⟨j, rfl, hj, hjc, rfl⟩ |
      ⟨main, hst, rfl⟩ | ⟨main, j, hst, rfl⟩ := program_next_cases hn
    · -- a producer runs, so no consumer has been cancelled
      have hi := producerStep_not_ended hst
      have hcan := hrun.cancelled ⟨0, hc⟩ (hrun.ended _ (hall ⟨0, hc⟩)) i
      rw [hi] at hcan
      cases hcan
    · have hj := hall j
      simp [(consumerStep_not_ended hst).2.1] at hj
    · have hother : ∀ k, k ≠ j → (s.consumer k).ended = true := fun k hkj => by
        simpa [Function.update_of_ne hkj] using hall k
      obtain ⟨hw, h0⟩ := hok
      -- nobody is left who could have taken the tokens
      have hsup := hinv.supply
      have h1 : weigh Consumer.comes s.consumer = 0 := weigh_eq_zero_iff.mpr fun k => by
        by_cases hkj : k = j
        · subst hkj; simp [Consumer.comes, hw]
        · have hk := hother k hkj
          cases hpc : (s.consumer k).pc <;> simp_all [Consumer.ended, Consumer.comes]
      have h2 : weigh Producer.posting s.producer = 0 := weigh_eq_zero_iff.mpr fun i => by
        have hi := hrun.cancelled j hj i
        cases hpc : (s.producer i).pc <;> simp_all [Producer.ended, Producer.posting]
      simp only at hpos
      omega
    · exact hI ⟨hpos, hall⟩
    · exact hI ⟨hpos, fun k => (s.cancel_ended j k).symm.trans (hall k)⟩

/-- When `run` has returned, all consumers have ended. -/
theorem drained_when_returned (hc : 1 ≤ c) {s : State p c}
    (h : (program size file).ReachIf (fun s l => CancelsUnwoken s l ∧ PushesInRange s l) s)
    (hret : s.main = .returned) : s.mem.pipe.Drained := by
  refine (reach_ok (fun _ _ => And.right) h).drained ?_
  by_contra hne
  have hmain := (reach_runOk h).main
  rw [hret] at hmain
  exact reach_not_lost hc (h.mono fun _ _ => And.left) ⟨Nat.pos_of_ne_zero hne, hmain.2⟩

end Sem

/-! ## The monitor build -/

namespace Monitor

/-- A consumer that acts on its cancellation is in `pthread_cond_wait`, and has not been
    woken. -/
def CancelsUnwoken (s : State p c) : Label p c → Prop
  | .cancel j _ => (s.consumer j).waiting = true
  | _ => True

/-- There is a line in the buffer, and every consumer has ended. -/
def State.Lost (s : State p c) : Prop :=
  0 < s.pipe.buffer.bufferLength ∧ ∀ j, (s.consumer j).ended = true

/-- A signal ends nobody. -/
theorem signalConsumer_ended {s s' : State p c} {wake : Option (Fin c)}
    (h : s.signalConsumer wake = some s') (j : Fin c) :
    (s'.consumer j).ended = (s.consumer j).ended := by
  cases wake with
  | none => simp only [State.signalConsumer] at h; split at h <;> cases h; rfl
  | some k =>
    simp only [State.signalConsumer] at h
    split at h <;> cases h
    exact State.setConsumer_ended (Consumer.wake_ended (s.consumer k)).1 j

theorem producerStep_ended {s s' : State p c} {i : Fin p} {wake : Option (Fin c)}
    (h : producerStep (file i) i wake s = some s') :
    (s.producer i).ended = false ∧ ∀ j, (s'.consumer j).ended = (s.consumer j).ended := by
  constructor
  · cases hq : s.producer i with
    | mk pc rest => cases pc <;> first | rfl | simp [producerStep, hq] at h
  · obtain ⟨q, rfl, -⟩ | ⟨line, -, ⟨-, rfl⟩ | ⟨-, h⟩⟩ := producerStep_cases h
    · exact fun _ => rfl
    · exact fun _ => rfl
    · exact fun j => signalConsumer_ended h j

theorem consumerStep_ended {s s' : State p c} {j : Fin c} {wake : Option (Fin p)}
    (h : consumerStep j wake s = some s') :
    (s.consumer j).ended = false ∧ (s'.consumer j).ended = false := by
  constructor
  · cases hq : s.consumer j with
    | mk pc cancelled => cases pc <;> first | rfl | simp [consumerStep, hq] at h
  · obtain ⟨q, rfl, -, -, -, -, hq, -⟩ | ⟨-, rfl⟩ | ⟨-, h⟩ := consumerStep_cases h
    · simpa [State.setConsumer] using hq
    · simp [State.setConsumer, Consumer.ended]
    · rw [(signalProducer_spec h).2.1]
      simp [State.setConsumer, Consumer.ended]

/-- A consumer that acts on its cancellation was running, and ends. -/
theorem cancelStep_ended {s s' : State p c} {j : Fin c} {wake : Option (Fin c)}
    (h : cancelStep j wake s = some s') :
    s'.pipe = s.pipe ∧ (s.consumer j).cancelled = true ∧ (s.consumer j).ended = false ∧
      (s'.consumer j).ended = true ∧ ∀ k, k ≠ j → (s'.consumer k).ended = (s.consumer k).ended := by
  have hset : ∀ k, k ≠ j → ((s.setConsumer j { s.consumer j with pc := .ended }).consumer k) =
      s.consumer k := fun k hkj => Function.update_of_ne hkj _ _
  simp only [cancelStep] at h
  split at h
  · rename_i hcan
    split at h
    · cases h
      exact ⟨rfl, hcan, by simp_all [Consumer.ended], by simp [State.setConsumer, Consumer.ended],
        fun k hkj => by rw [hset k hkj]⟩
    · cases h
      exact ⟨rfl, hcan, by simp_all [Consumer.ended], by simp [State.setConsumer, Consumer.ended],
        fun k hkj => by rw [hset k hkj]⟩
    · refine ⟨(signalConsumer_spec h).1, hcan, by simp_all [Consumer.ended], ?_, fun k hkj => ?_⟩
      · rw [signalConsumer_ended h]
        simp [State.setConsumer, Consumer.ended]
      · rw [signalConsumer_ended h, hset k hkj]
    · cases h
  · cases h

/-- A step of `run` ends nobody. -/
theorem main_ended {s s' : State p c} (h : (program size file).next s .main = some s') :
    s'.pipe = s.pipe ∧ ∀ k, (s'.consumer k).ended = (s.consumer k).ended := by
  simp only [program] at h
  split at h <;> cases h
  · exact ⟨rfl, fun _ => rfl⟩
  · rename_i j _
    exact ⟨rfl, State.setConsumer_ended (q := { s.consumer j with cancelled := true }) rfl⟩

/-- As long as consumers are cancelled unwoken, a line in the buffer has a consumer. -/
theorem reach_not_lost (hc : 1 ≤ c) {s : State p c}
    (h : (program size file).ReachIf CancelsUnwoken s) : ¬s.Lost := by
  refine Machine.ReachIf.invariant_of h (I := fun s : State p c => ¬s.Lost)
    (J := fun s : State p c => s.Inv size file ∧ s.RunOk)
    (fun s hr => ⟨reach_inv hr, reach_runOk hr⟩) (fun s h0 => ?_) fun s l s' hJ _ hI hok hn => ?_
  · cases h0
    exact fun hl => absurd hl.1 (Nat.not_lt_zero _)
  · obtain ⟨hinv, hrun⟩ := hJ
    rintro ⟨hpos, hall⟩
    cases l with
    | producer i wake =>
      -- a producer runs, so no consumer has been cancelled
      obtain ⟨hi, hsame⟩ := producerStep_ended hn
      have h0 := (hsame ⟨0, hc⟩).symm.trans (hall ⟨0, hc⟩)
      rw [hrun.cancelled _ (hrun.ended _ h0) i] at hi
      cases hi
    | consumer j wake =>
      have hj := (consumerStep_ended hn).2
      rw [hall j] at hj
      cases hj
    | spuriousProducer i =>
      simp only [program] at hn
      split at hn <;> cases hn
      exact hI ⟨hpos, hall⟩
    | spuriousConsumer j =>
      simp only [program] at hn
      split at hn <;> cases hn
      have hsame := State.setConsumer_ended (Consumer.wake_ended (s.consumer j)).1
      exact hI ⟨hpos, fun k => (hsame k).symm.trans (hall k)⟩
    | cancel j wake =>
      obtain ⟨hpipe, -, -, -, hsame⟩ := cancelStep_ended hn
      have hother : ∀ k, k ≠ j → (s.consumer k).ended = true := fun k hkj =>
        (hsame k hkj).symm.trans (hall k)
      rw [hpipe] at hpos
      have hw : (s.consumer j).waiting = true := hok
      -- nobody has been woken
      have hsup := hinv.supply ⟨j, hw⟩
      have h1 : s.wokenConsumers = 0 := weigh_eq_zero_iff.mpr fun k => by
        by_cases hkj : k = j
        · subst hkj; simp [(Consumer.wake_spec hw).2.2]
        · have hk := hother k hkj
          cases hpc : (s.consumer k).pc <;> simp_all [Consumer.ended, Consumer.woken]
      omega
    | main =>
      obtain ⟨hpipe, hsame⟩ := main_ended hn
      exact hI ⟨hpipe ▸ hpos, fun k => (hsame k).symm.trans (hall k)⟩

/-- When `run` has returned, all consumers have ended. -/
theorem drained_when_returned (hc : 1 ≤ c) {s : State p c}
    (h : (program size file).ReachIf (fun s l => CancelsUnwoken s l ∧ PushesInRange s l) s)
    (hret : s.main = .returned) : s.pipe.Drained := by
  refine (reach_ok (fun _ _ => And.right) h).drained ?_
  by_contra hne
  have hmain := (reach_runOk h).main
  rw [hret] at hmain
  exact reach_not_lost hc (h.mono fun _ _ => And.left) ⟨Nat.pos_of_ne_zero hne, hmain.2⟩

end Monitor

/-! ## Both builds -/

/-- **A line is left behind.** One producer with one line and one consumer: the
    consumer waits, the producer pushes its line and wakes it, and `run` cancels
    it before it has looked at the buffer. -/
theorem line_left :
    (∃ s : Sem.State 1 1, (Sem.program 1 fun _ => some [97, 10]).Reach s ∧ s.main = .returned ∧
      s.mem.pipe.buffer.bufferLength = 1 ∧ s.mem.pipe.popped = []) ∧
    ∃ s : Monitor.State 1 1, (Monitor.program 1 fun _ => some [97, 10]).Reach s ∧
      s.main = .returned ∧ s.pipe.buffer.bufferLength = 1 ∧ s.pipe.popped = [] := by
  constructor
  · obtain ⟨s, hr, hs⟩ := Machine.Reach.of_run
      (M := (Sem.program 1 fun _ => some [97, 10] : Machine (Sem.State 1 1) (Sem.Label 1 1)))
      (List.replicate 4 (.consumer 0) ++ List.replicate 8 (.producer 0) ++
        List.replicate 3 .main ++ [.cancel 0] ++ List.replicate 3 .main)
      (fun s => (s.main, s.mem.pipe.buffer.bufferLength, s.mem.pipe.popped))
      (.returned, 1, []) rfl rfl
    simp only [Prod.mk.injEq] at hs
    exact ⟨s, hr, hs⟩
  · obtain ⟨s, hr, hs⟩ := Machine.Reach.of_run
      (M := (Monitor.program 1 fun _ => some [97, 10] :
        Machine (Monitor.State 1 1) (Monitor.Label 1 1)))
      ([.consumer 0 none, .consumer 0 none, .producer 0 none, .producer 0 none,
        .producer 0 (some 0), .producer 0 none] ++ List.replicate 3 .main ++ [.cancel 0 none] ++
        List.replicate 3 .main)
      (fun s => (s.main, s.pipe.buffer.bufferLength, s.pipe.popped)) (.returned, 1, []) rfl rfl
    simp only [Prod.mk.injEq] at hs
    exact ⟨s, hr, hs⟩

/-- **Shutting down.** With at least one consumer, in every run in which the consumers
    act on their cancellation only while they wait and have not been woken, and the
    pushes are in range: when `run` returns, the buffer is empty and the lines popped
    are the lines pushed. -/
theorem drained_of_unwoken (hc : 1 ≤ c) (size : ℕ) (file : Fin p → Option (List UInt8)) :
    (∀ s : Sem.State p c,
      (Sem.program size file).ReachIf
        (fun s l => Sem.CancelsUnwoken s l ∧ Sem.PushesInRange s l) s →
      s.main = .returned → s.mem.pipe.Drained) ∧
    ∀ s : Monitor.State p c,
      (Monitor.program size file).ReachIf
        (fun s l => Monitor.CancelsUnwoken s l ∧ Monitor.PushesInRange s l) s →
      s.main = .returned → s.pipe.Drained :=
  ⟨fun _ h hret => Sem.drained_when_returned hc h hret,
    fun _ h hret => Monitor.drained_when_returned hc h hret⟩

/-- The consumer of `line_left` takes the line and waits again before it is
    cancelled. -/
theorem drained_of_unwoken_one : ∃ s : Sem.State 1 1, s.main = .returned ∧
    s.mem.pipe.pushed.length = 1 ∧ s.mem.pipe.Drained := by
  obtain ⟨s, hr, hs⟩ := Machine.ReachIf.of_runIf (C := Sem.CancelsUnwoken)
    (M := (Sem.program 1 fun _ => some [97, 10] : Machine (Sem.State 1 1) (Sem.Label 1 1)))
    (List.replicate 4 (.consumer 0) ++ List.replicate 8 (.producer 0) ++
      List.replicate 10 (.consumer 0) ++ List.replicate 3 .main ++ [.cancel 0] ++
      List.replicate 3 .main)
    (fun s => (s.main, s.mem.pipe.pushed.length)) (.returned, 1) rfl (by decide +kernel)
  simp only [Prod.mk.injEq] at hs
  exact ⟨s, hs.1, hs.2, (drained_of_unwoken le_rfl 1 _).1 s
    (hr.mono_of fun s l hs hl => ⟨hl, (Sem.reach_inv hs).pushesInRange (by decide) l⟩) hs.1⟩

end AghOs.ProdCons
