import AghOs.ProdCons.SemInv
import AghOs.ProdCons.MonitorInv

/-!
# No lost wake-ups

* `sem_no_lost_wakeup`: when no producer and no consumer of the semaphore build
  can take a step, everything has been produced and consumed.
* `monitor_no_lost_wakeup`: the same for the monitor build; moreover, while a
  thread waits, enough others have been woken.

Both are about runs in which no consumer has been cancelled.
-/

namespace AghOs.ProdCons

variable {p c size : ℕ} {file : Fin p → Option (List UInt8)}

/-! ## The semaphore build -/

namespace Sem

/-- No thread can take a step; one that would make the process exit can. -/
def State.Blocked (file : Fin p → Option (List UInt8)) (s : State p c) : Prop :=
  (∀ i, producerStep (file i) i s.mem (s.producer i) = .blocked) ∧
    ∀ j, consumerStep s.mem (s.consumer j) = .blocked

theorem producerStep_blocked {π : Type*} {file : Option (List UInt8)} {i : π} {m : Shared π}
    {q : Producer} (h : producerStep file i m q = .blocked) :
    (∃ line, q.pc = .lock line) ∧ m.bufferMx = 0 ∨
      (∃ line, q.pc = .waitLine line) ∧ m.producerLine = 0 ∨ q.pc = .ended := by
  obtain ⟨pc, rest⟩ := q
  unfold producerStep at h
  repeat' split at h
  all_goals first
    | cases h; done
    | simp_all

theorem consumerStep_blocked {π : Type*} {m : Shared π} {q : Consumer π}
    (h : consumerStep m q = .blocked) :
    q.pc = .lock ∧ m.bufferMx = 0 ∨ q.pc = .waitLine ∧ m.consumerLine = 0 ∨ q.pc = .ended := by
  obtain ⟨pc, cancelled⟩ := q
  unfold consumerStep at h
  repeat' split at h
  all_goals first
    | cases h; done
    | simp_all

/-- When nobody can take a step, nobody holds the mutex. -/
theorem State.Inv.mutex_free {s : State p c} (hI : s.Inv size file) (hb : s.Blocked file) :
    s.mem.bufferMx = 1 := by
  have h1 : weigh Producer.holds s.producer = 0 := weigh_eq_zero_iff.mpr fun i => by
    obtain ⟨⟨_, h⟩, -⟩ | ⟨⟨_, h⟩, -⟩ | h := producerStep_blocked (hb.1 i) <;>
      simp [Producer.holds, h]
  have h2 : weigh Consumer.holds s.consumer = 0 := weigh_eq_zero_iff.mpr fun j => by
    obtain ⟨h, -⟩ | ⟨h, -⟩ | h := consumerStep_blocked (hb.2 j) <;> simp [Consumer.holds, h]
  have := hI.mutex
  omega

/-- **No lost wake-up in the semaphore build.** With at least one consumer and
    one place, a state in which no thread can take a step has an empty buffer
    and nothing left to push. -/
theorem sem_no_lost_wakeup (hsize : 1 ≤ size) (hc : 1 ≤ c) {s : State p c}
    (h : (program size file).Reach s) (hcancel : ∀ j, (s.consumer j).cancelled = false)
    (hb : s.Blocked file) :
    (∀ i, (s.producer i).toPush (file i) = []) ∧ s.mem.pipe.buffer.bufferLength = 0 := by
  have hI := reach_inv h
  have hrun := reach_runOk h
  have hmx := hI.mutex_free hb
  have hcons : ∀ j, (s.consumer j).pc = .waitLine ∧ s.mem.consumerLine = 0 := by
    intro j
    obtain ⟨-, h0⟩ | h1 | h1 := consumerStep_blocked (hb.2 j)
    · omega
    · exact h1
    · have := hrun.ended j (by simp [Consumer.ended, h1])
      rw [hcancel j] at this
      cases this
  have hcomes : weigh Consumer.comes s.consumer = 0 :=
    weigh_eq_zero_iff.mpr fun j => by simp [Consumer.comes, (hcons j).1]
  have hposting : weigh Consumer.posting s.consumer = 0 :=
    weigh_eq_zero_iff.mpr fun j => by simp [Consumer.posting, (hcons j).1]
  have hprod : ∀ i, (∃ line, (s.producer i).pc = .waitLine line) ∧ s.mem.producerLine = 0 ∨
      (s.producer i).pc = .ended := by
    intro i
    obtain ⟨-, h0⟩ | h1 := producerStep_blocked (hb.1 i)
    · omega
    · exact h1
  have hcomes' : weigh Producer.comes s.producer = 0 := weigh_eq_zero_iff.mpr fun i => by
    obtain ⟨⟨_, h⟩, -⟩ | h := hprod i <;> simp [Producer.comes, h]
  have hposting' : weigh Producer.posting s.producer = 0 := weigh_eq_zero_iff.mpr fun i => by
    obtain ⟨⟨_, h⟩, -⟩ | h := hprod i <;> simp [Producer.posting, h]
  have hempty : s.mem.pipe.buffer.bufferLength = 0 := by
    have := hI.supply
    have := (hcons ⟨0, hc⟩).2
    omega
  refine ⟨fun i => ?_, hempty⟩
  obtain ⟨⟨line, h1⟩, h0⟩ | h1 := hprod i
  · -- a producer that waits in front of an empty buffer would have been posted
    have := hI.room ⟨i, by simp [Producer.sleeps, h1]⟩
    omega
  · simp [Producer.toPush, h1]

/-- One line goes through a buffer with one place; then everybody waits. -/
theorem sem_no_lost_wakeup_one : ∃ s : State 1 1, s.Blocked (fun _ => some [97, 10]) ∧
    s.mem.pipe.pushed.length = 1 ∧
    (∀ i, (s.producer i).toPush (some [97, 10]) = []) ∧ s.mem.pipe.buffer.bufferLength = 0 := by
  obtain ⟨s, hr, hs⟩ := Machine.Reach.of_run
    (M := (program 1 fun _ => some [97, 10] : Machine (State 1 1) (Label 1 1)))
    (List.replicate 8 (.producer 0) ++ List.replicate 14 (.consumer 0))
    (fun s => ((s.producer 0).pc, s.mem.pipe.pushed.length, s.mem.consumerLine, (s.consumer 0).pc,
      (s.consumer 0).cancelled)) (.ended, 1, 0, .waitLine, false) rfl rfl
  simp only [Prod.mk.injEq] at hs
  obtain ⟨hp, hn, hl, hc, hf⟩ := hs
  have hb : s.Blocked fun _ => some [97, 10] :=
    ⟨Fin.forall_fin_one.mpr (by simp [producerStep, hp]),
      Fin.forall_fin_one.mpr (by simp [consumerStep, hc, hl])⟩
  exact ⟨s, hb, hn, sem_no_lost_wakeup le_rfl le_rfl hr (Fin.forall_fin_one.mpr hf) hb⟩

end Sem

/-! ## The monitor build -/

namespace Monitor

/-- Every thread that has not ended is blocked. -/
def State.Blocked (file : Fin p → Option (List UInt8)) (s : State p c) : Prop :=
  (∀ i wake, producerStep (file i) i wake s = none) ∧ ∀ j wake, consumerStep j wake s = none

theorem exists_signalConsumer (s : State p c) : ∃ wake s', s.signalConsumer wake = some s' := by
  by_cases h : ∀ j, (s.consumer j).waiting = false
  · exact ⟨none, s, by simp [State.signalConsumer, h]⟩
  · push Not at h
    obtain ⟨j, hj⟩ := h
    exact ⟨some j, _, if_pos (by simpa using hj)⟩

theorem exists_signalProducer (s : State p c) : ∃ wake s', s.signalProducer wake = some s' := by
  by_cases h : ∀ i, (s.producer i).waiting = false
  · exact ⟨none, s, by simp [State.signalProducer, h]⟩
  · push Not at h
    obtain ⟨i, hi⟩ := h
    exact ⟨some i, _, if_pos (by simpa using hi)⟩

/-- A producer is blocked only in its wait. -/
theorem producerStep_blocked {s : State p c} {file : Option (List UInt8)} {i : Fin p}
    (h : ∀ wake, producerStep file i wake s = none) :
    (s.producer i).waiting = true ∨ (s.producer i).ended = true := by
  cases hq : s.producer i with
  | mk pc rest =>
    cases pc with
    | waiting line => exact .inl rfl
    | ended => exact .inr rfl
    | start | read =>
      have h := h none
      simp only [producerStep, hq] at h
      repeat' split at h
      all_goals cases h
    | lock line | woken line =>
      simp only [producerStep, hq] at h
      split at h
      · cases h none
      · obtain ⟨wake, s', hs⟩ := exists_signalConsumer
          ({ s with pipe := (s.pipe.push ⟨i, line⟩).2 }.setProducer i ⟨.read, rest⟩)
        cases (h wake).symm.trans hs

/-- A consumer is blocked only in its wait. -/
theorem consumerStep_blocked {s : State p c} {j : Fin c}
    (h : ∀ wake, consumerStep j wake s = none) :
    (s.consumer j).waiting = true ∨ (s.consumer j).ended = true := by
  cases hq : s.consumer j with
  | mk pc cancelled =>
    cases pc with
    | waiting => exact .inl rfl
    | ended => exact .inr rfl
    | start | use line =>
      have h := h none
      simp only [consumerStep, hq] at h
      cases h
    | lock | woken =>
      simp only [consumerStep, hq] at h
      split at h
      · cases h none
      · obtain ⟨wake, s', hs⟩ := exists_signalProducer
          ({ s with pipe := s.pipe.pop.2.2 }.setConsumer j ⟨.use s.pipe.pop.2.1, cancelled⟩)
        cases (h wake).symm.trans hs

/-- While a consumer waits, every line in the buffer has a woken consumer that
    will test the buffer again; while a producer waits, every free place has a
    woken producer; and when every live thread is blocked, there is nothing left
    to push and the buffer is empty. -/
structure State.NoLostWakeup (size : ℕ) (file : Fin p → Option (List UInt8)) (s : State p c) :
    Prop where
  consumers : (∃ j, (s.consumer j).waiting = true) →
    s.pipe.buffer.bufferLength ≤ s.wokenConsumers
  producers : (∃ i, (s.producer i).waiting = true) →
    size - s.pipe.buffer.bufferLength ≤ s.wokenProducers
  blocked : s.Blocked file →
    (∀ i, (s.producer i).toPush (file i) = []) ∧ s.pipe.buffer.bufferLength = 0

/-- **No lost wake-up in the monitor build**, with at least one consumer and one
    place. -/
theorem monitor_no_lost_wakeup (hsize : 1 ≤ size) (hc : 1 ≤ c) {s : State p c}
    (h : (program size file).Reach s) (hcancel : ∀ j, (s.consumer j).cancelled = false) :
    s.NoLostWakeup size file := by
  have hI := reach_inv h
  have hrun := reach_runOk h
  refine ⟨hI.supply, fun hex => ?_, fun hb => ?_⟩
  · have := hI.room hex
    omega
  have hcons : ∀ j, (s.consumer j).waiting = true := by
    intro j
    obtain h1 | h1 := consumerStep_blocked (hb.2 j)
    · exact h1
    · have := hrun.ended j h1
      rw [hcancel j] at this
      cases this
  have hprod := fun i => producerStep_blocked (hb.1 i)
  have hw1 : s.wokenConsumers = 0 := weigh_eq_zero_iff.mpr fun j => by
    simp [(Consumer.wake_spec (hcons j)).2.2]
  have hw2 : s.wokenProducers = 0 := weigh_eq_zero_iff.mpr fun i => by
    obtain h1 | h1 := hprod i
    · simp [(Producer.wake_spec h1).2.2]
    · cases hq : s.producer i with
      | mk pc rest => rw [hq] at h1; cases pc <;> first | cases h1; done | rfl
  have hempty : s.pipe.buffer.bufferLength = 0 := by
    have := hI.supply ⟨⟨0, hc⟩, hcons _⟩
    omega
  refine ⟨fun i => ?_, hempty⟩
  obtain h1 | h1 := hprod i
  · -- a producer that waits in front of an empty buffer would have been woken
    have := hI.room ⟨i, h1⟩
    omega
  · cases hq : s.producer i with
    | mk pc rest => rw [hq] at h1; cases pc <;> first | cases h1; done | rfl

/-- The consumer waits, is woken by the push of a line, takes it and waits
    again. -/
theorem monitor_no_lost_wakeup_one : ∃ s : State 1 1, (s.consumer 0).waiting = true ∧
    s.pipe.pushed.length = 1 ∧ s.NoLostWakeup 1 fun _ => some [97, 10] := by
  obtain ⟨s, hr, hs⟩ := Machine.Reach.of_run
    (M := (program 1 fun _ => some [97, 10] : Machine (State 1 1) (Label 1 1)))
    [.consumer 0 none, .consumer 0 none, .producer 0 none, .producer 0 none,
      .producer 0 (some 0), .producer 0 none, .consumer 0 none, .consumer 0 none, .consumer 0 none]
    (fun s => ((s.consumer 0).waiting, s.pipe.pushed.length, (s.consumer 0).cancelled))
    (true, 1, false) rfl rfl
  simp only [Prod.mk.injEq] at hs
  obtain ⟨hw, hn, hf⟩ := hs
  exact ⟨s, hw, hn, monitor_no_lost_wakeup le_rfl le_rfl hr (Fin.forall_fin_one.mpr hf)⟩

end Monitor

end AghOs.ProdCons
