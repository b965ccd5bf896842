import AghOs.ProdCons.SemInv

/-!
# The semaphore build with a time limit

`run` with `cl->time_limit != 0` (`runner.c`, lines 47–59): the main thread
sleeps, cancels the producers and the consumers, and joins them. The threads are
those of `program`. A producer never disables cancellation; it acts upon it where
it sleeps, opens the file, reads, waits for a semaphore, or prints.

* `timed_follows`: the program with a time limit does what `program` does when it
  no longer schedules the threads that have been cancelled.
-/

namespace AghOs.ProdCons.Sem

variable {p c size : ℕ} {file : Fin p → Option (List UInt8)}

/-! ## The machine -/

/-- Where the main thread is in `run`. -/
inductive TimedPc
  | sleep
  | cancelProducers (i : ℕ)
  | cancelConsumers (j : ℕ)
  | joinProducers (i : ℕ)
  | joinConsumers (j : ℕ)
  | returned
  deriving DecidableEq

/-- One step of `run`, and the thread it cancels. -/
def timedRunStep (producerEnded : Fin p → Bool) (consumerEnded : Fin c → Bool) :
    TimedPc → Option (TimedPc × Option (Fin p ⊕ Fin c))
  | .sleep => some (.cancelProducers 0, none)
  | .cancelProducers i =>
    if h : i < p then some (.cancelProducers (i + 1), some (.inl ⟨i, h⟩))
    else some (.cancelConsumers 0, none)
  | .cancelConsumers j =>
    if h : j < c then some (.cancelConsumers (j + 1), some (.inr ⟨j, h⟩))
    else some (.joinProducers 0, none)
  | .joinProducers i =>
    if h : i < p then
      if producerEnded ⟨i, h⟩ then some (.joinProducers (i + 1), none) else none
    else some (.joinConsumers 0, none)
  | .joinConsumers j =>
    if h : j < c then
      if consumerEnded ⟨j, h⟩ then some (.joinConsumers (j + 1), none) else none
    else some (.returned, none)
  | .returned => none

/-- Where a producer can be cancelled; `log_producer` may stand for `unlock`. -/
def ProducerPc.Cancelable : ProducerPc → Prop
  | .start | .read | .lock _ | .waitLine _ | .unlock => True
  | _ => False

instance : (pc : ProducerPc) → Decidable pc.Cancelable
  | .start | .read | .lock _ | .waitLine _ | .unlock => .isTrue trivial
  | .testFull _ | .unlockFull _ | .push _ | .postLine | .ended => .isFalse id

/-- The program with a time limit; `cancelled` are the producers that have been
    cancelled. -/
structure TimedState (p c : ℕ) where
  mem : Shared (Fin p)
  producer : Fin p → Producer
  consumer : Fin c → Consumer (Fin p)
  cancelled : Fin p → Bool
  main : TimedPc

/-- Who moves, or acts on its cancellation. -/
inductive TimedLabel (p c : ℕ)
  | producer (i : Fin p)
  | consumer (j : Fin c)
  | cancelProducer (i : Fin p)
  | cancelConsumer (j : Fin c)
  | main

/-- `pthread_cancel` -/
def TimedState.cancel (s : TimedState p c) : Fin p ⊕ Fin c → TimedState p c
  | .inl i => { s with cancelled := Function.update s.cancelled i true }
  | .inr j =>
    { s with consumer := Function.update s.consumer j { s.consumer j with cancelled := true } }

/-- The threads of `main-sem.c`, with a time limit. -/
def timedProgram (size : ℕ) (file : Fin p → Option (List UInt8)) :
    Machine (TimedState p c) (TimedLabel p c) where
  init s := s = ⟨⟨Pipe.empty size, 1, 0, 0⟩, fun _ => ⟨.start, []⟩, fun _ => ⟨.start, false⟩,
    fun _ => false, .sleep⟩
  next s
    | .producer i =>
      match producerStep (file i) i s.mem (s.producer i) with
      | .step (m, q) => some { s with mem := m, producer := Function.update s.producer i q }
      | _ => none
    | .consumer j =>
      match consumerStep s.mem (s.consumer j) with
      | .step (m, q) => some { s with mem := m, consumer := Function.update s.consumer j q }
      | _ => none
    | .cancelProducer i =>
      if s.cancelled i ∧ (s.producer i).pc.Cancelable then
        some { s with
          producer := Function.update s.producer i { s.producer i with pc := .ended } }
      else none
    | .cancelConsumer j =>
      if (s.consumer j).cancelled ∧ (s.consumer j).pc.Cancelable then
        some { s with
          consumer := Function.update s.consumer j { s.consumer j with pc := .ended } }
      else none
    | .main =>
      match timedRunStep (fun i => (s.producer i).ended) (fun j => (s.consumer j).ended) s.main with
      | none => none
      | some (main, none) => some { s with main := main }
      | some (main, some k) => some { s.cancel k with main := main }

/-! ## A cancelled thread is one that is no longer scheduled -/

/-- `t` is `s` but for some threads that have ended. -/
structure Follows (s : State p c) (t : TimedState p c) : Prop where
  mem : t.mem = s.mem
  producer : ∀ i, t.producer i = s.producer i ∨ (t.producer i).pc = .ended
  consumer : ∀ j, (t.consumer j).pc = (s.consumer j).pc ∨ (t.consumer j).pc = .ended

/-- A consumer does not look at its cancellation. -/
theorem consumerStep_congr {π : Type*} {m m' : Shared π} {q r q' : Consumer π}
    (hpc : r.pc = q.pc) (h : consumerStep m q = .step (m', q')) :
    ∃ r', consumerStep m r = .step (m', r') ∧ r'.pc = q'.pc := by
  obtain ⟨pc, b⟩ := r
  obtain ⟨pc', b'⟩ := q
  obtain rfl : pc = pc' := hpc
  unfold consumerStep at h ⊢
  repeat' split at h
  all_goals cases h
  all_goals simp_all

theorem consumerStep_exit_congr {π : Type*} {m : Shared π} {q r : Consumer π}
    (hpc : r.pc = q.pc) (h : consumerStep m q = .exit) : consumerStep m r = .exit := by
  obtain ⟨pc, b⟩ := r
  obtain ⟨pc', b'⟩ := q
  obtain rfl : pc = pc' := hpc
  unfold consumerStep at h ⊢
  repeat' split at h
  all_goals cases h
  all_goals simp_all

section

variable {s : State p c} {t t' : TimedState p c} (hf : Follows s t)
include hf

theorem Follows.producer_step {i : Fin p} {m : Shared (Fin p)} {q : Producer}
    (h : producerStep (file i) i t.mem (t.producer i) = .step (m, q)) :
    ∃ s', (program size file).next s (.producer i) = some s' ∧
      Follows s' { t with mem := m, producer := Function.update t.producer i q } := by
  have hq : t.producer i = s.producer i := by
    refine (hf.producer i).resolve_right fun he => ?_
    have := producerStep_not_ended h
    simp [Producer.ended, he] at this
  rw [hf.mem, hq] at h
  refine ⟨{ s with mem := m, producer := Function.update s.producer i q }, ?_, rfl,
    update_rel (R := fun x y : Producer => x = y ∨ x.pc = .ended) hf.producer (.inl rfl),
    hf.consumer⟩
  simp only [program, h]

theorem Follows.consumer_step {j : Fin c} {m : Shared (Fin p)} {q : Consumer (Fin p)}
    (h : consumerStep t.mem (t.consumer j) = .step (m, q)) :
    ∃ s', (program size file).next s (.consumer j) = some s' ∧
      Follows s' { t with mem := m, consumer := Function.update t.consumer j q } := by
  have hq : (t.consumer j).pc = (s.consumer j).pc := by
    refine (hf.consumer j).resolve_right fun he => ?_
    have := (consumerStep_not_ended h).1
    simp [Consumer.ended, he] at this
  rw [hf.mem] at h
  obtain ⟨r, hr, hpc⟩ := consumerStep_congr hq.symm h
  refine ⟨{ s with mem := m, consumer := Function.update s.consumer j r }, ?_, rfl, hf.producer,
    update_rel (R := fun x y : Consumer (Fin p) => x.pc = y.pc ∨ x.pc = .ended) hf.consumer
      (.inl hpc.symm)⟩
  simp only [program, hr]

/-- The end of a producer needs no step. -/
theorem Follows.end_producer {i : Fin p} {q : Producer} (hq : q.pc = .ended) :
    Follows s { t with producer := Function.update t.producer i q } :=
  ⟨hf.mem, (Function.forall_update_iff t.producer
    fun k x => x = s.producer k ∨ x.pc = .ended).mpr ⟨.inr hq, fun k _ => hf.producer k⟩,
    hf.consumer⟩

/-- Neither does the end of a consumer, or its cancellation. -/
theorem Follows.set_consumer {j : Fin c} {q : Consumer (Fin p)}
    (hq : q.pc = (t.consumer j).pc ∨ q.pc = .ended) :
    Follows s { t with consumer := Function.update t.consumer j q } := by
  refine ⟨hf.mem, hf.producer, (Function.forall_update_iff t.consumer
    fun k x => x.pc = (s.consumer k).pc ∨ x.pc = .ended).mpr ⟨?_, fun k _ => hf.consumer k⟩⟩
  obtain hq | hq := hq
  · rw [hq]
    exact hf.consumer j
  · exact .inr hq

theorem Follows.step {l : TimedLabel p c} (h : (timedProgram size file).next t l = some t') :
    Follows s t' ∨ ∃ l s', (program size file).next s l = some s' ∧ Follows s' t' := by
  cases l with
  | producer i =>
    simp only [timedProgram] at h
    split at h <;> cases h
    exact .inr ⟨_, hf.producer_step ‹_›⟩
  | consumer j =>
    simp only [timedProgram] at h
    split at h <;> cases h
    exact .inr ⟨_, hf.consumer_step ‹_›⟩
  | cancelProducer i =>
    simp only [timedProgram] at h
    split at h <;> cases h
    exact .inl (hf.end_producer rfl)
  | cancelConsumer j =>
    simp only [timedProgram] at h
    split at h <;> cases h
    exact .inl (hf.set_consumer (.inr rfl))
  | main =>
    simp only [timedProgram] at h
    split at h <;> cases h
    · exact .inl ⟨hf.mem, hf.producer, hf.consumer⟩
    · rename_i k _
      cases k with
      | inl i => exact .inl ⟨hf.mem, hf.producer, hf.consumer⟩
      | inr j =>
        have := hf.set_consumer (j := j) (q := { t.consumer j with cancelled := true }) (.inl rfl)
        exact .inl ⟨this.mem, this.producer, this.consumer⟩

end

/-- A run with a time limit is a run without one, in which the cancelled threads
    are not scheduled any more. -/
theorem timed_follows {t : TimedState p c} (h : (timedProgram size file).Reach t) :
    ∃ s, (program size file).Reach s ∧ Follows s t := by
  induction h with
  | init h0 =>
    subst h0
    exact ⟨start p c size, .init rfl, rfl, fun _ => .inl rfl, fun _ => .inl rfl⟩
  | step _ _ hn ih =>
    obtain ⟨s, hs, hf⟩ := ih
    obtain hf' | ⟨l, s', hl, hf'⟩ := hf.step hn
    · exact ⟨s, hs, hf'⟩
    · exact ⟨s', hs.step hl, hf'⟩

end AghOs.ProdCons.Sem
