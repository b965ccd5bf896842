import AghOs.Machine.Threads
import AghOs.ProdCons.Monitor

/-!
# Invariants of the monitor build

`State.Inv` holds in every reachable state, also after cancellations: the counters
of the pipe are right, and

* `supply`: while a consumer waits, there are at least as many woken consumers
  as lines in the buffer;
* `room`: while a producer waits, there are at least as many woken producers as
  free places.

`reach_ok` adds that the lines keep their order, in runs with `PushesInRange`.
-/

namespace AghOs.ProdCons.Monitor

variable {p c size : ℕ} {file : Fin p → Option (List UInt8)} {s s' : State p c}

/-- What the producer has yet to push. -/
def Producer.toPush (file : Option (List UInt8)) (q : Producer) : List Text :=
  match q.pc with
  | .start => fileLines (file.getD [])
  | .lock line | .waiting line | .woken line => line :: fileLines q.rest
  | .read => fileLines q.rest
  | .ended => []

/-- The number of producers that are woken. -/
def State.wokenProducers (s : State p c) : ℕ := weigh (fun q => q.woken.toNat) s.producer

/-- The number of consumers that are woken. -/
def State.wokenConsumers (s : State p c) : ℕ := weigh (fun q => q.woken.toNat) s.consumer

/-- What holds between two steps. -/
structure State.Inv (size : ℕ) (file : Fin p → Option (List UInt8)) (s : State p c) : Prop where
  pipe : s.pipe.Counts size (fun i => (file i).getD []) fun i => (s.producer i).toPush (file i)
  supply : (∃ j, (s.consumer j).waiting = true) → s.pipe.buffer.bufferLength ≤ s.wokenConsumers
  room : (∃ i, (s.producer i).waiting = true) →
    size ≤ s.pipe.buffer.bufferLength + s.wokenProducers

theorem start_inv : (start p c size).Inv size file := by
  refine ⟨Pipe.counts_empty fun _ => rfl, ?_, ?_⟩ <;>
    rintro ⟨k, hk⟩ <;> cases hk

/-! ## Waking threads -/

theorem wokenConsumers_set (s : State p c) (j : Fin c) (q : Consumer (Fin p)) :
    (s.setConsumer j q).wokenConsumers + (s.consumer j).woken.toNat =
      s.wokenConsumers + q.woken.toNat :=
  weigh_update (fun q : Consumer (Fin p) => q.woken.toNat) s.consumer j q

theorem wokenProducers_set (s : State p c) (i : Fin p) (q : Producer) :
    (s.setProducer i q).wokenProducers + (s.producer i).woken.toNat =
      s.wokenProducers + q.woken.toNat :=
  weigh_update (fun q : Producer => q.woken.toNat) s.producer i q

/-- A thread that waits after the update of a thread that does not, has waited
    before. -/
theorem exists_waiting_update {n : ℕ} {α : Type*} {w : α → Bool} {t : Fin n → α} {i : Fin n}
    {a : α} (ha : w a = false) (h : ∃ k, w (Function.update t i a k) = true) :
    ∃ k, w (t k) = true := by
  obtain ⟨k, hk⟩ := h
  by_cases hki : k = i
  · subst hki
    rw [Function.update_self, ha] at hk
    cases hk
  · exact ⟨k, by rwa [Function.update_of_ne hki] at hk⟩

theorem Consumer.wake_spec {π : Type*} {q : Consumer π} (h : q.waiting = true) :
    q.wake.waiting = false ∧ q.wake.woken = true ∧ q.woken = false := by
  obtain ⟨pc, cancelled⟩ := q
  cases pc <;> simp_all [wake, waiting, woken]

theorem Producer.wake_spec {q : Producer} (h : q.waiting = true) :
    q.wake.waiting = false ∧ q.wake.woken = true ∧ q.woken = false := by
  obtain ⟨pc, rest⟩ := q
  cases pc <;> simp_all [wake, waiting, woken]

theorem Producer.wake_toPush (file : Option (List UInt8)) (q : Producer) :
    q.wake.toPush file = q.toPush file := by
  obtain ⟨pc, rest⟩ := q
  cases pc <;> rfl

/-- Unblocking a consumer makes it a woken one. -/
theorem wakeConsumer_spec {j : Fin c} (h : (s.consumer j).waiting = true) :
    (s.setConsumer j (s.consumer j).wake).wokenConsumers = s.wokenConsumers + 1 := by
  obtain ⟨-, h2, h3⟩ := Consumer.wake_spec h
  have := wokenConsumers_set s j (s.consumer j).wake
  simpa [h2, h3] using this

theorem wakeProducer_spec {i : Fin p} (h : (s.producer i).waiting = true) :
    (s.setProducer i (s.producer i).wake).wokenProducers = s.wokenProducers + 1 := by
  obtain ⟨-, h2, h3⟩ := Producer.wake_spec h
  have := wokenProducers_set s i (s.producer i).wake
  simpa [h2, h3] using this

/-- A signal unblocks a consumer if one waits. -/
theorem signalConsumer_spec {wake : Option (Fin c)} (h : s.signalConsumer wake = some s') :
    s'.pipe = s.pipe ∧ s'.producer = s.producer ∧
      ((∃ j, (s'.consumer j).waiting = true) →
        (∃ j, (s.consumer j).waiting = true) ∧ s'.wokenConsumers = s.wokenConsumers + 1) := by
  cases wake with
  | none =>
    simp only [State.signalConsumer] at h
    split at h <;> cases h
    rename_i hno
    refine ⟨rfl, rfl, fun ⟨j, hj⟩ => ?_⟩
    rw [hno j] at hj
    cases hj
  | some j =>
    simp only [State.signalConsumer] at h
    split at h <;> cases h
    rename_i hw
    exact ⟨rfl, rfl, fun hex => ⟨⟨j, hw⟩, wakeConsumer_spec hw⟩⟩

/-- A signal unblocks a producer if one waits. -/
theorem signalProducer_spec {wake : Option (Fin p)} (h : s.signalProducer wake = some s') :
    s'.pipe = s.pipe ∧ s'.consumer = s.consumer ∧
      (∀ file i, (s'.producer i).toPush file = (s.producer i).toPush file) ∧
      ((∃ i, (s'.producer i).waiting = true) →
        (∃ i, (s.producer i).waiting = true) ∧ s'.wokenProducers = s.wokenProducers + 1) := by
  cases wake with
  | none =>
    simp only [State.signalProducer] at h
    split at h <;> cases h
    rename_i hno
    refine ⟨rfl, rfl, fun _ _ => rfl, fun ⟨j, hj⟩ => ?_⟩
    rw [hno j] at hj
    cases hj
  | some i =>
    simp only [State.signalProducer] at h
    split at h <;> cases h
    rename_i hw
    refine ⟨rfl, rfl, fun file k => ?_, fun hex => ⟨⟨i, hw⟩, wakeProducer_spec hw⟩⟩
    by_cases hki : k = i
    · subst hki
      simp [State.setProducer, Producer.wake_toPush]
    · simp [State.setProducer, Function.update_of_ne hki]

/-! ## The steps -/

/-- A step of a producer is local, or it finds the buffer full and waits, or it
    pushes its line and signals. -/
theorem producerStep_cases {i : Fin p} {wake : Option (Fin c)}
    (h : producerStep (file i) i wake s = some s') :
    (∃ q, s' = s.setProducer i q ∧ q.waiting = false ∧ q.woken = false ∧
      (s.producer i).waiting = false ∧ (s.producer i).woken = false ∧
      q.toPush (file i) = (s.producer i).toPush (file i)) ∨
    ∃ line, (s.producer i).toPush (file i) = line :: fileLines (s.producer i).rest ∧
      ((s.pipe.push ⟨i, line⟩).1 ≠ 0 ∧
        s' = { s with pipe := (s.pipe.push ⟨i, line⟩).2 }.setProducer i
          { s.producer i with pc := .waiting line } ∨
      (s.pipe.push ⟨i, line⟩).1 = 0 ∧
        ({ s with pipe := (s.pipe.push ⟨i, line⟩).2 }.setProducer i
          { s.producer i with pc := .read }).signalConsumer wake = some s') := by
  unfold producerStep at h
  cases hq : s.producer i with
  | mk pc rest =>
    cases pc with
    | start =>
      simp only [hq] at h
      split at h <;> cases h <;>
        exact .inl ⟨_, rfl, rfl, rfl, rfl, rfl, by simp_all [Producer.toPush]⟩
    | read =>
      simp only [hq] at h
      split at h
      · rename_i he
        cases h
        refine .inl ⟨_, rfl, rfl, rfl, rfl, rfl, ?_⟩
        cases rest with
        | nil => rfl
        | cons c cs => cases he
      · rename_i l rest' hl
        have hf := getline_eq_some hl
        split at h <;> cases h <;> refine .inl ⟨_, rfl, rfl, rfl, rfl, rfl, ?_⟩
        all_goals simp_all [Producer.toPush]
    | lock line | woken line =>
      simp only [hq] at h
      refine .inr ⟨line, rfl, ?_⟩
      split at h
      · cases h; exact .inl ⟨‹_›, rfl⟩
      · rename_i h0
        exact .inr ⟨not_not.mp h0, h⟩
    | waiting line | ended => simp only [hq] at h; cases h

/-- A step of a consumer is local, or it finds the buffer empty and waits, or it
    pops a line and signals. -/
theorem consumerStep_cases {j : Fin c} {wake : Option (Fin p)}
    (h : consumerStep j wake s = some s') :
    (∃ q, s' = s.setConsumer j q ∧ q.waiting = false ∧ q.woken = false ∧
      (s.consumer j).waiting = false ∧ (s.consumer j).woken = false ∧ q.ended = false ∧
      q.cancelled = (s.consumer j).cancelled) ∨
    (s.pipe.pop.1 ≠ 0 ∧
      s' = { s with pipe := s.pipe.pop.2.2 }.setConsumer j { s.consumer j with pc := .waiting }) ∨
    (s.pipe.pop.1 = 0 ∧
      ({ s with pipe := s.pipe.pop.2.2 }.setConsumer j
        { s.consumer j with pc := .use s.pipe.pop.2.1 }).signalProducer wake = some s') := by
  unfold consumerStep at h
  cases hq : s.consumer j with
  | mk pc cancelled =>
    cases pc with
    | start | use line =>
      simp only [hq] at h
      cases h
      exact .inl ⟨_, rfl, rfl, rfl, rfl, rfl, rfl, rfl⟩
    | lock | woken =>
      simp only [hq] at h
      split at h
      · cases h; exact .inr (.inl ⟨‹_›, rfl⟩)
      · rename_i h0
        exact .inr (.inr ⟨not_not.mp h0, h⟩)
    | waiting | ended => simp only [hq] at h; cases h

section Steps

variable (hI : s.Inv size file)
include hI

/-- What is to be pushed, after producer `i` has moved. -/
theorem State.Inv.pipe_set {i : Fin p} {q : Producer}
    (h : q.toPush (file i) = (s.producer i).toPush (file i)) :
    s.pipe.Counts size (fun i => (file i).getD []) fun k =>
      ((s.setProducer i q).producer k).toPush (file k) := by
  refine hI.pipe.congr fun k => ?_
  by_cases hki : k = i
  · subst hki; simpa [State.setProducer] using h
  · simp [State.setProducer, Function.update_of_ne hki]

theorem State.Inv.producer_step {i : Fin p} {wake : Option (Fin c)}
    (h : producerStep (file i) i wake s = some s') : s'.Inv size file := by
  obtain ⟨q, rfl, h1, h2, h3, h4, ht⟩ | ⟨line, ht, ⟨hrc, rfl⟩ | ⟨hrc, h⟩⟩ := producerStep_cases h
  · have hw := wokenProducers_set s i q
    simp only [h2, h4, Bool.toNat_false, Nat.add_zero] at hw
    refine ⟨hI.pipe_set ht, hI.supply, fun hex => ?_⟩
    rw [hw]
    exact hI.room (exists_waiting_update h1 hex)
  · -- the buffer is full
    obtain ⟨hfull, hp⟩ := Pipe.push_fail hrc
    rw [hp]
    refine ⟨hI.pipe_set (by rw [ht]; rfl), hI.supply, fun _ => ?_⟩
    rw [hI.pipe.size_eq] at hfull
    exact hfull.ge.trans (Nat.le_add_right _ _)
  · -- the line is pushed, and a waiting consumer is woken
    obtain ⟨hpipe, hprod, hcons⟩ := signalConsumer_spec h
    have hlt := hI.pipe.lt_of_push hrc
    have hlen := (hI.pipe.push_length hlt ⟨i, line⟩).2
    refine ⟨?_, fun hex => ?_, fun hex => ?_⟩
    · rw [hpipe, hprod]
      refine hI.pipe.push hlt ?_ fun k hki => ?_
      · rw [ht]
        simp [State.setProducer, Producer.toPush]
      · simp [State.setProducer, Function.update_of_ne hki]
    · obtain ⟨hex, hwok⟩ := hcons hex
      have := hI.supply hex
      rw [hpipe, hwok]
      simp only [State.setProducer, State.wokenConsumers] at this ⊢
      omega
    · rw [hprod] at hex
      have := hI.room (exists_waiting_update (t := s.producer) (i := i) (by rfl) hex)
      have hw := wokenProducers_set s i { s.producer i with pc := .read }
      have hb := Bool.toNat_le (s.producer i).woken
      have hw' : s'.wokenProducers =
          (s.setProducer i { s.producer i with pc := .read }).wokenProducers := by
        rw [State.wokenProducers, hprod]
        rfl
      rw [hpipe, hw']
      simp only [State.setProducer] at hlen ⊢
      simp only [State.setProducer] at hw
      omega

theorem State.Inv.consumer_step {j : Fin c} {wake : Option (Fin p)}
    (h : consumerStep j wake s = some s') : s'.Inv size file := by
  obtain ⟨q, rfl, h1, h2, h3, h4, -, -⟩ | ⟨hrc, rfl⟩ | ⟨hrc, h⟩ := consumerStep_cases h
  · have hw := wokenConsumers_set s j q
    simp only [h2, h4, Bool.toNat_false, Nat.add_zero] at hw
    refine ⟨hI.pipe, fun hex => ?_, hI.room⟩
    rw [hw]
    exact hI.supply (exists_waiting_update h1 hex)
  · -- the buffer is empty
    obtain ⟨hempty, hp⟩ := Pipe.pop_fail hrc
    rw [hp]
    exact ⟨hI.pipe, fun _ => hempty.le.trans (Nat.zero_le _), hI.room⟩
  · -- a line is popped, and a waiting producer is woken
    obtain ⟨hpipe, hcons, hpush, hprod⟩ := signalProducer_spec h
    have hpos := Pipe.pos_of_pop hrc
    have hlen := (Pipe.pop_length hpos).2
    refine ⟨?_, fun hex => ?_, fun hex => ?_⟩
    · rw [hpipe]
      exact (hI.pipe.pop hpos).congr fun i => hpush _ i
    · rw [hcons] at hex
      have := hI.supply (exists_waiting_update (t := s.consumer) (i := j) (by rfl) hex)
      have hw := wokenConsumers_set s j { s.consumer j with pc := .use s.pipe.pop.2.1 }
      have hb := Bool.toNat_le (s.consumer j).woken
      have hw' : s'.wokenConsumers =
          (s.setConsumer j { s.consumer j with pc := .use s.pipe.pop.2.1 }).wokenConsumers := by
        rw [State.wokenConsumers, hcons]
        rfl
      rw [hpipe, hw']
      simp only [State.setConsumer] at hw ⊢
      omega
    · obtain ⟨hex, hwok⟩ := hprod hex
      have := hI.room hex
      rw [hpipe, hwok]
      simp only [State.setConsumer, State.wokenProducers] at this ⊢
      omega

/-- A blocked producer is woken. -/
theorem State.Inv.wakeProducer {i : Fin p} (h : (s.producer i).waiting = true) :
    (s.setProducer i (s.producer i).wake).Inv size file := by
  refine ⟨hI.pipe_set (Producer.wake_toPush _ _), hI.supply, fun _ => ?_⟩
  have := hI.room ⟨i, h⟩
  rw [wakeProducer_spec h]
  exact this.trans (by simp only [State.setProducer]; omega)

/-- A change to a consumer that does not make it wait keeps the invariant if
    enough consumers stay woken. -/
theorem State.Inv.setConsumer {j : Fin c} {q : Consumer (Fin p)} (h : q.waiting = false)
    (hw : s.wokenConsumers ≤ (s.setConsumer j q).wokenConsumers) :
    (s.setConsumer j q).Inv size file :=
  ⟨hI.pipe, fun hex => (hI.supply (exists_waiting_update h hex)).trans hw, hI.room⟩

theorem State.Inv.cancel_step {j : Fin c} {wake : Option (Fin c)}
    (h : cancelStep j wake s = some s') : s'.Inv size file := by
  have hw := wokenConsumers_set s j { s.consumer j with pc := .ended }
  simp only [show Consumer.woken ⟨.ended, (s.consumer j).cancelled⟩ = false from rfl,
    Bool.toNat_false, Nat.add_zero] at hw
  simp only [cancelStep] at h
  split at h
  · split at h
    · cases h
      refine hI.setConsumer rfl ?_
      simp_all [Consumer.woken]
    · cases h
      refine hI.setConsumer rfl ?_
      simp_all [Consumer.woken]
    · -- the signal goes to another waiting consumer
      obtain ⟨hpipe, hprod, hcons⟩ := signalConsumer_spec h
      refine ⟨by rw [hpipe, hprod]; exact hI.pipe, fun hex => ?_, fun hex => ?_⟩
      · obtain ⟨hex, hwok⟩ := hcons hex
        have := hI.supply (exists_waiting_update (t := s.consumer) (i := j) (by rfl) hex)
        have hb := Bool.toNat_le (s.consumer j).woken
        rw [hpipe, hwok]
        exact this.trans (by omega)
      · rw [hprod] at hex
        have := hI.room hex
        rw [hpipe, State.wokenProducers, hprod]
        exact this
    · cases h
  · cases h

end Steps

theorem State.Inv.step {l : Label p c} (hI : s.Inv size file)
    (h : (program size file).next s l = some s') : s'.Inv size file := by
  cases l with
  | producer i wake => exact hI.producer_step h
  | consumer j wake => exact hI.consumer_step h
  | spuriousProducer i =>
    simp only [program] at h
    split at h <;> cases h
    exact hI.wakeProducer ‹_›
  | spuriousConsumer j =>
    simp only [program] at h
    split at h <;> cases h
    rename_i hw
    exact hI.setConsumer (Consumer.wake_spec hw).1 (by rw [wakeConsumer_spec hw]; omega)
  | cancel j wake => exact hI.cancel_step h
  | main =>
    simp only [program] at h
    split at h <;> cases h
    · exact ⟨hI.pipe, hI.supply, hI.room⟩
    · rename_i j _
      have hw := wokenConsumers_set s j { s.consumer j with cancelled := true }
      have hw' : Consumer.woken ⟨(s.consumer j).pc, true⟩ = (s.consumer j).woken := rfl
      rw [hw'] at hw
      refine ⟨hI.pipe, fun ⟨k, hk⟩ => ?_, hI.room⟩
      refine (hI.supply ⟨k, ?_⟩).trans (by simp only [State.wokenConsumers] at hw ⊢; omega)
      by_cases hkj : k = j
      · subst hkj; simpa [State.setConsumer, Consumer.waiting] using hk
      · simpa [State.setConsumer, Function.update_of_ne hkj] using hk

theorem reach_inv {C : State p c → Label p c → Prop} (h : (program size file).ReachIf C s) :
    s.Inv size file :=
  h.invariant (fun _ h0 => h0 ▸ start_inv) fun _ _ _ hI _ hn => hI.step hn

/-! ## The order of the lines -/

/-- A push that succeeds finds the index of its place to be an `int`. -/
def PushesInRange (s : State p c) : Label p c → Prop
  | .producer i _ => ∀ line, (s.producer i).pc = .lock line ∨ (s.producer i).pc = .woken line →
      (s.pipe.push ⟨i, line⟩).1 = 0 → s.pipe.buffer.InRange
  | _ => True

/-- Up to `2 ^ 30` places every push does. -/
theorem State.Inv.pushesInRange (hI : s.Inv size file) (hsize : size ≤ 2 ^ 30) (l : Label p c) :
    PushesInRange s l := by
  cases l with
  | producer i wake => exact fun line _ h0 => hI.pipe.inRange hsize (hI.pipe.lt_of_push h0)
  | _ => trivial

/-- A producer leaves the pipe as it is, or pushes its line. -/
theorem producerStep_pipe {i : Fin p} {wake : Option (Fin c)}
    (h : producerStep (file i) i wake s = some s') :
    s'.pipe = s.pipe ∨ ∃ line,
      ((s.producer i).pc = .lock line ∨ (s.producer i).pc = .woken line) ∧
      (s.pipe.push ⟨i, line⟩).1 = 0 ∧ s'.pipe = (s.pipe.push ⟨i, line⟩).2 := by
  unfold producerStep at h
  cases hq : (s.producer i).pc with
  | start =>
    simp only [hq] at h
    split at h <;> cases h <;> exact .inl rfl
  | read =>
    simp only [hq] at h
    split at h
    · cases h
      exact .inl rfl
    · split at h <;> cases h <;> exact .inl rfl
  | lock line =>
    simp only [hq] at h
    split at h
    · rename_i hrc
      cases h
      exact .inl (Pipe.push_fail hrc).2
    · rename_i h0
      exact .inr ⟨line, .inl rfl, not_not.mp h0, (signalConsumer_spec h).1⟩
  | woken line =>
    simp only [hq] at h
    split at h
    · rename_i hrc
      cases h
      exact .inl (Pipe.push_fail hrc).2
    · rename_i h0
      exact .inr ⟨line, .inr rfl, not_not.mp h0, (signalConsumer_spec h).1⟩
  | waiting line =>
    simp only [hq] at h
    cases h
  | ended =>
    simp only [hq] at h
    cases h

/-- A step whose push is in range keeps the order. -/
theorem ordered_step {l : Label p c} (hI : s.Inv size file) (ho : s.pipe.Ordered)
    (hr : PushesInRange s l) (h : (program size file).next s l = some s') :
    s'.pipe.Ordered := by
  cases l with
  | producer i wake =>
    obtain hp | ⟨line, hpc, h0, hp⟩ := producerStep_pipe h
    · exact hp ▸ ho
    · have hlt := hI.pipe.lt_of_push h0
      rw [hp]
      exact ho.push (hlt.trans_eq hI.pipe.size_eq.symm) (hr line hpc h0) _
  | consumer j wake =>
    obtain ⟨q, rfl, -⟩ | ⟨hrc, rfl⟩ | ⟨hrc, h⟩ := consumerStep_cases h
    · exact ho
    · exact (Pipe.pop_fail hrc).2.symm ▸ ho
    · rw [(signalProducer_spec h).1]
      exact ho.pop (Pipe.pos_of_pop hrc)
  | spuriousProducer i =>
    simp only [program] at h
    split at h <;> cases h
    exact ho
  | spuriousConsumer j =>
    simp only [program] at h
    split at h <;> cases h
    exact ho
  | cancel j wake =>
    simp only [program, cancelStep] at h
    split at h
    · split at h
      · cases h
        exact ho
      · cases h
        exact ho
      · rw [(signalConsumer_spec h).1]
        exact ho
      · cases h
    · cases h
  | main =>
    simp only [program] at h
    split at h <;> cases h <;> exact ho

/-- As long as the pushes are in range, the pipe is a queue. -/
theorem reach_ok {C : State p c → Label p c → Prop} (hC : ∀ s l, C s l → PushesInRange s l)
    (h : (program size file).ReachIf C s) :
    s.pipe.Ok size (fun i => (file i).getD []) fun i => (s.producer i).toPush (file i) := by
  have ho : s.pipe.Ordered :=
    h.invariant_of (I := fun s : State p c => s.pipe.Ordered) (fun _ => reach_inv)
      (fun _ h0 => h0 ▸ Pipe.ordered_empty)
      fun _ _ _ hI _ ho hc hn => ordered_step hI ho (hC _ _ hc) hn
  exact ⟨(reach_inv h).pipe, ho⟩

theorem reach_ok_of_size_le (hsize : size ≤ 2 ^ 30) (h : (program size file).Reach s) :
    s.pipe.Ok size (fun i => (file i).getD []) fun i => (s.producer i).toPush (file i) :=
  reach_ok (fun _ _ => id) (h.mono_of fun _ l hs _ => (reach_inv hs).pushesInRange hsize l)

/-! ## The main thread -/

/-- `run` can rely on its threads. -/
def State.RunOk (s : State p c) : Prop :=
  ProdCons.RunOk s.main (fun i => (s.producer i).ended) (fun j => (s.consumer j).ended)
    fun j => (s.consumer j).cancelled

theorem Producer.wake_ended (q : Producer) : q.wake.ended = q.ended := by
  obtain ⟨pc, rest⟩ := q
  cases pc <;> rfl

theorem Consumer.wake_ended {π : Type*} (q : Consumer π) :
    q.wake.ended = q.ended ∧ q.wake.cancelled = q.cancelled := by
  obtain ⟨pc, cancelled⟩ := q
  cases pc <;> exact ⟨rfl, rfl⟩

/-- A producer that moves has not ended. -/
theorem State.RunOk.setProducer (hI : s.RunOk) {i : Fin p} {q : Producer}
    (h : (s.producer i).ended = true → q.ended = true) : (s.setProducer i q).RunOk := by
  refine ProdCons.RunOk.of_threads hI ?_ (fun _ => id) (fun _ => rfl) hI.ended
  exact (Function.forall_update_iff s.producer fun k q =>
    (s.producer k).ended = true → q.ended = true).mpr ⟨h, fun _ _ => id⟩

/-- A consumer that moves has not ended, and ends only if it is cancelled. -/
theorem State.RunOk.setConsumer (hI : s.RunOk) {j : Fin c} {q : Consumer (Fin p)}
    (h1 : (s.consumer j).ended = true → q.ended = true)
    (h2 : q.cancelled = (s.consumer j).cancelled)
    (h3 : q.ended = true → (s.consumer j).cancelled = true) : (s.setConsumer j q).RunOk := by
  refine ProdCons.RunOk.of_threads hI (fun _ => id) ?_ ?_ ?_
  · exact (Function.forall_update_iff s.consumer fun k q =>
      (s.consumer k).ended = true → q.ended = true).mpr ⟨h1, fun _ _ => id⟩
  · exact (Function.forall_update_iff s.consumer fun k q =>
      q.cancelled = (s.consumer k).cancelled).mpr ⟨h2, fun _ _ => rfl⟩
  · exact (Function.forall_update_iff s.consumer fun k q =>
      q.ended = true → (s.consumer k).cancelled = true).mpr ⟨h3, fun k _ => hI.ended k⟩

/-- A consumer that moves without ending ends nobody. -/
theorem State.setConsumer_ended {j : Fin c} {q : Consumer (Fin p)}
    (h : q.ended = (s.consumer j).ended) :
    ∀ k, ((s.setConsumer j q).consumer k).ended = (s.consumer k).ended :=
  (Function.forall_update_iff s.consumer fun k q => q.ended = (s.consumer k).ended).mpr
    ⟨h, fun _ _ => rfl⟩

theorem State.RunOk.wakeConsumer (hI : s.RunOk) (j : Fin c) :
    (s.setConsumer j (s.consumer j).wake).RunOk := by
  obtain ⟨h1, h2⟩ := Consumer.wake_ended (s.consumer j)
  exact hI.setConsumer (fun h => h1 ▸ h) h2 fun h => hI.ended j (h1 ▸ h)

theorem State.RunOk.wakeProducer (hI : s.RunOk) (i : Fin p) :
    (s.setProducer i (s.producer i).wake).RunOk :=
  hI.setProducer fun h => (Producer.wake_ended _).trans h

theorem State.RunOk.signalConsumer (hI : s.RunOk) {wake : Option (Fin c)}
    (h : s.signalConsumer wake = some s') : s'.RunOk := by
  cases wake with
  | none => simp only [State.signalConsumer] at h; split at h <;> cases h; exact hI
  | some j => simp only [State.signalConsumer] at h; split at h <;> cases h; exact hI.wakeConsumer j

theorem State.RunOk.signalProducer (hI : s.RunOk) {wake : Option (Fin p)}
    (h : s.signalProducer wake = some s') : s'.RunOk := by
  cases wake with
  | none => simp only [State.signalProducer] at h; split at h <;> cases h; exact hI
  | some i => simp only [State.signalProducer] at h; split at h <;> cases h; exact hI.wakeProducer i

theorem State.RunOk.step {l : Label p c} (hI : s.RunOk)
    (h : (program size file).next s l = some s') : s'.RunOk := by
  cases l with
  | producer i wake =>
    have hi : (s.producer i).ended = false := by
      cases hq : s.producer i with
      | mk pc rest => cases pc <;> first | rfl | simp [program, producerStep, hq] at h
    have hset : ∀ x q, (State.setProducer { s with pipe := x } i q).RunOk := fun x q =>
      State.RunOk.setProducer (s := { s with pipe := x }) hI (by simp [hi])
    obtain ⟨q, rfl, -⟩ | ⟨line, -, ⟨-, rfl⟩ | ⟨-, h⟩⟩ := producerStep_cases h
    · exact hset _ q
    · exact hset _ _
    · exact (hset _ _).signalConsumer h
  | consumer j wake =>
    have hj : (s.consumer j).ended = false := by
      cases hq : s.consumer j with
      | mk pc cancelled => cases pc <;> first | rfl | simp [program, consumerStep, hq] at h
    have hset : ∀ x q, q.ended = false → q.cancelled = (s.consumer j).cancelled →
        (State.setConsumer { s with pipe := x } j q).RunOk := fun x q h1 h2 =>
      State.RunOk.setConsumer (s := { s with pipe := x }) hI (by simp [hj]) h2 (by simp [h1])
    obtain ⟨q, rfl, -, -, -, -, h1, h2⟩ | ⟨-, rfl⟩ | ⟨-, h⟩ := consumerStep_cases h
    · exact hset _ q h1 h2
    · exact hset _ _ rfl rfl
    · have hs := hset s.pipe.pop.2.2 { s.consumer j with pc := .use s.pipe.pop.2.1 } rfl rfl
      exact hs.signalProducer h
  | spuriousProducer i =>
    simp only [program] at h
    split at h <;> cases h
    exact hI.wakeProducer i
  | spuriousConsumer j =>
    simp only [program] at h
    split at h <;> cases h
    exact hI.wakeConsumer j
  | cancel j wake =>
    simp only [program, cancelStep] at h
    split at h
    · rename_i hcan
      have hset : (s.setConsumer j { s.consumer j with pc := .ended }).RunOk :=
        hI.setConsumer (fun _ => rfl) rfl fun _ => hcan
      split at h
      · cases h; exact hset
      · cases h; exact hset
      · exact hset.signalConsumer h
      · cases h
    · cases h
  | main =>
    simp only [program] at h
    split at h <;> cases h
    · exact ProdCons.RunOk.of_run hI ‹_› (fun _ => id) fun _ _ => rfl
    · rename_i j hst
      have hsame := State.setConsumer_ended (s := s) (j := j)
        (q := { s.consumer j with cancelled := true }) rfl
      simp only [RunOk, hsame]
      refine ProdCons.RunOk.of_run hI hst ?_ nofun
      exact (Function.forall_update_iff s.consumer fun k q =>
        (s.consumer k).cancelled = true → q.cancelled = true).mpr ⟨fun _ => rfl, fun _ _ => id⟩

theorem reach_runOk {C : State p c → Label p c → Prop} (h : (program size file).ReachIf C s) :
    s.RunOk := by
  refine h.invariant (fun s h0 => ?_) fun _ _ _ hI _ hn => hI.step hn
  cases h0
  exact runOk_start (fun _ => rfl) fun _ => rfl

end AghOs.ProdCons.Monitor
