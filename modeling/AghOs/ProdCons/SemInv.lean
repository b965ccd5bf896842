import AghOs.Machine.Threads
import AghOs.ProdCons.Sem

/-!
# Invariants of the semaphore build

`State.Inv` holds in every reachable state, also after cancellations. Its four
parts are the mutex, what its holder knows about the buffer, the pipe, and two
counts that say who will still look at the buffer:

* `supply`: every line in the buffer is matched by a token of `consumer_line`,
  by a consumer that is on its way to the buffer, or by a producer that is
  about to post.
* `room`: while a producer waits, or is about to, every free place is matched in
  the same way. (Initially it is not: `producer_line` starts at `0`.)

`reach_ok` adds that the lines keep their order, in runs with `PushesInRange`.
-/

namespace AghOs.ProdCons.Sem

variable {π : Type*}

/-! ## Who counts -/

/-- `1` while the producer holds `buffer_mx`. -/
def Producer.holds (q : Producer) : ℕ :=
  match q.pc with
  | .testFull _ | .unlockFull _ | .push _ | .postLine | .unlock => 1
  | _ => 0

/-- `1` while the consumer holds `buffer_mx`. -/
def Consumer.holds (q : Consumer π) : ℕ :=
  match q.pc with
  | .testEmpty | .unlockEmpty | .pop | .postLine _ | .unlock _ => 1
  | _ => 0

/-- The producer has found the buffer full, and waits or is about to. -/
def Producer.sleeps (q : Producer) : Bool :=
  match q.pc with
  | .unlockFull _ | .waitLine _ => true
  | _ => false

/-- `1` while the producer is on its way to the buffer with a line. -/
def Producer.comes (q : Producer) : ℕ :=
  match q.pc with
  | .lock _ | .testFull _ | .push _ => 1
  | _ => 0

/-- `1` while the producer has pushed and not yet posted `consumer_line`. -/
def Producer.posting (q : Producer) : ℕ :=
  match q.pc with
  | .postLine => 1
  | _ => 0

/-- `1` while the consumer is running and has not found the buffer empty. -/
def Consumer.comes (q : Consumer π) : ℕ :=
  match q.pc with
  | .start | .unlockEmpty | .waitLine | .ended => 0
  | _ => 1

/-- `1` while the consumer has popped and not yet posted `producer_line`. -/
def Consumer.posting (q : Consumer π) : ℕ :=
  match q.pc with
  | .postLine _ => 1
  | _ => 0

/-- What the producer has yet to push. -/
def Producer.toPush (file : Option (List UInt8)) (q : Producer) : List Text :=
  match q.pc with
  | .start => fileLines (file.getD [])
  | .lock line | .testFull line | .unlockFull line | .waitLine line | .push line =>
    line :: fileLines q.rest
  | .read | .postLine | .unlock => fileLines q.rest
  | .ended => []

/-- What the producer knows about the buffer. -/
def Producer.Ok (m : Shared π) (q : Producer) : Prop :=
  match q.pc with
  | .push _ => m.pipe.buffer.bufferLength < m.pipe.buffer.bufferSize
  | _ => True

/-- What the consumer knows about the buffer. -/
def Consumer.Ok (m : Shared π) (q : Consumer π) : Prop :=
  match q.pc with
  | .pop => 0 < m.pipe.buffer.bufferLength
  | _ => True

/-! ## The producers' steps -/

section Producers

variable {file : Option (List UInt8)} {i : π} {m m' : Shared π} {q q' : Producer}

theorem producerStep_mutex (h : producerStep file i m q = .step (m', q')) :
    m'.bufferMx + q'.holds = m.bufferMx + q.holds := by
  unfold producerStep at h
  repeat' split at h
  all_goals cases h
  all_goals simp_all [Producer.holds, semPost]

/-- Only the holder of the mutex touches the pipe. -/
theorem producerStep_pipe (h : producerStep file i m q = .step (m', q')) (hh : q.holds = 0) :
    m'.pipe = m.pipe := by
  unfold producerStep at h
  repeat' split at h
  all_goals cases h
  all_goals simp_all [Producer.holds]

theorem producerStep_toPush (h : producerStep file i m q = .step (m', q')) :
    (∀ line, q.pc ≠ .push line) ∧ m'.pipe = m.pipe ∧ q'.toPush file = q.toPush file ∨
      ∃ line, q.pc = .push line ∧ m'.pipe = (m.pipe.push ⟨i, line⟩).2 ∧
        q.toPush file = line :: q'.toPush file := by
  obtain ⟨pc, rest⟩ := q
  cases pc with
  | push line => cases h; exact .inr ⟨line, rfl, rfl, rfl⟩
  | start =>
    simp only [producerStep] at h
    split at h <;> cases h <;> exact .inl ⟨nofun, rfl, rfl⟩
  | read =>
    simp only [producerStep] at h
    split at h
    · rename_i he
      cases h
      refine .inl ⟨nofun, rfl, ?_⟩
      cases rest with
      | nil => rfl
      | cons c cs => cases he
    · rename_i l rest' hl
      have hf := getline_eq_some hl
      split at h <;> cases h <;> refine .inl ⟨nofun, rfl, ?_⟩
      all_goals simp_all [Producer.toPush]
  | _ =>
    simp only [producerStep] at h
    repeat' split at h
    all_goals cases h
    all_goals exact .inl ⟨nofun, rfl, rfl⟩

theorem producerStep_ok (h : producerStep file i m q = .step (m', q'))
    (hle : m.pipe.buffer.bufferLength ≤ m.pipe.buffer.bufferSize) : q'.Ok m' := by
  unfold producerStep at h
  repeat' split at h
  all_goals cases h
  all_goals try exact trivial
  rename_i hf
  rw [bufferFull_iff] at hf
  exact lt_of_le_of_ne hle hf

/-- A producer posts `consumer_line` for the line it has pushed. -/
theorem producerStep_supply (h : producerStep file i m q = .step (m', q'))
    (hp : ∀ line, q.pc = .push line →
      m'.pipe.buffer.bufferLength = m.pipe.buffer.bufferLength + 1) :
    m'.pipe.buffer.bufferLength + m.consumerLine + q.posting =
      m.pipe.buffer.bufferLength + m'.consumerLine + q'.posting := by
  obtain ⟨pc, rest⟩ := q
  cases pc with
  | push line =>
    cases h
    have hp : (m.pipe.push ⟨i, line⟩).2.buffer.bufferLength = m.pipe.buffer.bufferLength + 1 :=
      hp line rfl
    simp only [Producer.posting]
    omega
  | _ =>
    simp only [producerStep, semPost] at h
    repeat' split at h
    all_goals cases h
    all_goals simp_all [Producer.posting]
    try omega

/-- A producer takes a free place only on its way to the buffer, and goes to
    sleep only when the buffer is full. -/
theorem producerStep_room (h : producerStep file i m q = .step (m', q'))
    (hp : ∀ line, q.pc = .push line →
      m'.pipe.buffer.bufferLength = m.pipe.buffer.bufferLength + 1) :
    (m'.pipe.buffer = m.pipe.buffer ∧ m.pipe.buffer.bufferLength = m.pipe.buffer.bufferSize) ∨
    (m.pipe.buffer.bufferLength + m.producerLine + q.comes ≤
        m'.pipe.buffer.bufferLength + m'.producerLine + q'.comes ∧
      (q'.sleeps = true → q.sleeps = true)) := by
  obtain ⟨pc, rest⟩ := q
  cases pc with
  | push line =>
    cases h
    have hp : (m.pipe.push ⟨i, line⟩).2.buffer.bufferLength = m.pipe.buffer.bufferLength + 1 :=
      hp line rfl
    refine .inr ⟨?_, nofun⟩
    simp only [Producer.comes]
    omega
  | testFull line =>
    simp only [producerStep] at h
    split at h <;> cases h
    · rename_i hf
      exact .inl ⟨rfl, bufferFull_iff.mp hf⟩
    · exact .inr ⟨le_rfl, nofun⟩
  | _ =>
    simp only [producerStep, semPost] at h
    repeat' split at h
    all_goals cases h
    all_goals
      refine .inr ⟨?_, ?_⟩
      · simp_all [Producer.comes]
        try omega
      · simp [Producer.sleeps]

end Producers

/-! ## The consumers' steps -/

section Consumers

variable {m m' : Shared π} {q q' : Consumer π}

theorem consumerStep_mutex (h : consumerStep m q = .step (m', q')) :
    m'.bufferMx + q'.holds = m.bufferMx + q.holds := by
  unfold consumerStep at h
  repeat' split at h
  all_goals cases h
  all_goals simp_all [Consumer.holds, semPost]

theorem consumerStep_pipe (h : consumerStep m q = .step (m', q')) :
    q.pc ≠ .pop ∧ m'.pipe = m.pipe ∨ q.pc = .pop ∧ m'.pipe = m.pipe.pop.2.2 := by
  obtain ⟨pc, cancelled⟩ := q
  cases pc with
  | pop => cases h; exact .inr ⟨rfl, rfl⟩
  | _ =>
    simp only [consumerStep] at h
    repeat' split at h
    all_goals cases h
    all_goals exact .inl ⟨nofun, rfl⟩

theorem Consumer.holds_of_pop (h : q.pc = .pop) : q.holds = 1 := by
  simp [holds, h]

theorem consumerStep_ok (h : consumerStep m q = .step (m', q')) : q'.Ok m' := by
  unfold consumerStep at h
  repeat' split at h
  all_goals cases h
  all_goals try exact trivial
  rename_i he
  rw [bufferEmpty_iff] at he
  exact Nat.pos_of_ne_zero he

/-- A consumer stops coming to the buffer only when it is empty. -/
theorem consumerStep_supply (h : consumerStep m q = .step (m', q'))
    (hp : q.pc = .pop → m'.pipe.buffer.bufferLength ≤ m.pipe.buffer.bufferLength) :
    m'.pipe.buffer.bufferLength = 0 ∨
      m'.pipe.buffer.bufferLength + m.consumerLine + q.comes ≤
        m.pipe.buffer.bufferLength + m'.consumerLine + q'.comes := by
  obtain ⟨pc, cancelled⟩ := q
  cases pc with
  | pop =>
    cases h
    have hp : m.pipe.pop.2.2.buffer.bufferLength ≤ m.pipe.buffer.bufferLength := hp rfl
    simp only [Consumer.comes]
    omega
  | testEmpty =>
    simp only [consumerStep] at h
    split at h <;> cases h
    · rename_i he
      exact .inl (bufferEmpty_iff.mp he)
    · exact .inr le_rfl
  | _ =>
    simp only [consumerStep, semPost] at h
    repeat' split at h
    all_goals cases h
    all_goals
      right
      simp_all [Consumer.comes]
      try omega

/-- A consumer posts `producer_line` for the place it has freed. -/
theorem consumerStep_room (h : consumerStep m q = .step (m', q'))
    (hp : q.pc = .pop → m'.pipe.buffer.bufferLength + 1 = m.pipe.buffer.bufferLength) :
    m.pipe.buffer.bufferLength + m.producerLine + q.posting =
      m'.pipe.buffer.bufferLength + m'.producerLine + q'.posting := by
  obtain ⟨pc, cancelled⟩ := q
  cases pc with
  | pop =>
    cases h
    have hp : m.pipe.pop.2.2.buffer.bufferLength + 1 = m.pipe.buffer.bufferLength := hp rfl
    simp only [Consumer.posting]
    omega
  | _ =>
    simp only [consumerStep, semPost] at h
    repeat' split at h
    all_goals cases h
    all_goals simp_all [Consumer.posting]
    try omega

end Consumers

/-! ## The invariant -/

theorem Producer.Ok.frame {m m' : Shared π} {q : Producer} (h : q.Ok m)
    (hm : m'.pipe = m.pipe ∨ q.holds = 0) : q.Ok m' := by
  obtain ⟨pc, rest⟩ := q
  cases pc with
  | push line =>
    obtain hm | hm := hm
    · simpa only [Ok, hm] using h
    · cases hm
  | _ => trivial

theorem Consumer.Ok.frame {m m' : Shared π} {q : Consumer π} (h : q.Ok m)
    (hm : m'.pipe = m.pipe ∨ q.holds = 0) : q.Ok m' := by
  obtain ⟨pc, cancelled⟩ := q
  cases pc with
  | pop =>
    obtain hm | hm := hm
    · simpa only [Ok, hm] using h
    · cases hm
  | _ => trivial

variable {p c size : ℕ} {file : Fin p → Option (List UInt8)}

/-- What holds between two steps. -/
structure State.Inv (size : ℕ) (file : Fin p → Option (List UInt8)) (s : State p c) : Prop where
  mutex : s.mem.bufferMx + weigh Producer.holds s.producer + weigh Consumer.holds s.consumer = 1
  producers : ∀ i, (s.producer i).Ok s.mem
  consumers : ∀ j, (s.consumer j).Ok s.mem
  pipe : s.mem.pipe.Counts size (fun i => (file i).getD []) fun i => (s.producer i).toPush (file i)
  supply : s.mem.pipe.buffer.bufferLength ≤
    s.mem.consumerLine + weigh Consumer.comes s.consumer + weigh Producer.posting s.producer
  room : (∃ i, (s.producer i).sleeps = true) → size ≤ s.mem.pipe.buffer.bufferLength +
    s.mem.producerLine + weigh Producer.comes s.producer + weigh Consumer.posting s.consumer

theorem start_inv : (start p c size).Inv size file := by
  have h0 : ∀ w : Producer → ℕ, w ⟨.start, []⟩ = 0 → weigh w (start p c size).producer = 0 :=
    fun w h => weigh_eq_zero_iff.mpr fun _ => h
  have h1 : ∀ w : Consumer (Fin p) → ℕ, w ⟨.start, false⟩ = 0 →
      weigh w (start p c size).consumer = 0 := fun w h => weigh_eq_zero_iff.mpr fun _ => h
  refine ⟨?_, fun i => trivial, fun j => trivial, Pipe.counts_empty fun i => rfl, Nat.zero_le _, ?_⟩
  · rw [h0 _ rfl, h1 _ rfl]
    rfl
  · rintro ⟨i, hi⟩
    cases hi

section Steps

variable {s : State p c} (hI : s.Inv size file)
include hI

/-- The calls of `buffer_push` succeed. -/
theorem State.Inv.push {i : Fin p} {line : Text} (h : (s.producer i).pc = .push line) :
    s.mem.pipe.buffer.bufferLength < size ∧ (s.mem.pipe.push ⟨i, line⟩).1 = 0 ∧
      (s.mem.pipe.push ⟨i, line⟩).2.buffer.bufferLength = s.mem.pipe.buffer.bufferLength + 1 := by
  have hlt := hI.producers i
  simp only [Producer.Ok, h, hI.pipe.size_eq] at hlt
  exact ⟨hlt, hI.pipe.push_length hlt _⟩

omit hI in
/-- The calls of `buffer_pop` succeed. -/
theorem Consumer.Ok.pop {m : Shared (Fin p)} {q : Consumer (Fin p)} (hq : q.Ok m)
    (h : q.pc = .pop) : 0 < m.pipe.buffer.bufferLength ∧ m.pipe.pop.1 = 0 ∧
      m.pipe.pop.2.2.buffer.bufferLength + 1 = m.pipe.buffer.bufferLength := by
  simp only [Ok, h] at hq
  exact ⟨hq, Pipe.pop_length hq⟩

theorem State.Inv.producer_step {i : Fin p} {m' : Shared (Fin p)} {q' : Producer}
    (h : producerStep (file i) i s.mem (s.producer i) = .step (m', q')) :
    State.Inv size file { s with mem := m', producer := Function.update s.producer i q' } := by
  have hmx := producerStep_mutex h
  have hlen : ∀ line, (s.producer i).pc = .push line →
      m'.pipe.buffer.bufferLength = s.mem.pipe.buffer.bufferLength + 1 := by
    intro line hpc
    obtain ⟨hne, -, -⟩ | ⟨line', hpc', hp, -⟩ := producerStep_toPush h
    · exact absurd hpc (hne line)
    · rw [hp]
      exact (hI.push hpc').2.2
  have hpipe : m'.pipe.Counts size (fun i => (file i).getD []) fun k =>
      (Function.update s.producer i q' k).toPush (file k) := by
    obtain ⟨-, hp, ht⟩ | ⟨line, hpc, hp, ht⟩ := producerStep_toPush h
    · rw [hp]
      refine hI.pipe.congr fun k => ?_
      by_cases hki : k = i
      · subst hki; simpa using ht
      · simp [Function.update_of_ne hki]
    · rw [hp]
      refine hI.pipe.push (hI.push hpc).1 (by simpa using ht) fun k hki => ?_
      simp [Function.update_of_ne hki]
  -- the mutex keeps the others from relying on what the step changes
  have hframe : m'.pipe = s.mem.pipe ∨ (∀ k, k ≠ i → (s.producer k).holds = 0) ∧
      ∀ j, (s.consumer j).holds = 0 := by
    by_cases hh : (s.producer i).holds = 0
    · exact .inl (producerStep_pipe h hh)
    · have hone := hI.mutex
      have hle := le_weigh Producer.holds s.producer i
      refine .inr ⟨fun k hki => ?_, fun j => ?_⟩
      · by_contra hk
        exact hki (eq_of_weigh_le_one (w := Producer.holds) (t := s.producer) (by omega)
          (Nat.pos_of_ne_zero hk) (Nat.pos_of_ne_zero hh))
      · have := le_weigh Consumer.holds s.consumer j
        omega
  have w1 := weigh_update Producer.holds s.producer i q'
  have w2 := weigh_update Producer.posting s.producer i q'
  have w3 := weigh_update Producer.comes s.producer i q'
  have hsup := producerStep_supply h hlen
  have hle : s.mem.pipe.buffer.bufferLength ≤ s.mem.pipe.buffer.bufferSize := by
    rw [hI.pipe.size_eq]
    exact hI.pipe.length_le
  refine ⟨?_, fun k => ?_, fun j => ?_, hpipe, ?_, ?_⟩
  · have := hI.mutex
    simp only
    omega
  · by_cases hki : k = i
    · subst hki
      simpa using producerStep_ok h hle
    · simp only [Function.update_of_ne hki]
      exact (hI.producers k).frame (hframe.imp_right fun hf => hf.1 k hki)
  · exact (hI.consumers j).frame (hframe.imp_right fun hf => hf.2 j)
  · have := hI.supply
    simp only
    omega
  · rintro ⟨k, hk⟩
    obtain ⟨hb, hfull⟩ | ⟨hroom, hsl⟩ := producerStep_room h hlen
    · rw [hI.pipe.size_eq] at hfull
      simp only [hb]
      omega
    · have hex : ∃ i, (s.producer i).sleeps = true := by
        by_cases hki : k = i
        · subst hki
          exact ⟨k, hsl (by simpa using hk)⟩
        · exact ⟨k, by simpa [Function.update_of_ne hki] using hk⟩
      have := hI.room hex
      simp only
      omega

theorem State.Inv.consumer_step {j : Fin c} {m' : Shared (Fin p)} {q' : Consumer (Fin p)}
    (h : consumerStep s.mem (s.consumer j) = .step (m', q')) :
    State.Inv size file { s with mem := m', consumer := Function.update s.consumer j q' } := by
  have hmx := consumerStep_mutex h
  have hlen : (s.consumer j).pc = .pop →
      m'.pipe.buffer.bufferLength + 1 = s.mem.pipe.buffer.bufferLength := by
    intro hpc
    obtain ⟨hne, -⟩ | ⟨-, hp⟩ := consumerStep_pipe h
    · exact absurd hpc hne
    · rw [hp]
      exact ((hI.consumers j).pop hpc).2.2
  have hpipe : m'.pipe.Counts size (fun i => (file i).getD []) fun i =>
      (s.producer i).toPush (file i) := by
    obtain ⟨-, hp⟩ | ⟨hpc, hp⟩ := consumerStep_pipe h <;> rw [hp]
    · exact hI.pipe
    · exact hI.pipe.pop ((hI.consumers j).pop hpc).1
  have hframe : m'.pipe = s.mem.pipe ∨ (∀ i, (s.producer i).holds = 0) ∧
      ∀ k, k ≠ j → (s.consumer k).holds = 0 := by
    obtain ⟨-, hp⟩ | ⟨hpc, -⟩ := consumerStep_pipe h
    · exact .inl hp
    · have hone := hI.mutex
      have hh := Consumer.holds_of_pop hpc
      have hle := le_weigh Consumer.holds s.consumer j
      refine .inr ⟨fun i => ?_, fun k hkj => ?_⟩
      · have := le_weigh Producer.holds s.producer i
        omega
      · by_contra hk
        exact hkj (eq_of_weigh_le_one (w := Consumer.holds) (t := s.consumer) (by omega)
          (Nat.pos_of_ne_zero hk) (by omega))
  have w1 := weigh_update Consumer.holds s.consumer j q'
  have w2 := weigh_update Consumer.posting s.consumer j q'
  have w3 := weigh_update Consumer.comes s.consumer j q'
  have hroom := consumerStep_room h hlen
  refine ⟨?_, fun i => ?_, fun k => ?_, hpipe, ?_, fun hs => ?_⟩
  · have := hI.mutex
    simp only
    omega
  · exact (hI.producers i).frame (hframe.imp_right fun hf => hf.1 i)
  · by_cases hkj : k = j
    · subst hkj
      simpa using consumerStep_ok h
    · simp only [Function.update_of_ne hkj]
      exact (hI.consumers k).frame (hframe.imp_right fun hf => hf.2 k hkj)
  · have := hI.supply
    obtain h0 | hsup := consumerStep_supply h fun hpc => (hlen hpc).le.trans' (Nat.le_succ _)
    · simp only [h0]
      omega
    · simp only
      omega
  · have := hI.room hs
    simp only
    omega

/-- A change to a consumer that does not count keeps the invariant. -/
theorem State.Inv.setConsumer {j : Fin c} {q' : Consumer (Fin p)} {main : MainPc}
    (hok : q'.Ok s.mem) (h1 : q'.holds = (s.consumer j).holds)
    (h2 : q'.comes = (s.consumer j).comes) (h3 : q'.posting = (s.consumer j).posting) :
    State.Inv size file { s with consumer := Function.update s.consumer j q', main := main } := by
  refine ⟨?_, hI.producers, fun k => ?_, hI.pipe, ?_, ?_⟩
  · rw [weigh_update_of_eq h1]
    exact hI.mutex
  · by_cases hkj : k = j
    · subst hkj; simpa using hok
    · simpa [Function.update_of_ne hkj] using hI.consumers k
  · rw [weigh_update_of_eq h2]
    exact hI.supply
  · rw [weigh_update_of_eq h3]
    exact hI.room

end Steps

/-- A consumer that acts on its cancellation counts for what an ended one does. -/
theorem Consumer.ended_counts {q : Consumer π} (h : q.pc.Cancelable) :
    (⟨.ended, q.cancelled⟩ : Consumer π).holds = q.holds ∧
      (⟨.ended, q.cancelled⟩ : Consumer π).comes = q.comes ∧
      (⟨.ended, q.cancelled⟩ : Consumer π).posting = q.posting := by
  obtain ⟨pc, cancelled⟩ := q
  cases pc <;>
    first
      | exact h.elim
      | exact ⟨rfl, rfl, rfl⟩

theorem State.Inv.step {s s' : State p c} {l : Label p c} (hI : s.Inv size file)
    (h : (program size file).next s l = some s') : s'.Inv size file := by
  obtain ⟨i, m', q', hst, rfl⟩ | ⟨j, m', q', hst, rfl⟩ | ⟨j, -, -, hc, rfl⟩ | ⟨main, -, rfl⟩ |
    ⟨main, j, -, rfl⟩ := program_next_cases h
  · exact hI.producer_step hst
  · exact hI.consumer_step hst
  · obtain ⟨h1, h2, h3⟩ := Consumer.ended_counts hc
    exact hI.setConsumer trivial h1 h2 h3
  · exact ⟨hI.mutex, hI.producers, hI.consumers, hI.pipe, hI.supply, hI.room⟩
  · exact hI.setConsumer (hI.consumers j) rfl rfl rfl

theorem reach_inv {C : State p c → Label p c → Prop} {s : State p c}
    (h : (program size file).ReachIf C s) : s.Inv size file :=
  h.invariant (fun _ h0 => h0 ▸ start_inv) fun _ _ _ hI _ hn => hI.step hn

/-! ## The order of the lines -/

/-- A push finds the index of its place to be an `int`. -/
def PushesInRange (s : State p c) : Label p c → Prop
  | .producer i => ∀ line, (s.producer i).pc = .push line → s.mem.pipe.buffer.InRange
  | _ => True

/-- Up to `2 ^ 30` places every push does. -/
theorem State.Inv.pushesInRange {s : State p c} (hI : s.Inv size file) (hsize : size ≤ 2 ^ 30)
    (l : Label p c) : PushesInRange s l := by
  cases l with
  | producer i => exact fun line hpc => hI.pipe.inRange hsize (hI.push hpc).1
  | _ => trivial

/-- A step whose push is in range keeps the order. -/
theorem ordered_step {s s' : State p c} {l : Label p c} (hI : s.Inv size file)
    (ho : s.mem.pipe.Ordered) (hr : PushesInRange s l)
    (h : (program size file).next s l = some s') : s'.mem.pipe.Ordered := by
  cases l with
  | producer i =>
    simp only [program] at h
    split at h <;> cases h
    rename_i m q hst
    obtain ⟨-, hp, -⟩ | ⟨line, hpc, hp, -⟩ := producerStep_toPush hst
    · exact hp ▸ ho
    · have hlt := (hI.push hpc).1
      show m.pipe.Ordered
      rw [hp]
      exact ho.push (hlt.trans_eq hI.pipe.size_eq.symm) (hr line hpc) _
  | consumer j =>
    simp only [program] at h
    split at h <;> cases h
    rename_i m q hst
    obtain ⟨-, hp⟩ | ⟨hpc, hp⟩ := consumerStep_pipe hst
    · exact hp ▸ ho
    · exact hp ▸ ho.pop ((hI.consumers j).pop hpc).1
  | cancel j =>
    simp only [program] at h
    split at h <;> cases h
    exact ho
  | main =>
    simp only [program] at h
    split at h <;> cases h <;> exact ho

/-- As long as the pushes are in range, the pipe is a queue. -/
theorem reach_ok {C : State p c → Label p c → Prop} (hC : ∀ s l, C s l → PushesInRange s l)
    {s : State p c} (h : (program size file).ReachIf C s) :
    s.mem.pipe.Ok size (fun i => (file i).getD []) fun i => (s.producer i).toPush (file i) := by
  have ho : s.mem.pipe.Ordered :=
    h.invariant_of (I := fun s : State p c => s.mem.pipe.Ordered) (fun _ => reach_inv)
      (fun _ h0 => h0 ▸ Pipe.ordered_empty)
      fun _ _ _ hI _ ho hc hn => ordered_step hI ho (hC _ _ hc) hn
  exact ⟨(reach_inv h).pipe, ho⟩

theorem reach_ok_of_size_le (hsize : size ≤ 2 ^ 30) {s : State p c}
    (h : (program size file).Reach s) :
    s.mem.pipe.Ok size (fun i => (file i).getD []) fun i => (s.producer i).toPush (file i) :=
  reach_ok (fun _ _ => id) (h.mono_of fun _ l hs _ => (reach_inv hs).pushesInRange hsize l)

/-! ## The main thread -/

/-- `run` can rely on its threads. -/
def State.RunOk (s : State p c) : Prop :=
  ProdCons.RunOk s.main (fun i => (s.producer i).ended) (fun j => (s.consumer j).ended)
    fun j => (s.consumer j).cancelled

theorem producerStep_not_ended {file : Option (List UInt8)} {i : π} {m : Shared π} {q : Producer}
    {r : Shared π × Producer} (h : producerStep file i m q = .step r) : q.ended = false := by
  obtain ⟨pc, rest⟩ := q
  cases pc <;> first | rfl | cases h

theorem consumerStep_not_ended {m m' : Shared π} {q q' : Consumer π}
    (h : consumerStep m q = .step (m', q')) :
    q.ended = false ∧ q'.ended = false ∧ q'.cancelled = q.cancelled := by
  obtain ⟨pc, cancelled⟩ := q
  cases pc with
  | ended => cases h
  | _ =>
    simp only [consumerStep] at h
    repeat' split at h
    all_goals cases h
    all_goals exact ⟨rfl, rfl, rfl⟩

/-- A consumer that moves has not ended, and ends only if it is cancelled. -/
theorem State.RunOk.setConsumer {s : State p c} (hI : s.RunOk) {j : Fin c} {q : Consumer (Fin p)}
    {m : Shared (Fin p)} (h1 : (s.consumer j).ended = true → q.ended = true)
    (h2 : q.cancelled = (s.consumer j).cancelled)
    (h3 : q.ended = true → (s.consumer j).cancelled = true) :
    State.RunOk { s with mem := m, consumer := Function.update s.consumer j q } := by
  refine ProdCons.RunOk.of_threads hI (fun _ => id) ?_ ?_ ?_
  · exact (Function.forall_update_iff s.consumer fun k q =>
      (s.consumer k).ended = true → q.ended = true).mpr ⟨h1, fun _ _ => id⟩
  · exact (Function.forall_update_iff s.consumer fun k q =>
      q.cancelled = (s.consumer k).cancelled).mpr ⟨h2, fun _ _ => rfl⟩
  · exact (Function.forall_update_iff s.consumer fun k q =>
      q.ended = true → (s.consumer k).cancelled = true).mpr ⟨h3, fun k _ => hI.ended k⟩

/-- A request to cancel ends nobody. -/
theorem State.cancel_ended (s : State p c) (j k : Fin c) :
    ((s.cancel j).consumer k).ended = (s.consumer k).ended :=
  (Function.forall_update_iff s.consumer (b := { s.consumer j with cancelled := true })
    fun k q => q.ended = (s.consumer k).ended).mpr ⟨rfl, fun _ _ => rfl⟩ k

theorem State.RunOk.step {s s' : State p c} {l : Label p c} (hI : s.RunOk)
    (h : (program size file).next s l = some s') : s'.RunOk := by
  obtain ⟨i, m', q', hst, rfl⟩ | ⟨j, m', q', hst, rfl⟩ | ⟨j, -, hj, -, rfl⟩ | ⟨main, hst, rfl⟩ |
    ⟨main, j, hst, rfl⟩ := program_next_cases h
  · have hi := producerStep_not_ended hst
    refine ProdCons.RunOk.of_threads hI (fun k hk => ?_) (fun _ => id) (fun _ => rfl) hI.ended
    have hki : k ≠ i := by rintro rfl; simp [hi] at hk
    simpa [Function.update_of_ne hki] using hk
  · obtain ⟨h1, h2, h3⟩ := consumerStep_not_ended hst
    refine hI.setConsumer (fun hj => ?_) h3 fun hq => ?_
    · rw [h1] at hj
      cases hj
    · rw [h2] at hq
      cases hq
  · exact hI.setConsumer (fun _ => rfl) rfl fun _ => hj
  · exact ProdCons.RunOk.of_run hI hst (fun _ => id) fun _ _ => rfl
  · simp only [RunOk, s.cancel_ended]
    refine ProdCons.RunOk.of_run hI hst ?_ nofun
    exact (Function.forall_update_iff s.consumer fun k q =>
      (s.consumer k).cancelled = true → q.cancelled = true).mpr ⟨fun _ => rfl, fun _ _ => id⟩

theorem reach_runOk {C : State p c → Label p c → Prop} {s : State p c}
    (h : (program size file).ReachIf C s) : s.RunOk := by
  refine h.invariant (fun s h0 => ?_) fun _ _ _ hI _ hn => hI.step hn
  cases h0
  exact runOk_start (fun _ => rfl) fun _ => rfl

end AghOs.ProdCons.Sem
