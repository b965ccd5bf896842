import AghOs.ProdCons.Fifo
import AghOs.ProdCons.Overflow

/-!
# When the index of a push overflows

`buffer_push` adds two `int`s (`cw09/zad1/src/buffer.c`, line 41). In a buffer with
`2 ^ 31 - 1` places the sum reaches `2 ^ 31` when two lines have been popped and all
places but one are taken; the pointer is then stored before the array, and the
place of the line keeps what was there.

* `index_overflows`: it happens, in both builds.
-/

namespace AghOs.ProdCons

open Relation (ReflTransGen)

/-- `INT_MAX` -/
def intMax : ℕ := 2 ^ 31 - 1

/-- `k` lines `a`, and the line `b`. -/
def linesThenB (k : ℕ) : List UInt8 := (List.replicate k [97, newline]).flatten ++ [98, newline]

theorem linesThenB_succ (k : ℕ) : linesThenB (k + 1) = 97 :: newline :: linesThenB k := by
  rw [linesThenB, List.replicate_succ, List.flatten_cons]
  rfl

/-- The lines of the only producer, and null pointers. -/
def IsA (x : Option (Line (Fin 1))) : Prop := x = none ∨ x = some ⟨0, [97]⟩

/-- The buffer has `start` and `length` as counters, and nothing but lines `a` in it. -/
structure Holding (start length : ℕ) (b : Buffer (Line (Fin 1))) : Prop where
  size : b.bufferSize = intMax
  start : b.bufferStart = start
  length : b.bufferLength = length
  cells : ∀ i, IsA (b.buffer i)

section

variable {start length : ℕ} {q : Pipe (Fin 1)}

theorem Holding.room (h : Holding start length q.buffer) (hlt : length < intMax) :
    bufferFull q.buffer = false :=
  bufferFull_of_lt (by rw [h.size, h.length]; exact hlt)

/-- Wherever the pointer to a line `a` is stored. -/
theorem Holding.store (h : Holding start length q.buffer) (cell : ℤ) (i : ℕ) :
    IsA (q.buffer.store cell ⟨0, [97]⟩ i) := by
  unfold Buffer.store
  split
  · by_cases hi : i = cell.toNat
    · rw [hi, Function.update_self]
      exact .inr rfl
    · rw [Function.update_of_ne hi]
      exact h.cells i
  · exact h.cells i

theorem Holding.push (h : Holding start length q.buffer) (hlt : length < intMax) :
    Holding start (length + 1) (q.push ⟨0, [97]⟩).2.buffer := by
  obtain ⟨-, hlen, hstart, hsize⟩ := bufferPush_length
    (b := q.buffer) (by rw [h.size, h.length]; exact hlt) ⟨0, [97]⟩
  refine ⟨hsize.trans h.size, hstart.trans h.start, hlen.trans ?_, fun i => ?_⟩
  · rw [h.length]
  · show IsA ((bufferPush q.buffer _).2.buffer i)
    simp only [bufferPush_room (h.room hlt)]
    exact h.store _ i

theorem Holding.pop (h : Holding start (length + 1) q.buffer) (hs : start + 1 < intMax) :
    Holding (start + 1) length q.pop.2.2.buffer := by
  have hpos : 0 < q.buffer.bufferLength := by rw [h.length]; exact Nat.succ_pos _
  obtain ⟨-, -, hstart, hsize⟩ := bufferPop_content hpos
  have hlen := (Pipe.pop_length hpos).2
  refine ⟨hsize.trans h.size, ?_, ?_, fun i => ?_⟩
  · show (bufferPop q.buffer).2.2.bufferStart = start + 1
    rw [hstart, h.start, h.size, Nat.mod_eq_of_lt hs]
  · rw [h.length] at hlen
    exact Nat.succ.inj hlen
  · have he : bufferEmpty q.buffer = false := by
      rw [Bool.eq_false_iff, ne_eq, bufferEmpty_iff]
      exact hpos.ne'
    have hcells : q.pop.2.2.buffer.buffer = q.buffer.buffer := by
      simp only [Pipe.pop, bufferPop, he]
      rfl
    rw [hcells]
    exact h.cells i

/-- With two lines popped and one place left, the next line is stored before the
    array. -/
theorem Holding.wraps (h : Holding 2 (intMax - 1) q.buffer) :
    ¬(q.push ⟨0, [98]⟩).2.Ordered := by
  have hlt : intMax - 1 < intMax := by decide
  have hcell : bufferAt q.buffer (toInt (q.buffer.bufferStart + q.buffer.bufferLength)) = -1 := by
    rw [bufferAt, h.size, h.start, h.length]
    decide +kernel
  have hroom := bufferPush_room (h.room hlt) (⟨0, [98]⟩ : Line (Fin 1))
  have hstore : q.buffer.store (-1) (⟨0, [98]⟩ : Line (Fin 1)) = q.buffer.buffer :=
    if_neg (by decide)
  rw [hcell, hstore] at hroom
  intro ho
  have hlast := congrArg List.getLast? ho
  have hpushed : (q.push ⟨0, [98]⟩).2.pushed = q.pushed ++ [⟨0, [98]⟩] :=
    Pipe.push_pushed (by rw [h.size, h.length]; exact hlt) _
  have hcontent : (q.push ⟨0, [98]⟩).2.buffer.content =
      ringList q.buffer.buffer q.buffer.bufferSize q.buffer.bufferStart
        (q.buffer.bufferLength + 1) := by
    simp only [Pipe.push, hroom, Buffer.content]
  rw [hpushed, hcontent, ringList, List.range_succ, List.map_append, List.map_append,
    ← List.append_assoc] at hlast
  simp only [List.map_cons, List.map_nil, List.getLast?_concat, Option.some.injEq] at hlast
  obtain hno | ha := h.cells ((q.buffer.bufferStart + q.buffer.bufferLength) % q.buffer.bufferSize)
  · rw [hno] at hlast
    cases hlast
  · rw [ha] at hlast
    exact absurd hlast (by decide)

end

/-! ## The semaphore build -/

namespace Sem

variable (file : Fin 1 → Option (List UInt8)) {start length tokens : ℕ}
  {pc : ConsumerPc (Fin 1)} {rest : List UInt8} {s : State 1 1}

/-- The producer is about to read `rest`, `start` lines have been popped, `length` are in
    the buffer, and `consumer_line` is at `tokens`. -/
structure State.Filled (start length tokens : ℕ) (pc : ConsumerPc (Fin 1)) (rest : List UInt8)
    (s : State 1 1) : Prop where
  producer : s.producer 0 = ⟨.read, rest⟩
  consumer : s.consumer 0 = ⟨pc, false⟩
  bufferMx : s.mem.bufferMx = 1
  producerLine : s.mem.producerLine = start
  consumerLine : s.mem.consumerLine = tokens
  buffer : Holding start length s.mem.pipe.buffer

/-- The producer takes a line `a` all the way. -/
theorem State.Filled.push (h : s.Filled start length tokens pc (97 :: newline :: rest))
    (hlt : length < intMax) (ht : tokens < semValueMax) :
    ∃ s', ReflTransGen (Moves file) s s' ∧ s'.Filled start (length + 1) (tokens + 1) pc rest := by
  have hread : ReflTransGen (ProducerMoves (file 0) 0) (s.mem, s.producer 0)
      (s.mem, ⟨.lock [97], rest⟩) := by
    rw [h.producer]
    exact .single rfl
  have hpush : ReflTransGen (ProducerMoves (file 0) 0) (s.mem, ⟨.lock [97], rest⟩)
      ({ s.mem with bufferMx := 0, pipe := (s.mem.pipe.push ⟨0, [97]⟩).2 }, ⟨.postLine, rest⟩) :=
    push_phase h.bufferMx (h.buffer.room hlt)
  have hmoves := (hread.trans hpush).trans (post_phase rfl (h.consumerLine.trans_lt ht))
  refine ⟨_, moves_producer hmoves, ?_⟩
  refine ⟨by simp only [Function.update_self], h.consumer, rfl, h.producerLine, ?_,
    h.buffer.push hlt⟩
  exact congrArg (· + 1) h.consumerLine

/-- The consumer takes a line. -/
theorem State.Filled.pop (h : s.Filled start (length + 1) tokens .lock rest)
    (hs : start + 1 < intMax) :
    ∃ s', ReflTransGen (Moves file) s s' ∧ s'.Filled (start + 1) length tokens .lock rest := by
  have hempty : bufferEmpty s.mem.pipe.buffer = false := by
    rw [Bool.eq_false_iff, ne_eq, bufferEmpty_iff, h.buffer.length]
    exact Nat.succ_ne_zero _
  have hlt : s.mem.producerLine < semValueMax := by
    rw [h.producerLine]
    exact (Nat.lt_succ_self start).trans hs
  have hmoves := consume_phase (b := false) h.bufferMx hempty hlt
  rw [← h.consumer] at hmoves
  refine ⟨_, moves_consumer hmoves, ?_⟩
  refine ⟨h.producer, by simp only [Function.update_self, h.consumer], h.bufferMx, ?_,
    h.consumerLine, h.buffer.pop hs⟩
  exact congrArg (· + 1) h.producerLine

/-- The consumer takes the token it has waited for. -/
theorem State.Filled.wake (h : s.Filled start length (tokens + 1) .waitLine rest) :
    ∃ s', ReflTransGen (Moves file) s s' ∧ s'.Filled start length tokens .lock rest := by
  have hstep : consumerStep s.mem (s.consumer 0) =
      .step ({ s.mem with consumerLine := tokens }, ⟨.lock, false⟩) := by
    simp only [consumerStep, h.consumer, h.consumerLine]
  exact ⟨_, .single (.consumer hstep), h.producer, by simp only [Function.update_self], h.bufferMx,
    h.producerLine, rfl, h.buffer⟩

/-- The consumer waits, and the producer opens its file. -/
theorem exists_filled_zero (hfile : file 0 = some rest) :
    ∃ s, ReflTransGen (Moves file) (ProdCons.Sem.start 1 1 intMax) s ∧
      s.Filled 0 0 0 .waitLine rest := by
  have hwait : ReflTransGen ConsumerMoves
      ((⟨Pipe.empty intMax, 1, 0, 0⟩ : Shared (Fin 1)), ⟨.start, false⟩)
      (⟨Pipe.empty intMax, 1, 0, 0⟩, ⟨.waitLine, false⟩) := by
    have h1 : ConsumerMoves ((⟨Pipe.empty intMax, 1, 0, 0⟩ : Shared (Fin 1)), ⟨.start, false⟩)
        (⟨Pipe.empty intMax, 1, 0, 0⟩, ⟨.lock, false⟩) := rfl
    exact (((ReflTransGen.single h1).tail rfl).tail rfl).tail rfl
  have hopen : ReflTransGen (ProducerMoves (file 0) 0)
      ((⟨Pipe.empty intMax, 1, 0, 0⟩ : Shared (Fin 1)), ⟨.start, []⟩)
      (⟨Pipe.empty intMax, 1, 0, 0⟩, ⟨.read, rest⟩) := by
    refine .single ?_
    rw [ProducerMoves, hfile]
    rfl
  have hconsumer : ReflTransGen (Moves file) (ProdCons.Sem.start 1 1 intMax) _ :=
    moves_consumer (j := 0) hwait
  exact ⟨_, hconsumer.trans (moves_producer (i := 0) hopen), by simp only [Function.update_self], by simp only [Function.update_self], rfl,
    rfl, rfl, rfl, rfl, rfl, fun _ => .inl rfl⟩

/-- The producer goes on alone. -/
theorem State.Filled.fill (k : ℕ) : ∀ {length tokens : ℕ} {s : State 1 1},
    s.Filled start length tokens pc (linesThenB k) → length + k ≤ intMax →
    tokens + k ≤ semValueMax → ∃ s', ReflTransGen (Moves file) s s' ∧
      s'.Filled start (length + k) (tokens + k) pc (linesThenB 0) := by
  induction k with
  | zero => exact fun h _ _ => ⟨_, .refl, h⟩
  | succ k ih =>
    intro length tokens s h hl ht
    rw [linesThenB_succ] at h
    obtain ⟨s₁, hs₁, h₁⟩ := h.push file (by omega) (by omega)
    obtain ⟨s₂, hs₂, h₂⟩ := ih h₁ (by omega) (by omega)
    refine ⟨s₂, hs₁.trans hs₂, ?_⟩
    rwa [Nat.add_right_comm, Nat.add_right_comm tokens] at h₂

/-- A state in which a line has been stored before the array. -/
theorem exists_not_ordered (hfile : file 0 = some (linesThenB (2 ^ 31))) :
    ∃ s : State 1 1, (program intMax file).Reach s ∧ ¬s.mem.pipe.Ordered := by
  have hsplit : (2 ^ 31 : ℕ) = intMax - 1 + 1 + 1 := by decide
  rw [hsplit, linesThenB_succ, linesThenB_succ] at hfile
  obtain ⟨s₀, hs₀, h₀⟩ := exists_filled_zero file hfile
  obtain ⟨s₁, hs₁, h₁⟩ := h₀.push file (by decide) (by decide)
  obtain ⟨s₂, hs₂, h₂⟩ := h₁.wake file
  obtain ⟨s₃, hs₃, h₃⟩ := h₂.pop file (by decide)
  obtain ⟨s₄, hs₄, h₄⟩ := h₃.push file (by decide) (by decide)
  obtain ⟨s₅, hs₅, h₅⟩ := h₄.pop file (by decide)
  obtain ⟨s₆, hs₆, h₆⟩ := State.Filled.fill file _ h₅ (by decide) (by decide)
  have hread : ReflTransGen (ProducerMoves (file 0) 0) (s₆.mem, s₆.producer 0)
      (s₆.mem, ⟨.lock [98], []⟩) := by
    rw [h₆.producer]
    exact .single rfl
  have hb : Holding 2 (intMax - 1) s₆.mem.pipe.buffer := by
    have hb := h₆.buffer
    rwa [Nat.zero_add] at hb
  have hpush := hread.trans (push_phase h₆.bufferMx (hb.room (by decide)))
  have hmoves := hs₀.trans (hs₁.trans (hs₂.trans (hs₃.trans (hs₄.trans (hs₅.trans (hs₆.trans
    (moves_producer hpush)))))))
  exact ⟨_, moves_reach hmoves (.init rfl), hb.wraps⟩

end Sem

/-! ## The monitor build -/

namespace Monitor

variable {start length : ℕ} {pc : ConsumerPc (Fin 1)} {rest : List UInt8} {s : State 1 1}
  {file : Fin 1 → Option (List UInt8)}

/-- The producer is about to read `rest`, `start` lines have been popped, and `length` are
    in the buffer. -/
structure State.Filled (start length : ℕ) (pc : ConsumerPc (Fin 1)) (rest : List UInt8)
    (s : State 1 1) : Prop where
  producer : s.producer 0 = ⟨.read, rest⟩
  consumer : s.consumer 0 = ⟨pc, false⟩
  buffer : Holding start length s.pipe.buffer

theorem reach_producer {s' : State 1 1} {wake : Option (Fin 1)} (hr : (program intMax file).Reach s)
    (h : producerStep (file 0) 0 wake s = some s') : (program intMax file).Reach s' :=
  Machine.ReachIf.step (l := Label.producer 0 wake) hr trivial h

theorem reach_consumer {s' : State 1 1} (hr : (program intMax file).Reach s)
    (h : consumerStep 0 none s = some s') : (program intMax file).Reach s' :=
  Machine.ReachIf.step (l := Label.consumer 0 none) hr trivial h

/-- The producer has a line to push. -/
theorem State.Filled.read {line : Text} {input : List UInt8} (h : s.Filled start length pc input)
    (hline : ∃ l, getline input = some (l, rest) ∧ strtok l = some line) :
    producerStep (file 0) 0 none s = some (s.setProducer 0 ⟨.lock line, rest⟩) := by
  obtain ⟨l, hl, hline⟩ := hline
  simp only [producerStep, h.producer, hl, hline]

variable (file) in
/-- It pushes the line, and signals. -/
theorem lock_push {line : Text} (wake : Option (Fin 1)) (h : Holding start length s.pipe.buffer)
    (hlt : length < intMax) (hpc : (s.producer 0) = ⟨.lock line, rest⟩) :
    producerStep (file 0) 0 wake s =
      ({ s with pipe := (s.pipe.push ⟨0, line⟩).2 }.setProducer 0
        ⟨.read, rest⟩).signalConsumer wake := by
  have h0 : (s.pipe.push ⟨0, line⟩).1 = 0 :=
    (bufferPush_length (by rw [h.size, h.length]; exact hlt) _).1
  simp only [producerStep, hpc, h0, ne_eq, not_true_eq_false, if_false]

/-- The producer takes a line `a` all the way, and wakes the consumer if it waits. -/
theorem State.Filled.push (hr : (program intMax file).Reach s)
    (h : s.Filled start length pc (97 :: newline :: rest)) (hlt : length < intMax) :
    ∃ s', (program intMax file).Reach s' ∧ s'.Filled start (length + 1)
      (if (s.consumer 0).waiting then .woken else pc) rest := by
  have hread : producerStep (file 0) 0 none s = some (s.setProducer 0 ⟨.lock [97], rest⟩) :=
    h.read ⟨_, rfl, rfl⟩
  have hr₁ := reach_producer hr hread
  have hpc : (s.setProducer 0 ⟨.lock [97], rest⟩).producer 0 = ⟨.lock [97], rest⟩ := by
    simp only [State.setProducer, Function.update_self]
  by_cases hw : (s.consumer 0).waiting = true
  · have hpush := lock_push file (some 0) (s := s.setProducer 0 ⟨.lock [97], rest⟩)
      h.buffer hlt hpc
    rw [State.signalConsumer] at hpush
    refine ⟨_, reach_producer hr₁ (hpush.trans (if_pos hw)), ?_, ?_, h.buffer.push hlt⟩
    · simp only [State.setConsumer, State.setProducer, Function.update_self]
    · have hpcw : pc = .waiting := by
        rw [h.consumer] at hw
        cases pc <;> first | rfl | cases hw
      rw [if_pos hw]
      simp only [State.setConsumer, State.setProducer, Function.update_self, h.consumer, hpcw,
        Consumer.wake]
  · have hpush := lock_push file none (s := s.setProducer 0 ⟨.lock [97], rest⟩)
      h.buffer hlt hpc
    have hall : ∀ j, (s.consumer j).waiting = false := fun j => by
      rw [Subsingleton.elim j 0]
      exact Bool.eq_false_iff.mpr hw
    rw [State.signalConsumer] at hpush
    refine ⟨_, reach_producer hr₁ (hpush.trans (if_pos hall)), ?_, ?_, h.buffer.push hlt⟩
    · simp only [State.setProducer, Function.update_self]
    · rw [if_neg hw]
      exact h.consumer

/-- The consumer takes a line, and comes back to the buffer. -/
theorem State.Filled.pop (hr : (program intMax file).Reach s)
    (h : s.Filled start (length + 1) pc rest) (hpc : pc = .lock ∨ pc = .woken)
    (hs : start + 1 < intMax) :
    ∃ s', (program intMax file).Reach s' ∧ s'.Filled (start + 1) length .lock rest := by
  have hpos : 0 < s.pipe.buffer.bufferLength := by
    rw [h.buffer.length]
    exact Nat.succ_pos _
  have h0 := (Pipe.pop_length hpos).1
  have hall : ∀ i, (s.producer i).waiting = false := fun i => by
    rw [Subsingleton.elim i 0, h.producer]
    rfl
  have hpop : consumerStep 0 none s = some ({ s with pipe := s.pipe.pop.2.2 }.setConsumer 0
      ⟨.use s.pipe.pop.2.1, false⟩) := by
    obtain rfl | rfl := hpc <;>
      simp only [consumerStep, h.consumer, h0, ne_eq, not_true_eq_false, if_false,
        State.signalProducer, State.setConsumer, hall, implies_true, if_true]
  have huse : consumerStep 0 none ({ s with pipe := s.pipe.pop.2.2 }.setConsumer 0
      ⟨.use s.pipe.pop.2.1, false⟩) = some (({ s with pipe := s.pipe.pop.2.2 }.setConsumer 0
      ⟨.use s.pipe.pop.2.1, false⟩).setConsumer 0 ⟨.lock, false⟩) := by
    simp only [consumerStep, State.setConsumer, Function.update_self]
  refine ⟨_, reach_consumer (reach_consumer hr hpop) huse, h.producer, ?_, h.buffer.pop hs⟩
  simp only [State.setConsumer, Function.update_self]

/-- The consumer waits, and the producer opens its file. -/
theorem exists_filled_zero (hfile : file 0 = some rest) :
    ∃ s, (program intMax file).Reach s ∧ s.Filled 0 0 .waiting rest := by
  have h₀ : (program intMax file).Reach (Monitor.start 1 1 intMax) := .init rfl
  have h₁ : (program intMax file).next (Monitor.start 1 1 intMax) (.consumer 0 none) =
      some ((Monitor.start 1 1 intMax).setConsumer 0 ⟨.lock, false⟩) := rfl
  have h₂ : (program intMax file).next ((Monitor.start 1 1 intMax).setConsumer 0 ⟨.lock, false⟩)
      (.consumer 0 none) = some (((Monitor.start 1 1 intMax).setConsumer 0
        ⟨.lock, false⟩).setConsumer 0 ⟨.waiting, false⟩) := rfl
  have h₃ : (program intMax file).next (((Monitor.start 1 1 intMax).setConsumer 0
      ⟨.lock, false⟩).setConsumer 0 ⟨.waiting, false⟩) (.producer 0 none) =
      some ((((Monitor.start 1 1 intMax).setConsumer 0 ⟨.lock, false⟩).setConsumer 0
        ⟨.waiting, false⟩).setProducer 0 ⟨.read, rest⟩) := by
    simp only [program, producerStep, hfile]
    rfl
  exact ⟨_, ((h₀.step h₁).step h₂).step h₃, by
    simp only [State.setProducer, Function.update_self], by
    simp only [State.setProducer, State.setConsumer, Function.update_self], rfl, rfl, rfl,
    fun _ => .inl rfl⟩

/-- The producer goes on alone. -/
theorem State.Filled.fill (k : ℕ) : ∀ {length : ℕ} {s : State 1 1},
    (program intMax file).Reach s → s.Filled start length .lock (linesThenB k) →
    length + k ≤ intMax → ∃ s', (program intMax file).Reach s' ∧
      s'.Filled start (length + k) .lock (linesThenB 0) := by
  induction k with
  | zero => exact fun hr h _ => ⟨_, hr, h⟩
  | succ k ih =>
    intro length s hr h hl
    rw [linesThenB_succ] at h
    obtain ⟨s₁, hr₁, h₁⟩ := h.push hr (by omega)
    have hw : ¬(s.consumer 0).waiting = true := by
      rw [h.consumer]
      exact Bool.false_ne_true
    rw [if_neg hw] at h₁
    obtain ⟨s₂, hr₂, h₂⟩ := ih hr₁ h₁ (by omega)
    refine ⟨s₂, hr₂, ?_⟩
    rwa [Nat.add_right_comm] at h₂

/-- A state in which a line has been stored before the array. -/
theorem exists_not_ordered (hfile : file 0 = some (linesThenB (2 ^ 31))) :
    ∃ s : State 1 1, (program intMax file).Reach s ∧ ¬s.pipe.Ordered := by
  have hsplit : (2 ^ 31 : ℕ) = intMax - 1 + 1 + 1 := by decide
  rw [hsplit, linesThenB_succ, linesThenB_succ] at hfile
  obtain ⟨s₀, hr₀, h₀⟩ := exists_filled_zero hfile
  obtain ⟨s₁, hr₁, h₁⟩ := h₀.push hr₀ (by decide)
  have hw : (s₀.consumer 0).waiting = true := by
    rw [h₀.consumer]
    rfl
  rw [if_pos hw] at h₁
  obtain ⟨s₂, hr₂, h₂⟩ := h₁.pop hr₁ (.inr rfl) (by decide)
  obtain ⟨s₃, hr₃, h₃⟩ := h₂.push hr₂ (by decide)
  have hw : ¬(s₂.consumer 0).waiting = true := by
    rw [h₂.consumer]
    exact Bool.false_ne_true
  rw [if_neg hw] at h₃
  obtain ⟨s₄, hr₄, h₄⟩ := h₃.pop hr₃ (.inl rfl) (by decide)
  obtain ⟨s₅, hr₅, h₅⟩ := State.Filled.fill _ hr₄ h₄ (by decide)
  have hb : Holding 2 (intMax - 1) s₅.pipe.buffer := by
    have hb := h₅.buffer
    rwa [Nat.zero_add] at hb
  have hread : producerStep (file 0) 0 none s₅ = some (s₅.setProducer 0 ⟨.lock [98], []⟩) :=
    h₅.read ⟨_, rfl, rfl⟩
  have hr₆ := reach_producer hr₅ hread
  have hpc : (s₅.setProducer 0 ⟨.lock [98], []⟩).producer 0 = ⟨.lock [98], []⟩ := by
    simp only [State.setProducer, Function.update_self]
  have hpush := lock_push file none (s := s₅.setProducer 0 ⟨.lock [98], []⟩) hb (by decide) hpc
  have hall : ∀ j, (s₅.consumer j).waiting = false := fun j => by
    rw [Subsingleton.elim j 0, h₅.consumer]
    rfl
  rw [State.signalConsumer] at hpush
  exact ⟨_, reach_producer hr₆ (hpush.trans (if_pos hall)), hb.wraps⟩

end Monitor

/-! ## Both builds -/

/-- **The index overflows.** With `2 ^ 31 - 1` places and `2 ^ 31 + 1` lines: the
    consumer pops two lines, the producer fills all places but one, and the next line
    is stored before the array, so that the buffer does not hold the lines that were
    pushed. -/
theorem index_overflows :
    (∃ s : Sem.State 1 1, (Sem.program intMax fun _ => some (linesThenB (2 ^ 31))).Reach s ∧
      s.mem.pipe.popped ++ s.mem.pipe.buffer.content ≠ s.mem.pipe.pushed.map some) ∧
    ∃ s : Monitor.State 1 1,
      (Monitor.program intMax fun _ => some (linesThenB (2 ^ 31))).Reach s ∧
      s.pipe.popped ++ s.pipe.buffer.content ≠ s.pipe.pushed.map some :=
  ⟨Sem.exists_not_ordered _ rfl, Monitor.exists_not_ordered rfl⟩

end AghOs.ProdCons
