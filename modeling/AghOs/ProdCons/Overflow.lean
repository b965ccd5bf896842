import AghOs.ProdCons.TimeLimit

/-!
# When the semaphores overflow

`sem_post_f` (`cw09/zad1/src/main-sem.c`, lines 21–26) ends the process when the
semaphore is at `SEM_VALUE_MAX`. Every push posts `consumer_line` and every pop
posts `producer_line`, but a thread takes a token only if it has found the buffer
empty or full. When it never does, the tokens add up over the whole file.

* `overflow`: a schedule that ends in the overflow, for more than `SEM_VALUE_MAX`
  lines.
* `semaphores_fit_iff`: without it no run overflows, with a time limit or without
  one.
-/

namespace AghOs.ProdCons.Sem

variable {p c size : ℕ} {file : Fin p → Option (List UInt8)}

/-- The lines that the producers have to push together. -/
def totalLines (file : Fin p → Option (List UInt8)) : ℕ :=
  ∑ i, (fileLines ((file i).getD [])).length

/-- The semaphores are in their range, and no `sem_post` of a thread fails. -/
structure Fits (file : Fin p → Option (List UInt8)) (m : Shared (Fin p))
    (producer : Fin p → Producer) (consumer : Fin c → Consumer (Fin p)) : Prop where
  producerLine : m.producerLine ≤ semValueMax
  consumerLine : m.consumerLine ≤ semValueMax
  producers : ∀ i, producerStep (file i) i m (producer i) ≠ .exit
  consumers : ∀ j, consumerStep m (consumer j) ≠ .exit

/-! ## Where the tokens come from -/

section

variable {π : Type*} {i : π} {m m' : Shared π}

theorem producerStep_takes {file : Option (List UInt8)} {q q' : Producer}
    (h : producerStep file i m q = .step (m', q')) :
    m'.producerLine ≤ m.producerLine ∧ m'.pipe.popped = m.pipe.popped := by
  unfold producerStep at h
  repeat' split at h
  all_goals cases h
  all_goals simp_all [Pipe.push]

theorem consumerStep_takes {q q' : Consumer π} (h : consumerStep m q = .step (m', q')) :
    m'.consumerLine ≤ m.consumerLine ∧
      (q.pc ≠ .pop ∧ m'.pipe = m.pipe ∨ q.pc = .pop ∧ m'.pipe = m.pipe.pop.2.2) := by
  refine ⟨?_, consumerStep_pipe h⟩
  unfold consumerStep at h
  repeat' split at h
  all_goals cases h
  all_goals simp_all

theorem producerStep_exit {file : Option (List UInt8)} {q : Producer}
    (h : producerStep file i m q = .exit) :
    q.holds = 1 ∧ semValueMax ≤ m.bufferMx ∨ q.posting = 1 ∧ semValueMax ≤ m.consumerLine := by
  obtain ⟨pc, rest⟩ := q
  unfold producerStep at h
  repeat' split at h
  all_goals first
    | cases h; done
    | simp_all [semPost, Producer.holds, Producer.posting]

theorem consumerStep_exit {q : Consumer π} (h : consumerStep m q = .exit) :
    q.holds = 1 ∧ semValueMax ≤ m.bufferMx ∨ q.posting = 1 ∧ semValueMax ≤ m.producerLine := by
  obtain ⟨pc, cancelled⟩ := q
  unfold consumerStep at h
  repeat' split at h
  all_goals first
    | cases h; done
    | simp_all [semPost, Consumer.holds, Consumer.posting]

end

/-- A pop takes a line out of the buffer. -/
theorem Pipe.pop_count {π : Type*} {q : Pipe π} (h : 0 < q.buffer.bufferLength) :
    q.pop.2.2.popped.length + q.pop.2.2.buffer.bufferLength =
      q.popped.length + q.buffer.bufferLength := by
  have hlen := (Pipe.pop_length h).2
  rw [Pipe.pop_popped h, List.length_append, List.length_singleton]
  omega

/-- A token of `consumer_line` for every push and a token of `producer_line` for
    every pop, at most. -/
structure State.Tokens (s : State p c) : Prop where
  consumerLine : s.mem.consumerLine + weigh Producer.posting s.producer ≤
    s.mem.pipe.popped.length + s.mem.pipe.buffer.bufferLength
  producerLine : s.mem.producerLine + weigh Consumer.posting s.consumer ≤
    s.mem.pipe.popped.length
  nobody : c = 0 → s.mem.pipe.popped = []

section

variable {s : State p c} (hI : s.Inv size file) (hT : s.Tokens)
include hI hT

theorem State.Tokens.producer_step {i : Fin p} {m' : Shared (Fin p)} {q' : Producer}
    (h : producerStep (file i) i s.mem (s.producer i) = .step (m', q')) :
    State.Tokens { s with mem := m', producer := Function.update s.producer i q' } := by
  obtain ⟨hcl, hpl, hno⟩ := hT
  have hlen : ∀ line, (s.producer i).pc = .push line →
      m'.pipe.buffer.bufferLength = s.mem.pipe.buffer.bufferLength + 1 := by
    intro line hpc
    obtain ⟨hne, -, -⟩ | ⟨line', hpc', hp, -⟩ := producerStep_toPush h
    · exact absurd hpc (hne line)
    · rw [hp]
      exact (hI.push hpc').2.2
  have hsup := producerStep_supply h hlen
  obtain ⟨hle, hpop⟩ := producerStep_takes h
  have hw := weigh_update Producer.posting s.producer i q'
  refine ⟨?_, ?_, fun h0 => hpop.trans (hno h0)⟩
  · simp only [hpop]
    omega
  · simp only [hpop]
    omega

theorem State.Tokens.consumer_step {j : Fin c} {m' : Shared (Fin p)} {q' : Consumer (Fin p)}
    (h : consumerStep s.mem (s.consumer j) = .step (m', q')) :
    State.Tokens { s with mem := m', consumer := Function.update s.consumer j q' } := by
  obtain ⟨hcl, hpl, -⟩ := hT
  have hw := weigh_update Consumer.posting s.consumer j q'
  obtain ⟨hle, ⟨hne, hp⟩ | ⟨hpc, hp⟩⟩ := consumerStep_takes h
  · have hroom := consumerStep_room h fun hpc => absurd hpc hne
    rw [hp] at hroom
    refine ⟨?_, ?_, fun h0 => absurd j.isLt (by omega)⟩
    · simp only [hp]
      omega
    · simp only [hp]
      omega
  · obtain ⟨hpos, -, hlen⟩ := (hI.consumers j).pop hpc
    have hcount := Pipe.pop_count hpos
    have hroom := consumerStep_room h fun _ => by rw [hp, hlen]
    rw [hp] at hroom
    refine ⟨?_, ?_, fun h0 => absurd j.isLt (by omega)⟩
    · simp only [hp]
      omega
    · simp only [hp]
      omega

omit hI in
/-- A change to a consumer that does not count keeps the tokens. -/
theorem State.Tokens.setConsumer {j : Fin c} {q' : Consumer (Fin p)} {main : MainPc}
    (h : q'.posting = (s.consumer j).posting) :
    State.Tokens { s with consumer := Function.update s.consumer j q', main := main } := by
  refine ⟨hT.consumerLine, ?_, hT.nobody⟩
  rw [weigh_update_of_eq h]
  exact hT.producerLine

theorem State.Tokens.step {s' : State p c} {l : Label p c}
    (h : (program size file).next s l = some s') : s'.Tokens := by
  obtain ⟨i, m', q', hst, rfl⟩ | ⟨j, m', q', hst, rfl⟩ | ⟨j, -, -, hc, rfl⟩ | ⟨main, -, rfl⟩ |
    ⟨main, j, -, rfl⟩ := program_next_cases h
  · exact hT.producer_step hI hst
  · exact hT.consumer_step hI hst
  · exact hT.setConsumer (Consumer.ended_counts hc).2.2
  · exact ⟨hT.consumerLine, hT.producerLine, hT.nobody⟩
  · exact hT.setConsumer rfl

end

theorem start_tokens : (start p c size).Tokens := by
  have h0 : weigh Producer.posting (start p c size).producer = 0 :=
    weigh_eq_zero_iff.mpr fun _ => rfl
  have h1 : weigh Consumer.posting (start p c size).consumer = 0 :=
    weigh_eq_zero_iff.mpr fun _ => rfl
  refine ⟨?_, ?_, fun _ => rfl⟩
  · rw [h0]
    rfl
  · rw [h1]
    rfl

theorem reach_tokens {s : State p c} (h : (program size file).Reach s) : s.Tokens :=
  h.invariant_of (fun _ => reach_inv) (fun _ h0 => h0 ▸ start_tokens)
    fun _ _ _ hI _ hT _ hn => hT.step hI hn

/-! ## No overflow -/

theorem sum_textsOf (lines : List (Line (Fin p))) :
    ∑ i, (textsOf i lines).length = lines.length := by
  induction lines with
  | nil => simp [textsOf]
  | cons x lines ih =>
    have hcons : ∀ i, (textsOf i (x :: lines)).length =
        (if x.producer = i then 1 else 0) + (textsOf i lines).length := by
      intro i
      by_cases hx : x.producer = i <;> simp [textsOf, hx, Nat.add_comm]
    rw [Finset.sum_congr rfl fun i _ => hcons i, Finset.sum_add_distrib, ih]
    simp [Nat.add_comm]

section

variable {s : State p c} (hI : s.Inv size file)
include hI

/-- What has been pushed and what is still to be pushed are all lines. -/
theorem State.Inv.total :
    s.mem.pipe.pushed.length + ∑ i, ((s.producer i).toPush (file i)).length = totalLines file := by
  rw [← sum_textsOf, ← Finset.sum_add_distrib]
  refine Finset.sum_congr rfl fun i _ => ?_
  rw [← List.length_append, hI.pipe.lines i]

/-- As long as no more than `SEM_VALUE_MAX` lines have been pushed, no post
    fails. -/
theorem State.Inv.fits (hT : s.Tokens) (hle : s.mem.pipe.pushed.length ≤ semValueMax) :
    Fits file s.mem s.producer s.consumer := by
  have hcount := hI.pipe.count
  have hmx := hI.mutex
  have hmax : 1 < semValueMax := by decide
  refine ⟨?_, ?_, fun i h => ?_, fun j h => ?_⟩
  · have := hT.producerLine
    omega
  · have := hT.consumerLine
    omega
  · have hw := le_weigh Producer.holds s.producer i
    have hw' := le_weigh Producer.posting s.producer i
    have := hT.consumerLine
    obtain ⟨h1, h2⟩ | ⟨h1, h2⟩ := producerStep_exit h <;> omega
  · have hw := le_weigh Consumer.holds s.consumer j
    have hw' := le_weigh Consumer.posting s.consumer j
    have := hT.producerLine
    obtain ⟨h1, h2⟩ | ⟨h1, h2⟩ := consumerStep_exit h <;> omega

end

/-- The lines are few, or nobody consumes them and the buffer is small. -/
def Few (c size : ℕ) (file : Fin p → Option (List UInt8)) : Prop :=
  totalLines file ≤ semValueMax ∨ c = 0 ∧ size ≤ semValueMax

theorem Few.fits (h : Few c size file) {s : State p c} (hs : (program size file).Reach s) :
    Fits file s.mem s.producer s.consumer := by
  have hI := reach_inv hs
  have hT := reach_tokens hs
  have htotal := hI.total
  refine hI.fits hT ?_
  obtain h | ⟨h0, h⟩ := h
  · omega
  · have hcount := hI.pipe.count
    rw [hT.nobody h0, List.length_nil] at hcount
    have := hI.pipe.length_le
    omega

/-! ## Steps of one thread -/

/-- A step of a producer or of a consumer. -/
inductive Moves (file : Fin p → Option (List UInt8)) (s : State p c) : State p c → Prop
  | producer {i : Fin p} {m : Shared (Fin p)} {q : Producer}
      (h : producerStep (file i) i s.mem (s.producer i) = .step (m, q)) :
      Moves file s { s with mem := m, producer := Function.update s.producer i q }
  | consumer {j : Fin c} {m : Shared (Fin p)} {q : Consumer (Fin p)}
      (h : consumerStep s.mem (s.consumer j) = .step (m, q)) :
      Moves file s { s with mem := m, consumer := Function.update s.consumer j q }

open Relation (ReflTransGen)

section

variable {s s' : State p c}

theorem moves_reach (h : ReflTransGen (Moves file) s s') (hs : (program size file).Reach s) :
    (program size file).Reach s' := by
  induction h with
  | refl => exact hs
  | tail _ hm ih =>
    cases hm with
    | @producer i m q h => exact ih.step (l := .producer i) (by simp only [program, h])
    | @consumer j m q h => exact ih.step (l := .consumer j) (by simp only [program, h])

/-- The threads take the same steps before the time is up. -/
theorem moves_timed (h : ReflTransGen (Moves file) (start p c size) s) :
    ∃ t, (timedProgram size file).Reach t ∧ t.mem = s.mem ∧ t.producer = s.producer ∧
      t.consumer = s.consumer := by
  induction h with
  | refl => exact ⟨_, .init rfl, rfl, rfl, rfl⟩
  | tail _ hm ih =>
    obtain ⟨t, ht, h1, h2, h3⟩ := ih
    cases hm with
    | @producer i m q h =>
      refine ⟨{ t with mem := m, producer := Function.update t.producer i q },
        ht.step (l := .producer i) ?_, rfl, ?_, h3⟩
      · simp only [timedProgram, h1, h2, h]
      · rw [h2]
    | @consumer j m q h =>
      refine ⟨{ t with mem := m, consumer := Function.update t.consumer j q },
        ht.step (l := .consumer j) ?_, rfl, h2, ?_⟩
      · simp only [timedProgram, h1, h3, h]
      · rw [h3]

/-- Steps of producer `i`. -/
def ProducerMoves {π : Type*} (file : Option (List UInt8)) (i : π)
    (x y : Shared π × Producer) : Prop :=
  producerStep file i x.1 x.2 = .step y

/-- Steps of a consumer. -/
def ConsumerMoves {π : Type*} (x y : Shared π × Consumer π) : Prop :=
  consumerStep x.1 x.2 = .step y

theorem moves_producer {i : Fin p} {x : Shared (Fin p) × Producer}
    (h : ReflTransGen (ProducerMoves (file i) i) (s.mem, s.producer i) x) :
    ReflTransGen (Moves file) s
      { s with mem := x.1, producer := Function.update s.producer i x.2 } := by
  induction h with
  | refl => rw [Function.update_eq_self]
  | @tail x y _ hstep ih =>
    have hm : Moves file { s with mem := x.1, producer := Function.update s.producer i x.2 }
        { s with
          mem := y.1
          producer := Function.update (Function.update s.producer i x.2) i y.2 } :=
      .producer (by simpa [ProducerMoves] using hstep)
    refine ih.tail ?_
    simpa using hm

theorem moves_consumer {j : Fin c} {x : Shared (Fin p) × Consumer (Fin p)}
    (h : ReflTransGen ConsumerMoves (s.mem, s.consumer j) x) :
    ReflTransGen (Moves file) s
      { s with mem := x.1, consumer := Function.update s.consumer j x.2 } := by
  induction h with
  | refl => rw [Function.update_eq_self]
  | @tail x y _ hstep ih =>
    have hm : Moves file { s with mem := x.1, consumer := Function.update s.consumer j x.2 }
        { s with
          mem := y.1
          consumer := Function.update (Function.update s.consumer j x.2) j y.2 } :=
      .consumer (by simpa [ConsumerMoves] using hstep)
    refine ih.tail ?_
    simpa using hm

end

/-! ## A line on its way -/

section

variable {π : Type*} {i : π} {m : Shared π} {input rest : List UInt8} {line : Text}
  {tail : List Text}

theorem getline_lt {l : List UInt8} (h : getline input = some (l, rest)) :
    rest.length < input.length := by
  cases input with
  | nil => cases h
  | cons a as =>
    have h := Option.some.inj h
    obtain ⟨l', -, ⟨-, h2⟩ | ⟨h1, -⟩⟩ := splitLine_spec (a :: as)
    · simp only [h] at h2
      rw [h2, List.length_append, List.length_cons]
      omega
    · rw [h] at h1
      cases h1
      exact Nat.succ_pos _

/-- A producer reads on to its next line. -/
theorem read_phase (file : Option (List UInt8)) (h : fileLines input = line :: tail) :
    ∃ rest, fileLines rest = tail ∧
      ReflTransGen (ProducerMoves file i) (m, ⟨.read, input⟩) (m, ⟨.lock line, rest⟩) := by
  induction hn : input.length using Nat.strong_induction_on generalizing input with
  | _ n ih =>
    subst hn
    cases hg : getline input with
    | none =>
      cases input with
      | nil => cases h
      | cons a as => cases hg
    | some r =>
      obtain ⟨l, rest⟩ := r
      have hlines := getline_eq_some hg
      rw [h] at hlines
      cases ht : strtok l with
      | none =>
        rw [ht] at hlines
        obtain ⟨rest', hrest', hmoves⟩ := ih _ (getline_lt hg) hlines.symm rfl
        refine ⟨rest', hrest', .head ?_ hmoves⟩
        simp only [ProducerMoves, producerStep, hg, ht]
      | some line' =>
        rw [ht] at hlines
        obtain ⟨rfl, rfl⟩ := List.cons.inj hlines
        refine ⟨rest, rfl, .single ?_⟩
        simp only [ProducerMoves, producerStep, hg, ht]

theorem start_phase {file : Option (List UInt8)} {q : Producer}
    (hq : q.pc = .start ∨ q.pc = .read) (h : q.toPush file = line :: tail) :
    ∃ rest, fileLines rest = tail ∧
      ReflTransGen (ProducerMoves file i) (m, q) (m, ⟨.lock line, rest⟩) := by
  obtain ⟨pc, input⟩ := q
  obtain rfl | rfl := hq
  · cases file with
    | none => cases h
    | some input' =>
      obtain ⟨rest, hrest, hmoves⟩ := read_phase (i := i) (m := m) (some input') h
      exact ⟨rest, hrest, .head rfl hmoves⟩
  · exact read_phase file h

/-- It finds a free place, and pushes. -/
theorem push_phase {file : Option (List UInt8)} (hmx : m.bufferMx = 1)
    (hfull : bufferFull m.pipe.buffer = false) :
    ReflTransGen (ProducerMoves file i) (m, ⟨.lock line, rest⟩)
      ({ m with bufferMx := 0, pipe := (m.pipe.push ⟨i, line⟩).2 }, ⟨.postLine, rest⟩) := by
  have h1 : ProducerMoves file i (m, ⟨.lock line, rest⟩)
      ({ m with bufferMx := 0 }, ⟨.testFull line, rest⟩) := by
    simp only [ProducerMoves, producerStep, hmx]
  have h2 : ProducerMoves file i ({ m with bufferMx := 0 }, ⟨.testFull line, rest⟩)
      ({ m with bufferMx := 0 }, ⟨.push line, rest⟩) := by
    simp [ProducerMoves, producerStep, hfull]
  exact (ReflTransGen.single h1).tail h2 |>.tail rfl

/-- It posts for the line, and lets the mutex go. -/
theorem post_phase {file : Option (List UInt8)} (hmx : m.bufferMx = 0)
    (hlt : m.consumerLine < semValueMax) :
    ReflTransGen (ProducerMoves file i) (m, ⟨.postLine, rest⟩)
      ({ m with bufferMx := 1, consumerLine := m.consumerLine + 1 }, ⟨.read, rest⟩) := by
  have hpost : semPost m.consumerLine = some (m.consumerLine + 1) := if_pos hlt
  have hpost' : semPost m.bufferMx = some 1 := by
    rw [hmx]
    exact if_pos (by decide)
  have h1 : ProducerMoves file i (m, ⟨.postLine, rest⟩)
      ({ m with consumerLine := m.consumerLine + 1 }, ⟨.unlock, rest⟩) := by
    simp only [ProducerMoves, producerStep, hpost]
  refine (ReflTransGen.single h1).tail ?_
  simp only [ProducerMoves, producerStep, hpost']

/-- A consumer finds the line, and takes it. -/
theorem consume_phase {b : Bool} (hmx : m.bufferMx = 1) (hempty : bufferEmpty m.pipe.buffer = false)
    (hlt : m.producerLine < semValueMax) :
    ReflTransGen ConsumerMoves (m, ⟨.lock, b⟩)
      ({ m with pipe := m.pipe.pop.2.2, producerLine := m.producerLine + 1 }, ⟨.lock, b⟩) := by
  obtain ⟨pipe, mx, pl, cl⟩ := m
  obtain rfl : mx = 1 := hmx
  have hpost : semPost pl = some (pl + 1) := if_pos hlt
  have hpost' : semPost 0 = some 1 := if_pos (by decide)
  have h1 : ConsumerMoves (⟨pipe, 1, pl, cl⟩, ⟨.lock, b⟩) (⟨pipe, 0, pl, cl⟩, ⟨.testEmpty, b⟩) :=
    rfl
  have h2 : ConsumerMoves (⟨pipe, 0, pl, cl⟩, ⟨.testEmpty, b⟩) (⟨pipe, 0, pl, cl⟩, ⟨.pop, b⟩) := by
    have hempty : bufferEmpty pipe.buffer = false := hempty
    simp [ConsumerMoves, consumerStep, hempty]
  have h3 : ConsumerMoves (⟨pipe.pop.2.2, 0, pl, cl⟩, ⟨.postLine pipe.pop.2.1, b⟩)
      (⟨pipe.pop.2.2, 0, pl + 1, cl⟩, ⟨.unlock pipe.pop.2.1, b⟩) := by
    simp only [ConsumerMoves, consumerStep, hpost]
  have h4 : ConsumerMoves (⟨pipe.pop.2.2, 0, pl + 1, cl⟩, ⟨.unlock pipe.pop.2.1, b⟩)
      (⟨pipe.pop.2.2, 1, pl + 1, cl⟩, ⟨.use pipe.pop.2.1, b⟩) := by
    simp only [ConsumerMoves, consumerStep, hpost']
  exact ((((ReflTransGen.single h1).tail h2).tail rfl).tail h3).tail h4 |>.tail rfl

end

/-! ## The schedule that overflows -/

theorem moves_consume {s : State p c} {j : Fin c} (hlock : (s.consumer j).pc = .lock)
    (hmx : s.mem.bufferMx = 1) (hempty : bufferEmpty s.mem.pipe.buffer = false)
    (hlt : s.mem.producerLine < semValueMax) :
    ReflTransGen (Moves file) s
      { s with
        mem := { s.mem with
          pipe := s.mem.pipe.pop.2.2
          producerLine := s.mem.producerLine + 1 }
        consumer := Function.update s.consumer j ⟨.lock, (s.consumer j).cancelled⟩ } := by
  refine moves_consumer (x := ⟨_, _⟩) ?_
  have hcons : s.consumer j = ⟨.lock, (s.consumer j).cancelled⟩ := by rw [← hlock]
  rw [hcons]
  exact consume_phase hmx hempty hlt

theorem Pipe.push_room {π : Type*} {q : Pipe π} (h : bufferFull q.buffer = false) (line : Line π) :
    (q.push line).2.pushed = q.pushed ++ [line] ∧
      (q.push line).2.buffer.bufferLength = q.buffer.bufferLength + 1 := by
  simp only [Pipe.push, bufferPush_room h, if_true, and_self]

/-- `k` lines have been pushed, and the first consumer has popped each of them without
    having had to wait. -/
structure State.Idle (k : ℕ) (s : State p c) : Prop where
  producers : ∀ i, (s.producer i).pc = .start ∨ (s.producer i).pc = .read
  bufferMx : s.mem.bufferMx = 1
  consumerLine : s.mem.consumerLine = k
  pushed : s.mem.pipe.pushed.length = k
  drained : ∀ j : Fin c, j.val = 0 → (s.consumer j).pc = .lock ∧
    s.mem.pipe.buffer.bufferLength = 0 ∧ s.mem.producerLine = k

section

variable {k : ℕ} {s : State p c}

theorem exists_idle_zero :
    ∃ s, ReflTransGen (Moves file) (start p c size) s ∧ s.Idle 0 := by
  cases c with
  | zero => exact ⟨_, .refl, fun _ => .inl rfl, rfl, rfl, rfl, fun j => j.elim0⟩
  | succ c =>
    refine ⟨_, .single (.consumer (j := 0) rfl), fun _ => .inl rfl, rfl, rfl, rfl, fun j hj => ?_⟩
    obtain rfl : j = 0 := Fin.ext hj
    exact ⟨by simp [start], rfl, rfl⟩

theorem State.Idle.room (h : s.Idle k) (hI : s.Inv size file) (hsize : 1 ≤ size)
    (hk : c ≠ 0 ∨ k < size) : bufferFull s.mem.pipe.buffer = false := by
  have hlt : s.mem.pipe.buffer.bufferLength < size := by
    by_cases hc : c = 0
    · have hcount := hI.pipe.count
      have hpushed := h.pushed
      have hk := hk.resolve_left (not_not_intro hc)
      omega
    · have h0 := (h.drained ⟨0, Nat.pos_of_ne_zero hc⟩ rfl).2.1
      omega
  refine Bool.eq_false_iff.mpr fun hf => ?_
  rw [bufferFull_iff, hI.pipe.size_eq] at hf
  omega

/-- Some producer can push one more line, and is about to post for it. -/
theorem State.Idle.push (h : s.Idle k) (hI : s.Inv size file) (hk : k < totalLines file)
    (hroom : bufferFull s.mem.pipe.buffer = false) :
    ∃ i line rest, ReflTransGen (ProducerMoves (file i) i) (s.mem, s.producer i)
      ({ s.mem with bufferMx := 0, pipe := (s.mem.pipe.push ⟨i, line⟩).2 }, ⟨.postLine, rest⟩) := by
  obtain ⟨i, hi⟩ : ∃ i, (s.producer i).toPush (file i) ≠ [] := by
    by_contra hno
    push Not at hno
    have htotal := hI.total
    have hzero : ∑ i, ((s.producer i).toPush (file i)).length = 0 :=
      Finset.sum_eq_zero fun i _ => by rw [hno i, List.length_nil]
    have hpushed := h.pushed
    omega
  obtain ⟨line, tail, ht⟩ := List.exists_cons_of_ne_nil hi
  obtain ⟨rest, -, hstart⟩ := start_phase (i := i) (m := s.mem) (h.producers i) ht
  exact ⟨i, line, rest, hstart.trans (push_phase h.bufferMx hroom)⟩

/-- The line is posted for, and popped by the first consumer, if there is one. -/
theorem State.Idle.next (h : s.Idle k) (hI : s.Inv size file) (hk : k < totalLines file)
    (hroom : bufferFull s.mem.pipe.buffer = false) (hmax : k < semValueMax) :
    ∃ s', ReflTransGen (Moves file) s s' ∧ s'.Idle (k + 1) := by
  obtain ⟨i, line, rest, hpush⟩ := h.push hI hk hroom
  obtain ⟨hpushed, hlength⟩ := Pipe.push_room hroom ⟨i, line⟩
  have hmoves := moves_producer (hpush.trans (post_phase rfl (h.consumerLine ▸ hmax)))
  have hpc : ∀ k, (Function.update s.producer i ⟨.read, rest⟩ k).pc = .start ∨
      (Function.update s.producer i ⟨.read, rest⟩ k).pc = .read :=
    (Function.forall_update_iff s.producer fun _ q => q.pc = .start ∨ q.pc = .read).mpr
      ⟨.inr rfl, fun k _ => h.producers k⟩
  have hlen : (s.mem.pipe.push ⟨i, line⟩).2.pushed.length = k + 1 := by
    rw [hpushed, List.length_append, h.pushed]
    rfl
  by_cases hc : c = 0
  · subst hc
    exact ⟨_, hmoves, hpc, rfl, congrArg Nat.succ h.consumerLine, hlen, fun j => j.elim0⟩
  · obtain ⟨hlock, h0, hpl⟩ := h.drained ⟨0, Nat.pos_of_ne_zero hc⟩ rfl
    have hpos : 0 < (s.mem.pipe.push ⟨i, line⟩).2.buffer.bufferLength := by omega
    have hone := (Pipe.pop_length hpos).2
    refine ⟨_, hmoves.trans (moves_consume hlock rfl ?_ (hpl ▸ hmax)), hpc, rfl,
      congrArg Nat.succ h.consumerLine, hlen, fun j hj => ?_⟩
    · exact Bool.eq_false_iff.mpr fun he => hpos.ne' (bufferEmpty_iff.mp he)
    · obtain rfl : j = ⟨0, Nat.pos_of_ne_zero hc⟩ := Fin.ext hj
      refine ⟨by simp only [Function.update_self], ?_, congrArg Nat.succ hpl⟩
      show (s.mem.pipe.push ⟨i, line⟩).2.pop.2.2.buffer.bufferLength = 0
      omega

theorem exists_idle (hsize : 1 ≤ size) (hc : c ≠ 0 ∨ semValueMax < size)
    (htotal : semValueMax < totalLines file) (hk : k ≤ semValueMax) :
    ∃ s : State p c, ReflTransGen (Moves file) (start p c size) s ∧ s.Idle k := by
  induction k with
  | zero => exact exists_idle_zero
  | succ k ih =>
    obtain ⟨s, hs, h⟩ := ih (Nat.le_of_succ_le hk)
    have hI := reach_inv (moves_reach hs (.init rfl))
    have hroom := h.room hI hsize (hc.imp_right fun hlt => (Nat.lt_of_succ_le hk).trans hlt)
    obtain ⟨s', hs', h'⟩ := h.next hI (by omega) hroom hk
    exact ⟨s', hs.trans hs', h'⟩

/-- **Overflow.** When there are more lines than `SEM_VALUE_MAX`, and a consumer that
    keeps up with the producers or a buffer that is large enough, `consumer_line`
    overflows. -/
theorem overflow (hsize : 1 ≤ size) (h : ¬Few c size file) :
    ∃ s : State p c, ReflTransGen (Moves file) (start p c size) s ∧
      ¬Fits file s.mem s.producer s.consumer := by
  obtain ⟨htotal, hc⟩ := not_or.mp h
  have hc : c ≠ 0 ∨ semValueMax < size := by omega
  obtain ⟨s, hs, hidle⟩ := exists_idle hsize hc (not_le.mp htotal) le_rfl
  have hI := reach_inv (moves_reach hs (.init rfl))
  obtain ⟨i, line, rest, hpush⟩ := hidle.push hI (not_le.mp htotal) (hidle.room hI hsize hc)
  refine ⟨_, hs.trans (moves_producer hpush), fun hfits => hfits.producers i ?_⟩
  have hpost : semPost s.mem.consumerLine = none :=
    if_neg (hidle.consumerLine ▸ lt_irrefl semValueMax)
  simp only [Function.update_self, producerStep, hpost]

end

/-! ## When no semaphore overflows -/

theorem Follows.fits {s : State p c} {t : TimedState p c} (h : Follows s t)
    (hs : Fits file s.mem s.producer s.consumer) : Fits file t.mem t.producer t.consumer := by
  obtain ⟨h1, h2, h3, h4⟩ := hs
  rw [← h.mem] at h1 h2 h3 h4
  refine ⟨h1, h2, fun i hi => ?_, fun j hj => ?_⟩
  · obtain he | he := h.producer i
    · exact h3 i (he ▸ hi)
    · simp [producerStep, he] at hi
  · obtain he | he := h.consumer j
    · exact h4 j (consumerStep_exit_congr he.symm hj)
    · simp [consumerStep, he] at hj

/-- **The semaphores of the semaphore build.** They stay in their range and no post
    fails, in any run, if and only if there are at most `SEM_VALUE_MAX` lines to be
    pushed, or nobody consumes them and the buffer has at most `SEM_VALUE_MAX`
    places. The same holds with a time limit. -/
theorem semaphores_fit_iff (file : Fin p → Option (List UInt8)) (hsize : 1 ≤ size) :
    ((∀ s : State p c, (program size file).Reach s → Fits file s.mem s.producer s.consumer) ↔
      Few c size file) ∧
    ((∀ t : TimedState p c, (timedProgram size file).Reach t →
      Fits file t.mem t.producer t.consumer) ↔ Few c size file) := by
  refine ⟨⟨fun h => ?_, fun h s hs => h.fits hs⟩, fun h => ?_, fun h t ht => ?_⟩
  · by_contra hfew
    obtain ⟨s, hs, hno⟩ := overflow hsize hfew
    exact hno (h s (moves_reach hs (.init rfl)))
  · by_contra hfew
    obtain ⟨s, hs, hno⟩ := overflow hsize hfew
    obtain ⟨t, ht, h1, h2, h3⟩ := moves_timed hs
    exact hno (h1 ▸ h2 ▸ h3 ▸ h t ht)
  · obtain ⟨s, hs, hf⟩ := timed_follows ht
    exact hf.fits (h.fits hs)

/-- A file with one line. -/
theorem semaphores_fit_iff_one :
    Few 1 1 (fun _ : Fin 1 => some [97, 10]) ∧
      ∀ s : State 1 1, (program 1 fun _ => some [97, 10]).Reach s →
        Fits (fun _ => some [97, 10]) s.mem s.producer s.consumer := by
  have hfew : Few 1 1 (fun _ : Fin 1 => some [97, 10]) := .inl (by decide)
  exact ⟨hfew, (semaphores_fit_iff (fun _ => some [97, 10]) le_rfl).1.mpr hfew⟩

theorem length_fileLines_replicate (n : ℕ) :
    (fileLines (List.replicate n [97, newline]).flatten).length = n := by
  induction n with
  | zero => rfl
  | succ n ih =>
    have hget : getline ([97, newline] ++ (List.replicate n [97, newline]).flatten) =
        some ([97, newline], (List.replicate n [97, newline]).flatten) := rfl
    have hline : (strtok [97, newline]).toList.length = 1 := rfl
    rw [List.replicate_succ, List.flatten_cons, getline_eq_some hget, List.length_append, ih, hline,
      Nat.add_comm]

/-- A file with `SEM_VALUE_MAX + 1` lines, one producer, one consumer, and one
    place. -/
theorem long_file_overflows :
    ¬∀ s : State 1 1,
      (program 1 fun _ => some (List.replicate (semValueMax + 1) [97, newline]).flatten).Reach s →
        Fits (fun _ => some (List.replicate (semValueMax + 1) [97, newline]).flatten)
          s.mem s.producer s.consumer := by
  intro h
  have htotal : totalLines (fun _ : Fin 1 =>
      some (List.replicate (semValueMax + 1) [97, newline]).flatten) = semValueMax + 1 := by
    rw [totalLines, Finset.univ_unique, Finset.sum_singleton]
    exact length_fileLines_replicate _
  have hmany : ¬Few 1 1 fun _ : Fin 1 =>
      some (List.replicate (semValueMax + 1) [97, newline]).flatten := by
    rintro (hfew | ⟨h0, -⟩)
    · omega
    · cases h0
  obtain ⟨s, hs, hno⟩ := overflow le_rfl hmany
  exact hno (h s (moves_reach hs (.init rfl)))

end AghOs.ProdCons.Sem
