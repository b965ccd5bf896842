import AghOs.Machine.Reach
import AghOs.ProdCons.Pipe

/-!
# The semaphore build

Model of `cw09/zad1/src/main-sem.c`: the producers (lines 37–86), the consumers
(lines 88–131) and the main thread in `run`. Every semaphore operation, every
test of the buffer, every push and every pop is one step, and so is every turn
of the reading loop.

The return codes of `buffer_push` and `buffer_pop` are dropped, as in the code.
A `sem_post` on a semaphore at `SEM_VALUE_MAX` fails, and the process exits. A
request to cancel a consumer is acted upon where cancellation is enabled: in
`usleep`, before the consumer disables it, and in `sem_wait(&consumer_line)`.
Log lines, sleeping and printing are left out.
-/

namespace AghOs.ProdCons

/-- What a step of a thread comes to: it is not enabled, the process exits, or
    there is a next state. -/
inductive Result (α : Type*)
  | blocked
  | exit
  | step (a : α)

/-- `SEM_VALUE_MAX` -/
def semValueMax : ℕ := 2147483647

/-- `sem_post`: the new value, `none` if it fails with `EOVERFLOW`. -/
def semPost (v : ℕ) : Option ℕ := if v < semValueMax then some (v + 1) else none

namespace Sem

/-! ## The threads -/

section

variable {π : Type*}

/-- The globals: the pipe and the three semaphores (lines 31–35). -/
structure Shared (π : Type*) where
  pipe : Pipe π
  bufferMx : ℕ
  producerLine : ℕ
  consumerLine : ℕ

/-- Where a producer is; `line` is its local variable. -/
inductive ProducerPc
  | start
  | read
  | lock (line : Text)
  | testFull (line : Text)
  | unlockFull (line : Text)
  | waitLine (line : Text)
  | push (line : Text)
  | postLine
  | unlock
  | ended
  deriving DecidableEq

/-- A producer: where it is, and the input it has not read yet. -/
structure Producer where
  pc : ProducerPc
  rest : List UInt8

/-- Where a consumer is; `line` is its local variable. -/
inductive ConsumerPc (π : Type*)
  | start
  | lock
  | testEmpty
  | unlockEmpty
  | waitLine
  | pop
  | postLine (line : Option (Line π))
  | unlock (line : Option (Line π))
  | use (line : Option (Line π))
  | ended

/-- A consumer: where it is, and whether it has been cancelled. -/
structure Consumer (π : Type*) where
  pc : ConsumerPc π
  cancelled : Bool

/-- One step of producer `i`, for which `fopen` opens `file` (`none`: it cannot
    be opened). -/
def producerStep (file : Option (List UInt8)) (i : π) (m : Shared π) (p : Producer) :
    Result (Shared π × Producer) :=
  match p.pc with
  | .start =>
    match file with
    | none => .step (m, { p with pc := .ended })
    | some input => .step (m, ⟨.read, input⟩)
  | .read =>
    match getline p.rest with
    | none => .step (m, { p with pc := .ended })
    | some (l, rest) =>
      match strtok l with
      | none => .step (m, ⟨.read, rest⟩)
      | some line => .step (m, ⟨.lock line, rest⟩)
  | .lock line =>
    match m.bufferMx with
    | 0 => .blocked
    | v + 1 => .step ({ m with bufferMx := v }, { p with pc := .testFull line })
  | .testFull line =>
    if bufferFull m.pipe.buffer then .step (m, { p with pc := .unlockFull line })
    else .step (m, { p with pc := .push line })
  | .unlockFull line =>
    match semPost m.bufferMx with
    | none => .exit
    | some v => .step ({ m with bufferMx := v }, { p with pc := .waitLine line })
  | .waitLine line =>
    match m.producerLine with
    | 0 => .blocked
    | v + 1 => .step ({ m with producerLine := v }, { p with pc := .lock line })
  | .push line =>
    .step ({ m with pipe := (m.pipe.push ⟨i, line⟩).2 }, { p with pc := .postLine })
  | .postLine =>
    match semPost m.consumerLine with
    | none => .exit
    | some v => .step ({ m with consumerLine := v }, { p with pc := .unlock })
  | .unlock =>
    match semPost m.bufferMx with
    | none => .exit
    | some v => .step ({ m with bufferMx := v }, { p with pc := .read })
  | .ended => .blocked

/-- One step of a consumer. -/
def consumerStep (m : Shared π) (c : Consumer π) : Result (Shared π × Consumer π) :=
  match c.pc with
  | .start => .step (m, { c with pc := .lock })
  | .lock =>
    match m.bufferMx with
    | 0 => .blocked
    | v + 1 => .step ({ m with bufferMx := v }, { c with pc := .testEmpty })
  | .testEmpty =>
    if bufferEmpty m.pipe.buffer then .step (m, { c with pc := .unlockEmpty })
    else .step (m, { c with pc := .pop })
  | .unlockEmpty =>
    match semPost m.bufferMx with
    | none => .exit
    | some v => .step ({ m with bufferMx := v }, { c with pc := .waitLine })
  | .waitLine =>
    match m.consumerLine with
    | 0 => .blocked
    | v + 1 => .step ({ m with consumerLine := v }, { c with pc := .lock })
  | .pop => .step ({ m with pipe := m.pipe.pop.2.2 }, { c with pc := .postLine m.pipe.pop.2.1 })
  | .postLine line =>
    match semPost m.producerLine with
    | none => .exit
    | some v => .step ({ m with producerLine := v }, { c with pc := .unlock line })
  | .unlock line =>
    match semPost m.bufferMx with
    | none => .exit
    | some v => .step ({ m with bufferMx := v }, { c with pc := .use line })
  | .use _ => .step (m, { c with pc := .lock })
  | .ended => .blocked

/-- Where cancellation is enabled. -/
def ConsumerPc.Cancelable : ConsumerPc π → Prop
  | .start | .waitLine => True
  | _ => False

instance : (pc : ConsumerPc π) → Decidable pc.Cancelable
  | .start | .waitLine => .isTrue trivial
  | .lock | .testEmpty | .unlockEmpty | .pop | .postLine _ | .unlock _ | .use _ | .ended =>
    .isFalse id

end

/-! ## The machine -/

/-- The program with `p` producers and `c` consumers. -/
structure State (p c : ℕ) where
  mem : Shared (Fin p)
  producer : Fin p → Producer
  consumer : Fin c → Consumer (Fin p)
  main : MainPc

/-- Who moves; `cancel j` is consumer `j` acting on its cancellation. -/
inductive Label (p c : ℕ)
  | producer (i : Fin p)
  | consumer (j : Fin c)
  | cancel (j : Fin c)
  | main

variable {p c : ℕ}

def Producer.ended (q : Producer) : Bool := q.pc == .ended

def Consumer.ended {π : Type*} (q : Consumer π) : Bool :=
  match q.pc with
  | .ended => true
  | _ => false

/-- The state in which `run` has created the threads of a program with
    `cl->buffer_size` `size`. -/
def start (p c size : ℕ) : State p c where
  mem := ⟨Pipe.empty size, 1, 0, 0⟩
  producer := fun _ => ⟨.start, []⟩
  consumer := fun _ => ⟨.start, false⟩
  main := .joinProducers 0

/-- `pthread_cancel` -/
def State.cancel (s : State p c) (j : Fin c) : State p c :=
  { s with consumer := Function.update s.consumer j { s.consumer j with cancelled := true } }

/-- The threads of `main-sem.c`; producer `i` reads `file i`. -/
def program (size : ℕ) (file : Fin p → Option (List UInt8)) : Machine (State p c) (Label p c) where
  init s := s = start p c size
  next s
    | .producer i =>
      match producerStep (file i) i s.mem (s.producer i) with
      | .step (m, q) =>
        some { s with mem := m, producer := Function.update s.producer i q }
      | _ => none
    | .consumer j =>
      match consumerStep s.mem (s.consumer j) with
      | .step (m, q) =>
        some { s with mem := m, consumer := Function.update s.consumer j q }
      | _ => none
    | .cancel j =>
      if (s.consumer j).cancelled ∧ (s.consumer j).pc.Cancelable then
        some { s with
          consumer := Function.update s.consumer j { s.consumer j with pc := .ended } }
      else none
    | .main =>
      match runStep (fun i => (s.producer i).ended) (fun j => (s.consumer j).ended) s.main with
      | none => none
      | some (main, none) => some { s with main := main }
      | some (main, some j) => some { s.cancel j with main := main }

/-- A step of the program is one of a producer, of a consumer, the end of a
    cancelled consumer, or a step of `run`. -/
theorem program_next_cases {size : ℕ} {file : Fin p → Option (List UInt8)} {s s' : State p c}
    {l : Label p c} (h : (program size file).next s l = some s') :
    (∃ i m q, producerStep (file i) i s.mem (s.producer i) = .step (m, q) ∧
      s' = { s with mem := m, producer := Function.update s.producer i q }) ∨
    (∃ j m q, consumerStep s.mem (s.consumer j) = .step (m, q) ∧
      s' = { s with mem := m, consumer := Function.update s.consumer j q }) ∨
    (∃ j, l = .cancel j ∧ (s.consumer j).cancelled = true ∧ (s.consumer j).pc.Cancelable ∧
      s' = { s with
        consumer := Function.update s.consumer j { s.consumer j with pc := .ended } }) ∨
    (∃ main, runStep (fun i => (s.producer i).ended) (fun j => (s.consumer j).ended) s.main =
        some (main, none) ∧ s' = { s with main := main }) ∨
    (∃ main j, runStep (fun i => (s.producer i).ended) (fun j => (s.consumer j).ended) s.main =
        some (main, some j) ∧ s' = { s.cancel j with main := main }) := by
  cases l with
  | producer i =>
    simp only [program] at h
    split at h <;> cases h
    exact .inl ⟨i, _, _, ‹_›, rfl⟩
  | consumer j =>
    simp only [program] at h
    split at h <;> cases h
    exact .inr (.inl ⟨j, _, _, ‹_›, rfl⟩)
  | cancel j =>
    simp only [program] at h
    split at h <;> cases h
    rename_i hc
    exact .inr (.inr (.inl ⟨j, rfl, hc.1, hc.2, rfl⟩))
  | main =>
    simp only [program] at h
    split at h <;> cases h
    · exact .inr (.inr (.inr (.inl ⟨_, ‹_›, rfl⟩)))
    · exact .inr (.inr (.inr (.inr ⟨_, _, ‹_›, rfl⟩)))

end Sem

end AghOs.ProdCons
