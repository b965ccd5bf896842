import AghOs.Machine.Reach
import AghOs.ProdCons.Pipe

/-!
# The monitor build

Model of `cw09/zad1/src/main-monitor.c`: the producers (lines 26–92), the
consumers (lines 94–139) and the main thread in `run`. A stretch of code
between acquiring `buffer_mx` and releasing it, or waiting on a condition, is
one step, and so is every turn of the reading loop.

A thread in `pthread_cond_wait` is `waiting` until a signal or a spurious
wake-up unblocks it; then it is `woken` and will acquire the mutex and test the
buffer again. `pthread_cond_signal` unblocks one waiting thread, if there is
one. A request to cancel a consumer is acted upon in `usleep`, before the
consumer disables cancellation, and in `pthread_cond_wait`, also when it has
been signalled; the signal then goes to another waiting consumer, if there is
one. Log lines, sleeping and printing are left out.
-/

namespace AghOs.ProdCons.Monitor

/-! ## The threads -/

/-- Where a producer is; `line` is its local variable. -/
inductive ProducerPc
  | start
  | read
  | lock (line : Text)
  | waiting (line : Text)
  | woken (line : Text)
  | ended
  deriving DecidableEq

/-- A producer: where it is, and the input it has not read yet. -/
structure Producer where
  pc : ProducerPc
  rest : List UInt8

/-- Where a consumer is; `line` is its local variable. -/
inductive ConsumerPc (π : Type*)
  | start
  | lock
  | waiting
  | woken
  | use (line : Option (Line π))
  | ended

/-- A consumer: where it is, and whether it has been cancelled. -/
structure Consumer (π : Type*) where
  pc : ConsumerPc π
  cancelled : Bool

def Producer.ended (q : Producer) : Bool := q.pc == .ended

/-- The producer is blocked in `pthread_cond_wait(&producer_line, ..)`. -/
def Producer.waiting (q : Producer) : Bool :=
  match q.pc with
  | .waiting _ => true
  | _ => false

/-- The producer is unblocked and has yet to test the buffer again. -/
def Producer.woken (q : Producer) : Bool :=
  match q.pc with
  | .woken _ => true
  | _ => false

section

variable {π : Type*}

def Consumer.ended (q : Consumer π) : Bool :=
  match q.pc with
  | .ended => true
  | _ => false

/-- The consumer is blocked in `pthread_cond_wait(&consumer_line, ..)`. -/
def Consumer.waiting (q : Consumer π) : Bool :=
  match q.pc with
  | .waiting => true
  | _ => false

/-- The consumer is unblocked and has yet to test the buffer again. -/
def Consumer.woken (q : Consumer π) : Bool :=
  match q.pc with
  | .woken => true
  | _ => false

/-- A blocked producer is unblocked. -/
def Producer.wake (q : Producer) : Producer :=
  match q.pc with
  | .waiting line => { q with pc := .woken line }
  | _ => q

/-- A blocked consumer is unblocked. -/
def Consumer.wake (q : Consumer π) : Consumer π :=
  match q.pc with
  | .waiting => { q with pc := .woken }
  | _ => q

end

/-! ## The machine -/

/-- The program with `p` producers and `c` consumers. -/
structure State (p c : ℕ) where
  pipe : Pipe (Fin p)
  producer : Fin p → Producer
  consumer : Fin c → Consumer (Fin p)
  main : MainPc

/-- Who moves. `wake` is the thread that a `pthread_cond_signal` of the step
    unblocks; `cancel j` is consumer `j` acting on its cancellation. -/
inductive Label (p c : ℕ)
  | producer (i : Fin p) (wake : Option (Fin c))
  | consumer (j : Fin c) (wake : Option (Fin p))
  | spuriousProducer (i : Fin p)
  | spuriousConsumer (j : Fin c)
  | cancel (j : Fin c) (wake : Option (Fin c))
  | main

variable {p c : ℕ}

def State.setProducer (s : State p c) (i : Fin p) (q : Producer) : State p c :=
  { s with producer := Function.update s.producer i q }

def State.setConsumer (s : State p c) (j : Fin c) (q : Consumer (Fin p)) : State p c :=
  { s with consumer := Function.update s.consumer j q }

/-- `pthread_cond_signal(&producer_line)`, where the system chooses `wake`. -/
def State.signalProducer (s : State p c) : Option (Fin p) → Option (State p c)
  | none => if ∀ i, (s.producer i).waiting = false then some s else none
  | some i =>
    if (s.producer i).waiting then some (s.setProducer i (s.producer i).wake) else none

/-- `pthread_cond_signal(&consumer_line)`, where the system chooses `wake`. -/
def State.signalConsumer (s : State p c) : Option (Fin c) → Option (State p c)
  | none => if ∀ j, (s.consumer j).waiting = false then some s else none
  | some j =>
    if (s.consumer j).waiting then some (s.setConsumer j (s.consumer j).wake) else none

/-- One step of producer `i`, for which `fopen` opens `file` (`none`: it cannot
    be opened). -/
def producerStep (file : Option (List UInt8)) (i : Fin p) (wake : Option (Fin c)) (s : State p c) :
    Option (State p c) :=
  match (s.producer i).pc with
  | .start =>
    match file with
    | none => some (s.setProducer i { s.producer i with pc := .ended })
    | some input => some (s.setProducer i ⟨.read, input⟩)
  | .read =>
    match getline (s.producer i).rest with
    | none => some (s.setProducer i { s.producer i with pc := .ended })
    | some (l, rest) =>
      match strtok l with
      | none => some (s.setProducer i ⟨.read, rest⟩)
      | some line => some (s.setProducer i ⟨.lock line, rest⟩)
  | .lock line | .woken line =>
    if (s.pipe.push ⟨i, line⟩).1 ≠ 0 then
      some ({ s with pipe := (s.pipe.push ⟨i, line⟩).2 }.setProducer i
        { s.producer i with pc := .waiting line })
    else
      ({ s with pipe := (s.pipe.push ⟨i, line⟩).2 }.setProducer i
        { s.producer i with pc := .read }).signalConsumer wake
  | .waiting _ | .ended => none

/-- One step of consumer `j`. -/
def consumerStep (j : Fin c) (wake : Option (Fin p)) (s : State p c) : Option (State p c) :=
  match (s.consumer j).pc with
  | .start => some (s.setConsumer j { s.consumer j with pc := .lock })
  | .lock | .woken =>
    if s.pipe.pop.1 ≠ 0 then
      some ({ s with pipe := s.pipe.pop.2.2 }.setConsumer j
        { s.consumer j with pc := .waiting })
    else
      ({ s with pipe := s.pipe.pop.2.2 }.setConsumer j
        { s.consumer j with pc := .use s.pipe.pop.2.1 }).signalProducer wake
  | .use _ => some (s.setConsumer j { s.consumer j with pc := .lock })
  | .waiting | .ended => none

/-- Consumer `j` acts on its cancellation. -/
def cancelStep (j : Fin c) (wake : Option (Fin c)) (s : State p c) : Option (State p c) :=
  if (s.consumer j).cancelled then
    match (s.consumer j).pc with
    | .start | .waiting => some (s.setConsumer j { s.consumer j with pc := .ended })
    | .woken => (s.setConsumer j { s.consumer j with pc := .ended }).signalConsumer wake
    | _ => none
  else none

/-- The state in which `run` has created the threads of a program with
    `cl->buffer_size` `size`. -/
def start (p c size : ℕ) : State p c where
  pipe := Pipe.empty size
  producer := fun _ => ⟨.start, []⟩
  consumer := fun _ => ⟨.start, false⟩
  main := .joinProducers 0

/-- The threads of `main-monitor.c`; producer `i` reads `file i`. -/
def program (size : ℕ) (file : Fin p → Option (List UInt8)) : Machine (State p c) (Label p c) where
  init s := s = start p c size
  next s
    | .producer i wake => producerStep (file i) i wake s
    | .consumer j wake => consumerStep j wake s
    | .spuriousProducer i =>
      if (s.producer i).waiting then some (s.setProducer i (s.producer i).wake) else none
    | .spuriousConsumer j =>
      if (s.consumer j).waiting then some (s.setConsumer j (s.consumer j).wake) else none
    | .cancel j wake => cancelStep j wake s
    | .main =>
      match runStep (fun i => (s.producer i).ended) (fun j => (s.consumer j).ended) s.main with
      | none => none
      | some (main, none) => some { s with main := main }
      | some (main, some j) =>
        some { s.setConsumer j { s.consumer j with cancelled := true } with main := main }

end AghOs.ProdCons.Monitor
