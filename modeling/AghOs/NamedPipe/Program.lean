import AghOs.Machine.Runs
import AghOs.Machine.Scanf
import AghOs.Machine.Threads

/-!
# The master and the slaves on a named pipe

Model of `cw05/zad2`: the master (`master.c`, lines 37–54) and any number of slaves
(`slave.c`, lines 31–66) from the moment at which the pipe exists. The types and the
step functions follow the programs, with these conventions for what they call:

* An `open` of one end returns once the other end has been opened. The slave's blocks
  for good when the master is gone.
* A slave writes at most 1023 bytes at once, less than `PIPE_BUF`, so a `write` puts
  the whole message into the pipe or waits until it fits. Without a reader it kills
  the slave (`SIGPIPE`).
* `fgets` takes its characters from the buffer of the stream, which a `read` fills
  with some of the bytes in the pipe. A `read` from an empty pipe that nobody has open
  for writing sets the end-of-file indicator, and from then on the stream is not read
  again.
* `SIGINT` ends a process between any two of its steps.
* A slave whose text does not fit its buffer stops there; what `sprintf` does then is not
  modelled.

`date` is what the command prints, for each call. `sleep`, and what the two programs
print about a failure, are left out.
-/

namespace AghOs.NamedPipe

/-! ## The slaves -/

/-- What a slave is given: its process id, the argument `line_count`, and what `date`
    prints in each turn. -/
structure Args where
  pid : ℕ
  lineCount : ℤ
  date : ℕ → List UInt8

/-- The bytes of a C string, up to the terminator. -/
def cString (bytes : List UInt8) : List UInt8 := bytes.takeWhile (· ≠ 0)

/-- `sprintf` into an array of `n` bytes, if the text fits. -/
def sprintf (n : ℕ) (text : List UInt8) : Option (List UInt8) :=
  if text.length < n then some text else none

/-- The texts that a slave writes: its process id (lines 37–43) and, in turn `k`, the
    date (lines 45–60). `none` if a text does not fit its buffer. -/
def Args.message (a : Args) : ℕ → Option (List UInt8)
  | 0 => sprintf 10 (decimal a.pid ++ [10])
  | k + 1 =>
    if (a.date k).length < 1024 then
      sprintf 1024 (decimal a.pid ++ [58, 32] ++ cString (a.date k))
    else none

/-- How many messages a slave writes; a negative `line_count` is none but the first. -/
def Args.total (a : Args) : ℕ := a.lineCount.toNat + 1

/-- Where a slave is. -/
inductive SlavePc
  | opening
  | running
  /-- behind its loop -/
  | exited
  /-- by `SIGPIPE` -/
  | killed
  /-- by `SIGINT` -/
  | interrupted
  /-- by `SIGINT`, in `open` -/
  | left
  deriving DecidableEq

/-- Its `open` has returned. -/
def SlavePc.opened : SlavePc → Bool
  | .opening | .left => false
  | _ => true

/-- A slave, with the number of messages it has written. -/
structure Slave where
  pc : SlavePc
  written : ℕ

/-! ## The master -/

/-- `BUF_LEN` -/
def bufLen : ℕ := 8 * 1024

/-- Where the master is: in `open`, in the loop, behind the loop, or gone. -/
inductive MasterPc
  | opening
  | reading
  | ended
  | exited
  deriving DecidableEq

/-- The master: what `fgets` has put into `buffer` so far, what the buffer of `pipe_f`
    holds, and the end-of-file indicator of `pipe_f`. -/
structure Master where
  pc : MasterPc
  line : List UInt8
  stream : List UInt8
  eof : Bool

/-- `fgets` returns: it has read a newline or filled the buffer. -/
def Master.lineRead (q : Master) : Bool :=
  q.line.getLast? = some 10 || q.line.length = bufLen - 1

/-! ## The system -/

variable {ι : Type*} [Fintype ι] [DecidableEq ι]

structure State (ι : Type*) where
  slave : ι → Slave
  master : Master
  pipe : List UInt8

/-- What a step does that can be seen from outside: slave `i` writes its message `k`,
    or the master prints. -/
inductive Event (ι : Type*)
  | wrote (i : ι) (k : ℕ)
  | printed (text : List UInt8)
  deriving DecidableEq

/-- A process that takes its next step. The `read` of the master asks for `n + 1`
    bytes. -/
inductive Label (ι : Type*)
  | slave (i : ι)
  | master (n : ℕ)
  | interrupt (i : ι)
  | interruptMaster

/-- What a step adds that is not one of the programs' own. -/
def Label.gain : Label ι → ℕ
  | .slave _ | .master _ => 0
  | .interrupt _ | .interruptMaster => 1

def State.setSlave (s : State ι) (i : ι) (q : Slave) : State ι :=
  { s with slave := Function.update s.slave i q }

/-- One step of slave `i`. -/
def slaveStep (a : Args) (cap : ℕ) (i : ι) (s : State ι) : Option (State ι × List (Event ι)) :=
  let q := s.slave i
  match q.pc with
  | .opening =>
    if s.master.pc = .exited then none
    else some (s.setSlave i { q with pc := .running }, [])
  | .running =>
    if q.written < a.total then
      match a.message q.written with
      | none => none
      | some text =>
        if s.master.pc = .exited then some (s.setSlave i { q with pc := .killed }, [])
        else if s.pipe.length + text.length ≤ cap then
          some ({ s.setSlave i { q with written := q.written + 1 } with pipe := s.pipe ++ text },
            [.wrote i q.written])
        else none
    else some (s.setSlave i { q with pc := .exited }, [])
  | .exited | .killed | .interrupted | .left => none

/-- `printf("%s", buffer)`, and the next `fgets`. -/
def printLine (s : State ι) : State ι × List (Event ι) :=
  ({ s with master := { s.master with line := [] } }, [.printed (cString s.master.line)])

/-- One step of the master. -/
def masterStep (n : ℕ) (s : State ι) : Option (State ι × List (Event ι)) :=
  let q := s.master
  match q.pc with
  | .opening =>
    if ∃ i, (s.slave i).pc.opened = true then
      some ({ s with master := { q with pc := .reading } }, [])
    else none
  | .reading =>
    if q.lineRead then some (printLine s)
    else
      match q.stream with
      | c :: cs => some ({ s with master := { q with line := q.line ++ [c], stream := cs } }, [])
      | [] =>
        if q.eof then
          if q.line = [] then some ({ s with master := { q with pc := .ended } }, [])
          else some (printLine s)
        else if s.pipe ≠ [] then
          some ({ s with
            master := { q with stream := s.pipe.take (n + 1) }, pipe := s.pipe.drop (n + 1) }, [])
        else if ∃ i, (s.slave i).pc = .running then none
        else some ({ s with master := { q with eof := true } }, [])
  | .ended => some ({ s with master := { q with pc := .exited } }, [])
  | .exited => none

/-- `SIGINT` for slave `i`. -/
def interruptSlave (i : ι) (s : State ι) : Option (State ι) :=
  match (s.slave i).pc with
  | .opening => some (s.setSlave i { s.slave i with pc := .left })
  | .running => some (s.setSlave i { s.slave i with pc := .interrupted })
  | .exited | .killed | .interrupted | .left => none

/-- `SIGINT` for the master. -/
def interruptMaster (s : State ι) : Option (State ι) :=
  if s.master.pc = .exited then none
  else some { s with master := { s.master with pc := .exited } }

/-- The step that the label names, and what can be seen of it. -/
def step (args : ι → Args) (cap : ℕ) (s : State ι) : Label ι → Option (State ι × List (Event ι))
  | .slave i => slaveStep (args i) cap i s
  | .master n => masterStep n s
  | .interrupt i => (interruptSlave i s).map (·, [])
  | .interruptMaster => (interruptMaster s).map (·, [])

def start : State ι := ⟨fun _ => ⟨.opening, 0⟩, ⟨.opening, [], [], false⟩, []⟩

/-- The master and the slaves with the arguments `args`, on a pipe that holds `cap`
    bytes. -/
def program (args : ι → Args) (cap : ℕ) : Machine (State ι) (Label ι) where
  init s := s = start
  next s l := (step args cap s l).map Prod.fst

/-- What is seen of the step that `l` names. -/
def events (args : ι → Args) (cap : ℕ) (s : State ι) (l : Label ι) : List (Event ι) :=
  ((step args cap s l).map Prod.snd).getD []

/-! ## What a step can do -/

/-- The steps, by what they do. -/
inductive Moves (args : ι → Args) (cap : ℕ) (s : State ι) :
    Label ι → State ι → List (Event ι) → Prop
  | opens (i : ι) : (s.slave i).pc = .opening → s.master.pc ≠ .exited →
      Moves args cap s (.slave i) (s.setSlave i { s.slave i with pc := .running }) []
  | writes (i : ι) (text : List UInt8) : (s.slave i).pc = .running →
      (s.slave i).written < (args i).total → (args i).message (s.slave i).written = some text →
      s.master.pc ≠ .exited → s.pipe.length + text.length ≤ cap →
      Moves args cap s (.slave i)
        { s.setSlave i { s.slave i with written := (s.slave i).written + 1 } with
          pipe := s.pipe ++ text }
        [.wrote i (s.slave i).written]
  | killed (i : ι) : (s.slave i).pc = .running → s.master.pc = .exited →
      Moves args cap s (.slave i) (s.setSlave i { s.slave i with pc := .killed }) []
  | exits (i : ι) : (s.slave i).pc = .running → (args i).total ≤ (s.slave i).written →
      Moves args cap s (.slave i) (s.setSlave i { s.slave i with pc := .exited }) []
  | masterOpens (n : ℕ) (i : ι) : s.master.pc = .opening →
      (s.slave i).pc.opened = true →
      Moves args cap s (.master n) { s with master := { s.master with pc := .reading } } []
  | prints (n : ℕ) : s.master.pc = .reading → s.master.line ≠ [] →
      Moves args cap s (.master n) { s with master := { s.master with line := [] } }
        [.printed (cString s.master.line)]
  | getc (n : ℕ) (c : UInt8) (cs : List UInt8) : s.master.pc = .reading →
      s.master.stream = c :: cs →
      Moves args cap s (.master n)
        { s with master := { s.master with line := s.master.line ++ [c], stream := cs } } []
  | reads (n : ℕ) : s.master.pc = .reading → s.master.stream = [] → s.master.eof = false →
      s.pipe ≠ [] →
      Moves args cap s (.master n) { s with
        master := { s.master with stream := s.pipe.take (n + 1) }, pipe := s.pipe.drop (n + 1) } []
  | readsEnd (n : ℕ) : s.master.pc = .reading → s.master.stream = [] → s.master.eof = false →
      s.pipe = [] → (∀ i, (s.slave i).pc ≠ .running) →
      Moves args cap s (.master n) { s with master := { s.master with eof := true } } []
  | masterEnds (n : ℕ) : s.master.pc = .reading → s.master.line = [] → s.master.stream = [] →
      s.master.eof = true →
      Moves args cap s (.master n) { s with master := { s.master with pc := .ended } } []
  | masterExits (n : ℕ) : s.master.pc = .ended →
      Moves args cap s (.master n) { s with master := { s.master with pc := .exited } } []
  | leaves (i : ι) : (s.slave i).pc = .opening →
      Moves args cap s (.interrupt i) (s.setSlave i { s.slave i with pc := .left }) []
  | interrupted (i : ι) : (s.slave i).pc = .running →
      Moves args cap s (.interrupt i) (s.setSlave i { s.slave i with pc := .interrupted }) []
  | masterInterrupted : s.master.pc ≠ .exited →
      Moves args cap s .interruptMaster { s with master := { s.master with pc := .exited } } []

theorem line_ne_nil {q : Master} (h : q.lineRead = true) : q.line ≠ [] := by
  intro hnil
  simp [Master.lineRead, hnil, bufLen] at h

omit [Fintype ι] in
theorem slaveStep_moves {args : ι → Args} {cap : ℕ} {s : State ι} {i : ι}
    {r : State ι × List (Event ι)} (h : slaveStep (args i) cap i s = some r) :
    Moves args cap s (.slave i) r.1 r.2 := by
  simp only [slaveStep] at h
  split at h
  · split at h <;> cases h
    exact .opens i ‹_› ‹_›
  · split at h
    · split at h
      · cases h
      · split at h
        · cases h
          exact .killed i ‹_› ‹_›
        · split at h <;> cases h
          exact .writes i _ ‹_› ‹_› ‹_› ‹_› ‹_›
    · cases h
      exact .exits i ‹_› (Nat.le_of_not_lt ‹_›)
  all_goals cases h

theorem masterStep_moves {args : ι → Args} {cap n : ℕ} {s : State ι}
    {r : State ι × List (Event ι)} (h : masterStep n s = some r) :
    Moves args cap s (.master n) r.1 r.2 := by
  simp only [masterStep] at h
  split at h
  · split at h <;> cases h
    obtain ⟨i, hi⟩ := ‹∃ i, _›
    exact .masterOpens n i ‹_› hi
  · split at h
    · cases h
      exact .prints n ‹_› (line_ne_nil ‹_›)
    · split at h
      · cases h
        exact .getc n _ _ ‹_› ‹_›
      · split at h
        · split at h <;> cases h
          · exact .masterEnds n ‹_› ‹_› ‹_› ‹_›
          · exact .prints n ‹_› ‹_›
        · have heof : s.master.eof = false := eq_false_of_ne_true ‹_›
          split at h
          · cases h
            exact .reads n ‹_› ‹_› heof ‹_›
          · split at h <;> cases h
            exact .readsEnd n ‹_› ‹_› heof (not_not.mp ‹_›) (not_exists.mp ‹_›)
  · cases h
    exact .masterExits n ‹_›
  · cases h

theorem step_moves {args : ι → Args} {cap : ℕ} {s : State ι} {l : Label ι}
    {r : State ι × List (Event ι)} (h : step args cap s l = some r) :
    Moves args cap s l r.1 r.2 := by
  cases l with
  | slave i => exact slaveStep_moves h
  | master n => exact masterStep_moves h
  | interrupt i =>
    obtain ⟨t, ht, rfl⟩ := Option.map_eq_some_iff.mp h
    unfold interruptSlave at ht
    cases hpc : (s.slave i).pc with
    | opening => rw [hpc] at ht; cases ht; exact .leaves i hpc
    | running => rw [hpc] at ht; cases ht; exact .interrupted i hpc
    | exited | killed | interrupted | left => rw [hpc] at ht; cases ht
  | interruptMaster =>
    obtain ⟨t, ht, rfl⟩ := Option.map_eq_some_iff.mp h
    unfold interruptMaster at ht
    split at ht <;> cases ht
    exact .masterInterrupted ‹_›

/-- What a step of the program does, and what is seen of it. -/
theorem next_moves {args : ι → Args} {cap : ℕ} {s s' : State ι} {l : Label ι}
    (h : (program args cap).next s l = some s') :
    Moves args cap s l s' (events args cap s l) := by
  obtain ⟨⟨t, es⟩, hstep, rfl⟩ := Option.map_eq_some_iff.mp h
  have hmoves := step_moves hstep
  rwa [show events args cap s l = es by rw [events, hstep]; rfl]

end AghOs.NamedPipe
