import AghOs.Machine.Integers
import AghOs.Machine.Reach
import AghOs.Machine.Signals

/-!
# Signals in lock step

Mode 2 of `cw04/zad3` (`main.c`, lines 29–104, and `child.c`, lines 10–64) from `fork`
on. The child is never reaped, so that `kill` finds it, and nobody else sends a signal.
`inherited` is the mask that the program is started with. The Makefile defines
`_DEFAULT_SOURCE`: a handler stays installed, and its signal is blocked while it runs.
-/

namespace AghOs.LockStep

/-! ## The two programs -/

inductive Sig
  | usr1
  | usr2
  /-- `SIGRTMIN + 1` -/
  | rt1
  /-- `SIGRTMIN + 2` -/
  | rt2
  | int
  | other
  deriving DecidableEq

/-- Where a handler is: before it counts the signal, before what it does about it, or
    before it returns. -/
inductive HandlerPc
  | count
  | act
  | leave
  deriving DecidableEq

/-- The handler has yet to act. -/
def HandlerPc.todo : HandlerPc → Bool
  | .leave => false
  | _ => true

abbrev Proc := SigProcess Sig HandlerPc

/-- Where `main` is. In `sigsuspend` it has the mask to go back to. -/
inductive ParentPc
  | installUsr1
  | installRt1
  | installInt
  | forTest
  | block
  | kill
  | whileTest
  | suspended (old : Sig → Bool)
  | reset
  | restore
  | killUsr2
  | print
  | done

structure Parent where
  pc : ParentPc
  proc : Proc
  i : ℤ
  sent : ℤ
  received : ℤ
  usr1Received : Bool
  oldmask : Sig → Bool
  /-- `received` and `sent`, as they are printed -/
  printed : Option (ℤ × ℤ)

/-- Where `child_main` is. -/
inductive ChildPc
  | setMask
  | installUsr1
  | installRt1
  | installUsr2
  | installRt2
  | pause
  deriving DecidableEq

structure Child where
  pc : ChildPc
  proc : Proc
  receivedCount : ℤ

structure System where
  parent : Parent
  child : Child

/-- `mask` -/
def blockMask (m : Sig → Bool) : Sig → Bool
  | .int | .usr1 | .rt1 => true
  | x => m x

def suspendmask : Sig → Bool
  | .int | .usr1 | .rt1 => false
  | _ => true

/-- `set` of `setup_signals` -/
def childMask : Sig → Bool
  | .usr1 | .usr2 | .rt1 | .rt2 => false
  | _ => true

namespace System

/-- `kill(pid, ...)` -/
def killChild (s : System) (x : Sig) : System :=
  { s with child := { s.child with proc := s.child.proc.raise x } }

/-- `kill(getppid(), ...)`; it does nothing when the parent has exited. -/
def killParent (s : System) (x : Sig) : System :=
  { s with parent := { s.parent with proc := s.parent.proc.raise x } }

def mapParent (s : System) (f : Parent → Parent) : System := { s with parent := f s.parent }

def mapChild (s : System) (f : Child → Child) : System := { s with child := f s.child }

/-- `if (kill(pid, x) >= 0) ++sent;`, and on to `pc`. -/
def sendChild (s : System) (x : Sig) (pc : ParentPc) : System :=
  (s.killChild x).mapParent fun p => { p with sent := toInt (p.sent + 1), pc := pc }

/-- `print_count` -/
def printCount (s : System) : System :=
  s.mapParent fun p =>
    { p with printed := some (p.received, p.sent), pc := .done, proc := p.proc.exit }

/-- A step of `main`, outside of handlers. -/
def main (n : ℤ) (s : System) : Option System :=
  match s.parent.pc with
  | .installUsr1 =>
    some (s.mapParent fun p => { p with pc := .installRt1, proc := p.proc.install .usr1 })
  | .installRt1 =>
    some (s.mapParent fun p => { p with pc := .installInt, proc := p.proc.install .rt1 })
  | .installInt =>
    some (s.mapParent fun p => { p with pc := .forTest, proc := p.proc.install .int })
  | .forTest =>
    some (s.mapParent fun p => { p with pc := if p.i < n then .block else .killUsr2 })
  | .block =>
    some (s.mapParent fun p =>
      { p with
        pc := .kill
        oldmask := p.proc.mask
        proc := p.proc.setMask (blockMask p.proc.mask) })
  | .kill => some (s.sendChild .usr1 .whileTest)
  | .whileTest =>
    some (s.mapParent fun p =>
      if p.usr1Received then { p with pc := .reset }
      else { p with pc := .suspended p.proc.mask, proc := p.proc.setMask suspendmask })
  | .suspended _ => none
  | .reset => some (s.mapParent fun p => { p with pc := .restore, usr1Received := false })
  | .restore =>
    some (s.mapParent fun p =>
      { p with pc := .forTest, i := toInt (p.i + 1), proc := p.proc.setMask p.oldmask })
  | .killUsr2 => some (s.sendChild .usr2 .print)
  | .print => some s.printCount
  | .done => none

/-- What `signal_handler` of the parent does about a signal. -/
def parentAct (s : System) (x : Sig) : System :=
  match x with
  | .usr1 | .rt1 =>
    s.mapParent fun p => { p with usr1Received := true, proc := p.proc.advance .leave }
  | .int => (s.sendChild .usr2 s.parent.pc).printCount
  | _ => s.mapParent fun p => { p with proc := p.proc.advance .leave }

/-- The innermost handler returns, and `sigsuspend` with the only one. -/
def parentReturn (s : System) : System :=
  s.mapParent fun p =>
    { p with
      proc := p.proc.leave
      pc :=
        match p.pc, p.proc.leave.frames with
        | .suspended _, [] => .whileTest
        | pc, _ => pc }

/-- A step of the parent. -/
def stepParent (n : ℤ) (s : System) : Option System :=
  if s.parent.proc.running then
    match s.parent.proc.frames with
    | [] => s.main n
    | f :: _ =>
      match f.pc with
      | .count =>
        some (s.mapParent fun p =>
          { p with received := toInt (p.received + 1), proc := p.proc.advance .act })
      | .act => some (s.parentAct f.sig)
      | .leave => some s.parentReturn
  else none

/-- The mask for the time behind a handler. -/
def savedMask (s : System) : Sig → Bool :=
  match s.parent.pc, s.parent.proc.frames with
  | .suspended old, [] => old
  | _, _ => s.parent.proc.mask

/-- A signal is delivered to the parent. -/
def signalParent (s : System) (x : Sig) : Option System :=
  (s.parent.proc.deliver .count s.savedMask x).map fun proc =>
    s.mapParent fun p => { p with proc := proc }

/-- A step of `child_main`. -/
def childMain (s : System) : Option System :=
  match s.child.pc with
  | .setMask =>
    some (s.mapChild fun c => { c with pc := .installUsr1, proc := c.proc.setMask childMask })
  | .installUsr1 =>
    some (s.mapChild fun c => { c with pc := .installRt1, proc := c.proc.install .usr1 })
  | .installRt1 =>
    some (s.mapChild fun c => { c with pc := .installUsr2, proc := c.proc.install .rt1 })
  | .installUsr2 =>
    some (s.mapChild fun c => { c with pc := .installRt2, proc := c.proc.install .usr2 })
  | .installRt2 =>
    some (s.mapChild fun c => { c with pc := .pause, proc := c.proc.install .rt2 })
  | .pause => none

/-- What `signal_handler` of the child does about a signal. -/
def childAct (s : System) (x : Sig) : System :=
  match x with
  | .usr1 | .rt1 =>
    (s.killParent x).mapChild fun c => { c with proc := c.proc.advance .leave }
  | .usr2 | .rt2 => s.mapChild fun c => { c with proc := c.proc.exit }
  | _ => s.mapChild fun c => { c with proc := c.proc.advance .leave }

/-- A step of the child. -/
def stepChild (s : System) : Option System :=
  if s.child.proc.running then
    match s.child.proc.frames with
    | [] => s.childMain
    | f :: _ =>
      match f.pc with
      | .count =>
        some (s.mapChild fun c =>
          { c with receivedCount := toInt (c.receivedCount + 1), proc := c.proc.advance .act })
      | .act => some (s.childAct f.sig)
      | .leave => some (s.mapChild fun c => { c with proc := c.proc.leave })
  else none

/-- A signal is delivered to the child. -/
def signalChild (s : System) (x : Sig) : Option System :=
  (s.child.proc.deliver .count s.child.proc.mask x).map fun proc =>
    s.mapChild fun c => { c with proc := proc }

end System

/-- Who moves. -/
inductive Move
  | parent
  | signalParent (x : Sig)
  | child
  | signalChild (x : Sig)
  deriving DecidableEq

def System.next (n : ℤ) (s : System) : Move → Option System
  | .parent => s.stepParent n
  | .signalParent x => s.signalParent x
  | .child => s.stepChild
  | .signalChild x => s.signalChild x

/-- Behind `fork`. -/
def System.forked (inherited : Sig → Bool) : System where
  parent := ⟨.installUsr1, .start inherited, 0, 0, 0, false, inherited, none⟩
  child := ⟨.setMask, .start inherited, 0⟩

def machine (n : ℤ) (inherited : Sig → Bool) : Machine System Move where
  init s := s = .forked inherited
  next := System.next n

end AghOs.LockStep
