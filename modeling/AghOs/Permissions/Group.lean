import AghOs.Machine.Reach
import Mathlib.Algebra.Order.Ring.Int
import Mathlib.Data.Finset.Card
import Mathlib.Logic.Function.Basic

/-!
# A parent that collects requests

The processes of `src/cw04/zad2/src`. The parent forks `children_count` children
and stores their pids one by one, then waits for them. A child sends `SIGUSR1` to
the parent as a request, and the parent's handler answers the requests with
`SIGUSR1` once `request_threshold` of them have been counted. A child that gets
its permission exits.

The handler preempts the parent. `SIGUSR1` is blocked while it runs, and of the
instances that arrive meanwhile only the first stays pending.

The child that is forked `i`-th has the pid `i`; an entry of `children` that has
not been stored yet (`none`) is no child's pid. A `fork` that fails is tried again,
which is no step here. The real-time signals of the children and the output are
left out.
-/

namespace AghOs.Permissions

/-- The arguments that `main` accepts. -/
structure Config where
  childrenCount : ℕ
  requestThreshold : ℤ
  le : requestThreshold ≤ childrenCount

inductive ChldState
  | running
  | requested
  | terminated
  deriving DecidableEq

/-- Where a child is in `children_main`. -/
inductive Child
  | unborn
  /-- before `signal` -/
  | started
  /-- before `kill` -/
  | ready
  /-- in the loop of `pause` -/
  | asked
  /-- after its handler -/
  | exited
  /-- `wait` has returned it -/
  | reaped
  deriving DecidableEq

/-- Where the parent is in `main` and `run`; `i` is the counter of a loop. -/
inductive MainPc
  | fork (i : ℕ)
  /-- at `children[i] = pf` -/
  | store (i : ℕ)
  | wait
  /-- in the loop over `children` after `wait` -/
  | mark (child i : ℕ)
  /-- in `all_children_terminated` -/
  | check (i : ℕ)
  | exited
  deriving DecidableEq

/-- Where the parent is in `usr1_handler`. -/
inductive HandlerPc
  | idle
  /-- at `++request_count` -/
  | count (sender : ℕ)
  /-- in the first loop -/
  | mark (sender i : ℕ)
  /-- in the second loop -/
  | grant (i : ℕ)
  /-- at `kill` -/
  | kill (i : ℕ)
  deriving DecidableEq

/-- The parent and the children. -/
structure Group where
  main : MainPc
  handler : HandlerPc
  /-- the sender of the `SIGUSR1` that is pending at the parent -/
  pending : Option ℕ
  requestCount : ℕ
  children : ℕ → Option ℕ
  childrenStates : ℕ → ChldState
  child : ℕ → Child
  /-- how many requests a child has sent -/
  requests : ℕ → ℕ
  /-- how many permissions a child has been sent -/
  permissions : ℕ → ℕ

inductive Label
  /-- a step of the parent in `main` or `run` -/
  | main
  /-- `wait` returns a child -/
  | reap (child : ℕ)
  /-- `wait` fails, there are no children -/
  | noChild
  /-- the handler is called -/
  | handle
  /-- a step of the handler -/
  | handler
  /-- a step of a child -/
  | child (i : ℕ)
  /-- the handler of a child is called -/
  | permission (i : ℕ)

namespace Group

/-- Before the loop that forks. -/
def initial : Group where
  main := .fork 0
  handler := .idle
  pending := none
  requestCount := 0
  children _ := none
  childrenStates _ := .running
  child _ := .unborn
  requests _ := 0
  permissions _ := 0

variable (cfg : Config) (s : Group)

def mainStep : Option Group :=
  match s.main with
  | .fork i =>
    if i < cfg.childrenCount then
      some { s with main := .store i, child := Function.update s.child i .started }
    else some { s with main := .wait }
  | .store i =>
    some { s with main := .fork (i + 1), children := Function.update s.children i (some i) }
  | .mark c i =>
    if i < cfg.childrenCount then
      some { s with
        main := .mark c (i + 1)
        childrenStates :=
          if s.children i = some c then Function.update s.childrenStates i .terminated
          else s.childrenStates }
    else some { s with main := .check 0 }
  | .check i =>
    if i < cfg.childrenCount then
      some { s with main := if s.childrenStates i = .terminated then .check (i + 1) else .wait }
    else some { s with main := .exited }
  | .wait => none
  | .exited => none

/-- `kill(children[i], SIGUSR1)` for an entry of `children`. -/
def permit (entry : Option ℕ) : ℕ → ℕ :=
  match entry with
  | some c => Function.update s.permissions c (s.permissions c + 1)
  | none => s.permissions

def handlerStep : Option Group :=
  match s.handler with
  | .idle => none
  | .count c => some { s with handler := .mark c 0, requestCount := s.requestCount + 1 }
  | .mark c i =>
    if i < cfg.childrenCount then
      some { s with
        handler := .mark c (i + 1)
        childrenStates :=
          if s.children i = some c then Function.update s.childrenStates i .requested
          else s.childrenStates }
    else
      some { s with handler := if s.requestCount < cfg.requestThreshold then .idle else .grant 0 }
  | .grant i =>
    if i < cfg.childrenCount then
      if s.childrenStates i = .requested then
        some { s with
          handler := .kill i
          childrenStates := Function.update s.childrenStates i .running }
      else some { s with handler := .grant (i + 1) }
    else some { s with handler := .idle }
  | .kill i => some { s with handler := .grant (i + 1), permissions := s.permit (s.children i) }

def childStep (i : ℕ) : Option Group :=
  match s.child i with
  | .started => some { s with child := Function.update s.child i .ready }
  | .ready =>
    some { s with
      child := Function.update s.child i .asked
      requests := Function.update s.requests i (s.requests i + 1)
      pending := some (s.pending.getD i) }
  | _ => none

def next : Label → Option Group
  | .main => if s.handler = .idle then s.mainStep cfg else none
  | .reap c =>
    if s.handler = .idle ∧ s.main = .wait ∧ s.child c = .exited then
      some { s with main := .mark c 0, child := Function.update s.child c .reaped }
    else none
  | .noChild =>
    if s.handler = .idle ∧ s.main = .wait ∧ ∀ i < cfg.childrenCount, s.child i = .reaped then
      some { s with main := .exited }
    else none
  | .handle =>
    if s.handler = .idle ∧ s.main ≠ .exited then
      s.pending.map fun c => { s with handler := .count c, pending := none }
    else none
  | .handler => s.handlerStep cfg
  | .child i => s.childStep i
  | .permission i =>
    if (s.child i = .ready ∨ s.child i = .asked) ∧ 0 < s.permissions i then
      some { s with child := Function.update s.child i .exited }
    else none

end Group

/-- The processes. -/
def machine (cfg : Config) : Machine Group Label where
  init s := s = Group.initial
  next s l := s.next cfg l

end AghOs.Permissions
