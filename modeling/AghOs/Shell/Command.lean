import AghOs.Machine.Descriptors
import Mathlib.Data.Int.Notation
import Mathlib.Data.List.Basic

/-!
# The command runner of the shell

`command_runner.c` of `cw05`. `argv` is the list of the `argc` words before the
`NULL`; putting `NULL` in the place of a `|` leaves the words before it. A child
of `vfork` has a copy of the descriptor table, and runs until `execvp` before the
shell goes on.

`Calls` says which calls of `pipe` and `vfork` succeed; a `dup2` of an open
descriptor does. A child that has no arguments has no program to run: its `execvp`
fails, and it exits with 127.

* `execCommand_bar`, `execCommand_last`: a level of the recursion.
-/

namespace AghOs.Shell

/-- `"|"` -/
def bar : List UInt8 := [124]

/-- A process that calls `execvp` for `argv`, with its descriptors. -/
structure Proc (φ : Type) where
  argv : List (List UInt8)
  table : Table φ

/-- The shell: its descriptors, the number of pipes made and the processes
    started. Nobody holds a pipe that has not been made. -/
structure ShellState (φ : Type) where
  table : Table φ
  pipes : ℕ
  procs : List (Proc φ)
  table_known : table.Before pipes
  procs_known : ∀ p ∈ procs, p.table.Before pipes

/-- The shell as it starts, with three descriptors. -/
def ShellState.initial : ShellState Unit where
  table := ⟨fun fd => if fd < 3 then some (.other ()) else none, 3, fun fd h => if_neg (by omega)⟩
  pipes := 0
  procs := []
  table_known fd f h := by
    simp only [Option.ite_none_right_eq_some, Option.some.injEq] at h
    obtain ⟨-, rfl⟩ := h
    trivial
  procs_known p hp := by cases hp

/-- Whether the `i`-th calls of `pipe` and of `vfork` of a command succeed. -/
structure Calls where
  pipe : ℕ → Bool
  vfork : ℕ → Bool

variable {φ : Type}

namespace ShellState

/-- `pipe(fd)` -/
def pipe (s : ShellState φ) : ShellState φ where
  table := s.table.pipe s.pipes
  pipes := s.pipes + 1
  procs := s.procs
  table_known := s.table_known.pipe
  procs_known p hp := (s.procs_known p hp).mono (Nat.le_succ _)

/-- The shell goes on with another table. -/
def setTable (s : ShellState φ) (t : Table φ) (ht : t.Before s.pipes) : ShellState φ :=
  { s with table := t, table_known := ht }

/-- `close(fd[1]); dup2(fd[0], 0);` in the shell. -/
def connect (s : ShellState φ) (fd : ℕ × ℕ) : ShellState φ :=
  s.setTable ((s.table.close fd.2).dup2 fd.1 0) ((s.table_known.close _).dup2 _ _)

/-- The descriptors with which a child calls `execvp`: if it writes to a pipe,
    after `close(fd[0]); dup2(fd[1], 1);`. -/
def childTable (s : ShellState φ) : Option (ℕ × ℕ) → Table φ
  | none => s.table
  | some fd => (s.table.close fd.1).dup2 fd.2 1

theorem childTable_known (s : ShellState φ) (fd : Option (ℕ × ℕ)) :
    (s.childTable fd).Before s.pipes := by
  cases fd with
  | none => exact s.table_known
  | some fd => exact (s.table_known.close _).dup2 _ _

/-- `vfork`, and the child up to `execvp(argv[0], argv)`. -/
def spawn (s : ShellState φ) (argv : List (List UInt8)) (fd : Option (ℕ × ℕ)) : ShellState φ :=
  { s with
    procs := s.procs ++ [⟨argv, s.childTable fd⟩]
    procs_known := by
      intro p hp
      obtain hp | hp := List.mem_append.mp hp
      · exact s.procs_known p hp
      · rw [List.mem_singleton.mp hp]
        exact s.childTable_known fd }

end ShellState

/-- `exec_command` and `run_command` return, or the shell exits. -/
inductive Outcome (φ : Type)
  | returned (s : ShellState φ) (r : ℤ)
  | exited

/-- The variable `to`: the place of the first `|`. -/
def findBar (argv : List (List UInt8)) : Option ℕ := argv.findIdx? (· == bar)

theorem findBar_none {argv : List (List UInt8)} (h : bar ∉ argv) : findBar argv = none := by
  unfold findBar
  rw [List.findIdx?_eq_none_iff]
  intro x hx
  simpa using ne_of_mem_of_not_mem hx h

theorem findBar_some {xs ys : List (List UInt8)} (h : bar ∉ xs) :
    findBar (xs ++ bar :: ys) = some xs.length := by
  have hxs : xs.findIdx? (· == bar) = none := findBar_none h
  unfold findBar
  rw [List.findIdx?_append, hxs]
  simp [List.findIdx?_cons]

theorem findBar_lt {argv : List (List UInt8)} {n : ℕ} (h : findBar argv = some n) :
    n < argv.length := by
  unfold findBar at h
  rw [List.findIdx?_eq_some_iff_getElem] at h
  exact h.1

/-- `exec_command`, its `i`-th call in a command. -/
def execCommand (K : Calls) (i : ℕ) (s : ShellState φ) (argv : List (List UInt8)) : Outcome φ :=
  match _h : findBar argv with
  | none => if K.vfork i then .returned (s.spawn argv none) 0 else .returned s (-1)
  | some n =>
    if K.pipe i then
      let fd := (s.table.readEnd, s.table.writeEnd s.pipes)
      if K.vfork i then
        execCommand K (i + 1) ((s.pipe.spawn (argv.take n) (some fd)).connect fd)
          (argv.drop (n + 1))
      else .returned s.pipe (-1)
    else .exited
termination_by argv.length
decreasing_by
  have := findBar_lt _h
  rw [List.length_drop]
  omega

/-- The loop of `run_command`; `statuses` are the exit statuses that `waitpid`
    reports until there is no child left. -/
def awaitChildren : List ℤ → ℤ
  | [] => 0
  | status :: rest => if status ≠ 0 then -1 else awaitChildren rest

/-- `run_command` -/
def runCommand (K : Calls) (statuses : List ℤ) (s : ShellState φ) (argv : List (List UInt8)) :
    Outcome φ :=
  match execCommand K 0 s argv with
  | .returned s _ => .returned s (awaitChildren statuses)
  | .exited => .exited

section

variable {K : Calls} {i : ℕ} {s : ShellState φ} {xs ys argv : List (List UInt8)}

/-- The last stage. -/
theorem execCommand_last (h : bar ∉ argv) :
    execCommand K i s argv =
      if K.vfork i then .returned (s.spawn argv none) 0 else .returned s (-1) := by
  rw [execCommand, findBar_none h]

/-- The shell after it has started the stage `xs`, that writes to a pipe. -/
def ShellState.next (s : ShellState φ) (xs : List (List UInt8)) : ShellState φ :=
  (s.pipe.spawn xs (some (s.table.readEnd, s.table.writeEnd s.pipes))).connect
    (s.table.readEnd, s.table.writeEnd s.pipes)

/-- A stage that is not the last. -/
theorem execCommand_bar (h : bar ∉ xs) :
    execCommand K i s (xs ++ bar :: ys) =
      if K.pipe i then
        if K.vfork i then execCommand K (i + 1) (s.next xs) ys else .returned s.pipe (-1)
      else .exited := by
  rw [execCommand, findBar_some h]
  simp only [List.take_left, List.drop_length_add_append, List.drop_one, List.tail_cons]
  rfl

end

end AghOs.Shell
