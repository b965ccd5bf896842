import AghOs.Shell.Aftermath
import AghOs.Shell.Quoting
import AghOs.Shell.Script

/-!
# Awaiting a pipeline

`run_command` (`command_runner.c` of `cw05`, lines 57–75) and `interpret_file`
(`interpreter.c`, lines 76–111). Every child is in the process group of the shell, and
the shell has none when it starts.

`main` opens a script, or takes it from standard input. There `fgets` reads from
descriptor 0, in whose place `exec_command` puts the pipe of the first stage that it
starts, and from which the commands read as well. `Input` says what `fgets` gets to
read.

`waitpid` reports the children in any order. The loop leaves with `-1` at the first
one whose `WEXITSTATUS` is not `0`, and `interpret_file` then leaves its own with
`break`, that is with `0`. What `exec_command` returns is not looked at.

* `execCommand_shell`: the stages are those that `AghOs.Shell.execCommand` starts.
* `reached_alone`: a line is run when the shell has no child left.
* `awaited_iff`, `ret_iff`: when a line has been awaited as a whole, and when its
  failure is told by the value returned.
* `readLines_eq`: `fgets` reads the whole script if it is in a file, or if no command
  touches standard input.
* `failures_reported_iff`: the scripts whose failures are all reported.
* `malformed_behind_pipeline`: a script on standard input is malformed behind a
  pipeline.
-/

namespace AghOs.Shell.Await

open Script (Parsed scriptLines fgets_lt)

/-! ## `run_command` -/

/-- A process that `exec_command` starts for a line. -/
structure Stage where
  line : ℕ
  index : ℕ
  argv : List (List UInt8)
  deriving DecidableEq

/-- Which calls succeed for a line, how the stages end, and the order in which
    `waitpid` reports the children that there are. -/
structure World where
  calls : ℕ → Calls
  ends : Stage → Termination
  order : ℕ → List Stage → List Stage
  order_perm : ∀ line kids, (order line kids).Perm kids

/-- `exec_command`, its `i`-th call for a line: the stages that it starts and the value
    it returns, or `none` if the shell exits. -/
def execCommand (K : Calls) (line i : ℕ) (argv : List (List UInt8)) : Option (List Stage × ℤ) :=
  match _h : findBar argv with
  | none => if K.vfork i then some ([⟨line, i, argv⟩], 0) else some ([], -1)
  | some n =>
    if K.pipe i then
      if K.vfork i then
        (execCommand K line (i + 1) (argv.drop (n + 1))).map fun p =>
          (⟨line, i, argv.take n⟩ :: p.1, p.2)
      else some ([], -1)
    else none
termination_by argv.length
decreasing_by
  have := findBar_lt _h
  rw [List.length_drop]
  omega

/-- The loop of `run_command`: the value returned, and the children that are left. -/
def waitChildren (ends : Stage → Termination) : List Stage → ℤ × List Stage
  | [] => (0, [])
  | curr :: rest =>
    if wexitstatus (ends curr).status ≠ 0 then (-1, rest) else waitChildren ends rest

/-- A call of `run_command` that has returned. -/
structure Call where
  line : ℕ
  argv : List (List UInt8)
  started : List Stage
  ret : ℤ
  left : List Stage

/-- `run_command`, when the shell has the children `kids`. -/
def runCommand (W : World) (line : ℕ) (kids : List Stage) (argv : List (List UInt8)) :
    Option Call :=
  match execCommand (W.calls line) line 0 argv with
  | none => none
  | some (started, _) =>
    let (ret, left) := waitChildren W.ends (W.order line (kids ++ started))
    some ⟨line, argv, started, ret, left⟩

/-! ## `interpret_file` -/

/-- How `interpret_file` ends. -/
inductive Ending
  | undefined
  | exited
  | returned (ret : ℤ)

/-- The calls of `run_command` that have returned, and the end. -/
structure Run where
  calls : List Call
  ending : Ending

def Run.after (r : Run) (c : Call) : Run := ⟨c :: r.calls, r.ending⟩

/-- What `fgets` reads from: a file, or standard input. There, once the command of a line
    in `touched` has run or a pipe has been put in the place of descriptor 0, `rest` is all
    that is read any more: what stdio has buffered, and what the descriptor then yields. -/
inductive Input
  | file
  | stdin (touched : ℕ → Bool) (rest : List UInt8)

namespace Input

/-- Whether `fgets` may still lose the script. -/
def pending : Input → ℕ
  | file => 0
  | stdin _ _ => 1

/-- The input and what is left of it behind a line. -/
def behind (K : Calls) (line : ℕ) (stream : List UInt8) : Input → Parsed → Input × List UInt8
  | stdin touched rest, .command argv =>
    if argv.contains bar && K.vfork 0 || touched line then (file, rest)
    else (stdin touched rest, stream)
  | input, _ => (input, stream)

theorem behind_pipeline {K : Calls} {argv : List (List UInt8)} (hbar : bar ∈ argv)
    (hfork : K.vfork 0 = true) (line : ℕ) (stream rest : List UInt8) (touched : ℕ → Bool) :
    (stdin touched rest).behind K line stream (.command argv) = (file, rest) :=
  if_pos (by simp [hbar, hfork])

/-- Either `fgets` has lost the script, or it goes on in the same one. -/
theorem behind_cases (K : Calls) (line : ℕ) (stream : List UInt8) (input : Input) (p : Parsed) :
    (input.behind K line stream p).1.pending < input.pending ∨
      input.behind K line stream p = (input, stream) := by
  unfold behind
  split
  · split
    · exact .inl Nat.zero_lt_one
    · exact .inr rfl
  · exact .inr rfl

theorem behind_lt {K : Calls} {line : ℕ} {p : Parsed} {stream stream' : List UInt8}
    (input : Input) (h : stream.length < stream'.length) :
    Prod.Lex (· < ·) (· < ·)
      ((input.behind K line stream p).1.pending, (input.behind K line stream p).2.length)
      (input.pending, stream'.length) := by
  obtain hlt | heq := behind_cases K line stream input p
  · exact .left _ _ hlt
  · rw [heq]
    exact .right _ h

end Input

/-- The loop of `interpret_file`, with `stream` still to be read. `args` of a line is
    what the array holds before the line is parsed. -/
def fileLoop (W : World) (args : ℕ → List (Option ℕ)) (line : ℕ) (kids : List Stage)
    (input : Input) (buf stream : List UInt8) : Run :=
  match _h : fgets buf stream with
  | none => ⟨[], .returned 0⟩
  | some (buf, stream) =>
    match interpretLine buf (args line) with
    | none => ⟨[], .undefined⟩
    | some (m, r) =>
      if r < 0 then ⟨[], .returned (-1)⟩
      else
        let next := input.behind (W.calls line) line stream (.of m r)
        if m.argc = 0 then fileLoop W args (line + 1) kids next.1 m.buf next.2
        else
          match runCommand W line kids m.argStrings with
          | none => ⟨[], .exited⟩
          | some c =>
            -- `break`, behind the message that running the command failed
            if c.ret ≠ 0 then ⟨[c], .returned 0⟩
            else (fileLoop W args (line + 1) c.left next.1 m.buf next.2).after c
termination_by (input.pending, stream.length)
decreasing_by
  all_goals exact input.behind_lt (fgets_lt _h)

/-- `interpret_file` -/
def interpretFile (W : World) (args : ℕ → List (Option ℕ)) (input : Input)
    (buf stream : List UInt8) : Run :=
  fileLoop W args 1 [] input buf stream

/-- The lines of a script. -/
def parsedLines (args : ℕ → List (Option ℕ)) (line : ℕ) (buf stream : List UInt8) : List Parsed :=
  (scriptLines (fun _ => .notForked) args line buf stream).map Script.Line.parsed

/-- The lines that `fgets` gets to read. -/
def readLines (W : World) (args : ℕ → List (Option ℕ)) (line : ℕ) (input : Input)
    (buf stream : List UInt8) : List Parsed :=
  match _h : fgets buf stream with
  | none => []
  | some (buf, stream) =>
    match interpretLine buf (args line) with
    | none => [.undefined]
    | some (m, r) =>
      let next := input.behind (W.calls line) line stream (.of m r)
      .of m r :: readLines W args (line + 1) next.1 m.buf next.2
termination_by (input.pending, stream.length)
decreasing_by
  exact input.behind_lt (fgets_lt _h)

/-! ## What is to be reported -/

/-- The processes with these arguments, numbered from `i` on. -/
def numbered (line : ℕ) : ℕ → List (List (List UInt8)) → List Stage
  | _, [] => []
  | i, argv :: rest => ⟨line, i, argv⟩ :: numbered line (i + 1) rest

/-- The stages of a pipeline. -/
def stagesOf (line i : ℕ) (argv : List (List UInt8)) : List Stage :=
  numbered line i (argv.splitOn bar)

/-- Every stage that was started has been reaped. -/
def Call.Awaited (c : Call) : Prop := ∀ s ∈ c.started, s ∉ c.left

/-- Every stage of the pipeline was started and exited normally with code 0. -/
def Call.Succeeds (W : World) (c : Call) : Prop :=
  ∀ s ∈ stagesOf c.line 0 c.argv, s ∈ c.started ∧ W.ends s = .exited 0

/-- Every line is awaited as a whole, and every failure is reported. -/
structure Reported (W : World) (lines : List Parsed) (r : Run) : Prop where
  defined : r.ending ≠ .undefined
  awaited : ∀ c ∈ r.calls, c.Awaited
  ret : ∀ c ∈ r.calls, c.ret = -1 ↔ ¬c.Succeeds W
  file : ∀ ret, r.ending = .returned ret →
    (ret ≠ 0 ↔ .malformed ∈ lines ∨ ∃ c ∈ r.calls, ¬c.Succeeds W)

/-! ## The stages that are started -/

section

variable {K : Calls} {line i : ℕ} {xs ys argv : List (List UInt8)} {started : List Stage} {r : ℤ}

theorem execCommand_last (h : bar ∉ argv) :
    execCommand K line i argv =
      if K.vfork i then some ([⟨line, i, argv⟩], 0) else some ([], -1) := by
  rw [execCommand, findBar_none h]

theorem execCommand_bar (h : bar ∉ xs) :
    execCommand K line i (xs ++ bar :: ys) =
      if K.pipe i then
        if K.vfork i then
          (execCommand K line (i + 1) ys).map fun p => (⟨line, i, xs⟩ :: p.1, p.2)
        else some ([], -1)
      else none := by
  rw [execCommand, findBar_some h]
  simp only [List.take_left, List.drop_length_add_append, List.drop_one, List.tail_cons]

theorem stagesOf_last (h : bar ∉ argv) : stagesOf line i argv = [⟨line, i, argv⟩] := by
  rw [stagesOf, List.splitOn_eq_singleton h]
  rfl

theorem stagesOf_bar (h : bar ∉ xs) :
    stagesOf line i (xs ++ bar :: ys) = ⟨line, i, xs⟩ :: stagesOf line (i + 1) ys := by
  rw [stagesOf, List.splitOn_append_cons_self_of_not_mem h]
  rfl

/-- The processes that are started, and the value returned, are those of
    `AghOs.Shell.execCommand`. -/
theorem execCommand_shell {φ : Type} (K : Calls) (line i : ℕ) (s : ShellState φ)
    (argv : List (List UInt8)) :
    (execCommand K line i argv = none → Shell.execCommand K i s argv = .exited) ∧
      ∀ started r, execCommand K line i argv = some (started, r) →
        ∃ s', Shell.execCommand K i s argv = .returned s' r ∧ s'.procs.map Proc.argv =
          s.procs.map Proc.argv ++ started.map Stage.argv := by
  induction argv using bar_induction generalizing i s with
  | hlast argv h =>
    rw [execCommand_last h, Shell.execCommand_last h]
    cases K.vfork i with
    | true =>
      refine ⟨fun hn => (by cases hn), fun started r hs => ?_⟩
      cases hs
      exact ⟨_, rfl, List.map_append⟩
    | false =>
      refine ⟨fun hn => (by cases hn), fun started r hs => ?_⟩
      cases hs
      exact ⟨_, rfl, (List.append_nil _).symm⟩
  | hbar xs ys h ih =>
    rw [execCommand_bar h, Shell.execCommand_bar h]
    cases K.pipe i with
    | false => exact ⟨fun _ => rfl, fun started r hs => (by cases hs)⟩
    | true =>
      cases K.vfork i with
      | false =>
        refine ⟨fun hn => (by cases hn), fun started r hs => ?_⟩
        cases hs
        exact ⟨_, rfl, (List.append_nil _).symm⟩
      | true =>
        obtain ⟨hnone, hsome⟩ := ih (i + 1) (s.next xs)
        refine ⟨fun hn => hnone (Option.map_eq_none_iff.mp hn), fun started r hs => ?_⟩
        obtain ⟨⟨rest, r'⟩, hrest, he⟩ := Option.map_eq_some_iff.mp hs
        cases he
        obtain ⟨s', hs', hprocs⟩ := hsome rest r' hrest
        refine ⟨s', hs', hprocs.trans ?_⟩
        rw [s.next_procs xs, List.map_append, List.append_assoc]
        rfl

theorem execCommand_none_iff : execCommand K line i argv = none ↔ PipeFails K i argv := by
  obtain ⟨hnone, hsome⟩ := execCommand_shell K line i ShellState.initial argv
  rw [← execCommand_exited_iff argv i ShellState.initial]
  refine ⟨hnone, fun h => ?_⟩
  cases he : execCommand K line i argv with
  | none => rfl
  | some p =>
    obtain ⟨s', hs', -⟩ := hsome p.1 p.2 he
    rw [h] at hs'
    cases hs'

/-- All the calls succeed that the stages need. -/
def AllStarted (K : Calls) (i : ℕ) (argv : List (List UInt8)) : Prop :=
  (∀ j < argv.count bar, K.pipe (i + j) = true) ∧ ∀ j ≤ argv.count bar, K.vfork (i + j) = true

theorem AllStarted.not_pipeFails (h : AllStarted K i argv) : ¬PipeFails K i argv := by
  rintro ⟨j, hj, hpipe, -⟩
  rw [h.1 j hj] at hpipe
  cases hpipe

theorem allStarted_last (h : bar ∉ argv) : AllStarted K i argv ↔ K.vfork i = true := by
  unfold AllStarted
  rw [List.count_eq_zero_of_not_mem h]
  refine ⟨fun hall => hall.2 0 le_rfl, fun hv => ⟨fun j hj => absurd hj (Nat.not_lt_zero j), ?_⟩⟩
  intro j hj
  obtain rfl := Nat.le_zero.mp hj
  exact hv

theorem allStarted_bar (h : bar ∉ xs) :
    AllStarted K i (xs ++ bar :: ys) ↔
      K.pipe i = true ∧ K.vfork i = true ∧ AllStarted K (i + 1) ys := by
  have hcount : (xs ++ bar :: ys).count bar = ys.count bar + 1 := by
    rw [List.count_append, List.count_eq_zero_of_not_mem h, List.count_cons_self, Nat.zero_add]
  unfold AllStarted
  rw [hcount]
  constructor
  · rintro ⟨hp, hv⟩
    refine ⟨hp 0 (Nat.succ_pos _), hv 0 (Nat.zero_le _), fun j hj => ?_, fun j hj => ?_⟩
    · rw [Nat.add_assoc, Nat.add_comm 1 j]
      exact hp (j + 1) (Nat.succ_lt_succ hj)
    · rw [Nat.add_assoc, Nat.add_comm 1 j]
      exact hv (j + 1) (Nat.succ_le_succ hj)
  · rintro ⟨hp0, hv0, hp, hv⟩
    constructor
    · intro j hj
      cases j with
      | zero => exact hp0
      | succ j =>
        rw [Nat.add_comm j 1, ← Nat.add_assoc]
        exact hp j (Nat.lt_of_succ_lt_succ hj)
    · intro j hj
      cases j with
      | zero => exact hv0
      | succ j =>
        rw [Nat.add_comm j 1, ← Nat.add_assoc]
        exact hv j (Nat.le_of_succ_le_succ hj)

theorem index_le {s : Stage} (h : s ∈ stagesOf line i argv) : i ≤ s.index := by
  unfold stagesOf at h
  generalize argv.splitOn bar = l at h
  induction l generalizing i with
  | nil => cases h
  | cons a l ih =>
    obtain rfl | h := List.mem_cons.mp h
    · exact le_rfl
    · exact (Nat.le_succ i).trans (ih h)

/-- The stages that are started are all of them, or one is missing. -/
theorem started_eq (h : execCommand K line i argv = some (started, r)) :
    AllStarted K i argv ∧ started = stagesOf line i argv ∨
      ¬AllStarted K i argv ∧ ∃ s ∈ stagesOf line i argv, s ∉ started := by
  induction argv using bar_induction generalizing i started with
  | hlast argv hargv =>
    rw [execCommand_last hargv] at h
    rw [allStarted_last hargv, stagesOf_last hargv]
    cases hv : K.vfork i with
    | true =>
      rw [hv] at h
      cases h
      exact .inl ⟨rfl, rfl⟩
    | false =>
      rw [hv] at h
      cases h
      exact .inr ⟨by decide, _, List.mem_singleton_self _, List.not_mem_nil⟩
  | hbar xs ys hxs ih =>
    rw [execCommand_bar hxs] at h
    rw [allStarted_bar hxs, stagesOf_bar hxs]
    cases hp : K.pipe i with
    | false =>
      rw [hp] at h
      cases h
    | true =>
      cases hv : K.vfork i with
      | false =>
        rw [hp, hv] at h
        cases h
        exact .inr ⟨by simp, _, List.mem_cons_self, List.not_mem_nil⟩
      | true =>
        rw [hp, hv] at h
        obtain ⟨⟨rest, r'⟩, hrest, he⟩ := Option.map_eq_some_iff.mp h
        cases he
        obtain ⟨hall, hstages⟩ | ⟨hnot, s, hs, hmissing⟩ := ih hrest
        · exact .inl ⟨⟨rfl, rfl, hall⟩, congrArg _ hstages⟩
        · refine .inr ⟨fun hall => hnot hall.2.2, s, List.mem_cons_of_mem _ hs, ?_⟩
          rw [List.mem_cons, not_or]
          refine ⟨?_, hmissing⟩
          rintro rfl
          exact absurd (index_le hs) (Nat.not_succ_le_self i)

end

/-! ## The loop of `run_command` -/

section

variable {ends : Stage → Termination}

theorem passes_iff (e : Termination) :
    wexitstatus e.status = 0 ↔ ∀ code, e = .exited code → code = 0 := by
  cases e with
  | exited code =>
    rw [wexitstatus_exited]
    refine ⟨fun h c hc => ?_, fun h => ?_⟩
    · cases hc
      exact UInt8.toNat_inj.mp h
    · rw [h code rfl]
      rfl
  | killed signal core =>
    rw [wexitstatus_killed]
    exact ⟨fun _ c hc => (by cases hc), fun _ => rfl⟩

/-- What the loop returns is `awaitChildren` of the exit codes. -/
theorem waitChildren_ret (l : List Stage) :
    (waitChildren ends l).1 = awaitChildren (l.map fun s => wexitstatus (ends s).status) := by
  induction l with
  | nil => rfl
  | cons s l ih =>
    rw [waitChildren, List.map_cons, awaitChildren, ← ih]
    by_cases h : wexitstatus (ends s).status = 0
    · rw [if_neg (not_not.mpr h), if_neg (by exact_mod_cast not_not.mpr h)]
    · rw [if_pos h, if_pos (by exact_mod_cast h)]

/-- All the children have been awaited, or those up to the first failure. -/
theorem waitChildren_eq (ends : Stage → Termination) (l : List Stage) :
    (∀ s ∈ l, wexitstatus (ends s).status = 0) ∧ waitChildren ends l = (0, []) ∨
      ∃ before s rest, l = before ++ s :: rest ∧
        (∀ t ∈ before, wexitstatus (ends t).status = 0) ∧ wexitstatus (ends s).status ≠ 0 ∧
          waitChildren ends l = (-1, rest) := by
  induction l with
  | nil => exact .inl ⟨fun _ h => (by cases h), rfl⟩
  | cons s l ih =>
    by_cases h : wexitstatus (ends s).status = 0
    · have hnext : waitChildren ends (s :: l) = waitChildren ends l := if_neg (not_not.mpr h)
      rw [hnext]
      obtain ⟨hall, heq⟩ | ⟨before, t, rest, rfl, hbefore, ht, heq⟩ := ih
      · exact .inl ⟨List.forall_mem_cons.mpr ⟨h, hall⟩, heq⟩
      · exact .inr ⟨s :: before, t, rest, rfl, List.forall_mem_cons.mpr ⟨h, hbefore⟩, ht, heq⟩
    · exact .inr ⟨[], s, l, rfl, fun _ h => (by cases h), h, if_pos h⟩

end

/-! ## A line -/

/-- When the call was made, the shell had no children. -/
def Call.Alone (W : World) (c : Call) : Prop :=
  ∃ r, execCommand (W.calls c.line) c.line 0 c.argv = some (c.started, r) ∧
    waitChildren W.ends (W.order c.line c.started) = (c.ret, c.left)

/-- All the stages of a line can be started, and exit normally with code 0. -/
def LineSucceeds (W : World) (line : ℕ) (argv : List (List UInt8)) : Prop :=
  AllStarted (W.calls line) 0 argv ∧ ∀ s ∈ stagesOf line 0 argv, W.ends s = .exited 0

section

variable {W : World} {line : ℕ} {argv : List (List UInt8)} {c : Call}

theorem runCommand_none_iff (kids : List Stage) :
    runCommand W line kids argv = none ↔ PipeFails (W.calls line) 0 argv := by
  have hexec : execCommand (W.calls line) line 0 argv = none ↔ _ := execCommand_none_iff
  rw [← hexec, runCommand]
  cases execCommand (W.calls line) line 0 argv <;> simp

theorem runCommand_alone (h : runCommand W line [] argv = some c) :
    c.line = line ∧ c.argv = argv ∧ c.Alone W := by
  unfold runCommand at h
  cases he : execCommand (W.calls line) line 0 argv with
  | none =>
    rw [he] at h
    cases h
  | some p =>
    rw [he] at h
    cases h
    exact ⟨rfl, rfl, p.2, he, rfl⟩

theorem World.mem_order (W : World) (line : ℕ) {s : Stage} {kids : List Stage} :
    s ∈ W.order line kids ↔ s ∈ kids :=
  (W.order_perm line kids).mem_iff

/-- All the stages have been reaped, or those up to the first that failed. -/
theorem Call.Alone.cases (h : c.Alone W) :
    (∀ s ∈ c.started, wexitstatus (W.ends s).status = 0) ∧ c.ret = 0 ∧ c.left = [] ∨
      ∃ before s, W.order c.line c.started = before ++ s :: c.left ∧
        (∀ t ∈ before, wexitstatus (W.ends t).status = 0) ∧
        wexitstatus (W.ends s).status ≠ 0 ∧ c.ret = -1 := by
  obtain ⟨-, -, hwait⟩ := id h
  obtain ⟨hall, heq⟩ | ⟨before, s, rest, horder, hbefore, hs, heq⟩ :=
    waitChildren_eq W.ends (W.order c.line c.started)
  · obtain ⟨hret, hleft⟩ := Prod.ext_iff.mp (hwait.symm.trans heq)
    exact .inl ⟨fun s hs => hall s ((W.mem_order c.line).mpr hs), hret, hleft⟩
  · obtain ⟨hret, rfl⟩ := Prod.ext_iff.mp (hwait.symm.trans heq)
    exact .inr ⟨before, s, horder, hbefore, hs, hret⟩

theorem Call.Alone.succeeds_iff (h : c.Alone W) :
    c.Succeeds W ↔ LineSucceeds W c.line c.argv := by
  obtain ⟨r, hexec, -⟩ := h
  obtain ⟨hall, hstarted⟩ | ⟨hnot, s, hs, hmissing⟩ := started_eq hexec
  · refine ⟨fun hsucc => ⟨hall, fun s hs => (hsucc s hs).2⟩, fun hline s hs => ?_⟩
    exact ⟨hstarted ▸ hs, hline.2 s hs⟩
  · exact iff_of_false (fun hsucc => hmissing (hsucc s hs).1) fun hline => hnot hline.1

theorem Call.Alone.ends_of_succeeds (h : c.Alone W) (hsucc : c.Succeeds W) :
    ∀ s ∈ c.started, W.ends s = .exited 0 := by
  obtain ⟨r, hexec, -⟩ := h
  obtain ⟨-, hstarted⟩ | ⟨-, s, hs, hmissing⟩ := started_eq hexec
  · rw [hstarted]
    exact fun s hs => (hsucc s hs).2
  · exact absurd (hsucc s hs).1 hmissing

theorem Call.Alone.of_succeeds (h : c.Alone W) (hsucc : c.Succeeds W) :
    c.ret = 0 ∧ c.left = [] := by
  obtain ⟨-, hret⟩ | ⟨before, s, horder, -, hs, -⟩ := h.cases
  · exact hret
  · have hmem : s ∈ c.started := by
      rw [← W.mem_order c.line, horder]
      exact List.mem_append_right _ List.mem_cons_self
    rw [h.ends_of_succeeds hsucc s hmem] at hs
    exact absurd (wexitstatus_exited 0) hs

/-- A line has been awaited as a whole when no stage is reported behind one that
    exited with another code than 0. -/
theorem awaited_iff (h : c.Alone W) :
    c.Awaited ↔ ∀ s ∈ (W.order c.line c.started).dropLast, wexitstatus (W.ends s).status = 0 := by
  unfold Call.Awaited
  obtain ⟨hall, -, hleft⟩ | ⟨before, s, horder, hbefore, hs, -⟩ := h.cases
  · rw [hleft]
    refine iff_of_true (fun _ _ => List.not_mem_nil) fun s hs => ?_
    exact hall s ((W.mem_order c.line).mp (List.dropLast_subset _ hs))
  · rw [horder]
    cases hleft : c.left with
    | nil =>
      rw [List.dropLast_concat]
      exact iff_of_true (fun _ _ => List.not_mem_nil) hbefore
    | cons t left =>
      refine iff_of_false (fun hawait => ?_) fun hpass => hs (hpass s ?_)
      · refine hawait t ((W.mem_order c.line).mp ?_) List.mem_cons_self
        rw [horder, hleft]
        exact List.mem_append_right _ (List.mem_cons_of_mem _ List.mem_cons_self)
      · rw [List.dropLast_append_of_ne_nil (List.cons_ne_nil _ _)]
        exact List.mem_append_right _ List.mem_cons_self

/-- The value returned tells of the failure of a line when some stage exited with
    another code than 0. -/
theorem ret_iff (h : c.Alone W) :
    (c.ret = -1 ↔ ¬c.Succeeds W) ↔
      c.Succeeds W ∨ ∃ s ∈ c.started, ∃ code, code ≠ 0 ∧ W.ends s = .exited code := by
  by_cases hsucc : c.Succeeds W
  · refine iff_of_true (iff_of_false ?_ (not_not.mpr hsucc)) (.inl hsucc)
    rw [(h.of_succeeds hsucc).1]
    decide
  · obtain ⟨hall, hret, -⟩ | ⟨before, s, horder, -, hs, hret⟩ := h.cases
    · rw [hret]
      refine iff_of_false (fun hiff => absurd (hiff.mpr hsucc) (by decide)) ?_
      rintro (hsucc' | ⟨s, hs, code, hcode, hends⟩)
      · exact hsucc hsucc'
      · exact hcode ((passes_iff _).mp (hall s hs) code hends)
    · have hmem : s ∈ c.started := by
        rw [← W.mem_order c.line, horder]
        exact List.mem_append_right _ List.mem_cons_self
      rw [Ne, passes_iff] at hs
      push Not at hs
      obtain ⟨code, hends, hcode⟩ := hs
      exact iff_of_true (iff_of_true hret hsucc) (.inr ⟨s, hmem, code, hcode, hends⟩)

end

/-! ## A script -/

/-- What `interpret_file` does with lines that are parsed. -/
def runLines (W : World) : ℕ → List Stage → List Parsed → Run
  | _, _, [] => ⟨[], .returned 0⟩
  | _, _, .undefined :: _ => ⟨[], .undefined⟩
  | _, _, .malformed :: _ => ⟨[], .returned (-1)⟩
  | line, kids, .blank :: rest => runLines W (line + 1) kids rest
  | line, kids, .command argv :: rest =>
    match runCommand W line kids argv with
    | none => ⟨[], .exited⟩
    | some c =>
      if c.ret ≠ 0 then ⟨[c], .returned 0⟩ else (runLines W (line + 1) c.left rest).after c

section

variable {W : World} {args : ℕ → List (Option ℕ)} {line : ℕ} {input : Input}
  {buf stream buf' rest : List UInt8}

theorem parsedLines_none (h : fgets buf stream = none) :
    parsedLines args line buf stream = [] := by
  unfold parsedLines
  rw [scriptLines]
  split
  · rfl
  · rename_i hf
    rw [h] at hf
    cases hf

theorem parsedLines_some (h : fgets buf stream = some (buf', rest)) :
    parsedLines args line buf stream =
      match interpretLine buf' (args line) with
      | none => [.undefined]
      | some (m, r) => .of m r :: parsedLines args (line + 1) m.buf rest := by
  unfold parsedLines
  rw [scriptLines]
  split
  · rename_i hf
    rw [h] at hf
    cases hf
  · rename_i hf
    rw [h] at hf
    cases hf
    cases interpretLine buf' (args line) <;> rfl

theorem readLines_none (h : fgets buf stream = none) :
    readLines W args line input buf stream = [] := by
  rw [readLines]
  split
  · rfl
  · rename_i hf
    rw [h] at hf
    cases hf

theorem readLines_undefined (h : fgets buf stream = some (buf', rest))
    (hp : interpretLine buf' (args line) = none) :
    readLines W args line input buf stream = [.undefined] := by
  rw [readLines]
  split
  · rename_i hf
    rw [h] at hf
    cases hf
  · rename_i hf
    rw [h] at hf
    cases hf
    rw [hp]

theorem readLines_line {m : Memory} {r : ℤ} {p : Parsed} {next : Input × List UInt8}
    (h : fgets buf stream = some (buf', rest))
    (hm : interpretLine buf' (args line) = some (m, r)) (hp : .of m r = p)
    (hnext : input.behind (W.calls line) line rest p = next) :
    readLines W args line input buf stream =
      p :: readLines W args (line + 1) next.1 m.buf next.2 := by
  subst hp hnext
  rw [readLines]
  split
  · rename_i hf
    rw [h] at hf
    cases hf
  · rename_i hf
    rw [h] at hf
    cases hf
    rw [hm]

end

/-- A command that leaves standard input to the shell. -/
def Input.Untouched (K : Calls) (line : ℕ) (p : Parsed) : Input → Prop
  | .file => True
  | .stdin touched _ => ∀ argv, p = .command argv →
    touched line = false ∧ (bar ∈ argv → K.vfork 0 = false)

theorem Input.Untouched.behind {K : Calls} {line : ℕ} {p : Parsed} {input : Input}
    (h : input.Untouched K line p) (stream : List UInt8) :
    input.behind K line stream p = (input, stream) := by
  cases input with
  | file => rfl
  | stdin touched rest =>
    cases p with
    | command argv =>
      obtain ⟨ht, hv⟩ := h argv rfl
      refine if_neg ?_
      simpa [ht] using hv
    | _ => rfl

/-- Of a script in a file, or whose commands all leave standard input to the shell,
    `fgets` reads every line. -/
theorem readLines_eq {W : World} {args : ℕ → List (Option ℕ)} {line : ℕ}
    {buf stream : List UInt8} (input : Input)
    (h : ∀ p ∈ (parsedLines args line buf stream).zipIdx line,
      input.Untouched (W.calls p.2) p.2 p.1) :
    readLines W args line input buf stream = parsedLines args line buf stream := by
  induction hn : stream.length using Nat.strong_induction_on generalizing line buf stream with
  | _ n ih =>
    cases hf : fgets buf stream with
    | none => rw [readLines_none hf, parsedLines_none hf]
    | some p =>
      obtain ⟨buf', rest⟩ := p
      rw [parsedLines_some hf] at h ⊢
      cases hm : interpretLine buf' (args line) with
      | none => rw [readLines_undefined hf hm]
      | some q =>
        obtain ⟨m, r⟩ := q
        rw [hm] at h
        simp only [List.zipIdx_cons, List.forall_mem_cons] at h
        rw [readLines_line hf hm rfl (h.1.behind rest), ih rest.length (hn ▸ fgets_lt hf) h.2 rfl]

theorem fileLoop_eq (W : World) (args : ℕ → List (Option ℕ)) (line : ℕ) (kids : List Stage)
    (input : Input) (buf stream : List UInt8) :
    fileLoop W args line kids input buf stream =
      runLines W line kids (readLines W args line input buf stream) := by
  fun_induction fileLoop W args line kids input buf stream with
  | case1 line kids input buf stream hf =>
    rw [readLines_none hf]
    rfl
  | case2 line kids input buf stream buf' rest hf hm =>
    rw [readLines_undefined hf hm]
    rfl
  | case3 line kids input buf stream buf' rest hf m r hm hr =>
    rw [readLines_line hf hm (if_pos hr) rfl]
    rfl
  | case4 line kids input buf stream buf' rest hf m r hm hr next hargc ih =>
    have hblank : Parsed.of m r = .blank := (if_neg hr).trans (if_pos hargc)
    rw [readLines_line hf hm hblank (congrArg _ hblank.symm), ih]
    rfl
  | case5 line kids input buf stream buf' rest hf m r hm hr hargc hrun =>
    rw [readLines_line hf hm ((if_neg hr).trans (if_neg hargc)) rfl, runLines, hrun]
  | case6 line kids input buf stream buf' rest hf m r hm hr hargc c hrun hret =>
    rw [readLines_line hf hm ((if_neg hr).trans (if_neg hargc)) rfl, runLines, hrun]
    exact (if_pos hret).symm
  | case7 line kids input buf stream buf' rest hf m r hm hr next hargc c hrun hret ih =>
    have hcommand : Parsed.of m r = .command m.argStrings := (if_neg hr).trans (if_neg hargc)
    rw [readLines_line hf hm hcommand (congrArg _ hcommand.symm), runLines, hrun, ih]
    exact (if_neg hret).symm

/-- The shell has no child left when it runs a line. -/
theorem runLines_alone {W : World} {line : ℕ} {lines : List Parsed} {c : Call}
    (h : c ∈ (runLines W line [] lines).calls) : c.Alone W := by
  induction lines generalizing line with
  | nil => cases h
  | cons l lines ih =>
    cases l with
    | undefined => cases h
    | malformed => cases h
    | blank => exact ih h
    | command argv =>
      rw [runLines] at h
      cases hrun : runCommand W line [] argv with
      | none =>
        rw [hrun] at h
        cases h
      | some d =>
        obtain ⟨-, -, halone⟩ := runCommand_alone hrun
        rw [hrun] at h
        by_cases hret : d.ret = 0
        · have hleft : d.left = [] := by
            obtain ⟨-, -, hleft⟩ | ⟨_, _, -, -, -, hfail⟩ := halone.cases
            · exact hleft
            · rw [hret] at hfail
              cases hfail
          simp only [hret, hleft, ne_eq, not_true_eq_false, if_false] at h
          obtain rfl | h := List.mem_cons.mp h
          · exact halone
          · exact ih h
        · simp only [ne_eq, hret, not_false_eq_true, if_true] at h
          rw [List.mem_singleton.mp h]
          exact halone

theorem reached_alone {W : World} {args : ℕ → List (Option ℕ)} {input : Input}
    {buf stream : List UInt8} {c : Call}
    (h : c ∈ (interpretFile W args input buf stream).calls) : c.Alone W := by
  unfold interpretFile at h
  rw [fileLoop_eq] at h
  exact runLines_alone h

/-- No line that is reached fails, up to the first malformed one, or the first failure
    of `pipe`; and a script that is malformed, as `bad` says, is found so. -/
def NoFailure (W : World) (bad : Prop) : ℕ → List Parsed → Prop
  | _, [] => ¬bad
  | _, .undefined :: _ => False
  | _, .malformed :: _ => bad
  | line, .blank :: rest => NoFailure W bad (line + 1) rest
  | line, .command argv :: rest =>
    PipeFails (W.calls line) 0 argv ∨ LineSucceeds W line argv ∧ NoFailure W bad (line + 1) rest

section

variable {W : World} {script : List Parsed} {r : Run} {c : Call}

/-- Without a command. -/
theorem reported_nil {e : Ending} :
    Reported W script ⟨[], e⟩ ↔
      e ≠ .undefined ∧ ∀ ret, e = .returned ret → (ret ≠ 0 ↔ .malformed ∈ script) := by
  constructor
  · rintro ⟨hdef, -, -, hfile⟩
    refine ⟨hdef, fun ret h => (hfile ret h).trans ?_⟩
    simp
  · rintro ⟨hdef, hfile⟩
    refine ⟨hdef, fun _ h => (by cases h), fun _ h => (by cases h), fun ret h => ?_⟩
    rw [hfile ret h]
    simp

theorem reported_returned {ret : ℤ} :
    Reported W script ⟨[], .returned ret⟩ ↔ (ret ≠ 0 ↔ .malformed ∈ script) := by
  rw [reported_nil]
  refine ⟨fun h => h.2 ret rfl, fun h => ⟨nofun, ?_⟩⟩
  rintro _ ⟨⟩
  exact h

/-- A line that succeeds changes nothing. -/
theorem reported_after (halone : c.Alone W) (hsucc : c.Succeeds W) :
    Reported W script (r.after c) ↔ Reported W script r := by
  obtain ⟨hret0, hleft⟩ := halone.of_succeeds hsucc
  have hfail : (∃ d ∈ (r.after c).calls, ¬d.Succeeds W) ↔ ∃ d ∈ r.calls, ¬d.Succeeds W := by
    simp [Run.after, hsucc]
  constructor
  · rintro ⟨hdef, hawait, hret, hfile⟩
    refine ⟨hdef, fun d hd => hawait d (List.mem_cons_of_mem _ hd),
      fun d hd => hret d (List.mem_cons_of_mem _ hd), fun ret h => ?_⟩
    rw [hfile ret h, hfail]
  · rintro ⟨hdef, hawait, hret, hfile⟩
    refine ⟨hdef, List.forall_mem_cons.mpr ⟨?_, hawait⟩, List.forall_mem_cons.mpr ⟨?_, hret⟩,
      fun ret h => ?_⟩
    · intro s _
      rw [hleft]
      exact List.not_mem_nil
    · rw [hret0]
      exact iff_of_false (by decide) (not_not.mpr hsucc)
    · rw [hfail]
      exact hfile ret h

end

/-- The lines that are read, of a script whose lines are `script`. -/
theorem runLines_iff (W : World) (script : List Parsed) (line : ℕ) (lines : List Parsed) :
    Reported W script (runLines W line [] lines) ↔
      NoFailure W (.malformed ∈ script) line lines := by
  induction lines generalizing line with
  | nil =>
    rw [runLines, NoFailure, reported_returned]
    simp
  | cons l lines ih =>
    cases l with
    | undefined => exact iff_of_false (fun h => h.defined rfl) id
    | malformed =>
      rw [runLines, NoFailure, reported_returned]
      simp
    | blank => exact ih (line + 1)
    | command argv =>
      rw [runLines, NoFailure]
      cases hrun : runCommand W line [] argv with
      | none =>
        exact iff_of_true (reported_nil.mpr ⟨nofun, nofun⟩)
          (.inl ((runCommand_none_iff []).mp hrun))
      | some c =>
        have hpipe : ¬PipeFails (W.calls line) 0 argv := by
          rw [← runCommand_none_iff [], hrun]
          exact Option.some_ne_none c
        obtain ⟨rfl, rfl, halone⟩ := runCommand_alone hrun
        by_cases hsucc : c.Succeeds W
        · obtain ⟨hret, hleft⟩ := halone.of_succeeds hsucc
          simp only [hret, hleft, ne_eq, not_true_eq_false, if_false]
          rw [reported_after halone hsucc, ih, or_iff_right hpipe,
            and_iff_right (halone.succeeds_iff.mp hsucc)]
        · refine iff_of_false (fun h => ?_) ?_
          · -- the value returned by the loop is `0`, or that of `run_command` is
            by_cases hret : c.ret = 0
            · simp only [hret, ne_eq, not_true_eq_false, if_false] at h
              have := (h.ret c List.mem_cons_self).mpr hsucc
              rw [hret] at this
              cases this
            · simp only [ne_eq, hret, not_false_eq_true, if_true] at h
              exact (h.file 0 rfl).mpr (.inr ⟨c, List.mem_singleton_self c, hsucc⟩) rfl
          · rintro (h | ⟨hline, -⟩)
            · exact hpipe h
            · exact hsucc (halone.succeeds_iff.mpr hline)

/-- Every failure of a script is reported exactly if no line fails that is read, and a
    malformed line is read if there is one. -/
theorem failures_reported_iff (W : World) (args : ℕ → List (Option ℕ)) (input : Input)
    (buf stream : List UInt8) :
    Reported W (parsedLines args 1 buf stream) (interpretFile W args input buf stream) ↔
      NoFailure W (.malformed ∈ parsedLines args 1 buf stream) 1
        (readLines W args 1 input buf stream) := by
  unfold interpretFile
  rw [fileLoop_eq]
  exact runLines_iff W _ 1 _

/-! ## A malformed line that is not read -/

/-- A script on standard input begins with a pipeline that succeeds and leaves nothing to
    read. A malformed line behind it is not reported. -/
theorem malformed_behind_pipeline {W : World} {args : ℕ → List (Option ℕ)}
    {buf stream : List UInt8} {argv : List (List UInt8)} {lines : List Parsed}
    (hlines : parsedLines args 1 buf stream = .command argv :: lines)
    (hmal : .malformed ∈ lines) (hbar : bar ∈ argv) (hsucc : LineSucceeds W 1 argv)
    (touched : ℕ → Bool) :
    ¬Reported W (parsedLines args 1 buf stream)
      (interpretFile W args (.stdin touched []) buf stream) := by
  rw [failures_reported_iff]
  have hread : readLines W args 1 (.stdin touched []) buf stream = [.command argv] := by
    cases hf : fgets buf stream with
    | none =>
      rw [parsedLines_none hf] at hlines
      cases hlines
    | some p =>
      rw [parsedLines_some hf] at hlines
      cases hm : interpretLine p.1 (args 1) with
      | none =>
        rw [hm] at hlines
        cases hlines
      | some q =>
        rw [hm] at hlines
        obtain ⟨hline, -⟩ := List.cons.inj hlines
        have hfork : (W.calls 1).vfork 0 = true := hsucc.1.2 0 (Nat.zero_le _)
        rw [readLines_line hf hm hline (Input.behind_pipeline hbar hfork _ _ _ _),
          readLines_none rfl]
  rw [hread, hlines]
  rintro (hpipe | ⟨-, hbad⟩)
  · exact hsucc.1.not_pipeFails hpipe
  · exact hbad (List.mem_cons_of_mem _ hmal)

/-! ## A failure that is not reported -/

/-- All calls succeed; the last stage of a line is reported first, and the second exits
    with 1. -/
def lastFirst : World where
  calls _ := .all
  ends s := if s.index = 1 then .exited 1 else .exited 0
  order _ kids := kids.reverse
  order_perm _ kids := kids.reverse_perm

/-- `echo b | false` -/
def echoLine : List UInt8 := [101, 99, 104, 111, 32, 98, 32, 124, 32, 102, 97, 108, 115, 101]

def echoStage : Stage := ⟨1, 0, [[101, 99, 104, 111], [98]]⟩

def falseStage : Stage := ⟨1, 1, [[102, 97, 108, 115, 101]]⟩

theorem tokens_echo : tokens echoLine = (echoStage.argv ++ bar :: falseStage.argv, .word) := by
  have hecho : Word [101, 99, 104, 111] := ⟨by decide, by decide, by simp [isSpace]⟩
  have hb : Word [98] := ⟨by decide, by decide, by simp [isSpace]⟩
  have hbar : Word [124] := ⟨by decide, by decide, by simp [isSpace]⟩
  have hfalse : Word [102, 97, 108, 115, 101] := ⟨by decide, by decide, by simp [isSpace]⟩
  have hline : echoLine = [101, 99, 104, 111] ++ 32 :: ([98] ++ 32 :: ([124] ++ 32 ::
      [102, 97, 108, 115, 101])) := rfl
  rw [hline, tokens_word_append hecho rfl, tokens_word_append hb rfl, tokens_word_append hbar rfl,
    tokens_word hfalse]
  rfl

theorem parsedLines_echo :
    parsedLines (fun _ => List.replicate 256 none) 1 (List.replicate 8192 0) (echoLine ++ [10]) =
      [.command (echoStage.argv ++ bar :: falseStage.argv)] := by
  have hcomplete : ∀ b ∈ [echoLine], Script.CompleteLine b := by
    intro b hmem
    obtain rfl := List.mem_singleton.mp hmem
    exact ⟨by decide, by decide, by decide, by rw [tokens_echo]; decide⟩
  have hargs : ∀ i, ((fun _ => List.replicate 256 none : ℕ → List (Option ℕ)) i).length = argsMax :=
    fun _ => List.length_replicate
  have hbuf : (List.replicate 8192 (0 : UInt8)).length = bufferSize := List.length_replicate
  have hlines := Script.scriptLines_complete hargs hcomplete (fun _ => .notForked) 1 hbuf
  rw [Script.tokenLines, Script.tokenLines, tokens_echo, List.flatMap_singleton] at hlines
  unfold parsedLines
  rw [hlines]
  rfl

/-- The wait ends with `false`, and `interpret_file` returns `0`. -/
theorem interpretFile_echo :
    interpretFile lastFirst (fun _ => List.replicate 256 none) .file (List.replicate 8192 0)
        (echoLine ++ [10]) =
      ⟨[⟨1, echoStage.argv ++ bar :: falseStage.argv, [echoStage, falseStage], -1, [echoStage]⟩],
        .returned 0⟩ := by
  have hexec : execCommand .all 1 0 (echoStage.argv ++ bar :: falseStage.argv) =
      some ([echoStage, falseStage], 0) := by
    rw [execCommand_bar (by decide), execCommand_last (by decide)]
    rfl
  unfold interpretFile
  rw [fileLoop_eq, readLines_eq .file fun _ _ => trivial, parsedLines_echo]
  unfold runLines runCommand
  rw [show lastFirst.calls 1 = .all from rfl, hexec]
  rfl

theorem false_not_reported :
    ¬Reported lastFirst
      (parsedLines (fun _ => List.replicate 256 none) 1 (List.replicate 8192 0) (echoLine ++ [10]))
      (interpretFile lastFirst (fun _ => List.replicate 256 none) .file (List.replicate 8192 0)
        (echoLine ++ [10])) := by
  rw [interpretFile_echo]
  intro h
  have hawaited := h.awaited _ (List.mem_singleton_self _)
  exact hawaited echoStage List.mem_cons_self (List.mem_singleton_self _)

end AghOs.Shell.Await
