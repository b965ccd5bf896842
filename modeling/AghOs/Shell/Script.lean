import AghOs.Machine.Strtok
import AghOs.Machine.WaitStatus
import AghOs.Shell.Leaks

/-!
# Scripts

`interpret_file` of `cw03/zad2` and `cw03/zad3` (interpreter.c:76-131) with
`run_command` (command_runner.c:32-75). `Fate` says what becomes of a command, by
the number of its line. The loop reads nothing but `WEXITSTATUS` of the status that
`waitpid` stores, and leaves with `break`, that is with `0`, when there is none.

* `fileLoop_eq`: the loop runs over the lines as `interpret_line` parses them,
  whatever becomes of the commands.
* `scriptLines_complete`: the lines of a file of complete lines are their tokens.
* `stops_at_first_failure_iff`: the exact condition on the first line that does not
  pass. A command that is killed passes for the loop, and the next line is run.
-/

namespace AghOs.Shell.Script

/-! ## `run_command` -/

/-- What becomes of a command: `vfork` or `waitpid` fails; the child has no
    limits set or no program to run, and exits with `127`; or it runs. -/
inductive Fate
  | notForked
  | notAwaited
  | noLimits
  | noProgram
  | ends (e : Termination)

namespace Fate

/-- How the process ends that `run_command` waits for. -/
def outcome : Fate → Option Termination
  | notForked | notAwaited => none
  | noLimits | noProgram => some (.exited 127)
  | ends e => some e

/-- The command exits normally with code 0. -/
def succeeds (f : Fate) : Bool := f.outcome == some (.exited 0)

end Fate

/-- `run_command`: the status it stores if it returns `0`, `none` if it returns
    `-1`. -/
def runCommand (f : Fate) : Option ℕ := f.outcome.map Termination.status

/-! ## `interpret_file` -/

/-- The strings `args` that a command is run with. -/
abbrev Command := List (List UInt8)

theorem fgets_eq (buf stream : List UInt8) :
    fgets buf stream =
      ((⟨buf, none⟩ : TokenBuffer).fgets bufferSize stream).map fun p => (p.1.buf, p.2) := by
  unfold fgets TokenBuffer.fgets
  split <;> rfl

theorem fgets_lt {buf stream buf' rest : List UInt8} (h : fgets buf stream = some (buf', rest)) :
    rest.length < stream.length := by
  rw [fgets_eq] at h
  obtain ⟨⟨t, rest'⟩, ht, hp⟩ := Option.map_eq_some_iff.mp h
  cases hp
  exact TokenBuffer.fgets_lt (by decide) ht

/-- The loop of `interpret_file`, with `stream` still to be read: the commands that
    it runs and the value returned. `args` of a line is what the array holds before
    the line is parsed. -/
def fileLoop (fate : ℕ → Fate) (args : ℕ → List (Option ℕ)) (line : ℕ) (buf stream : List UInt8) :
    Option (List Command × ℤ) :=
  match _h : fgets buf stream with
  | none => some ([], 0)
  | some (buf, stream) =>
    match interpretLine buf (args line) with
    | none => none
    | some (m, r) =>
      if r < 0 then some ([], -1)
      else if m.argc = 0 then fileLoop fate args (line + 1) m.buf stream
      else match runCommand (fate line) with
        -- `break` behind the message that running the command failed
        | none => some ([m.argStrings], 0)
        | some status =>
          if wexitstatus status ≠ 0 then some ([m.argStrings], -1)
          else (fileLoop fate args (line + 1) m.buf stream).map fun p => (m.argStrings :: p.1, p.2)
termination_by stream.length
decreasing_by
  all_goals exact fgets_lt _h

/-- `interpret_file` -/
def interpretFile (fate : ℕ → Fate) (args : ℕ → List (Option ℕ)) (buf stream : List UInt8) :
    Option (List Command × ℤ) :=
  fileLoop fate args 1 buf stream

/-! ## The lines of a script -/

/-- A line as `interpret_line` leaves it; `undefined` if its behaviour is. -/
inductive Parsed
  | undefined
  | malformed
  | blank
  | command (argv : Command)

/-- A line of a script, and what becomes of its command. -/
structure Line where
  parsed : Parsed
  fate : Fate

def Parsed.of (m : Memory) (r : ℤ) : Parsed :=
  if r < 0 then malformed else if m.argc = 0 then blank else command m.argStrings

/-- The lines of a file. -/
def scriptLines (fate : ℕ → Fate) (args : ℕ → List (Option ℕ)) (line : ℕ)
    (buf stream : List UInt8) : List Line :=
  match _h : fgets buf stream with
  | none => []
  | some (buf, stream) =>
    match interpretLine buf (args line) with
    | none => [⟨.undefined, fate line⟩]
    | some (m, r) =>
      ⟨.of m r, fate line⟩ :: scriptLines fate args (line + 1) m.buf stream
termination_by stream.length
decreasing_by exact fgets_lt _h

/-- What `interpret_file` does with lines that are parsed. -/
def runLines : List Line → Option (List Command × ℤ)
  | [] => some ([], 0)
  | ⟨.undefined, _⟩ :: _ => none
  | ⟨.malformed, _⟩ :: _ => some ([], -1)
  | ⟨.blank, _⟩ :: rest => runLines rest
  | ⟨.command argv, fate⟩ :: rest =>
    match runCommand fate with
    | none => some ([argv], 0)
    | some status =>
      if wexitstatus status ≠ 0 then some ([argv], -1)
      else (runLines rest).map fun p => (argv :: p.1, p.2)

theorem fileLoop_eq (fate : ℕ → Fate) (args : ℕ → List (Option ℕ)) (line : ℕ)
    (buf stream : List UInt8) :
    fileLoop fate args line buf stream = runLines (scriptLines fate args line buf stream) := by
  induction hn : stream.length using Nat.strong_induction_on generalizing line buf stream with
  | _ n ih =>
    rw [fileLoop, scriptLines]
    split
    · rfl
    · rename_i buf' rest hf
      have hlt := fgets_lt hf
      cases hi : interpretLine buf' (args line) with
      | none => rfl
      | some p =>
        obtain ⟨m, r⟩ := p
        have hrec := ih rest.length (hn ▸ hlt) (line + 1) m.buf rest rfl
        simp only [hrec, Parsed.of]
        split
        · rfl
        · split
          · rfl
          · rfl

/-! ## Up to the first failure -/

def Line.passes : Line → Bool
  | ⟨.blank, _⟩ => true
  | ⟨.command _, fate⟩ => fate.succeeds
  | _ => false

def Line.command? : Line → Option Command
  | ⟨.command argv, _⟩ => some argv
  | _ => none

def Line.isBlank : Line → Bool
  | ⟨.blank, _⟩ => true
  | _ => false

def Line.isMalformed : Line → Bool
  | ⟨.malformed, _⟩ => true
  | _ => false

/-- The lines up to the first one that does not pass, that one included. -/
def upToFailure (lines : List Line) : List Line :=
  lines.takeWhile Line.passes ++ (lines.dropWhile Line.passes).take 1

def commands (lines : List Line) : List Command := lines.filterMap Line.command?

/-- The commands run are those up to the first failure, and the value returned is
    `0` if there is none. -/
def StopsAtFirstFailure (lines : List Line) (result : Option (List Command × ℤ)) : Prop :=
  ∃ ran ret, result = some (ran, ret) ∧ ran = commands (upToFailure lines) ∧
    (ret = 0 ↔ ∀ l ∈ lines, l.passes)

/-- The line stops the script: it is malformed, or its command exits; or its command
    is killed, and of the lines behind it the first that is not blank is malformed. -/
def Line.Stops (l : Line) (rest : List Line) : Prop :=
  match l.parsed, l.fate.outcome with
  | .malformed, _ => True
  | .command _, some (.exited _) => True
  | .command _, some (.killed _ _) => ∃ b ∈ (rest.dropWhile isBlank).head?, b.isMalformed
  | _, _ => False

/-- The first line that does not pass stops the script. -/
def FailureStops (lines : List Line) : Prop :=
  match lines.dropWhile Line.passes with
  | [] => True
  | l :: rest => l.Stops rest

theorem runLines_command {fate : Fate} {e : Termination} (h : fate.outcome = some e)
    (argv : Command) (rest : List Line) :
    runLines (⟨.command argv, fate⟩ :: rest) =
      if wexitstatus e.status ≠ 0 then some ([argv], -1)
      else (runLines rest).map fun p => (argv :: p.1, p.2) := by
  rw [runLines, runCommand, h]
  rfl

/-- The loop goes on behind a line that passes. -/
theorem runLines_cons_passes {l : Line} (h : l.passes) (rest : List Line) :
    runLines (l :: rest) = (runLines rest).map fun p => (commands [l] ++ p.1, p.2) := by
  obtain ⟨parsed, fate⟩ := l
  cases parsed with
  | undefined => cases h
  | malformed => cases h
  | blank =>
    show runLines rest = _
    cases runLines rest <;> rfl
  | command argv =>
    have ho : fate.outcome = some (.exited 0) := beq_iff_eq.mp h
    rw [runLines_command ho, wexitstatus_exited, if_neg (by decide)]
    rfl

theorem commands_append (xs ys : List Line) : commands (xs ++ ys) = commands xs ++ commands ys :=
  List.filterMap_append

theorem runLines_append_passes {before : List Line} (h : ∀ l ∈ before, l.passes)
    (rest : List Line) :
    runLines (before ++ rest) = (runLines rest).map fun p => (commands before ++ p.1, p.2) := by
  induction before with
  | nil => cases h : runLines rest <;> simp [h, commands]
  | cons l before ih =>
    obtain ⟨hl, hbefore⟩ := List.forall_mem_cons.mp h
    rw [List.cons_append, runLines_cons_passes hl, ih hbefore, Option.map_map]
    refine congrArg (Option.map · _) (funext fun p => ?_)
    show (commands [l] ++ (commands before ++ p.1), p.2) = _
    rw [← List.append_assoc, ← commands_append]
    rfl

/-- No command is run, and the script fails. -/
theorem runLines_nil_iff (lines : List Line) :
    (∃ ret, runLines lines = some ([], ret) ∧ ret ≠ 0) ↔
      ∃ b ∈ (lines.dropWhile Line.isBlank).head?, b.isMalformed := by
  induction lines with
  | nil => simp [runLines]
  | cons l lines ih =>
    obtain ⟨parsed, fate⟩ := l
    cases parsed with
    | undefined => simp [runLines, Line.isBlank, Line.isMalformed]
    | malformed => simp [runLines, Line.isBlank, Line.isMalformed]
    | blank => exact ih
    | command argv =>
      have hmal : ¬∃ b ∈ ((⟨.command argv, fate⟩ :: lines).dropWhile Line.isBlank).head?,
          b.isMalformed := by
        simp [Line.isBlank, Line.isMalformed]
      refine iff_of_false ?_ hmal
      rintro ⟨ret, h, -⟩
      unfold runLines at h
      split at h
      · cases h
      · split at h
        · cases h
        · obtain ⟨p, -, hp⟩ := Option.map_eq_some_iff.mp h
          cases hp

/-- The first line that does not pass. -/
theorem runLines_stops_iff {l : Line} (hl : ¬l.passes) (rest : List Line) :
    (∃ ran ret, runLines (l :: rest) = some (ran, ret) ∧ ran = commands [l] ∧ ret ≠ 0) ↔
      l.Stops rest := by
  obtain ⟨parsed, fate⟩ := l
  cases parsed with
  | undefined => simp [runLines, Line.Stops]
  | malformed => simp [runLines, Line.Stops, commands, Line.command?]
  | blank => exact absurd rfl hl
  | command argv =>
    have hc : commands [⟨.command argv, fate⟩] = [argv] := rfl
    rw [hc]
    unfold Line.Stops
    cases ho : fate.outcome with
    | none => simp [runLines, runCommand, ho]
    | some e =>
      rw [runLines_command ho]
      cases e with
      | exited code =>
        have hcode : code.toNat ≠ 0 := by
          intro h
          have h0 : code = 0 := UInt8.toNat_inj.mp h
          exact hl (beq_iff_eq.mpr (h0 ▸ ho))
        rw [wexitstatus_exited, if_pos hcode]
        simp
      | killed signal core =>
        rw [wexitstatus_killed, if_neg (not_not.mpr rfl), ← runLines_nil_iff]
        cases runLines rest with
        | none => simp
        | some p => simp [Prod.ext_iff]

/-- A script of parsed lines. -/
theorem runLines_iff (lines : List Line) :
    StopsAtFirstFailure lines (runLines lines) ↔ FailureStops lines := by
  have hpass : ∀ l ∈ lines.takeWhile Line.passes, l.passes := fun l hl =>
    List.mem_takeWhile_imp hl
  have hrun := runLines_append_passes hpass (lines.dropWhile Line.passes)
  rw [List.takeWhile_append_dropWhile] at hrun
  unfold StopsAtFirstFailure FailureStops upToFailure
  rw [hrun, commands_append]
  cases hd : lines.dropWhile Line.passes with
  | nil =>
    have hall : ∀ l ∈ lines, l.passes := List.dropWhile_eq_nil_iff.mp hd
    exact iff_of_true ⟨_, _, rfl, rfl, iff_of_true rfl hall⟩ trivial
  | cons l rest =>
    have hl : ¬l.passes := by
      have h := List.head?_dropWhile_not Line.passes lines
      rw [hd] at h
      simpa using h
    have hmem : l ∈ lines := by
      rw [← List.takeWhile_append_dropWhile (p := Line.passes) (l := lines), hd]
      exact List.mem_append_right _ List.mem_cons_self
    have hfail : ¬∀ l ∈ lines, l.passes := fun h => hl (h l hmem)
    show _ ↔ l.Stops rest
    rw [← runLines_stops_iff hl]
    cases runLines (l :: rest) with
    | none => simp
    | some p => simp [hfail, Prod.ext_iff]

/-- A script stops at its first failure exactly if the first line that does not pass
    stops it. -/
theorem stops_at_first_failure_iff (fate : ℕ → Fate) (args : ℕ → List (Option ℕ))
    (buf stream : List UInt8) :
    StopsAtFirstFailure (scriptLines fate args 1 buf stream)
        (interpretFile fate args buf stream) ↔
      FailureStops (scriptLines fate args 1 buf stream) := by
  unfold interpretFile
  rw [fileLoop_eq]
  exact runLines_iff _

/-! ## Complete lines -/

/-- A line that the buffer and `args` hold, without its newline. -/
structure CompleteLine (b : List UInt8) : Prop where
  nul : 0 ∉ b
  newline : 10 ∉ b
  length : b.length + 2 ≤ bufferSize
  args : (tokens b).1.length ≤ 255

theorem fgets_complete {b : List UInt8} (h : CompleteLine b) (buf rest : List UInt8) :
    fgets buf (b ++ 10 :: rest) = some (b ++ 10 :: 0 :: buf.drop (b.length + 2), rest) := by
  rw [fgets_eq, TokenBuffer.fgets_newline h.newline h.length]
  simp [TokenBuffer.setLine]

/-- The line as the grammar has it. -/
def Parsed.ofTokens (t : List (List UInt8) × Ending) : Parsed :=
  if t.2.ok then if t.1 = [] then blank else command t.1 else malformed

theorem finish_length {m n : Memory} {v : ℤ} (h : resume m.finish = some (n, v)) :
    n.buf.length = m.buf.length := by
  unfold Memory.finish Memory.nullArg at h
  split at h
  · cases h
    rfl
  · cases h

/-- What `interpret_line` leaves of a complete line. -/
theorem interpretLine_newline {b r : List UInt8} {args : List (Option ℕ)} (hb : CompleteLine b)
    (hsize : (b ++ 10 :: 0 :: r).length = bufferSize) (hargs : args.length = argsMax) :
    ∃ m, m.buf.length = bufferSize ∧
      Memory.Gains ⟨b ++ 10 :: 0 :: r, 0, args⟩ m ((tokens b).1 ++ (tokens b).2.newline.started) ∧
      interpretLine (b ++ 10 :: 0 :: r) args =
        resume ((tokens b).2.newline.turn m (b ++ [10]).length) := by
  have ht : Text (b ++ [10]) := ⟨by simpa using hb.nul, by simpa using hb.newline⟩
  have hbuf : b ++ 10 :: 0 :: r = b ++ [10] ++ 0 :: r := by simp
  rw [hbuf] at hsize ⊢
  have hscan := interpretLine_scan ht args hsize.le hargs
  have hent : entries ((tokens b).1, (tokens b).2.newline) = (tokens b).1.length + 1 := by
    cases (tokens b).2 <;> rfl
  have hfit : (tokens b).1.length + 1 ≤ argsMax := Nat.succ_le_succ hb.args
  rw [tokens_newline, hent, if_pos hfit] at hscan
  obtain ⟨m, l', hg, hl', hm, hrun⟩ := hscan
  refine ⟨m, ?_, hg, hrun⟩
  rw [hm, ← hsize, List.length_append, List.length_append, hl']

theorem interpretLine_complete {b r : List UInt8} {args : List (Option ℕ)} (hb : CompleteLine b)
    (hsize : (b ++ 10 :: 0 :: r).length = bufferSize) (hargs : args.length = argsMax) :
    ∃ m v, interpretLine (b ++ 10 :: 0 :: r) args = some (m, v) ∧ m.buf.length = bufferSize ∧
      Parsed.of m v = .ofTokens (tokens b) := by
  obtain ⟨m, hlen, hg, hrun⟩ := interpretLine_newline hb hsize hargs
  rw [hrun]
  unfold Parsed.ofTokens
  cases he : (tokens b).2 with
  | blank | word =>
    have hg' : Memory.Gains ⟨b ++ 10 :: 0 :: r, 0, args⟩ m (tokens b).1 := by
      simpa only [he, Ending.newline, Ending.started, List.append_nil] using hg
    have hlt : m.argc < m.args.length := by
      rw [hg'.length, hg'.argc, hargs, Nat.zero_add]
      exact Nat.succ_le_succ hb.args
    obtain ⟨n, hn, hholds⟩ := hg'.finish rfl hlt
    have hstr := hholds.argStrings fun a ha => tokens_nul hb.nul a (List.mem_append_left _ ha)
    have hargc : n.argc = 0 ↔ (tokens b).1 = [] := by
      rw [hholds.argc, List.length_eq_zero_iff]
    refine ⟨n, 0, hn, (finish_length hn).trans hlen, ?_⟩
    show Parsed.of n 0 = if (tokens b).1 = [] then .blank else .command (tokens b).1
    rw [Parsed.of, if_neg (by decide), hstr]
    simp only [hargc]
  | unterminated | unspaced => exact ⟨m, -1, rfl, hlen, rfl⟩

/-- The lines `bs`, from the one with the number `line` on. -/
def tokenLines (fate : ℕ → Fate) (line : ℕ) : List (List UInt8) → List Line
  | [] => []
  | b :: bs => ⟨.ofTokens (tokens b), fate line⟩ :: tokenLines fate (line + 1) bs

/-- What the buffer and `args` hold before does not matter to complete lines. -/
theorem scriptLines_complete {args : ℕ → List (Option ℕ)} (hargs : ∀ i, (args i).length = argsMax)
    {bs : List (List UInt8)} (hbs : ∀ b ∈ bs, CompleteLine b) (fate : ℕ → Fate) (line : ℕ)
    {buf : List UInt8} (hbuf : buf.length = bufferSize) :
    scriptLines fate args line buf (bs.flatMap (· ++ [10])) = tokenLines fate line bs := by
  induction bs generalizing line buf with
  | nil => rw [scriptLines]; rfl
  | cons b bs ih =>
    obtain ⟨hb, hbs⟩ := List.forall_mem_cons.mp hbs
    have hstream : (b :: bs).flatMap (· ++ [10]) = b ++ 10 :: bs.flatMap (· ++ [10]) := by simp
    have hsize : (b ++ 10 :: 0 :: buf.drop (b.length + 2)).length = bufferSize := by
      have := hb.length
      simp only [List.length_append, List.length_cons, List.length_drop, hbuf]
      omega
    obtain ⟨m, v, hm, hlen, hparsed⟩ := interpretLine_complete hb hsize (hargs line)
    rw [hstream, scriptLines]
    split
    · rename_i hf
      rw [fgets_complete hb] at hf
      cases hf
    · rename_i buf' rest hf
      rw [fgets_complete hb] at hf
      cases hf
      simp only [hm]
      rw [hparsed, ih hbs _ hlen]
      rfl

/-! ## A command that is killed -/

/-- The first command is killed by `SIGKILL`. -/
def firstKilled : ℕ → Fate
  | 1 => .ends (.killed ⟨9, Nat.succ_pos 8, Nat.le_of_ble_eq_true rfl⟩ false)
  | _ => .ends (.exited 0)

/-- The lines `a` and `b`. -/
theorem scriptLines_firstKilled :
    scriptLines firstKilled (fun _ => List.replicate 256 none) 1 (List.replicate 8192 0)
        [97, 10, 98, 10] =
      [⟨.command [[97]], firstKilled 1⟩, ⟨.command [[98]], firstKilled 2⟩] := by
  have ha : tokens [97] = ([[97]], .word) := tokens_word ⟨by decide, by decide, by simp [isSpace]⟩
  have hb : tokens [98] = ([[98]], .word) := tokens_word ⟨by decide, by decide, by simp [isSpace]⟩
  have hcomplete : ∀ b ∈ [[97], [98]], CompleteLine b := by
    intro b hmem
    obtain rfl | rfl : b = [97] ∨ b = [98] := by simpa using hmem
    · exact ⟨by decide, by decide, by decide, by rw [ha]; decide⟩
    · exact ⟨by decide, by decide, by decide, by rw [hb]; decide⟩
  have hargs : ∀ i, ((fun _ => List.replicate 256 none : ℕ → List (Option ℕ)) i).length = argsMax :=
    fun _ => List.length_replicate
  have hbuf : (List.replicate 8192 (0 : UInt8)).length = bufferSize := List.length_replicate
  have h := scriptLines_complete hargs hcomplete firstKilled 1 hbuf
  rw [tokenLines, tokenLines, tokenLines, ha, hb] at h
  exact h

/-- `a` is killed, `b` is run, and the script returns `0`. -/
theorem killed_command_passes :
    interpretFile firstKilled (fun _ => List.replicate 256 none) (List.replicate 8192 0)
        [97, 10, 98, 10] = some ([[[97]], [[98]]], 0) ∧
      ¬StopsAtFirstFailure
        (scriptLines firstKilled (fun _ => List.replicate 256 none) 1 (List.replicate 8192 0)
          [97, 10, 98, 10])
        (interpretFile firstKilled (fun _ => List.replicate 256 none) (List.replicate 8192 0)
          [97, 10, 98, 10]) := by
  unfold interpretFile
  rw [fileLoop_eq, scriptLines_firstKilled]
  refine ⟨rfl, ?_⟩
  rintro ⟨ran, ret, hrun, hran, -⟩
  cases hrun
  cases hran

end AghOs.Shell.Script
