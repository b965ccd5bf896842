import AghOs.Shell.Script

/-!
# Scripts of quoted arguments

`main` of `cw03/zad2` (`main.c`, lines 15–35) on a script in which every argument is
in quotes. The grammar has no escapes: what a script cannot hold is an argument with a
quote, a newline or a `0`, more than 255 arguments, or a line that the buffer does not
hold (`Writable`).

* `tokens_commandLine`: the line of a command has the arguments of the command.
* `script_runs`: `main` runs the commands of the script, the empty ones apart, up to
  the first that exits with something else than `0`.
-/

namespace AghOs.Shell.Script

/-- `main`: what it runs, and its exit value. `stdin` and `fopen` are the standard
    input and what the files hold that can be opened. -/
def main (argv : List (List UInt8)) (stdin : List UInt8) (fopen : List UInt8 → Option (List UInt8))
    (fate : ℕ → Fate) (args : ℕ → List (Option ℕ)) (buf : List UInt8) :
    Option (List Command × ℤ) :=
  match argv with
  | [_, file] =>
    match fopen file with
    | none => some ([], -1)
    | some text => interpretFile fate args buf text
  | [_] => interpretFile fate args buf stdin
  | _ => some ([], 1)

/-! ## Rendering -/

/-- The arguments of a command, each in quotes and followed by a blank. -/
def commandLine (argv : Command) : List UInt8 :=
  argv.flatMap fun a => quote :: (a ++ [quote, 32])

/-- The lines of the commands. An empty command is an empty line. -/
def script (cs : List Command) : List UInt8 := (cs.map commandLine).flatMap (· ++ [10])

/-- What the line of a script can hold. -/
structure Writable (argv : Command) : Prop where
  args : argv.length ≤ 255
  length : (commandLine argv).length + 2 ≤ bufferSize
  plain : ∀ a ∈ argv, quote ∉ a ∧ 0 ∉ a ∧ 10 ∉ a

theorem tokens_commandLine {argv : Command} (h : ∀ a ∈ argv, quote ∉ a) :
    tokens (commandLine argv) = (argv, .blank) := by
  induction argv with
  | nil => exact tokens_nil
  | cons a argv ih =>
    obtain ⟨ha, hargv⟩ := List.forall_mem_cons.mp h
    have hline : commandLine (a :: argv) = quote :: (a ++ quote :: 32 :: commandLine argv) := by
      simp [commandLine]
    have hspace : isSpace 32 = true := by decide
    rw [hline, tokens_quoted ha, tokens_space hspace, ih hargv]
    rfl

theorem mem_commandLine {argv : Command} {c : UInt8} (h : c ∈ commandLine argv) :
    c = quote ∨ c = 32 ∨ ∃ a ∈ argv, c ∈ a := by
  obtain ⟨a, ha, hc⟩ := List.mem_flatMap.mp h
  rw [List.mem_cons, List.mem_append, List.mem_pair] at hc
  rcases hc with hc | hc | hc | hc
  · exact .inl hc
  · exact .inr (.inr ⟨a, ha, hc⟩)
  · exact .inl hc
  · exact .inr (.inl hc)

theorem Writable.completeLine {argv : Command} (h : Writable argv) :
    CompleteLine (commandLine argv) where
  nul h0 := by
    rcases mem_commandLine h0 with h0 | h0 | ⟨a, ha, h0⟩
    · exact absurd h0 (by decide)
    · exact absurd h0 (by decide)
    · exact (h.plain a ha).2.1 h0
  newline h10 := by
    rcases mem_commandLine h10 with h10 | h10 | ⟨a, ha, h10⟩
    · exact absurd h10 (by decide)
    · exact absurd h10 (by decide)
    · exact (h.plain a ha).2.2 h10
  length := h.length
  args := by
    rw [tokens_commandLine fun a ha => (h.plain a ha).1]
    exact h.args

/-! ## The run -/

/-- The script goes on behind a command of this fate: it exits with `0`, or is killed. -/
def Fate.goesOn (f : Fate) : Bool := f.outcome.any fun e => wexitstatus e.status == 0

/-- The lines of the commands, the first of which has the number `line`. -/
def commandLines (fate : ℕ → Fate) (line : ℕ) (cs : List Command) : List Line :=
  (cs.zipIdx line).map fun p => ⟨if p.1 = [] then .blank else .command p.1, fate p.2⟩

theorem tokenLines_script {cs : List Command} (h : ∀ c ∈ cs, Writable c) (fate : ℕ → Fate)
    (line : ℕ) : tokenLines fate line (cs.map commandLine) = commandLines fate line cs := by
  induction cs generalizing line with
  | nil => rfl
  | cons c cs ih =>
    obtain ⟨hc, hcs⟩ := List.forall_mem_cons.mp h
    have hargs := tokens_commandLine fun a ha => (hc.plain a ha).1
    rw [List.map_cons, tokenLines, ih hcs, hargs]
    rfl

/-- The commands of the lines up to one behind which the script goes on. -/
theorem runLines_goesOn {fate : ℕ → Fate} {line : ℕ} {cs : List Command}
    (h : ∀ p ∈ cs.zipIdx line, p.1 ≠ [] → (fate p.2).goesOn) (rest : List Line) :
    runLines (commandLines fate line cs ++ rest) =
      (runLines rest).map fun p => (cs.filter (· ≠ []) ++ p.1, p.2) := by
  induction cs generalizing line with
  | nil =>
    show runLines rest = _
    cases runLines rest <;> rfl
  | cons c cs ih =>
    rw [List.zipIdx_cons, List.forall_mem_cons] at h
    obtain ⟨hc, hcs⟩ := h
    have hrest := ih hcs
    by_cases hnil : c = []
    · subst hnil
      exact hrest
    · obtain ⟨e, he, hstatus⟩ := (Option.any_eq_true _ _).mp (hc hnil)
      have hline : commandLines fate line (c :: cs) =
          ⟨.command c, fate line⟩ :: commandLines fate (line + 1) cs := by
        rw [commandLines, List.zipIdx_cons, List.map_cons, if_neg hnil]
        rfl
      rw [hline, List.cons_append, runLines_command he, if_neg (by simpa using hstatus), hrest,
        Option.map_map, List.filter_cons_of_pos (by simpa using hnil)]
      rfl

/-- `main` runs the commands of the script, the empty ones apart: all of them if it goes
    on behind each, or those up to the first behind which it does not. -/
theorem script_runs {fopen : List UInt8 → Option (List UInt8)} {file : List UInt8}
    {cs : List Command} (hfile : fopen file = some (script cs)) (hcs : ∀ c ∈ cs, Writable c)
    {args : ℕ → List (Option ℕ)} (hargs : ∀ i, (args i).length = argsMax) {buf : List UInt8}
    (hbuf : buf.length = bufferSize) (program stdin : List UInt8) (fate : ℕ → Fate) :
    ((∀ p ∈ cs.zipIdx 1, p.1 ≠ [] → (fate p.2).goesOn) →
      main [program, file] stdin fopen fate args buf = some (cs.filter (· ≠ []), 0)) ∧
    ∀ before c after, cs = before ++ c :: after → c ≠ [] →
      (∀ p ∈ before.zipIdx 1, p.1 ≠ [] → (fate p.2).goesOn) →
      (fate (before.length + 1)).goesOn = false →
      main [program, file] stdin fopen fate args buf = some (before.filter (· ≠ []) ++ [c],
        if (fate (before.length + 1)).outcome = none then 0 else -1) := by
  have hrun : main [program, file] stdin fopen fate args buf =
      runLines (commandLines fate 1 cs) := by
    have hlines : ∀ b ∈ cs.map commandLine, CompleteLine b :=
      List.forall_mem_map.mpr fun c hc => (hcs c hc).completeLine
    have hscript := scriptLines_complete hargs hlines fate 1 hbuf
    unfold main
    simp only [hfile]
    unfold interpretFile
    rw [fileLoop_eq, script, hscript, tokenLines_script hcs]
  rw [hrun]
  constructor
  · intro h
    have hall := runLines_goesOn h []
    rw [List.append_nil] at hall
    rw [hall]
    simp [runLines]
  · rintro before c after rfl hc hbefore hstop
    have hsplit : commandLines fate 1 (before ++ c :: after) = commandLines fate 1 before ++
        ⟨.command c, fate (before.length + 1)⟩ ::
          commandLines fate (before.length + 2) after := by
      rw [commandLines, List.zipIdx_append, List.zipIdx_cons, List.map_append, List.map_cons,
        if_neg hc, Nat.add_comm 1]
      rfl
    rw [hsplit, runLines_goesOn hbefore]
    cases ho : (fate (before.length + 1)).outcome with
    | none => simp [runLines, runCommand, ho]
    | some e =>
      have hstatus : wexitstatus e.status ≠ 0 := by
        simpa [Fate.goesOn, ho] using hstop
      rw [runLines_command ho, if_pos hstatus]
      rfl

/-- The third line exits with `2`. -/
def thirdFails : ℕ → Fate
  | 3 => .ends (.exited 2)
  | _ => .ends (.exited 0)

/-- The lines `"a" `, an empty one, `"b" ` and `"c" `. -/
theorem script_runs_two :
    main [[115], [102]] [] (fun _ => some (script [[[97]], [], [[98]], [[99]]])) thirdFails
      (fun _ => List.replicate 256 none) (List.replicate 8192 0) =
        some ([[[97]], [[98]]], -1) := by
  have hw : ∀ a : UInt8, quote ∉ [a] ∧ 0 ∉ [a] ∧ 10 ∉ [a] → Writable [[a]] := fun a ha =>
    ⟨Nat.le_of_ble_eq_true rfl, Nat.le_of_ble_eq_true rfl, by simpa using ha⟩
  have hcs : ∀ c ∈ [[[97]], [], [[98]], [[99]]], Writable c := by
    simp only [List.forall_mem_cons]
    exact ⟨hw _ (by decide), ⟨by decide, by decide, by simp⟩, hw _ (by decide), hw _ (by decide),
      by simp⟩
  exact (script_runs rfl hcs (fun _ => List.length_replicate) List.length_replicate [115] []
    thirdFails).2 [[[97]], []] [[98]] [[[99]]] rfl (by decide)
    (by simp [thirdFails, Fate.goesOn, Fate.outcome, wexitstatus_exited]) rfl

end AghOs.Shell.Script
