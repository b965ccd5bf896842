import AghOs.Shell.Leaks
import AghOs.Shell.Wiring

/-!
# Quoted bars

`interpret_line` (`interpreter.c` of `cw05`, lines 16–74) hands over the texts of the
arguments, and `exec_command` (`command_runner.c`, lines 10–40) splits them at every
text `|`. Whether an argument was written in quotes is not handed over.

* `Written`: the arguments of a well-formed line, as they are written.
* `execCommand_eq`: `exec_command` runs the stages between the texts `|`.
* `runs_as_written_iff`: the lines whose stages are those between the bars without
  quotes.
-/

namespace AghOs.Shell

/-! ## Lists split at an element -/

section

variable {α β : Type*} [BEq α] [LawfulBEq α] [BEq β] [LawfulBEq β]

theorem length_splitOn (a : α) (l : List α) : (l.splitOn a).length = l.count a + 1 := by
  induction l with
  | nil => rfl
  | cons x l ih =>
    rw [List.splitOn_cons_eq_if_modifyHead]
    by_cases hx : x = a
    · subst hx
      rw [if_pos (beq_self_eq_true x), List.length_cons, ih, List.count_cons_self]
    · rw [if_neg (by simpa using hx), List.length_modifyHead, ih, List.count_cons_of_ne hx]

theorem splitOn_map {f : α → β} {a : α} {l : List α} (h : ∀ x ∈ l, f x = f a → x = a) :
    (l.map f).splitOn (f a) = (l.splitOn a).map (List.map f) := by
  induction l with
  | nil => rfl
  | cons x l ih =>
    obtain ⟨hx, h⟩ := List.forall_mem_cons.mp h
    rw [List.map_cons, List.splitOn_cons_eq_if_modifyHead, List.splitOn_cons_eq_if_modifyHead, ih h]
    by_cases hxa : x = a
    · subst hxa
      rw [if_pos (beq_self_eq_true _), if_pos (beq_self_eq_true x)]
      rfl
    · rw [if_neg (by simpa using fun he => hxa (hx he)), if_neg (by simpa using hxa)]
      cases l.splitOn a <;> rfl

end

/-! ## The arguments as they are written -/

/-- An argument, and whether it is in quotes. -/
structure Arg where
  quoted : Bool
  text : List UInt8
  deriving DecidableEq

/-- The line is well formed, and has these arguments. -/
inductive Written : List UInt8 → List Arg → Prop
  | nil : Written [] []
  | space {c : UInt8} {l : List UInt8} {as : List Arg} :
      isSpace c = true → Written l as → Written (c :: l) as
  | last {w : List UInt8} : Word w → Written w [⟨false, w⟩]
  | word {w l : List UInt8} {c : UInt8} {as : List Arg} : Word w → isSpace c = true →
      Written l as → Written (w ++ c :: l) (⟨false, w⟩ :: as)
  | quoted {q l : List UInt8} {as : List Arg} : quote ∉ q → l.head?.all isSpace = true →
      Written l as → Written (quote :: (q ++ quote :: l)) (⟨true, q⟩ :: as)

theorem Written.tokens {l : List UInt8} {as : List Arg} (h : Written l as) :
    (tokens l).1 = as.map Arg.text ∧ (tokens l).2.ok = true := by
  induction h with
  | nil =>
    rw [tokens_nil]
    exact ⟨rfl, rfl⟩
  | space hc _ ih => rwa [tokens_space hc]
  | last hw =>
    rw [tokens_word hw]
    exact ⟨rfl, rfl⟩
  | word hw hc _ ih =>
    rw [tokens_word_append hw hc]
    exact ⟨congrArg _ ih.1, ih.2⟩
  | quoted hq hl _ ih =>
    rw [tokens_quoted hq, if_pos hl]
    exact ⟨congrArg _ ih.1, ih.2⟩

/-- The lines with arguments are the well-formed ones of the grammar. -/
theorem written_iff {l : List UInt8} : (∃ as, Written l as) ↔ (tokens l).2.ok = true := by
  refine ⟨fun ⟨as, h⟩ => h.tokens.2, fun hok => ?_⟩
  induction hn : l.length using Nat.strong_induction_on generalizing l with
  | _ n ih =>
    subst hn
    cases shape l with
    | nil => exact ⟨[], .nil⟩
    | @space c l hc =>
      rw [tokens_space hc] at hok
      obtain ⟨as, h⟩ := ih l.length (by simp) hok rfl
      exact ⟨as, .space hc h⟩
    | @unterminated q hq =>
      rw [tokens_unterminated hq] at hok
      cases hok
    | @quoted q l hq =>
      rw [tokens_quoted hq] at hok
      split at hok
      · obtain ⟨as, h⟩ := ih l.length (by simp; omega) hok rfl
        exact ⟨_, .quoted hq ‹_› h⟩
      · cases hok
    | last hw => exact ⟨_, .last hw⟩
    | @word w l c hw hc =>
      rw [tokens_word_append hw hc] at hok
      obtain ⟨as, h⟩ := ih l.length (by simp; omega) hok rfl
      exact ⟨_, .word hw hc h⟩

/-! ## The stages -/

variable {φ : Type}

/-- The stages of a pipeline, started one after another as `exec_command` starts
    them. -/
def runStages (K : Calls) (i : ℕ) (s : ShellState φ) : List (List (List UInt8)) → Outcome φ
  | [] => .returned s 0
  | [argv] => if K.vfork i then .returned (s.spawn argv none) 0 else .returned s (-1)
  | xs :: stages =>
    if K.pipe i then
      if K.vfork i then runStages K (i + 1) (s.next xs) stages else .returned s.pipe (-1)
    else .exited

/-- `exec_command` splits its arguments at every text `|`. -/
theorem execCommand_eq (K : Calls) (i : ℕ) (s : ShellState φ) (argv : List (List UInt8)) :
    execCommand K i s argv = runStages K i s (argv.splitOn bar) := by
  induction argv using bar_induction generalizing i s with
  | hlast argv h =>
    rw [execCommand_last h, List.splitOn_eq_singleton h]
    rfl
  | hbar xs ys h ih =>
    rw [execCommand_bar h, List.splitOn_append_cons_self_of_not_mem h, ih]
    cases hys : ys.splitOn bar with
    | nil => exact absurd hys (List.splitOn_ne_nil bar ys)
    | cons => rfl

/-- A pipeline makes a pipe between each two of its stages. -/
theorem runStages_pipes {K : Calls} (hK : ∀ i, K.pipe i = true ∧ K.vfork i = true)
    {stages : List (List (List UInt8))} (hne : stages ≠ []) (i : ℕ) (s : ShellState φ) :
    ∃ s', runStages K i s stages = .returned s' 0 ∧ s'.pipes + 1 = s.pipes + stages.length := by
  induction stages generalizing i s with
  | nil => exact absurd rfl hne
  | cons xs stages ih =>
    cases stages with
    | nil =>
      refine ⟨s.spawn xs none, ?_, ?_⟩
      · rw [runStages, if_pos (hK i).2]
      · rfl
    | cons ys stages =>
      obtain ⟨s', hrun, hpipes⟩ := ih (List.cons_ne_nil _ _) (i + 1) (s.next xs)
      refine ⟨s', ?_, ?_⟩
      · rw [runStages, if_pos (hK i).1, if_pos (hK i).2, hrun]
        exact List.cons_ne_nil _ _
      · rw [hpipes, s.next_pipes]
        simp only [List.length_cons]
        omega

/-! ## A line -/

/-- What becomes of a line: it is refused, it has no command, or it is run. -/
inductive LineRun (φ : Type)
  | malformed
  | blank
  | ran (o : Outcome φ)

/-- The body of the loop of `interpret_file`, up to the last stage. -/
def runLine (K : Calls) (s : ShellState φ) (buf : List UInt8) (args : List (Option ℕ)) :
    Option (LineRun φ) :=
  (interpretLine buf args).map fun (m, v) =>
    if v < 0 then .malformed
    else if m.argc = 0 then .blank
    else .ran (execCommand K 0 s m.argStrings)

/-- The stages as they are written: a bar in quotes separates nothing. -/
def stages (as : List Arg) : List (List (List UInt8)) :=
  (as.splitOn ⟨false, bar⟩).map (List.map Arg.text)

/-- What a line with these arguments is to do. -/
def intended (K : Calls) (s : ShellState φ) (as : List Arg) : LineRun φ :=
  if as = [] then .blank else .ran (runStages K 0 s (stages as))

/-- With whatever `r` behind the line in the buffer, and whichever calls fail, the
    stages are run that are written. -/
def RunsAsWritten (s : ShellState φ) (l : List UInt8) (as : List Arg) : Prop :=
  ∀ r args K, (l ++ 0 :: r).length = bufferSize → args.length = argsMax →
    runLine K s (l ++ 0 :: r) args = some (intended K s as)

section

variable {l r : List UInt8} {as : List Arg} {args : List (Option ℕ)} {s : ShellState φ}

theorem runLine_eq (ht : Text l) (h : Written l as) (hw : (tokens l).2 ≠ .word)
    (hmax : as.length ≤ 255) (hsize : (l ++ 0 :: r).length = bufferSize)
    (hargs : args.length = argsMax) (K : Calls) (s : ShellState φ) :
    runLine K s (l ++ 0 :: r) args =
      some (if as = [] then .blank else .ran (execCommand K 0 s (as.map Arg.text))) := by
  obtain ⟨htexts, hok⟩ := h.tokens
  have hblank : (tokens l).2 = .blank := by
    cases he : (tokens l).2 with
    | blank => rfl
    | word => exact absurd he hw
    | unterminated | unspaced =>
      rw [he] at hok
      cases hok
  have hscan := interpretLine_scan ht args hsize.le hargs
  have hlen : (tokens l).1.length = as.length := by rw [htexts, List.length_map]
  have hfit : (tokens l).1.length + 1 ≤ argsMax := by
    rw [hlen]
    exact Nat.succ_le_succ hmax
  rw [entries_of_ne_word hw, if_pos hfit, hblank] at hscan
  obtain ⟨m, l', hg, -, -, hrun⟩ := hscan
  have hg' : Memory.Gains ⟨l ++ 0 :: r, 0, args⟩ m (as.map Arg.text) := by
    rw [← htexts]
    simpa only [Ending.started, List.append_nil] using hg
  have hlt : m.argc < m.args.length := by
    rw [hg'.length, hg'.argc, hargs, Nat.zero_add, ← htexts]
    exact hfit
  obtain ⟨n, hn, hholds⟩ := hg'.finish rfl hlt
  have hstr : n.argStrings = as.map Arg.text := by
    refine hholds.argStrings fun a ha => tokens_nul ht.nul a ?_
    rw [htexts]
    exact List.mem_append_left _ ha
  have hargc : n.argc = 0 ↔ as = [] := by
    rw [hholds.argc, List.length_map, List.length_eq_zero_iff]
  unfold runLine
  rw [hrun]
  show (resume m.finish).map _ = _
  rw [hn]
  simp only [Option.map_some, hstr, hargc]
  rfl

/-- The texts `|` are the bars in quotes and those without. -/
theorem count_bar (as : List Arg) :
    (as.map Arg.text).count bar = as.count ⟨false, bar⟩ + as.count ⟨true, bar⟩ := by
  induction as with
  | nil => rfl
  | cons a as ih =>
    obtain ⟨quoted, text⟩ := a
    simp only [List.map_cons, List.count_cons, ih]
    cases quoted <;> by_cases htext : text = bar <;> simp [htext] <;> omega

/-- The calls that all succeed. -/
def Calls.all : Calls := ⟨fun _ => true, fun _ => true⟩

/-- A bar in quotes starts a stage. -/
theorem runs_ne_of_quoted_bar (hq : (⟨true, bar⟩ : Arg) ∈ as) (s : ShellState φ) :
    execCommand .all 0 s (as.map Arg.text) ≠ runStages .all 0 s (stages as) := by
  rw [execCommand_eq]
  obtain ⟨s₁, hrun₁, hpipes₁⟩ := runStages_pipes (K := .all) (fun _ => ⟨rfl, rfl⟩)
    (List.splitOn_ne_nil bar (as.map Arg.text)) 0 s
  have hne : stages as ≠ [] := fun h => List.splitOn_ne_nil _ as (List.map_eq_nil_iff.mp h)
  obtain ⟨s₂, hrun₂, hpipes₂⟩ := runStages_pipes (K := .all) (fun _ => ⟨rfl, rfl⟩) hne 0 s
  have hlen : (stages as).length = as.count ⟨false, bar⟩ + 1 := by
    rw [stages, List.length_map, length_splitOn]
  have hpos := List.count_pos_iff.mpr hq
  rw [length_splitOn, count_bar] at hpipes₁
  rw [hlen] at hpipes₂
  rw [hrun₁, hrun₂]
  intro he
  obtain ⟨rfl, -⟩ := Outcome.returned.inj he
  omega

theorem intended_ne_malformed {K : Calls} : intended K s as ≠ .malformed := by
  unfold intended
  split <;> exact nofun

end

section

variable {l : List UInt8} {as : List Arg} (ht : Text l) (hlen : l.length < bufferSize)
  (h : Written l as) (s : ShellState φ)
include ht hlen

/-- An old quote behind the line makes it a malformed one. -/
theorem not_runsAsWritten_word (hw : (tokens l).2 = .word) : ¬RunsAsWritten s l as := by
  intro hruns
  obtain ⟨r, hsize, hquote⟩ := exists_old_quote ht hlen hw
  have hargs : (List.replicate argsMax (none : Option ℕ)).length = argsMax := List.length_replicate
  have hrun := hruns r _ .all hsize hargs
  obtain ⟨⟨n, v⟩, hn, hv⟩ := Option.map_eq_some_iff.mp hrun
  rw [hquote _ n v hargs hn] at hv
  exact intended_ne_malformed hv.symm

include h

theorem not_runsAsWritten_full (hw : (tokens l).2 ≠ .word) (hmax : ¬as.length ≤ 255) :
    ¬RunsAsWritten s l as := by
  intro hruns
  obtain ⟨r, hsize⟩ := exists_old_bytes hlen
  have htexts : (tokens l).1.length = as.length := by rw [h.tokens.1, List.length_map]
  have hargs : (List.replicate argsMax (none : Option ℕ)).length = argsMax := List.length_replicate
  have hrun := hruns r _ .all hsize hargs
  unfold runLine at hrun
  rw [interpretLine_full ht hsize hargs hw (htexts ▸ hmax)] at hrun
  cases hrun

theorem not_runsAsWritten_quoted (hw : (tokens l).2 ≠ .word) (hmax : as.length ≤ 255)
    (hq : (⟨true, bar⟩ : Arg) ∈ as) : ¬RunsAsWritten s l as := by
  intro hruns
  obtain ⟨r, hsize⟩ := exists_old_bytes hlen
  have hne : as ≠ [] := List.ne_nil_of_mem hq
  have hrun := hruns r (List.replicate argsMax none) .all hsize List.length_replicate
  rw [runLine_eq ht h hw hmax hsize List.length_replicate, intended, if_neg hne, if_neg hne] at hrun
  exact runs_ne_of_quoted_bar hq s (LineRun.ran.inj (Option.some.inj hrun))

/-- **Quoted bars.** A line is run with the stages that are written exactly if no
    argument in quotes is `|`, there are at most 255 arguments, and the line does not
    end in a word. -/
theorem runs_as_written_iff :
    RunsAsWritten s l as ↔
      (⟨true, bar⟩ : Arg) ∉ as ∧ as.length ≤ 255 ∧ (tokens l).2 ≠ .word := by
  constructor
  · intro hruns
    have hw : (tokens l).2 ≠ .word := fun hw => not_runsAsWritten_word ht hlen s hw hruns
    have hmax : as.length ≤ 255 := by
      by_contra hmax
      exact not_runsAsWritten_full ht hlen h s hw hmax hruns
    exact ⟨fun hq => not_runsAsWritten_quoted ht hlen h s hw hmax hq hruns, hmax, hw⟩
  · rintro ⟨hq, hmax, hw⟩ r args K hsize hargs
    have hbar : ∀ a ∈ as, a.text = Arg.text ⟨false, bar⟩ → a = ⟨false, bar⟩ := by
      rintro ⟨quoted, text⟩ ha rfl
      cases quoted with
      | false => rfl
      | true => exact absurd ha hq
    rw [runLine_eq ht h hw hmax hsize hargs, intended, execCommand_eq, stages,
      ← splitOn_map hbar]

end

/-- A line with its newline does not end in a word. -/
theorem tokens_newline_ne_word (b : List UInt8) : (tokens (b ++ [10])).2 ≠ .word := by
  rw [tokens_newline]
  cases (tokens b).2 <;> exact nofun

/-- `ls | "a"` -/
theorem runs_as_written_iff_ls :
    RunsAsWritten ShellState.initial [108, 115, 32, 124, 32, 34, 97, 34, 10]
      [⟨false, [108, 115]⟩, ⟨false, bar⟩, ⟨true, [97]⟩] := by
  have h : Written [108, 115, 32, 124, 32, 34, 97, 34, 10]
      [⟨false, [108, 115]⟩, ⟨false, bar⟩, ⟨true, [97]⟩] :=
    .word word_ls rfl (.word (w := bar) ⟨by decide, by decide, by simp [bar, isSpace]⟩ rfl
      (.quoted (q := [97]) (by decide) rfl (.space rfl .nil)))
  exact (runs_as_written_iff ⟨by decide, by decide⟩ (by decide) h _).mpr
    ⟨by decide, by decide, tokens_newline_ne_word [108, 115, 32, 124, 32, 34, 97, 34]⟩

/-- `echo "|"` -/
theorem quoted_bar_splits : ¬∀ l as, Text l → l.length < bufferSize → Written l as →
    RunsAsWritten ShellState.initial l as := by
  intro hall
  have h : Written [101, 99, 104, 111, 32, 34, 124, 34, 10]
      [⟨false, [101, 99, 104, 111]⟩, ⟨true, bar⟩] :=
    .word (w := [101, 99, 104, 111]) ⟨by decide, by decide, by simp [isSpace]⟩ rfl
      (.quoted (q := bar) (by decide) rfl (.space rfl .nil))
  have ht : Text [101, 99, 104, 111, 32, 34, 124, 34, 10] := ⟨by decide, by decide⟩
  exact not_runsAsWritten_quoted ht (by decide) h _
    (tokens_newline_ne_word [101, 99, 104, 111, 32, 34, 124, 34]) (by decide) (by decide)
    (hall _ _ ht (by decide) h)

end AghOs.Shell
