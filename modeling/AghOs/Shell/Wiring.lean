import AghOs.Shell.Command
import Mathlib.Data.List.Basic
import Mathlib.Data.Nat.Init

/-!
# The wiring of a pipeline

The induction is on the stages: `exec_command` starts the first one and goes on
with a shell whose descriptor `0` is the pipe that this stage writes.

* `execCommand_old`: whatever nobody holds when a stage is started, no later
  stage holds.
* `pipeline_wiring`: who reads and who writes which pipe.
-/

namespace AghOs.Shell

variable {φ : Type}

/-- The rule for the recursion of `exec_command`. -/
theorem bar_induction {P : List (List UInt8) → Prop} (hlast : ∀ argv, bar ∉ argv → P argv)
    (hbar : ∀ xs ys, bar ∉ xs → P ys → P (xs ++ bar :: ys)) (argv : List (List UInt8)) :
    P argv := by
  induction hn : argv.length using Nat.strong_induction_on generalizing argv with
  | _ n ih =>
    by_cases hmem : bar ∈ argv
    · obtain ⟨xs, ys, rfl, hxs⟩ := List.eq_append_cons_of_mem hmem
      refine hbar xs ys hxs (ih ys.length ?_ ys rfl)
      simp only [List.length_append, List.length_cons] at hn
      omega
    · exact hlast argv hmem

/-! ## One stage -/

section

variable {s : ShellState φ} {xs : List (List UInt8)} {fd : ℕ} {f : OpenFile φ}

/-- The descriptors of a stage that writes to a pipe. -/
def ShellState.stageTable (s : ShellState φ) : Table φ :=
  s.pipe.childTable (some (s.table.readEnd, s.table.writeEnd s.pipes))

theorem ShellState.stageTable_file (s : ShellState φ) :
    s.stageTable.file = Function.update
      (Function.update s.table.file (s.table.writeEnd s.pipes) (some (.writes s.pipes)))
      1 (some (.writes s.pipes)) := by
  have hfile := Table.pipe_close_readEnd (t := s.table) (p := s.pipes)
  show (((s.table.pipe s.pipes).close s.table.readEnd).dup2 (s.table.writeEnd s.pipes) 1).file = _
  rw [Table.dup2_file (by rw [hfile, Function.update_self]), hfile]

theorem ShellState.next_file (s : ShellState φ) (xs : List (List UInt8)) :
    (s.next xs).table.file = Function.update
      (Function.update s.table.file s.table.readEnd (some (.reads s.pipes)))
      0 (some (.reads s.pipes)) := by
  have hfile := Table.pipe_close_writeEnd (t := s.table) (p := s.pipes)
  have htable : (s.next xs).table =
      ((s.table.pipe s.pipes).close (s.table.writeEnd s.pipes)).dup2 s.table.readEnd 0 := rfl
  rw [htable, Table.dup2_file (by rw [hfile, Function.update_self]), hfile]

theorem ShellState.next_pipes (s : ShellState φ) (xs : List (List UInt8)) :
    (s.next xs).pipes = s.pipes + 1 := rfl

theorem ShellState.next_procs (s : ShellState φ) (xs : List (List UInt8)) :
    (s.next xs).procs = s.procs ++ [⟨xs, s.stageTable⟩] := rfl

/-- A stage has one file that the shell had not: the writing end of the pipe. -/
theorem ShellState.stageTable_old (h : s.stageTable.file fd = some f) :
    f = .writes s.pipes ∨ s.table.file fd = some f := by
  rw [s.stageTable_file] at h
  by_cases h1 : fd = 1
  · rw [h1, Function.update_self] at h
    exact .inl (Option.some.inj h).symm
  · rw [Function.update_of_ne h1] at h
    by_cases hw : fd = s.table.writeEnd s.pipes
    · rw [hw, Function.update_self] at h
      exact .inl (Option.some.inj h).symm
    · rw [Function.update_of_ne hw] at h
      exact .inr h

/-- The shell goes on with one new file: the reading end. -/
theorem ShellState.next_old (h : (s.next xs).table.file fd = some f) :
    f = .reads s.pipes ∨ s.table.file fd = some f := by
  rw [s.next_file] at h
  by_cases h0 : fd = 0
  · rw [h0, Function.update_self] at h
    exact .inl (Option.some.inj h).symm
  · rw [Function.update_of_ne h0] at h
    by_cases hr : fd = s.table.readEnd
    · rw [hr, Function.update_self] at h
      exact .inl (Option.some.inj h).symm
    · rw [Function.update_of_ne hr] at h
      exact .inr h

theorem ShellState.not_before_pipes (s : ShellState φ) :
    ¬(OpenFile.writes s.pipes : OpenFile φ).Before s.pipes ∧
      ¬(OpenFile.reads s.pipes : OpenFile φ).Before s.pipes :=
  ⟨Nat.lt_irrefl _, Nat.lt_irrefl _⟩

end

/-! ## A command -/

/-- The stages `ps` that `exec_command` has started from `s`, when it has returned
    in `s'`. Pipe `i` is the one made for stage `i`. -/
structure Wired (s s' : ShellState φ) (ps : List (Proc φ)) (stages : List (List (List UInt8))) :
    Prop where
  procs : s'.procs = s.procs ++ ps
  argvs : ps.map Proc.argv = stages
  /-- The first stage reads what the shell read. -/
  first : ∀ p, ps[0]? = some p → p.table.file 0 = s.table.file 0
  /-- A stage writes to its pipe, the next one reads from it. -/
  joint : ∀ i p q, ps[i]? = some p → ps[i + 1]? = some q →
    p.table.file 1 = some (.writes (s.pipes + i)) ∧ q.table.file 0 = some (.reads (s.pipes + i))
  /-- The last stage writes where the shell wrote. -/
  last : ∀ p, ps.getLast? = some p → p.table.file 1 = s.table.file 1
  /-- Nobody else can write to a pipe. -/
  writer : ∀ i, i + 1 < ps.length → (∀ fd, s'.table.file fd ≠ some (.writes (s.pipes + i))) ∧
    ∀ j p, s'.procs[j]? = some p → ∀ fd, p.table.file fd = some (.writes (s.pipes + i)) →
      j = s.procs.length + i
  /-- Nobody has an older file that the shell had not. -/
  old : ∀ f : OpenFile φ, f.Before s.pipes → (∀ fd, s.table.file fd ≠ some f) →
    (∀ fd, s'.table.file fd ≠ some f) ∧ ∀ p ∈ ps, ∀ fd, p.table.file fd ≠ some f

/-- The last stage. -/
theorem Wired.last_stage (s : ShellState φ) (xs : List (List UInt8)) :
    Wired s (s.spawn xs none) [⟨xs, s.table⟩] [xs] where
  procs := rfl
  argvs := rfl
  first p hp := by
    cases hp
    rfl
  joint i p q _ hq := by simp at hq
  last p hp := by
    cases hp
    rfl
  writer i hi := by simp at hi
  old f _ hs := by
    refine ⟨hs, fun p hp => ?_⟩
    rw [List.mem_singleton.mp hp]
    exact hs

section

variable {s s' : ShellState φ} {ps : List (Proc φ)} {xs : List (List UInt8)}
  {stages : List (List (List UInt8))}

/-- Nobody but the first stage can write to the first pipe. -/
theorem Wired.writer_zero (h : Wired (s.next xs) s' ps stages) :
    (∀ fd, s'.table.file fd ≠ some (.writes s.pipes)) ∧
      ∀ j p, s'.procs[j]? = some p → ∀ fd, p.table.file fd = some (.writes s.pipes) →
        j = s.procs.length := by
  have hbefore : (OpenFile.writes s.pipes : OpenFile φ).Before (s.next xs).pipes := by
    rw [s.next_pipes]
    exact Nat.lt_succ_self _
  have hnext : ∀ fd, (s.next xs).table.file fd ≠ some (.writes s.pipes) := by
    intro fd hfd
    obtain he | hfd := ShellState.next_old hfd
    · cases he
    · exact s.not_before_pipes.1 (s.table_known _ _ hfd)
  obtain ⟨htable, hps⟩ := h.old _ hbefore hnext
  refine ⟨htable, fun j p hp fd hfd => ?_⟩
  rw [h.procs, s.next_procs xs, List.append_assoc, List.singleton_append] at hp
  obtain hj | rfl | hj := Nat.lt_trichotomy j s.procs.length
  · -- a process that is older than the command
    rw [List.getElem?_append_left hj] at hp
    exact absurd (s.procs_known p (List.mem_of_getElem? hp) _ _ hfd) s.not_before_pipes.1
  · rfl
  · -- a later stage
    obtain ⟨k, rfl⟩ : ∃ k, j = s.procs.length + (k + 1) := ⟨j - s.procs.length - 1, by omega⟩
    rw [List.getElem?_append_right (Nat.le_add_right _ _), Nat.add_sub_cancel_left,
      List.getElem?_cons_succ] at hp
    exact absurd hfd (hps p (List.mem_of_getElem? hp) fd)

/-- A stage is put before a wired command. -/
theorem Wired.cons (h : Wired (s.next xs) s' ps stages) (hps : ps ≠ [])
    (h0 : (s.table.file 0).isSome) (h1 : (s.table.file 1).isSome) :
    Wired s s' (⟨xs, s.stageTable⟩ :: ps) (xs :: stages) where
  procs := by
    rw [h.procs, s.next_procs xs, List.append_assoc]
    rfl
  argvs := by rw [List.map_cons, h.argvs]
  first p hp := by
    cases hp
    show s.stageTable.file 0 = _
    rw [s.stageTable_file, Function.update_of_ne Nat.zero_ne_one,
      Function.update_of_ne (Table.ne_ends h0).2]
  joint i p q hp hq := by
    cases i with
    | zero =>
      cases hp
      rw [h.first q (by simpa using hq), s.next_file, Function.update_self]
      show s.stageTable.file 1 = _ ∧ _
      rw [s.stageTable_file, Function.update_self]
      exact ⟨rfl, rfl⟩
    | succ i =>
      have hi := h.joint i p q (by simpa using hp) (by simpa using hq)
      rwa [s.next_pipes, Nat.add_right_comm] at hi
  last p hp := by
    rw [List.getLast?_cons_of_ne_nil hps] at hp
    rw [h.last p hp, s.next_file, Function.update_of_ne Nat.one_ne_zero,
      Function.update_of_ne (Table.ne_ends (p := 0) h1).1]
  writer i hi := by
    cases i with
    | zero => exact h.writer_zero
    | succ i =>
      have hw := h.writer i (by simpa using hi)
      rw [s.next_pipes, s.next_procs xs] at hw
      simp only [List.length_append, List.length_singleton] at hw
      have hpipe : s.pipes + 1 + i = s.pipes + (i + 1) := by omega
      have hlen : s.procs.length + 1 + i = s.procs.length + (i + 1) := by omega
      rwa [hpipe, hlen] at hw
  old f hf hs := by
    have hne : f ≠ .writes s.pipes ∧ f ≠ .reads s.pipes :=
      ⟨fun he => s.not_before_pipes.1 (he ▸ hf), fun he => s.not_before_pipes.2 (he ▸ hf)⟩
    obtain ⟨htable, hps⟩ := h.old f (hf.mono (by rw [s.next_pipes]; exact Nat.le_succ _))
      fun fd hfd => (ShellState.next_old hfd).elim hne.2 (hs fd)
    refine ⟨htable, fun p hp => ?_⟩
    obtain rfl | hp := List.mem_cons.mp hp
    · exact fun fd hfd => (ShellState.stageTable_old hfd).elim hne.1 (hs fd)
    · exact hps p hp

end

/-- `exec_command` starts one process for each stage, connected to its
    neighbours, when the calls succeed. -/
theorem pipeline_wiring {K : Calls} (hK : ∀ i, K.pipe i = true ∧ K.vfork i = true)
    (s : ShellState φ) (argv : List (List UInt8)) (h0 : (s.table.file 0).isSome)
    (h1 : (s.table.file 1).isSome) (i : ℕ) :
    ∃ s' ps, execCommand K i s argv = .returned s' 0 ∧ ps.length = argv.count bar + 1 ∧
      Wired s s' ps (argv.splitOn bar) := by
  induction argv using bar_induction generalizing i s with
  | hlast argv hargv =>
    rw [List.splitOn_eq_singleton hargv]
    refine ⟨_, _, ?_, ?_, .last_stage s argv⟩
    · rw [execCommand_last hargv, if_pos (hK i).2]
    · rw [List.count_eq_zero_of_not_mem hargv]
      rfl
  | hbar xs ys hxs ih =>
    rw [List.splitOn_append_cons_self_of_not_mem hxs]
    have hnext1 : ((s.next xs).table.file 1).isSome := by
      rw [s.next_file, Function.update_of_ne Nat.one_ne_zero,
        Function.update_of_ne (Table.ne_ends (p := 0) h1).1]
      exact h1
    have hnext0 : ((s.next xs).table.file 0).isSome := by
      rw [s.next_file, Function.update_self]
      rfl
    obtain ⟨s', ps, hrun, hlen, hw⟩ := ih (s.next xs) hnext0 hnext1 (i + 1)
    refine ⟨s', _, ?_, ?_, hw.cons ?_ h0 h1⟩
    · rw [execCommand_bar hxs, if_pos (hK i).1, if_pos (hK i).2]
      exact hrun
    · rw [List.length_cons, hlen, List.count_append, List.count_eq_zero_of_not_mem hxs,
        List.count_cons_self]
      omega
    · exact List.ne_nil_of_length_pos (by omega)

/-- `echo a | cat | cat` -/
theorem pipeline_wiring_cat :
    ∃ s' ps, execCommand ⟨fun _ => true, fun _ => true⟩ 0 ShellState.initial
        [[101], [97], bar, [99], bar, [99]] = .returned s' 0 ∧ ps.length = 3 ∧
      Wired ShellState.initial s' ps [[[101], [97]], [[99]], [[99]]] :=
  pipeline_wiring (fun _ => ⟨rfl, rfl⟩) _ [[101], [97], bar, [99], bar, [99]] rfl rfl 0

end AghOs.Shell
