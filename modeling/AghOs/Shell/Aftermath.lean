import AghOs.Shell.Wiring

/-!
# The shell after a pipeline

`exec_command` redirects the shell's own descriptor `0` and closes only the
writing end of a pipe: the reading end that it got stays open.

* `execCommand_mono`: `exec_command` closes nothing that was open before.
* `descriptors_survive_iff`: the descriptors are what they were before a command
  exactly when it has no `|`, or makes the shell exit.
-/

namespace AghOs.Shell

variable {φ : Type}

/-- The shell in `s'` has the descriptors that it had in `s`, and no stage started
    in between holds a pipe that it does not use. -/
structure Survives (s s' : ShellState φ) : Prop where
  table : s'.table.file = s.table.file
  shell : s'.table.Before s.pipes
  stages : ∀ j p, s'.procs[s.procs.length + j]? = some p → ∀ fd i,
    (p.table.file fd = some (.reads (s.pipes + i)) → j = i + 1) ∧
      (p.table.file fd = some (.writes (s.pipes + i)) → j = i)

/-- A call of `pipe` fails; the shell exits. -/
def PipeFails (K : Calls) (i : ℕ) (argv : List (List UInt8)) : Prop :=
  ∃ j, j < argv.count bar ∧ K.pipe (i + j) = false ∧ ∀ k < j, K.vfork (i + k) = true

section

variable {K : Calls} {s s' : ShellState φ} {v : ℤ} {xs ys : List (List UInt8)} {fd : ℕ}

theorem pipeFails_last {argv : List (List UInt8)} (h : bar ∉ argv) (i : ℕ) :
    ¬PipeFails K i argv := by
  rintro ⟨j, hj, -⟩
  rw [List.count_eq_zero_of_not_mem h] at hj
  omega

theorem pipeFails_bar (h : bar ∉ xs) (i : ℕ) :
    PipeFails K i (xs ++ bar :: ys) ↔
      K.pipe i = false ∨ K.vfork i = true ∧ PipeFails K (i + 1) ys := by
  have hcount : (xs ++ bar :: ys).count bar = ys.count bar + 1 := by
    rw [List.count_append, List.count_eq_zero_of_not_mem h, List.count_cons_self, Nat.zero_add]
  unfold PipeFails
  rw [hcount]
  constructor
  · rintro ⟨j, hj, hp, hv⟩
    cases j with
    | zero => exact .inl hp
    | succ j =>
      refine .inr ⟨hv 0 (Nat.succ_pos j), j, Nat.lt_of_succ_lt_succ hj, ?_, fun k hk => ?_⟩
      · rwa [Nat.add_right_comm, Nat.add_assoc]
      · rw [Nat.add_right_comm, Nat.add_assoc]
        exact hv (k + 1) (Nat.succ_lt_succ hk)
  · rintro (hp | ⟨hv0, j, hj, hp, hv⟩)
    · exact ⟨0, Nat.succ_pos _, hp, fun k hk => absurd hk (Nat.not_lt_zero k)⟩
    · refine ⟨j + 1, Nat.succ_lt_succ hj, ?_, fun k hk => ?_⟩
      · rwa [Nat.add_right_comm, Nat.add_assoc] at hp
      · cases k with
        | zero => exact hv0
        | succ k =>
          have := hv k (Nat.lt_of_succ_lt_succ hk)
          rwa [Nat.add_right_comm, Nat.add_assoc] at this

theorem execCommand_exited_iff (argv : List (List UInt8)) (i : ℕ) (s : ShellState φ) :
    execCommand K i s argv = .exited ↔ PipeFails K i argv := by
  induction argv using bar_induction generalizing i s with
  | hlast argv hargv =>
    refine iff_of_false (fun h => ?_) (pipeFails_last hargv i)
    rw [execCommand_last hargv] at h
    split at h <;> cases h
  | hbar xs ys hxs ih =>
    rw [execCommand_bar hxs, pipeFails_bar hxs]
    cases hp : K.pipe i with
    | false => simp
    | true =>
      cases hv : K.vfork i with
      | false => simp
      | true => simpa using ih (i + 1) (s.next xs)

theorem ShellState.pipe_isSome (h : (s.table.file fd).isSome) : (s.pipe.table.file fd).isSome := by
  show ((s.table.pipe s.pipes).file fd).isSome
  rwa [Table.pipe_of_ne (Table.ne_ends (p := s.pipes) h).1 (Table.ne_ends h).2]

theorem ShellState.next_isSome (h : (s.table.file fd).isSome) :
    ((s.next xs).table.file fd).isSome := by
  rw [s.next_file]
  by_cases h0 : fd = 0
  · rw [h0, Function.update_self]
    rfl
  · rwa [Function.update_of_ne h0, Function.update_of_ne (Table.ne_ends (p := 0) h).1]

/-- What is open before `exec_command` is open after it. -/
theorem execCommand_mono (argv : List (List UInt8)) (i : ℕ) (s : ShellState φ)
    (h : execCommand K i s argv = .returned s' v) (hfd : (s.table.file fd).isSome) :
    (s'.table.file fd).isSome := by
  induction argv using bar_induction generalizing i s with
  | hlast argv hargv =>
    rw [execCommand_last hargv] at h
    split at h <;> cases h
    · exact hfd
    · exact hfd
  | hbar xs ys hxs ih =>
    rw [execCommand_bar hxs] at h
    split at h
    · split at h
      · exact ih _ _ h (ShellState.next_isSome hfd)
      · cases h
        exact ShellState.pipe_isSome hfd
    · cases h

/-- After the first pipe has been made, its reading end stays open. -/
theorem execCommand_leaks {i : ℕ} (hxs : bar ∉ xs)
    (h : execCommand K i s (xs ++ bar :: ys) = .returned s' v) :
    (s'.table.file s.table.readEnd).isSome := by
  rw [execCommand_bar hxs] at h
  split at h
  · split at h
    · refine execCommand_mono ys _ _ h ?_
      rw [s.next_file]
      by_cases h0 : s.table.readEnd = 0
      · rw [h0, Function.update_self]
        rfl
      · rw [Function.update_of_ne h0, Function.update_self]
        rfl
    · cases h
      show ((s.table.pipe s.pipes).file s.table.readEnd).isSome
      rw [Table.pipe_readEnd]
      rfl
  · cases h

theorem not_survives (statuses : List ℤ) (s : ShellState φ) {argv : List (List UInt8)}
    (hbar : bar ∈ argv) (hpipe : ¬PipeFails K 0 argv) :
    ∃ s' v, runCommand K statuses s argv = .returned s' v ∧ ¬Survives s s' := by
  obtain ⟨xs, ys, rfl, hxs⟩ := List.eq_append_cons_of_mem hbar
  cases hrun : execCommand K 0 s (xs ++ bar :: ys) with
  | exited => exact absurd ((execCommand_exited_iff _ 0 s).mp hrun) hpipe
  | returned s' v =>
    refine ⟨s', awaitChildren statuses, ?_, fun hs => ?_⟩
    · unfold runCommand
      rw [hrun]
    · have hopen := execCommand_leaks hxs hrun
      rw [hs.table, Table.readEnd_free] at hopen
      cases hopen

/-- A child that has the shell's descriptors holds no pipe of this command. -/
theorem survives_of_table {s s' : ShellState φ} (htable : s'.table = s.table)
    (hprocs : ∀ p ∈ s'.procs, p ∈ s.procs ∨ p.table = s.table) : Survives s s' where
  table := by rw [htable]
  shell := htable ▸ s.table_known
  stages j p hp fd i := by
    have hknown : p.table.Before s.pipes := by
      obtain hp | hp := hprocs p (List.mem_of_getElem? hp)
      · exact s.procs_known p hp
      · exact hp ▸ s.table_known
    constructor
    · intro hf
      have hlt : s.pipes + i < s.pipes := hknown fd _ hf
      omega
    · intro hf
      have hlt : s.pipes + i < s.pipes := hknown fd _ hf
      omega

/-- Without a `|` nothing changes. -/
theorem survives_last {statuses : List ℤ} {argv : List (List UInt8)} (hbar : bar ∉ argv)
    (h : runCommand K statuses s argv = .returned s' v) : Survives s s' := by
  unfold runCommand at h
  rw [execCommand_last hbar] at h
  cases hv : K.vfork 0 with
  | false =>
    rw [hv] at h
    cases h
    exact survives_of_table rfl fun p hp => .inl hp
  | true =>
    rw [hv] at h
    cases h
    refine survives_of_table rfl fun p hp => ?_
    obtain hp | hp := List.mem_append.mp hp
    · exact .inl hp
    · exact .inr (by rw [List.mem_singleton.mp hp]; rfl)

end

/-- The descriptors survive a command exactly when it has no `|`, or makes the
    shell exit. -/
theorem descriptors_survive_iff (K : Calls) (statuses : List ℤ) (s : ShellState φ)
    (argv : List (List UInt8)) :
    (∀ s' v, runCommand K statuses s argv = .returned s' v → Survives s s') ↔
      bar ∉ argv ∨ PipeFails K 0 argv := by
  constructor
  · intro h
    by_contra hnot
    rw [not_or, not_not] at hnot
    obtain ⟨s', v, hrun, hs⟩ := not_survives statuses s hnot.1 hnot.2
    exact hs (h s' v hrun)
  · rintro (hbar | hpipe) s' v hrun
    · exact survives_last hbar hrun
    · unfold runCommand at hrun
      rw [(execCommand_exited_iff argv 0 s).mpr hpipe] at hrun
      cases hrun

/-- `a | b` -/
theorem pipeline_leaks :
    ∃ s' v, runCommand ⟨fun _ => true, fun _ => true⟩ [0, 0] ShellState.initial [[97], bar, [98]] =
      .returned s' v ∧ ¬Survives ShellState.initial s' :=
  not_survives _ _ (by decide) fun ⟨_, _, hp, _⟩ => Bool.noConfusion hp

end AghOs.Shell
