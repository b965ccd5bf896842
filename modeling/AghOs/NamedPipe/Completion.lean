import AghOs.NamedPipe.Delivery

/-!
# Runs without an interruption come to an end

* `run_completes`: while nobody sends `SIGINT`, every run is finite, and where it stops,
  the master has left. It has printed all messages of some slaves, of at least one, and
  none of the others; these have opened the pipe too late, or wait for ever for it to be
  opened for reading.
-/

namespace AghOs.NamedPipe

variable {ι : Type*} {args : ι → Args} {cap : ℕ}

/-! ## The variant -/

/-- The steps that a message costs, each of its at most 1023 bytes four, and the write
    one. -/
def messageRank : ℕ := 4 * 1023 + 1

def Slave.rank (a : Args) (q : Slave) : ℕ :=
  match q.pc with
  | .opening => messageRank * a.total + 2
  | .running => messageRank * (a.total - q.written) + 1
  | _ => 0

def MasterPc.rank : MasterPc → ℕ
  | .opening => 3
  | .reading => 2
  | .ended => 1
  | .exited => 0

/-- The steps of the master for what it has read. -/
def Master.rank (q : Master) : ℕ :=
  2 * q.stream.length + q.line.length + (if q.eof then 0 else 1) + q.pc.rank

/-- The steps that are left. -/
def State.rank [Fintype ι] (args : ι → Args) (s : State ι) : ℕ :=
  4 * s.pipe.length + s.master.rank + ∑ i, (s.slave i).rank (args i)

/-- A message fits its buffer. -/
theorem Args.length_message {a : Args} {k : ℕ} {text : List UInt8}
    (h : a.message k = some text) : text.length ≤ 1023 := by
  cases k with
  | zero =>
    simp only [Args.message, sprintf] at h
    split at h <;> cases h
    omega
  | succ k =>
    simp only [Args.message, sprintf] at h
    split at h
    · split at h <;> cases h
      omega
    · cases h

variable [Fintype ι]

theorem setMaster_rank {s : State ι} {q : Master} {p : List UInt8}
    (h : q.rank + 4 * p.length + 1 ≤ s.master.rank + 4 * s.pipe.length) :
    State.rank args { s with master := q, pipe := p } + 1 ≤ s.rank args := by
  simp only [State.rank]
  omega

variable [DecidableEq ι]

theorem setSlave_rank {s : State ι} {i : ι} {q : Slave} {p : List UInt8}
    (h : q.rank (args i) + 4 * p.length + 1 ≤
      (s.slave i).rank (args i) + 4 * s.pipe.length) :
    State.rank args { s.setSlave i q with pipe := p } + 1 ≤ s.rank args := by
  have hsum := sum_update (fun j => Slave.rank (args j)) s.slave i q
  simp only [State.rank, State.setSlave]
  omega

theorem next_rank {s s' : State ι} {l : Label ι} (hn : (program args cap).next s l = some s') :
    s'.rank args + 1 ≤ s.rank args := by
  have hmoves := next_moves hn
  generalize events args cap s l = es at hmoves
  cases hmoves with
  | opens i hpc =>
    have hle : messageRank * ((args i).total - (s.slave i).written) ≤
        messageRank * (args i).total := Nat.mul_le_mul_left _ (Nat.sub_le _ _)
    refine setSlave_rank (p := s.pipe) ?_
    simp only [Slave.rank, hpc]
    omega
  | writes i text hpc hlt hm =>
    have hlen := Args.length_message hm
    have hmul : messageRank * ((args i).total - (s.slave i).written) =
        messageRank * ((args i).total - ((s.slave i).written + 1)) + messageRank := by
      rw [← Nat.mul_succ]
      congr 1
      omega
    refine setSlave_rank ?_
    simp only [Slave.rank, hpc, List.length_append, messageRank] at hmul ⊢
    omega
  | killed i hpc | exits i hpc | leaves i hpc | interrupted i hpc =>
    refine setSlave_rank (p := s.pipe) ?_
    simp only [Slave.rank, hpc]
    omega
  | masterOpens n i hpc | masterExits n hpc | masterEnds n hpc =>
    refine setMaster_rank (p := s.pipe) ?_
    simp only [Master.rank, hpc, MasterPc.rank]
    omega
  | prints n hpc hne =>
    have hpos := List.length_pos_of_ne_nil hne
    refine setMaster_rank (p := s.pipe) ?_
    simp only [Master.rank, List.length_nil]
    omega
  | getc n c cs hpc hst =>
    refine setMaster_rank (p := s.pipe) ?_
    simp only [Master.rank, hst, List.length_append, List.length_cons, List.length_nil]
    omega
  | reads n hpc hst heof hne =>
    have hpos := List.length_pos_of_ne_nil hne
    refine setMaster_rank ?_
    simp only [Master.rank, hst, List.length_take, List.length_drop, List.length_nil]
    omega
  | readsEnd n hpc hst heof =>
    refine setMaster_rank (p := s.pipe) ?_
    simp only [Master.rank, heof, if_true, Bool.false_eq_true, if_false]
    omega
  | masterInterrupted hne =>
    refine setMaster_rank (p := s.pipe) ?_
    cases hpc : s.master.pc with
    | exited => exact absurd hpc hne
    | _ => simp only [Master.rank, hpc, MasterPc.rank]; omega

theorem program_variant :
    (program args cap).Variant (fun _ => True) Label.gain (State.rank args) where
  keep _ _ _ _ _ := trivial
  lower _ _ _ _ hn := Nat.le_add_right_of_le (next_rank hn)

/-! ## Where a run stops -/

/-- What holds as long as nobody has been interrupted. -/
structure State.Calm (s : State ι) : Prop where
  slaves : ∀ i, (s.slave i).pc ≠ .interrupted ∧ (s.slave i).pc ≠ .left
  drained : s.master.pc = .ended ∨ s.master.pc = .exited →
    s.master.eof = true ∧ s.master.line = [] ∧ s.master.stream = []

theorem State.Calm.step {s s' : State ι} {l : Label ι} (h : s.Calm) (hl : l.gain = 0)
    (hn : (program args cap).next s l = some s') : s'.Calm := by
  have hset : ∀ {i : ι} {q : Slave}, q.pc ≠ .interrupted ∧ q.pc ≠ .left →
      ∀ j, ((s.setSlave i q).slave j).pc ≠ .interrupted ∧ ((s.setSlave i q).slave j).pc ≠ .left :=
    fun hq => (Function.forall_update_iff s.slave fun _ q =>
      q.pc ≠ .interrupted ∧ q.pc ≠ .left).mpr ⟨hq, fun j _ => h.slaves j⟩
  have hmoves := next_moves hn
  generalize events args cap s l = es at hmoves
  cases hmoves with
  | opens i | killed i | exits i => exact ⟨hset (by simp), h.drained⟩
  | writes i => exact ⟨hset (h.slaves i), h.drained⟩
  | masterOpens n => exact ⟨h.slaves, by simp⟩
  | prints n hpc | getc n c cs hpc | reads n hpc | readsEnd n hpc =>
    exact ⟨h.slaves, by simp [hpc]⟩
  | masterEnds n hpc hline hst heof => exact ⟨h.slaves, fun _ => ⟨heof, hline, hst⟩⟩
  | masterExits n hpc => exact ⟨h.slaves, fun _ => h.drained (.inl hpc)⟩
  | leaves i | interrupted i | masterInterrupted => cases hl

omit [Fintype ι] in
/-- A slave that has no step waits for the other end to be opened, or for room in the
    pipe, or it is gone. -/
theorem slaveStep_blocked {a : Args} {i : ι} {s : State ι}
    (hfit : ∀ k, k < a.total → a.message k ≠ none) (h : slaveStep a cap i s = none) :
    ((s.slave i).pc = .opening → s.master.pc = .exited) ∧
      ((s.slave i).pc = .running → s.master.pc ≠ .exited ∧ cap < s.pipe.length + 1023) := by
  simp only [slaveStep] at h
  split at h
  · rename_i hpc
    split at h
    · exact ⟨fun _ => ‹_›, by simp [hpc]⟩
    · cases h
  · rename_i hpc
    split at h
    · rename_i hlt
      split at h
      · exact absurd ‹_› (hfit _ hlt)
      · rename_i text hm
        have hlen := Args.length_message hm
        split at h
        · cases h
        · split at h
          · cases h
          · exact ⟨by simp [hpc], fun _ => ⟨‹_›, by omega⟩⟩
    · cases h
  all_goals
    rename_i hpc
    exact ⟨by simp [hpc], by simp [hpc]⟩

omit [DecidableEq ι] in
/-- The master that has no step waits for the other end to be opened, or for something
    to read, or it is gone. -/
theorem masterStep_blocked {s : State ι} (h : masterStep 0 s = none) :
    s.master.pc = .exited ∨ (s.master.pc = .opening ∧ ∀ i, (s.slave i).pc.opened ≠ true) ∨
      (s.master.pc = .reading ∧ s.pipe = [] ∧ ∃ i, (s.slave i).pc = .running) := by
  simp only [masterStep] at h
  split at h
  · split at h
    · cases h
    · exact .inr (.inl ⟨‹_›, not_exists.mp ‹_›⟩)
  · split at h
    · cases h
    · split at h
      · cases h
      · split at h
        · split at h <;> cases h
        · split at h
          · cases h
          · split at h
            · exact .inr (.inr ⟨‹_›, not_not.mp ‹_›, ‹_›⟩)
            · cases h
  · cases h
  · exact .inl ‹_›

/-- Where nobody has a step, the master is gone. -/
theorem exited_of_blocked [Nonempty ι]
    (hfit : ∀ i k, k < (args i).total → (args i).message k ≠ none) (hcap : 1023 ≤ cap)
    {s : State ι} (hcalm : s.Calm)
    (hb : ∀ l, l.gain = 0 → (program args cap).next s l = none) :
    s.master.pc = .exited := by
  have hslave := fun i => slaveStep_blocked (hfit i)
    (Option.map_eq_none_iff.mp (hb (.slave i) rfl))
  obtain h | ⟨hpc, hno⟩ | ⟨hpc, hpipe, i, hi⟩ :=
    masterStep_blocked (Option.map_eq_none_iff.mp (hb (.master 0) rfl))
  · exact h
  · obtain ⟨i⟩ := ‹Nonempty ι›
    cases hq : (s.slave i).pc with
    | opening => exact (hslave i).1 hq
    | left => exact absurd hq (hcalm.slaves i).2
    | _ => exact absurd (by rw [hq]; rfl) (hno i)
  · have hfull := ((hslave i).2 hi).2
    rw [hpipe, List.length_nil] at hfull
    omega

/-- What a run has come to that is over. -/
structure State.Finished (args : ι → Args) (es : List (Event ι)) (s : State ι) : Prop where
  master : s.master.pc = .exited
  slaves : ∀ i, (s.slave i).pc = .opening ∨ (s.slave i).pc = .exited ∨ (s.slave i).pc = .killed
  printed : ∃ early late, writes es = early ++ late ∧ printedText es = transcript args early ∧
    (∀ i, numbersOf i early = List.range (args i).total ∨ numbersOf i early = []) ∧
    ∃ i, numbersOf i early = List.range (args i).total

omit [Fintype ι] in
/-- The messages of a slave that is through with its loop. -/
theorem State.Delivered.numbers_eq {es : List (Event ι)} {s : State ι} (h : s.Delivered args es)
    {early late : List (ι × ℕ)} (hs : s.Session args es early late) {i : ι}
    (hpc : (s.slave i).pc = .exited) :
    numbersOf i early ++ numbersOf i late = List.range (args i).total := by
  rw [← numbersOf_append, ← hs.log, (h.slaves i).numbers, (h.slaves i).exited hpc]

theorem State.Delivered.finished [Nonempty ι] {es : List (Event ι)} {s : State ι}
    (h : s.Delivered args es) (hcalm : s.Calm)
    (hfit : ∀ i k, k < (args i).total → (args i).message k ≠ none) (hcap : 1023 ≤ cap)
    (hb : ∀ l, l.gain = 0 → (program args cap).next s l = none) : s.Finished args es := by
  have hmaster := exited_of_blocked hfit hcap hcalm hb
  have hslaves : ∀ i, (s.slave i).pc = .opening ∨ (s.slave i).pc = .exited ∨
      (s.slave i).pc = .killed := by
    intro i
    cases hpc : (s.slave i).pc with
    | opening | exited | killed => simp
    | running =>
      have hblocked := slaveStep_blocked (hfit i) (Option.map_eq_none_iff.mp (hb (.slave i) rfl))
      exact absurd hmaster (hblocked.2 hpc).1
    | interrupted => exact absurd hpc (hcalm.slaves i).1
    | left => exact absurd hpc (hcalm.slaves i).2
  obtain ⟨heof, hline, hstream⟩ := hcalm.drained (.inr hmaster)
  obtain ⟨early, late, hs⟩ := h.session heof
  refine ⟨hmaster, hslaves, early, late, hs.log, ?_, fun i => ?_, ?_⟩
  · rw [← hs.text, hline, hstream, List.append_nil, List.append_nil]
  · obtain hpc | hpc | hpc := hslaves i
    · have hnum := (h.slaves i).numbers
      rw [(h.slaves i).fresh (by rw [hpc]; rfl), List.range_zero, hs.log, numbersOf_append] at hnum
      exact .inr (List.append_eq_nil_iff.mp hnum).1
    · have hnum := h.numbers_eq hs hpc
      obtain hnil | hnil := hs.apart i
      · exact .inr hnil
      · rw [hnil, List.append_nil] at hnum
        exact .inl hnum
    · exact .inr (hs.running i (.inr hpc))
  · obtain ⟨i, hpc, hlate⟩ := hs.served
    have hnum := h.numbers_eq hs (hpc.resolve_right (hcalm.slaves i).1)
    rw [hlate, List.append_nil] at hnum
    exact ⟨i, hnum⟩

/-- If there is a slave, every text fits its buffer and the pipe holds the longest one:
    while nobody is interrupted, a run is no longer than the arguments allow for, and
    where it stops, everything is over. -/
theorem run_completes [Nonempty ι]
    (hfit : ∀ i k, k < (args i).total → (args i).message k ≠ none) (hcap : 1023 ≤ cap)
    {ls : List (Label ι)} {s : State ι} (hcalm : ∀ l ∈ ls, l.gain = 0)
    (hr : (program args cap).run ls start = some s) :
    ls.length ≤ 4 + ∑ i, (messageRank * (args i).total + 2) ∧
      ((∀ l, l.gain = 0 → (program args cap).next s l = none) →
        s.Finished args (seen args cap ls)) := by
  constructor
  · have hlen := program_variant.length_le trivial hr
    have hgain : (ls.map Label.gain).sum = 0 := by
      rw [List.map_congr_left hcalm]
      simp
    have hstart : State.rank args (start : State ι) =
        4 + ∑ i, (messageRank * (args i).total + 2) := by
      simp [State.rank, start, Master.rank, MasterPc.rank, Slave.rank]
    omega
  · have hs : s.Calm := Machine.run_invariant_of (P := fun l => l.gain = 0)
      (fun _ _ _ h hl hn => h.step hl hn) hcalm ⟨fun _ => by simp [start], by simp [start]⟩ hr
    exact (run_delivered hr).finished hs hfit hcap

/-- Two slaves, of which the second one writes the date once. -/
def twoSlaves (i : Fin 2) : Args := ⟨i.val + 7, i.val, fun _ => [68, 10]⟩

/-- The second slave writes before the first one. -/
theorem run_completes_two : ∃ ls s, (program twoSlaves 1023).run ls start = some s ∧
    printedText (seen twoSlaves 1023 ls) = [56, 10, 55, 10, 56, 58, 32, 68, 10] ∧
    s.Finished twoSlaves (seen twoSlaves 1023 ls) := by
  obtain ⟨ls, hls⟩ : ∃ ls : List (Label (Fin 2)), ls = [.slave 0, .master 0, .slave 1, .slave 1,
      .slave 0, .slave 1, .slave 0, .slave 1] ++ List.replicate 16 (.master 1000) := ⟨_, rfl⟩
  have hend : ((program twoSlaves 1023).run ls start).map
      (fun s => (s.master.pc, (s.slave 0).pc, (s.slave 1).pc)) =
        some (.exited, .exited, .exited) := by
    rw [hls]
    decide +kernel
  have hout : printedText (seen twoSlaves 1023 ls) = [56, 10, 55, 10, 56, 58, 32, 68, 10] := by
    rw [hls]
    decide +kernel
  have hfit : ∀ i k, k < (twoSlaves i).total → (twoSlaves i).message k ≠ none := by
    decide +kernel
  obtain ⟨s, hr, hpc⟩ := Option.map_eq_some_iff.mp hend
  simp only [Prod.mk.injEq] at hpc
  obtain ⟨hmaster, h0, h1⟩ := hpc
  have hcalm : ∀ l ∈ ls, l.gain = 0 := by
    subst hls
    decide
  refine ⟨ls, s, hr, hout, (run_completes hfit le_rfl hcalm hr).2 fun l hl => ?_⟩
  cases l with
  | slave i =>
    have hslave : (s.slave i).pc = .exited := by
      obtain rfl | rfl : i = 0 ∨ i = 1 := by omega
      · exact h0
      · exact h1
    simp [program, step, slaveStep, hslave]
  | master n => simp [program, step, masterStep, hmaster]
  | interrupt i | interruptMaster => cases hl

end AghOs.NamedPipe
