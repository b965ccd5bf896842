import AghOs.NamedPipe.Program

/-!
# Nothing gets lost in the pipe

* `messages_delivered`: in every run, whatever the interleaving and the sizes of the
  reads, what the master has printed and what is still on its way is the text of the
  messages in the order in which they were written, and each slave's messages are the
  first ones it has to write. When the loop of the master is over, it has printed whole
  sessions: of no slave some messages and not the others.
-/

namespace AghOs.NamedPipe

variable {ι : Type*} {args : ι → Args} {cap : ℕ}

/-! ## What is seen of a run -/

/-- The messages that are written, each with its slave. -/
def writes (es : List (Event ι)) : List (ι × ℕ) :=
  es.filterMap fun
    | .wrote i k => some (i, k)
    | .printed _ => none

/-- What is printed. -/
def printedText (es : List (Event ι)) : List UInt8 :=
  es.flatMap fun
    | .wrote _ _ => []
    | .printed text => text

/-- The text of the messages. -/
def transcript (args : ι → Args) (log : List (ι × ℕ)) : List UInt8 :=
  log.flatMap fun e => ((args e.1).message e.2).getD []

theorem writes_append (es es' : List (Event ι)) : writes (es ++ es') = writes es ++ writes es' :=
  List.filterMap_append

theorem printedText_append (es es' : List (Event ι)) :
    printedText (es ++ es') = printedText es ++ printedText es' :=
  List.flatMap_append

theorem transcript_append (log log' : List (ι × ℕ)) :
    transcript args (log ++ log') = transcript args log ++ transcript args log' :=
  List.flatMap_append

/-- A message has no terminator in it. -/
theorem Args.zero_notMem_message {a : Args} {k : ℕ} {text : List UInt8}
    (h : a.message k = some text) : 0 ∉ text := by
  have hdec : 0 ∉ decimal a.pid := fun h0 => absurd (isDigit_of_mem_decimal _ 0 h0) (by decide)
  cases k with
  | zero =>
    simp only [Args.message, sprintf] at h
    split at h <;> cases h
    simp [hdec]
  | succ k =>
    simp only [Args.message, sprintf] at h
    split at h
    · split at h <;> cases h
      have hdate : 0 ∉ cString (a.date k) := fun h0 => by
        simpa using List.mem_takeWhile_imp h0
      simp [hdec, hdate]
    · cases h

theorem zero_notMem_transcript (log : List (ι × ℕ)) : 0 ∉ transcript args log := by
  intro h
  obtain ⟨e, -, he⟩ := List.mem_flatMap.mp h
  cases hm : (args e.1).message e.2 with
  | none => rw [hm] at he; cases he
  | some text => rw [hm] at he; exact Args.zero_notMem_message hm he

theorem cString_eq_self {text : List UInt8} (h : 0 ∉ text) : cString text = text :=
  List.takeWhile_eq_self_iff.mpr fun c hc => by
    simp only [ne_eq, decide_eq_true_eq]
    rintro rfl
    exact h hc

variable [DecidableEq ι]

/-- Which messages of slave `i` there are. -/
def numbersOf (i : ι) (log : List (ι × ℕ)) : List ℕ :=
  (log.filter (·.1 = i)).map Prod.snd

theorem numbersOf_append (i : ι) (log log' : List (ι × ℕ)) :
    numbersOf i (log ++ log') = numbersOf i log ++ numbersOf i log' := by
  simp only [numbersOf, List.filter_append, List.map_append]

theorem numbersOf_singleton (i j : ι) (k : ℕ) :
    numbersOf i [(j, k)] = if j = i then [k] else [] := by
  by_cases h : j = i <;> simp [numbersOf, h]

/-! ## The invariant -/

/-- A slave has written its first messages, and all of them when its loop is over. -/
structure Slave.Ok (a : Args) (numbers : List ℕ) (q : Slave) : Prop where
  numbers : numbers = List.range q.written
  total : q.written ≤ a.total
  fresh : q.pc.opened = false → q.written = 0
  exited : q.pc = .exited → q.written = a.total

/-- The reader has come to the end of the pipe behind the messages `early`. Of the
    slaves that wrote them, nobody has the pipe open any more. -/
structure State.Session (args : ι → Args) (es : List (Event ι)) (s : State ι)
    (early late : List (ι × ℕ)) : Prop where
  log : writes es = early ++ late
  text : printedText es ++ (s.master.line ++ s.master.stream) = transcript args early
  running : ∀ i, (s.slave i).pc = .running ∨ (s.slave i).pc = .killed → numbersOf i early = []
  apart : ∀ i, numbersOf i early = [] ∨ numbersOf i late = []
  served : ∃ i, ((s.slave i).pc = .exited ∨ (s.slave i).pc = .interrupted) ∧
    numbersOf i late = []

/-- What holds when `es` has been seen. -/
structure State.Delivered (args : ι → Args) (es : List (Event ι)) (s : State ι) : Prop where
  text : printedText es ++ (s.master.line ++ s.master.stream) ++ s.pipe =
    transcript args (writes es)
  slaves : ∀ i, (s.slave i).Ok (args i) (numbersOf i (writes es))
  killed : ∀ i, (s.slave i).pc = .killed → s.master.pc = .exited
  opened : s.master.pc = .reading → ∃ i, (s.slave i).pc.opened = true
  session : s.master.eof = true → ∃ early late, s.Session args es early late
  ended : s.master.pc = .ended →
    s.master.eof = true ∧ s.master.line = [] ∧ s.master.stream = []

/-- What the master prints is what it has read. -/
theorem State.Delivered.line_eq {es : List (Event ι)} {s : State ι} (h : s.Delivered args es) :
    cString s.master.line = s.master.line := by
  have h0 : 0 ∉ transcript args (writes es) := zero_notMem_transcript _
  rw [← h.text] at h0
  exact cString_eq_self fun hl => h0 (by simp [hl])

theorem start_delivered : (start : State ι).Delivered args [] where
  text := rfl
  slaves _ := ⟨rfl, Nat.zero_le _, fun _ => rfl, nofun⟩
  killed := nofun
  opened := nofun
  session := nofun
  ended := nofun

/-- How a slave moves that does not write. -/
structure State.SlaveMoves (a : Args) (s : State ι) (i : ι) (pc : SlavePc) : Prop where
  before : (s.slave i).pc = .opening ∨ (s.slave i).pc = .running
  opened : pc.opened = false → (s.slave i).pc = .opening
  exited : pc = .exited → a.total ≤ (s.slave i).written
  killed : pc = .killed → s.master.pc = .exited

theorem State.Delivered.setSlave {es : List (Event ι)} {s : State ι} (h : s.Delivered args es)
    {i : ι} {pc : SlavePc} (hmove : s.SlaveMoves (args i) i pc) :
    (s.setSlave i { s.slave i with pc := pc }).Delivered args es where
  text := h.text
  slaves := by
    refine (Function.forall_update_iff s.slave fun j q =>
      q.Ok (args j) (numbersOf j (writes es))).mpr ⟨?_, fun j _ => h.slaves j⟩
    refine ⟨(h.slaves i).numbers, (h.slaves i).total, fun hf => (h.slaves i).fresh ?_, fun hx =>
      le_antisymm (h.slaves i).total (hmove.exited hx)⟩
    rw [hmove.opened hf]
    rfl
  killed := (Function.forall_update_iff s.slave fun _ q =>
    q.pc = .killed → s.master.pc = .exited).mpr ⟨hmove.killed, fun j _ => h.killed j⟩
  opened hm := by
    obtain ⟨j, hj⟩ := h.opened hm
    refine ⟨j, ?_⟩
    by_cases hij : j = i
    · subst hij
      simp only [State.setSlave, Function.update_self]
      by_contra hf
      rw [hmove.opened (eq_false_of_ne_true hf)] at hj
      cases hj
    · simp only [State.setSlave, Function.update_of_ne hij]
      exact hj
  session heof := by
    obtain ⟨early, late, hs⟩ := h.session heof
    refine ⟨early, late, hs.log, hs.text, ?_, hs.apart, ?_⟩
    · refine (Function.forall_update_iff s.slave fun j q =>
        q.pc = .running ∨ q.pc = .killed → numbersOf j early = []).mpr
          ⟨fun _ => ?_, fun j _ => hs.running j⟩
      obtain hpc | hpc := hmove.before
      · have hnum := (h.slaves i).numbers
        rw [(h.slaves i).fresh (by rw [hpc]; rfl), List.range_zero, hs.log, numbersOf_append]
          at hnum
        exact (List.append_eq_nil_iff.mp hnum).1
      · exact hs.running i (.inl hpc)
    · obtain ⟨j, hj, hlate⟩ := hs.served
      refine ⟨j, ?_, hlate⟩
      have hij : j ≠ i := by
        rintro rfl
        obtain hpc | hpc := hmove.before <;> simp [hpc] at hj
      simp only [State.setSlave, Function.update_of_ne hij]
      exact hj
  ended := h.ended

/-- The master moves within what it has read. -/
theorem State.Delivered.setMaster {es : List (Event ι)} {s : State ι} (h : s.Delivered args es)
    {q : Master} (hline : q.line ++ q.stream = s.master.line ++ s.master.stream)
    (heof : q.eof = s.master.eof) (hpc : s.master.pc ≠ .exited)
    (hopen : q.pc = .reading → ∃ i, (s.slave i).pc.opened = true)
    (hend : q.pc = .ended → q.eof = true ∧ q.line = [] ∧ q.stream = []) :
    State.Delivered args es { s with master := q } where
  text := by rw [hline]; exact h.text
  slaves := h.slaves
  killed i hi := absurd (h.killed i hi) hpc
  opened := hopen
  session hq := by
    obtain ⟨early, late, hs⟩ := h.session (heof.symm.trans hq)
    exact ⟨early, late, hs.log, hline ▸ hs.text, hs.running, hs.apart, hs.served⟩
  ended := hend

theorem State.Delivered.write {es : List (Event ι)} {s : State ι} (h : s.Delivered args es)
    {i : ι} {text : List UInt8} (hpc : (s.slave i).pc = .running)
    (hlt : (s.slave i).written < (args i).total)
    (hm : (args i).message (s.slave i).written = some text) :
    State.Delivered args (es ++ [.wrote i (s.slave i).written])
      { s.setSlave i { s.slave i with written := (s.slave i).written + 1 } with
        pipe := s.pipe ++ text } := by
  have hlog : writes (es ++ [.wrote i (s.slave i).written]) =
      writes es ++ [(i, (s.slave i).written)] := writes_append es _
  have hprint : printedText (es ++ [.wrote i (s.slave i).written]) = printedText es := by
    rw [printedText_append]
    exact List.append_nil _
  have htext : transcript args [(i, (s.slave i).written)] = text := by simp [transcript, hm]
  -- where the slaves are does not change
  have hkeep : ∀ j, ((s.setSlave i { s.slave i with written := (s.slave i).written + 1 }).slave
      j).pc = (s.slave j).pc :=
    (Function.forall_update_iff s.slave fun j q => q.pc = (s.slave j).pc).mpr
      ⟨rfl, fun _ _ => rfl⟩
  refine ⟨?_, ?_, fun j hj => h.killed j (hkeep j ▸ hj), fun hr => ?_, fun heof => ?_, h.ended⟩
  · rw [hlog, hprint, transcript_append, htext, ← h.text]
    exact (List.append_assoc _ s.pipe text).symm
  · refine (Function.forall_update_iff s.slave fun j q =>
      q.Ok (args j) (numbersOf j _)).mpr ⟨⟨?_, hlt, ?_, ?_⟩, fun j hj => ?_⟩
    · rw [hlog, numbersOf_append, (h.slaves i).numbers, numbersOf_singleton, if_pos rfl,
        List.range_succ]
    · simp [hpc, SlavePc.opened]
    · simp [hpc]
    · rw [hlog, numbersOf_append, numbersOf_singleton, if_neg (Ne.symm hj), List.append_nil]
      exact h.slaves j
  · obtain ⟨j, hj⟩ := h.opened hr
    exact ⟨j, (congrArg SlavePc.opened (hkeep j)).trans hj⟩
  · obtain ⟨early, late, hs⟩ := h.session heof
    have hlate : ∀ j, j ≠ i →
        numbersOf j (late ++ [(i, (s.slave i).written)]) = numbersOf j late := fun j hj => by
      rw [numbersOf_append, numbersOf_singleton, if_neg hj.symm, List.append_nil]
    refine ⟨early, late ++ [(i, (s.slave i).written)], ?_, ?_, fun j hj => ?_, fun j => ?_, ?_⟩
    · rw [hlog, hs.log, List.append_assoc]
    · rw [hprint]
      exact hs.text
    · exact hs.running j (hkeep j ▸ hj)
    · by_cases hj : j = i
      · exact .inl (hs.running j (.inl (hj ▸ hpc)))
      · rw [hlate j hj]
        exact hs.apart j
    · obtain ⟨j, hj, hnil⟩ := hs.served
      have hij : j ≠ i := by
        rintro rfl
        simp [hpc] at hj
      exact ⟨j, by rwa [hkeep], (hlate j hij).trans hnil⟩

theorem State.Delivered.print {es : List (Event ι)} {s : State ι} (h : s.Delivered args es)
    (hpc : s.master.pc = .reading) :
    State.Delivered args (es ++ [.printed (cString s.master.line)])
      { s with master := { s.master with line := [] } } := by
  have hlog : writes (es ++ [.printed (cString s.master.line)]) = writes es :=
    (writes_append es _).trans (List.append_nil _)
  have hprint : printedText (es ++ [.printed (cString s.master.line)]) =
      printedText es ++ s.master.line := by
    rw [printedText_append, h.line_eq]
    simp [printedText]
  refine ⟨?_, fun i => hlog ▸ h.slaves i, h.killed, h.opened, fun heof => ?_, fun hend => ?_⟩
  · rw [hlog, hprint, List.nil_append, ← h.text]
    simp only [List.append_assoc]
  · obtain ⟨early, late, hs⟩ := h.session heof
    refine ⟨early, late, hlog ▸ hs.log, ?_, hs.running, hs.apart, hs.served⟩
    rw [hprint, List.nil_append, ← hs.text, List.append_assoc]
  · exact absurd (hpc.symm.trans hend) (by decide)

/-- The master finds the pipe empty and nobody left who has it open. -/
theorem State.Delivered.readEnd {es : List (Event ι)} {s : State ι} (h : s.Delivered args es)
    (hpc : s.master.pc = .reading) (hpipe : s.pipe = [])
    (hno : ∀ i, (s.slave i).pc ≠ .running) :
    State.Delivered args es { s with master := { s.master with eof := true } } := by
  refine ⟨h.text, h.slaves, h.killed, h.opened, fun _ => ⟨writes es, [], ?_⟩, fun hend =>
    absurd (hpc.symm.trans hend) (by decide)⟩
  have hkilled : ∀ i, (s.slave i).pc ≠ .killed := fun i hi =>
    absurd (hpc.symm.trans (h.killed i hi)) (by decide)
  refine ⟨(List.append_nil _).symm, ?_, fun i hi => ?_, fun i => .inr rfl, ?_⟩
  · rw [← h.text, hpipe, List.append_nil]
  · exact absurd hi (not_or.mpr ⟨hno i, hkilled i⟩)
  · obtain ⟨i, hi⟩ := h.opened hpc
    refine ⟨i, ?_, rfl⟩
    cases hq : (s.slave i).pc with
    | opening | left => rw [hq] at hi; cases hi
    | running => exact absurd hq (hno i)
    | killed => exact absurd hq (hkilled i)
    | exited => exact .inl rfl
    | interrupted => exact .inr rfl

variable [Fintype ι]

theorem State.Delivered.step {es : List (Event ι)} {s s' : State ι} {l : Label ι}
    (h : s.Delivered args es) (hn : (program args cap).next s l = some s') :
    s'.Delivered args (es ++ events args cap s l) := by
  have hmoves := next_moves hn
  generalize events args cap s l = es' at hmoves
  cases hmoves with
  | writes i text hpc hlt hm => exact h.write hpc hlt hm
  | prints n hpc => exact h.print hpc
  | opens i hpc =>
    rw [List.append_nil]
    exact h.setSlave ⟨.inl hpc, nofun, nofun, nofun⟩
  | killed i hpc hm =>
    rw [List.append_nil]
    exact h.setSlave ⟨.inr hpc, nofun, nofun, fun _ => hm⟩
  | exits i hpc hle =>
    rw [List.append_nil]
    exact h.setSlave ⟨.inr hpc, nofun, fun _ => hle, nofun⟩
  | leaves i hpc =>
    rw [List.append_nil]
    exact h.setSlave ⟨.inl hpc, fun _ => hpc, nofun, nofun⟩
  | interrupted i hpc =>
    rw [List.append_nil]
    exact h.setSlave ⟨.inr hpc, nofun, nofun, nofun⟩
  | masterOpens n i hpc hi =>
    rw [List.append_nil]
    exact h.setMaster rfl rfl (by rw [hpc]; decide) (fun _ => ⟨i, hi⟩) nofun
  | getc n c cs hpc hst =>
    rw [List.append_nil]
    refine h.setMaster ?_ rfl (by rw [hpc]; decide) h.opened fun hend =>
      absurd (hpc.symm.trans hend) (by decide)
    rw [hst, List.append_assoc, List.singleton_append]
  | reads n hpc hst heof =>
    rw [List.append_nil]
    refine ⟨?_, h.slaves, h.killed, h.opened, fun h1 => ?_, fun hend =>
      absurd (hpc.symm.trans hend) (by decide)⟩
    · rw [← h.text, hst, List.append_nil, ← List.append_assoc, List.append_assoc _ (List.take _ _),
        List.take_append_drop]
    · exact absurd (heof.symm.trans h1) (by decide)
  | readsEnd n hpc hst heof hpipe hno =>
    rw [List.append_nil]
    exact h.readEnd hpc hpipe hno
  | masterEnds n hpc hline hst heof =>
    rw [List.append_nil]
    exact h.setMaster rfl rfl (by rw [hpc]; decide) nofun fun _ => ⟨heof, hline, hst⟩
  | masterExits n hpc =>
    rw [List.append_nil]
    exact h.setMaster rfl rfl (by rw [hpc]; decide) nofun nofun
  | masterInterrupted hpc =>
    rw [List.append_nil]
    exact h.setMaster rfl rfl hpc nofun nofun

/-- What is seen of the run with the labels `ls`. -/
def seen (args : ι → Args) (cap : ℕ) (ls : List (Label ι)) : List (Event ι) :=
  (program args cap).output (events args cap) ls start

theorem run_delivered {ls : List (Label ι)} {s : State ι}
    (hr : (program args cap).run ls start = some s) : s.Delivered args (seen args cap ls) :=
  Machine.output_invariant (R := fun es s => s.Delivered args es) (fun _ _ _ _ h hn => h.step hn)
    start_delivered hr

/-- What has been printed, and what the master and the pipe hold, is what the slaves
    have written, message by message; each slave has written its first messages, in
    order. When `fgets` has failed, whole sessions have been printed, the messages
    `early`, and what comes later is from other slaves. The texts fit the buffers: a slave
    at one that does not takes no further step. -/
theorem messages_delivered (args : ι → Args) (cap : ℕ) {ls : List (Label ι)} {s : State ι}
    (hr : (program args cap).run ls start = some s) :
    printedText (seen args cap ls) ++ (s.master.line ++ s.master.stream) ++ s.pipe =
        transcript args (writes (seen args cap ls)) ∧
      (∀ i, numbersOf i (writes (seen args cap ls)) = List.range (s.slave i).written ∧
        (s.slave i).written ≤ (args i).total) ∧
      (s.master.pc = .ended → ∃ early late, writes (seen args cap ls) = early ++ late ∧
        printedText (seen args cap ls) = transcript args early ∧
        ∀ i, numbersOf i early = [] ∨ numbersOf i late = []) := by
  have h := run_delivered hr
  refine ⟨h.text, fun i => ⟨(h.slaves i).numbers, (h.slaves i).total⟩, fun hend => ?_⟩
  obtain ⟨heof, hline, hstream⟩ := h.ended hend
  obtain ⟨early, late, hs⟩ := h.session heof
  refine ⟨early, late, hs.log, ?_, hs.apart⟩
  rw [← hs.text, hline, hstream, List.append_nil, List.append_nil]

/-- Two slaves that write their process ids, read byte by byte. -/
theorem messages_delivered_two : ∃ ls s,
    (program (fun i : Fin 2 => ⟨i.val + 1, -1, fun _ => []⟩) 4).run ls start = some s ∧
      s.master.pc = .ended ∧
      printedText (seen (fun i : Fin 2 => ⟨i.val + 1, -1, fun _ => []⟩) 4 ls) =
        [50, 10, 49, 10] ∧
      ∀ i, numbersOf i (writes (seen (fun i : Fin 2 => ⟨i.val + 1, -1, fun _ => []⟩) 4 ls)) =
        List.range (s.slave i).written := by
  obtain ⟨ls, hls⟩ : ∃ ls : List (Label (Fin 2)), ls = [.slave 0, .master 0, .slave 1, .slave 1,
      .slave 0, .slave 1, .slave 0] ++ List.replicate 12 (.master 0) := ⟨_, rfl⟩
  have hend : ((program (fun i : Fin 2 => ⟨i.val + 1, -1, fun _ => []⟩) 4).run ls start).map
      (fun s => s.master.pc) = some .ended := by rw [hls]; decide +kernel
  have hout : printedText (seen (fun i : Fin 2 => ⟨i.val + 1, -1, fun _ => []⟩) 4 ls) =
      [50, 10, 49, 10] := by rw [hls]; decide +kernel
  obtain ⟨s, hr, hpc⟩ := Option.map_eq_some_iff.mp hend
  exact ⟨ls, s, hr, hpc, hout, fun i => ((messages_delivered _ _ hr).2.1 i).1⟩

end AghOs.NamedPipe
