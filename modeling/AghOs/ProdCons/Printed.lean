import AghOs.Machine.Carry
import AghOs.Machine.Integers
import AghOs.Machine.Runs
import AghOs.ProdCons.Config
import AghOs.ProdCons.Overflow
import AghOs.ProdCons.Shutdown

/-!
# What the program prints

The consumers print the lines whose length stands in the configured relation to
`line-length` (`cl_shouldprint`, `cl.c`, lines 107–122; `main-sem.c`, lines 119–121,
the same in `main-monitor.c`). `run` is without a time limit, as in the rest of the
development; with one, a cancelled consumer takes the line that it holds with it. The
log lines of `verbose`, which go to the same stream, are left out.

* `lines_printed`: when `run` returns, the matching lines of all producers have been
  printed, each as often as it was read, but for those still in the buffer.
* `printed_in_order`: a single consumer prints them in the order in which they were
  pushed.

In both builds a step of the program is a step of carriers (`Sem.next_carry`,
`Monitor.next_carry`), which hold the line that they have popped until they print it.
-/

namespace AghOs.ProdCons

open Config

/-- `cl_shouldprint`. -/
def clShouldprint (cl : Cl) (line : Text) : Bool :=
  match cl.cmp with
  | .eq => toInt line.length = cl.lineLength
  | .lt => toInt line.length < cl.lineLength
  | .gt => toInt line.length > cl.lineLength

/-- Without settings for it, every line is printed. -/
theorem clShouldprint_defaults (cl : Cl) {line : Text} (h : line.length < 2 ^ 31) :
    clShouldprint cl.defaults line = true := by
  have hint : toInt line.length = line.length := toInt_natCast h
  simp only [clShouldprint, Cl.defaults, hint, decide_eq_true_eq]
  omega

section

variable {π : Type*}

/-- What a consumer prints for the pointer it has popped; it never pops a null
    pointer. -/
def prints (cl : Cl) : Option (Line π) → List Text
  | none => []
  | some line => [line.text].filter (clShouldprint cl)

theorem flatMap_prints (cl : Cl) (lines : List (Line π)) :
    (lines.map some).flatMap (prints cl) = (lines.map Line.text).filter (clShouldprint cl) := by
  induction lines with
  | nil => rfl
  | cons line lines ih =>
    rw [List.map_cons, List.flatMap_cons, ih, List.map_cons, ← List.singleton_append,
      List.filter_append, prints]

/-- What has been popped, and what is in the buffer. -/
theorem Pipe.Ok.prints_popped [DecidableEq π] {size : ℕ} {input : π → List UInt8} {q : Pipe π}
    {toPush : π → List Text} (h : q.Ok size input toPush) (cl : Cl) :
    q.popped.flatMap (prints cl) ++ q.buffer.content.flatMap (prints cl) =
      (q.pushed.map Line.text).filter (clShouldprint cl) := by
  rw [← List.flatMap_append, h.order, flatMap_prints]

end

variable {p c size : ℕ} {file : Fin p → Option (List UInt8)}

/-- The lines that should be printed: the matching ones of every producer's file. -/
def wanted (cl : Cl) (file : Fin p → Option (List UInt8)) : Multiset Text :=
  ∑ i, ((fileLines ((file i).getD [])).filter (clShouldprint cl) : Multiset Text)

theorem coe_filter_texts (P : Text → Bool) (lines : List (Line (Fin p))) :
    (((lines.map Line.text).filter P : List Text) : Multiset Text) =
      ∑ i, ((textsOf i lines).filter P : Multiset Text) := by
  induction lines with
  | nil => simp [textsOf]
  | cons line lines ih =>
    have hcons : ∀ i, (((textsOf i (line :: lines)).filter P : List Text) : Multiset Text) =
        (if line.producer = i then ([line.text].filter P : List Text) else []) +
          ((textsOf i lines).filter P : List Text) := by
      intro i
      by_cases hi : line.producer = i
      · simp only [textsOf, List.filter_cons, hi, decide_true, if_true, List.map_cons]
        split <;> simp
      · simp [textsOf, hi]
    rw [List.map_cons, ← List.singleton_append, List.filter_append, ← Multiset.coe_add, ih,
      Finset.sum_congr rfl fun i _ => hcons i, Finset.sum_add_distrib]
    congr 1
    rw [Finset.sum_eq_single line.producer]
    · rw [if_pos rfl]
    · intro i _ hi
      rw [if_neg hi.symm]
      rfl
    · intro h
      exact absurd (Finset.mem_univ _) h

/-- When everything has been pushed, the lines that should be printed are those that
    have been popped, and those in the buffer. -/
theorem Pipe.Ok.wanted {q : Pipe (Fin p)} {toPush : Fin p → List Text}
    (h : q.Ok size (fun i => (file i).getD []) toPush) (hall : ∀ i, toPush i = []) (cl : Cl) :
    (q.popped.flatMap (prints cl) : Multiset Text) +
      (q.buffer.content.flatMap (prints cl) : List Text) = wanted cl file := by
  rw [Multiset.coe_add, h.prints_popped, coe_filter_texts]
  refine Finset.sum_congr rfl fun i _ => ?_
  have hlines := h.lines i
  rw [hall, List.append_nil] at hlines
  rw [hlines]

/-- What has been printed when `run` returns and `left` is in the buffer. -/
structure Printed (cl : Cl) (file : Fin p → Option (List UInt8)) (c : ℕ) (out : List Text)
    (left : List (Option (Line (Fin p)))) : Prop where
  /-- every line that should be printed, once for each producer that has read it -/
  lines : (out : Multiset Text) + (left.flatMap (prints cl) : List Text) = wanted cl file
  /-- a single consumer keeps the order of each file -/
  order : c = 1 → ∃ lines : List (Line (Fin p)),
    (∀ i, textsOf i lines = fileLines ((file i).getD [])) ∧
      out ++ left.flatMap (prints cl) = (lines.map Line.text).filter (clShouldprint cl)

/-- Carriers that started with nothing. -/
structure Carried (cl : Cl) (q : Pipe (Fin p)) (held : Fin c → List Text) (out : List Text) :
    Prop where
  balance : (out : Multiset Text) + ∑ j, (held j : Multiset Text) = q.popped.flatMap (prints cl)
  order : ∀ hc : c = 1, out ++ held ⟨0, by omega⟩ = q.popped.flatMap (prints cl)

theorem Carried.start {held : Fin c → List Text} (cl : Cl) (h : ∀ j, held j = []) :
    Carried cl (Pipe.empty size : Pipe (Fin p)) held [] := by
  refine ⟨?_, fun hc => by rw [h]; rfl⟩
  rw [Finset.sum_eq_zero fun j _ => by rw [h j]; rfl]
  rfl

theorem Carried.step {cl : Cl} {q q' : Pipe (Fin p)} {held held' : Fin c → List Text}
    {out put : List Text} (h : Carried cl q held out)
    (hc : Carry (q.popped.flatMap (prints cl)) held (q'.popped.flatMap (prints cl)) held' put) :
    Carried cl q' held' (out ++ put) := by
  refine ⟨hc.balance h.balance, fun hone => ?_⟩
  subst hone
  exact hc.order (h.order rfl)

/-- When the consumers hold nothing any more, what has been popped has been printed. -/
theorem Carried.printed {cl : Cl} {q : Pipe (Fin p)} {held : Fin c → List Text} {out : List Text}
    {toPush : Fin p → List Text} (h : Carried cl q held out)
    (hpipe : q.Ok size (fun i => (file i).getD []) toPush) (hall : ∀ i, toPush i = [])
    (hheld : ∀ j, held j = []) : Printed cl file c out q.buffer.content := by
  refine ⟨?_, fun hc => ⟨q.pushed, fun i => ?_, ?_⟩⟩
  · have hbal := h.balance
    rw [Finset.sum_eq_zero fun j _ => by rw [hheld j]; rfl, add_zero] at hbal
    rw [hbal]
    exact hpipe.wanted hall cl
  · have hlines := hpipe.lines i
    rwa [hall, List.append_nil] at hlines
  · have hout := h.order hc
    rw [hheld, List.append_nil] at hout
    rw [hout, hpipe.prints_popped]

/-! ## The semaphore build -/

namespace Sem

/-- What the consumer has popped and not yet printed. -/
def Consumer.held {π : Type*} (cl : Cl) (q : Consumer π) : List Text :=
  match q.pc with
  | .postLine line | .unlock line | .use line => prints cl line
  | _ => []

/-- What a step prints: `printf("%s\n", line)` (line 120). -/
def printed (cl : Cl) (s : State p c) : Label p c → List Text
  | .consumer j =>
    match (s.consumer j).pc with
    | .use line => prints cl line
    | _ => []
  | _ => []

theorem held_update {π : Type*} (cl : Cl) (t : Fin c → Consumer π) (j : Fin c) (q : Consumer π) :
    (fun k => (Function.update t j q k).held cl) =
      Function.update (fun k => (t k).held cl) j (q.held cl) :=
  funext fun k => Function.apply_update (fun _ q => Consumer.held cl q) t j q k

/-- A consumer that holds on to what it has leaves the carriers as they are. -/
theorem held_update_of_eq {π : Type*} {cl : Cl} {t : Fin c → Consumer π} {j : Fin c}
    {q : Consumer π} (h : q.held cl = (t j).held cl) :
    (fun k => (Function.update t j q k).held cl) = fun k => (t k).held cl := by
  rw [held_update, h]
  exact Function.update_eq_self j fun k => (t k).held cl

/-- A step of the program is a step of the consumers as carriers. -/
theorem next_carry (cl : Cl) {s s' : State p c} {l : Label p c} (hI : s.Inv size file)
    (hn : (program size file).next s l = some s') :
    Carry (s.mem.pipe.popped.flatMap (prints cl)) (fun j => (s.consumer j).held cl)
      (s'.mem.pipe.popped.flatMap (prints cl)) (fun j => (s'.consumer j).held cl)
      (printed cl s l) := by
  cases l with
  | producer i =>
    simp only [program] at hn
    split at hn <;> cases hn
    rename_i hst
    exact .idle (by rw [(producerStep_takes hst).2]) rfl rfl
  | consumer j =>
    simp only [program] at hn
    split at hn <;> cases hn
    rename_i m q' hst
    cases hpc : s.consumer j with
    | mk pc cancelled =>
      rw [hpc] at hst
      cases pc with
      | pop =>
        have hpos := ((hI.consumers j).pop (by rw [hpc])).1
        cases hst
        refine .take j (prints cl s.mem.pipe.pop.2.1) (by rw [hpc]; rfl) ?_ ?_ ?_
        · have h0 : (bufferPop s.mem.pipe.buffer).1 = 0 := (Pipe.pop_length hpos).1
          simp only [Pipe.pop, h0, if_true, List.flatMap_append, List.flatMap_singleton]
        · exact held_update cl _ _ _
        · simp only [printed, hpc]
      | use line =>
        cases hst
        refine .give j rfl (held_update cl _ _ _) ?_
        simp only [printed, hpc, Consumer.held]
      | _ =>
        simp only [consumerStep, semPost] at hst
        repeat' split at hst
        all_goals cases hst
        all_goals
          refine .idle rfl (held_update_of_eq ?_) ?_
          · rw [hpc]; rfl
          · simp only [printed, hpc]
  | cancel j =>
    simp only [program] at hn
    split at hn <;> cases hn
    rename_i hc
    refine .idle rfl (held_update_of_eq ?_) rfl
    cases hpc : (s.consumer j).pc <;> simp_all [ConsumerPc.Cancelable, Consumer.held]
  | main =>
    simp only [program] at hn
    split at hn <;> cases hn
    · exact .idle rfl rfl rfl
    · exact .idle rfl (held_update_of_eq rfl) rfl

theorem run_carried (cl : Cl) {ls : List (Label p c)} {s : State p c}
    (hr : (program size file).run ls (start p c size) = some s) :
    Carried cl s.mem.pipe (fun j => (s.consumer j).held cl)
      ((program size file).output (printed cl) ls (start p c size)) :=
  (Machine.output_invariant
    (R := fun out s => s.Inv size file ∧
      Carried cl s.mem.pipe (fun j => (s.consumer j).held cl) out)
    (fun _ _ _ _ hR hn => ⟨hR.1.step hn, hR.2.step (next_carry cl hR.1 hn)⟩)
    ⟨start_inv, Carried.start cl fun _ => rfl⟩ hr).2

theorem run_printed (cl : Cl) (hsize : size ≤ 2 ^ 30) {ls : List (Label p c)} {s : State p c}
    (hr : (program size file).run ls (start p c size) = some s) (hret : s.main = .returned) :
    Printed cl file c ((program size file).output (printed cl) ls (start p c size))
      s.mem.pipe.buffer.content := by
  have hreach : (program size file).Reach s := (Machine.ReachIf.init rfl).runIf hr
  have hmain := (reach_runOk hreach).main
  rw [hret] at hmain
  refine (run_carried cl hr).printed (reach_ok_of_size_le hsize hreach) (fun i => ?_) fun j => ?_
  · have hi := hmain.1 i
    cases hpc : (s.producer i).pc <;> simp_all [Producer.ended, Producer.toPush]
  · have hj := hmain.2 j
    cases hpc : (s.consumer j).pc <;> simp_all [Consumer.ended, Consumer.held]

end Sem

/-! ## The monitor build -/

namespace Monitor

/-- What the consumer has popped and not yet printed. -/
def Consumer.held {π : Type*} (cl : Cl) (q : Consumer π) : List Text :=
  match q.pc with
  | .use line => prints cl line
  | _ => []

/-- What a step prints: `printf("%s\n", line)` (line 127). -/
def printed (cl : Cl) (s : State p c) : Label p c → List Text
  | .consumer j _ => (s.consumer j).held cl
  | _ => []

theorem Consumer.wake_held {π : Type*} (cl : Cl) (q : Consumer π) : q.wake.held cl = q.held cl := by
  obtain ⟨pc, cancelled⟩ := q
  cases pc <;> rfl

theorem held_setConsumer (cl : Cl) (s : State p c) (j : Fin c) (q : Consumer (Fin p)) :
    (fun k => ((s.setConsumer j q).consumer k).held cl) =
      Function.update (fun k => (s.consumer k).held cl) j (q.held cl) :=
  funext fun k => Function.apply_update (fun _ q => Consumer.held cl q) s.consumer j q k

/-- A consumer that holds on to what it has leaves the carriers as they are. -/
theorem held_setConsumer_of_eq {cl : Cl} {s : State p c} {j : Fin c} {q : Consumer (Fin p)}
    (h : q.held cl = (s.consumer j).held cl) :
    (fun k => ((s.setConsumer j q).consumer k).held cl) = fun k => (s.consumer k).held cl := by
  rw [held_setConsumer, h]
  exact Function.update_eq_self j fun k => (s.consumer k).held cl

theorem signalConsumer_held (cl : Cl) {s s' : State p c} {wake : Option (Fin c)}
    (h : s.signalConsumer wake = some s') :
    (fun k => (s'.consumer k).held cl) = fun k => (s.consumer k).held cl := by
  cases wake with
  | none => simp only [State.signalConsumer] at h; split at h <;> cases h; rfl
  | some j =>
    simp only [State.signalConsumer] at h
    split at h <;> cases h
    exact held_setConsumer_of_eq (Consumer.wake_held cl _)

/-- A step of the program is a step of the consumers as carriers. -/
theorem next_carry (cl : Cl) {s s' : State p c} {l : Label p c}
    (hn : (program size file).next s l = some s') :
    Carry (s.pipe.popped.flatMap (prints cl)) (fun j => (s.consumer j).held cl)
      (s'.pipe.popped.flatMap (prints cl)) (fun j => (s'.consumer j).held cl)
      (printed cl s l) := by
  cases l with
  | producer i wake =>
    obtain ⟨q, rfl, -⟩ | ⟨line, -, ⟨-, rfl⟩ | ⟨-, hn⟩⟩ := producerStep_cases hn
    · exact .idle rfl rfl rfl
    · exact .idle rfl rfl rfl
    · have hheld := signalConsumer_held cl hn
      rw [hheld, (signalConsumer_spec hn).1]
      exact .idle rfl rfl rfl
  | consumer j wake =>
    have hset := held_setConsumer cl s j
    simp only [program] at hn
    cases hq : s.consumer j with
    | mk pc cancelled =>
      simp only [consumerStep, hq] at hn
      cases pc with
      | start =>
        cases hn
        exact .idle rfl (held_setConsumer_of_eq (by rw [hq]; rfl)) (by simp only [printed, hq]; rfl)
      | use line =>
        cases hn
        exact .give j rfl (hset _) rfl
      | lock | woken =>
        simp only at hn
        split at hn
        · cases hn
          rename_i hfail
          rw [(Pipe.pop_fail hfail).2]
          refine .idle rfl (held_setConsumer_of_eq ?_) (by simp only [printed, hq]; rfl)
          rw [hq]
          rfl
        · rename_i h0
          have hpop : (bufferPop s.pipe.buffer).1 = 0 := not_not.mp h0
          obtain ⟨hpipe, hcons, -⟩ := signalProducer_spec hn
          rw [hpipe, hcons]
          refine .take j (prints cl s.pipe.pop.2.1) (by rw [hq]; rfl) ?_ (hset _)
            (by simp only [printed, hq]; rfl)
          simp only [State.setConsumer, Pipe.pop, hpop, if_true, List.flatMap_append,
            List.flatMap_singleton]
      | waiting | ended => cases hn
  | spuriousProducer i =>
    simp only [program] at hn
    split at hn <;> cases hn
    exact .idle rfl rfl rfl
  | spuriousConsumer j =>
    simp only [program] at hn
    split at hn <;> cases hn
    exact .idle rfl (held_setConsumer_of_eq (Consumer.wake_held cl _)) rfl
  | cancel j wake =>
    have hset : (s.consumer j).held cl = [] →
        (fun k => ((s.setConsumer j { s.consumer j with pc := .ended }).consumer k).held cl) =
          fun k => (s.consumer k).held cl := fun h => held_setConsumer_of_eq h.symm
    simp only [program, cancelStep] at hn
    split at hn
    · split at hn
      · cases hn
        exact .idle rfl (hset (by simp_all [Consumer.held])) rfl
      · cases hn
        exact .idle rfl (hset (by simp_all [Consumer.held])) rfl
      · have hheld := signalConsumer_held cl hn
        rw [hheld, (signalConsumer_spec hn).1]
        exact .idle rfl (hset (by simp_all [Consumer.held])) rfl
      · cases hn
    · cases hn
  | main =>
    simp only [program] at hn
    split at hn <;> cases hn
    · exact .idle rfl rfl rfl
    · exact .idle rfl (held_setConsumer_of_eq rfl) rfl

theorem run_printed (cl : Cl) (hsize : size ≤ 2 ^ 30) {ls : List (Label p c)} {s : State p c}
    (hr : (program size file).run ls (start p c size) = some s) (hret : s.main = .returned) :
    Printed cl file c ((program size file).output (printed cl) ls (start p c size))
      s.pipe.buffer.content := by
  have hreach : (program size file).Reach s := (Machine.ReachIf.init rfl).runIf hr
  have hmain := (reach_runOk hreach).main
  have hcarried := Machine.output_invariant
    (R := fun out s => Carried cl s.pipe (fun j => (s.consumer j).held cl) out)
    (fun _ _ _ _ hR hn => hR.step (next_carry cl hn)) (Carried.start cl fun _ => rfl) hr
  rw [hret] at hmain
  refine hcarried.printed (reach_ok_of_size_le hsize hreach) (fun i => ?_) fun j => ?_
  · have hi := hmain.1 i
    cases hpc : (s.producer i).pc <;> simp_all [Producer.ended, Producer.toPush]
  · have hj := hmain.2 j
    cases hpc : (s.consumer j).pc <;> simp_all [Consumer.ended, Consumer.held]

end Monitor

/-! ## Both builds -/

/-- **What is printed.** In both builds, without a time limit, for any `length` setting,
    up to `2 ^ 30` places and any files: when `run` returns, every line with a matching
    length has been printed once for each producer that has read it, but for those left
    in the buffer, and a single consumer has printed them in the order of each file. -/
theorem lines_printed (cl : Cl) {size : ℕ} (hsize : size ≤ 2 ^ 30)
    (file : Fin p → Option (List UInt8)) :
    (∀ (ls : List (Sem.Label p c)) (s : Sem.State p c),
      (Sem.program size file).run ls (Sem.start p c size) = some s → s.main = .returned →
      Printed cl file c
        ((Sem.program size file).output (Sem.printed cl) ls (Sem.start p c size))
        s.mem.pipe.buffer.content) ∧
    ∀ (ls : List (Monitor.Label p c)) (s : Monitor.State p c),
      (Monitor.program size file).run ls (Monitor.start p c size) = some s → s.main = .returned →
      Printed cl file c
        ((Monitor.program size file).output (Monitor.printed cl) ls (Monitor.start p c size))
        s.pipe.buffer.content :=
  ⟨fun _ _ hr hret => Sem.run_printed cl hsize hr hret,
    fun _ _ hr hret => Monitor.run_printed cl hsize hr hret⟩

/-- The configuration of one producer, one consumer and one place, which prints every
    line. -/
def oneOfEach : Cl where
  producers := 1
  consumers := 1
  bufferSize := 1
  filename := 102 :: List.replicate 255 0
  lineLength := -1
  cmp := .gt
  timeLimit := 0
  verbose := 0
  sleep := 0
  filename_length := congrArg (· + 1) List.length_replicate

/-- A consumer that prints the one line there is before it is cancelled. -/
theorem lines_printed_one : ∃ (ls : List (Sem.Label 1 1)) (s : Sem.State 1 1),
    (Sem.program 1 fun _ => some [97, 10]).output (Sem.printed oneOfEach) ls (Sem.start 1 1 1) =
      [[97]] ∧
    Printed oneOfEach (fun _ : Fin 1 => some [97, 10]) 1 [[97]] s.mem.pipe.buffer.content := by
  obtain ⟨ls, hls⟩ : ∃ ls : List (Sem.Label 1 1), ls = List.replicate 8 (.producer 0) ++
      List.replicate 14 (.consumer 0) ++ List.replicate 3 .main ++ [.cancel 0] ++
      List.replicate 3 .main := ⟨_, rfl⟩
  have hout : (Sem.program 1 fun _ => some [97, 10]).output (Sem.printed oneOfEach) ls
      (Sem.start 1 1 1) = [[97]] := by rw [hls]; decide +kernel
  have hmain : ((Sem.program 1 fun _ => some [97, 10]).run ls (Sem.start 1 1 1)).map
      Sem.State.main = some .returned := by rw [hls]; rfl
  obtain ⟨s, hr, hret⟩ := Option.map_eq_some_iff.mp hmain
  exact ⟨ls, s, hout, hout ▸ (lines_printed oneOfEach (by decide) _).1 ls s hr hret⟩

end AghOs.ProdCons
