import AghOs.Machine.Runs
import AghOs.ProdCons.Overflow
import AghOs.ProdCons.Wakeups

/-!
# The program returns

With `time_limit = 0` every run of the program ends, in both builds, and `run` has
returned when no thread can move any more. (With a time limit it need not: a producer
that is cancelled where `log_producer` prints keeps `buffer_mx`.)

* `Sem.sem_returns`: the semaphore build, when there are not more than
  `SEM_VALUE_MAX` lines.
* `Monitor.monitor_returns`: the monitor build, when there are finitely many spurious
  wake-ups, and no more than `2 ^ 30` places (beyond, the index of a push can overflow,
  and the consumers free a pointer twice).

The variants charge the way of a line through the buffer to the bytes of the files.
-/

namespace AghOs.ProdCons

/-! ## The main thread and the files -/

/-- The steps of `run` that are left. -/
def MainPc.rank (p c : ℕ) : MainPc → ℕ
  | .joinProducers i => 3 + 2 * c + (p - i)
  | .cancelConsumers j => 2 + c + (c - j)
  | .joinConsumers j => 1 + (c - j)
  | .returned => 0

theorem runStep_rank {p c : ℕ} {pe : Fin p → Bool} {ce : Fin c → Bool} {pc pc' : MainPc}
    {o : Option (Fin c)} (h : runStep pe ce pc = some (pc', o)) :
    pc'.rank p c + 1 ≤ pc.rank p c := by
  cases pc with
  | joinProducers k | cancelConsumers k | joinConsumers k =>
    simp only [runStep] at h
    repeat' split at h
    all_goals cases h
    all_goals simp only [MainPc.rank]
    all_goals omega
  | returned => cases h

/-- Which consumers have been cancelled when the main thread is at this point. -/
def MainPc.Requested {c : ℕ} (cn : Fin c → Bool) : MainPc → Prop
  | .joinProducers _ => True
  | .cancelConsumers j => ∀ k : Fin c, k < j → cn k = true
  | .joinConsumers _ | .returned => ∀ k, cn k = true

theorem MainPc.Requested.mono {c : ℕ} {cn cn' : Fin c → Bool} {pc : MainPc}
    (h : pc.Requested cn) (hn : ∀ k, cn k = true → cn' k = true) : pc.Requested cn' := by
  cases pc with
  | joinProducers i => trivial
  | cancelConsumers j => exact fun k hk => hn k (h k hk)
  | joinConsumers j | returned => exact fun k => hn k (h k)

theorem runStep_requested {p c : ℕ} {pe : Fin p → Bool} {ce cn cn' : Fin c → Bool}
    {pc pc' : MainPc} {o : Option (Fin c)} (h : runStep pe ce pc = some (pc', o))
    (hreq : pc.Requested cn) (hn : ∀ k, cn k = true → cn' k = true)
    (ho : ∀ j, o = some j → cn' j = true) : pc'.Requested cn' := by
  have hreq' := hreq.mono hn
  cases pc with
  | joinProducers i =>
    simp only [runStep] at h
    repeat' split at h
    all_goals cases h
    · trivial
    · exact fun k hk => absurd hk (Nat.not_lt_zero _)
  | cancelConsumers j =>
    simp only [runStep] at h
    split at h <;> cases h
    · intro k hk
      obtain hk | hk := Nat.lt_succ_iff_lt_or_eq.mp hk
      · exact hreq' k hk
      · exact ho k (congrArg some (Fin.ext hk.symm))
    · exact fun k => hreq' k (by omega)
  | joinConsumers j =>
    simp only [runStep] at h
    repeat' split at h
    all_goals cases h
    all_goals exact hreq'
  | returned => cases h

theorem length_splitLine (c : UInt8) (cs : List UInt8) :
    (splitLine (c :: cs)).2.length ≤ cs.length := by
  induction cs generalizing c with
  | nil => by_cases hc : c = newline <;> simp [splitLine, hc]
  | cons d ds ih =>
    by_cases hc : c = newline
    · simp [splitLine, hc]
    · rw [splitLine, if_neg hc]
      exact (ih d).trans (Nat.le_succ _)

/-- Every turn of the reading loop takes a byte off the file. -/
theorem getline_length {input l rest : List UInt8} (h : getline input = some (l, rest)) :
    rest.length + 1 ≤ input.length := by
  cases input with
  | nil => cases h
  | cons c cs =>
    have h := congrArg Prod.snd (Option.some.inj h)
    rw [← show (splitLine (c :: cs)).2 = rest from h]
    exact Nat.succ_le_succ (length_splitLine c cs)

variable {p c size : ℕ} {file : Fin p → Option (List UInt8)}

/-! ## The semaphore build -/

namespace Sem

/-- The steps of a producer, with those it makes possible for others. -/
def Producer.rank (file : Option (List UInt8)) (q : Producer) : ℕ :=
  match q.pc with
  | .start => 2 + 20 * (file.getD []).length
  | .read => 1 + 20 * q.rest.length
  | .unlock => 2 + 20 * q.rest.length
  | .postLine => 7 + 20 * q.rest.length
  | .waitLine _ => 17 + 20 * q.rest.length
  | .unlockFull _ | .push _ => 18 + 20 * q.rest.length
  | .testFull _ => 19 + 20 * q.rest.length
  | .lock _ => 20 + 20 * q.rest.length
  | .ended => 0

/-- The steps of a consumer up to its next wait. -/
def Consumer.rank {π : Type*} (q : Consumer π) : ℕ :=
  match q.pc with
  | .ended => 0
  | .waitLine => 1
  | .unlockEmpty | .pop => 2
  | .testEmpty => 3
  | .lock => 4
  | .start | .use _ => 5
  | .unlock _ => 6
  | .postLine _ => 11

/-- The steps that a token of either semaphore and a line in the buffer make
    possible. -/
def Shared.rank {π : Type*} (m : Shared π) : ℕ :=
  4 * m.producerLine + 4 * m.consumerLine + 10 * m.pipe.buffer.bufferLength

theorem Pipe.push_length_le {π : Type*} (q : Pipe π) (line : Line π) :
    (q.push line).2.buffer.bufferLength ≤ q.buffer.bufferLength + 1 := by
  simp only [Pipe.push, bufferPush]
  split <;> simp

theorem producerStep_rank {π : Type*} {file : Option (List UInt8)} {i : π} {m m' : Shared π}
    {q q' : Producer} (h : producerStep file i m q = .step (m', q')) :
    q'.rank file + m'.rank + 1 ≤ q.rank file + m.rank := by
  obtain ⟨pc, rest⟩ := q
  cases pc with
  | push line =>
    cases h
    have hlen := Pipe.push_length_le m.pipe ⟨i, line⟩
    simp only [Producer.rank, Shared.rank]
    omega
  | read =>
    simp only [producerStep] at h
    split at h
    · cases h
      simp only [Producer.rank]
      omega
    · have hlen := getline_length ‹_›
      split at h <;> cases h
      all_goals simp only [Producer.rank]
      all_goals omega
  | _ =>
    simp only [producerStep, semPost] at h
    repeat' split at h
    all_goals cases h
    all_goals simp_all [Producer.rank, Shared.rank]
    all_goals omega

theorem consumerStep_rank {π : Type*} {m m' : Shared π} {q q' : Consumer π}
    (h : consumerStep m q = .step (m', q')) (hok : q.Ok m) :
    q'.rank + m'.rank + 1 ≤ q.rank + m.rank := by
  obtain ⟨pc, cancelled⟩ := q
  cases pc with
  | pop =>
    cases h
    have hlen := (Pipe.pop_length hok).2
    simp only [Consumer.rank, Shared.rank]
    omega
  | _ =>
    simp only [consumerStep, semPost] at h
    repeat' split at h
    all_goals cases h
    all_goals simp_all [Consumer.rank, Shared.rank]
    all_goals omega

/-- The steps that are left in the program. -/
def State.rank (file : Fin p → Option (List UInt8)) (s : State p c) : ℕ :=
  s.mem.rank + ∑ i, (s.producer i).rank (file i) + weigh Consumer.rank s.consumer +
    s.main.rank p c

theorem program_variant (size : ℕ) (file : Fin p → Option (List UInt8)) :
    (program size file).Variant (fun s : State p c => s.Inv size file) (fun _ => 0)
      (State.rank file) where
  keep _ _ _ hI hn := hI.step hn
  lower s l s' hI hn := by
    obtain ⟨i, m', q', hst, rfl⟩ | ⟨j, m', q', hst, rfl⟩ | ⟨j, -, -, hc, rfl⟩ | ⟨main, hst, rfl⟩ |
      ⟨main, j, hst, rfl⟩ := program_next_cases hn
    · have hstep := producerStep_rank hst
      have hsum := sum_update (fun i => Producer.rank (file i)) s.producer i q'
      simp only [State.rank]
      omega
    · have hstep := consumerStep_rank hst (hI.consumers j)
      have hsum := weigh_update Consumer.rank s.consumer j q'
      simp only [State.rank]
      omega
    · have hsum := weigh_update Consumer.rank s.consumer j { s.consumer j with pc := .ended }
      have hpos : 0 < (s.consumer j).rank := by
        cases hpc : (s.consumer j).pc <;> simp_all [ConsumerPc.Cancelable, Consumer.rank]
      simp only [State.rank, show Consumer.rank ⟨.ended, (s.consumer j).cancelled⟩ = 0 from rfl]
        at hsum ⊢
      omega
    · have hstep := runStep_rank hst
      simp only [State.rank]
      omega
    · have hstep := runStep_rank hst
      have hsum := weigh_update_of_eq (w := Consumer.rank) (t := s.consumer) (i := j)
        (a := { s.consumer j with cancelled := true }) rfl
      simp only [State.rank, State.cancel, hsum]
      omega

/-! ### No step is left -/

/-- The consumers that have been cancelled so far are those that `run` has reached. -/
def State.Requested (s : State p c) : Prop :=
  s.main.Requested fun j => (s.consumer j).cancelled

theorem State.Requested.step {s s' : State p c} {l : Label p c} (h : s.Requested)
    (hn : (program size file).next s l = some s') : s'.Requested := by
  have hset : ∀ {j : Fin c} {q : Consumer (Fin p)},
      ((s.consumer j).cancelled = true → q.cancelled = true) →
      ∀ k, (s.consumer k).cancelled = true → (Function.update s.consumer j q k).cancelled = true :=
    fun hq => (Function.forall_update_iff s.consumer fun k q =>
      (s.consumer k).cancelled = true → q.cancelled = true).mpr ⟨hq, fun _ _ => id⟩
  obtain ⟨i, m', q', hst, rfl⟩ | ⟨j, m', q', hst, rfl⟩ | ⟨j, -, -, -, rfl⟩ | ⟨main, hst, rfl⟩ |
    ⟨main, j, hst, rfl⟩ := program_next_cases hn
  · exact h
  · exact MainPc.Requested.mono h
      (hset fun hj => (consumerStep_not_ended hst).2.2.trans hj)
  · exact MainPc.Requested.mono h (hset id)
  · exact runStep_requested hst h (fun _ => id) fun _ hk => (Option.some_ne_none _ hk.symm).elim
  · refine runStep_requested hst h (hset fun _ => rfl) fun k hk => ?_
    cases hk
    simp [State.cancel]

/-- When nobody can take a step, the producers have ended: with a consumer and a place
    in the buffer, none of them waits for ever. -/
theorem State.Inv.producers_ended {s : State p c} (hI : s.Inv size file) (hrun : s.RunOk)
    (hb : s.Blocked file) (hsize : 1 ≤ size) (hc : 1 ≤ c) (i : Fin p) :
    (s.producer i).ended = true := by
  by_contra hi
  have hmx := hI.mutex_free hb
  have hcons : ∀ j, (s.consumer j).pc = .waitLine ∧ s.mem.consumerLine = 0 := by
    intro j
    obtain ⟨-, h0⟩ | h1 | h1 := consumerStep_blocked (hb.2 j)
    · omega
    · exact h1
    · exact absurd (hrun.cancelled j (hrun.ended j (by simp [Consumer.ended, h1])) i) hi
  have hprod : ∀ k, (∃ line, (s.producer k).pc = .waitLine line) ∧ s.mem.producerLine = 0 ∨
      (s.producer k).pc = .ended := by
    intro k
    obtain ⟨-, h0⟩ | h1 := producerStep_blocked (hb.1 k)
    · omega
    · exact h1
  have h1 : weigh Consumer.comes s.consumer = 0 :=
    weigh_eq_zero_iff.mpr fun j => by simp [Consumer.comes, (hcons j).1]
  have h2 : weigh Consumer.posting s.consumer = 0 :=
    weigh_eq_zero_iff.mpr fun j => by simp [Consumer.posting, (hcons j).1]
  have h3 : weigh Producer.comes s.producer = 0 := weigh_eq_zero_iff.mpr fun k => by
    obtain ⟨⟨_, h⟩, -⟩ | h := hprod k <;> simp [Producer.comes, h]
  have h4 : weigh Producer.posting s.producer = 0 := weigh_eq_zero_iff.mpr fun k => by
    obtain ⟨⟨_, h⟩, -⟩ | h := hprod k <;> simp [Producer.posting, h]
  have hempty := hI.supply
  have h0 := (hcons ⟨0, hc⟩).2
  obtain ⟨⟨line, hpc⟩, hp0⟩ | hpc := hprod i
  · have hroom := hI.room ⟨i, by simp [Producer.sleeps, hpc]⟩
    omega
  · exact hi (by simp [Producer.ended, hpc])

/-- When nobody can take a step, a consumer that has been cancelled has ended, or can
    act on its cancellation. -/
theorem State.Inv.consumer_ended {s : State p c} (hI : s.Inv size file) (hb : s.Blocked file)
    (hcancel : ∀ j, (program size file).next s (.cancel j) = none) {j : Fin c}
    (hj : (s.consumer j).cancelled = true) : (s.consumer j).ended = true := by
  have hmx := hI.mutex_free hb
  obtain ⟨-, h0⟩ | ⟨hpc, -⟩ | hpc := consumerStep_blocked (hb.2 j)
  · omega
  · have hno := hcancel j
    simp only [program, hj, hpc] at hno
    cases hno
  · simp [Consumer.ended, hpc]

/-- A program that cannot go on has returned. -/
theorem State.returned {s : State p c} (hsize : 1 ≤ size) (hc : 1 ≤ c) (hfew : Few c size file)
    (hs : (program size file).Reach s) (hreq : s.Requested)
    (hend : ∀ l, (program size file).next s l = none) : s.main = .returned := by
  have hI := reach_inv hs
  have hrun := reach_runOk hs
  have hfits := hfew.fits hs
  have hb : s.Blocked file := by
    refine ⟨fun i => ?_, fun j => ?_⟩
    · have h := hend (.producer i)
      cases hst : producerStep (file i) i s.mem (s.producer i) with
      | blocked => rfl
      | exit => exact absurd hst (hfits.producers i)
      | step r => simp [program, hst] at h
    · have h := hend (.consumer j)
      cases hst : consumerStep s.mem (s.consumer j) with
      | blocked => rfl
      | exit => exact absurd hst (hfits.consumers j)
      | step r => simp [program, hst] at h
  have hpe := hI.producers_ended hrun hb hsize hc
  have hmain : runStep (fun i => (s.producer i).ended) (fun j => (s.consumer j).ended) s.main =
      none := by
    have h := hend .main
    by_contra hne
    obtain ⟨⟨main, o⟩, hr⟩ := Option.ne_none_iff_exists'.mp hne
    cases o <;> simp [program, hr] at h
  cases hpc : s.main with
  | returned => rfl
  | joinProducers i =>
    simp only [runStep, hpc, hpe, if_true] at hmain
    split at hmain <;> cases hmain
  | cancelConsumers j =>
    simp only [runStep, hpc] at hmain
    split at hmain <;> cases hmain
  | joinConsumers j =>
    have hcan : ∀ k, (s.consumer k).cancelled = true := by
      simpa only [State.Requested, MainPc.Requested, hpc] using hreq
    have hce := fun k => hI.consumer_ended hb (fun j => hend (.cancel j)) (hcan k)
    simp only [runStep, hpc, hce, if_true] at hmain
    split at hmain <;> cases hmain

/-- **The semaphore build returns.** Without a time limit, with a consumer and a place in
    the buffer, and not more lines than `SEM_VALUE_MAX`, every run is bounded and can go
    on until `run` has returned, which it has whenever no thread can take a step. -/
theorem sem_returns (hsize : 1 ≤ size) (hc : 1 ≤ c) (hfew : totalLines file ≤ semValueMax)
    {ls : List (Label p c)} {s : State p c}
    (hr : (program size file).run ls (start p c size) = some s) :
    ls.length ≤ 3 + p + 7 * c + ∑ i, (2 + 20 * ((file i).getD []).length) ∧
    (¬(program size file).CanStep s → s.main = .returned) ∧
    ∃ ls' s', (program size file).run ls' s = some s' ∧ s'.main = .returned := by
  have hvar := program_variant (c := c) size file
  have hstart : (start p c size).Requested := trivial
  have hreq : s.Requested := Machine.run_invariant (fun _ _ _ h hn => h.step hn) hstart hr
  have hreach : (program size file).Reach s := (Machine.ReachIf.init rfl).runIf hr
  refine ⟨?_, fun hend => ?_, ?_⟩
  · have hlen := hvar.length_le start_inv hr
    have hgain : (ls.map fun _ => 0).sum = 0 := by simp
    have hcons : weigh Consumer.rank (start p c size).consumer = 5 * c := by
      simp [weigh, start, Consumer.rank, Nat.mul_comm]
    have hrank : (start p c size).rank file =
        0 + ∑ i, (2 + 20 * ((file i).getD []).length) + 5 * c + (3 + 2 * c + p) := by
      rw [State.rank, hcons]
      rfl
    rw [hgain, hrank] at hlen
    omega
  · refine State.returned hsize hc (.inl hfew) hreach hreq fun l => ?_
    by_contra hne
    obtain ⟨s', hs'⟩ := Option.ne_none_iff_exists'.mp hne
    exact hend ⟨l, s', hs'⟩
  · obtain ⟨ls', s', -, hr', hend⟩ := hvar.exists_final (reach_inv hreach)
    refine ⟨ls', s', hr', State.returned hsize hc (.inl hfew) (Machine.ReachIf.runIf hreach hr') ?_
      fun l => hend l rfl⟩
    exact Machine.run_invariant (fun _ _ _ h hn => h.step hn) hreq hr'

/-- One line, one producer, one consumer. -/
theorem sem_returns_one : ∃ ls s, (program 1 fun _ => some [97, 10]).run ls (start 1 1 1) = some s ∧
    s.main = .returned :=
  (sem_returns le_rfl le_rfl (by decide) (Machine.run_nil _)).2.2

end Sem

/-! ## The monitor build -/

namespace Monitor

/-- The steps of a producer, with those it makes possible for others. -/
def Producer.rank (file : Option (List UInt8)) (q : Producer) : ℕ :=
  match q.pc with
  | .start => 2 + 6 * (file.getD []).length
  | .read => 1 + 6 * q.rest.length
  | .waiting _ => 5 + 6 * q.rest.length
  | .lock _ | .woken _ => 6 + 6 * q.rest.length
  | .ended => 0

/-- The steps of a consumer up to its next wait. -/
def Consumer.rank {π : Type*} (q : Consumer π) : ℕ :=
  match q.pc with
  | .ended => 0
  | .waiting => 1
  | .lock | .woken => 2
  | .start | .use _ => 3

/-- The steps that are left in the program. -/
def State.rank (file : Fin p → Option (List UInt8)) (s : State p c) : ℕ :=
  3 * s.pipe.buffer.bufferLength + ∑ i, (s.producer i).rank (file i) +
    weigh Consumer.rank s.consumer + s.main.rank p c

/-- The step is a spurious wake-up. -/
def Label.spurious : Label p c → Bool
  | .spuriousProducer _ | .spuriousConsumer _ => true
  | _ => false

/-- A spurious wake-up costs a step, and one for the turn that the thread takes. -/
def gain (l : Label p c) : ℕ := if l.spurious then 2 else 0

theorem sum_gain (ls : List (Label p c)) : (ls.map gain).sum = 2 * ls.countP Label.spurious := by
  induction ls with
  | nil => rfl
  | cons l ls ih =>
    rw [List.map_cons, List.sum_cons, ih, List.countP_cons, gain]
    split <;> omega

theorem Producer.wake_rank (file : Option (List UInt8)) (q : Producer) :
    q.wake.rank file ≤ q.rank file + 1 := by
  obtain ⟨pc, rest⟩ := q
  cases pc <;> simp only [wake, rank] <;> omega

theorem Consumer.wake_rank {π : Type*} (q : Consumer π) : q.wake.rank ≤ q.rank + 1 := by
  obtain ⟨pc, cancelled⟩ := q
  cases pc <;> simp [wake, rank]

theorem rank_setConsumer (file : Fin p → Option (List UInt8)) (s : State p c) (j : Fin c)
    (q : Consumer (Fin p)) :
    (s.setConsumer j q).rank file + (s.consumer j).rank = s.rank file + q.rank := by
  have hsum := weigh_update Consumer.rank s.consumer j q
  simp only [State.rank, State.setConsumer]
  omega

theorem rank_setProducer (file : Fin p → Option (List UInt8)) (s : State p c) (i : Fin p)
    (q : Producer) :
    (s.setProducer i q).rank file + (s.producer i).rank (file i) =
      s.rank file + q.rank (file i) := by
  have hsum := sum_update (fun i => Producer.rank (file i)) s.producer i q
  simp only [State.rank, State.setProducer]
  omega

theorem signalConsumer_rank (file : Fin p → Option (List UInt8)) {s s' : State p c}
    {wake : Option (Fin c)}
    (h : s.signalConsumer wake = some s') : s'.rank file ≤ s.rank file + 1 := by
  cases wake with
  | none => simp only [State.signalConsumer] at h; split at h <;> cases h; omega
  | some j =>
    simp only [State.signalConsumer] at h
    split at h <;> cases h
    have h1 := rank_setConsumer file s j (s.consumer j).wake
    have h2 := (s.consumer j).wake_rank
    omega

theorem signalProducer_rank (file : Fin p → Option (List UInt8)) {s s' : State p c}
    {wake : Option (Fin p)}
    (h : s.signalProducer wake = some s') : s'.rank file ≤ s.rank file + 1 := by
  cases wake with
  | none => simp only [State.signalProducer] at h; split at h <;> cases h; omega
  | some i =>
    simp only [State.signalProducer] at h
    split at h <;> cases h
    have h1 := rank_setProducer file s i (s.producer i).wake
    have h2 := (s.producer i).wake_rank (file i)
    omega

/-- The buffer has changed, by some lines. -/
theorem rank_pipe (file : Fin p → Option (List UInt8)) (s : State p c) (q : Pipe (Fin p)) :
    State.rank file { s with pipe := q } + 3 * s.pipe.buffer.bufferLength =
      s.rank file + 3 * q.buffer.bufferLength := by
  simp only [State.rank]
  omega

theorem producerStep_rank {s s' : State p c} {i : Fin p} {wake : Option (Fin c)}
    (h : producerStep (file i) i wake s = some s') : s'.rank file + 1 ≤ s.rank file := by
  have hset := rank_setProducer file s i
  cases hq : s.producer i with
  | mk pc rest =>
    simp only [producerStep, hq] at h
    simp only [hq] at hset
    cases pc with
    | start =>
      simp only at h
      split at h <;> cases h
      · have := hset ⟨.ended, rest⟩
        simp only [Producer.rank] at this
        omega
      · rename_i input hfile
        have := hset ⟨.read, input⟩
        simp only [Producer.rank, hfile, Option.getD_some] at this
        omega
    | read =>
      simp only at h
      split at h
      · cases h
        have := hset ⟨.ended, rest⟩
        simp only [Producer.rank] at this
        omega
      · rename_i l rest' hl
        have hlen := getline_length hl
        split at h <;> cases h
        · have := hset ⟨.read, rest'⟩
          simp only [Producer.rank] at this
          omega
        · rename_i line _
          have := hset ⟨.lock line, rest'⟩
          simp only [Producer.rank] at this
          omega
    | lock line | woken line =>
      simp only at h
      have hlen := Sem.Pipe.push_length_le s.pipe ⟨i, line⟩
      have hpipe := rank_pipe file s (s.pipe.push ⟨i, line⟩).2
      have hset' := rank_setProducer file { s with pipe := (s.pipe.push ⟨i, line⟩).2 } i
      simp only [hq] at hset'
      split at h
      · cases h
        rename_i hfail
        rw [(Pipe.push_fail hfail).2]
        have := hset ⟨.waiting line, rest⟩
        change (s.setProducer i ⟨.waiting line, rest⟩).rank file + 1 ≤ _
        simp only [Producer.rank] at this
        omega
      · have := hset' ⟨.read, rest⟩
        have hsig := signalConsumer_rank file h
        simp only [Producer.rank] at this
        omega
    | waiting line | ended => cases h

theorem consumerStep_rank {s s' : State p c} {j : Fin c} {wake : Option (Fin p)}
    (h : consumerStep j wake s = some s') : s'.rank file + 1 ≤ s.rank file := by
  have hset := rank_setConsumer file s j
  cases hq : s.consumer j with
  | mk pc cancelled =>
    simp only [consumerStep, hq] at h
    simp only [hq] at hset
    cases pc with
    | start | use line =>
      cases h
      have := hset ⟨.lock, cancelled⟩
      simp only [Consumer.rank] at this
      omega
    | lock | woken =>
      simp only at h
      have hpipe := rank_pipe file s s.pipe.pop.2.2
      have hset' := rank_setConsumer file { s with pipe := s.pipe.pop.2.2 } j
      simp only [hq] at hset'
      split at h
      · cases h
        rename_i hfail
        rw [(Pipe.pop_fail hfail).2]
        have := hset ⟨.waiting, cancelled⟩
        change (s.setConsumer j ⟨.waiting, cancelled⟩).rank file + 1 ≤ _
        simp only [Consumer.rank] at this
        omega
      · rename_i h0
        have hlen := (Pipe.pop_length (Pipe.pos_of_pop (not_not.mp h0))).2
        have := hset' ⟨.use s.pipe.pop.2.1, cancelled⟩
        have hsig := signalProducer_rank file h
        simp only [Consumer.rank] at this
        omega
    | waiting | ended => cases h

theorem cancelStep_rank {s s' : State p c} {j : Fin c} {wake : Option (Fin c)}
    (h : cancelStep j wake s = some s') : s'.rank file + 1 ≤ s.rank file := by
  have hset := rank_setConsumer file s j { s.consumer j with pc := .ended }
  simp only [show Consumer.rank ⟨.ended, (s.consumer j).cancelled⟩ = 0 from rfl] at hset
  simp only [cancelStep] at h
  split at h
  · split at h
    · cases h
      simp_all only [Consumer.rank]
      omega
    · cases h
      simp_all only [Consumer.rank]
      omega
    · have hsig := signalConsumer_rank file h
      simp_all only [Consumer.rank]
      omega
    · cases h
  · cases h

theorem program_variant (size : ℕ) (file : Fin p → Option (List UInt8)) :
    (program size file).Variant (fun _ : State p c => True) gain (State.rank file) where
  keep _ _ _ _ _ := trivial
  lower s l s' _ hn := by
    cases l with
    | producer i wake => exact producerStep_rank hn
    | consumer j wake => exact consumerStep_rank hn
    | spuriousProducer i =>
      simp only [program] at hn
      split at hn <;> cases hn
      have h1 := rank_setProducer file s i (s.producer i).wake
      have h2 := (s.producer i).wake_rank (file i)
      simp only [gain, Label.spurious, if_true]
      omega
    | spuriousConsumer j =>
      simp only [program] at hn
      split at hn <;> cases hn
      have h1 := rank_setConsumer file s j (s.consumer j).wake
      have h2 := (s.consumer j).wake_rank
      simp only [gain, Label.spurious, if_true]
      omega
    | cancel j wake => exact cancelStep_rank hn
    | main =>
      simp only [program] at hn
      split at hn <;> cases hn
      · have hstep := runStep_rank ‹_›
        simp only [State.rank]
        omega
      · rename_i j hst
        have hstep := runStep_rank hst
        have hset := rank_setConsumer file s j { s.consumer j with cancelled := true }
        simp only [show Consumer.rank ⟨(s.consumer j).pc, true⟩ = (s.consumer j).rank from rfl,
          State.rank, State.setConsumer] at hset
        simp only [State.rank, State.setConsumer]
        omega

/-! ### No step is left -/

/-- The consumers that have been cancelled so far are those that `run` has reached. -/
def State.Requested (s : State p c) : Prop :=
  s.main.Requested fun j => (s.consumer j).cancelled

theorem cancelled_setConsumer {s : State p c} {j : Fin c} {q : Consumer (Fin p)}
    (hq : (s.consumer j).cancelled = true → q.cancelled = true) (k : Fin c) :
    (s.consumer k).cancelled = true → ((s.setConsumer j q).consumer k).cancelled = true :=
  (Function.forall_update_iff s.consumer fun k q =>
    (s.consumer k).cancelled = true → q.cancelled = true).mpr ⟨hq, fun _ _ => id⟩ k

theorem signalConsumer_cancelled {s s' : State p c} {wake : Option (Fin c)}
    (h : s.signalConsumer wake = some s') : s'.main = s.main ∧
      ∀ k, (s.consumer k).cancelled = true → (s'.consumer k).cancelled = true := by
  cases wake with
  | none => simp only [State.signalConsumer] at h; split at h <;> cases h; exact ⟨rfl, fun _ => id⟩
  | some j =>
    simp only [State.signalConsumer] at h
    split at h <;> cases h
    exact ⟨rfl, cancelled_setConsumer fun hj => (Consumer.wake_ended (s.consumer j)).2.trans hj⟩

theorem signalProducer_cancelled {s s' : State p c} {wake : Option (Fin p)}
    (h : s.signalProducer wake = some s') : s'.main = s.main ∧ s'.consumer = s.consumer := by
  cases wake with
  | none => simp only [State.signalProducer] at h; split at h <;> cases h; exact ⟨rfl, rfl⟩
  | some j =>
    simp only [State.signalProducer] at h
    split at h <;> cases h
    exact ⟨rfl, rfl⟩

theorem State.Requested.step {s s' : State p c} {l : Label p c} (h : s.Requested)
    (hn : (program size file).next s l = some s') : s'.Requested := by
  have hkeep : ∀ {t : State p c}, t.main = s.main →
      (∀ k, (s.consumer k).cancelled = true → (t.consumer k).cancelled = true) → t.Requested := by
    intro t hm hc
    rw [State.Requested, hm]
    exact MainPc.Requested.mono h hc
  cases l with
  | producer i wake =>
    obtain ⟨q, rfl, -⟩ | ⟨line, -, ⟨-, rfl⟩ | ⟨-, hn⟩⟩ := producerStep_cases hn
    · exact h
    · exact h
    · obtain ⟨hm, hc⟩ := signalConsumer_cancelled hn
      exact hkeep hm hc
  | consumer j wake =>
    obtain ⟨q, rfl, -, -, -, -, -, hq⟩ | ⟨-, rfl⟩ | ⟨-, hn⟩ := consumerStep_cases hn
    · exact hkeep rfl (cancelled_setConsumer fun hj => hq.trans hj)
    · exact hkeep rfl (cancelled_setConsumer (s := s) id)
    · obtain ⟨hm, hc⟩ := signalProducer_cancelled hn
      refine hkeep hm ?_
      rw [hc]
      exact cancelled_setConsumer (s := s) id
  | spuriousProducer i =>
    simp only [program] at hn
    split at hn <;> cases hn
    exact h
  | spuriousConsumer j =>
    simp only [program] at hn
    split at hn <;> cases hn
    exact hkeep rfl
      (cancelled_setConsumer fun hj => (Consumer.wake_ended (s.consumer j)).2.trans hj)
  | cancel j wake =>
    simp only [program, cancelStep] at hn
    split at hn
    · split at hn
      · cases hn; exact hkeep rfl (cancelled_setConsumer id)
      · cases hn; exact hkeep rfl (cancelled_setConsumer id)
      · obtain ⟨hm, hc⟩ := signalConsumer_cancelled hn
        refine hkeep hm fun k hk => hc k ?_
        exact cancelled_setConsumer (q := { s.consumer j with pc := .ended }) id k hk
      · cases hn
    · cases hn
  | main =>
    simp only [program] at hn
    split at hn <;> cases hn
    · rename_i main hst
      exact runStep_requested hst h (fun _ => id) fun _ hk => (Option.some_ne_none _ hk.symm).elim
    · refine runStep_requested ‹_› h (cancelled_setConsumer fun _ => rfl) fun k hk => ?_
      cases hk
      simp [State.setConsumer]

/-- When nobody can take a step, the producers have ended: with a consumer and a place
    in the buffer, none of them waits for ever. -/
theorem State.Inv.producers_ended {s : State p c} (hI : s.Inv size file) (hrun : s.RunOk)
    (hb : s.Blocked file) (hsize : 1 ≤ size) (hc : 1 ≤ c) (i : Fin p) :
    (s.producer i).ended = true := by
  by_contra hi
  have hcons : ∀ j, (s.consumer j).waiting = true := fun j =>
    (consumerStep_blocked (hb.2 j)).resolve_right fun hj =>
      absurd (hrun.cancelled j (hrun.ended j hj) i) hi
  have h1 : s.wokenConsumers = 0 := weigh_eq_zero_iff.mpr fun j => by
    simp [(Consumer.wake_spec (hcons j)).2.2]
  have h2 : s.wokenProducers = 0 := weigh_eq_zero_iff.mpr fun k => by
    obtain hk | hk := producerStep_blocked (hb.1 k)
    · simp [(Producer.wake_spec hk).2.2]
    · cases hpc : (s.producer k).pc <;> simp_all [Producer.ended, Producer.woken]
  have hempty := hI.supply ⟨⟨0, hc⟩, hcons _⟩
  have hroom := hI.room ⟨i, (producerStep_blocked (hb.1 i)).resolve_right hi⟩
  omega

/-- A program in which no thread can move, but for spurious wake-ups, has returned. -/
theorem State.returned {s : State p c} (hsize : 1 ≤ size) (hc : 1 ≤ c)
    (hs : (program size file).Reach s) (hreq : s.Requested)
    (hend : ∀ l, l.spurious = false → (program size file).next s l = none) :
    s.main = .returned := by
  have hI := reach_inv hs
  have hrun := reach_runOk hs
  have hb : s.Blocked file :=
    ⟨fun i wake => hend (.producer i wake) rfl, fun j wake => hend (.consumer j wake) rfl⟩
  have hpe := hI.producers_ended hrun hb hsize hc
  have hmain : runStep (fun i => (s.producer i).ended) (fun j => (s.consumer j).ended) s.main =
      none := by
    have h := hend .main rfl
    by_contra hne
    obtain ⟨⟨main, o⟩, hr⟩ := Option.ne_none_iff_exists'.mp hne
    cases o <;> simp [program, hr] at h
  cases hpc : s.main with
  | returned => rfl
  | joinProducers i =>
    simp only [runStep, hpc, hpe, if_true] at hmain
    split at hmain <;> cases hmain
  | cancelConsumers j =>
    simp only [runStep, hpc] at hmain
    split at hmain <;> cases hmain
  | joinConsumers j =>
    have hcan : ∀ k, (s.consumer k).cancelled = true := by
      simpa only [State.Requested, MainPc.Requested, hpc] using hreq
    have hce : ∀ k, (s.consumer k).ended = true := by
      intro k
      obtain hk | hk := consumerStep_blocked (hb.2 k)
      · have hno := hend (.cancel k none) rfl
        cases hq : (s.consumer k).pc <;> simp_all [program, cancelStep, Consumer.waiting]
      · exact hk
    simp only [runStep, hpc, hce, if_true] at hmain
    split at hmain <;> cases hmain

/-- **The monitor build returns.** Without a time limit, with a consumer, and with a
    place in the buffer but not more than `2 ^ 30`: no index of a push overflows, every
    run is bounded but for its spurious wake-ups, and can go on without any until `run`
    has returned, which it has whenever no thread can take a step. -/
theorem monitor_returns (hsize : 1 ≤ size) (hplaces : size ≤ 2 ^ 30) (hc : 1 ≤ c)
    {ls : List (Label p c)} {s : State p c}
    (hr : (program size file).run ls (start p c size) = some s) :
    (∀ l, PushesInRange s l) ∧
    ls.length ≤ 3 + p + 5 * c + ∑ i, (2 + 6 * ((file i).getD []).length) +
      2 * ls.countP Label.spurious ∧
    ((∀ l, l.spurious = false → (program size file).next s l = none) → s.main = .returned) ∧
    ∃ ls' s', (∀ l ∈ ls', l.spurious = false) ∧ (program size file).run ls' s = some s' ∧
      s'.main = .returned := by
  have hvar := program_variant (c := c) size file
  have hstart : (start p c size).Requested := trivial
  have hreq : s.Requested := Machine.run_invariant (fun _ _ _ h hn => h.step hn) hstart hr
  have hreach : (program size file).Reach s := (Machine.ReachIf.init rfl).runIf hr
  have hgain : ∀ l : Label p c, gain l = 0 ↔ l.spurious = false := by
    intro l
    cases l <;> simp [gain, Label.spurious]
  refine ⟨(reach_inv hreach).pushesInRange hplaces, ?_, State.returned hsize hc hreach hreq, ?_⟩
  · have hlen := hvar.length_le trivial hr
    have hcons : weigh Consumer.rank (start p c size).consumer = 3 * c := by
      simp [weigh, start, Consumer.rank, Nat.mul_comm]
    have hrank : (start p c size).rank file =
        0 + ∑ i, (2 + 6 * ((file i).getD []).length) + 3 * c + (3 + 2 * c + p) := by
      rw [State.rank, hcons]
      rfl
    rw [sum_gain, hrank] at hlen
    omega
  · obtain ⟨ls', s', hls, hr', hend⟩ := hvar.exists_final (s := s) trivial
    refine ⟨ls', s', fun l hl => (hgain l).mp (hls l hl), hr', ?_⟩
    exact State.returned hsize hc (Machine.ReachIf.runIf hreach hr')
      (Machine.run_invariant (fun _ _ _ h hn => h.step hn) hreq hr')
      fun l hl => hend l ((hgain l).mpr hl)

/-- One line, one producer, one consumer. -/
theorem monitor_returns_one : ∃ ls s, (∀ l ∈ ls, l.spurious = false) ∧
    (program 1 fun _ => some [97, 10]).run ls (start 1 1 1) = some s ∧ s.main = .returned :=
  (monitor_returns le_rfl (by decide) le_rfl (Machine.run_nil _)).2.2.2

end Monitor

end AghOs.ProdCons
