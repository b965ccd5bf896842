import AghOs.ProdCons.Buffer
import AghOs.ProdCons.Lines

/-!
# What both builds have in common

The buffer together with what has gone through it, and `run` (`runner.c`, lines
60–70, with `cl->time_limit == 0`).

* `Pipe.Ok`: the buffer is a queue between the producers' files and what the
  consumers have popped. `Pipe.Counts` is the part of it that every push and every pop
  keeps, `Pipe.Ordered` the part that needs the index of a push in range.
* `RunOk`: what `run` relies on; `RunOk.of_threads` and `RunOk.of_run` keep it.
-/

namespace AghOs.ProdCons

/-! ## The pipe -/

section Pipe

variable {π : Type*}

/-- A line that a producer has allocated, and whose it is. -/
structure Line (π : Type*) where
  producer : π
  text : Text
  deriving DecidableEq

/-- The buffer, and the lines that were pushed and the pointers that were popped
    so far, which no thread reads. -/
structure Pipe (π : Type*) where
  buffer : Buffer (Line π)
  pushed : List (Line π)
  popped : List (Option (Line π))

/-- `buffer_push` and its return code; a line that was not stored was not
    pushed. -/
def Pipe.push (p : Pipe π) (line : Line π) : ℤ × Pipe π :=
  ((bufferPush p.buffer line).1,
    { p with
      buffer := (bufferPush p.buffer line).2
      pushed := if (bufferPush p.buffer line).1 = 0 then p.pushed ++ [line] else p.pushed })

/-- `buffer_pop`, its return code and the pointer it stores. -/
def Pipe.pop (p : Pipe π) : ℤ × Option (Line π) × Pipe π :=
  ((bufferPop p.buffer).1, (bufferPop p.buffer).2.1,
    { p with
      buffer := (bufferPop p.buffer).2.2
      popped := if (bufferPop p.buffer).1 = 0 then p.popped ++ [(bufferPop p.buffer).2.1]
        else p.popped })

/-- An empty pipe with `size` places. -/
def Pipe.empty (size : ℕ) : Pipe π := ⟨bufferInit size, [], []⟩

/-- The texts of producer `i` among the lines. -/
def textsOf [DecidableEq π] (i : π) (lines : List (Line π)) : List Text :=
  (lines.filter (·.producer = i)).map Line.text

/-- The counters of the buffer are in their ranges, and as many lines have been pushed
    as have been popped or are in the buffer; what producer `i` has pushed and has yet
    to push are the non-empty lines of its file, in this order. -/
structure Pipe.Counts [DecidableEq π] (size : ℕ) (input : π → List UInt8) (p : Pipe π)
    (toPush : π → List Text) : Prop where
  size_eq : p.buffer.bufferSize = size
  start_le : p.buffer.bufferStart ≤ size
  length_le : p.buffer.bufferLength ≤ size
  count : p.popped.length + p.buffer.bufferLength = p.pushed.length
  lines : ∀ i, textsOf i p.pushed ++ toPush i = fileLines (input i)

/-- The lines popped and the content of the buffer are the lines pushed, in this
    order. -/
def Pipe.Ordered (p : Pipe π) : Prop := p.popped ++ p.buffer.content = p.pushed.map some

/-- The pipe is a queue between the producers' files and the consumers. -/
structure Pipe.Ok [DecidableEq π] (size : ℕ) (input : π → List UInt8) (p : Pipe π)
    (toPush : π → List Text) : Prop extends p.Counts size input toPush where
  order : p.Ordered

variable [DecidableEq π] {size : ℕ} {input : π → List UInt8} {p : Pipe π} {toPush : π → List Text}

theorem Pipe.counts_empty (h : ∀ i, toPush i = fileLines (input i)) :
    (Pipe.empty size).Counts size input toPush :=
  ⟨rfl, Nat.zero_le _, Nat.zero_le _, rfl, fun i => h i⟩

omit [DecidableEq π] in
theorem Pipe.ordered_empty : (Pipe.empty size : Pipe π).Ordered := rfl

theorem textsOf_append_self (i : π) (lines : List (Line π)) (text : Text) :
    textsOf i (lines ++ [⟨i, text⟩]) = textsOf i lines ++ [text] := by
  simp [textsOf, List.filter_append]

theorem textsOf_append_of_ne {i j : π} (h : j ≠ i) (lines : List (Line π)) (text : Text) :
    textsOf j (lines ++ [⟨i, text⟩]) = textsOf j lines := by
  simp [textsOf, List.filter_append, h.symm]

/-- A push succeeds while there is a free place. -/
theorem Pipe.Counts.push_length (h : p.Counts size input toPush)
    (hlt : p.buffer.bufferLength < size) (line : Line π) : (p.push line).1 = 0 ∧
      (p.push line).2.buffer.bufferLength = p.buffer.bufferLength + 1 := by
  obtain ⟨h0, hl, -, -⟩ := bufferPush_length (b := p.buffer) (by rw [h.size_eq]; exact hlt) line
  exact ⟨h0, hl⟩

omit [DecidableEq π] in
/-- A pop succeeds while there is a line. -/
theorem Pipe.pop_length (hpos : 0 < p.buffer.bufferLength) : p.pop.1 = 0 ∧
    p.pop.2.2.buffer.bufferLength + 1 = p.buffer.bufferLength := by
  obtain ⟨h0, hc, -⟩ := bufferPop_content hpos
  refine ⟨h0, ?_⟩
  rw [← length_content, ← length_content p.buffer, hc]
  rfl

omit [DecidableEq π] in
/-- A push fails only when the buffer is full, and changes nothing then. -/
theorem Pipe.push_fail {line : Line π} (h : (p.push line).1 ≠ 0) :
    p.buffer.bufferLength = p.buffer.bufferSize ∧ (p.push line).2 = p := by
  have hf : bufferFull p.buffer = true := by
    by_contra hf
    simp [Pipe.push, bufferPush, hf] at h
  exact ⟨bufferFull_iff.mp hf, by simp [Pipe.push, bufferPush, hf]⟩

/-- A push succeeds only when there is a free place. -/
theorem Pipe.Counts.lt_of_push (h : p.Counts size input toPush) {line : Line π}
    (h0 : (p.push line).1 = 0) : p.buffer.bufferLength < size := by
  refine lt_of_le_of_ne h.length_le fun he => ?_
  have hf : bufferFull p.buffer = true := bufferFull_iff.mpr (he.trans h.size_eq.symm)
  simp [Pipe.push, bufferPush, hf] at h0

omit [DecidableEq π] in
/-- A pop fails only when the buffer is empty, and changes nothing then. -/
theorem Pipe.pop_fail (h : p.pop.1 ≠ 0) : p.buffer.bufferLength = 0 ∧ p.pop.2.2 = p := by
  have he : bufferEmpty p.buffer = true := by
    by_contra he
    simp [Pipe.pop, bufferPop, he] at h
  exact ⟨bufferEmpty_iff.mp he, by simp [Pipe.pop, bufferPop, he]⟩

omit [DecidableEq π] in
/-- A pop succeeds only when there is a line. -/
theorem Pipe.pos_of_pop (h0 : p.pop.1 = 0) : 0 < p.buffer.bufferLength := by
  refine Nat.pos_of_ne_zero fun h => ?_
  have he : bufferEmpty p.buffer = true := bufferEmpty_iff.mpr h
  simp [Pipe.pop, bufferPop, he] at h0

omit [DecidableEq π] in
theorem Pipe.push_pushed (h : p.buffer.bufferLength < p.buffer.bufferSize) (line : Line π) :
    (p.push line).2.pushed = p.pushed ++ [line] :=
  if_pos (bufferPush_length h line).1

omit [DecidableEq π] in
theorem Pipe.pop_popped (h : 0 < p.buffer.bufferLength) :
    p.pop.2.2.popped = p.popped ++ [p.pop.2.1] :=
  if_pos (bufferPop_content h).1

/-- Producer `i` pushes its next line. -/
theorem Pipe.Counts.push (h : p.Counts size input toPush) (hlt : p.buffer.bufferLength < size)
    {i : π} {text : Text} {toPush' : π → List Text} (hi : toPush i = text :: toPush' i)
    (ho : ∀ j, j ≠ i → toPush' j = toPush j) :
    (p.push ⟨i, text⟩).2.Counts size input toPush' := by
  have hlt' : p.buffer.bufferLength < p.buffer.bufferSize := by rwa [h.size_eq]
  obtain ⟨-, hl, hst, hs⟩ := bufferPush_length hlt' (⟨i, text⟩ : Line π)
  have hpushed := Pipe.push_pushed hlt' ⟨i, text⟩
  refine ⟨hs.trans h.size_eq, hst.trans_le h.start_le, hl.trans_le hlt, ?_, fun j => ?_⟩
  · have hcount := h.count
    rw [hpushed, List.length_append, List.length_singleton]
    show p.popped.length + (bufferPush p.buffer _).2.bufferLength = _
    omega
  · rw [hpushed]
    by_cases hji : j = i
    · subst hji
      rw [textsOf_append_self, List.append_assoc, List.singleton_append, ← hi]
      exact h.lines j
    · rw [textsOf_append_of_ne hji, ho j hji]
      exact h.lines j

/-- A consumer pops the first line. -/
theorem Pipe.Counts.pop (h : p.Counts size input toPush) (hpos : 0 < p.buffer.bufferLength) :
    p.pop.2.2.Counts size input toPush := by
  obtain ⟨-, -, hst, hs⟩ := bufferPop_content hpos
  have h1 := h.length_le
  have h2 := (pop_length hpos).2
  have hpopped := Pipe.pop_popped hpos
  refine ⟨hs.trans h.size_eq, ?_, by omega, ?_, h.lines⟩
  · have hmod := Nat.mod_lt (p.buffer.bufferStart + 1) (hpos.trans_le h1)
    show (bufferPop p.buffer).2.2.bufferStart ≤ size
    rw [hst, h.size_eq]
    exact hmod.le
  · have hcount := h.count
    rw [hpopped, List.length_append, List.length_singleton]
    show _ = p.pushed.length
    omega

/-- The invariant says the same for the same lines to push. -/
theorem Pipe.Counts.congr (h : p.Counts size input toPush) {toPush' : π → List Text}
    (ht : ∀ i, toPush' i = toPush i) : p.Counts size input toPush' :=
  (funext ht : toPush' = toPush) ▸ h

/-- Up to `2 ^ 30` places the index of every push is an `int`. -/
theorem Pipe.Counts.inRange (h : p.Counts size input toPush) (hsize : size ≤ 2 ^ 30)
    (hlt : p.buffer.bufferLength < size) : p.buffer.InRange :=
  Buffer.inRange_of_size_le (h.size_eq.trans_le hsize) (h.start_le.trans_eq h.size_eq.symm)
    (hlt.trans_eq h.size_eq.symm)

omit [DecidableEq π] in
/-- A push in range keeps the order. -/
theorem Pipe.Ordered.push (h : p.Ordered) (hlt : p.buffer.bufferLength < p.buffer.bufferSize)
    (hr : p.buffer.InRange) (line : Line π) : (p.push line).2.Ordered := by
  have hcontent : (p.push line).2.buffer.content = p.buffer.content ++ [some line] :=
    bufferPush_content hlt hr line
  rw [Ordered, Pipe.push_pushed hlt, List.map_append, hcontent, ← List.append_assoc]
  exact congrArg (· ++ [some line]) h

omit [DecidableEq π] in
theorem Pipe.Ordered.pop (h : p.Ordered) (hpos : 0 < p.buffer.bufferLength) :
    p.pop.2.2.Ordered := by
  rw [Ordered, Pipe.pop_popped hpos, List.append_assoc, List.singleton_append]
  exact (congrArg (p.popped ++ ·) (bufferPop_content hpos).2.1).symm.trans h

end Pipe

/-! ## The main thread -/

/-- Where the main thread is in `run`: joining the producers, cancelling the
    consumers, joining the consumers, from the given index on. -/
inductive MainPc
  | joinProducers (i : ℕ)
  | cancelConsumers (j : ℕ)
  | joinConsumers (j : ℕ)
  | returned
  deriving DecidableEq

section Main

variable {p c : ℕ}

/-- One step of `run`, and the consumer it cancels. A `pthread_join` is not
    enabled while its thread runs. -/
def runStep (producerEnded : Fin p → Bool) (consumerEnded : Fin c → Bool) :
    MainPc → Option (MainPc × Option (Fin c))
  | .joinProducers i =>
    if h : i < p then
      if producerEnded ⟨i, h⟩ then some (.joinProducers (i + 1), none) else none
    else some (.cancelConsumers 0, none)
  | .cancelConsumers j =>
    if h : j < c then some (.cancelConsumers (j + 1), some ⟨j, h⟩)
    else some (.joinConsumers 0, none)
  | .joinConsumers j =>
    if h : j < c then
      if consumerEnded ⟨j, h⟩ then some (.joinConsumers (j + 1), none) else none
    else some (.returned, none)
  | .returned => none

/-- Which threads have ended when the main thread is at this point. -/
def MainPc.Ok (producerEnded : Fin p → Bool) (consumerEnded : Fin c → Bool) : MainPc → Prop
  | .joinProducers i => ∀ k : Fin p, k < i → producerEnded k = true
  | .cancelConsumers _ => ∀ k, producerEnded k = true
  | .joinConsumers j =>
    (∀ k, producerEnded k = true) ∧ ∀ k : Fin c, k < j → consumerEnded k = true
  | .returned => (∀ k, producerEnded k = true) ∧ ∀ k, consumerEnded k = true

variable {pe pe' : Fin p → Bool} {ce ce' : Fin c → Bool} {pc pc' : MainPc} {o : Option (Fin c)}

/-- Threads that have ended stay so. -/
theorem MainPc.Ok.mono (h : pc.Ok pe ce) (hp : ∀ k, pe k = true → pe' k = true)
    (hc : ∀ k, ce k = true → ce' k = true) : pc.Ok pe' ce' := by
  cases pc with
  | joinProducers i => exact fun k hk => hp k (h k hk)
  | cancelConsumers j => exact fun k => hp k (h k)
  | joinConsumers j => exact ⟨fun k => hp k (h.1 k), fun k hk => hc k (h.2 k hk)⟩
  | returned => exact ⟨fun k => hp k (h.1 k), fun k => hc k (h.2 k)⟩

/-- The consumers are cancelled when all producers have ended. -/
theorem runStep_ok (h : runStep pe ce pc = some (pc', o)) (hok : pc.Ok pe ce) :
    pc'.Ok pe ce ∧ (o ≠ none → ∀ k, pe k = true) := by
  cases pc with
  | joinProducers i =>
    simp only [runStep] at h
    split at h
    · rename_i hi
      split at h <;> cases h
      refine ⟨fun k hk => ?_, nofun⟩
      obtain hk | hk := Nat.lt_succ_iff_lt_or_eq.mp hk
      · exact hok k hk
      · obtain rfl : k = ⟨i, hi⟩ := Fin.ext hk
        assumption
    · cases h
      exact ⟨fun k => hok k (by omega), nofun⟩
  | cancelConsumers j =>
    simp only [runStep] at h
    split at h <;> cases h
    · exact ⟨hok, fun _ => hok⟩
    · exact ⟨⟨hok, nofun⟩, nofun⟩
  | joinConsumers j =>
    simp only [runStep] at h
    split at h
    · rename_i hj
      split at h <;> cases h
      refine ⟨⟨hok.1, fun k hk => ?_⟩, nofun⟩
      obtain hk | hk := Nat.lt_succ_iff_lt_or_eq.mp hk
      · exact hok.2 k hk
      · obtain rfl : k = ⟨j, hj⟩ := Fin.ext hk
        assumption
    · cases h
      exact ⟨⟨hok.1, fun k => hok.2 k (by omega)⟩, nofun⟩
  | returned => cases h

/-- What `run` relies on, when `pe` and `ce` say who has ended and `cn` who has
    been cancelled: it has joined whom it has joined, cancels consumers only
    when all producers have ended, and a consumer ends only by being
    cancelled. -/
structure RunOk (pc : MainPc) (pe : Fin p → Bool) (ce cn : Fin c → Bool) : Prop where
  main : pc.Ok pe ce
  cancelled : ∀ j, cn j = true → ∀ i, pe i = true
  ended : ∀ j, ce j = true → cn j = true

variable {cn cn' : Fin c → Bool}

theorem runOk_start (hc : ∀ j, ce j = false) (hn : ∀ j, cn j = false) :
    RunOk (.joinProducers 0) pe ce cn :=
  ⟨fun _ hk => absurd hk (Nat.not_lt_zero _), fun j hj => absurd hj (by simp [hn j]),
    fun j hj => absurd hj (by simp [hc j])⟩

/-- A step of the threads: who has ended stays so. -/
theorem RunOk.of_threads (h : RunOk pc pe ce cn) (hp : ∀ k, pe k = true → pe' k = true)
    (hc : ∀ k, ce k = true → ce' k = true) (hn : ∀ k, cn' k = cn k)
    (he : ∀ k, ce' k = true → cn k = true) : RunOk pc pe' ce' cn' :=
  ⟨h.main.mono hp hc, fun j hj k => hp k (h.cancelled j (hn j ▸ hj) k),
    fun j hj => (hn j).trans (he j hj)⟩

/-- A step of the main thread: a consumer is cancelled that was not, or none. -/
theorem RunOk.of_run (h : RunOk pc pe ce cn) (hs : runStep pe ce pc = some (pc', o))
    (hn : ∀ k, cn k = true → cn' k = true) (ho : o = none → ∀ k, cn' k = cn k) :
    RunOk pc' pe ce cn' := by
  obtain ⟨h1, h2⟩ := runStep_ok hs h.main
  refine ⟨h1, fun j hj => ?_, fun j hj => hn j (h.ended j hj)⟩
  by_cases hnone : o = none
  · exact h.cancelled j (ho hnone j ▸ hj)
  · exact h2 hnone

end Main

end AghOs.ProdCons
