import AghOs.Machine.Reach
import Mathlib.Data.Finset.Card
import Mathlib.Data.Finset.Option

/-!
# Stopping and continuing a clock

`cw04/zad1` (`main.c`, lines 18–61) from the moment at which `tstp_handler` is the handler
of `SIGTSTP`; `main` calls it once itself. `signal` does not fail. Nobody else sends a
signal to the children, `exec` succeeds, and a child that has ended is never waited for,
so that its PID is not given to another one.

`act.sa_flags` is not initialised: `Flags` are the two flags in it that matter.

* `Alone.step`: as long as no call of `tstp_handler` interrupts another one.
* `Apart.step`: the handler does not interrupt itself, but perhaps the call of `main`.
* `clocks_running`: in the first case the clock that runs is the one in `child_pid`, in
  the second there can be one more, and no third one.
-/

namespace AghOs.Clock

/-- `SA_NODEFER` and `SA_RESETHAND` -/
structure Flags where
  nodefer : Bool
  resethand : Bool

/-- Where a call of `tstp_handler` is: before line 19, 20, 21 or 27, or before `child_pid`
    gets what `fork` has returned. -/
inductive Place
  | test
  | kill
  | clear
  | fork
  | assign (child : Option ℕ)
  deriving DecidableEq

/-- A call of `tstp_handler`. -/
structure Call where
  place : Place
  handler : Bool
  deriving DecidableEq

inductive Life
  | runs
  | stopped
  | exited
  deriving DecidableEq

/-- The program. The first of `calls` is the innermost. `forked` and `killed` are the
    children that have been forked, and those that have been sent `SIGKILL`. -/
structure State where
  life : Life
  /-- `none` for `-1` -/
  childPid : Option ℕ
  calls : List Call
  /-- `main` has called `tstp_handler`. -/
  called : Bool
  handled : Bool
  forked : Finset ℕ
  killed : Finset ℕ
  /-- `kill(-1, SIGKILL)` has been called. -/
  killedAll : Bool

/-- `main` calls `tstp_handler`; a step of a call, other than `fork`; what `fork` returns;
    `SIGTSTP`, `SIGINT` and `SIGCONT` are delivered. -/
inductive Label
  | call
  | step
  | fork (child : Option ℕ)
  | tstp
  | int
  | cont
  deriving DecidableEq

namespace State

/-- `main`, behind `sigaction`. -/
def start : State := ⟨.runs, none, [], false, true, ∅, ∅, false⟩

/-- The innermost call goes on at a place. -/
def goto (s : State) (p : Place) : State :=
  { s with calls := s.calls.modifyHead fun c => { c with place := p } }

/-- `child_pid = child`, and the innermost call returns. -/
def setChild (s : State) (child : Option ℕ) : State :=
  { s with childPid := child, calls := s.calls.tail }

/-- `kill(child_pid, SIGKILL)` -/
def killChild (s : State) : State :=
  match s.childPid with
  | some p => { s with killed := insert p s.killed }
  | none => { s with killed := s.forked, killedAll := true }

/-- `main` calls `tstp_handler`, when no handler runs. -/
def call (s : State) : Option State :=
  if s.called || !s.calls.isEmpty then none
  else some { s with calls := [⟨.test, false⟩], called := true }

/-- A step of `tstp_handler`. -/
def step (s : State) : Place → Option State
  | .test => some (s.goto (if s.childPid.isSome then .kill else .fork))
  | .kill => some (s.killChild.goto .clear)
  | .clear => some (s.setChild none)
  | .fork => none
  | .assign child => some (s.setChild child)

/-- `fork` gives the child a PID that no other child has, or it fails. -/
def fork (s : State) : Option ℕ → Option State
  | none => some (s.goto (.assign none))
  | some p =>
    if p ∈ s.forked then none
    else some ({ s with forked := insert p s.forked }.goto (.assign (some p)))

/-- A handler blocks its signal, unless `SA_NODEFER` is set. -/
def blocked (flags : Flags) (s : State) : Bool := !flags.nodefer && s.calls.any Call.handler

/-- `SIGTSTP` is delivered. Without a handler it stops the program. -/
def tstp (flags : Flags) (s : State) : Option State :=
  if s.handled then
    if s.blocked flags then none
    else some { s with calls := ⟨.test, true⟩ :: s.calls, handled := !flags.resethand }
  else some { s with life := .stopped }

def next (flags : Flags) (s : State) (l : Label) : Option State :=
  match s.life, l with
  | .runs, .call => s.call
  | .runs, .step => s.calls.head?.bind fun c => s.step c.place
  | .runs, .fork child =>
    if s.calls.head?.any (fun c => c.place = .fork) then s.fork child else none
  | .runs, .tstp => s.tstp flags
  -- `int_handler`, or before `signal` the default
  | .runs, .int => some { s with life := .exited }
  | .stopped, .cont => some { s with life := .runs }
  | _, _ => none

/-- The clocks that have not been stopped. -/
def clocks (s : State) : Finset ℕ := s.forked \ s.killed

end State

def machine (flags : Flags) : Machine State Label where
  init s := s = .start
  next := State.next flags

/-! ## What a step does -/

/-- A step of the program; `c` is the innermost call. -/
inductive Moves (flags : Flags) (s : State) : Label → State → Prop
  | life (l : Label) (life : Life) : Moves flags s l { s with life := life }
  | main : s.calls = [] → s.called = false → Moves flags s .call
      { s with calls := [⟨.test, false⟩], called := true }
  | handler : s.handled = true → s.blocked flags = false → Moves flags s .tstp
      { s with calls := ⟨.test, true⟩ :: s.calls, handled := !flags.resethand }
  | found {c : Call} {rest : List Call} : s.calls = c :: rest → c.place = .test →
      s.childPid.isSome → Moves flags s .step { s with calls := ⟨.kill, c.handler⟩ :: rest }
  | missing {c : Call} {rest : List Call} : s.calls = c :: rest → c.place = .test →
      s.childPid = none → Moves flags s .step { s with calls := ⟨.fork, c.handler⟩ :: rest }
  | kills {c : Call} {rest : List Call} {p : ℕ} : s.calls = c :: rest → c.place = .kill →
      s.childPid = some p → Moves flags s .step
        { s with calls := ⟨.clear, c.handler⟩ :: rest, killed := insert p s.killed }
  | killsAll {c : Call} {rest : List Call} : s.calls = c :: rest → c.place = .kill →
      s.childPid = none → Moves flags s .step
        { s with
          calls := ⟨.clear, c.handler⟩ :: rest
          killed := s.forked
          killedAll := true }
  | clears {c : Call} {rest : List Call} : s.calls = c :: rest → c.place = .clear →
      Moves flags s .step { s with calls := rest, childPid := none }
  | forks {c : Call} {rest : List Call} {p : ℕ} : s.calls = c :: rest → c.place = .fork →
      p ∉ s.forked → Moves flags s (.fork (some p))
        { s with calls := ⟨.assign (some p), c.handler⟩ :: rest, forked := insert p s.forked }
  | forkFails {c : Call} {rest : List Call} : s.calls = c :: rest → c.place = .fork →
      Moves flags s (.fork none) { s with calls := ⟨.assign none, c.handler⟩ :: rest }
  | assigns {c : Call} {rest : List Call} {child : Option ℕ} : s.calls = c :: rest →
      c.place = .assign child → Moves flags s .step
        { s with calls := rest, childPid := child }

theorem goto_eq {s : State} {c : Call} {rest : List Call} (hc : s.calls = c :: rest) (p : Place) :
    s.goto p = { s with calls := ⟨p, c.handler⟩ :: rest } := by
  unfold State.goto
  rw [hc]
  rfl

theorem step_moves {flags : Flags} {s s' : State} {c : Call} {rest : List Call}
    (hc : s.calls = c :: rest) (h : s.step c.place = some s') : Moves flags s .step s' := by
  cases hp : c.place with
  | test =>
    rw [hp] at h
    cases h
    rw [goto_eq hc]
    by_cases hchild : s.childPid.isSome
    · rw [if_pos hchild]
      exact .found hc hp hchild
    · rw [if_neg hchild]
      exact .missing hc hp (by simpa using hchild)
  | kill =>
    rw [hp] at h
    cases h
    unfold State.killChild
    split
    · rename_i p hchild
      rw [goto_eq (show State.calls { s with killed := insert p s.killed } = _ from hc)]
      exact .kills hc hp hchild
    · rename_i hchild
      rw [goto_eq (show State.calls { s with killed := s.forked, killedAll := true } = _ from hc)]
      exact .killsAll hc hp hchild
  | clear =>
    rw [hp] at h
    cases h
    unfold State.setChild
    rw [hc]
    exact .clears hc hp
  | fork =>
    rw [hp] at h
    cases h
  | assign child =>
    rw [hp] at h
    cases h
    unfold State.setChild
    rw [hc]
    exact .assigns hc hp

theorem fork_moves {flags : Flags} {s s' : State} {c : Call} {rest : List Call} {child : Option ℕ}
    (hc : s.calls = c :: rest) (hp : c.place = .fork) (h : s.fork child = some s') :
    Moves flags s (.fork child) s' := by
  cases child with
  | none =>
    cases h
    rw [goto_eq hc]
    exact .forkFails hc hp
  | some p =>
    simp only [State.fork] at h
    split at h
    · cases h
    · rename_i hnew
      cases h
      rw [goto_eq (show State.calls { s with forked := insert p s.forked } = _ from hc)]
      exact .forks hc hp hnew

theorem next_moves {flags : Flags} {s s' : State} {l : Label}
    (h : (machine flags).next s l = some s') : Moves flags s l s' := by
  replace h : s.next flags l = some s' := h
  unfold State.next at h
  split at h
  · unfold State.call at h
    split at h
    · cases h
    · rename_i hcall
      simp only [Bool.or_eq_true, Bool.not_eq_true', not_or, Bool.not_eq_true,
        Bool.not_eq_false, List.isEmpty_iff] at hcall
      cases h
      exact .main hcall.2 hcall.1
  · obtain ⟨c, hc, h⟩ := Option.bind_eq_some_iff.mp h
    obtain ⟨rest, hc⟩ := List.head?_eq_some_iff.mp hc
    exact step_moves hc h
  · split at h
    · rename_i hfork
      obtain ⟨c, hc, hp⟩ := (Option.any_eq_true _ _).mp hfork
      obtain ⟨rest, hc⟩ := List.head?_eq_some_iff.mp hc
      exact fork_moves hc (by simpa using hp) h
    · cases h
  · unfold State.tstp at h
    split at h
    · rename_i hh
      split at h
      · cases h
      · rename_i hb
        cases h
        exact .handler hh (by simpa using hb)
    · cases h
      exact .life _ _
  · cases h
    exact .life _ _
  · cases h
    exact .life _ _
  · cases h

/-! ## Calls that are not interrupted -/

/-- `SIGTSTP` does not arrive during a call of `tstp_handler`. -/
def Undisturbed (s : State) (l : Label) : Prop := l = .tstp → s.calls = []

instance (s : State) (l : Label) : Decidable (Undisturbed s l) :=
  inferInstanceAs (Decidable (l = .tstp → s.calls = []))

/-- The clocks that should run, when the only call is where it is. -/
def State.expected (s : State) : Finset ℕ :=
  match s.calls.head?.map Call.place with
  | some .clear | some .fork => ∅
  | some (.assign child) => child.toFinset
  | _ => s.childPid.toFinset

structure State.Alone (s : State) : Prop where
  few : s.calls.length ≤ 1
  killed : s.killed ⊆ s.forked
  clocks : s.clocks = s.expected
  found : ∀ c ∈ s.calls.head?, c.place = .kill → s.childPid.isSome = true
  all : s.killedAll = false

theorem clocks_kill {s : State} {p : ℕ} :
    State.clocks { s with killed := insert p s.killed } = s.clocks.erase p := by
  unfold State.clocks
  ext q
  simp only [Finset.mem_sdiff, Finset.mem_insert, Finset.mem_erase]
  tauto

theorem clocks_fork {s : State} {p : ℕ} (hp : p ∉ s.killed) :
    State.clocks { s with forked := insert p s.forked } = insert p s.clocks :=
  Finset.insert_sdiff_of_notMem s.forked hp

theorem State.Alone.step {flags : Flags} {s s' : State} {l : Label} (h : s.Alone)
    (hl : Undisturbed s l) (hn : (machine flags).next s l = some s') : s'.Alone := by
  have hclocks := h.clocks
  unfold State.expected at hclocks
  have hrest : ∀ {c rest}, s.calls = c :: rest → rest = [] := by
    intro c rest hc
    have hfew := h.few
    rw [hc, List.length_cons] at hfew
    exact List.length_eq_zero_iff.mp (by omega)
  cases next_moves hn with
  | life l life => exact ⟨h.few, h.killed, h.clocks, h.found, h.all⟩
  | main hc _ =>
    rw [hc] at hclocks
    exact ⟨Nat.le_refl 1, h.killed, hclocks, by simp, h.all⟩
  | handler hh hb =>
    have hc := hl rfl
    rw [hc] at hclocks
    refine ⟨?_, h.killed, hclocks, by simp, h.all⟩
    rw [hc]
    exact Nat.le_refl 1
  | found hc hp hchild =>
    obtain rfl := hrest hc
    rw [hc, List.head?_cons, Option.map_some, hp] at hclocks
    exact ⟨Nat.le_refl 1, h.killed, hclocks, fun _ _ _ => hchild, h.all⟩
  | missing hc hp hchild =>
    obtain rfl := hrest hc
    rw [hc, List.head?_cons, Option.map_some, hp] at hclocks
    refine ⟨Nat.le_refl 1, h.killed, ?_, by simp, h.all⟩
    show s.clocks = ∅
    rw [hclocks, hchild]
    rfl
  | @kills c rest p hc hp hchild =>
    obtain rfl := hrest hc
    rw [hc, List.head?_cons, Option.map_some, hp, hchild] at hclocks
    have hpid : p ∈ s.clocks := by
      rw [hclocks]
      exact Finset.mem_singleton_self p
    refine ⟨Nat.le_refl 1, Finset.insert_subset (Finset.mem_sdiff.mp hpid).1 h.killed, ?_, by simp,
      h.all⟩
    show State.clocks { s with killed := insert p s.killed } = ∅
    rw [clocks_kill, hclocks]
    exact Finset.erase_singleton p
  | killsAll hc hp hchild =>
    have hsome := h.found _ (by rw [hc]; rfl) hp
    rw [hchild] at hsome
    cases hsome
  | clears hc hp =>
    obtain rfl := hrest hc
    rw [hc, List.head?_cons, Option.map_some, hp] at hclocks
    exact ⟨Nat.zero_le 1, h.killed, hclocks, by simp, h.all⟩
  | @forks c rest p hc hp hnew =>
    obtain rfl := hrest hc
    rw [hc, List.head?_cons, Option.map_some, hp] at hclocks
    refine ⟨Nat.le_refl 1, h.killed.trans (Finset.subset_insert p _), ?_, by simp, h.all⟩
    show State.clocks { s with forked := insert p s.forked } = {p}
    rw [clocks_fork fun hk => hnew (h.killed hk), hclocks]
    rfl
  | forkFails hc hp =>
    obtain rfl := hrest hc
    rw [hc, List.head?_cons, Option.map_some, hp] at hclocks
    exact ⟨Nat.le_refl 1, h.killed, hclocks, by simp, h.all⟩
  | assigns hc hp =>
    obtain rfl := hrest hc
    rw [hc, List.head?_cons, Option.map_some, hp] at hclocks
    exact ⟨Nat.zero_le 1, h.killed, hclocks, by simp, h.all⟩

theorem reachIf_alone {flags : Flags} {s : State} (h : (machine flags).ReachIf Undisturbed s) :
    s.Alone :=
  h.invariant (fun _ hs => hs ▸ ⟨Nat.zero_le 1, Finset.Subset.refl _, rfl, nofun, rfl⟩)
    fun _ _ _ hs hl hn => hs.step hl hn

/-! ## A handler that interrupts the call of `main` -/

/-- What holds where the call is, if nothing interrupts it. -/
def State.Knows (s : State) : Place → Prop
  | .test => True
  | .kill => s.childPid.isSome = true
  | .clear => ∀ p ∈ s.childPid, p ∈ s.killed
  | .fork | .assign _ => s.childPid = none

/-- The handler does not interrupt itself. The clock `orphan` is one that the call of
    `main` has forgotten. -/
structure State.Apart (s : State) (orphan : Option ℕ) : Prop where
  calls : s.calls.map Call.handler ∈ [[], [false], [true], [true, false]]
  called : (∃ c ∈ s.calls, c.handler = false) → s.called = true
  knows : ∀ c ∈ s.calls.head?, c.handler = true → s.Knows c.place
  remembered : s.called = false ∨ (∃ c ∈ s.calls, c.handler = false) → orphan = none
  clocks : ∀ p ∈ s.clocks, orphan = some p ∨ s.childPid = some p ∨
    ∃ c ∈ s.calls, c.place = .assign (some p)

theorem State.Apart.main_last {s : State} {orphan : Option ℕ} {c : Call} {rest : List Call}
    (h : s.Apart orphan) (hc : s.calls = c :: rest) (hm : c.handler = false) : rest = [] := by
  have hshape := h.calls
  rw [hc, List.map_cons, hm] at hshape
  simpa using hshape

/-- The calls when the innermost one has returned. -/
theorem State.Apart.returned {s : State} {orphan : Option ℕ} {c : Call} {rest : List Call}
    (h : s.Apart orphan) (hc : s.calls = c :: rest) :
    rest.map Call.handler ∈ [[], [false], [true], [true, false]] ∧
      ∀ c' ∈ rest.head?, c'.handler = false := by
  have hshape := h.calls
  rw [hc, List.map_cons] at hshape
  cases rest with
  | nil => simp
  | cons c' rest =>
    cases c.handler <;> simp_all

/-- What is assigned by other calls than the innermost. -/
theorem State.Apart.clock_cases {s : State} {orphan : Option ℕ} {c : Call} {rest : List Call}
    (h : s.Apart orphan) (hc : s.calls = c :: rest) {p : ℕ} (hp : p ∈ s.clocks) :
    orphan = some p ∨ s.childPid = some p ∨ c.place = .assign (some p) ∨
      ∃ c' ∈ rest, c'.place = .assign (some p) := by
  have hclock := h.clocks p hp
  rw [hc] at hclock
  simpa only [List.exists_mem_cons_iff] using hclock

/-- The innermost call goes on at `q`. -/
theorem State.Apart.goes {s s' : State} {orphan : Option ℕ} {c : Call} {rest : List Call}
    {q : Place} (h : s.Apart orphan) (hc : s.calls = c :: rest)
    (hcalls : s'.calls = ⟨q, c.handler⟩ :: rest) (hcalled : s'.called = s.called)
    (hchild : s'.childPid = s.childPid)
    (hknows : c.handler = true → s'.Knows q)
    (hclocks : ∀ p ∈ s'.clocks,
      p ∈ s.clocks ∧ c.place ≠ .assign (some p) ∨ q = .assign (some p)) :
    s'.Apart orphan := by
  -- the call of `main` is among the calls as before
  have hmain : (∃ c ∈ s'.calls, c.handler = false) → ∃ c ∈ s.calls, c.handler = false := by
    rw [hcalls, hc]
    rintro ⟨c', hc', hm⟩
    rcases List.mem_cons.mp hc' with rfl | hc'
    · exact ⟨c, List.mem_cons_self, hm⟩
    · exact ⟨c', List.mem_cons_of_mem _ hc', hm⟩
  refine ⟨?_, fun hm => hcalled.trans (h.called (hmain hm)), ?_, ?_, ?_⟩
  · have hshape := h.calls
    rw [hc] at hshape
    rw [hcalls]
    exact hshape
  · rw [hcalls]
    rintro c' hc' hh
    cases hc'
    exact hknows hh
  · rw [hcalled]
    rintro (hnot | hm)
    · exact h.remembered (.inl hnot)
    · exact h.remembered (.inr (hmain hm))
  · intro p hp
    rw [hchild, hcalls]
    rcases hclocks p hp with ⟨hp, hne⟩ | rfl
    · rcases h.clock_cases hc hp with ho | hold | ha | ⟨c', hc', ha⟩
      · exact .inl ho
      · exact .inr (.inl hold)
      · exact absurd ha hne
      · exact .inr (.inr ⟨c', List.mem_cons_of_mem _ hc', ha⟩)
    · exact .inr (.inr ⟨_, List.mem_cons_self, rfl⟩)

/-- The innermost call returns. If it is the one of `main`, the clock that `child_pid`
    had is forgotten. -/
theorem State.Apart.returns {s : State} {orphan : Option ℕ} {c : Call} {rest : List Call}
    {child : Option ℕ} (h : s.Apart orphan) (hc : s.calls = c :: rest)
    (hassign : ∀ p, c.place = .assign (some p) → child = some p)
    (hhandler : c.handler = true → ∀ p ∈ s.clocks, s.childPid ≠ some p) :
    ∃ orphan', State.Apart { s with calls := rest, childPid := child } orphan' := by
  obtain ⟨hshape, hhead⟩ := h.returned hc
  have hknows : ∀ c' ∈ rest.head?, c'.handler = true →
      State.Knows { s with calls := rest, childPid := child } c'.place := by
    intro c' hc' hh
    rw [hhead c' hc'] at hh
    cases hh
  have hmain : (∃ c' ∈ rest, c'.handler = false) → ∃ c' ∈ s.calls, c'.handler = false := by
    rintro ⟨c', hc', hm⟩
    rw [hc]
    exact ⟨c', List.mem_cons_of_mem _ hc', hm⟩
  cases hm : c.handler with
  | true =>
    refine ⟨orphan, hshape, fun hm' => h.called (hmain hm'), hknows, ?_, ?_⟩
    · rintro (hnot | hm')
      · exact h.remembered (.inl hnot)
      · exact h.remembered (.inr (hmain hm'))
    · intro p hp
      rcases h.clock_cases hc hp with ho | hold | ha | hrest
      · exact .inl ho
      · exact absurd hold (hhandler hm p hp)
      · exact .inr (.inl (hassign p ha))
      · exact .inr (.inr hrest)
  | false =>
    obtain rfl := h.main_last hc hm
    have hcall : ∃ c ∈ s.calls, c.handler = false := ⟨c, by rw [hc]; exact List.mem_cons_self, hm⟩
    have hnone : orphan = none := h.remembered (.inr hcall)
    refine ⟨s.childPid, hshape, fun _ => h.called hcall, hknows, ?_, ?_⟩
    · rintro (hnot | ⟨c', hc', -⟩)
      · cases hnot.symm.trans (h.called hcall)
      · cases hc'
    · intro p hp
      rcases h.clock_cases hc hp with ho | hold | ha | ⟨c', hc', -⟩
      · rw [hnone] at ho
        cases ho
      · exact .inl hold
      · exact .inr (.inl (hassign p ha))
      · cases hc'

theorem State.Apart.step {flags : Flags} (hf : flags.nodefer = false) {s s' : State} {l : Label}
    {orphan : Option ℕ} (h : s.Apart orphan) (hn : (machine flags).next s l = some s') :
    ∃ orphan', s'.Apart orphan' := by
  cases next_moves hn with
  | life l life => exact ⟨orphan, h.calls, h.called, h.knows, h.remembered, h.clocks⟩
  | main hc hnot =>
    refine ⟨orphan, by simp, fun _ => rfl, ?_, fun _ => h.remembered (.inl hnot),
      fun p hp => ?_⟩
    · intro c hmem hh
      cases hmem
      cases hh
    · rcases h.clocks p hp with ho | hold | ⟨c, hmem, -⟩
      · exact .inl ho
      · exact .inr (.inl hold)
      · rw [hc] at hmem
        cases hmem
  | handler hh hb =>
    have hnone : s.calls.any Call.handler = false := by
      simpa [State.blocked, hf] using hb
    have hmain : (∃ c ∈ (⟨.test, true⟩ : Call) :: s.calls, c.handler = false) →
        ∃ c ∈ s.calls, c.handler = false := by
      rintro ⟨c, hc, hm⟩
      rcases List.mem_cons.mp hc with rfl | hc
      · cases hm
      · exact ⟨c, hc, hm⟩
    refine ⟨orphan, ?_, fun hm => h.called (hmain hm), fun c hc _ => ?_, ?_, ?_⟩
    · have hshape := h.calls
      have hmem : true ∉ s.calls.map Call.handler := by
        simpa [List.any_eq_false] using hnone
      show true :: s.calls.map Call.handler ∈ _
      simp only [List.mem_cons, List.not_mem_nil, or_false] at hshape
      rcases hshape with hs | hs | hs | hs <;> rw [hs] at hmem ⊢ <;> simp at hmem ⊢
    · cases hc
      trivial
    · rintro (hnot | hm)
      · exact h.remembered (.inl hnot)
      · exact h.remembered (.inr (hmain hm))
    · intro p hp
      rcases h.clocks p hp with ho | hc | ⟨c, hc, ha⟩
      · exact .inl ho
      · exact .inr (.inl hc)
      · exact .inr (.inr ⟨c, List.mem_cons_of_mem _ hc, ha⟩)
  | found hc hp hchild =>
    exact ⟨orphan, h.goes hc rfl rfl rfl (fun _ => hchild) fun p hclock =>
      .inl ⟨hclock, by simp [hp]⟩⟩
  | missing hc hp hchild =>
    exact ⟨orphan, h.goes hc rfl rfl rfl (fun _ => hchild) fun p hclock =>
      .inl ⟨hclock, by simp [hp]⟩⟩
  | kills hc hp hchild =>
    refine ⟨orphan, h.goes hc rfl rfl rfl ?_ fun q hq => .inl ⟨?_, by simp [hp]⟩⟩
    · intro _ q hq
      rw [hchild] at hq
      cases hq
      exact Finset.mem_insert_self ..
    · obtain ⟨hforked, hkilled⟩ := Finset.mem_sdiff.mp hq
      exact Finset.mem_sdiff.mpr ⟨hforked, fun hk => hkilled (Finset.mem_insert_of_mem hk)⟩
  | killsAll hc hp hchild =>
    refine ⟨orphan, h.goes hc rfl rfl rfl ?_ fun p hclock => ?_⟩
    · intro _ p hmem
      rw [hchild] at hmem
      cases hmem
    · obtain ⟨hforked, hkilled⟩ := Finset.mem_sdiff.mp hclock
      exact absurd hforked hkilled
  | clears hc hp =>
    refine h.returns hc (fun p ha => ?_) fun hm p hclock hold => ?_
    · rw [hp] at ha
      cases ha
    · have hknows := h.knows _ (by rw [hc]; rfl) hm
      rw [hp] at hknows
      exact (Finset.mem_sdiff.mp hclock).2 (hknows p hold)
  | forks hc hp hnew =>
    refine ⟨orphan, h.goes hc rfl rfl rfl (fun hm => ?_) fun q hq => ?_⟩
    · have hknows := h.knows _ (by rw [hc]; rfl) hm
      rw [hp] at hknows
      exact hknows
    · obtain ⟨hforked, hkilled⟩ := Finset.mem_sdiff.mp hq
      rcases Finset.mem_insert.mp hforked with rfl | hforked
      · exact .inr rfl
      · exact .inl ⟨Finset.mem_sdiff.mpr ⟨hforked, hkilled⟩, by simp [hp]⟩
  | forkFails hc hp =>
    refine ⟨orphan, h.goes hc rfl rfl rfl (fun hm => ?_) fun p hclock =>
      .inl ⟨hclock, by simp [hp]⟩⟩
    have hknows := h.knows _ (by rw [hc]; rfl) hm
    rw [hp] at hknows
    exact hknows
  | assigns hc hp =>
    refine h.returns hc (fun p ha => ?_) fun hm p hclock hold => ?_
    · rw [hp] at ha
      cases ha
      rfl
    · have hknows : s.Knows _ := h.knows _ (by rw [hc]; rfl) hm
      rw [hp] at hknows
      rw [hknows] at hold
      cases hold

theorem reach_apart {flags : Flags} (hf : flags.nodefer = false) {s : State}
    (h : (machine flags).Reach s) : ∃ orphan, s.Apart orphan := by
  refine Machine.ReachIf.invariant (I := fun s => ∃ orphan, s.Apart orphan) h ?_
    fun _ _ _ ⟨_, hs⟩ _ hn => hs.step hf hn
  rintro _ rfl
  exact ⟨none, by simp [State.start], nofun, nofun, fun _ => rfl,
    by simp [State.clocks, State.start]⟩

/-- The handler interrupts the call of `main` before it forks. -/
def forgotten : List Label :=
  [.call, .step, .tstp, .step, .fork (some 1), .step, .fork (some 2), .step]

/-- The handler interrupts the call of `main` twice, before it looks for the clock and
    before it stops it. -/
def everything : List Label :=
  [.call, .tstp, .step, .fork (some 1), .step, .step, .tstp, .step, .step, .step, .step]

theorem forgotten_runs (flags : Flags) :
    ∃ s, (machine flags).Reach s ∧ (s.calls, s.clocks) = ([], {1, 2}) := by
  refine Machine.Reach.of_run (s := State.start) forgotten
    (fun s : State => (s.calls, s.clocks)) _ rfl ?_
  obtain ⟨nodefer, resethand⟩ := flags
  cases nodefer <;> cases resethand <;> decide

theorem everything_runs {flags : Flags} (hf : flags.resethand = false) :
    ∃ s, (machine flags).Reach s ∧ s.killedAll = true := by
  refine Machine.Reach.of_run (s := State.start) everything State.killedAll _ rfl ?_
  obtain ⟨nodefer, resethand⟩ := flags
  obtain rfl : resethand = false := hf
  cases nodefer <;> decide

/-- As long as no call of `tstp_handler` is interrupted, the clock that runs is the one
    that its place asks for, and nothing else is killed. If only the call of `main` is,
    there can be two clocks between the calls, but no third one, and `kill` can reach
    every process. -/
theorem clocks_running (flags : Flags) :
    (∀ s, (machine flags).ReachIf Undisturbed s →
      s.clocks = s.expected ∧ s.killedAll = false) ∧
    (flags.nodefer = false →
      (∀ s, (machine flags).Reach s → s.calls = [] → s.clocks.card ≤ 2) ∧
      (∃ s, (machine flags).Reach s ∧ s.calls = [] ∧ s.clocks.card = 2) ∧
      (flags.resethand = false → ∃ s, (machine flags).Reach s ∧ s.killedAll = true)) := by
  refine ⟨fun s hs => ⟨(reachIf_alone hs).clocks, (reachIf_alone hs).all⟩, fun hf => ⟨?_, ?_,
    everything_runs⟩⟩
  · intro s hs hcalls
    obtain ⟨orphan, h⟩ := reach_apart hf hs
    have hsub : s.clocks ⊆ orphan.toFinset ∪ s.childPid.toFinset := by
      intro p hp
      rcases h.clocks p hp with ho | hc | ⟨c, hc, -⟩
      · exact Finset.mem_union_left _ (Option.mem_toFinset.mpr ho)
      · exact Finset.mem_union_right _ (Option.mem_toFinset.mpr hc)
      · rw [hcalls] at hc
        cases hc
    have hone : ∀ o : Option ℕ, o.toFinset.card ≤ 1 := by
      intro o
      cases o <;> simp
    calc s.clocks.card ≤ (orphan.toFinset ∪ s.childPid.toFinset).card := Finset.card_le_card hsub
      _ ≤ orphan.toFinset.card + s.childPid.toFinset.card := Finset.card_union_le ..
      _ ≤ 2 := Nat.add_le_add (hone orphan) (hone s.childPid)
  · obtain ⟨s, hs, heq⟩ := forgotten_runs flags
    obtain ⟨hcalls, hclocks⟩ := Prod.mk.inj heq
    exact ⟨s, hs, hcalls, by rw [hclocks]; decide⟩

/-- The clock has been started before the call of `main`, which stops it, and once more. -/
theorem clocks_running_one :
    ∃ s, (machine ⟨false, false⟩).ReachIf Undisturbed s ∧ s.clocks = {2} ∧ s.killedAll = false := by
  obtain ⟨s, hs, hexpected⟩ := Machine.ReachIf.of_runIf (M := machine ⟨false, false⟩)
    (C := Undisturbed) (s := .start) [.tstp, .step, .fork (some 1), .step, .call, .step, .step,
      .step, .tstp, .step, .fork (some 2), .step] State.expected {2} rfl (by decide)
  obtain ⟨hclocks, hall⟩ := (clocks_running ⟨false, false⟩).1 s hs
  exact ⟨s, hs, hclocks.trans hexpected, hall⟩

end AghOs.Clock
