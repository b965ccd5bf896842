import AghOs.Challoc.Table
import AghOs.Machine.Reach

/-!
# The life of a block

The dynamic operations of `src/cw01/zad2/src/main.c` (lines 88–152 and 168–177) on
the global `table`. Their arguments are numbers that `atoi` returns, converted to
`size_t`; a turn of one of their loops is a step, and every `calloc` may fail.

`search_element` does not change the table, and the watch is left out.

* `Driver.Ok`: the invariant.
* `block_life_cycle`: no run frees or accesses what is not there, and every block
  has exactly one entry in the table.
-/

namespace AghOs.Challoc

/-- The `int` that `atoi` returns, as a `size_t`. -/
def atoiSize (arg : ℤ) : ℕ := toSize (toInt arg)

/-- What the loop of an operation does. -/
inductive Op
  | createTable (blkCount blkSize : ℕ)
  | add
  | remove
  | removeAndAdd

/-- A loop `for (int i = 0; i < times; ++i)`. -/
structure Loop where
  op : Op
  times : ℕ
  i : ℤ

/-- The heap, `table`, and the operation that is being executed. -/
structure Driver where
  heap : Heap Obj
  table : BlkTable
  loop : Option Loop

/-- An operation with its arguments on the command line. -/
inductive Command
  | createTable (blkCount blkSize times : ℤ)
  | add (times : ℤ)
  | remove (times : ℤ)
  | removeAndAdd (times : ℤ)

inductive Label
  | command (c : Command)
  | turn (A : Allocator Obj)

namespace Driver

/-- `table = { 0, 0, NULL }` -/
def initial : Driver := ⟨fun _ => none, ⟨0, 0, none⟩, none⟩

/-- `check_times` and the start of the loop. -/
def checked (d : Driver) (op : Op) (times : ℕ) : Driver :=
  if d.table.blkCount < times then d else { d with loop := some ⟨op, times, 0⟩ }

/-- An operation is called. -/
def call (d : Driver) : Command → Driver
  | .createTable blkCount blkSize times =>
    { d with loop := some ⟨.createTable (atoiSize blkCount) (atoiSize blkSize), atoiSize times, 0⟩ }
  | .add times => d.checked .add (atoiSize times)
  | .remove times => d.checked .remove (atoiSize times)
  | .removeAndAdd times => d.checked .removeAndAdd (atoiSize times)

/-- The body of a loop: the heap and the table after it. -/
def body (A : Allocator Obj) (h : Heap Obj) (table : BlkTable) (i : ℕ) :
    Op → Option (Heap Obj × BlkTable)
  | .createTable blkCount blkSize =>
    (chfree h table).map fun h => challoc A h blkCount blkSize
  | .add => (challocBlk A h table i).map fun r => (r.1, table)
  | .remove => (chfreeBlk h table i).map fun h => (h, table)
  | .removeAndAdd =>
    (challocBlk A h table i).bind fun r => (chfreeBlk r.1 table i).map fun h => (h, table)

/-- A turn of a loop; `none` is undefined behaviour. -/
def turn (A : Allocator Obj) (d : Driver) (l : Loop) : Option Driver :=
  if toSize l.i < l.times then
    (body A d.heap d.table (toSize l.i) l.op).map fun r =>
      ⟨r.1, r.2, some { l with i := toInt (l.i + 1) }⟩
  else some { d with loop := none }

end Driver

/-- The driver; it does not go on after undefined behaviour. -/
def driver : Machine (Option Driver) Label where
  init s := s = some Driver.initial
  next s l :=
    s.bind fun d =>
      match d.loop, l with
      | none, .command c => some (some (d.call c))
      | some loop, .turn A => some (d.turn A loop)
      | _, _ => none

/-! ## The invariant -/

/-- A number of blocks that was a non-negative `int`, or does not fit an array. -/
def CountOk (n : ℕ) : Prop := n * 8 < 2 ^ 64 → n < 2 ^ 31

theorem countOk_atoiSize (arg : ℤ) : CountOk (atoiSize arg) := by
  intro h
  unfold atoiSize toSize at *
  have h1 : -2 ^ 31 ≤ toInt arg := Int.le_bmod (by decide)
  have h2 : toInt arg < 2 ^ 31 := Int.bmod_lt (by decide)
  omega

/-- A loop over entries stays inside the table. -/
structure Loop.Inside (l : Loop) (table : BlkTable) : Prop where
  times : l.times ≤ table.blkCount
  counter : ∃ i : ℕ, l.i = i ∧ i ≤ l.times

def Loop.Ok (l : Loop) (table : BlkTable) : Prop :=
  match l.op with
  | .createTable blkCount _ => CountOk blkCount
  | _ => l.Inside table

/-- The invariant. -/
structure Driver.Ok (d : Driver) : Prop where
  kept : ∃ es, Kept d.heap d.table es
  count : d.table.blkCount < 2 ^ 31
  loop : ∀ l, d.loop = some l → l.Ok d.table

section

variable {d : Driver} {l : Loop}

theorem Driver.Ok.checked (h : d.Ok) {op : Op} (hop : ∀ m n, op ≠ .createTable m n) (times : ℕ) :
    (d.checked op times).Ok := by
  unfold Driver.checked
  split
  · exact h
  · refine ⟨h.kept, h.count, fun l hl => ?_⟩
    obtain rfl := Option.some.inj hl
    cases op with
    | createTable m n => exact absurd rfl (hop m n)
    | _ => exact ⟨Nat.le_of_not_lt ‹_›, 0, rfl, Nat.zero_le _⟩

theorem Driver.Ok.call (h : d.Ok) (c : Command) : (d.call c).Ok := by
  cases c with
  | createTable blkCount blkSize times =>
    refine ⟨h.kept, h.count, fun l hl => ?_⟩
    obtain rfl := Option.some.inj hl
    exact countOk_atoiSize blkCount
  | _ => exact h.checked (fun m n hop => by cases hop) _

/-- The body of a loop that creates tables. -/
theorem body_createTable {es : List (Option ℕ)} (A : Allocator Obj)
    (hk : Kept d.heap d.table es) (i m n : ℕ) :
    ∃ r, Driver.body A d.heap d.table i (.createTable m n) = some r ∧ (∃ es', Kept r.1 r.2 es') ∧
      (r.2.blkCount = 0 ∨ r.2.blkCount = m ∧ m * 8 < 2 ^ 64) := by
  obtain ⟨h', hrun, hnone⟩ := chfree_kept hk
  obtain ⟨hkept, hcount⟩ := challoc_kept A hnone m n
  exact ⟨_, congrArg (Option.map fun h => challoc A h m n) hrun, hkept, hcount⟩

/-- The body of a loop over entries. -/
theorem body_entry {es : List (Option ℕ)} (A : Allocator Obj) (hk : Kept d.heap d.table es)
    {op : Op} (hop : ∀ m n, op ≠ .createTable m n) {i : ℕ} (hi : i < d.table.blkCount) :
    ∃ r, Driver.body A d.heap d.table i op = some r ∧ r.2 = d.table ∧
      ∃ es', Kept r.1 d.table es' := by
  cases op with
  | createTable m n => exact absurd rfl (hop m n)
  | add =>
    obtain ⟨h', ret, es', hrun, hk'⟩ := challocBlk_kept A hk fun _ => hi
    have hbody := congrArg (Option.map fun r : Heap Obj × ℤ => (r.1, d.table)) hrun
    exact ⟨(h', d.table), hbody, rfl, es', hk'⟩
  | remove =>
    obtain ⟨h', hrun, hk'⟩ := chfreeBlk_kept hk fun _ => hi
    exact ⟨_, congrArg (Option.map fun h => (h, d.table)) hrun, rfl, _, hk'⟩
  | removeAndAdd =>
    obtain ⟨h₁, ret, es₁, hrun₁, hk₁⟩ := challocBlk_kept A hk fun _ => hi
    obtain ⟨h₂, hrun₂, hk₂⟩ := chfreeBlk_kept hk₁ fun _ => hi
    refine ⟨(h₂, d.table), ?_, rfl, _, hk₂⟩
    show (challocBlk A d.heap d.table i).bind _ = _
    rw [hrun₁, Option.bind_some, hrun₂]
    rfl

/-- A turn of a loop over entries. -/
theorem Driver.Ok.turn_entry (h : d.Ok) (A : Allocator Obj)
    (hop : ∀ m n, l.op ≠ .createTable m n) (hin : l.Inside d.table)
    (hi : toSize l.i < l.times) :
    ∃ d', d.turn A l = some d' ∧ d'.Ok := by
  obtain ⟨es, hk⟩ := h.kept
  obtain ⟨htimes, i, hli, hle⟩ := hin
  have hcount := h.count
  have hsize : toSize l.i = i := by
    rw [hli]
    exact toSize_natCast (by omega)
  have hlt : i < l.times := by rwa [hsize] at hi
  have hnext : toInt (l.i + 1) = (i + 1 : ℕ) := by
    rw [hli]
    have hlt' : i + 1 < 2 ^ 31 := by omega
    exact_mod_cast toInt_natCast hlt'
  obtain ⟨r, hr, htable, hk'⟩ := body_entry A hk hop (Nat.lt_of_lt_of_le hlt htimes)
  refine ⟨⟨r.1, r.2, some { l with i := toInt (l.i + 1) }⟩, ?_, ?_, ?_, fun l' hl' => ?_⟩
  · unfold Driver.turn
    rw [if_pos hi, hsize, hr]
    rfl
  · exact htable.symm ▸ hk'
  · exact htable.symm ▸ hcount
  · obtain rfl := Option.some.inj hl'
    have hin' : Loop.Inside { l with i := toInt (l.i + 1) } r.2 :=
      ⟨htable.symm ▸ htimes, i + 1, hnext, hlt⟩
    unfold Loop.Ok
    split
    · exact absurd ‹_› (hop _ _)
    · exact hin'

/-- A turn of a loop is defined and keeps the invariant. -/
theorem Driver.Ok.turn (h : d.Ok) (hl : d.loop = some l) (A : Allocator Obj) :
    ∃ d', d.turn A l = some d' ∧ d'.Ok := by
  have hok := h.loop l hl
  by_cases hi : toSize l.i < l.times
  · obtain ⟨op, times, i⟩ := l
    cases op with
    | createTable m n =>
      obtain ⟨es, hk⟩ := h.kept
      obtain ⟨r, hr, hkept, hcount⟩ := body_createTable A hk (toSize i) m n
      refine ⟨_, (if_pos hi).trans (congrArg _ hr), hkept, ?_, fun l hl => ?_⟩
      · obtain h0 | ⟨hm, hsize⟩ := hcount
        · exact lt_of_eq_of_lt h0 (by decide)
        · exact lt_of_eq_of_lt hm (hok hsize)
      · obtain rfl := Option.some.inj hl
        exact hok
    | _ => exact h.turn_entry A nofun hok hi
  · exact ⟨_, if_neg hi, h.kept, h.count, nofun⟩

theorem Driver.ok_initial : Driver.initial.Ok := by
  refine ⟨⟨[], fun _ => rfl, nofun, rfl, fun i p hp => ?_, fun p c hp => ?_⟩, by decide, nofun⟩
  · cases hp
  · cases hp

theorem driver_reach_ok {s : Option Driver} (h : driver.Reach s) : ∃ d, s = some d ∧ d.Ok := by
  refine Machine.ReachIf.invariant (I := fun s => ∃ d, s = some d ∧ d.Ok) h
    (fun s hs => ⟨_, hs, Driver.ok_initial⟩) fun s lab s' hI _ hn => ?_
  obtain ⟨d, rfl, hd⟩ := hI
  cases hl : d.loop with
  | none =>
    cases lab with
    | command c =>
      have hs' : some (some (d.call c)) = some s' := by simpa [driver, hl] using hn
      exact ⟨_, (Option.some.inj hs').symm, hd.call c⟩
    | turn A => simp [driver, hl] at hn
  | some l =>
    cases lab with
    | command c => simp [driver, hl] at hn
    | turn A =>
      have hs' : some (d.turn A l) = some s' := by simpa [driver, hl] using hn
      obtain ⟨d', hturn, hd'⟩ := hd.turn hl A
      exact ⟨d', (Option.some.inj hs').symm.trans hturn, hd'⟩

end

/-- Nothing is freed or accessed that is not there: no state is undefined. The
    entries of the table are `NULL` or blocks that are allocated, and a block that
    is allocated has exactly one entry. -/
theorem block_life_cycle {s : Option Driver} (h : driver.Reach s) :
    ∃ d, s = some d ∧ ∃ es : List (Option ℕ),
      (∀ a, d.table.blks = some a → d.heap a = some (.blks es)) ∧
      es.length = d.table.blkCount ∧
      (∀ i p : ℕ, es[i]? = some (some p) → ∃ c, d.heap p = some (.blk c)) ∧
      ∀ p c, d.heap p = some (.blk c) → ∃! i : ℕ, es[i]? = some (some p) := by
  obtain ⟨d, rfl, hd⟩ := driver_reach_ok h
  obtain ⟨es, hk⟩ := hd.kept
  exact ⟨d, rfl, es, hk.array, hk.length, hk.live, hk.once⟩

/-- Of a table with two blocks the first is removed. -/
theorem block_life_cycle_two :
    ∃ s : Option Driver, (s.map fun d => (d.table.blkCount, (d.heap 1).isSome, (d.heap 2).isSome)) =
        some (2, false, true) ∧
      ∃ d, s = some d ∧ ∃ es : List (Option ℕ),
        (∀ a, d.table.blks = some a → d.heap a = some (.blks es)) ∧
        es.length = d.table.blkCount ∧
        (∀ i p : ℕ, es[i]? = some (some p) → ∃ c, d.heap p = some (.blk c)) ∧
        ∀ p c, d.heap p = some (.blk c) → ∃! i : ℕ, es[i]? = some (some p) := by
  let turn := Label.turn (Allocator.firstFree Obj 3)
  obtain ⟨s, hs, ha⟩ := Machine.Reach.of_run (M := driver)
    [.command (.createTable 2 5 1), turn, turn, .command (.add 2), turn, turn, turn,
      .command (.remove 1), turn]
    (Option.map fun d => (d.table.blkCount, (d.heap 1).isSome, (d.heap 2).isSome)) _ rfl rfl
  exact ⟨s, ha, block_life_cycle hs⟩

end AghOs.Challoc
