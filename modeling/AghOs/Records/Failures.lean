import AghOs.Records.Calls

/-!
# Calls that fail

Whether an operation tells that one of its calls has failed
(`src/cw02/zad1/src/file_desc.c`, lines 74–142): the primitives set `error` in
their own copy of the descriptor, or do not look at the result at all, and the
operations return 0 once the files are open.

* `opened_returns`: they return 0 whatever the answers are.
* `reported_iff`: failures are reported exactly in the runs without any.
* `stale_record_written`: a record that could not be read is written anyway.
-/

namespace AghOs.Records.Calls

/-- An operation whose files could be opened. -/
inductive Op
  | generate (rndOpened : Bool) (recordCount recordSize : ℕ)
  | copy (recordCount recordSize : ℕ) (mode : Mode)
  | sort (recordCount recordSize : ℕ) (mode : Mode)

namespace Op

def prog (uninit : ℕ → UInt8) : Op → Io ℤ
  | generate rndOpened recordCount recordSize =>
    opGenerate uninit true rndOpened recordCount recordSize
  | copy recordCount recordSize mode => opCopy uninit true true recordCount recordSize mode
  | sort recordCount recordSize mode => opSort uninit true recordCount recordSize mode

def isSort : Op → Bool
  | sort .. => true
  | _ => false

end Op

namespace Call

def isWrite : Call → Bool
  | write .. => true
  | _ => false

end Call

/-- A failed call makes the result non-zero, and `op_sort` writes nothing after a
    `read` or a seek has failed. -/
structure Reported {σ : Type} (op : Op) (o : Prog.Outcome Call σ ℤ) : Prop where
  result : (∃ c ∈ o.calls, c.2 = true) → o.value ≠ 0
  stops : op.isSort = true →
    o.calls.Pairwise fun c d => c.2 = true → c.1.isWrite = false → d.1.isWrite = false

theorem opened_returns (uninit : ℕ → UInt8) (op : Op) :
    (op.prog uninit).Returns fun value => value = 0 := by
  cases op with
  | generate rndOpened recordCount recordSize =>
    exact (Prog.returns_true (generateLoop ..)).bind fun _ _ => rfl
  | copy recordCount recordSize mode =>
    exact (Prog.returns_true (copyLoop ..)).bind fun _ _ => rfl
  | sort recordCount recordSize mode =>
    exact (Prog.returns_true (sortLoop ..)).bind fun _ _ => rfl

variable {σ : Type} (uninit : ℕ → UInt8) (op : Op)
  (serve : Bool → σ → Call → σ × List UInt8) (w : σ) (fails : ℕ → Bool)

/-- `serve` says what the files do with a call, and what a failed call does to them. -/
theorem reported_iff :
    Reported op ((op.prog uninit).run (answer serve) fails w) ↔
      ∀ n < ((op.prog uninit).run (answer serve) Prog.noFailure w).calls.length,
        fails n = false := by
  rw [← Prog.all_served_iff]
  constructor
  · intro h c hc
    by_contra hfailed
    rw [Bool.not_eq_false] at hfailed
    exact h.result ⟨c, hc, hfailed⟩ ((opened_returns uninit op).value _ fails w)
  · intro h
    constructor
    · rintro ⟨c, hc, hfailed⟩
      rw [h c hc] at hfailed
      cases hfailed
    · intro _
      refine List.pairwise_of_forall_mem_list fun c hc d _ hfailed => ?_
      rw [h c hc] at hfailed
      cases hfailed

/-- The record to insert cannot be read, and what the buffer held is written to
    the file. -/
theorem stale_record_written :
    let o := ((Op.sort 2 1 .sys).prog fun _ => 0).run (answer OpenFile.serve)
      (fun n => n == 1) ⟨[2, 1], 0, false⟩
    o.value = 0 ∧ o.world.content = [0, 2] ∧ ¬Reported (.sort 2 1 .sys) o := by
  refine ⟨by decide, by decide, fun h => ?_⟩
  exact h.result ⟨(.read 0 1, true), by decide, rfl⟩ (by decide)

end AghOs.Records.Calls
