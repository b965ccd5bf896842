import Mathlib.Algebra.Order.Ring.Int
import AghOs.ProdCons.Buffer

/-!
# The line buffer as a bounded queue

`cw09/zad1/src/buffer.c` once more, with everything that could go wrong in it:
the counters are `int`s (integers here, without overflow), the array has the
cells that `calloc` gave, and `__buffer_at` is undefined when it would divide by
zero or leave the array.

* `calls_refine_fifo`: any sequence of calls after `buffer_init` returns what a
  FIFO queue with `size` places returns, and never comes to such a point.
* `bufferPush_toBuffer`, `bufferPop_toBuffer`: the model of
  `AghOs.ProdCons.Buffer`, with the `int` index that wraps round and a total array, is
  this one seen through `LineBuffer.toBuffer`, as long as no index overflows.
-/

namespace AghOs.ProdCons

variable {π : Type*}

/-! ## Specification -/

/-- The functions that use the buffer. -/
inductive BufferCall (π : Type*)
  | push (string : π)
  | pop
  | empty
  | full

/-- What a call returns, and `*stringp` if it is written. -/
abbrev BufferAnswer (π : Type*) := ℤ × Option π

/-- A FIFO queue with `n` places. -/
def fifoCall (n : ℕ) : BufferCall π → List π → BufferAnswer π × List π
  | .push string, q => if q.length = n then ((-1, none), q) else ((0, none), q ++ [string])
  | .pop, [] => ((-1, none), [])
  | .pop, string :: q => ((0, some string), q)
  | .empty, q => ((if q = [] then 1 else 0, none), q)
  | .full, q => ((if q.length = n then 1 else 0, none), q)

/-- The answers of a queue to a sequence of calls, and what is left in it. -/
def fifoCalls (n : ℕ) : List (BufferCall π) → List π → List (BufferAnswer π) × List π
  | [], q => ([], q)
  | call :: calls, q =>
    let (answer, q) := fifoCall n call q
    let (answers, q) := fifoCalls n calls q
    (answer :: answers, q)

/-! ## Model of the code -/

/-- The globals of `buffer.c` (lines 5–9); `buffer` is the array with its cells. -/
structure LineBuffer (π : Type*) where
  buffer : List π
  bufferSize : ℤ
  bufferStart : ℤ
  bufferLength : ℤ

namespace LineBuffer

/-- `__buffer_at` (lines 11–13): the cell, if the index is in the array. The `%`
    of C rounds towards zero and is undefined for zero. -/
def bufferAt (b : LineBuffer π) (index : ℤ) : Option ℕ :=
  if b.bufferSize = 0 then none
  else
    let cell := index.tmod b.bufferSize
    if 0 ≤ cell ∧ cell < b.buffer.length then some cell.toNat else none

/-- `buffer_init` (lines 15–26); `calloc` says whether there is memory, its cells
    are null pointers. -/
def bufferInit (null : π) (calloc : Bool) (size : ℤ) (b : LineBuffer π) : ℤ × LineBuffer π :=
  if calloc then (0, ⟨List.replicate size.toNat null, size, 0, 0⟩)
  else (-1, { b with buffer := [] })

/-- `buffer_empty` (lines 28–30). -/
def bufferEmpty (b : LineBuffer π) : ℤ := if b.bufferLength = 0 then 1 else 0

/-- `buffer_full` (lines 32–34). -/
def bufferFull (b : LineBuffer π) : ℤ := if b.bufferLength = b.bufferSize then 1 else 0

/-- `buffer_push` (lines 36–45). -/
def bufferPush (b : LineBuffer π) (string : π) : Option (ℤ × LineBuffer π) :=
  if b.bufferFull ≠ 0 then some (-1, b)
  else
    (b.bufferAt (b.bufferStart + b.bufferLength)).map fun cell =>
      (0, { b with
            buffer := b.buffer.set cell string
            bufferLength := b.bufferLength + 1 })

/-- `buffer_pop` (lines 47–57); the second component is `*stringp`, `none` if it
    is not written. -/
def bufferPop (b : LineBuffer π) : Option (ℤ × Option π × LineBuffer π) :=
  if b.bufferEmpty ≠ 0 then some (-1, none, b)
  else
    (b.bufferAt b.bufferStart).bind fun cell =>
      b.buffer[cell]?.map fun string =>
        (0, some string,
          { b with
            bufferStart := (b.bufferStart + 1).tmod b.bufferSize
            bufferLength := b.bufferLength - 1 })

/-- One call; `none` where C leaves open what happens. -/
def call (b : LineBuffer π) : BufferCall π → Option (BufferAnswer π × LineBuffer π)
  | .push string => (b.bufferPush string).map fun (ret, b) => ((ret, none), b)
  | .pop => b.bufferPop.map fun (ret, string, b) => ((ret, string), b)
  | .empty => some ((b.bufferEmpty, none), b)
  | .full => some ((b.bufferFull, none), b)

/-- A sequence of calls. -/
def calls : List (BufferCall π) → LineBuffer π →
    Option (List (BufferAnswer π) × LineBuffer π)
  | [], b => some ([], b)
  | c :: cs, b => do
    let (answer, b) ← b.call c
    let (answers, b) ← calls cs b
    some (answer :: answers, b)

/-! ## Refinement -/

/-- `b` holds the queue `q` with `n` places. -/
structure Holds (b : LineBuffer π) (n : ℕ) (q : List π) : Prop where
  cells : b.buffer.length = n
  size : b.bufferSize = n
  start_nonneg : 0 ≤ b.bufferStart
  start_lt : b.bufferStart < max 1 n
  length : b.bufferLength = q.length
  bound : q.length ≤ n
  content : ringList (fun i => b.buffer[i]?) n b.bufferStart.toNat q.length = q.map some

theorem holds_bufferInit (null : π) (n : ℕ) (b : LineBuffer π) :
    (bufferInit null true n b).2.Holds n [] where
  cells := by simp [bufferInit]
  size := rfl
  start_nonneg := Int.le_refl 0
  start_lt := by
    show (0 : ℤ) < max 1 n
    omega
  length := rfl
  bound := Nat.zero_le n
  content := rfl

variable {b : LineBuffer π} {n : ℕ} {q : List π}

theorem Holds.bufferFull (h : b.Holds n q) : b.bufferFull = if q.length = n then 1 else 0 := by
  rw [LineBuffer.bufferFull, h.length, h.size]
  simp only [Nat.cast_inj]

theorem Holds.bufferEmpty (h : b.Holds n q) : b.bufferEmpty = if q = [] then 1 else 0 := by
  rw [LineBuffer.bufferEmpty, h.length]
  simp only [Nat.cast_eq_zero, List.length_eq_zero_iff]

/-- A cell of the live region, or the one behind it, is in the array. -/
theorem Holds.bufferAt (h : b.Holds n q) (hn : 0 < n) (d : ℕ) :
    b.bufferAt (b.bufferStart + d) = some ((b.bufferStart.toNat + d) % n) := by
  have hs : b.bufferStart + d = ((b.bufferStart.toNat + d : ℕ) : ℤ) := by
    have := h.start_nonneg
    omega
  have hmod : (b.bufferStart + d).tmod b.bufferSize = ((b.bufferStart.toNat + d) % n : ℕ) := by
    rw [hs, h.size, Int.ofNat_tmod]
  have hlt := Nat.mod_lt (b.bufferStart.toNat + d) hn
  rw [LineBuffer.bufferAt, if_neg (by rw [h.size]; omega), hmod, h.cells,
    if_pos ⟨by omega, by omega⟩, Int.toNat_natCast]

/-- The start moves by one cell, round the ring. -/
theorem Holds.next_start (h : b.Holds n q) :
    (b.bufferStart + 1).tmod b.bufferSize = ((b.bufferStart.toNat + 1) % n : ℕ) := by
  have hs : b.bufferStart + 1 = ((b.bufferStart.toNat + 1 : ℕ) : ℤ) := by
    have := h.start_nonneg
    omega
  rw [hs, h.size, Int.ofNat_tmod]

/-- Reading after writing, as functions on the cells. -/
theorem getElem?_set_eq_update (l : List π) {cell : ℕ} (hc : cell < l.length) (x : π) :
    (fun i => (l.set cell x)[i]?) = Function.update (fun i => l[i]?) cell (some x) := by
  funext i
  by_cases h : i = cell
  · subst h
    rw [Function.update_self, List.getElem?_set_self hc]
  · rw [Function.update_of_ne h, List.getElem?_set_ne (Ne.symm h)]

theorem Holds.bufferPush_full (h : b.Holds n q) (hq : q.length = n) (string : π) :
    b.bufferPush string = some (-1, b) := by
  rw [LineBuffer.bufferPush, h.bufferFull, if_pos hq, if_pos (by decide)]

/-- A push writes the cell behind the live region. -/
theorem Holds.bufferPush_room (h : b.Holds n q) (hq : q.length < n) (string : π) :
    b.bufferPush string = some (0, { b with
        buffer := b.buffer.set ((b.bufferStart.toNat + q.length) % n) string
        bufferLength := b.bufferLength + 1 }) := by
  rw [LineBuffer.bufferPush, h.bufferFull, if_neg hq.ne, if_neg (by decide), h.length,
    h.bufferAt (Nat.zero_lt_of_lt hq)]
  rfl

theorem Holds.push (h : b.Holds n q) (hq : q.length < n) (string : π) :
    Holds { b with
        buffer := b.buffer.set ((b.bufferStart.toNat + q.length) % n) string
        bufferLength := b.bufferLength + 1 } n (q ++ [string]) where
  cells := by rw [List.length_set, h.cells]
  size := h.size
  start_nonneg := h.start_nonneg
  start_lt := h.start_lt
  length := by
    rw [List.length_append, List.length_singleton, h.length]
    rfl
  bound := by
    rw [List.length_append, List.length_singleton]
    omega
  content := by
    have hc : (b.bufferStart.toNat + q.length) % n < b.buffer.length := by
      rw [h.cells]
      exact Nat.mod_lt _ (Nat.zero_lt_of_lt hq)
    rw [getElem?_set_eq_update _ hc, List.length_append, List.length_singleton,
      ringList_push _ hq, h.content, List.map_append]
    rfl

theorem Holds.bufferPop_empty (h : b.Holds n []) : b.bufferPop = some (-1, none, b) := by
  rw [LineBuffer.bufferPop, h.bufferEmpty, if_pos rfl, if_pos (by decide)]

/-- The front of the queue is in the cell at `buffer_start`. -/
theorem Holds.front {x : π} (h : b.Holds n (x :: q)) :
    b.buffer[b.bufferStart.toNat % n]? = some x ∧
      ringList (fun i => b.buffer[i]?) n ((b.bufferStart.toNat + 1) % n) q.length =
        q.map some := by
  have hc := h.content
  rw [List.length_cons, ringList_pop, List.map_cons] at hc
  exact List.cons.inj hc

theorem Holds.bufferPop_front {x : π} (h : b.Holds n (x :: q)) :
    b.bufferPop = some (0, some x, { b with
        bufferStart := (b.bufferStart + 1).tmod b.bufferSize
        bufferLength := b.bufferLength - 1 }) := by
  have hn : 0 < n := Nat.zero_lt_of_lt h.bound
  have hat := h.bufferAt hn 0
  rw [Nat.cast_zero, add_zero, add_zero] at hat
  rw [LineBuffer.bufferPop, h.bufferEmpty, if_neg (List.cons_ne_nil x q), if_neg (by decide),
    hat, Option.bind_some, h.front.1]
  rfl

theorem Holds.pop {x : π} (h : b.Holds n (x :: q)) :
    Holds { b with
        bufferStart := (b.bufferStart + 1).tmod b.bufferSize
        bufferLength := b.bufferLength - 1 } n q := by
  have hn : 0 < n := Nat.zero_lt_of_lt h.bound
  have hlt := Nat.mod_lt (b.bufferStart.toNat + 1) hn
  rw [h.next_start]
  refine ⟨h.cells, h.size, Int.natCast_nonneg _, ?_, ?_, ?_, ?_⟩
  · show (((b.bufferStart.toNat + 1) % n : ℕ) : ℤ) < max 1 n
    omega
  · have hl := h.length
    rw [List.length_cons] at hl
    show b.bufferLength - 1 = q.length
    omega
  · have hb := h.bound
    rw [List.length_cons] at hb
    omega
  · show ringList (fun i => b.buffer[i]?) n
      (((b.bufferStart.toNat + 1) % n : ℕ) : ℤ).toNat q.length = q.map some
    rw [Int.toNat_natCast]
    exact h.front.2

/-- One call answers as the queue does. -/
theorem Holds.call (h : b.Holds n q) (c : BufferCall π) :
    ∃ b', b.call c = some ((fifoCall n c q).1, b') ∧ b'.Holds n (fifoCall n c q).2 := by
  cases c with
  | push string =>
    by_cases hq : q.length = n
    · have hf : fifoCall n (.push string) q = ((-1, none), q) := if_pos hq
      rw [hf]
      exact ⟨b, by rw [LineBuffer.call, h.bufferPush_full hq]; rfl, h⟩
    · have hf : fifoCall n (.push string) q = ((0, none), q ++ [string]) := if_neg hq
      have hlt : q.length < n := lt_of_le_of_ne h.bound hq
      rw [hf]
      exact ⟨_, by rw [LineBuffer.call, h.bufferPush_room hlt]; rfl, h.push hlt string⟩
  | pop =>
    cases q with
    | nil => exact ⟨b, by rw [LineBuffer.call, h.bufferPop_empty]; rfl, h⟩
    | cons x q => exact ⟨_, by rw [LineBuffer.call, h.bufferPop_front]; rfl, h.pop⟩
  | empty => exact ⟨b, by rw [LineBuffer.call, h.bufferEmpty]; rfl, h⟩
  | full => exact ⟨b, by rw [LineBuffer.call, h.bufferFull]; rfl, h⟩

theorem Holds.calls (h : b.Holds n q) (cs : List (BufferCall π)) :
    ∃ b', LineBuffer.calls cs b = some ((fifoCalls n cs q).1, b') ∧
      b'.Holds n (fifoCalls n cs q).2 := by
  induction cs generalizing b q with
  | nil => exact ⟨b, rfl, h⟩
  | cons c cs ih =>
    obtain ⟨b₁, h1, hb1⟩ := h.call c
    obtain ⟨b₂, h2, hb2⟩ := ih hb1
    refine ⟨b₂, ?_, hb2⟩
    rw [LineBuffer.calls, h1, Option.bind_eq_bind, Option.bind_some]
    dsimp only
    rw [h2]
    rfl

/-- **The line buffer is a bounded queue.** After `buffer_init(n)` every
    sequence of calls is defined and gives the answers of a FIFO queue with `n`
    places; the buffer holds the queue, with the length in `0..n` and the start in
    `0..n-1`, or `0` if there is no place. -/
theorem calls_refine_fifo (null : π) (n : ℕ) (b : LineBuffer π) (cs : List (BufferCall π)) :
    ∃ b', calls cs (bufferInit null true n b).2 = some ((fifoCalls n cs []).1, b') ∧
      b'.buffer.length = n ∧ b'.bufferSize = n ∧
      (0 ≤ b'.bufferLength ∧ b'.bufferLength ≤ n) ∧
      (0 ≤ b'.bufferStart ∧ (b'.bufferStart < n ∨ n = 0 ∧ b'.bufferStart = 0)) ∧
      ringList (fun i => b'.buffer[i]?) n b'.bufferStart.toNat b'.bufferLength.toNat =
        (fifoCalls n cs []).2.map some := by
  obtain ⟨b', h, hb⟩ := (holds_bufferInit null n b).calls cs
  have hl := hb.length
  have h1 := hb.bound
  have h2 := hb.start_nonneg
  have h3 := hb.start_lt
  refine ⟨b', h, hb.cells, hb.size, ⟨by omega, by omega⟩, ⟨h2, by omega⟩, ?_⟩
  rw [hl, Int.toNat_natCast]
  exact hb.content

/-! ## The model of both builds -/

/-- The buffer of `AghOs.ProdCons.Buffer` that stands for `b`. -/
def toBuffer (b : LineBuffer (Option π)) : Buffer π where
  buffer i := b.buffer[i]?.getD none
  bufferSize := b.bufferSize.toNat
  bufferStart := b.bufferStart.toNat
  bufferLength := b.bufferLength.toNat

/-- A push in `AghOs.ProdCons.Buffer` in range is a push of a pointer that is not
    null. -/
theorem bufferPush_toBuffer {b : LineBuffer (Option π)} {q : List (Option π)}
    (h : b.Holds n q) (hr : b.toBuffer.InRange) (string : π) :
    (b.bufferPush (some string)).map (fun (ret, b) => (ret, b.toBuffer)) =
      some (ProdCons.bufferPush b.toBuffer string) := by
  have hl := h.length
  have hz := h.size
  by_cases hq : q.length = n
  · have hf : ProdCons.bufferFull b.toBuffer = true :=
      bufferFull_iff.mpr (by simp only [toBuffer]; omega)
    rw [h.bufferPush_full hq, ProdCons.bufferPush, if_pos hf]
    rfl
  · have hlt : q.length < n := lt_of_le_of_ne h.bound hq
    have hf : ¬ ProdCons.bufferFull b.toBuffer = true := by
      rw [bufferFull_iff]
      simp only [toBuffer]
      omega
    have hc : (b.bufferStart.toNat + q.length) % n < b.buffer.length := by
      rw [h.cells]
      exact Nat.mod_lt _ (Nat.zero_lt_of_lt hlt)
    rw [h.bufferPush_room hlt, ProdCons.bufferPush, if_neg hf, store_push hr, Option.map_some]
    simp only [toBuffer, hl, hz, Int.toNat_natCast, Option.some.injEq, Prod.mk.injEq,
      Buffer.mk.injEq, true_and]
    constructor
    · funext i
      rw [congrFun (getElem?_set_eq_update b.buffer hc (some string)) i]
      by_cases hi : i = (b.bufferStart.toNat + q.length) % n
      · rw [hi, Function.update_self, Function.update_self]
        rfl
      · rw [Function.update_of_ne hi, Function.update_of_ne hi]
    · omega

/-- A pop in `AghOs.ProdCons.Buffer` is a pop that returns a null pointer also when
    `*stringp` is not written. -/
theorem bufferPop_toBuffer {b : LineBuffer (Option π)} {q : List (Option π)}
    (h : b.Holds n q) :
    b.bufferPop.map (fun (ret, string, b) => (ret, string.join, b.toBuffer)) =
      some (ProdCons.bufferPop b.toBuffer) := by
  have hl := h.length
  have hz := h.size
  cases q with
  | nil =>
    have he : ProdCons.bufferEmpty b.toBuffer = true :=
      bufferEmpty_iff.mpr (by simp only [toBuffer]; rw [hl]; rfl)
    rw [h.bufferPop_empty, ProdCons.bufferPop, if_pos he]
    rfl
  | cons x q =>
    rw [List.length_cons] at hl
    have he : ¬ ProdCons.bufferEmpty b.toBuffer = true := by
      rw [bufferEmpty_iff]
      simp only [toBuffer]
      omega
    have hcell : (ProdCons.bufferAt b.toBuffer b.toBuffer.bufferStart).toNat =
        b.bufferStart.toNat % n := by
      rw [bufferAt_natCast, Int.toNat_natCast]
      simp only [toBuffer, hz, Int.toNat_natCast]
    have hstart : ((b.bufferStart + 1).tmod b.bufferSize).toNat =
        (b.bufferStart.toNat + 1) % b.bufferSize.toNat := by
      rw [h.next_start, hz, Int.toNat_natCast, Int.toNat_natCast]
    rw [h.bufferPop_front, ProdCons.bufferPop, if_neg he, hcell, Option.map_some]
    simp only [toBuffer, Option.some.injEq, Prod.mk.injEq, Buffer.mk.injEq, true_and]
    refine ⟨?_, hstart, by omega⟩
    rw [h.front.1]
    rfl

end LineBuffer

end AghOs.ProdCons
