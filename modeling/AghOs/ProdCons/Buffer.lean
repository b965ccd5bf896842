import AghOs.Machine.Integers
import AghOs.Machine.Ring

/-!
# The line buffer

Model of `cw09/zad1/src/buffer.c`: a ring of `buffer_size` pointers. The
counters are natural numbers (the code keeps them between `0` and
`buffer_size`), a pointer is an optional element (`none` is the null pointer
that `calloc` stores), and the return codes are the `int`s of the code.

The sum of two counters is an `int` and can overflow, when the buffer has more
than `2 ^ 30` places. It is taken to wrap (C leaves it open); the index is then
negative, and the pointer is stored before the array.

* `bufferPush_content`, `bufferPop_content`: the buffer is a queue, as long as the
  index of a push does not overflow.
* `Buffer.inRange_of_size_le`: up to `2 ^ 30` places it does not.
-/

namespace AghOs.ProdCons

variable {α : Type*}

/-- The globals of `buffer.c` (lines 5–9). -/
structure Buffer (α : Type*) where
  buffer : ℕ → Option α
  bufferSize : ℕ
  bufferStart : ℕ
  bufferLength : ℕ

/-- `buffer_init` (lines 15–26). -/
def bufferInit (size : ℕ) : Buffer α := ⟨fun _ => none, size, 0, 0⟩

/-- `__buffer_at` (lines 11–13): the cell, before the array if it is negative. The
    `%` of C rounds towards zero. -/
def bufferAt (b : Buffer α) (index : ℤ) : ℤ := index.tmod b.bufferSize

/-- A store to a cell; one before the array leaves the array as it is. -/
def Buffer.store (b : Buffer α) (cell : ℤ) (string : α) : ℕ → Option α :=
  if 0 ≤ cell then Function.update b.buffer cell.toNat (some string) else b.buffer

/-- `buffer_empty` (lines 28–30). -/
def bufferEmpty (b : Buffer α) : Bool := b.bufferLength == 0

/-- `buffer_full` (lines 32–34). -/
def bufferFull (b : Buffer α) : Bool := b.bufferLength == b.bufferSize

/-- `buffer_push` (lines 36–45). -/
def bufferPush (b : Buffer α) (string : α) : ℤ × Buffer α :=
  if bufferFull b then (-1, b)
  else
    (0, { b with
          buffer := b.store (bufferAt b (toInt (b.bufferStart + b.bufferLength))) string
          bufferLength := b.bufferLength + 1 })

/-- `buffer_pop` (lines 47–57); the second component is `*stringp`, `none` if it
    is not written. -/
def bufferPop (b : Buffer α) : ℤ × Option α × Buffer α :=
  if bufferEmpty b then (-1, none, b)
  else
    (0, b.buffer (bufferAt b b.bufferStart).toNat,
      { b with
        bufferStart := (b.bufferStart + 1) % b.bufferSize
        bufferLength := b.bufferLength - 1 })

/-- The pointers in the buffer, from start to end. -/
def Buffer.content (b : Buffer α) : List (Option α) :=
  ringList b.buffer b.bufferSize b.bufferStart b.bufferLength

/-- The index of the next push is an `int`. -/
def Buffer.InRange (b : Buffer α) : Prop := b.bufferStart + b.bufferLength < 2 ^ 31

@[simp] theorem content_bufferInit (size : ℕ) : (bufferInit size : Buffer α).content = [] := rfl

@[simp] theorem length_content (b : Buffer α) : b.content.length = b.bufferLength :=
  length_ringList _ _ _ _

theorem bufferFull_iff {b : Buffer α} : bufferFull b = true ↔ b.bufferLength = b.bufferSize := by
  simp [bufferFull]

theorem bufferEmpty_iff {b : Buffer α} : bufferEmpty b = true ↔ b.bufferLength = 0 := by
  simp [bufferEmpty]

theorem bufferAt_natCast (b : Buffer α) (index : ℕ) :
    bufferAt b index = (index % b.bufferSize : ℕ) :=
  (Int.ofNat_tmod index b.bufferSize).symm

/-- A push into a buffer that is not full. -/
theorem bufferPush_room {b : Buffer α} (h : bufferFull b = false) (string : α) :
    bufferPush b string = (0, { b with
      buffer := b.store (bufferAt b (toInt (b.bufferStart + b.bufferLength))) string
      bufferLength := b.bufferLength + 1 }) :=
  if_neg (Bool.eq_false_iff.mp h)

theorem bufferFull_of_lt {b : Buffer α} (h : b.bufferLength < b.bufferSize) :
    bufferFull b = false :=
  beq_false_of_ne h.ne

/-- A push counts its string, unless the buffer is full. -/
theorem bufferPush_length {b : Buffer α} (h : b.bufferLength < b.bufferSize) (string : α) :
    (bufferPush b string).1 = 0 ∧
      (bufferPush b string).2.bufferLength = b.bufferLength + 1 ∧
      (bufferPush b string).2.bufferStart = b.bufferStart ∧
      (bufferPush b string).2.bufferSize = b.bufferSize := by
  simp only [bufferPush_room (bufferFull_of_lt h), and_self]

/-- In range, it stores the string behind the last one. -/
theorem store_push {b : Buffer α} (hr : b.InRange) (string : α) :
    b.store (bufferAt b (toInt (b.bufferStart + b.bufferLength))) string =
      Function.update b.buffer ((b.bufferStart + b.bufferLength) % b.bufferSize) (some string) := by
  have hindex : toInt (b.bufferStart + b.bufferLength) = (b.bufferStart + b.bufferLength : ℕ) := by
    rw [← Nat.cast_add]
    exact toInt_natCast hr
  rw [hindex, bufferAt_natCast, Buffer.store, if_pos (Int.natCast_nonneg _), Int.toNat_natCast]

/-- A push appends its string, unless the buffer is full. -/
theorem bufferPush_content {b : Buffer α} (h : b.bufferLength < b.bufferSize) (hr : b.InRange)
    (string : α) : (bufferPush b string).2.content = b.content ++ [some string] := by
  rw [bufferPush_room (bufferFull_of_lt h), Buffer.content, store_push hr]
  exact ringList_push b.buffer h _

/-- A pop takes the first pointer, unless the buffer is empty. -/
theorem bufferPop_content {b : Buffer α} (h : 0 < b.bufferLength) :
    (bufferPop b).1 = 0 ∧ b.content = (bufferPop b).2.1 :: (bufferPop b).2.2.content ∧
      (bufferPop b).2.2.bufferStart = (b.bufferStart + 1) % b.bufferSize ∧
      (bufferPop b).2.2.bufferSize = b.bufferSize := by
  have he : bufferEmpty b = false := by simp [bufferEmpty, h.ne']
  simp only [bufferPop, he]
  obtain ⟨l, hl⟩ : ∃ l, b.bufferLength = l + 1 := ⟨b.bufferLength - 1, by omega⟩
  refine ⟨rfl, ?_, rfl, rfl⟩
  simp only [Buffer.content, hl, bufferAt_natCast, Int.toNat_natCast, Nat.add_sub_cancel]
  exact ringList_pop b.buffer _ _ _

/-- Up to `2 ^ 30` places, a push into a buffer that is not full is in range. -/
theorem Buffer.inRange_of_size_le {b : Buffer α} (hsize : b.bufferSize ≤ 2 ^ 30)
    (hs : b.bufferStart ≤ b.bufferSize) (hl : b.bufferLength < b.bufferSize) : b.InRange := by
  unfold InRange
  omega

end AghOs.ProdCons
