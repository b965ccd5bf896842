import Mathlib.Data.List.Basic
import Mathlib.Logic.Function.Basic
import Mathlib.Tactic.Common

/-!
# Descriptor tables

The open descriptors of a process, with the calls `pipe`, `close` and `dup2`.
A file is an end of a pipe or something else; pipes are numbered in the order in
which they are made. A new descriptor is the lowest one that is free.

The lemmas say which file each call leaves at a descriptor.
-/

namespace AghOs

/-- An open file: an end of a pipe, or something else. -/
inductive OpenFile (φ : Type*)
  | other (f : φ)
  | reads (p : ℕ)
  | writes (p : ℕ)

/-- The file is no end of a pipe made after the first `n`. -/
def OpenFile.Before {φ : Type*} (n : ℕ) : OpenFile φ → Prop
  | other _ => True
  | reads p => p < n
  | writes p => p < n

theorem OpenFile.Before.mono {φ : Type*} {n n' : ℕ} {f : OpenFile φ} (h : f.Before n)
    (hn : n ≤ n') : f.Before n' := by
  cases f with
  | other => trivial
  | reads p => exact Nat.lt_of_lt_of_le h hn
  | writes p => exact Nat.lt_of_lt_of_le h hn

/-- The open descriptors, all below `bound`. -/
structure Table (φ : Type*) where
  file : ℕ → Option (OpenFile φ)
  bound : ℕ
  closed : ∀ fd, bound ≤ fd → file fd = none

namespace Table

variable {φ : Type*}

def set (t : Table φ) (fd : ℕ) (f : OpenFile φ) : Table φ where
  file := Function.update t.file fd (some f)
  bound := max t.bound (fd + 1)
  closed fd' h := by
    rw [Function.update_of_ne (by omega)]
    exact t.closed fd' (by omega)

/-- The lowest free descriptor. -/
def lowest (t : Table φ) : ℕ :=
  ((List.range t.bound).find? fun fd => (t.file fd).isNone).getD t.bound

def close (t : Table φ) (fd : ℕ) : Table φ where
  file := Function.update t.file fd none
  bound := t.bound
  closed fd' h := by
    by_cases hfd : fd' = fd
    · rw [hfd, Function.update_self]
    · rw [Function.update_of_ne hfd]
      exact t.closed fd' h

/-- `dup2(fd, new)`; it changes nothing if `fd` is not open. -/
def dup2 (t : Table φ) (fd new : ℕ) : Table φ :=
  match t.file fd with
  | none => t
  | some f => t.set new f

/-- The first descriptor that `pipe` returns, for reading. -/
def readEnd (t : Table φ) : ℕ := t.lowest

/-- The second one, for writing. -/
def writeEnd (t : Table φ) (p : ℕ) : ℕ := (t.set t.lowest (.reads p)).lowest

/-- `pipe`, for the pipe with number `p`. -/
def pipe (t : Table φ) (p : ℕ) : Table φ :=
  (t.set t.readEnd (.reads p)).set (t.writeEnd p) (.writes p)

/-- Every file is known when `n` pipes have been made. -/
def Before (n : ℕ) (t : Table φ) : Prop := ∀ fd f, t.file fd = some f → f.Before n

section

variable {t : Table φ} {fd fd' p n : ℕ} {f : OpenFile φ}

@[simp] theorem set_file : (t.set fd f).file = Function.update t.file fd (some f) := rfl

@[simp] theorem close_file : (t.close fd).file = Function.update t.file fd none := rfl

theorem dup2_file (h : t.file fd = some f) :
    (t.dup2 fd fd').file = Function.update t.file fd' (some f) := by
  unfold dup2
  rw [h]
  rfl

theorem lowest_free (t : Table φ) : t.file t.lowest = none := by
  unfold lowest
  cases hf : (List.range t.bound).find? fun fd => (t.file fd).isNone with
  | none => exact t.closed _ (Nat.le_refl _)
  | some fd => simpa using List.find?_some hf

theorem readEnd_free : t.file t.readEnd = none := lowest_free t

theorem writeEnd_ne_readEnd : t.writeEnd p ≠ t.readEnd := by
  intro h
  have hfree := lowest_free (t.set t.lowest (.reads p))
  rw [show (t.set t.lowest (.reads p)).lowest = t.lowest from h, set_file,
    Function.update_self] at hfree
  cases hfree

theorem writeEnd_free : t.file (t.writeEnd p) = none := by
  have hfree := lowest_free (t.set t.lowest (.reads p))
  have hne : (t.set t.lowest (.reads p)).lowest ≠ t.lowest := writeEnd_ne_readEnd
  rwa [set_file, Function.update_of_ne hne] at hfree

/-- An open descriptor is none that `pipe` returns. -/
theorem ne_ends (h : (t.file fd).isSome) : fd ≠ t.readEnd ∧ fd ≠ t.writeEnd p := by
  constructor
  · rintro rfl
    rw [readEnd_free] at h
    cases h
  · rintro rfl
    rw [writeEnd_free] at h
    cases h

theorem pipe_readEnd : (t.pipe p).file t.readEnd = some (.reads p) := by
  unfold pipe
  rw [set_file, Function.update_of_ne writeEnd_ne_readEnd.symm, set_file, Function.update_self]

theorem pipe_writeEnd : (t.pipe p).file (t.writeEnd p) = some (.writes p) := by
  unfold pipe
  rw [set_file, Function.update_self]

theorem pipe_of_ne (hr : fd ≠ t.readEnd) (hw : fd ≠ t.writeEnd p) :
    (t.pipe p).file fd = t.file fd := by
  unfold pipe
  rw [set_file, Function.update_of_ne hw, set_file, Function.update_of_ne hr]

/-- The reading end is left. -/
theorem pipe_close_writeEnd :
    ((t.pipe p).close (t.writeEnd p)).file =
      Function.update t.file t.readEnd (some (.reads p)) := by
  funext fd
  rw [close_file]
  by_cases hw : fd = t.writeEnd p
  · rw [hw, Function.update_self, Function.update_of_ne writeEnd_ne_readEnd, writeEnd_free]
  · rw [Function.update_of_ne hw]
    by_cases hr : fd = t.readEnd
    · rw [hr, Function.update_self, pipe_readEnd]
    · rw [Function.update_of_ne hr, pipe_of_ne hr hw]

/-- The writing end is left. -/
theorem pipe_close_readEnd :
    ((t.pipe p).close t.readEnd).file =
      Function.update t.file (t.writeEnd p) (some (.writes p)) := by
  funext fd
  rw [close_file]
  by_cases hr : fd = t.readEnd
  · rw [hr, Function.update_self, Function.update_of_ne writeEnd_ne_readEnd.symm, readEnd_free]
  · rw [Function.update_of_ne hr]
    by_cases hw : fd = t.writeEnd p
    · rw [hw, Function.update_self, pipe_writeEnd]
    · rw [Function.update_of_ne hw, pipe_of_ne hr hw]

theorem Before.mono (h : t.Before n) {n' : ℕ} (hn : n ≤ n') : t.Before n' :=
  fun fd f hf => (h fd f hf).mono hn

theorem Before.set (h : t.Before n) (hf : f.Before n) (fd : ℕ) : (t.set fd f).Before n := by
  intro fd' f' hf'
  rw [set_file] at hf'
  by_cases hfd : fd' = fd
  · rw [hfd, Function.update_self] at hf'
    cases hf'
    exact hf
  · rw [Function.update_of_ne hfd] at hf'
    exact h fd' f' hf'

theorem Before.close (h : t.Before n) (fd : ℕ) : (t.close fd).Before n := by
  intro fd' f' hf'
  rw [close_file] at hf'
  by_cases hfd : fd' = fd
  · rw [hfd, Function.update_self] at hf'
    cases hf'
  · rw [Function.update_of_ne hfd] at hf'
    exact h fd' f' hf'

theorem Before.dup2 (h : t.Before n) (fd fd' : ℕ) : (t.dup2 fd fd').Before n := by
  unfold Table.dup2
  split
  · exact h
  · rename_i f hf
    exact h.set (h fd f hf) fd'

theorem Before.pipe (h : t.Before n) : (t.pipe n).Before (n + 1) := by
  have h' := h.mono (Nat.le_succ n)
  exact (h'.set (f := .reads n) (Nat.lt_succ_self n) _).set (f := .writes n) (Nat.lt_succ_self n) _

end

end Table
end AghOs
