import Mathlib.Data.List.TakeDrop
import Mathlib.Tactic.Common

/-!
# Copying records

`op_copy` (`src/cw02/zad1/src/operations.c`, lines 30–51) and the descriptors of
`file_desc.c`, for two different files and without I/O errors. A descriptor is
one of `open` or one of `fopen`; the latter has a buffer, which `stdio` writes
out when it wants to, and when the program exits. What `stdio` reads ahead makes
no difference, as nobody writes to the source.

`read` and `fread` return all the bytes asked for that are there.

* `Holds`: what has been written through a descriptor, on disk or not.
* `opCopy_eq`: what the destination holds afterwards.
* `modes_agree_iff`: both modes copy the records exactly when the destination was
  no longer than they are.
* `short_source_iff`: a source is copied to a new file exactly when it is long
  enough.
-/

namespace AghOs.Records

/-- `fmode_t` -/
inductive Mode
  | sys | lib
  deriving DecidableEq

/-- `file_desc`, with the file it refers to. `pending` is what `stdio` has not
    yet written out. -/
structure FileDesc where
  mode : Mode
  content : List UInt8
  pos : ℕ
  pending : List UInt8

/-- A file after `data` is written at `pos`. -/
def writeAt (content : List UInt8) (pos : ℕ) (data : List UInt8) : List UInt8 :=
  content.take pos ++ List.replicate (pos - content.length) 0 ++ data ++
    content.drop (pos + data.length)

namespace FileDesc

/-- `write` at the cursor. -/
def write (fd : FileDesc) (data : List UInt8) : FileDesc :=
  { fd with content := writeAt fd.content fd.pos data, pos := fd.pos + data.length }

/-- `stdio` writes out the first `n` bytes of its buffer. -/
def flush (fd : FileDesc) (n : ℕ) : FileDesc :=
  { fd.write (fd.pending.take n) with pending := fd.pending.drop n }

/-- The file when the program has exited. -/
def afterExit (fd : FileDesc) : List UInt8 := (fd.flush fd.pending.length).content

end FileDesc

/-- `fd_openr` -/
def fdOpenr (mode : Mode) (file : List UInt8) : FileDesc := ⟨mode, file, 0, []⟩

/-- `fd_openw`; `none` is a file that does not exist. Only `fopen` truncates. -/
def fdOpenw (mode : Mode) (file : Option (List UInt8)) : FileDesc :=
  match mode with
  | .sys => ⟨.sys, file.getD [], 0, []⟩
  | .lib => ⟨.lib, [], 0, []⟩

/-- `fd_read` into `buffer`. -/
def fdRead (fd : FileDesc) (buffer : List UInt8) (recordSize : ℕ) : FileDesc × List UInt8 :=
  let bytes := (fd.content.drop fd.pos).take recordSize
  ({ fd with pos := fd.pos + bytes.length }, bytes ++ buffer.drop bytes.length)

/-- `fd_write`; `stdio` writes out `flushed` bytes. -/
def fdWrite (fd : FileDesc) (buffer : List UInt8) (recordSize flushed : ℕ) : FileDesc :=
  match fd.mode with
  | .sys => fd.write (buffer.take recordSize)
  | .lib => { fd with pending := fd.pending ++ buffer.take recordSize }.flush flushed

/-- The loop of `op_copy`, with `n` records to go; `flushed n` is what `stdio`
    writes out in this turn. -/
def copyLoop (flushed : ℕ → ℕ) (recordSize : ℕ) :
    ℕ → FileDesc → FileDesc → List UInt8 → FileDesc
  | 0, _, file2, _ => file2
  | n + 1, file1, file2, buffer =>
    let (file1, buffer) := fdRead file1 buffer recordSize
    copyLoop flushed recordSize n file1 (fdWrite file2 buffer recordSize (flushed n)) buffer

/-- `op_copy`: the destination when the program has exited. `uninit` is what the
    buffer holds at first. -/
def opCopy (uninit : ℕ → UInt8) (flushed : ℕ → ℕ) (source : List UInt8)
    (destination : Option (List UInt8)) (recordCount recordSize : ℕ) (mode : Mode) : List UInt8 :=
  let buffer := (List.range recordSize).map uninit
  let file1 := fdOpenr mode source
  let file2 := fdOpenw mode destination
  (copyLoop flushed recordSize recordCount file1 file2 buffer).afterExit

/-! ## What has been written -/

/-- `w` has been written from the start of a file that held `old`: up to the
    cursor it is on disk, the rest is pending, and behind the cursor the file is
    as it was. `write` leaves nothing pending. -/
structure Holds (fd : FileDesc) (old w : List UInt8) : Prop where
  written : fd.content.take fd.pos ++ fd.pending = w
  rest : fd.content.drop fd.pos = old.drop fd.pos
  pos_le : fd.pos ≤ fd.content.length
  direct : fd.mode = .sys → fd.pending = []

section

variable {fd : FileDesc} {old w : List UInt8}

theorem writeAt_eq {content : List UInt8} {pos : ℕ} (h : pos ≤ content.length)
    (data : List UInt8) :
    writeAt content pos data = content.take pos ++ data ++ content.drop (pos + data.length) := by
  unfold writeAt
  rw [Nat.sub_eq_zero_of_le h, List.replicate_zero, List.append_nil]

/-- `new` is written: `data` of what is then pending goes to the disk. -/
theorem Holds.write (h : Holds fd old w) (data new pending : List UInt8)
    (hp : fd.pending ++ new = data ++ pending) (hd : fd.mode = .sys → pending = []) :
    Holds { fd.write data with pending := pending } old (w ++ new) := by
  have hlen : (fd.content.take fd.pos ++ data).length = fd.pos + data.length := by
    rw [List.length_append, List.length_take_of_le h.pos_le]
  have hcontent : (fd.write data).content =
      fd.content.take fd.pos ++ data ++ fd.content.drop (fd.pos + data.length) :=
    writeAt_eq h.pos_le data
  refine ⟨?_, ?_, ?_, hd⟩
  · show (fd.write data).content.take (fd.pos + data.length) ++ pending = w ++ new
    rw [hcontent, List.take_left' hlen, List.append_assoc, ← hp, ← List.append_assoc, h.written]
  · show (fd.write data).content.drop (fd.pos + data.length) = _
    rw [hcontent, List.drop_left' hlen, ← List.drop_drop, h.rest, List.drop_drop]
    rfl
  · show fd.pos + data.length ≤ (fd.write data).content.length
    rw [hcontent, List.length_append, hlen]
    exact Nat.le_add_right _ _

theorem Holds.fdWrite (h : Holds fd old w) (buffer : List UInt8) (recordSize flushed : ℕ) :
    Holds (fdWrite fd buffer recordSize flushed) old (w ++ buffer.take recordSize) := by
  obtain ⟨mode, content, pos, pending⟩ := fd
  cases mode with
  | sys =>
    obtain rfl : pending = [] := h.direct rfl
    exact h.write (buffer.take recordSize) _ [] (List.append_nil _).symm fun _ => rfl
  | lib => exact h.write _ _ _ (List.take_append_drop flushed _).symm nofun

/-- At the end nothing is pending. -/
theorem Holds.afterExit (h : Holds fd old w) : fd.afterExit = w ++ old.drop w.length := by
  have hw := h.write fd.pending [] [] rfl fun _ => rfl
  rw [List.append_nil] at hw
  have hexit : fd.afterExit = (fd.write fd.pending).content := by
    unfold FileDesc.afterExit FileDesc.flush
    rw [List.take_length]
  have htake : (fd.write fd.pending).content.take (fd.write fd.pending).pos = w := by
    have hwritten := hw.written
    rwa [List.append_nil] at hwritten
  have hlen : w.length = (fd.write fd.pending).pos := by
    rw [← htake]
    exact List.length_take_of_le hw.pos_le
  calc fd.afterExit
      = (fd.write fd.pending).content.take (fd.write fd.pending).pos ++
          (fd.write fd.pending).content.drop (fd.write fd.pending).pos := by
        rw [hexit, List.take_append_drop]
    _ = w ++ old.drop w.length := by
        rw [htake, hlen]
        exact congrArg _ hw.rest

theorem fdOpenw_holds (mode : Mode) (file : Option (List UInt8)) :
    Holds (fdOpenw mode file) (fdOpenw mode file).content [] := by
  cases mode with
  | sys => exact ⟨rfl, rfl, Nat.zero_le _, fun _ => rfl⟩
  | lib => exact ⟨rfl, rfl, Nat.zero_le _, fun _ => rfl⟩

end

/-! ## What is copied -/

/-- A record that is there is read whole. -/
theorem fdRead_eq (fd : FileDesc) {buffer : List UInt8} {recordSize : ℕ}
    (h : recordSize ≤ (fd.content.drop fd.pos).length) (hb : buffer.length = recordSize) :
    fdRead fd buffer recordSize =
      ({ fd with pos := fd.pos + recordSize }, (fd.content.drop fd.pos).take recordSize) := by
  have hlen : ((fd.content.drop fd.pos).take recordSize).length = recordSize :=
    List.length_take_of_le h
  unfold fdRead
  simp only [hlen]
  rw [List.drop_of_length_le (Nat.le_of_eq hb), List.append_nil]

/-- The loop writes the next `n` records. -/
theorem copyLoop_holds (flushed : ℕ → ℕ) {recordSize n : ℕ} {file1 file2 : FileDesc}
    {old w buffer : List UInt8} (h : Holds file2 old w)
    (hsrc : n * recordSize ≤ (file1.content.drop file1.pos).length)
    (hb : buffer.length = recordSize) :
    Holds (copyLoop flushed recordSize n file1 file2 buffer) old
      (w ++ (file1.content.drop file1.pos).take (n * recordSize)) := by
  induction n generalizing file1 file2 w buffer with
  | zero =>
    rw [Nat.zero_mul, List.take_zero, List.append_nil]
    exact h
  | succ n ih =>
    rw [Nat.succ_mul] at hsrc
    have hread := fdRead_eq file1 (by omega) hb
    have hrecord : ((file1.content.drop file1.pos).take recordSize).length = recordSize :=
      List.length_take_of_le (by omega)
    have hstep := h.fdWrite ((file1.content.drop file1.pos).take recordSize) recordSize (flushed n)
    have hrest : n * recordSize ≤ (file1.content.drop (file1.pos + recordSize)).length := by
      rw [← List.drop_drop, List.length_drop]
      omega
    have hrec := @ih { file1 with pos := file1.pos + recordSize } _ _ _ hstep hrest hrecord
    rw [List.append_assoc, List.take_take, Nat.min_self, ← List.drop_drop, ← List.take_add,
      Nat.add_comm recordSize, ← Nat.succ_mul] at hrec
    show Holds (copyLoop flushed recordSize n (fdRead file1 buffer recordSize).1
      (fdWrite file2 (fdRead file1 buffer recordSize).2 recordSize (flushed n))
      (fdRead file1 buffer recordSize).2) old _
    rw [hread]
    exact hrec

variable (uninit : ℕ → UInt8) (flushed : ℕ → ℕ) {source : List UInt8}
  (destination : Option (List UInt8)) {recordCount recordSize : ℕ}

/-- The records, and behind them what the destination held when it was opened. -/
theorem opCopy_eq (hsrc : recordCount * recordSize ≤ source.length) (mode : Mode) :
    opCopy uninit flushed source destination recordCount recordSize mode =
      source.take (recordCount * recordSize) ++
        (fdOpenw mode destination).content.drop (recordCount * recordSize) := by
  have hb : ((List.range recordSize).map uninit).length = recordSize := by
    rw [List.length_map, List.length_range]
  have hloop := @copyLoop_holds flushed _ _ (fdOpenr mode source) _ _ _ _
    (fdOpenw_holds mode destination) hsrc hb
  calc opCopy uninit flushed source destination recordCount recordSize mode
      = source.take (recordCount * recordSize) ++
          (fdOpenw mode destination).content.drop
            (source.take (recordCount * recordSize)).length := hloop.afterExit
    _ = _ := by rw [List.length_take_of_le hsrc]

/-- Both modes leave the records, and nothing else, exactly when the destination
    was no longer than they are. -/
theorem modes_agree_iff (hsrc : recordCount * recordSize ≤ source.length) :
    (∀ mode, opCopy uninit flushed source destination recordCount recordSize mode =
      source.take (recordCount * recordSize)) ↔
      (destination.getD []).length ≤ recordCount * recordSize := by
  constructor
  · intro h
    have hsys := h .sys
    rw [opCopy_eq uninit flushed destination hsrc] at hsys
    exact List.drop_eq_nil_iff.mp (List.append_right_eq_self.mp hsys)
  · intro h mode
    rw [opCopy_eq uninit flushed destination hsrc]
    cases mode with
    | sys =>
      show _ ++ (destination.getD []).drop _ = _
      rw [List.drop_of_length_le h, List.append_nil]
    | lib =>
      show _ ++ ([] : List UInt8).drop _ = _
      rw [List.drop_nil, List.append_nil]

theorem modes_agree_iff_two :
    (∀ mode, opCopy (fun _ => 0) id [1, 2, 3, 4, 5] (some [9]) 2 2 mode = [1, 2, 3, 4]) ↔ 1 ≤ 4 :=
  modes_agree_iff (fun _ => 0) id (some [9]) (show 2 * 2 ≤ [1, 2, 3, 4, 5].length by decide)

/-- A longer destination keeps its end when `open` is used. -/
theorem end_kept :
    opCopy (fun _ => 0) id [1, 2] (some [7, 8, 9]) 1 2 .sys = [1, 2, 9] ∧
      opCopy (fun _ => 0) id [1, 2] (some [7, 8, 9]) 1 2 .lib = [1, 2] := by
  decide

/-! ## A short source -/

theorem length_fdRead (fd : FileDesc) {buffer : List UInt8} {recordSize : ℕ}
    (hb : buffer.length = recordSize) : (fdRead fd buffer recordSize).2.length = recordSize := by
  show (((fd.content.drop fd.pos).take recordSize) ++ buffer.drop _).length = recordSize
  have hle := List.length_take_le recordSize (fd.content.drop fd.pos)
  rw [List.length_append, List.length_drop]
  omega

/-- The loop writes whole records, whatever has been read. -/
theorem copyLoop_writes {n : ℕ} {file1 file2 : FileDesc} {old w buffer : List UInt8}
    (h : Holds file2 old w) (hb : buffer.length = recordSize) :
    ∃ w', w'.length = n * recordSize ∧
      Holds (copyLoop flushed recordSize n file1 file2 buffer) old (w ++ w') := by
  induction n generalizing file1 file2 w buffer with
  | zero => exact ⟨[], (Nat.zero_mul _).symm, by rwa [List.append_nil]⟩
  | succ n ih =>
    have hb' := length_fdRead file1 hb
    have hstep := h.fdWrite (fdRead file1 buffer recordSize).2 recordSize (flushed n)
    rw [List.take_of_length_le (Nat.le_of_eq hb')] at hstep
    obtain ⟨w', hlen, hrest⟩ := @ih (fdRead file1 buffer recordSize).1 _ _ _ hstep hb'
    refine ⟨(fdRead file1 buffer recordSize).2 ++ w', ?_, ?_⟩
    · rw [List.length_append, hb', hlen, Nat.succ_mul, Nat.add_comm]
    · rw [← List.append_assoc]
      exact hrest

theorem fdOpenw_new (mode : Mode) : (fdOpenw mode none).content = [] := by
  cases mode <;> rfl

/-- A new file has the length of the records, which the source need not have. -/
theorem length_opCopy_new (source : List UInt8) (recordCount recordSize : ℕ) (mode : Mode) :
    (opCopy uninit flushed source none recordCount recordSize mode).length =
      recordCount * recordSize := by
  have hb : ((List.range recordSize).map uninit).length = recordSize := by
    rw [List.length_map, List.length_range]
  obtain ⟨w, hlen, hloop⟩ := @copyLoop_writes flushed recordSize recordCount
    (fdOpenr mode source) _ _ _ _ (fdOpenw_holds mode none) hb
  have hexit : opCopy uninit flushed source none recordCount recordSize mode =
      w ++ (fdOpenw mode none).content.drop w.length := hloop.afterExit
  rw [hexit, fdOpenw_new, List.drop_nil, List.append_nil, hlen]

/-- The bytes of the source that are there are what a new file holds exactly when
    the records are there. -/
theorem short_source_iff (source : List UInt8) (recordCount recordSize : ℕ) (mode : Mode) :
    opCopy uninit flushed source none recordCount recordSize mode =
        source.take (min source.length (recordCount * recordSize)) ↔
      recordCount * recordSize ≤ source.length := by
  constructor
  · intro h
    have hlen := length_opCopy_new uninit flushed source recordCount recordSize mode
    rw [h, List.length_take] at hlen
    omega
  · intro h
    rw [opCopy_eq uninit flushed none h, Nat.min_eq_right h, fdOpenw_new, List.drop_nil,
      List.append_nil]

/-- What the buffer still holds is written for the second record. -/
theorem stale_bytes_written :
    opCopy (fun _ => 0) id [1] none 2 1 .sys = [1, 1] ∧
      opCopy (fun _ => 0) id [1] none 2 1 .sys ≠ List.take (min 1 (2 * 1)) [1] := by
  decide

end AghOs.Records
