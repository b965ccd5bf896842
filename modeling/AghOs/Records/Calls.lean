import AghOs.Machine.Integers
import AghOs.Machine.Programs
import AghOs.Records.Copy

/-!
# The operations and the calls they make

`op_generate`, `op_copy` and `op_sort` (`src/cw02/zad1/src/operations.c`) as
programs that make the calls of `file_desc.c`: `read`, `write` and `lseek` in one
mode, `fread`, `fwrite` and `fseek` in the other. A `file_desc` is passed by
value, so that each of the primitives returns its own copy, and the operations go
on with theirs.

* `opCopy_runs`: on descriptors that serve every call, `opCopy` does what
  `Records.opCopy` says.
-/

namespace AghOs.Records.Calls

/-- The calls, on one of the files that the operation has opened. -/
inductive Call
  | read (file : ℕ) (size : ℕ)
  | write (file : ℕ) (bytes : List UInt8)
  | seekSet (file : ℕ) (offset : ℤ)
  | seekCur (file : ℕ) (offset : ℤ)
  deriving DecidableEq

/-- What a call returns. `bytes` is what a `read` has stored. -/
structure Reply where
  failed : Bool
  bytes : List UInt8

abbrev Io := Prog Call Reply

/-- The answer to a call of files that are served by `serve`. -/
def answer {σ : Type} (serve : Bool → σ → Call → σ × List UInt8) (failed : Bool) (w : σ)
    (c : Call) : σ × Reply :=
  ((serve failed w c).1, ⟨failed, (serve failed w c).2⟩)

/-- `file_desc`; `file` stands for `unix_desc` and for the `FILE`. -/
structure FileDesc where
  error : ℤ
  mode : Mode
  file : ℕ

section Primitives

variable (mode : Mode) (file : ℕ) (opened : Bool)

/-- `open` or `fopen` has succeeded, or it has not. -/
def fdOpen : FileDesc := ⟨if opened then 0 else -1, mode, file⟩

def fdOpenr : FileDesc := fdOpen mode file opened

def fdOpenw : FileDesc := fdOpen mode file opened

def fdOpenrw : FileDesc := fdOpen mode file opened

end Primitives

section Primitives

variable (fd : FileDesc)

/-- The bytes that were read are at the start of the buffer. -/
def stored (buffer bytes : List UInt8) : List UInt8 := bytes ++ buffer.drop bytes.length

/-- `fd_read`; the result of `fread` is not looked at. -/
def fdRead (buffer : List UInt8) (recordSize : ℕ) : Io (FileDesc × List UInt8) := do
  let r ← Prog.perform (.read fd.file recordSize)
  match fd.mode with
  | .sys => if r.failed then return ({ fd with error := -1 }, buffer)
            else return (fd, stored buffer r.bytes)
  | .lib => return (fd, stored buffer r.bytes)

/-- `fd_write`; the result of `fwrite` is not looked at. -/
def fdWrite (buffer : List UInt8) (recordSize : ℕ) : Io FileDesc := do
  let r ← Prog.perform (.write fd.file (buffer.take recordSize))
  match fd.mode with
  | .sys => return if r.failed then { fd with error := -1 } else fd
  | .lib => return fd

/-- `fd_seek_row`: a `size_t` that is converted to `off_t` or to `long`. -/
def fdSeekRow (rowNo recordSize : ℕ) : Io FileDesc := do
  let r ← Prog.perform (.seekSet fd.file (toLong (toSize (rowNo * recordSize))))
  return if r.failed then { fd with error := -1 } else fd

/-- `fd_seek_row_rel`: an `int` is converted to `size_t` before it is multiplied. -/
def fdSeekRowRel (rowRel : ℤ) (recordSize : ℕ) : Io FileDesc := do
  let r ← Prog.perform (.seekCur fd.file (toLong (toSize (toSize rowRel * recordSize))))
  return if r.failed then { fd with error := -1 } else fd

end Primitives

/-! ## The operations -/

/-- A buffer of `recordSize` bytes on the stack. -/
def newBuffer (uninit : ℕ → UInt8) (recordSize : ℕ) : List UInt8 :=
  (List.range recordSize).map uninit

/-- `buffer[j] = buffer[j] % ('z' - 'a' + 1) + 'a'` for `j < recordSize - 1`. -/
def letters (buffer : List UInt8) (recordSize : ℕ) : List UInt8 :=
  (buffer.take (recordSize - 1)).map (fun c => c % 26 + 97) ++ buffer.drop (recordSize - 1)

/-- The loop of `op_generate` (lines 17–25), with so many records to go. -/
def generateLoop (file rnd : FileDesc) (recordSize : ℕ) : ℕ → List UInt8 → Io Unit
  | 0, _ => return
  | i + 1, buffer => do
    let (_, buffer) ← fdRead rnd buffer (recordSize - 1)
    let buffer := letters buffer recordSize
    let _ ← fdWrite file buffer recordSize
    generateLoop file rnd recordSize i buffer

/-- `op_generate`. Whether `/dev/urandom` could be opened is not looked at. A record has at
    least one byte: with `recordSize = 0` the source stores the newline in front of its
    buffer and reads `SIZE_MAX` bytes into it. -/
def opGenerate (uninit : ℕ → UInt8) (opened rndOpened : Bool) (recordCount recordSize : ℕ) :
    Io ℤ := do
  let buffer := (newBuffer uninit recordSize).set (recordSize - 1) 10
  let file := fdOpenw .sys 0 opened
  let rnd := fdOpenr .sys 1 rndOpened
  if file.error ≠ 0 then return 1
  generateLoop file rnd recordSize recordCount buffer
  return 0

/-- The loop of `op_copy` (lines 45–48), with so many records to go. -/
def copyLoop (file1 file2 : FileDesc) (recordSize : ℕ) : ℕ → List UInt8 → Io Unit
  | 0, _ => return
  | i + 1, buffer => do
    let (_, buffer) ← fdRead file1 buffer recordSize
    let _ ← fdWrite file2 buffer recordSize
    copyLoop file1 file2 recordSize i buffer

def opCopy (uninit : ℕ → UInt8) (opened1 opened2 : Bool) (recordCount recordSize : ℕ)
    (mode : Mode) : Io ℤ := do
  let buffer := newBuffer uninit recordSize
  let file1 := fdOpenr mode 0 opened1
  if file1.error ≠ 0 then return 1
  let file2 := fdOpenw mode 1 opened2
  if file2.error ≠ 0 then return 1
  copyLoop file1 file2 recordSize recordCount buffer
  return 0

/-- The inner loop of `op_sort` (lines 78–91) for a `nextPos` that is the argument. -/
def shiftLoop (file : FileDesc) (recordSize : ℕ) (inserted : List UInt8) :
    ℕ → List UInt8 → Io (List UInt8)
  | 0, next => return next
  | nextPos + 1, next => do
    let _ ← fdSeekRowRel file (-1) recordSize
    let (_, next) ← fdRead file next recordSize
    if next.headD 0 > inserted.headD 0 then
      let _ ← fdWrite file next recordSize
      let _ ← fdSeekRowRel file (-2) recordSize
      shiftLoop file recordSize inserted nextPos next
    else return next

/-- The outer loop of `op_sort` (lines 69–94), with so many records to go. -/
def sortLoop (file : FileDesc) (recordSize : ℕ) : ℕ → ℕ → List UInt8 → List UInt8 → Io Unit
  | 0, _, _, _ => return
  | left + 1, sortedEnd, next, inserted => do
    let _ ← fdSeekRow file (sortedEnd + 1) recordSize
    let (_, inserted) ← fdRead file inserted recordSize
    let _ ← fdSeekRowRel file (-1) recordSize
    let next ← shiftLoop file recordSize inserted (sortedEnd + 1) next
    let _ ← fdWrite file inserted recordSize
    sortLoop file recordSize left (sortedEnd + 1) next inserted

/-- `op_sort`. The loop is entered while `sortedEnd + 1 < recordCount`. -/
def opSort (uninit : ℕ → UInt8) (opened : Bool) (recordCount recordSize : ℕ) (mode : Mode) :
    Io ℤ := do
  let file := fdOpenrw mode 0 opened
  if file.error ≠ 0 then return 1
  let next := newBuffer uninit recordSize
  let inserted := newBuffer uninit recordSize
  sortLoop file recordSize (recordCount - 1) 0 next inserted
  return 0

/-! ## When every call is served -/

section

variable {σ : Type} (serve : Bool → σ → Call → σ × List UInt8) (w : σ) (fd : FileDesc)
  (buffer : List UInt8) (recordSize : ℕ)

theorem fdRead_runs :
    Prog.Runs (answer serve) w (fdRead fd buffer recordSize)
      (fd, stored buffer (serve false w (.read fd.file recordSize)).2)
      (serve false w (.read fd.file recordSize)).1 := by
  obtain ⟨error, mode, file⟩ := fd
  cases mode with
  | sys => exact ⟨rfl, rfl⟩
  | lib => exact ⟨rfl, rfl⟩

theorem fdWrite_runs :
    Prog.Runs (answer serve) w (fdWrite fd buffer recordSize) fd
      (serve false w (.write fd.file (buffer.take recordSize))).1 := by
  obtain ⟨error, mode, file⟩ := fd
  cases mode with
  | sys => exact ⟨rfl, rfl⟩
  | lib => exact ⟨rfl, rfl⟩

theorem fdSeekRow_runs (rowNo : ℕ) :
    Prog.Runs (answer serve) w (fdSeekRow fd rowNo recordSize) fd
      (serve false w (.seekSet fd.file (toLong (toSize (rowNo * recordSize))))).1 := ⟨rfl, rfl⟩

theorem fdSeekRowRel_runs (rowRel : ℤ) :
    Prog.Runs (answer serve) w (fdSeekRowRel fd rowRel recordSize) fd
      (serve false w (.seekCur fd.file (toLong (toSize (toSize rowRel * recordSize))))).1 :=
  ⟨rfl, rfl⟩

end

/-- The files of `Records.opCopy`, and the number of records that are still to be
    written. -/
structure CopyFiles where
  file1 : Records.FileDesc
  file2 : Records.FileDesc
  left : ℕ

/-- `flushed` is as in `Records.copyLoop`. -/
def CopyFiles.serve (flushed : ℕ → ℕ) (_failed : Bool) (w : CopyFiles) (c : Call) :
    CopyFiles × List UInt8 :=
  match c with
  | .read _ size =>
    let (file1, bytes) := Records.fdRead w.file1 [] size
    ({ w with file1 := file1 }, bytes)
  | .write _ bytes =>
    let file2 := Records.fdWrite w.file2 bytes bytes.length (flushed (w.left - 1))
    ({ w with file2 := file2, left := w.left - 1 }, [])
  | _ => (w, [])

section

variable (flushed : ℕ → ℕ) (file1 file2 : Records.FileDesc) (buffer : List UInt8) (recordSize : ℕ)

theorem copyFiles_read (fd : FileDesc) (n : ℕ) :
    Prog.Runs (answer (CopyFiles.serve flushed)) ⟨file1, file2, n⟩ (fdRead fd buffer recordSize)
      (fd, (Records.fdRead file1 buffer recordSize).2)
      ⟨(Records.fdRead file1 buffer recordSize).1, file2, n⟩ := by
  have hread := fdRead_runs (CopyFiles.serve flushed) ⟨file1, file2, n⟩ fd buffer recordSize
  have hbytes : ((file1.content.drop file1.pos).take recordSize ++ ([] : List UInt8).drop
      ((file1.content.drop file1.pos).take recordSize).length) =
      (file1.content.drop file1.pos).take recordSize := by
    rw [List.drop_nil, List.append_nil]
  have hstored : stored buffer (Records.fdRead file1 [] recordSize).2 =
      (Records.fdRead file1 buffer recordSize).2 :=
    congrArg (stored buffer) hbytes
  rw [← hstored]
  exact hread

theorem copyFiles_write (fd : FileDesc) (n : ℕ) :
    Prog.Runs (answer (CopyFiles.serve flushed)) ⟨file1, file2, n + 1⟩
      (fdWrite fd buffer recordSize) fd
      ⟨file1, Records.fdWrite file2 buffer recordSize (flushed n), n⟩ := by
  have hwrite := fdWrite_runs (CopyFiles.serve flushed) ⟨file1, file2, n + 1⟩ fd buffer recordSize
  have htake : Records.fdWrite file2 (buffer.take recordSize) (buffer.take recordSize).length
      (flushed n) = Records.fdWrite file2 buffer recordSize (flushed n) := by
    unfold Records.fdWrite
    rw [List.take_length]
  rw [← htake]
  exact hwrite

theorem copyLoop_runs (fd1 fd2 : FileDesc) (n : ℕ) :
    ∃ w, Prog.Runs (answer (CopyFiles.serve flushed)) ⟨file1, file2, n⟩
        (copyLoop fd1 fd2 recordSize n buffer) () w ∧
      w.file2 = Records.copyLoop flushed recordSize n file1 file2 buffer := by
  induction n generalizing file1 file2 buffer with
  | zero => exact ⟨_, .ret, rfl⟩
  | succ n ih =>
    obtain ⟨w, hrest, hw⟩ := ih (Records.fdRead file1 buffer recordSize).1 _
      (Records.fdRead file1 buffer recordSize).2
    exact ⟨w, (copyFiles_read flushed _ _ _ _ fd1 _).bind
      ((copyFiles_write flushed _ _ _ _ fd2 n).bind hrest), hw⟩

/-- The destination when the program has exited is the one of `Records.opCopy`. -/
theorem opCopy_runs (uninit : ℕ → UInt8) (source : List UInt8) (destination : Option (List UInt8))
    (recordCount : ℕ) (mode : Mode) :
    ∃ w, Prog.Runs (answer (CopyFiles.serve flushed))
        ⟨Records.fdOpenr mode source, Records.fdOpenw mode destination, recordCount⟩
        (opCopy uninit true true recordCount recordSize mode) 0 w ∧
      w.file2.afterExit =
        Records.opCopy uninit flushed source destination recordCount recordSize mode := by
  obtain ⟨w, hloop, hw⟩ := copyLoop_runs flushed (Records.fdOpenr mode source)
    (Records.fdOpenw mode destination) (newBuffer uninit recordSize) recordSize
    (fdOpenr mode 0 true) (fdOpenw mode 1 true) recordCount
  exact ⟨w, hloop.bind .ret, congrArg Records.FileDesc.afterExit hw⟩

end

/-! ## A regular file -/

/-- A file that is open for reading and writing. `strayed`: there has been a seek
    to before the start, which has been refused. -/
structure OpenFile where
  content : List UInt8
  pos : ℕ
  strayed : Bool
  deriving DecidableEq

namespace OpenFile

def seekTo (f : OpenFile) (offset : ℤ) : OpenFile :=
  if offset < 0 then { f with strayed := true } else { f with pos := offset.toNat }

/-- Exact reads, writes and seeks. A failed call does nothing. -/
def serve (failed : Bool) (f : OpenFile) (c : Call) : OpenFile × List UInt8 :=
  if failed then (f, []) else
  match c with
  | .read _ size =>
    let bytes := (f.content.drop f.pos).take size
    ({ f with pos := f.pos + bytes.length }, bytes)
  | .write _ bytes =>
    ({ f with content := writeAt f.content f.pos bytes, pos := f.pos + bytes.length }, [])
  | .seekSet _ offset => (f.seekTo offset, [])
  | .seekCur _ offset => (f.seekTo (f.pos + offset), [])

end OpenFile

end AghOs.Records.Calls
