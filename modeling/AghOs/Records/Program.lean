import AghOs.Machine.Scanf
import AghOs.Records.Generate

/-!
# The program for record files

`main` of `cw02/zad1` (`src/main.c`, lines 27–89) on a system of regular files. Files can
be written if they can be opened at all, and no call fails. `place` gives the file that a
name stands for, whether it is there or not: `a` and `./a` are two names of one file. A
copy is to another file.

What `main` does with a mode that is neither `sys` nor `lib` depends on the type that
the compiler gives `enum mode`; there the model returns `none`.

* `sortRecords_rows`: a file of rows is sorted.
* `generate_sort_copy`: the three commands, one after the other.
-/

namespace AghOs.Records.Calls

/-- What the files hold that are there. -/
abbrev Files (Place : Type) := Place → Option (List UInt8)

/-- What a run of the program finds: the stack, how `stdio` writes out its buffer, and
    `/dev/urandom`. -/
structure Env where
  uninit : ℕ → UInt8
  flushed : ℕ → ℕ
  random : ℕ → List UInt8

section

variable {Place : Type} [DecidableEq Place]

/-- `op_generate` -/
def generateRecords (env : Env) (fs : Files Place) (file : Place) (recordCount recordSize : ℕ) :
    Files Place :=
  let o := (opGenerate env.uninit true true recordCount recordSize).run
    (answer (GenerateFiles.serve env.random)) Prog.noFailure
    ⟨Records.fdOpenw .sys (fs file), 0⟩
  Function.update fs file (some o.world.file.afterExit)

/-- `op_sort`. A file that does not exist is not opened. -/
def sortRecords (env : Env) (fs : Files Place) (file : Place) (recordCount recordSize : ℕ)
    (mode : Mode) : Files Place :=
  match fs file with
  | none => fs
  | some content =>
    let o := (opSort env.uninit true recordCount recordSize mode).run (answer OpenFile.serve)
      Prog.noFailure ⟨content, 0, false⟩
    Function.update fs file (some o.world.content)

/-- `op_copy`, to another file. -/
def copyRecords (env : Env) (fs : Files Place) (file file2 : Place)
    (recordCount recordSize : ℕ) (mode : Mode) : Files Place :=
  match fs file with
  | none => fs
  | some content =>
    let o := (opCopy env.uninit true true recordCount recordSize mode).run
      (answer (CopyFiles.serve env.flushed)) Prog.noFailure
      ⟨Records.fdOpenr mode content, Records.fdOpenw mode (fs file2), recordCount⟩
    Function.update fs file2 (some o.world.file2.afterExit)

end

/-! ## `main` -/

/-- `generate`, `sort` and `copy` -/
inductive Command
  | generate | sort | copy

def Command.text : Command → List UInt8
  | generate => [103, 101, 110, 101, 114, 97, 116, 101]
  | sort => [115, 111, 114, 116]
  | copy => [99, 111, 112, 121]

def modeText : Mode → List UInt8
  | .sys => [115, 121, 115]
  | .lib => [108, 105, 98]

/-- `parse_mode` -/
def parseMode (m : List UInt8) : Option Mode :=
  if m = modeText .sys then some .sys
  else if m = modeText .lib then some .lib
  else none

section

variable {Place : Type} [DecidableEq Place] (place : List UInt8 → Place)

/-- `main`: the value returned, and the files. -/
def main (env : Env) (fs : Files Place) (argv : List (List UInt8)) : Option (ℤ × Files Place) :=
  match argv with
  | [_, op, filename, count, size] =>
    if op = Command.generate.text then
      some (0, generateRecords env fs (place filename) (toSize (atoi count)) (toSize (atoi size)))
    else some (1, fs)
  | [_, op, filename, count, size, mode] =>
    if op = Command.sort.text then
      (parseMode mode).map fun mode =>
        (0, sortRecords env fs (place filename) (toSize (atoi count)) (toSize (atoi size)) mode)
    else some (1, fs)
  | [_, op, filename, filename2, count, size, mode] =>
    if op = Command.copy.text then
      if place filename = place filename2 then none
      else (parseMode mode).map fun mode =>
        (0, copyRecords env fs (place filename) (place filename2) (toSize (atoi count))
          (toSize (atoi size)) mode)
    else some (1, fs)
  | _ => some (1, fs)

@[simp] theorem parseMode_modeText (mode : Mode) : parseMode (modeText mode) = some mode := by
  cases mode with
  | sys => rfl
  | lib => rfl

variable (env : Env) (fs : Files Place) (program filename filename2 count size : List UInt8)

theorem main_generate :
    main place env fs [program, Command.generate.text, filename, count, size] =
      some (0, generateRecords env fs (place filename) (toSize (atoi count))
        (toSize (atoi size))) := rfl

theorem main_sort (mode : Mode) :
    main place env fs [program, Command.sort.text, filename, count, size, modeText mode] =
      some (0, sortRecords env fs (place filename) (toSize (atoi count)) (toSize (atoi size))
        mode) := by
  show (parseMode (modeText mode)).map _ = _
  rw [parseMode_modeText]
  rfl

variable {filename filename2}

theorem main_copy (hne : place filename ≠ place filename2) (mode : Mode) :
    main place env fs
        [program, Command.copy.text, filename, filename2, count, size, modeText mode] =
      some (0, copyRecords env fs (place filename) (place filename2) (toSize (atoi count))
        (toSize (atoi size)) mode) := by
  show (if place filename = place filename2 then none else (parseMode (modeText mode)).map _) = _
  rw [if_neg hne, parseMode_modeText]
  rfl

end

/-! ## The operations on rows -/

theorem sort_rows (uninit : ℕ → UInt8) {recordSize : ℕ} {rs : List (List UInt8)}
    (hrs : ∀ r ∈ rs, r.length = recordSize) (hsize : rs.length * recordSize < 2 ^ 63)
    (rest : List UInt8) (mode : Mode) :
    ∃ f sorted,
      Prog.Runs (answer OpenFile.serve) ⟨rs.flatten ++ rest, 0, false⟩
        (opSort uninit true rs.length recordSize mode) 0 f ∧
      StableSort firstByte rs sorted ∧ f.content = sorted.flatten ++ rest := by
  have hbuffer : (newBuffer uninit recordSize).length = recordSize := by
    unfold newBuffer
    rw [List.length_map, List.length_range]
  cases rs with
  | nil => exact ⟨_, [], .bind .ret .ret, ⟨.refl _, .nil, fun _ => rfl⟩, rfl⟩
  | cons r rs =>
    have hstart : Between recordSize rest [] (r :: rs) ⟨(r :: rs).flatten ++ rest, 0, false⟩ :=
      ⟨rfl, (Nat.zero_mul _).symm, hrs, rfl⟩
    have hone : StableSort firstByte [r] [r] :=
      ⟨.refl _, List.pairwise_singleton _ _, fun _ => rfl⟩
    obtain ⟨f, as, bs, hloop, h, hs⟩ := sortLoop_runs (fdOpenrw mode 0 true) hstart
      (show [r] ++ rs = [] ++ r :: rs from rfl) hone rfl hbuffer hbuffer hsize
    exact ⟨f, as ++ bs, hloop.bind .ret, hs, h.content⟩

section

variable {Place : Type} [DecidableEq Place] (env : Env) (fs : Files Place) (file : Place)
  {recordSize : ℕ}

theorem generateRecords_rows (recordCount : ℕ) (hpos : 1 ≤ recordSize) :
    ∃ rs : List (List UInt8), rs.length = recordCount ∧ (∀ r ∈ rs, IsRecord recordSize r) ∧
      generateRecords env fs file recordCount recordSize =
        Function.update fs file
          (some (rs.flatten ++ ((fs file).getD []).drop (recordCount * recordSize))) := by
  obtain ⟨w, rs, hrun, hlen, hrs, hw⟩ := opGenerate_runs env.uninit env.random (fs file)
    recordCount hpos
  refine ⟨rs, hlen, hrs, ?_⟩
  unfold generateRecords
  simp only [hrun.world, hw]

variable {fs file} {rs : List (List UInt8)} {rest : List UInt8}

theorem sortRecords_rows (hfs : fs file = some (rs.flatten ++ rest))
    (hrs : ∀ r ∈ rs, r.length = recordSize) (hsize : rs.length * recordSize < 2 ^ 63)
    (mode : Mode) :
    ∃ sorted, StableSort firstByte rs sorted ∧
      sortRecords env fs file rs.length recordSize mode =
        Function.update fs file (some (sorted.flatten ++ rest)) := by
  obtain ⟨f, sorted, hrun, hs, hf⟩ := sort_rows env.uninit hrs hsize rest mode
  refine ⟨sorted, hs, ?_⟩
  unfold sortRecords
  simp only [hfs, hrun.world, hf]

theorem copyRecords_rows (hfs : fs file = some (rs.flatten ++ rest))
    (hrs : ∀ r ∈ rs, r.length = recordSize) (file2 : Place) (mode : Mode) :
    copyRecords env fs file file2 rs.length recordSize mode =
      Function.update fs file2 (some (rs.flatten ++
        (Records.fdOpenw mode (fs file2)).content.drop (rs.length * recordSize))) := by
  have hlen := length_flatten_rows hrs
  obtain ⟨w, hrun, hw⟩ := opCopy_runs env.flushed recordSize env.uninit (rs.flatten ++ rest)
    (fs file2) rs.length mode
  have hsrc : rs.length * recordSize ≤ (rs.flatten ++ rest).length := by
    rw [List.length_append, hlen]
    exact Nat.le_add_right _ _
  rw [Records.opCopy_eq env.uninit env.flushed (fs file2) hsrc, ← hlen,
    List.take_left] at hw
  unfold copyRecords
  simp only [hfs, hrun.world, hw, hlen]

end

/-! ## A session -/

/-- Generating, sorting and copying: what is copied is the stable sort of records of
    small letters, behind them is what was there, and no other file has changed. -/
theorem generate_sort_copy {Place : Type} [DecidableEq Place] (place : List UInt8 → Place)
    (env₁ env₂ env₃ : Env) (fs : Files Place) {filename filename2 : List UInt8}
    (hne : place filename ≠ place filename2) {count size : Numeral} (hcount : 0 ≤ count.value)
    (hcount' : count.value < 2 ^ 31) (hsize : 1 ≤ size.value) (hsize' : size.value < 2 ^ 31)
    (program : List UInt8) (mode mode2 : Mode) :
    ∃ (fs₁ fs₂ fs₃ : Files Place) (rs sorted : List (List UInt8)),
      main place env₁ fs [program, Command.generate.text, filename, count.text, size.text] =
        some (0, fs₁) ∧
      main place env₂ fs₁ [program, Command.sort.text, filename, count.text, size.text,
        modeText mode] = some (0, fs₂) ∧
      main place env₃ fs₂ [program, Command.copy.text, filename, filename2, count.text, size.text,
        modeText mode2] = some (0, fs₃) ∧
      rs.length = count.value.toNat ∧ (∀ r ∈ rs, IsRecord size.value.toNat r) ∧
      StableSort firstByte rs sorted ∧
      fs₁ (place filename) = some (rs.flatten ++
        ((fs (place filename)).getD []).drop (count.value.toNat * size.value.toNat)) ∧
      fs₃ (place filename) = some (sorted.flatten ++
        ((fs (place filename)).getD []).drop (count.value.toNat * size.value.toNat)) ∧
      fs₃ (place filename2) = some (sorted.flatten ++
        (Records.fdOpenw mode2 (fs (place filename2))).content.drop
          (count.value.toNat * size.value.toNat)) ∧
      ∀ other, other ≠ place filename → other ≠ place filename2 → fs₃ other = fs other := by
  obtain ⟨n, hn⟩ := Int.eq_ofNat_of_zero_le hcount
  obtain ⟨s, hs⟩ := Int.eq_ofNat_of_zero_le (show 0 ≤ size.value by omega)
  have hn' : toSize (atoi count.text) = n := by
    rw [count.atoi_text (by omega) hcount', hn]
    exact toSize_natCast (by omega)
  have hs' : toSize (atoi size.text) = s := by
    rw [size.atoi_text (by omega) hsize', hs]
    exact toSize_natCast (by omega)
  have harea : n * s < 2 ^ 63 := by
    calc n * s ≤ 2 ^ 31 * 2 ^ 31 := Nat.mul_le_mul (by omega) (by omega)
      _ < 2 ^ 63 := by decide
  rw [hn, hs, Int.toNat_natCast, Int.toNat_natCast]
  obtain ⟨rs, hlen, hrs, hgen⟩ :=
    generateRecords_rows env₁ fs (place filename) n (show 1 ≤ s by omega)
  have hrows : ∀ r ∈ rs, r.length = s := fun r hr => (hrs r hr).length
  generalize ((fs (place filename)).getD []).drop (n * s) = rest at hgen ⊢
  subst hlen
  obtain ⟨sorted, hsort, hsorted⟩ := sortRecords_rows env₂
    (Function.update_self (place filename) (some (rs.flatten ++ rest)) fs) hrows harea mode
  rw [Function.update_idem] at hsorted
  have hcopied := copyRecords_rows env₃
    (Function.update_self (place filename) (some (sorted.flatten ++ rest)) fs)
    (fun r hr => hrows r (hsort.perm.subset hr)) (place filename2) mode2
  rw [hsort.perm.length_eq, Function.update_of_ne hne.symm] at hcopied
  have hmain₁ := main_generate place env₁ fs program filename count.text size.text
  have hmain₂ := main_sort place env₂
    (Function.update fs (place filename) (some (rs.flatten ++ rest))) program filename count.text
    size.text mode
  have hmain₃ := main_copy place env₃
    (Function.update fs (place filename) (some (sorted.flatten ++ rest))) program count.text
    size.text hne mode2
  rw [hn', hs'] at hmain₁ hmain₂ hmain₃
  rw [hgen] at hmain₁
  rw [hsorted] at hmain₂
  rw [hcopied] at hmain₃
  refine ⟨_, _, _, rs, sorted, hmain₁, hmain₂, hmain₃, rfl, hrs, hsort, Function.update_self ..,
    ?_, Function.update_self .., ?_⟩
  · rw [Function.update_of_ne hne, Function.update_self]
  · intro other h h2
    rw [Function.update_of_ne h2, Function.update_of_ne h]

/-- The stack and `/dev/urandom` hold nothing but `0`. -/
def zeros : Env := ⟨fun _ => 0, id, fun _ => []⟩

/-- `./` in front of a name makes no difference. -/
def withoutDot : List UInt8 → List UInt8
  | 46 :: 47 :: name => name
  | name => name

/-- Two records of three bytes, to new files; what is written, sorted and copied as `./a`
    is `a`. -/
theorem generate_sort_copy_two :
    ∃ (fs₁ fs₂ fs₃ : Files (List UInt8)) (rs sorted : List (List UInt8)),
      main withoutDot zeros (fun _ => none)
        [[112], Command.generate.text, [46, 47, 97], [50], [51]] = some (0, fs₁) ∧
      main withoutDot zeros fs₁
        [[112], Command.sort.text, [46, 47, 97], [50], [51], modeText .lib] = some (0, fs₂) ∧
      main withoutDot zeros fs₂
        [[112], Command.copy.text, [46, 47, 97], [98], [50], [51], modeText .sys] = some (0, fs₃) ∧
      rs.length = 2 ∧ (∀ r ∈ rs, IsRecord 3 r) ∧ StableSort firstByte rs sorted ∧
      fs₃ [97] = some (sorted.flatten ++ []) ∧ fs₃ [98] = some (sorted.flatten ++ []) := by
  obtain ⟨fs₁, fs₂, fs₃, rs, sorted, h₁, h₂, h₃, hlen, hrs, hsort, -, hsource, hcopied, -⟩ :=
    @generate_sort_copy _ _ withoutDot zeros zeros zeros (fun _ => none) [46, 47, 97] [98]
      (by decide)
      ⟨.none, [50], by decide, by simp [isDigit]⟩ ⟨.none, [51], by decide, by simp [isDigit]⟩
      (by decide) (by decide) (by decide) (by decide) [112] .lib .sys
  exact ⟨fs₁, fs₂, fs₃, rs, sorted, h₁, h₂, h₃, hlen, hrs, hsort, hsource, hcopied⟩

end AghOs.Records.Calls
