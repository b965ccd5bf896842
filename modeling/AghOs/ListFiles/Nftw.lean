import AghOs.ListFiles.Tree

/-!
# Listing with `nftw`

The walker of `src/cw02/zad2/src/list_files_nftw.c` on the same trees. `nftw` with
`FTW_PHYS` calls its function for every object: with `FTW_D` for directories,
`FTW_SL` for symbolic links and `FTW_F` for all others. Its paths are joined as
those of the other walker.

* `walkers_agree_iff`: both builds print the same lines if and only if `check_time`
  selects no FIFO, socket or device.
* `fifo_listed`: a FIFO that only `nftw` prints.
-/

namespace AghOs.ListFiles

inductive TypeFlag
  | d | f | sl
  deriving DecidableEq

/-- The arguments of the function that `nftw` calls. -/
structure Visit where
  fpath : Path
  sb : Stat
  typeflag : TypeFlag

mutual

/-- The calls for what is at a path. -/
def Node.nftw (path : Path) : Node → List Visit
  | .file kind st => [⟨path, st, if kind = .lnk then .sl else .f⟩]
  | .dir st stream => ⟨path, st, .d⟩ :: stream.nftw path

def Stream.nftw (dirname : Path) : Stream → List Visit
  | .nil => []
  | .dot rest => rest.nftw dirname
  | .dotDot rest => rest.nftw dirname
  | .entry name node rest => node.nftw (join dirname name) ++ rest.nftw dirname

end

section

variable (cal : Calendar) (cond : Cond) (date : Date)

def treewalk (v : Visit) : List (List UInt8) :=
  if v.typeflag ≠ .f then []
  else if checkTime cal v.sb.mtime cond date ≠ 0 then []
  else [line cal v.fpath v.sb]

/-- `list_files` of `list_files_nftw.c`. -/
def listFilesNftw (dirname : Path) (root : Node) : List (List UInt8) :=
  (root.nftw dirname).flatMap (treewalk cal cond date)

end

section

variable {cal : Calendar} {cond : Cond} {date : Date} {l : List UInt8} {o : Obj}

mutual

theorem mem_nftw_node {path : Path} : ∀ {node : Node},
    l ∈ (node.nftw path).flatMap (treewalk cal cond date) ↔
      ∃ o ∈ node.objects path, o.kind ≠ .lnk ∧ checkTime cal o.st.mtime cond date = 0 ∧
        l = line cal o.path o.st
  | .file kind st => by
    rw [Node.nftw, Node.objects, List.flatMap_singleton, treewalk]
    by_cases hk : kind = .lnk <;> by_cases hc : checkTime cal st.mtime cond date = 0 <;>
      simp [hk, hc]
  | .dir st stream => by
    rw [Node.nftw, Node.objects, List.flatMap_cons]
    exact mem_nftw

theorem mem_nftw {dirname : Path} : ∀ {stream : Stream},
    l ∈ (stream.nftw dirname).flatMap (treewalk cal cond date) ↔
      ∃ o ∈ stream.objects dirname, o.kind ≠ .lnk ∧ checkTime cal o.st.mtime cond date = 0 ∧
        l = line cal o.path o.st
  | .nil => by simp [Stream.nftw, Stream.objects]
  | .dot rest => by
    rw [Stream.nftw, Stream.objects]
    exact mem_nftw
  | .dotDot rest => by
    rw [Stream.nftw, Stream.objects]
    exact mem_nftw
  | .entry name node rest => by
    rw [Stream.nftw, Stream.objects, List.flatMap_append, List.mem_append, mem_nftw_node, mem_nftw]
    simp only [List.mem_append, or_and_right, exists_or]

end

theorem mem_listFiles {dirname : Path} {stream : Stream} :
    l ∈ listFiles cal cond date dirname stream ↔
      ∃ o ∈ stream.objects dirname, o.kind = .reg ∧ checkTime cal o.st.mtime cond date = 0 ∧
        l = line cal o.path o.st := by
  rw [listFiles_eq, List.mem_flatMap]
  refine exists_congr fun o => and_congr_right fun _ => ?_
  by_cases hk : o.kind = .reg <;> by_cases hc : checkTime cal o.st.mtime cond date = 0 <;>
    simp [Obj.regLines, hk, hc]

/-- The two builds print the same lines if and only if `check_time` selects no
    object that is neither a regular file nor a symbolic link. -/
theorem walkers_agree_iff {dirname : Path} {stream : Stream} (st : Stat)
    (hroot : dirname.head? = some 47) (hwf : stream.Wf) :
    (∀ l, l ∈ listFiles cal cond date dirname stream ↔
        l ∈ listFilesNftw cal cond date dirname (.dir st stream)) ↔
      ∀ o ∈ stream.objects dirname, o.kind ≠ .reg → o.kind ≠ .lnk →
        checkTime cal o.st.mtime cond date ≠ 0 := by
  constructor
  · intro h o ho hreg hlnk hsel
    have hmem : line cal o.path o.st ∈ listFilesNftw cal cond date dirname (.dir st stream) :=
      mem_nftw_node.mpr ⟨o, ho, hlnk, hsel, rfl⟩
    obtain ⟨o', ho', hreg', -, hline⟩ := mem_listFiles.mp ((h _).mpr hmem)
    have hp := line_path hline (head?_of_mem hroot ho) (head?_of_mem hroot ho')
    exact hreg (path_unique hwf ho ho' hp ▸ hreg')
  · intro h l
    refine mem_listFiles.trans (Iff.trans ?_ mem_nftw_node.symm)
    refine exists_congr fun o => and_congr_right fun ho => and_congr_left fun hsel => ?_
    constructor
    · intro hreg
      rw [hreg]
      exact nofun
    · intro hlnk
      by_contra hreg
      exact h o ho hreg hlnk hsel.1

end

/-- Midday of 17 March 2018 in a time zone without an offset. -/
def march : Calendar := ⟨fun _ => ⟨118, 2, 17⟩, fun _ => ⟨118, 2, 17⟩⟩

/-- `a` -/
def nameA : Name := ⟨[97], by decide, by decide, by decide, by decide⟩

/-- `b` -/
def nameB : Name := ⟨[98], by decide, by decide, by decide, by decide⟩

/-- An entry `a` in a directory, between `.` and `..`. -/
def oneEntry (kind : Kind) : Stream :=
  .dot (.entry nameA (.file kind ⟨0o644, 1521288000, 5⟩) (.dotDot .nil))

theorem wf_oneEntry (kind : Kind) : (oneEntry kind).Wf := ⟨List.not_mem_nil, trivial, trivial⟩

theorem walkers_agree_iff_one :
    line march [47, 97] ⟨0o644, 1521288000, 5⟩ ∈
        listFiles march .eq ⟨2018, 3, 17⟩ [47] (oneEntry .reg) ↔
      line march [47, 97] ⟨0o644, 1521288000, 5⟩ ∈
        listFilesNftw march .eq ⟨2018, 3, 17⟩ [47]
          (.dir ⟨0o755, 1521288000, 4096⟩ (oneEntry .reg)) := by
  refine (walkers_agree_iff _ rfl (wf_oneEntry .reg)).mpr (fun o ho hreg => ?_) _
  obtain rfl := List.mem_singleton.mp ho
  exact absurd rfl hreg

/-- A FIFO is printed with `nftw` only. -/
theorem fifo_listed :
    listFiles march .eq ⟨2018, 3, 17⟩ [47] (oneEntry .fifo) = [] ∧
      listFilesNftw march .eq ⟨2018, 3, 17⟩ [47]
        (.dir ⟨0o755, 1521288000, 4096⟩ (oneEntry .fifo)) =
          [line march [47, 97] ⟨0o644, 1521288000, 5⟩] :=
  ⟨rfl, rfl⟩

end AghOs.ListFiles
