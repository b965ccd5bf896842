import AghOs.Machine.Integers
import AghOs.Machine.Scanf

/-!
# Listing a directory tree

Directory trees and the sequential walker of `src/cw02/zad2/src` (`list_files.c`
and `list_files_dir.c`). A tree is what `lstat` and `readdir` say of it; nothing
fails, and no path is longer than `PATH_MAX`. A directory that is closed and opened
again continues at the same entry, so `CLOSE_DIRS` makes no difference.

`gmtime` and `localtime` are parameters. A line is what is printed for a file, its
newline included.

* `listFiles_eq`: the walker prints a line for each regular file that `check_time`
  selects.
* `path_unique`: a path in a tree is the path of one object.
* `line_path`: a line determines the path in it.
-/

namespace AghOs.ListFiles

/-! ## Trees -/

/-- What is not a directory. -/
inductive Kind
  | reg | lnk | fifo | sock | blk | chr
  deriving DecidableEq

/-- `struct stat`; `mode` is the permission bits. -/
structure Stat where
  mode : ℕ
  mtime : ℤ
  size : ℕ

abbrev Path := List UInt8

/-- A `d_name` other than `.` and `..`. -/
structure Name where
  bytes : List UInt8
  ne_nil : bytes ≠ []
  slash : 47 ∉ bytes
  ne_dot : bytes ≠ [46]
  ne_dotDot : bytes ≠ [46, 46]

mutual

/-- An object of the file system. -/
inductive Node
  | file (kind : Kind) (st : Stat)
  | dir (st : Stat) (stream : Stream)

/-- What `readdir` returns of a directory, one entry after the other. -/
inductive Stream
  | nil
  | dot (rest : Stream)
  | dotDot (rest : Stream)
  | entry (name : Name) (node : Node) (rest : Stream)

end

def Stream.names : Stream → List (List UInt8)
  | .nil => []
  | .dot rest => rest.names
  | .dotDot rest => rest.names
  | .entry name _ rest => name.bytes :: rest.names

mutual

/-- The names in a directory are distinct. -/
def Node.Wf : Node → Prop
  | .file _ _ => True
  | .dir _ stream => stream.Wf

def Stream.Wf : Stream → Prop
  | .nil => True
  | .dot rest => rest.Wf
  | .dotDot rest => rest.Wf
  | .entry name node rest => name.bytes ∉ rest.names ∧ node.Wf ∧ rest.Wf

end

/-! ## Lines -/

/-- The fields of `struct tm` that are used. -/
structure Tm where
  year : ℤ
  mon : ℤ
  mday : ℤ

/-- `gmtime` and `localtime`. -/
structure Calendar where
  gmtime : ℤ → Tm
  localtime : ℤ → Tm

inductive Cond
  | lt | eq | gt

structure Date where
  year : ℤ
  month : ℤ
  day : ℤ

/-- `%0*d` -/
def zeroPadded (width : ℕ) (n : ℤ) : List UInt8 :=
  let sign := if n < 0 then [45] else []
  let digits := decimal n.natAbs
  sign ++ List.replicate (width - sign.length - digits.length) 48 ++ digits

/-- `%*lu` -/
def spacePadded (width n : ℕ) : List UInt8 :=
  List.replicate (width - (decimal n).length) 32 ++ decimal n

def printSize (st : Stat) : List UInt8 := spacePadded 8 st.size ++ [32]

def printLastMod (cal : Calendar) (st : Stat) : List UInt8 :=
  let tm := cal.localtime st.mtime
  zeroPadded 4 (toInt (tm.year + 1900)) ++ [45] ++ zeroPadded 2 (toInt (tm.mon + 1)) ++ [45] ++
    zeroPadded 2 tm.mday ++ [32]

def printAccess0 (test : ℕ) (iftrue : UInt8) : List UInt8 :=
  if test ≠ 0 then [iftrue] else [45]

def printAccess (st : Stat) : List UInt8 :=
  let mode := st.mode
  printAccess0 (mode &&& 0o400) 114 ++ printAccess0 (mode &&& 0o200) 119 ++
    printAccess0 (mode &&& 0o100) 120 ++ printAccess0 (mode &&& 0o040) 114 ++
    printAccess0 (mode &&& 0o020) 119 ++ printAccess0 (mode &&& 0o010) 120 ++
    printAccess0 (mode &&& 0o004) 114 ++ printAccess0 (mode &&& 0o002) 119 ++
    printAccess0 (mode &&& 0o001) 120 ++ [32]

def checkTime (cal : Calendar) (left : ℤ) (cond : Cond) (date : Date) : ℤ :=
  let ll := cal.gmtime left
  let cmp : ℤ :=
    if ll.year > toInt (date.year - 1900) then 1
    else if ll.year < toInt (date.year - 1900) then -1
    else if ll.mon > toInt (date.month - 1) then 1
    else if ll.mon < toInt (date.month - 1) then -1
    else if ll.mday > date.day then 1
    else if ll.mday < date.day then -1
    else 0
  match cond with
  | .lt => if cmp < 0 then 0 else 1
  | .gt => if cmp > 0 then 0 else 1
  | .eq => if cmp = 0 then 0 else 1

/-- What is printed for a file. -/
def line (cal : Calendar) (path : Path) (st : Stat) : List UInt8 :=
  printAccess st ++ printLastMod cal st ++ printSize st ++ path ++ [10]

/-! ## The walker -/

/-- `path` after the first two calls of `strcat`. -/
def slashed (dirname : Path) : Path :=
  if dirname.getLast? = some 47 then dirname else dirname ++ [47]

/-- `path` after the last call of `strcat`. -/
def join (dirname : Path) (name : Name) : Path := slashed dirname ++ name.bytes

section

variable (cal : Calendar) (cond : Cond) (date : Date)

mutual

/-- `list_file`: the lines printed for what is at a path. -/
def listFile (filename : Path) : Node → List (List UInt8)
  | .dir _ stream => listFiles filename stream
  | .file kind st =>
    if kind = .reg then
      if checkTime cal st.mtime cond date ≠ 0 then [] else [line cal filename st]
    else []

/-- `list_files`, from some entry on. -/
def listFiles (dirname : Path) : Stream → List (List UInt8)
  | .nil => []
  | .dot rest => listFiles dirname rest
  | .dotDot rest => listFiles dirname rest
  | .entry name node rest => listFile (join dirname name) node ++ listFiles dirname rest

end

end

/-! ## The objects of a tree -/

/-- An object with its path. -/
structure Obj where
  path : Path
  kind : Kind
  st : Stat

mutual

/-- The objects of a tree that are not directories. -/
def Node.objects (path : Path) : Node → List Obj
  | .file kind st => [⟨path, kind, st⟩]
  | .dir _ stream => stream.objects path

def Stream.objects (dirname : Path) : Stream → List Obj
  | .nil => []
  | .dot rest => rest.objects dirname
  | .dotDot rest => rest.objects dirname
  | .entry name node rest => node.objects (join dirname name) ++ rest.objects dirname

end

section

variable {cal : Calendar} {cond : Cond} {date : Date}

/-- The lines of an object that is a regular file. -/
def Obj.regLines (cal : Calendar) (cond : Cond) (date : Date) (o : Obj) : List (List UInt8) :=
  if o.kind = .reg ∧ checkTime cal o.st.mtime cond date = 0 then [line cal o.path o.st] else []

mutual

theorem listFile_eq (filename : Path) : ∀ node : Node,
    listFile cal cond date filename node =
      (node.objects filename).flatMap (Obj.regLines cal cond date)
  | .dir _ stream => by
    rw [listFile, Node.objects]
    exact listFiles_eq filename stream
  | .file kind st => by
    rw [listFile, Node.objects, List.flatMap_singleton, Obj.regLines]
    by_cases hk : kind = .reg <;> by_cases hc : checkTime cal st.mtime cond date = 0 <;>
      simp [hk, hc]

theorem listFiles_eq (dirname : Path) : ∀ stream : Stream,
    listFiles cal cond date dirname stream =
      (stream.objects dirname).flatMap (Obj.regLines cal cond date)
  | .nil => rfl
  | .dot rest => by
    rw [listFiles, Stream.objects]
    exact listFiles_eq dirname rest
  | .dotDot rest => by
    rw [listFiles, Stream.objects]
    exact listFiles_eq dirname rest
  | .entry name node rest => by
    rw [listFiles, Stream.objects, List.flatMap_append, listFile_eq (join dirname name) node,
      listFiles_eq dirname rest]

end

end

/-! ## Paths -/

theorem slashed_join (dirname : Path) (name : Name) :
    slashed (join dirname name) = slashed dirname ++ name.bytes ++ [47] := by
  have hlast : (join dirname name).getLast? ≠ some 47 := by
    intro h
    rw [join, List.getLast?_append, List.getLast?_eq_some_getLast name.ne_nil, Option.some_or] at h
    exact name.slash (Option.some.inj h ▸ List.getLast_mem name.ne_nil)
  exact if_neg hlast

theorem head?_slashed {dirname : Path} {c : UInt8} (h : dirname.head? = some c) :
    (slashed dirname).head? = some c := by
  unfold slashed
  split
  · exact h
  · rw [List.head?_append, h, Option.some_or]

/-- The first component behind a prefix. -/
def component (dirname path : Path) : List UInt8 :=
  (path.drop (slashed dirname).length).takeWhile (· != 47)

mutual

/-- The paths of the objects in a directory begin with its path. -/
theorem prefix_of_mem {dirname : Path} {o : Obj} : ∀ {stream : Stream},
    o ∈ stream.objects dirname → ∃ t, o.path = slashed dirname ++ t
  | .nil, h => by cases h
  | .dot rest, h => by
    rw [Stream.objects] at h
    exact prefix_of_mem h
  | .dotDot rest, h => by
    rw [Stream.objects] at h
    exact prefix_of_mem h
  | .entry name node rest, h => by
    rw [Stream.objects] at h
    obtain h | h := List.mem_append.mp h
    · obtain ⟨t, ht, -⟩ := prefix_of_mem_entry h
      exact ⟨name.bytes ++ t, by rw [ht, List.append_assoc]⟩
    · exact prefix_of_mem h

theorem prefix_of_mem_entry {dirname : Path} {name : Name} {o : Obj} : ∀ {node : Node},
    o ∈ node.objects (join dirname name) →
      ∃ t, o.path = slashed dirname ++ name.bytes ++ t ∧ ∀ c ∈ t.head?, c = 47
  | .file kind st, h => by
    rw [Node.objects] at h
    obtain rfl := List.mem_singleton.mp h
    exact ⟨[], (List.append_nil _).symm, nofun⟩
  | .dir st stream, h => by
    rw [Node.objects] at h
    obtain ⟨t, ht⟩ := prefix_of_mem h
    rw [slashed_join, List.append_assoc] at ht
    refine ⟨[47] ++ t, ht, fun c hc => ?_⟩
    exact (Option.some.inj hc).symm

end

/-- The paths below an absolute path are absolute. -/
theorem head?_of_mem {dirname : Path} {stream : Stream} (hroot : dirname.head? = some 47) {o : Obj}
    (ho : o ∈ stream.objects dirname) : o.path.head? = some 47 := by
  obtain ⟨t, ht⟩ := prefix_of_mem ho
  rw [ht, List.head?_append, head?_slashed hroot, Option.some_or]

theorem component_of_mem_entry {dirname : Path} {name : Name} {node : Node} {o : Obj}
    (h : o ∈ node.objects (join dirname name)) : component dirname o.path = name.bytes := by
  obtain ⟨t, ht, hslash⟩ := prefix_of_mem_entry h
  have hname : ∀ c ∈ name.bytes, (c != 47) = true := by
    intro c hc
    rw [bne_iff_ne]
    rintro rfl
    exact name.slash hc
  have htail : t.takeWhile (· != 47) = [] := by
    cases t with
    | nil => rfl
    | cons c t =>
      obtain rfl := hslash c rfl
      rfl
  rw [component, ht, List.append_assoc, List.drop_left, List.takeWhile_append_of_pos hname, htail,
    List.append_nil]

theorem component_mem_names {dirname : Path} {o : Obj} : ∀ {stream : Stream},
    o ∈ stream.objects dirname → component dirname o.path ∈ stream.names
  | .nil, h => by cases h
  | .dot rest, h => by
    rw [Stream.objects] at h
    rw [Stream.names]
    exact component_mem_names h
  | .dotDot rest, h => by
    rw [Stream.objects] at h
    rw [Stream.names]
    exact component_mem_names h
  | .entry name node rest, h => by
    rw [Stream.objects] at h
    obtain h | h := List.mem_append.mp h
    · rw [component_of_mem_entry h]
      exact List.mem_cons_self
    · exact List.mem_cons_of_mem _ (component_mem_names h)

mutual

theorem path_unique_node {path : Path} {o o' : Obj} : ∀ {node : Node}, node.Wf →
    o ∈ node.objects path → o' ∈ node.objects path → o.path = o'.path → o = o'
  | .file kind st, _, h, h', _ => by
    rw [Node.objects] at h h'
    rw [List.mem_singleton.mp h, List.mem_singleton.mp h']
  | .dir st stream, hwf, h, h', hp => by
    rw [Node.objects] at h h'
    rw [Node.Wf] at hwf
    exact path_unique hwf h h' hp

/-- In a tree every path is the path of one object. -/
theorem path_unique {dirname : Path} {o o' : Obj} : ∀ {stream : Stream}, stream.Wf →
    o ∈ stream.objects dirname → o' ∈ stream.objects dirname → o.path = o'.path → o = o'
  | .nil, _, h, _, _ => by cases h
  | .dot rest, hwf, h, h', hp => by
    rw [Stream.objects] at h h'
    rw [Stream.Wf] at hwf
    exact path_unique hwf h h' hp
  | .dotDot rest, hwf, h, h', hp => by
    rw [Stream.objects] at h h'
    rw [Stream.Wf] at hwf
    exact path_unique hwf h h' hp
  | .entry name node rest, hwf, h, h', hp => by
    rw [Stream.objects] at h h'
    obtain ⟨hname, hnode, hrest⟩ := hwf
    obtain h | h := List.mem_append.mp h
    · obtain h' | h' := List.mem_append.mp h'
      · exact path_unique_node hnode h h' hp
      · refine absurd (component_mem_names h') ?_
        rwa [← hp, component_of_mem_entry h]
    · obtain h' | h' := List.mem_append.mp h'
      · refine absurd (component_mem_names h) ?_
        rwa [hp, component_of_mem_entry h']
      · exact path_unique hrest h h' hp

end

/-! ## What a line says -/

theorem slash_decimal (n : ℕ) : 47 ∉ decimal n := by
  intro h
  have := isDigit_of_mem_decimal n 47 h
  exact absurd this (by decide)

theorem slash_zeroPadded (width : ℕ) (n : ℤ) : 47 ∉ zeroPadded width n := by
  have hdigits := slash_decimal n.natAbs
  unfold zeroPadded
  split <;> simp [hdigits]

theorem slash_printAccess0 {test : ℕ} {iftrue : UInt8} (h : iftrue ≠ 47) :
    47 ∉ printAccess0 test iftrue := by
  unfold printAccess0
  split <;> simp [h.symm]

/-- There is no slash in front of the path. -/
theorem slash_fields (cal : Calendar) (st : Stat) :
    47 ∉ printAccess st ++ printLastMod cal st ++ printSize st := by
  have haccess : 47 ∉ printAccess st := by
    simp [printAccess, slash_printAccess0]
  have hmod : 47 ∉ printLastMod cal st := by
    simp [printLastMod, slash_zeroPadded]
  have hsize : 47 ∉ printSize st := by
    simp [printSize, spacePadded, slash_decimal]
  simp [haccess, hmod, hsize]

/-- A line with an absolute path determines the path. -/
theorem line_path {cal : Calendar} {path path' : Path} {st st' : Stat}
    (h : line cal path st = line cal path' st') (hp : path.head? = some 47)
    (hp' : path'.head? = some 47) : path = path' := by
  have hdrop : ∀ {path : Path} {st : Stat}, path.head? = some 47 →
      (line cal path st).dropWhile (· != 47) = path ++ [10] := by
    intro path st hp
    have hfields : ∀ c ∈ printAccess st ++ printLastMod cal st ++ printSize st,
        (c != 47) = true := by
      intro c hc
      rw [bne_iff_ne]
      rintro rfl
      exact slash_fields cal st hc
    rw [line, List.append_assoc, List.dropWhile_append_of_pos hfields]
    cases path with
    | nil => cases hp
    | cons c path =>
      obtain rfl := Option.some.inj hp
      rfl
  have heq := congrArg (List.dropWhile (· != 47)) h
  rw [hdrop hp, hdrop hp'] at heq
  exact List.append_cancel_right heq

end AghOs.ListFiles
