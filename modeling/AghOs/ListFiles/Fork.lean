import AghOs.ListFiles.Nftw

/-!
# Listing with a process for every entry

The walker of `src/cw03/zad1/src`, in which a new process lists what is at each
path. If `fork` fails for an entry, the process lists it itself. Standard output is
fully buffered: a process writes its lines when it exits, and a child starts with a
copy of the buffer of its parent.

Every path is forked for once, so which calls of `fork` fail is a function of the
path.

* `forkFiles_count`: what is written beside the lines of the sequential walker.
* `forks_perm_iff`: the lines are those of the sequential walker if and only if no
  process that has printed a line forks.
* `line_twice`: a line that two processes write.
-/

namespace AghOs.ListFiles

/-- The buffer of a process after it has listed something, and what the processes
    that were forked meanwhile have written. -/
structure Run where
  buffer : List (List UInt8)
  written : List (List UInt8)

section

variable (cal : Calendar) (cond : Cond) (date : Date) (forks : Path → Bool)

mutual

/-- `list_file`, in a process with a buffer. -/
def forkFile (filename : Path) (buffer : List (List UInt8)) : Node → Run
  | .dir _ stream => forkFiles filename buffer stream
  | .file kind st =>
    if kind = .reg then
      if checkTime cal st.mtime cond date ≠ 0 then ⟨buffer, []⟩
      else ⟨buffer ++ [line cal filename st], []⟩
    else ⟨buffer, []⟩

/-- `list_files`, from some entry on. -/
def forkFiles (dirname : Path) (buffer : List (List UInt8)) : Stream → Run
  | .nil => ⟨buffer, []⟩
  | .dot rest => forkFiles dirname buffer rest
  | .dotDot rest => forkFiles dirname buffer rest
  | .entry name node rest =>
    let path := join dirname name
    if forks path then
      -- the child writes its copy of the buffer, too
      let child := forkFile path buffer node
      let parent := forkFiles dirname buffer rest
      ⟨parent.buffer, child.buffer ++ child.written ++ parent.written⟩
    else
      let self := forkFile path buffer node
      let parent := forkFiles dirname self.buffer rest
      ⟨parent.buffer, self.written ++ parent.written⟩

end

/-- What all processes write. -/
def forkMain (dirname : Path) (stream : Stream) : List (List UInt8) :=
  let run := forkFiles cal cond date forks dirname [] stream
  run.written ++ run.buffer

mutual

/-- The process that lists what is at a path prints a line of it itself. -/
def Node.prints (path : Path) : Node → Bool
  | .file kind st => kind = .reg ∧ checkTime cal st.mtime cond date = 0
  | .dir _ stream => stream.prints path

def Stream.prints (dirname : Path) : Stream → Bool
  | .nil => false
  | .dot rest => rest.prints dirname
  | .dotDot rest => rest.prints dirname
  | .entry name node rest =>
    !forks (join dirname name) && node.prints (join dirname name) || rest.prints dirname

end

mutual

/-- No process forks that has printed a line; `printed` says whether the one that
    lists what is at the path already has. -/
def Node.Clean (path : Path) (printed : Bool) : Node → Prop
  | .file _ _ => True
  | .dir _ stream => stream.Clean path printed

def Stream.Clean (dirname : Path) (printed : Bool) : Stream → Prop
  | .nil => True
  | .dot rest => rest.Clean dirname printed
  | .dotDot rest => rest.Clean dirname printed
  | .entry name node rest =>
    let path := join dirname name
    if forks path then
      printed = false ∧ node.Clean path false ∧ rest.Clean dirname printed
    else
      node.Clean path printed ∧
        rest.Clean dirname (printed || node.prints cal cond date forks path)

end

end

section

variable {cal : Calendar} {cond : Cond} {date : Date} {forks : Path → Bool}

/-- A process with the buffer `b` has listed something whose lines are `lines`: it
    has added lines to its buffer if it `prints`, and the lines that were written too
    often are `extra`. -/
structure Run.Spec (run : Run) (b lines : List (List UInt8)) (prints : Bool) (clean : Prop) :
    Prop where
  spec : ∃ own extra, run.buffer = b ++ own ∧ (own = [] ↔ prints = false) ∧
    (extra = [] ↔ clean) ∧
    ∀ l, run.written.count l + own.count l = lines.count l + extra.count l

mutual

theorem forkFile_spec (filename : Path) : ∀ (node : Node) (b : List (List UInt8)),
    (forkFile cal cond date forks filename b node).Spec b
      (listFile cal cond date filename node) (node.prints cal cond date forks filename)
      (node.Clean cal cond date forks filename (!b.isEmpty))
  | .dir _ stream, b => forkFiles_spec filename stream b
  | .file kind st, b => by
    rw [forkFile, listFile, Node.prints, Node.Clean]
    by_cases hk : kind = .reg <;> by_cases hc : checkTime cal st.mtime cond date = 0
    · exact ⟨[line cal filename st], [], by simp [hk, hc]⟩
    all_goals exact ⟨[], [], by simp [hk, hc]⟩

theorem forkFiles_spec (dirname : Path) : ∀ (stream : Stream) (b : List (List UInt8)),
    (forkFiles cal cond date forks dirname b stream).Spec b
      (listFiles cal cond date dirname stream) (stream.prints cal cond date forks dirname)
      (stream.Clean cal cond date forks dirname (!b.isEmpty))
  | .nil, b => ⟨[], [], by simp [forkFiles, listFiles, Stream.prints, Stream.Clean]⟩
  | .dot rest, b => forkFiles_spec dirname rest b
  | .dotDot rest, b => forkFiles_spec dirname rest b
  | .entry name node rest, b => by
    obtain ⟨own₁, extra₁, hbuf₁, hown₁, hextra₁, hcount₁⟩ :=
      forkFile_spec (join dirname name) node b
    rw [forkFiles, listFiles, Stream.prints, Stream.Clean]
    cases hf : forks (join dirname name) with
    | true =>
      obtain ⟨own₂, extra₂, hbuf₂, hown₂, hextra₂, hcount₂⟩ := forkFiles_spec dirname rest b
      refine ⟨own₂, b ++ extra₁ ++ extra₂, hbuf₂, ?_, ?_, fun l => ?_⟩
      · simpa using hown₂
      · -- the child starts with what the parent has printed
        cases b with
        | nil => simpa using and_congr hextra₁ hextra₂
        | cons l b => simp
      · have h₁ := hcount₁ l
        have h₂ := hcount₂ l
        simp only [if_true, hbuf₁, List.count_append]
        omega
    | false =>
      obtain ⟨own₂, extra₂, hbuf₂, hown₂, hextra₂, hcount₂⟩ :=
        forkFiles_spec dirname rest (b ++ own₁)
      have hprinted : (!(b ++ own₁).isEmpty) =
          (!b.isEmpty || node.prints cal cond date forks (join dirname name)) := by
        cases hp : node.prints cal cond date forks (join dirname name) with
        | false => simp [hown₁.mpr hp]
        | true =>
          have hne : own₁ ≠ [] := fun h => Bool.false_ne_true ((hown₁.mp h).symm.trans hp)
          simp [hne]
      rw [hprinted] at hextra₂
      refine ⟨own₁ ++ own₂, extra₁ ++ extra₂, ?_, ?_, ?_, fun l => ?_⟩
      · simp only [Bool.false_eq_true, if_false]
        rw [hbuf₁, hbuf₂, List.append_assoc]
      · simpa using and_congr hown₁ hown₂
      · simpa using and_congr hextra₁ hextra₂
      · have h₁ := hcount₁ l
        have h₂ := hcount₂ l
        simp only [Bool.false_eq_true, if_false, hbuf₁, List.count_append]
        omega

end

/-- All processes together write the lines of the sequential walker if and only if
    none of them forks after it has printed a line. -/
theorem forks_perm_iff (dirname : Path) (stream : Stream) :
    (forkMain cal cond date forks dirname stream).Perm (listFiles cal cond date dirname stream) ↔
      stream.Clean cal cond date forks dirname false := by
  have hspec : (forkFiles cal cond date forks dirname [] stream).Spec [] _ _ _ :=
    forkFiles_spec dirname stream []
  obtain ⟨own, extra, hbuf, -, hextra, hcount⟩ := hspec
  have htotal : ∀ l, (forkMain cal cond date forks dirname stream).count l =
      (listFiles cal cond date dirname stream).count l + extra.count l := by
    intro l
    rw [forkMain, hbuf, List.nil_append, List.count_append, hcount l]
  refine Iff.trans ?_ hextra
  constructor
  · intro h
    refine List.eq_nil_iff_forall_not_mem.mpr fun l hl => ?_
    have hpos := List.count_pos_iff.mpr hl
    have heq := h.count_eq l
    have := htotal l
    omega
  · rintro rfl
    exact List.perm_iff_count.mpr fun l => htotal l

end

/-- The entries `a` and `b`, both regular files. -/
def twoEntries : Stream :=
  .entry nameA (.file .reg ⟨0o644, 0, 5⟩) (.entry nameB (.file .reg ⟨0o644, 0, 7⟩) .nil)

/-- The first day of 1970. -/
def epoch : Calendar := ⟨fun _ => ⟨70, 0, 1⟩, fun _ => ⟨70, 0, 1⟩⟩

/-- `fork` fails for `a` and succeeds for `b`: the line of `a` is written twice. -/
theorem line_twice :
    forkMain epoch .eq ⟨1970, 1, 1⟩ (fun path => path = [47, 98]) [47] twoEntries =
        [line epoch [47, 97] ⟨0o644, 0, 5⟩, line epoch [47, 98] ⟨0o644, 0, 7⟩,
          line epoch [47, 97] ⟨0o644, 0, 5⟩] ∧
      listFiles epoch .eq ⟨1970, 1, 1⟩ [47] twoEntries =
        [line epoch [47, 97] ⟨0o644, 0, 5⟩, line epoch [47, 98] ⟨0o644, 0, 7⟩] ∧
      ¬(forkMain epoch .eq ⟨1970, 1, 1⟩ (fun path => path = [47, 98]) [47] twoEntries).Perm
        (listFiles epoch .eq ⟨1970, 1, 1⟩ [47] twoEntries) := by
  refine ⟨rfl, rfl, fun h => ?_⟩
  have hlength : 3 = 2 := h.length_eq
  exact absurd hlength (by decide)

end AghOs.ListFiles
