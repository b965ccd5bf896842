import AghOs.Records.Sort

/-!
# Generating records

`op_generate` (`src/cw02/zad1/src/operations.c`, lines 6–28) when the file can be
written. Nothing is taken from `/dev/urandom` but that a `read` stores no more bytes
than it was asked for: a byte that it leaves out keeps the letter of the record before,
or what the buffer held at first, and becomes a letter.

* `letters_isRecord`: what is written is a record, whatever the buffer holds.
* `opGenerate_runs`: the file starts with the records, and keeps what is behind them.
-/

namespace AghOs.Records.Calls

/-- Small letters and a newline. -/
structure IsRecord (recordSize : ℕ) (r : List UInt8) : Prop where
  length : r.length = recordSize
  letters : ∀ c ∈ r.take (recordSize - 1), 97 ≤ c.toNat ∧ c.toNat ≤ 122
  newline : r.drop (recordSize - 1) = [10]

/-- The file, and the number of times that `/dev/urandom` has been read. -/
structure GenerateFiles where
  file : Records.FileDesc
  reads : ℕ

/-- `random` are the bytes that `/dev/urandom` has for a read; none if it could not be
    opened. -/
def GenerateFiles.serve (random : ℕ → List UInt8) (_failed : Bool) (w : GenerateFiles) (c : Call) :
    GenerateFiles × List UInt8 :=
  match c with
  | .read _ size => ({ w with reads := w.reads + 1 }, (random w.reads).take size)
  | .write _ bytes => ({ w with file := Records.fdWrite w.file bytes bytes.length 0 }, [])
  | _ => (w, [])

section

variable {recordSize : ℕ} {buffer : List UInt8}

theorem letter_range (c : UInt8) : 97 ≤ (c % 26 + 97).toNat ∧ (c % 26 + 97).toNat ≤ 122 := by
  have hmod : (c % 26).toNat = c.toNat % 26 := UInt8.toNat_mod c 26
  rw [UInt8.toNat_add, hmod]
  show 97 ≤ (c.toNat % 26 + 97) % 256 ∧ (c.toNat % 26 + 97) % 256 ≤ 122
  omega

/-- The last byte of the buffer is never written to. -/
theorem stored_newline (hb : buffer.drop (recordSize - 1) = [10]) {bytes : List UInt8}
    (hle : bytes.length ≤ recordSize - 1) :
    (stored buffer bytes).drop (recordSize - 1) = [10] := by
  unfold stored
  rw [List.drop_append, List.drop_of_length_le hle, List.nil_append, List.drop_drop,
    Nat.add_sub_cancel' hle, hb]

theorem length_of_newline (hb : buffer.drop (recordSize - 1) = [10]) (hpos : 1 ≤ recordSize) :
    buffer.length = recordSize := by
  have hlen := congrArg List.length hb
  rw [List.length_drop] at hlen
  simp only [List.length_cons, List.length_nil] at hlen
  omega

theorem letters_isRecord (hb : buffer.drop (recordSize - 1) = [10]) (hpos : 1 ≤ recordSize) :
    IsRecord recordSize (letters buffer recordSize) := by
  have hlen := length_of_newline hb hpos
  have hmap : ((buffer.take (recordSize - 1)).map fun c => c % 26 + 97).length =
      recordSize - 1 := by
    rw [List.length_map, List.length_take_of_le (by omega)]
  refine ⟨?_, ?_, ?_⟩
  · unfold letters
    rw [List.length_append, hmap, hb]
    exact Nat.sub_add_cancel hpos
  · intro c hc
    unfold letters at hc
    rw [List.take_left' hmap] at hc
    obtain ⟨b, -, rfl⟩ := List.mem_map.mp hc
    exact letter_range b
  · unfold letters
    rw [List.drop_left' hmap, hb]

variable {random : ℕ → List UInt8} (file rnd : FileDesc)

theorem generateLoop_runs (hpos : 1 ≤ recordSize) {n : ℕ} {w : GenerateFiles}
    {old written : List UInt8} (h : Holds w.file old written)
    (hb : buffer.drop (recordSize - 1) = [10]) :
    ∃ (w' : GenerateFiles) (rs : List (List UInt8)),
      Prog.Runs (answer (GenerateFiles.serve random)) w
        (generateLoop file rnd recordSize n buffer) () w' ∧
      rs.length = n ∧ (∀ r ∈ rs, IsRecord recordSize r) ∧
      Holds w'.file old (written ++ rs.flatten) := by
  induction n generalizing w written buffer with
  | zero => exact ⟨w, [], .ret, rfl, by simp, by simpa using h⟩
  | succ n ih =>
    have hread := fdRead_runs (GenerateFiles.serve random) w rnd buffer (recordSize - 1)
    have hstored := stored_newline hb (List.length_take_le (recordSize - 1) (random w.reads))
    have hr := letters_isRecord hstored hpos
    have hwrite := fdWrite_runs (GenerateFiles.serve random) ⟨w.file, w.reads + 1⟩ file
      (letters (stored buffer ((random w.reads).take (recordSize - 1))) recordSize) recordSize
    rw [List.take_of_length_le hr.length.le] at hwrite
    have hheld : ∀ r, Holds (Records.fdWrite w.file r r.length 0) old (written ++ r) := fun r => by
      have := h.fdWrite r r.length 0
      rwa [List.take_length] at this
    obtain ⟨w', rs, hrest, hlen, hrs, hw'⟩ := ih (w := ⟨_, w.reads + 1⟩) (hheld _) hr.newline
    exact ⟨w', _ :: rs, hread.bind (hwrite.bind hrest), congrArg (· + 1) hlen,
      List.forall_mem_cons.mpr ⟨hr, hrs⟩, by simpa using hw'⟩

/-- `op_generate` writes the records over the start of the file. -/
theorem opGenerate_runs (uninit : ℕ → UInt8) (random : ℕ → List UInt8)
    (destination : Option (List UInt8)) (recordCount : ℕ) (hpos : 1 ≤ recordSize) :
    ∃ (w : GenerateFiles) (rs : List (List UInt8)),
      Prog.Runs (answer (GenerateFiles.serve random)) ⟨Records.fdOpenw .sys destination, 0⟩
        (opGenerate uninit true true recordCount recordSize) 0 w ∧
      rs.length = recordCount ∧ (∀ r ∈ rs, IsRecord recordSize r) ∧
      w.file.afterExit = rs.flatten ++ (destination.getD []).drop (recordCount * recordSize) := by
  have hbuffer : ((newBuffer uninit recordSize).set (recordSize - 1) 10).drop (recordSize - 1) =
      [10] := by
    have hlen : (newBuffer uninit recordSize).length = recordSize - 1 + 1 := by
      unfold newBuffer
      rw [List.length_map, List.length_range, Nat.sub_add_cancel hpos]
    obtain ⟨c, hc⟩ := List.length_eq_one_iff.mp
      (show ((newBuffer uninit recordSize).drop (recordSize - 1)).length = 1 by simp [hlen])
    rw [List.drop_set, if_neg (Nat.lt_irrefl _), hc, Nat.sub_self]
    rfl
  obtain ⟨w, rs, hrun, hlen, hrs, hw⟩ := generateLoop_runs (fdOpenw .sys 0 true)
    (fdOpenr .sys 1 true) hpos (n := recordCount) (w := ⟨Records.fdOpenw .sys destination, 0⟩)
    (fdOpenw_holds .sys destination) hbuffer
  refine ⟨w, rs, hrun.bind .ret, hlen, hrs, ?_⟩
  rw [hw.afterExit, List.nil_append, length_flatten_rows fun r hr => (hrs r hr).length, hlen]
  rfl

end

end AghOs.Records.Calls
