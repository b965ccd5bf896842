import Mathlib.Data.List.Induction
import AghOs.Records.Calls

/-!
# Sorting records in the file

`op_sort` (`src/cw02/zad1/src/operations.c`, lines 53–96) on a file that serves
every call. `inserted` is a record that has been read out of its row; the row
that the inner loop writes next is a hole, which moves one row towards the start
with each record that is shifted behind it.

* `StableSort.insert`: an element put behind those that are not greater.
* `shiftLoop_runs`, `sortLoop_runs`: the two loops.
* `opSort_sorts`: the records are sorted by their first byte, stably, and what is
  behind them stays.
-/

namespace AghOs.Records.Calls

/-! ## Stable sorts -/

section

variable {α κ : Type} [LinearOrder κ] {key : α → κ}

/-- `l'` is the stable sort of `l` by `key`. -/
structure StableSort (key : α → κ) (l l' : List α) : Prop where
  perm : l'.Perm l
  sorted : l'.Pairwise fun a b => key a ≤ key b
  stable : ∀ k, l'.filter (key · = k) = l.filter (key · = k)

/-- The order is that of the last element before `x`, and of the first behind it. -/
theorem StableSort.insert {l as bs : List α} {x : α} (h : StableSort key l (as ++ bs))
    (has : ∀ a ∈ as.getLast?, key a ≤ key x) (hbs : ∀ b ∈ bs, key x < key b) :
    StableSort key (l ++ [x]) (as ++ x :: bs) := by
  obtain ⟨hsas, hsbs, hsab⟩ := List.pairwise_append.mp h.sorted
  have hall : ∀ a ∈ as, key a ≤ key x := by
    rcases List.eq_nil_or_concat' as with rfl | ⟨as, last, rfl⟩
    · exact fun _ ha => by cases ha
    · have hlast : key last ≤ key x := has last (by simp)
      intro a ha
      rcases List.mem_append.mp ha with ha | ha
      · exact ((List.pairwise_append.mp hsas).2.2 a ha last (by simp)).trans hlast
      · rw [List.mem_singleton.mp ha]
        exact hlast
  refine ⟨?_, ?_, ?_⟩
  · calc (as ++ x :: bs).Perm (x :: (as ++ bs)) := List.perm_middle
      _ |>.Perm (x :: l) := h.perm.cons x
      _ |>.Perm (l ++ [x]) := (List.perm_append_singleton x l).symm
  · refine List.pairwise_append.mpr ⟨hsas, List.pairwise_cons.mpr ⟨?_, hsbs⟩, ?_⟩
    · exact fun b hb => (hbs b hb).le
    · intro a ha b hb
      rcases List.mem_cons.mp hb with rfl | hb
      · exact hall a ha
      · exact hsab a ha b hb
  · intro k
    have hstable := h.stable k
    rw [List.filter_append] at hstable
    rw [List.filter_append, List.filter_append, List.filter_cons, List.filter_cons, ← hstable]
    by_cases hk : key x = k
    · -- no element behind `x` has its key
      have hnone : bs.filter (key · = k) = [] := by
        rw [List.filter_eq_nil_iff]
        intro b hb heq
        have hlt := hbs b hb
        rw [hk, of_decide_eq_true heq] at hlt
        exact lt_irrefl _ hlt
      rw [hnone, List.append_nil]
      simp [hk]
    · simp [hk]

end

/-! ## A cursor between rows -/

/-- The cursor stands behind the rows `as` and before the rows `bs`, and `rest` is
    what follows these. -/
structure Between (recordSize : ℕ) (rest : List UInt8) (as bs : List (List UInt8))
    (f : OpenFile) : Prop where
  content : f.content = (as ++ bs).flatten ++ rest
  pos : f.pos = as.length * recordSize
  size : ∀ r ∈ as ++ bs, r.length = recordSize
  strayed : f.strayed = false

section

variable {recordSize : ℕ} {rest : List UInt8} {as bs : List (List UInt8)} {f : OpenFile}

theorem length_flatten_rows {rs : List (List UInt8)} (h : ∀ r ∈ rs, r.length = recordSize) :
    rs.flatten.length = rs.length * recordSize := by
  rw [List.length_flatten, List.map_congr_left h, List.map_const', List.sum_replicate_nat]

theorem Between.split (h : Between recordSize rest as bs f) :
    f.content = as.flatten ++ (bs.flatten ++ rest) ∧ f.pos = as.flatten.length := by
  have has := length_flatten_rows fun r hr => h.size r (List.mem_append_left _ hr)
  exact ⟨by rw [h.content, List.flatten_append, List.append_assoc], by rw [h.pos, has]⟩

variable {r : List UInt8}

/-- The row behind the cursor is read. -/
theorem Between.read (h : Between recordSize rest as (r :: bs) f) (fd : FileDesc)
    {buffer : List UInt8} (hb : buffer.length = recordSize) :
    ∃ f', Prog.Runs (answer OpenFile.serve) f (fdRead fd buffer recordSize) (fd, r) f' ∧
      Between recordSize rest (as ++ [r]) bs f' := by
  obtain ⟨hcontent, hpos⟩ := h.split
  have hr : r.length = recordSize := h.size r (by simp)
  have hbytes : (f.content.drop f.pos).take recordSize = r := by
    rw [hcontent, hpos, List.drop_left, List.flatten_cons, List.append_assoc, List.take_left' hr]
  have hread := fdRead_runs OpenFile.serve f fd buffer recordSize
  have hserve : OpenFile.serve false f (.read fd.file recordSize) =
      ({ f with pos := f.pos + recordSize }, r) := by
    show (_, (f.content.drop f.pos).take recordSize) = _
    rw [hbytes, hr]
  have hstored : stored buffer r = r := by
    unfold stored
    rw [List.drop_of_length_le (by omega), List.append_nil]
  rw [hserve, hstored] at hread
  refine ⟨_, hread, ?_, ?_, ?_, h.strayed⟩
  · rw [List.append_assoc]
    exact h.content
  · show f.pos + recordSize = _
    rw [h.pos, List.length_append, Nat.add_mul, List.length_singleton, Nat.one_mul]
  · rw [List.append_assoc]
    exact h.size

/-- The row behind the cursor is written. -/
theorem Between.write (h : Between recordSize rest as (r :: bs) f) (fd : FileDesc)
    {buffer : List UInt8} (hb : buffer.length = recordSize) :
    ∃ f', Prog.Runs (answer OpenFile.serve) f (fdWrite fd buffer recordSize) fd f' ∧
      Between recordSize rest (as ++ [buffer]) bs f' := by
  obtain ⟨hcontent, hpos⟩ := h.split
  have hr : r.length = recordSize := h.size r (by simp)
  have hwrite := fdWrite_runs OpenFile.serve f fd buffer recordSize
  rw [List.take_of_length_le (Nat.le_of_eq hb)] at hwrite
  refine ⟨_, hwrite, ?_, ?_, ?_, h.strayed⟩
  · show writeAt f.content f.pos buffer = _
    have hle : f.pos ≤ f.content.length := by
      rw [hcontent, hpos, List.length_append]
      exact Nat.le_add_right _ _
    rw [writeAt_eq hle, hcontent, hpos, List.take_left, ← List.drop_drop, List.drop_left,
      List.flatten_cons, List.append_assoc r, List.drop_left' (hr.trans hb.symm)]
    simp
  · show f.pos + buffer.length = _
    rw [h.pos, hb, List.length_append, Nat.add_mul, List.length_singleton, Nat.one_mul]
  · intro r' hr'
    simp only [List.append_assoc, List.mem_append, List.mem_cons, List.not_mem_nil,
      or_false] at hr'
    rcases hr' with hr' | rfl | hr'
    · exact h.size r' (List.mem_append_left _ hr')
    · exact hb
    · exact h.size r' (List.mem_append_right _ (List.mem_cons_of_mem _ hr'))

/-- A seek to the start of a row. -/
theorem Between.seekTo (h : Between recordSize rest as bs f) {as' bs' : List (List UInt8)}
    (heq : as' ++ bs' = as ++ bs) :
    Between recordSize rest as' bs' (f.seekTo (as'.length * recordSize : ℕ)) := by
  have hseek : f.seekTo (as'.length * recordSize : ℕ) =
      { f with pos := as'.length * recordSize } := by
    unfold OpenFile.seekTo
    rw [if_neg (by omega), Int.toNat_natCast]
  rw [hseek]
  exact ⟨by rw [heq]; exact h.content, rfl, by rw [heq]; exact h.size, h.strayed⟩

theorem Between.seekRow (h : Between recordSize rest as bs f) (fd : FileDesc)
    {as' bs' : List (List UInt8)} (heq : as' ++ bs' = as ++ bs)
    (hlt : as'.length * recordSize < 2 ^ 63) :
    ∃ f', Prog.Runs (answer OpenFile.serve) f (fdSeekRow fd as'.length recordSize) fd f' ∧
      Between recordSize rest as' bs' f' := by
  have hseek := fdSeekRow_runs OpenFile.serve f fd recordSize as'.length
  rw [← Int.natCast_mul, toLong_toSize (by omega) (by omega)] at hseek
  exact ⟨_, hseek, h.seekTo heq⟩

/-- A seek backwards by the rows `back`. -/
theorem Between.seekRowRel {back : List (List UInt8)}
    (h : Between recordSize rest (as ++ back) bs f) (fd : FileDesc)
    (hle : back.length * recordSize ≤ 2 ^ 63) :
    ∃ f', Prog.Runs (answer OpenFile.serve) f (fdSeekRowRel fd (-back.length) recordSize) fd f' ∧
      Between recordSize rest as (back ++ bs) f' := by
  have hseek := fdSeekRowRel_runs OpenFile.serve f fd recordSize (-back.length)
  rw [toSize_toSize_mul] at hseek
  have hcast : (-back.length * recordSize : ℤ) = -(back.length * recordSize : ℕ) := by
    rw [Int.neg_mul, Int.natCast_mul]
  have hpos : (f.pos : ℤ) + -(back.length * recordSize : ℕ) = (as.length * recordSize : ℕ) := by
    rw [h.pos, List.length_append, Nat.add_mul]
    omega
  have hserve : OpenFile.serve false f (.seekCur fd.file (-(back.length * recordSize : ℕ))) =
      (f.seekTo (as.length * recordSize : ℕ), []) := by
    show (f.seekTo (f.pos + _), _) = _
    rw [hpos]
  rw [hcast, toLong_toSize (by omega) (by omega), hserve] at hseek
  exact ⟨_, hseek, h.seekTo (List.append_assoc _ _ _).symm⟩

end

/-! ## The loops -/

/-- What `op_sort` compares. -/
def firstByte (r : List UInt8) : ℕ := (r.headD 0).toNat

section

variable {recordSize : ℕ} {rest : List UInt8} (fd : FileDesc) {x : List UInt8}

/-- `hole` is the row that is to be written. The rows `cs` are shifted behind it,
    until there is one that is not greater than `x`. -/
theorem shiftLoop_runs {as ds : List (List UInt8)} {hole next : List UInt8} {f : OpenFile}
    (h : Between recordSize rest as (hole :: ds) f) (hnext : next.length = recordSize)
    (hsize : 2 * recordSize ≤ 2 ^ 63) :
    ∃ next' f' as' cs hole',
      Prog.Runs (answer OpenFile.serve) f (shiftLoop fd recordSize x as.length next) next' f' ∧
        next'.length = recordSize ∧ Between recordSize rest as' (hole' :: cs ++ ds) f' ∧
        as = as' ++ cs ∧ (∀ a ∈ as'.getLast?, firstByte a ≤ firstByte x) ∧
        ∀ c ∈ cs, firstByte x < firstByte c := by
  induction as using List.reverseRecOn generalizing ds hole next f with
  | nil =>
    exact ⟨next, f, [], [], hole, .ret, hnext, h, rfl, by simp, by simp⟩
  | append_singleton as a ih =>
    have ha : a.length = recordSize := h.size a (by simp)
    obtain ⟨f1, hseek1, h1⟩ := h.seekRowRel fd (by simp; omega)
    obtain ⟨f2, hread, h2⟩ := h1.read fd hnext
    rw [List.length_append, List.length_singleton]
    by_cases hgt : firstByte x < firstByte a
    · obtain ⟨f3, hwrite, h3⟩ := h2.write fd ha
      rw [List.append_assoc] at h3
      obtain ⟨f4, hseek2, h4⟩ := h3.seekRowRel fd hsize
      obtain ⟨next', f', as', cs, hole', hrest, hlen, h', rfl, hlast, hcs⟩ := ih h4 ha
      refine ⟨next', f', as', cs ++ [a], hole', ?_, hlen, ?_, by simp, hlast, ?_⟩
      · refine hseek1.bind (hread.bind ?_)
        show Prog.Runs _ f2 (if a.headD 0 > x.headD 0 then _ else _) _ _
        rw [if_pos (UInt8.lt_iff_toNat_lt.mpr hgt)]
        exact hwrite.bind (hseek2.bind hrest)
      · rw [List.cons_append, List.append_assoc]
        exact h'
      · intro c hc
        rcases List.mem_append.mp hc with hc | hc
        · exact hcs c hc
        · rw [List.mem_singleton.mp hc]
          exact hgt
    · refine ⟨a, f2, as ++ [a], [], hole, hseek1.bind (hread.bind ?_), ha, h2, by simp, ?_, ?_⟩
      · show Prog.Runs _ f2 (if a.headD 0 > x.headD 0 then _ else _) _ _
        rw [if_neg fun h => hgt (UInt8.lt_iff_toNat_lt.mp h)]
        exact .ret
      · intro a' ha'
        rw [List.getLast?_concat] at ha'
        obtain rfl := Option.some.inj ha'
        exact Nat.le_of_not_lt hgt
      · simp

/-- The rows `ts` are inserted one after the other into the rows before them. -/
theorem sortLoop_runs {l sorted ts as bs : List (List UInt8)} {next inserted : List UInt8}
    {sortedEnd : ℕ} {f : OpenFile} (h : Between recordSize rest as bs f)
    (heq : sorted ++ ts = as ++ bs) (hs : StableSort firstByte l sorted)
    (hend : sorted.length = sortedEnd + 1) (hnext : next.length = recordSize)
    (hinserted : inserted.length = recordSize)
    (hsize : (sorted ++ ts).length * recordSize < 2 ^ 63) :
    ∃ f' as' bs',
      Prog.Runs (answer OpenFile.serve) f
        (sortLoop fd recordSize ts.length sortedEnd next inserted) () f' ∧
        Between recordSize rest as' bs' f' ∧ StableSort firstByte (l ++ ts) (as' ++ bs') := by
  induction ts generalizing l sorted as bs next inserted sortedEnd f with
  | nil =>
    rw [List.append_nil] at heq ⊢
    exact ⟨f, as, bs, .ret, h, heq ▸ hs⟩
  | cons x ts ih =>
    have hrows : (sorted ++ x :: ts).length = sorted.length + 1 + ts.length := by
      rw [List.length_append, List.length_cons]
      omega
    have hle : ∀ n, n ≤ (sorted ++ x :: ts).length → n * recordSize < 2 ^ 63 := fun n hn =>
      Nat.lt_of_le_of_lt (Nat.mul_le_mul_right _ hn) hsize
    have hx : x.length = recordSize := h.size x (by rw [← heq]; simp)
    obtain ⟨f1, hseek1, h1⟩ := h.seekRow fd heq (hle _ (by omega))
    obtain ⟨f2, hread, h2⟩ := h1.read fd hinserted
    obtain ⟨f3, hseek2, h3⟩ := h2.seekRowRel fd (Nat.le_of_lt (hle 1 (by omega)))
    obtain ⟨next', f4, as', cs, hole, hshift, hlen, h4, rfl, hlast, hcs⟩ :=
      shiftLoop_runs fd h3 hnext (Nat.le_of_lt (hle 2 (by omega)))
    obtain ⟨f5, hwrite, h5⟩ := h4.write fd hx
    have hinsert := hs.insert hlast hcs
    rw [hend] at hseek1 hshift
    rw [List.length_append] at hend hrows
    have hend' : (as' ++ x :: cs).length = sortedEnd + 1 + 1 := by
      rw [List.length_append, List.length_cons]
      omega
    obtain ⟨f', as'', bs'', hrest, h', hs'⟩ := ih h5 (by simp) hinsert hend' hlen hx
      (hle _ (by rw [List.length_append, hend']; omega))
    rw [List.append_assoc, List.singleton_append] at hs'
    refine ⟨f', as'', bs'', ?_, h', hs'⟩
    exact hseek1.bind (hread.bind (hseek2.bind (hshift.bind (hwrite.bind hrest))))

end

/-! ## The file -/

/-- A file, whose size is an `off_t`. -/
structure RegularFile where
  content : List UInt8
  length_lt : content.length < 2 ^ 63

/-- The first `n` records. -/
def records (recordSize n : ℕ) (content : List UInt8) : List (List UInt8) :=
  (List.range n).map fun i => (content.drop (i * recordSize)).take recordSize

section

variable {recordSize recordCount : ℕ} {content : List UInt8}

theorem length_record (h : recordCount * recordSize ≤ content.length) :
    ∀ r ∈ records recordSize recordCount content, r.length = recordSize := by
  intro r hr
  obtain ⟨i, hi, rfl⟩ := List.mem_map.mp hr
  have hlt : (i + 1) * recordSize ≤ recordCount * recordSize :=
    Nat.mul_le_mul_right _ (List.mem_range.mp hi)
  rw [Nat.add_mul, Nat.one_mul] at hlt
  rw [List.length_take_of_le]
  rw [List.length_drop]
  omega

theorem flatten_records (recordSize recordCount : ℕ) (content : List UInt8) :
    (records recordSize recordCount content).flatten =
      content.take (recordCount * recordSize) := by
  induction recordCount with
  | zero => rw [Nat.zero_mul, List.take_zero]; rfl
  | succ n ih =>
    unfold records at ih ⊢
    rw [List.range_succ, List.map_append, List.flatten_append, ih, Nat.add_mul, Nat.one_mul,
      List.take_add]
    simp

end

/-- The first `recordCount` records are the stable sort of what they were, the bytes
    behind them are unchanged, and no seek has gone to before the start. -/
theorem opSort_sorts (uninit : ℕ → UInt8) (file : RegularFile) (recordCount recordSize : ℕ)
    (mode : Mode) (hcount : recordCount * recordSize ≤ file.content.length) :
    ∃ f sorted,
      Prog.Runs (answer OpenFile.serve) ⟨file.content, 0, false⟩
        (opSort uninit true recordCount recordSize mode) 0 f ∧
      StableSort firstByte (records recordSize recordCount file.content) sorted ∧
      f.content = sorted.flatten ++ file.content.drop (recordCount * recordSize) ∧
      f.strayed = false := by
  have hlen := length_record hcount
  have hcontent : file.content = (records recordSize recordCount file.content).flatten ++
      file.content.drop (recordCount * recordSize) := by
    rw [flatten_records, List.take_append_drop]
  have hbuffer : (newBuffer uninit recordSize).length = recordSize := by
    unfold newBuffer
    rw [List.length_map, List.length_range]
  have hrows : (records recordSize recordCount file.content).length = recordCount := by
    unfold records
    rw [List.length_map, List.length_range]
  generalize records recordSize recordCount file.content = rs at *
  cases rs with
  | nil =>
    obtain rfl : 0 = recordCount := hrows
    exact ⟨_, [], .bind .ret .ret, ⟨.refl _, .nil, fun _ => rfl⟩, hcontent, rfl⟩
  | cons r rs =>
    obtain rfl : rs.length + 1 = recordCount := hrows
    have hstart : Between recordSize (file.content.drop ((rs.length + 1) * recordSize)) []
        (r :: rs) ⟨file.content, 0, false⟩ :=
      ⟨hcontent, (Nat.zero_mul _).symm, hlen, rfl⟩
    have hone : StableSort firstByte [r] [r] :=
      ⟨.refl _, List.pairwise_singleton _ _, fun _ => rfl⟩
    obtain ⟨f, as, bs, hloop, h, hs⟩ := sortLoop_runs (fdOpenrw mode 0 true) hstart
      (show [r] ++ rs = [] ++ r :: rs from rfl) hone rfl hbuffer hbuffer
      (Nat.lt_of_le_of_lt hcount file.length_lt)
    exact ⟨f, as ++ bs, hloop.bind .ret, hs, h.content, h.strayed⟩

theorem opSort_sorts_two :
    ∃ f sorted,
      Prog.Runs (answer OpenFile.serve) ⟨[2, 7, 1, 9, 5], 0, false⟩
        (opSort (fun _ => 0) true 2 2 .sys) 0 f ∧
      StableSort firstByte (records 2 2 [2, 7, 1, 9, 5]) sorted ∧
      f.content = sorted.flatten ++ [5] ∧ f.strayed = false :=
  opSort_sorts (fun _ => 0) ⟨[2, 7, 1, 9, 5], by decide⟩ 2 2 .sys (by decide)

end AghOs.Records.Calls
