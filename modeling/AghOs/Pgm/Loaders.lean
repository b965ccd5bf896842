import AghOs.Machine.Loops
import AghOs.Pgm.Text

/-!
# Where the loaders write

`pgm_create` and `pgm_load` (`src/cw08/zad1/src/pgm.c`, lines 6–13 and 62–91),
`create_filter` and `read_filter` (`src/cw08/zad1/src/filter.c`, lines 8–14 and
104–128) for every file. What `malloc` returns is a block of as many bytes as were
asked for, in `size_t`; a store outside it, or into the header where the array is
meant, has no result. The counters of the loops are `int`s that wrap.

`"%f "` is a parameter: what it stores, and the input behind it, if it reads a
number. `AghOs.Pgm.Text` has the same `pgm_load` with the counters in `ℕ`;
`AghOs.Pgm.Blocks` connects the two.

* `times_ne_stray_iff`: a loop stays inside if all its items do.
* `loaders_inside_iff`: the loaders stay inside what they have allocated exactly when
  the numbers that they read have room there; every failure is reported.
-/

namespace AghOs.Pgm.Checked

/-! ## The loaders -/

/-- What ends a loader before its last line: one of its checks, or a store outside
    what was allocated. -/
inductive Stop
  | failed
  | stray
  deriving DecidableEq

/-- The input, the block and `d` in the loops. -/
structure Reading where
  input : List UInt8
  mem : ℤ → UInt8
  d : ℤ

/-- A block of memory and its size. -/
structure Block where
  size : ℕ
  mem : ℤ → UInt8

/-- The bytes are stored at the offset `pos`, between `lo` and `hi`. -/
def store (lo hi : ℤ) (mem : ℤ → UInt8) (pos : ℤ) (bytes : List UInt8) :
    Except Stop (ℤ → UInt8) :=
  if lo ≤ pos ∧ pos + bytes.length ≤ hi then
    .ok fun i => if pos ≤ i ∧ i < pos + bytes.length then bytes.getD (i - pos).toNat 0 else mem i
  else .error .stray

/-- What is left of a check that may fail. -/
def check {α : Type} : Option α → Except Stop α
  | none => .error .failed
  | some a => .ok a

/-- `read_or_fail` -/
def readNumbers (n : ℤ) (fmt : List Directive) (input : List UInt8) :
    Option (List ℤ × List UInt8) :=
  match readOrFail n fmt input with
  | .error _ => none
  | .ok p => some p

/-- The return value and `*ret`, which is set on the last line only; `none` after a
    stray store. -/
def finish {α : Type} : Except Stop α → Option (ℤ × Option α)
  | .ok a => some (0, some a)
  | .error .failed => some (-1, none)
  | .error .stray => none

section

variable (malloc : ℕ → Option (ℤ → UInt8))

/-- `pgm_create` -/
def pgmCreate (width height : ℕ) : Except Stop Block := do
  let size := imageSize width height
  let mem ← check (malloc size)
  let mem ← store 0 size mem 0 (leBytes 8 width)
  let mem ← store 0 size mem 8 (leBytes 8 height)
  .ok ⟨size, mem⟩

/-- The body of the inner loop of `pgm_load`. -/
def pixel (scale : ℕ → UInt8 → UInt8) (maxVal size : ℕ) (s : Reading) : Except Stop Reading := do
  let (values, rest) ← check (readNumbers 1 pixelFormat s.input)
  let mem ← store 16 size s.mem (16 + s.d) (leBytes 4 (storedInt (values.getD 0 0) % 2 ^ 32).toNat)
  let mem ← store 16 size mem (16 + s.d) [scale maxVal (mem (16 + s.d))]
  .ok ⟨rest, mem, toInt (s.d + 1)⟩

/-- `pgm_load` -/
def pgmLoad (scale : ℕ → UInt8 → UInt8) (file : Option (List UInt8)) : Option (ℤ × Option Block) :=
  finish do
    let text ← check file
    let (values, rest) ← check (readNumbers 3 headerFormat text)
    let width := storedSize (values.getD 0 0)
    let height := storedSize (values.getD 1 0)
    let maxVal := storedSize (values.getD 2 0)
    let img ← pgmCreate malloc width height
    let s ← times (intLoop height) (times (intLoop width) (pixel scale maxVal img.size))
      ⟨rest, img.mem, 0⟩
    .ok ⟨img.size, s.mem⟩

/-- `sizeof(filter_t) + sizeof(float) * size * size`, for an `int` `size`. -/
def filterSize (size : ℤ) : ℕ := toSize (8 + 4 * toSize size * toSize size)

/-- `create_filter` -/
def createFilter (size : ℤ) : Except Stop Block := do
  let mem ← check (malloc (filterSize size))
  let mem ← store 0 (filterSize size) mem 0 (leBytes 8 (toSize size))
  .ok ⟨filterSize size, mem⟩

/-- The body of the loop of `read_filter`. -/
def coefficient (scanFloat : List UInt8 → Option (UInt32 × List UInt8)) (size : ℕ) (s : Reading) :
    Except Stop Reading := do
  let (value, rest) ← check (scanFloat s.input)
  let mem ← store 8 size s.mem (8 + 4 * s.d) (leBytes 4 value.toNat)
  .ok ⟨rest, mem, toInt (s.d + 1)⟩

/-- `"%zu "` -/
def sizeFormat : List Directive := [.number, .space]

/-- `read_filter` -/
def readFilter (scanFloat : List UInt8 → Option (UInt32 × List UInt8))
    (file : Option (List UInt8)) : Option (ℤ × Option Block) :=
  finish do
    let text ← check file
    let (values, rest) ← check (readNumbers 1 sizeFormat text)
    let size := storedSize (values.getD 0 0)
    let filter ← createFilter malloc (toInt size)
    let s ← times (intLoop (toSize (size * size))) (coefficient scanFloat filter.size)
      ⟨rest, filter.mem, 0⟩
    .ok ⟨filter.size, s.mem⟩

end

/-! ## The loops -/

/-- How many of the next `n` items can be read. -/
def itemsRead {β : Type} (read : List UInt8 → Option (β × List UInt8)) : ℕ → List UInt8 → ℕ
  | 0, _ => 0
  | n + 1, input =>
    match read input with
    | none => 0
    | some (_, rest) => itemsRead read n rest + 1

/-- A step that reads an item and puts it where `d` says. -/
def ReadsInto {β : Type} (read : List UInt8 → Option (β × List UInt8)) (inside : ℤ → Prop)
    (body : Reading → Except Stop Reading) : Prop :=
  ∀ s, (read s.input = none → body s = .error .failed) ∧
    ∀ x rest, read s.input = some (x, rest) →
      (inside s.d → ∃ mem, body s = .ok ⟨rest, mem, toInt (s.d + 1)⟩) ∧
      (¬inside s.d → body s = .error .stray)

/-- A loop stays inside if all the items that it reads do. -/
theorem times_ne_stray_iff {β : Type} {read : List UInt8 → Option (β × List UInt8)}
    {inside : ℤ → Prop} {body : Reading → Except Stop Reading}
    (hbody : ReadsInto read inside body) (n a : ℕ) {s : Reading} (hd : s.d = toInt a) :
    times n body s ≠ .error .stray ↔
      ∀ m < itemsRead read n s.input, inside (toInt (a + m : ℕ)) := by
  induction n generalizing a s with
  | zero =>
    refine ⟨fun _ m hm => absurd hm (Nat.not_lt_zero m), fun _ h => ?_⟩
    cases h
  | succ n ih =>
    obtain ⟨hnone, hsome⟩ := hbody s
    rw [times, itemsRead]
    cases hread : read s.input with
    | none =>
      rw [hnone hread]
      refine ⟨fun _ m hm => absurd hm (Nat.not_lt_zero m), fun _ h => ?_⟩
      cases h
    | some p =>
      obtain ⟨x, rest⟩ := p
      obtain ⟨hin, hout⟩ := hsome x rest hread
      by_cases h0 : inside s.d
      · obtain ⟨mem, hmem⟩ := hin h0
        rw [hmem]
        have hd' : toInt (s.d + 1) = toInt (a + 1 : ℕ) := by
          rw [hd, toInt_succ]
          rfl
        refine Iff.trans (ih (s := ⟨rest, mem, toInt (s.d + 1)⟩) (a + 1) hd') ?_
        constructor
        · intro h m hm
          cases m with
          | zero => rwa [Nat.add_zero, ← hd]
          | succ m =>
            rw [← Nat.succ_add_eq_add_succ]
            exact h m (Nat.lt_of_succ_lt_succ hm)
        · intro h m hm
          rw [Nat.succ_add_eq_add_succ]
          exact h (m + 1) (Nat.succ_lt_succ hm)
      · rw [hout h0]
        refine ⟨fun h => absurd rfl h, fun h => ?_⟩
        rw [hd] at h0
        exact absurd (h 0 (Nat.succ_pos _)) h0

/-- The first `n` items have room in a block, behind its header. -/
def Room (header stride size n : ℕ) : Prop :=
  n = 0 ∨ header + stride * (n - 1) + 4 ≤ size ∧ n ≤ 2 ^ 31

/-- The place of an item. -/
def Inside (header stride size : ℕ) (d : ℤ) : Prop :=
  (header : ℤ) ≤ header + stride * d ∧ (header : ℤ) + stride * d + 4 ≤ size

theorem inside_natCast {header stride size m : ℕ} :
    Inside header stride size (m : ℤ) ↔ header + stride * m + 4 ≤ size := by
  unfold Inside
  rw [← Nat.cast_mul]
  omega

theorem not_inside_neg {header stride size : ℕ} (hs : 0 < stride) {d : ℤ} (hd : d < 0) :
    ¬Inside header stride size d := by
  intro h
  have hneg : (stride : ℤ) * d < 0 := Int.mul_neg_of_pos_of_neg (by omega) hd
  have := h.1
  omega

/-- The places go on until the counter turns negative. -/
theorem forall_inside_iff {header stride size n : ℕ} (hs : 0 < stride) :
    (∀ m < n, Inside header stride size (toInt m)) ↔ Room header stride size n := by
  unfold Room
  constructor
  · intro h
    by_cases hn : n = 0
    · exact .inl hn
    · have hle : n ≤ 2 ^ 31 := by
        by_contra hgt
        exact not_inside_neg hs (by decide) (h (2 ^ 31) (by omega))
      have hlast := h (n - 1) (by omega)
      rw [toInt_natCast (by omega), inside_natCast] at hlast
      exact .inr ⟨hlast, hle⟩
  · intro h m hm
    obtain rfl | ⟨hlast, hle⟩ := h
    · exact absurd hm (Nat.not_lt_zero m)
    · rw [toInt_natCast (by omega), inside_natCast]
      have hmul : stride * m ≤ stride * (n - 1) := Nat.mul_le_mul_left stride (by omega)
      omega

theorem store_inside {lo hi pos : ℤ} (mem : ℤ → UInt8) (bytes : List UInt8)
    (h : lo ≤ pos ∧ pos + bytes.length ≤ hi) : ∃ mem', store lo hi mem pos bytes = .ok mem' :=
  ⟨_, if_pos h⟩

theorem store_outside {lo hi pos : ℤ} (mem : ℤ → UInt8) (bytes : List UInt8)
    (h : ¬(lo ≤ pos ∧ pos + bytes.length ≤ hi)) : store lo hi mem pos bytes = .error .stray :=
  if_neg h

theorem pixel_readsInto (scale : ℕ → UInt8 → UInt8) (maxVal size : ℕ) :
    ReadsInto (readNumbers 1 pixelFormat) (Inside 16 1 size) (pixel scale maxVal size) := by
  intro s
  constructor
  · intro h
    unfold pixel
    rw [h]
    rfl
  · intro values rest h
    have hlen : ∀ v, (leBytes 4 v).length = 4 := length_leBytes 4
    constructor
    · intro hin
      unfold Inside at hin
      obtain ⟨mem, hmem⟩ := store_inside s.mem
        (leBytes 4 (storedInt (values.getD 0 0) % 2 ^ 32).toNat)
        (show 16 ≤ 16 + s.d ∧ 16 + s.d + _ ≤ (size : ℤ) by rw [hlen]; omega)
      obtain ⟨mem', hmem'⟩ := store_inside mem [scale maxVal (mem (16 + s.d))]
        (show 16 ≤ 16 + s.d ∧ 16 + s.d + _ ≤ (size : ℤ) by rw [List.length_singleton]; omega)
      refine ⟨mem', ?_⟩
      unfold pixel
      rw [h]
      show (store 16 size s.mem (16 + s.d) _).bind _ = _
      rw [hmem]
      show (store 16 size mem (16 + s.d) _).bind _ = _
      rw [hmem']
      rfl
    · intro hout
      unfold pixel
      rw [h]
      show (store 16 size s.mem (16 + s.d) _).bind _ = _
      rw [store_outside _ _ (by rw [hlen]; unfold Inside at hout; omega)]
      rfl

theorem coefficient_readsInto (scanFloat : List UInt8 → Option (UInt32 × List UInt8)) (size : ℕ) :
    ReadsInto scanFloat (Inside 8 4 size) (coefficient scanFloat size) := by
  intro s
  constructor
  · intro h
    unfold coefficient
    rw [h]
    rfl
  · intro value rest h
    have hlen : (leBytes 4 value.toNat).length = 4 := length_leBytes 4 _
    constructor
    · intro hin
      unfold Inside at hin
      obtain ⟨mem, hmem⟩ := store_inside s.mem (leBytes 4 value.toNat)
        (show 8 ≤ 8 + 4 * s.d ∧ 8 + 4 * s.d + _ ≤ (size : ℤ) by rw [hlen]; omega)
      refine ⟨mem, ?_⟩
      unfold coefficient
      rw [h]
      show (store 8 size s.mem (8 + 4 * s.d) _).bind _ = _
      rw [hmem]
      rfl
    · intro hout
      unfold coefficient
      rw [h]
      show (store 8 size s.mem (8 + 4 * s.d) _).bind _ = _
      rw [store_outside _ _ (by rw [hlen]; unfold Inside at hout; omega)]
      rfl

/-! ## The loaders stay inside -/

/-- The call returns, with `*ret` set on success and a null pointer on failure. -/
def Lawful {α : Type} (o : Option (ℤ × Option α)) : Prop :=
  ∃ ret out, o = some (ret, out) ∧ (ret = 0 ∧ out.isSome ∨ ret = -1 ∧ out = none)

theorem lawful_finish_iff {α : Type} (r : Except Stop α) :
    Lawful (finish r) ↔ r ≠ .error .stray := by
  cases r with
  | ok a => exact ⟨fun _ h => (by cases h), fun _ => ⟨0, some a, rfl, .inl ⟨rfl, rfl⟩⟩⟩
  | error e =>
    cases e with
    | failed => exact ⟨fun _ h => (by cases h), fun _ => ⟨-1, none, rfl, .inr ⟨rfl, rfl⟩⟩⟩
    | stray =>
      refine ⟨fun h => ?_, fun h => absurd rfl h⟩
      obtain ⟨_, _, hnone, -⟩ := h
      cases hnone

section

variable {malloc : ℕ → Option (ℤ → UInt8)}

/-- The header has to fit into the block. -/
theorem pgmCreate_eq {width height : ℕ} {mem : ℤ → UInt8}
    (h : malloc (imageSize width height) = some mem) :
    (16 ≤ imageSize width height →
      ∃ mem', pgmCreate malloc width height = .ok ⟨imageSize width height, mem'⟩) ∧
    (¬16 ≤ imageSize width height → pgmCreate malloc width height = .error .stray) := by
  have hlen : ∀ v, (leBytes 8 v).length = 8 := length_leBytes 8
  have hcreate : pgmCreate malloc width height =
      (store 0 (imageSize width height) mem 0 (leBytes 8 width)).bind fun mem =>
        (store 0 (imageSize width height) mem 8 (leBytes 8 height)).bind fun mem =>
          .ok ⟨imageSize width height, mem⟩ := by
    unfold pgmCreate
    dsimp only
    rw [h]
    rfl
  rw [hcreate]
  constructor
  · intro hsize
    obtain ⟨mem₁, h1⟩ := store_inside mem (leBytes 8 width)
      (show 0 ≤ 0 ∧ 0 + _ ≤ (imageSize width height : ℤ) by rw [hlen]; omega)
    obtain ⟨mem₂, h2⟩ := store_inside mem₁ (leBytes 8 height)
      (show 0 ≤ 8 ∧ 8 + _ ≤ (imageSize width height : ℤ) by rw [hlen]; omega)
    exact ⟨mem₂, by rw [h1, Except.bind, h2]; rfl⟩
  · intro hsize
    by_cases h8 : 8 ≤ imageSize width height
    · obtain ⟨mem₁, h1⟩ := store_inside mem (leBytes 8 width)
        (show 0 ≤ 0 ∧ 0 + _ ≤ (imageSize width height : ℤ) by rw [hlen]; omega)
      rw [h1, Except.bind, store_outside _ _ (by rw [hlen]; omega)]
      rfl
    · rw [store_outside _ _ (by rw [hlen]; omega)]
      rfl

theorem createFilter_eq {size : ℤ} {mem : ℤ → UInt8} (h : malloc (filterSize size) = some mem) :
    (8 ≤ filterSize size →
      ∃ mem', createFilter malloc size = .ok ⟨filterSize size, mem'⟩) ∧
    (¬8 ≤ filterSize size → createFilter malloc size = .error .stray) := by
  have hlen : (leBytes 8 (toSize size)).length = 8 := length_leBytes 8 _
  have hcreate : createFilter malloc size =
      (store 0 (filterSize size) mem 0 (leBytes 8 (toSize size))).bind fun mem =>
        .ok ⟨filterSize size, mem⟩ := by
    unfold createFilter
    rw [h]
    rfl
  rw [hcreate]
  constructor
  · intro hsize
    obtain ⟨mem₁, h1⟩ := store_inside mem (leBytes 8 (toSize size))
      (show 0 ≤ 0 ∧ 0 + _ ≤ (filterSize size : ℤ) by rw [hlen]; omega)
    exact ⟨mem₁, by rw [h1]; rfl⟩
  · intro hsize
    rw [store_outside _ _ (by rw [hlen]; omega)]
    rfl

/-- What the loop leaves is what it comes to. -/
theorem bind_ok_ne_stray_iff {α β : Type} (r : Except Stop α) (f : α → β) :
    (r.bind fun a => .ok (f a)) ≠ .error .stray ↔ r ≠ .error .stray := by
  cases r with
  | ok a => exact ⟨fun _ h => (by cases h), fun _ h => (by cases h)⟩
  | error e =>
    cases e with
    | failed => exact ⟨fun _ h => (by cases h), fun _ h => (by cases h)⟩
    | stray => exact ⟨fun h _ => h rfl, fun h _ => h rfl⟩

theorem check_bind_ne_stray_iff {α β : Type} (o : Option α) (f : α → Except Stop β) :
    (check o).bind f ≠ .error .stray ↔ ∀ a, o = some a → f a ≠ .error .stray := by
  cases o with
  | none => exact ⟨fun _ _ h => (by cases h), fun _ h => (by cases h)⟩
  | some a => exact ⟨fun h b hb => Option.some.inj hb ▸ h, fun h => h a rfl⟩

/-- The samples that `pgm_load` reads have room in the block. -/
def PgmRoom (malloc : ℕ → Option (ℤ → UInt8)) (file : Option (List UInt8)) : Prop :=
  ∀ text, file = some text →
    ∀ values rest, readNumbers 3 headerFormat text = some (values, rest) →
    let width := storedSize (values.getD 0 0)
    let height := storedSize (values.getD 1 0)
    let size := imageSize width height
    (malloc size).isSome →
      16 ≤ size ∧
        Room 16 1 size (itemsRead (readNumbers 1 pixelFormat) (intLoop height * intLoop width) rest)

/-- The coefficients that `read_filter` reads have room in the block. -/
def FilterRoom (malloc : ℕ → Option (ℤ → UInt8))
    (scanFloat : List UInt8 → Option (UInt32 × List UInt8)) (file : Option (List UInt8)) : Prop :=
  ∀ text, file = some text →
    ∀ values rest, readNumbers 1 sizeFormat text = some (values, rest) →
    let size := storedSize (values.getD 0 0)
    let block := filterSize (toInt size)
    (malloc block).isSome →
      8 ≤ block ∧
        Room 8 4 block (itemsRead scanFloat (intLoop (toSize (size * size))) rest)

theorem pgmLoad_lawful_iff (scale : ℕ → UInt8 → UInt8) (file : Option (List UInt8)) :
    Lawful (pgmLoad malloc scale file) ↔ PgmRoom malloc file := by
  unfold pgmLoad PgmRoom
  rw [lawful_finish_iff]
  refine (check_bind_ne_stray_iff file _).trans
    (forall_congr' fun text => imp_congr_right fun _ => ?_)
  refine (check_bind_ne_stray_iff (readNumbers 3 headerFormat text) _).trans ?_
  rw [Prod.forall]
  refine forall₂_congr fun values rest => imp_congr_right fun _ => ?_
  dsimp only
  generalize storedSize (values.getD 0 0) = width
  generalize storedSize (values.getD 1 0) = height
  generalize storedSize (values.getD 2 0) = maxVal
  show (pgmCreate malloc width height).bind (fun img =>
    (times (intLoop height) (times (intLoop width) (pixel scale maxVal img.size))
      ⟨rest, img.mem, 0⟩).bind fun s => .ok (Block.mk img.size s.mem)) ≠ .error .stray ↔ _
  cases hmalloc : malloc (imageSize width height) with
  | none =>
    have hcreate : pgmCreate malloc width height = .error .failed := by
      unfold pgmCreate
      dsimp only
      rw [hmalloc]
      rfl
    rw [hcreate]
    exact ⟨fun _ h => (by cases h), fun _ h => (by cases h)⟩
  | some mem =>
    obtain ⟨hin, hout⟩ := pgmCreate_eq hmalloc
    by_cases hsize : 16 ≤ imageSize width height
    · obtain ⟨mem', hcreate⟩ := hin hsize
      rw [hcreate]
      refine (bind_ok_ne_stray_iff _ _).trans ?_
      rw [times_times, times_ne_stray_iff (pixel_readsInto scale maxVal _) _ 0 rfl]
      simp only [Nat.zero_add, forall_inside_iff Nat.zero_lt_one]
      exact ⟨fun h _ => ⟨hsize, h⟩, fun h => (h rfl).2⟩
    · rw [hout hsize]
      exact ⟨fun h => absurd rfl h, fun h => absurd (h rfl).1 hsize⟩

theorem readFilter_lawful_iff (scanFloat : List UInt8 → Option (UInt32 × List UInt8))
    (file : Option (List UInt8)) :
    Lawful (readFilter malloc scanFloat file) ↔ FilterRoom malloc scanFloat file := by
  unfold readFilter FilterRoom
  rw [lawful_finish_iff]
  refine (check_bind_ne_stray_iff file _).trans
    (forall_congr' fun text => imp_congr_right fun _ => ?_)
  refine (check_bind_ne_stray_iff (readNumbers 1 sizeFormat text) _).trans ?_
  rw [Prod.forall]
  refine forall₂_congr fun values rest => imp_congr_right fun _ => ?_
  dsimp only
  generalize storedSize (values.getD 0 0) = size
  show (createFilter malloc (toInt size)).bind (fun filter =>
    (times (intLoop (toSize (size * size))) (coefficient scanFloat filter.size)
      ⟨rest, filter.mem, 0⟩).bind fun s => .ok (Block.mk filter.size s.mem)) ≠ .error .stray ↔ _
  cases hmalloc : malloc (filterSize (toInt size)) with
  | none =>
    have hcreate : createFilter malloc (toInt size) = .error .failed := by
      unfold createFilter
      rw [hmalloc]
      rfl
    rw [hcreate]
    exact ⟨fun _ h => (by cases h), fun _ h => (by cases h)⟩
  | some mem =>
    obtain ⟨hin, hout⟩ := createFilter_eq hmalloc
    by_cases hsize : 8 ≤ filterSize (toInt size)
    · obtain ⟨mem', hcreate⟩ := hin hsize
      rw [hcreate]
      refine (bind_ok_ne_stray_iff _ _).trans ?_
      rw [times_ne_stray_iff (coefficient_readsInto scanFloat _) _ 0 rfl]
      simp only [Nat.zero_add, forall_inside_iff (Nat.succ_pos 3)]
      exact ⟨fun h _ => ⟨hsize, h⟩, fun h => (h rfl).2⟩
    · rw [hout hsize]
      exact ⟨fun h => absurd rfl h, fun h => absurd (h rfl).1 hsize⟩

/-- The `int` of the only pixel of an image does not fit behind its header; a filter
    of the size `2 ^ 32 + 1` is allocated with the size `1`. -/
theorem loaders_stray :
    ¬Lawful (pgmLoad (fun _ => some fun _ => 0) (fun _ p => p)
      (some [80, 50, 32, 49, 32, 49, 32, 50, 53, 53, 32, 55, 10])) ∧
    ¬Lawful (readFilter (fun _ => some fun _ => 0) (fun input => input.head?.map fun _ =>
        (0, input.tail))
      (some [52, 50, 57, 52, 57, 54, 55, 50, 57, 55, 10, 48, 48])) := by
  rw [pgmLoad_lawful_iff, readFilter_lawful_iff]
  constructor
  · intro h
    obtain ⟨-, h0 | ⟨h1, -⟩⟩ := h _ rfl [1, 1, 255] [55, 10] rfl rfl
    · exact absurd h0 (by decide)
    · exact absurd h1 (by decide)
  · intro h
    obtain ⟨-, h0 | ⟨h1, -⟩⟩ := h _ rfl [4294967297] [48, 48] rfl rfl
    · exact absurd h0 (by decide)
    · exact absurd h1 (by decide)

/-- **Where the loaders write.** `pgm_load` and `read_filter` store only to what they
    have allocated, and report every failure with `*ret` a null pointer, exactly when
    the header and the items that they read have room in the block. -/
theorem loaders_inside_iff (malloc : ℕ → Option (ℤ → UInt8)) (scale : ℕ → UInt8 → UInt8)
    (scanFloat : List UInt8 → Option (UInt32 × List UInt8)) (file : Option (List UInt8)) :
    (Lawful (pgmLoad malloc scale file) ↔ PgmRoom malloc file) ∧
      (Lawful (readFilter malloc scanFloat file) ↔ FilterRoom malloc scanFloat file) :=
  ⟨pgmLoad_lawful_iff scale file, readFilter_lawful_iff scanFloat file⟩

end

end AghOs.Pgm.Checked
