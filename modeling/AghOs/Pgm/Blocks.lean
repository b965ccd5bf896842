import AghOs.Pgm.Loaders

/-!
# The image in its block

`AghOs.Pgm.pgmLoadIn` counts the pixels in `ℕ` and keeps them apart from the header;
`AghOs.Pgm.Checked.pgmLoad` has the counters of the source and a block that starts with
the header. On a file whose sides fit the counters they are the same function, for the
room that a block of exactly the size asked for has.

* `times_agree`: two loops whose bodies agree.
* `pgmLoad_agrees`: the two models of `pgm_load`.
-/

namespace AghOs.Pgm.Checked

/-- How the two models end alike. -/
inductive Agree {α β : Type} (R : α → β → Prop) : Except Stop α → Except LoadError β → Prop
  | ok {a : α} {b : β} : R a b → Agree R (.ok a) (.ok b)
  | failed {e : LoadError} : e ≠ .stray → Agree R (.error .failed) (.error e)
  | stray : Agree R (.error .stray) (.error .stray)

theorem Agree.bind {α α' β β' : Type} {R : α → β → Prop} {R' : α' → β' → Prop}
    {a : Except Stop α} {b : Except LoadError β} {f : α → Except Stop α'}
    {g : β → Except LoadError β'} (h : Agree R a b) (hfg : ∀ a b, R a b → Agree R' (f a) (g b)) :
    Agree R' (a.bind f) (b.bind g) := by
  cases h with
  | ok hab => exact hfg _ _ hab
  | failed he => exact .failed he
  | stray => exact .stray

theorem Agree.trans_eq {α β : Type} {R : α → β → Prop} {a : Except Stop α}
    {b b' : Except LoadError β} (h : Agree R a b) (hb : b = b') : Agree R a b' :=
  hb ▸ h

/-- Two loops agree if their bodies do, as long as the counter is below `n`. -/
theorem times_agree {α β : Type} {R : α → β → Prop} {d : β → ℕ} {f : α → Except Stop α}
    {g : β → Except LoadError β} {n : ℕ}
    (hbody : ∀ a b, R a b → d b < n →
      Agree (fun a' b' => R a' b' ∧ d b' = d b + 1) (f a) (g b))
    (k : ℕ) {a : α} {b : β} (h : R a b) (hd : d b + k ≤ n) :
    Agree R (times k f a) (times k g b) := by
  induction k generalizing a b with
  | zero => exact .ok h
  | succ k ih =>
    refine (hbody a b h (by omega)).bind fun a' b' h' => ih h'.1 ?_
    rw [h'.2]
    omega

/-! ## The loops of `pgm_load` -/

section

variable {room : Option ℕ} {scale : ℕ → UInt8 → UInt8} {maxVal : ℕ}

/-- The body of the inner loop. -/
def step (room : Option ℕ) (scale : ℕ → UInt8 → UInt8) (maxVal : ℕ) (s : Loading) :
    Except LoadError Loading :=
  match readOrFail 1 pixelFormat s.input with
  | .error e => .error e
  | .ok (values, rest) =>
    if Within room (s.d + 4) then .ok (s.pixel scale maxVal (values.getD 0 0) rest)
    else .error .stray

theorem loadCols_eq (cols : ℕ) (s : Loading) :
    loadCols room scale maxVal cols s = times cols (step room scale maxVal) s := by
  induction cols generalizing s with
  | zero => rfl
  | succ cols ih =>
    rw [loadCols, times, step]
    cases readOrFail 1 pixelFormat s.input with
    | error e => rfl
    | ok p =>
      dsimp only
      split
      · exact ih _
      · rfl

theorem loadRows_eq (width rows : ℕ) (s : Loading) :
    loadRows room scale maxVal width rows s =
      times (rows * width) (step room scale maxVal) s := by
  rw [← times_times]
  induction rows generalizing s with
  | zero => rfl
  | succ rows ih =>
    rw [loadRows, times, loadCols_eq]
    cases times width (step room scale maxVal) s with
    | error e => rfl
    | ok s => exact ih s

/-- The bytes behind the header are the pixels, and the header is as it was. -/
structure Holds (header : ℤ → UInt8) (r : Reading) (s : Loading) : Prop where
  input : r.input = s.input
  d : r.d = s.d
  mem : ∀ i : ℕ, r.mem (16 + i) = s.mem i
  header : ∀ i < 16, r.mem i = header i

/-- The memory after the bytes have been stored at `pos`. -/
def stored (mem : ℤ → UInt8) (pos : ℤ) (bytes : List UInt8) : ℤ → UInt8 := fun i =>
  if pos ≤ i ∧ i < pos + bytes.length then bytes.getD (i - pos).toNat 0 else mem i

theorem store_eq {lo hi pos : ℤ} (mem : ℤ → UInt8) (bytes : List UInt8)
    (h : lo ≤ pos ∧ pos + bytes.length ≤ hi) :
    store lo hi mem pos bytes = .ok (stored mem pos bytes) :=
  if_pos h

theorem stored_of_lt (mem : ℤ → UInt8) {pos i : ℤ} (bytes : List UInt8) (h : i < pos) :
    stored mem pos bytes i = mem i :=
  if_neg (by omega)

theorem stored_of_le (mem : ℤ → UInt8) {pos i : ℤ} (bytes : List UInt8)
    (h : pos + bytes.length ≤ i) : stored mem pos bytes i = mem i :=
  if_neg (by omega)

theorem stored_getD (mem : ℤ → UInt8) (pos : ℤ) (bytes : List UInt8) {k : ℕ}
    (h : k < bytes.length) : stored mem pos bytes (pos + k) = bytes.getD k 0 := by
  rw [stored, if_pos (by omega), add_sub_cancel_left, Int.toNat_natCast]

section

variable {mem : ℤ → UInt8} {pixels : ℕ → UInt8} (h : ∀ i : ℕ, mem (16 + i) = pixels i)
include h

/-- An `int` in the block, and in the pixels. -/
theorem stored_int (d : ℕ) (v : ℤ) (i : ℕ) :
    stored mem (16 + d) (leBytes 4 (v % 2 ^ 32).toNat) (16 + i) = storeInt pixels d v i := by
  rw [stored, length_leBytes, storeInt]
  by_cases hi : d ≤ i ∧ i < d + 4
  · rw [if_pos hi, if_pos (by omega)]
    congr 1
    omega
  · rw [if_neg hi, if_neg (by omega), h]

/-- A pixel in the block, and in the pixels. -/
theorem stored_byte (d : ℕ) (c : UInt8) (i : ℕ) :
    stored mem (16 + d) [c] (16 + i) = Function.update pixels d c i := by
  by_cases hi : i = d
  · subst hi
    rw [Function.update_self, stored, if_pos (by rw [List.length_singleton]; omega), Int.sub_self]
    rfl
  · rw [Function.update_of_ne hi, stored, if_neg (by rw [List.length_singleton]; omega), h]

end

theorem readOrFail_ne_stray {n : ℤ} {fmt : List Directive} {input : List UInt8} {e : LoadError}
    (h : readOrFail n fmt input = .error e) : e ≠ .stray := by
  unfold readOrFail at h
  dsimp only at h
  split at h
  · cases h
    split <;> exact nofun
  · cases h

theorem pixel_agrees {header : ℤ → UInt8} {size n : ℕ} (hsize : size = 16 + n) (hn : n < 2 ^ 31)
    {r : Reading} {s : Loading} (h : Holds header r s) (hd : s.d < n) :
    Agree (fun r' s' => Holds header r' s' ∧ s'.d = s.d + 1) (pixel scale maxVal size r)
      (step (some n) scale maxVal s) := by
  unfold pixel step readNumbers
  rw [h.input, h.d]
  cases hread : readOrFail 1 pixelFormat s.input with
  | error e => exact .failed (readOrFail_ne_stray hread)
  | ok p =>
    obtain ⟨values, rest⟩ := p
    let bytes := leBytes 4 (storedInt (values.getD 0 0) % 2 ^ 32).toNat
    have hlen : bytes.length = 4 := length_leBytes 4 _
    show Agree _ ((store 16 size r.mem (16 + s.d) bytes).bind fun mem =>
      (store 16 size mem (16 + s.d) [scale maxVal (mem (16 + s.d))]).bind fun mem =>
        .ok (⟨rest, mem, toInt ((s.d : ℤ) + 1)⟩ : Reading)) (if _ then _ else _)
    by_cases hroom : s.d + 4 ≤ n
    · have hin : Within (some n) (s.d + 4) := by
        rintro _ ⟨⟩
        exact hroom
      rw [store_eq _ _ (by rw [hlen]; omega), if_pos hin]
      show Agree _ ((store 16 size _ (16 + s.d) _).bind _) _
      rw [store_eq _ _ (by rw [List.length_singleton]; omega)]
      have hint := stored_int h.mem s.d (storedInt (values.getD 0 0))
      have hnext : toInt ((s.d : ℤ) + 1) = ((s.d + 1 : ℕ) : ℤ) := by
        rw [← toInt_natCast (n := s.d + 1) (by omega), Nat.cast_succ]
      rw [hnext, hint s.d]
      refine .ok ⟨?_, rfl⟩
      constructor
      · rfl
      · rfl
      · exact stored_byte hint s.d _
      · intro i hi
        dsimp only
        rw [stored_of_lt _ _ (by omega), stored_of_lt _ _ (by omega), h.header i hi]
    · have hout : ¬Within (some n) (s.d + 4) := fun hin => hroom (hin n rfl)
      rw [store_outside _ _ (by rw [hlen]; omega), if_neg hout]
      exact .stray

theorem intLoop_eq_self {n : ℕ} (h : n < 2 ^ 31) : intLoop n = n := by
  unfold intLoop
  split_ifs <;> omega

/-- The loops, from the first pixel on. -/
theorem rows_agree {header : ℤ → UInt8} {size width height : ℕ}
    (hsize : size = 16 + width * height) (hw : width < 2 ^ 31) (hh : height < 2 ^ 31)
    (harea : width * height < 2 ^ 31) {r : Reading} {s : Loading} (h : Holds header r s)
    (hd : s.d = 0) :
    Agree (Holds header)
      (times (intLoop height) (times (intLoop width) (pixel scale maxVal size)) r)
      (loadRows (some (width * height)) scale maxVal width height s) := by
  rw [intLoop_eq_self hw, intLoop_eq_self hh, times_times, loadRows_eq]
  exact times_agree (fun r s => pixel_agrees hsize harea) _ h
    (by rw [hd, Nat.zero_add, Nat.mul_comm])

end

/-! ## `pgm_load` -/

/-- The image that lies in a block. -/
def Block.image (b : Block) : Image :=
  Pgm.pgmCreate (fun i : ℕ => b.mem (16 + i)) (leNat ((List.range 8).map fun i : ℕ => b.mem i))
    (leNat ((List.range 8).map fun i : ℕ => b.mem (8 + i)))

/-- The sides in a file are such that no counter overflows. -/
def CountersFit (file : Option (List UInt8)) : Prop :=
  ∀ text, file = some text →
    ∀ values rest, readNumbers 3 headerFormat text = some (values, rest) →
    let width := storedSize (values.getD 0 0)
    let height := storedSize (values.getD 1 0)
    width < 2 ^ 31 ∧ height < 2 ^ 31 ∧ width * height < 2 ^ 31

theorem leBytes_stored (mem : ℤ → UInt8) (pos : ℤ) (v : ℕ) :
    (List.range 8).map (fun i : ℕ => stored mem pos (leBytes 8 v) (pos + i)) = leBytes 8 v := by
  apply List.ext_getElem
  · simp
  · intro i hi hi'
    rw [List.getElem_map, List.getElem_range, stored_getD _ _ _ hi',
      List.getD_eq_getElem?_getD, List.getElem?_eq_getElem hi', Option.getD_some]

/-- `pgm_create`, if the memory is there: a block without pixels yet. -/
theorem pgmCreate_holds {malloc : ℕ → Option (ℤ → UInt8)} {width height : ℕ} {mem : ℤ → UInt8}
    (hsize : 16 ≤ imageSize width height) (h : malloc (imageSize width height) = some mem) :
    pgmCreate malloc width height = .ok ⟨imageSize width height,
      stored (stored mem 0 (leBytes 8 width)) 8 (leBytes 8 height)⟩ := by
  have hlen : ∀ v, (leBytes 8 v).length = 8 := length_leBytes 8
  have hcreate : pgmCreate malloc width height =
      (store 0 (imageSize width height) mem 0 (leBytes 8 width)).bind fun mem =>
        (store 0 (imageSize width height) mem 8 (leBytes 8 height)).bind fun mem =>
          .ok ⟨imageSize width height, mem⟩ := by
    unfold pgmCreate
    dsimp only
    rw [h]
    rfl
  rw [hcreate, store_eq _ _ (by rw [hlen]; omega)]
  show (store _ _ _ _ _).bind _ = _
  rw [store_eq _ _ (by rw [hlen]; omega)]
  rfl

/-- What the loops leave, as an image. -/
theorem Holds.image {mem : ℤ → UInt8} {width height size : ℕ} {r : Reading} {s : Loading}
    (hw : width < 2 ^ 64) (hh : height < 2 ^ 64)
    (h : Holds (stored (stored mem 0 (leBytes 8 width)) 8 (leBytes 8 height)) r s) :
    (Block.mk size r.mem).image = Pgm.pgmCreate s.mem width height := by
  have hwidth : (List.range 8).map (fun i : ℕ => r.mem i) = leBytes 8 width := by
    rw [← leBytes_stored mem 0 width]
    refine List.map_congr_left fun i hi => ?_
    have hlt := List.mem_range.mp hi
    rw [h.header i (by omega), stored_of_lt _ _ (by omega), zero_add]
  have hheight : (List.range 8).map (fun i : ℕ => r.mem (8 + i)) = leBytes 8 height := by
    rw [← leBytes_stored (stored mem 0 (leBytes 8 width)) 8 height]
    refine List.map_congr_left fun i hi => ?_
    have hlt := List.mem_range.mp hi
    exact h.header (8 + i) (by omega)
  have hmem : (fun i : ℕ => r.mem (16 + i)) = s.mem := funext h.mem
  unfold Block.image
  rw [hwidth, hheight, hmem, leNat_leBytes (by omega), leNat_leBytes (by omega)]

theorem readNumbers_eq (n : ℤ) (fmt : List Directive) (input : List UInt8) :
    readNumbers n fmt input = (readOrFail n fmt input).toOption := by
  unfold readNumbers
  cases readOrFail n fmt input <;> rfl

/-- The part of `pgm_load` behind the header of the file. -/
def fill (malloc : ℕ → Option (ℤ → UInt8)) (scale : ℕ → UInt8 → UInt8) (width height maxVal : ℕ)
    (rest : List UInt8) : Except Stop Block :=
  (pgmCreate malloc width height).bind fun img =>
    (times (intLoop height) (times (intLoop width) (pixel scale maxVal img.size))
      ⟨rest, img.mem, 0⟩).bind fun s => .ok ⟨img.size, s.mem⟩

/-- The same part, with the pixels apart. -/
def fillIn (malloc : ℕ → Option (ℤ → UInt8)) (scale : ℕ → UInt8 → UInt8)
    (width height maxVal : ℕ) (rest : List UInt8) : Except LoadError Image :=
  match (malloc (imageSize width height)).map fun mem (i : ℕ) => mem (16 + i) with
  | none => .error .library
  | some mem =>
    match loadRows (some (imageSize width height - 16)) scale maxVal width height
      ⟨rest, mem, 0⟩ with
    | .error e => .error e
    | .ok s => .ok (Pgm.pgmCreate s.mem width height)

theorem fill_agrees (malloc : ℕ → Option (ℤ → UInt8)) (scale : ℕ → UInt8 → UInt8)
    {width height : ℕ} (maxVal : ℕ) (rest : List UInt8) (hw : width < 2 ^ 31)
    (hh : height < 2 ^ 31) (harea : width * height < 2 ^ 31) :
    Agree (fun b img => b.image = img) (fill malloc scale width height maxVal rest)
      (fillIn malloc scale width height maxVal rest) := by
  have hsize : imageSize width height = 16 + width * height := by
    unfold imageSize
    rw [← Nat.cast_mul]
    exact toSize_natCast (n := 16 + width * height) (by omega)
  unfold fill fillIn
  cases hmalloc : malloc (imageSize width height) with
  | none =>
    have hcreate : pgmCreate malloc width height = .error .failed := by
      unfold pgmCreate
      dsimp only
      rw [hmalloc]
      rfl
    rw [hcreate]
    exact .failed nofun
  | some mem =>
    rw [pgmCreate_holds (by omega) hmalloc]
    have hlen : ∀ v, (leBytes 8 v).length = 8 := length_leBytes 8
    let header := stored (stored mem 0 (leBytes 8 width)) 8 (leBytes 8 height)
    let pixels : ℕ → UInt8 := fun i => mem (16 + i)
    have hpixels : ∀ i : ℕ, header (16 + i) = pixels i := fun i =>
      (stored_of_le _ _ (by rw [hlen]; omega)).trans (stored_of_le _ _ (by rw [hlen]; omega))
    have hstart : Holds header ⟨rest, header, 0⟩ ⟨rest, pixels, 0⟩ :=
      ⟨rfl, rfl, hpixels, fun i _ => rfl⟩
    have hrows : Agree (Holds header)
        (times (intLoop height) (times (intLoop width)
          (pixel scale maxVal (imageSize width height))) ⟨rest, header, 0⟩)
        (loadRows (some (width * height)) scale maxVal width height ⟨rest, pixels, 0⟩) :=
      rows_agree hsize hw hh harea hstart rfl
    have hw64 : width < 2 ^ 64 := by omega
    have hh64 : height < 2 ^ 64 := by omega
    have himage : ∀ r s, Holds header r s →
        Agree (fun (b : Block) img => b.image = img)
          (.ok (Block.mk (imageSize width height) r.mem))
          (.ok (Pgm.pgmCreate s.mem width height)) := fun r s h =>
      .ok (Holds.image hw64 hh64 h)
    refine (hrows.bind himage).trans_eq ?_
    show Except.bind _ _ =
      match loadRows (some (imageSize width height - 16)) scale maxVal width height
        ⟨rest, pixels, 0⟩ with
      | .error e => .error e
      | .ok s => .ok (Pgm.pgmCreate s.mem width height)
    rw [hsize, Nat.add_sub_cancel_left]
    cases loadRows (some (width * height)) scale maxVal width height ⟨rest, pixels, 0⟩ <;> rfl

/-- **One loader.** The two models of `pgm_load` agree, for a block of exactly the size
    asked for: they fail on the same files, store behind the block on the same files,
    and leave the same image on the others. -/
theorem pgmLoad_agrees (malloc : ℕ → Option (ℤ → UInt8)) (scale : ℕ → UInt8 → UInt8)
    {file : Option (List UInt8)} (hfit : CountersFit file) :
    ∃ r, pgmLoad malloc scale file = finish r ∧
      Agree (fun b img => b.image = img) r (pgmLoadIn (fun size => some (size - 16)) scale
        (fun size => (malloc size).map fun mem (i : ℕ) => mem (16 + i)) file) := by
  refine ⟨_, rfl, ?_⟩
  cases file with
  | none => exact .failed nofun
  | some text =>
    show Agree _ ((check (readNumbers 3 headerFormat text)).bind fun p =>
      fill malloc scale (storedSize (p.1.getD 0 0)) (storedSize (p.1.getD 1 0))
        (storedSize (p.1.getD 2 0)) p.2) _
    unfold pgmLoadIn
    dsimp only
    cases hread : readOrFail 3 headerFormat text with
    | error e =>
      rw [readNumbers_eq, hread]
      exact .failed (readOrFail_ne_stray hread)
    | ok p =>
      have hsome : readNumbers 3 headerFormat text = some p := by
        rw [readNumbers_eq, hread]
        rfl
      obtain ⟨hw, hh, harea⟩ := hfit text rfl p.1 p.2 hsome
      rw [hsome]
      exact fill_agrees malloc scale (storedSize (p.1.getD 2 0)) p.2 hw hh harea

end AghOs.Pgm.Checked
