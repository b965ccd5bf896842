import AghOs.Machine.Bytes
import AghOs.Machine.Scanf
import AghOs.Pgm.Image
import Mathlib.Tactic.Common

/-!
# Images as text

Model of `pgm_save` and `pgm_load` (`src/cw08/zad1/src/pgm.c`, lines 27–91), for
images whose number of pixels fits in an `int`, as `row`, `col` and `d` do. A
file is its text.

The pixels of the image that `pgm_load` fills are memory: `fscanf` stores an
`int` over the pixel and the three bytes behind it, which are the next pixels or
lie behind the image. The scaling of a pixel by `255.f / max_val` is a parameter,
and so is the room that `malloc` leaves behind the header of the image: a store
behind it has no result. `pgmLoad` ignores what is stored there.

* `loadRows_saveRows`: the loops of `pgm_load` on what the loops of `pgm_save`
  wrote.
* `pgmLoad_pgmSave`: the round trip.
-/

namespace AghOs.Pgm

/-! ## `pgm_save` -/

/-- The texts that the inner loop writes, from pixel `d` on. -/
def saveCols (data : List UInt8) : ℕ → ℕ → List (List UInt8)
  | 0, _ => []
  | cols + 1, d => (decimal (data.getD d 0).toNat ++ [32]) :: saveCols data cols (d + 1)

/-- The texts that the outer loop writes, from pixel `d` on. -/
def saveRows (data : List UInt8) (width : ℕ) : ℕ → ℕ → List (List UInt8)
  | 0, _ => []
  | rows + 1, d => saveCols data width d ++ [10] :: saveRows data width rows (d + width)

/-- `"P2\n%zu %zu\n255\n"`. -/
def saveHeader (img : Image) : List UInt8 :=
  [80, 50, 10] ++ decimal img.width ++ [32] ++ decimal img.height ++ [10, 50, 53, 53, 10]

/-- `write_or_fail` on one text after the other: the return value of `pgm_save`
    and the text of the file. `ok` says which calls on the file succeed. -/
def writeOrFail (ok : ℕ → Bool) : ℕ → List (List UInt8) → List UInt8 → ℤ × List UInt8
  | _, [], file => (0, file)
  | call, text :: texts, file =>
    if ok call then writeOrFail ok (call + 1) texts (file ++ text) else (-1, file)

/-- `pgm_save`; call `0` on the file is `fopen`. -/
def pgmSave (ok : ℕ → Bool) (img : Image) : ℤ × List UInt8 :=
  if ok 0 then
    writeOrFail ok 1 (saveHeader img :: saveRows img.data img.width img.height 0) []
  else (-1, [])

/-! ## `pgm_load` -/

/-- How `pgm_load` fails. It returns `-1`: a call of the library failed and `errno` is
    as it left it, or the text is not one of an image and `errno` is `EINVAL`. Or it
    has stored behind its block, and there is no telling what happens. -/
inductive LoadError
  | library | einval | stray

/-- `read_or_fail`: the numbers read and the input behind them. -/
def readOrFail (n : ℤ) (fmt : List Directive) (input : List UInt8) :
    Except LoadError (List ℤ × List UInt8) :=
  let r := fscanf fmt input []
  if r.ret ≠ n then .error (if r.ret ≠ eof then .einval else .library)
  else .ok (r.values, r.rest)

/-- `"P2 %zu %zu %zu "`. -/
def headerFormat : List Directive :=
  [.char 80, .char 50, .space, .number, .space, .number, .space, .number, .space]

/-- `"%d "`. -/
def pixelFormat : List Directive := [.number, .space]

/-- The memory after the `int` `v` has been stored at `d`, little-endian. -/
def storeInt (mem : ℕ → UInt8) (d : ℕ) (v : ℤ) : ℕ → UInt8 := fun i =>
  if d ≤ i ∧ i < d + 4 then (leBytes 4 (v % 2 ^ 32).toNat).getD (i - d) 0 else mem i

/-- The input, the pixels and `d` in the loops of `pgm_load`. -/
structure Loading where
  input : List UInt8
  mem : ℕ → UInt8
  d : ℕ

section Load

/-- The first `n` bytes behind the header belong to the block, which has `room` for so
    many; with `none` there is no end to it. -/
def Within (room : Option ℕ) (n : ℕ) : Prop := ∀ r ∈ room, n ≤ r

instance (room : Option ℕ) : DecidablePred (Within room) :=
  fun _ => inferInstanceAs (Decidable (∀ r ∈ room, _))

variable (room : Option ℕ) (scale : ℕ → UInt8 → UInt8) (maxVal : ℕ)

/-- The body of the inner loop, once the pixel has been read. -/
def Loading.pixel (s : Loading) (v : ℤ) (rest : List UInt8) : Loading :=
  let mem := storeInt s.mem s.d (storedInt v)
  ⟨rest, Function.update mem s.d (scale maxVal (mem s.d)), s.d + 1⟩

/-- The inner loop. -/
def loadCols : ℕ → Loading → Except LoadError Loading
  | 0, s => .ok s
  | cols + 1, s =>
    match readOrFail 1 pixelFormat s.input with
    | .error e => .error e
    | .ok (values, rest) =>
      if Within room (s.d + 4) then loadCols cols (s.pixel scale maxVal (values.getD 0 0) rest)
      else .error .stray

/-- The outer loop. -/
def loadRows (width : ℕ) : ℕ → Loading → Except LoadError Loading
  | 0, s => .ok s
  | rows + 1, s =>
    match loadCols room scale maxVal width s with
    | .error e => .error e
    | .ok s => loadRows width rows s

end Load

/-- `sizeof(pgm_image) + sizeof(pix_t) * width * height`. -/
def imageSize (width height : ℕ) : ℕ := toSize (16 + width * height)

/-- `pgm_load` on a file with the given text, if it can be opened; `malloc` is
    the memory that a call of it returns, if it succeeds, with `room` for so many pixels. -/
def pgmLoadIn (room : ℕ → Option ℕ) (scale : ℕ → UInt8 → UInt8) (malloc : ℕ → Option (ℕ → UInt8))
    (file : Option (List UInt8)) : Except LoadError Image :=
  match file with
  | none => .error .library
  | some text =>
    match readOrFail 3 headerFormat text with
    | .error e => .error e
    | .ok (values, rest) =>
      let width := storedSize (values.getD 0 0)
      let height := storedSize (values.getD 1 0)
      let maxVal := storedSize (values.getD 2 0)
      match malloc (imageSize width height) with
      | none => .error .library
      | some mem =>
        match loadRows (room (imageSize width height)) scale maxVal width height
          ⟨rest, mem, 0⟩ with
        | .error e => .error e
        | .ok s => .ok (pgmCreate s.mem width height)

/-- `pgm_load`, where the bytes behind the last pixel are ignored. -/
def pgmLoad : (ℕ → UInt8 → UInt8) → (ℕ → Option (ℕ → UInt8)) → Option (List UInt8) →
    Except LoadError Image :=
  pgmLoadIn fun _ => none

/-! ## Reading back -/

section

variable {ok : ℕ → Bool} {texts : List (List UInt8)} {file : List UInt8} {call : ℕ}

theorem writeOrFail_eq (hok : ∀ i, ok i = true) :
    writeOrFail ok call texts file = (0, file ++ texts.flatten) := by
  induction texts generalizing call file with
  | nil => simp [writeOrFail]
  | cons text texts ih =>
    rw [writeOrFail, if_pos (hok call), ih, List.append_assoc]
    rfl

theorem pgmSave_eq (hok : ∀ i, ok i = true) (img : Image) :
    pgmSave ok img =
      (0, saveHeader img ++ (saveRows img.data img.width img.height 0).flatten) := by
  rw [pgmSave, if_pos (hok 0), writeOrFail_eq hok]
  rfl

end

section

variable {scale : ℕ → UInt8 → UInt8} {data : List UInt8} {input tail : List UInt8} {d : ℕ}
  {s : Loading}

/-- A pixel that fits in a byte is what the first of the four bytes holds. -/
theorem storeInt_self (mem : ℕ → UInt8) (d : ℕ) (p : UInt8) :
    storeInt mem d (p.toNat : ℤ) d = p := by
  have hlt := p.toNat_lt
  have hbyte : ((p.toNat : ℤ) % 2 ^ 32).toNat = p.toNat := by omega
  unfold storeInt
  rw [if_pos (by omega), hbyte, Nat.sub_self]
  exact UInt8.ofNat_toNat

theorem storeInt_of_lt (mem : ℕ → UInt8) {d i : ℕ} (v : ℤ) (h : i < d) :
    storeInt mem d v i = mem i := by
  unfold storeInt
  rw [if_neg (by omega)]

/-- The finished pixels and the input after `n` more pixels have been read from
    `s`. -/
structure Loading.After (data tail : List UInt8) (n : ℕ) (s s' : Loading) : Prop where
  input : s'.input = tail.dropWhile isWhite
  d : s'.d = s.d + n
  mem : ∀ i < s.d + n, s'.mem i = if i < s.d then s.mem i else data.getD i 0

theorem readOrFail_pixel {p : ℕ} (hinput : input = (decimal p ++ 32 :: tail).dropWhile isWhite) :
    readOrFail 1 pixelFormat input = .ok ([(p : ℤ)], tail.dropWhile isWhite) := by
  have hskip : input.dropWhile isWhite = decimal p ++ 32 :: tail := by
    rw [hinput, dropWhile_decimal, dropWhile_decimal]
  have hread : fscanf pixelFormat input [] = ⟨1, [(p : ℤ)], tail.dropWhile isWhite⟩ := by
    unfold pixelFormat
    rw [fscanf_number hskip (by rintro c ⟨⟩; rfl)]
    rfl
  unfold readOrFail
  rw [hread]
  rfl

theorem Loading.After.trans {mid : List UInt8} {m n : ℕ} {t u : Loading}
    (h : s.After data mid m t) (h' : t.After data tail n u) : s.After data tail (m + n) u := by
  have hd : t.d = s.d + m := h.d
  refine ⟨h'.input, by rw [h'.d, hd, Nat.add_assoc], fun i hi => ?_⟩
  rw [h'.mem i (by omega)]
  by_cases hit : i < t.d
  · rw [if_pos hit, h.mem i (by omega)]
  · rw [if_neg hit, if_neg (by omega)]

/-- One pixel: it is stored over the next three, which are still to be read. -/
theorem Loading.after_pixel (hscale : ∀ p, scale 255 p = p) :
    s.After data tail 1
      (s.pixel scale 255 ((data.getD s.d 0).toNat : ℤ) (tail.dropWhile isWhite)) := by
  refine ⟨rfl, rfl, fun i hi => ?_⟩
  have hlt := (data.getD s.d 0).toNat_lt
  simp only [Loading.pixel, storedInt_natCast (show (data.getD s.d 0).toNat < 2 ^ 31 by omega)]
  by_cases his : i = s.d
  · subst his
    rw [Function.update_self, hscale, storeInt_self, if_neg (Nat.lt_irrefl s.d)]
  · have hlt : i < s.d := by omega
    rw [Function.update_of_ne his, storeInt_of_lt _ _ hlt, if_pos hlt]

theorem loadCols_saveCols (hscale : ∀ p, scale 255 p = p) (cols : ℕ)
    (hinput : s.input = ((saveCols data cols s.d).flatten ++ tail).dropWhile isWhite) :
    ∃ s', loadCols none scale 255 cols s = .ok s' ∧ s.After data tail cols s' := by
  induction cols generalizing s with
  | zero =>
    refine ⟨s, rfl, hinput, rfl, fun i hi => ?_⟩
    rw [if_pos (by omega)]
  | succ cols ih =>
    let rest := (saveCols data cols (s.d + 1)).flatten ++ tail
    have hnext : s.input =
        (decimal (data.getD s.d 0).toNat ++ 32 :: rest).dropWhile isWhite := by
      rw [hinput]
      simp [saveCols, rest]
    have hpixel : s.After data rest 1 _ := Loading.after_pixel hscale
    obtain ⟨s', hs', hafter⟩ := ih hpixel.input
    refine ⟨s', ?_, ?_⟩
    · rw [loadCols, readOrFail_pixel hnext]
      exact (if_pos fun _ h => (by cases h)).trans hs'
    · rw [Nat.add_comm]
      exact hpixel.trans hafter

theorem loadRows_saveRows (hscale : ∀ p, scale 255 p = p) (width rows : ℕ)
    (hinput : s.input = (saveRows data width rows s.d).flatten.dropWhile isWhite) :
    ∃ s', loadRows none scale 255 width rows s = .ok s' ∧
      s.After data [] (rows * width) s' := by
  induction rows generalizing s with
  | zero =>
    refine ⟨s, rfl, hinput, by omega, fun i hi => ?_⟩
    rw [if_pos (by omega)]
  | succ rows ih =>
    let rest := (saveRows data width rows (s.d + width)).flatten
    have hrow : s.input = ((saveCols data width s.d).flatten ++ 10 :: rest).dropWhile isWhite := by
      rw [hinput]
      simp [saveRows, rest]
    obtain ⟨t, ht, hcols⟩ := loadCols_saveCols hscale width hrow
    have htail : t.input = (saveRows data width rows t.d).flatten.dropWhile isWhite := by
      rw [hcols.input, hcols.d]
      rfl
    obtain ⟨s', hs', hrows⟩ := ih htail
    refine ⟨s', ?_, ?_⟩
    · rw [loadRows, ht]
      exact hs'
    · rw [Nat.succ_mul, Nat.add_comm]
      exact hcols.trans hrows

/-- The header, and the white space behind it. -/
theorem readOrFail_header (width height : ℕ) (tail : List UInt8) :
    readOrFail 3 headerFormat ([80, 50, 10] ++ decimal width ++ [32] ++ decimal height ++
        [10, 50, 53, 53, 10] ++ tail) =
      .ok ([(width : ℤ), (height : ℤ), 255], tail.dropWhile isWhite) := by
  have h255 : decimal 255 = [50, 53, 53] := by simp [decimal]
  have htext : [80, 50, 10] ++ decimal width ++ [32] ++ decimal height ++
      [10, 50, 53, 53, 10] ++ tail = 80 :: 50 :: 10 ::
        (decimal width ++ 32 :: (decimal height ++ 10 :: (decimal 255 ++ 10 :: tail))) := by
    rw [h255]
    simp
  have hread : fscanf headerFormat (80 :: 50 :: 10 ::
      (decimal width ++ 32 :: (decimal height ++ 10 :: (decimal 255 ++ 10 :: tail)))) [] =
        ⟨3, [(width : ℤ), (height : ℤ), 255], tail.dropWhile isWhite⟩ := by
    show fscanf [.number, .space, .number, .space, .number, .space]
      ((decimal width ++ 32 :: _).dropWhile isWhite) [] = _
    rw [fscanf_number (by rw [dropWhile_decimal, dropWhile_decimal]) (by rintro c ⟨⟩; rfl)]
    show fscanf [.number, .space, .number, .space]
      ((decimal height ++ 10 :: _).dropWhile isWhite) [(width : ℤ)] = _
    rw [fscanf_number (by rw [dropWhile_decimal, dropWhile_decimal]) (by rintro c ⟨⟩; rfl)]
    show fscanf [.number, .space]
      ((decimal 255 ++ 10 :: _).dropWhile isWhite) [(width : ℤ), (height : ℤ)] = _
    rw [fscanf_number (by rw [dropWhile_decimal, dropWhile_decimal]) (by rintro c ⟨⟩; rfl)]
    rfl
  unfold readOrFail
  rw [htext, hread]
  rfl

end

/-- What `row`, `col` and `d` count fits in an `int`. -/
structure Image.Fits (img : Image) : Prop where
  width : img.width < 2 ^ 31
  height : img.height < 2 ^ 31
  area : img.width * img.height < 2 ^ 31

/-- What `pgm_save` writes, `pgm_load` reads back. -/
theorem pgmLoad_pgmSave {scale : ℕ → UInt8 → UInt8} (hscale : ∀ p, scale 255 p = p)
    {malloc : ℕ → Option (ℕ → UInt8)} {ok : ℕ → Bool} (hok : ∀ i, ok i = true) {img : Image}
    (hmalloc : (malloc (imageSize img.width img.height)).isSome) (hfits : img.Fits) :
    (pgmSave ok img).1 = 0 ∧ pgmLoad scale malloc (some (pgmSave ok img).2) = .ok img := by
  obtain ⟨mem, hmem⟩ := Option.isSome_iff_exists.mp hmalloc
  rw [pgmSave_eq hok]
  refine ⟨rfl, ?_⟩
  let start : Loading :=
    ⟨(saveRows img.data img.width img.height 0).flatten.dropWhile isWhite, mem, 0⟩
  have hstart : start.input =
      (saveRows img.data img.width img.height start.d).flatten.dropWhile isWhite := rfl
  obtain ⟨s, hs, hafter⟩ := loadRows_saveRows hscale img.width img.height hstart
  have hload : pgmLoad scale malloc (some (saveHeader img ++
      (saveRows img.data img.width img.height 0).flatten)) =
        .ok (pgmCreate s.mem img.width img.height) := by
    have hw := hfits.width
    have hh := hfits.height
    have hsize : storedSize (img.width : ℤ) = img.width ∧
        storedSize (img.height : ℤ) = img.height :=
      ⟨storedSize_natCast (by omega), storedSize_natCast (by omega)⟩
    have h255 : storedSize 255 = 255 := storedSize_natCast (n := 255) (by omega)
    simp only [pgmLoad, pgmLoadIn, saveHeader, readOrFail_header, List.getD_cons_zero,
      List.getD_cons_succ, hsize.1, hsize.2, h255, hmem]
    rw [show loadRows none scale 255 img.width img.height ⟨_, mem, 0⟩ = .ok s from hs]
  rw [hload]
  congr 1
  refine Image.ext rfl rfl ?_
  show (List.range (img.width * img.height)).map s.mem = img.data
  apply List.ext_getElem
  · rw [List.length_map, List.length_range, img.length_data]
  · intro i hi hdata
    have hlt : i < img.height * img.width := by
      rw [Nat.mul_comm, ← img.length_data]
      exact hdata
    rw [List.getElem_map, List.getElem_range, hafter.mem i (by omega), if_neg (Nat.not_lt_zero i)]
    show img.data.getD i 0 = img.data[i]
    rw [List.getD_eq_getElem?_getD, List.getElem?_eq_getElem hdata, Option.getD_some]

/-- Every pixel of this image but the last is stored over others. -/
theorem pgmLoad_pgmSave_five :
    pgmLoad (fun _ p => p) (fun _ => some fun _ => 1)
      (some (pgmSave (fun _ => true) ⟨5, 1, [255, 0, 7, 10, 99], rfl⟩).2) =
        .ok ⟨5, 1, [255, 0, 7, 10, 99], rfl⟩ :=
  (pgmLoad_pgmSave (fun _ => rfl) (fun _ => rfl) rfl ⟨by decide, by decide, by decide⟩).2

end AghOs.Pgm
