import AghOs.Machine.Words
import AghOs.Pgm.Text

/-!
# Scaling the samples

`pgm_load` (`src/cw08/zad1/src/pgm.c`, lines 62–91) on a P2 file, with exact
arithmetic: the counters do not overflow, and a pixel times `255.f / max_val` is
truncated without a rounding error. The block of the image has the room that `malloc`
leaves in it, and the `int` of the last pixel needs three bytes more than were asked
for.

* `pgmLoad_p2`: the image that is loaded; what is scaled is the low byte of the
  sample.
* `loads_rescaled_iff`: it is loaded and holds the rescaled samples exactly when there
  is that room, or no pixel, and no sample above `255` becomes more than `0`.
-/

namespace AghOs.Pgm

/-! ## P2 files -/

/-- A file in plain PGM: the magic number, the sides, the largest sample and the
    samples, between white space. -/
structure P2File where
  lead : List UInt8
  width : Word
  height : Word
  maxVal : Word
  samples : List Word
  lead_white : ∀ c ∈ lead, isWhite c = true
  separated : Word.Separated (width :: height :: maxVal :: samples)
  width_lt : width.value < 2 ^ 64
  height_lt : height.value < 2 ^ 64
  maxVal_pos : 1 ≤ maxVal.value
  maxVal_le : maxVal.value ≤ 65535
  samples_le : ∀ w ∈ samples, w.value ≤ maxVal.value
  samples_length : samples.length = width.value * height.value

namespace P2File

def text (f : P2File) : List UInt8 :=
  80 :: 50 :: (f.lead ++ (f.width :: f.height :: f.maxVal :: f.samples).flatMap Word.text)

/-- What every sample should become. -/
def rescaled (f : P2File) : List ℕ := f.samples.map fun w => w.value * 255 / f.maxVal.value

/-- The `int` of every pixel lies in a block with `room` for so many bytes behind its
    header. -/
def HasRoom (f : P2File) (room : Option ℕ) : Prop :=
  f.samples = [] ∨ Within room (f.samples.length + 3)

theorem HasRoom.within {f : P2File} {room : Option ℕ} (h : f.HasRoom room) {d : ℕ}
    (hd : d < f.samples.length) : Within room (d + 4) := by
  obtain hnil | hroom := h
  · rw [hnil] at hd
    exact absurd hd (Nat.not_lt_zero d)
  · intro r hr
    have hle := hroom r hr
    omega

end P2File

/-! ## The program -/

/-- `img->data[d] *= 255.f / max_val`. -/
def scalePixel (maxVal : ℕ) (p : UInt8) : UInt8 := UInt8.ofNat (p.toNat * 255 / maxVal)

/-- The pixel that is left of a sample. -/
def samplePixel (maxVal : ℕ) (w : Word) : UInt8 := scalePixel maxVal (UInt8.ofNat w.value)

theorem readOrFail_p2 (f : P2File) :
    readOrFail 3 headerFormat f.text =
      .ok ([(f.width.value : ℤ), (f.height.value : ℤ), (f.maxVal.value : ℤ)],
        f.samples.flatMap Word.text) := by
  obtain ⟨hw, hh, hm, hs⟩ := f.separated
  have hread : fscanf headerFormat f.text [] =
      ⟨3, [(f.width.value : ℤ), (f.height.value : ℤ), (f.maxVal.value : ℤ)],
        f.samples.flatMap Word.text⟩ := by
    show fscanf [.number, .space, .number, .space, .number, .space]
      ((f.lead ++ (f.width :: f.height :: f.maxVal :: f.samples).flatMap Word.text).dropWhile
        isWhite) [] = _
    rw [List.dropWhile_append_of_pos f.lead_white, Word.dropWhile_text,
      Word.fscanf_word ⟨hw, hh, hm, hs⟩, Word.fscanf_word ⟨hh, hm, hs⟩, Word.fscanf_word ⟨hm, hs⟩]
    rfl
  unfold readOrFail
  rw [hread]
  rfl

theorem readOrFail_sample {w : Word} {ws : List Word} (h : Word.Separated (w :: ws)) :
    readOrFail 1 pixelFormat ((w :: ws).flatMap Word.text) =
      .ok ([(w.value : ℤ)], ws.flatMap Word.text) := by
  have hread : fscanf pixelFormat ((w :: ws).flatMap Word.text) [] =
      ⟨1, [(w.value : ℤ)], ws.flatMap Word.text⟩ := Word.fscanf_word h [] []
  unfold readOrFail
  rw [hread]
  rfl

/-- The low byte of an `int` comes first. -/
theorem storeInt_low (mem : ℕ → UInt8) (d v : ℕ) (hv : v < 2 ^ 31) :
    storeInt mem d (v : ℤ) d = UInt8.ofNat v := by
  have hbyte : ((v : ℤ) % 2 ^ 32).toNat = v := by omega
  unfold storeInt
  rw [if_pos (by omega), hbyte, Nat.sub_self]
  rfl

section

variable {room : Option ℕ} {maxVal : ℕ} {samples : List Word} {s : Loading}

/-- The first `s.d` samples have been read and scaled. -/
structure Loading.Loaded (maxVal : ℕ) (samples : List Word) (s : Loading) : Prop where
  input : s.input = (samples.drop s.d).flatMap Word.text
  mem : ∀ i < s.d, s.mem i = (samples.map (samplePixel maxVal)).getD i 0

/-- One sample: what it is stored over is still to be read. -/
theorem Loading.Loaded.pixel (h : s.Loaded maxVal samples) (hd : s.d < samples.length)
    (hv : (samples[s.d]).value < 2 ^ 31) :
    (s.pixel scalePixel maxVal (samples[s.d]).value
      ((samples.drop (s.d + 1)).flatMap Word.text)).Loaded maxVal samples := by
  refine ⟨rfl, fun i hi => ?_⟩
  have hi' : i < s.d + 1 := hi
  simp only [Loading.pixel, storedInt_natCast hv]
  by_cases his : i = s.d
  · subst his
    rw [Function.update_self, storeInt_low _ _ _ hv, List.getD_eq_getElem?_getD,
      List.getElem?_map, List.getElem?_eq_getElem hd]
    rfl
  · rw [Function.update_of_ne his, storeInt_of_lt _ _ (by omega), h.mem i (by omega)]

theorem Loading.Loaded.cols (hsep : Word.Separated samples)
    (hlt : ∀ w ∈ samples, w.value < 2 ^ 31) (hroom : ∀ d < samples.length, Within room (d + 4))
    (cols : ℕ) (h : s.Loaded maxVal samples) (hd : s.d + cols ≤ samples.length) :
    ∃ s', loadCols room scalePixel maxVal cols s = .ok s' ∧ s'.Loaded maxVal samples ∧
      s'.d = s.d + cols := by
  induction cols generalizing s with
  | zero => exact ⟨s, rfl, h, rfl⟩
  | succ cols ih =>
    have hlen : s.d < samples.length := by omega
    have hdrop := List.drop_eq_getElem_cons hlen
    have hread : readOrFail 1 pixelFormat s.input =
        .ok ([((samples[s.d]).value : ℤ)], (samples.drop (s.d + 1)).flatMap Word.text) := by
      rw [h.input, hdrop]
      exact readOrFail_sample (hdrop ▸ hsep.drop s.d)
    obtain ⟨s', hs', hloaded, hd'⟩ := ih (h.pixel hlen (hlt _ (List.getElem_mem hlen)))
      (show s.d + 1 + cols ≤ samples.length by omega)
    refine ⟨s', ?_, hloaded, ?_⟩
    · rw [loadCols, hread]
      exact (if_pos (hroom s.d hlen)).trans hs'
    · rw [hd']
      show s.d + 1 + cols = _
      omega

theorem Loading.Loaded.rows (hsep : Word.Separated samples)
    (hlt : ∀ w ∈ samples, w.value < 2 ^ 31) (hroom : ∀ d < samples.length, Within room (d + 4))
    (width rows : ℕ) (h : s.Loaded maxVal samples)
    (hd : s.d + rows * width ≤ samples.length) :
    ∃ s', loadRows room scalePixel maxVal width rows s = .ok s' ∧ s'.Loaded maxVal samples ∧
      s'.d = s.d + rows * width := by
  induction rows generalizing s with
  | zero => exact ⟨s, rfl, h, by omega⟩
  | succ rows ih =>
    rw [Nat.succ_mul] at hd ⊢
    obtain ⟨t, ht, hloaded, htd⟩ := h.cols hsep hlt hroom width (by omega)
    obtain ⟨s', hs', hloaded', hd'⟩ := ih hloaded (by omega)
    refine ⟨s', ?_, hloaded', by omega⟩
    rw [loadRows, ht]
    exact hs'

/-- A row that has been read has room. -/
theorem loadCols_within {scale : ℕ → UInt8 → UInt8} {cols : ℕ} {s' : Loading}
    (h : loadCols room scale maxVal cols s = .ok s') :
    s'.d = s.d + cols ∧ (cols = 0 ∨ Within room (s.d + cols + 3)) := by
  induction cols generalizing s with
  | zero =>
    cases h
    exact ⟨rfl, .inl rfl⟩
  | succ cols ih =>
    rw [loadCols] at h
    split at h
    · cases h
    · split at h
      · rename_i hroom
        obtain ⟨hd, hrest⟩ := ih h
        change s'.d = s.d + 1 + cols at hd
        change cols = 0 ∨ Within room (s.d + 1 + cols + 3) at hrest
        refine ⟨by omega, .inr ?_⟩
        obtain rfl | hrest := hrest
        · exact hroom
        · rw [Nat.add_right_comm s.d 1 cols] at hrest
          exact hrest
      · cases h

theorem loadRows_within {scale : ℕ → UInt8 → UInt8} {width rows : ℕ} {s' : Loading}
    (h : loadRows room scale maxVal width rows s = .ok s') :
    s'.d = s.d + rows * width ∧ (rows * width = 0 ∨ Within room (s.d + rows * width + 3)) := by
  induction rows generalizing s with
  | zero =>
    cases h
    rw [Nat.zero_mul]
    exact ⟨rfl, .inl rfl⟩
  | succ rows ih =>
    rw [loadRows] at h
    split at h
    · cases h
    · rename_i t ht
      obtain ⟨hd, hroom⟩ := loadCols_within ht
      obtain ⟨hd', hroom'⟩ := ih h
      rw [hd] at hd' hroom'
      have hsum : s.d + width + rows * width = s.d + (rows + 1) * width := by
        rw [Nat.succ_mul]
        omega
      rw [hsum] at hd' hroom'
      refine ⟨hd', ?_⟩
      obtain hrows | hroom' := hroom'
      · rw [Nat.succ_mul, hrows, Nat.zero_add]
        exact hroom
      · exact .inr hroom'

end

/-- The image that `pgm_load` makes of a P2 file. -/
theorem pgmLoad_p2 (f : P2File) {room : ℕ → Option ℕ} {malloc : ℕ → Option (ℕ → UInt8)}
    (hmalloc : (malloc (imageSize f.width.value f.height.value)).isSome)
    (hroom : f.HasRoom (room (imageSize f.width.value f.height.value))) :
    ∃ img, pgmLoadIn room scalePixel malloc (some f.text) = .ok img ∧ img.width = f.width.value ∧
      img.height = f.height.value ∧ img.data = f.samples.map (samplePixel f.maxVal.value) := by
  obtain ⟨mem, hmem⟩ := Option.isSome_iff_exists.mp hmalloc
  have hlt : ∀ w ∈ f.samples, w.value < 2 ^ 31 := by
    intro w hw
    have h1 := f.samples_le w hw
    have h2 := f.maxVal_le
    omega
  have hmax := f.maxVal_le
  have hstart : Loading.Loaded f.maxVal.value f.samples
      ⟨f.samples.flatMap Word.text, mem, 0⟩ :=
    ⟨rfl, fun i hi => absurd hi (Nat.not_lt_zero i)⟩
  have hlen := f.samples_length
  obtain ⟨s, hs, hloaded, hd⟩ := hstart.rows f.separated.2.2.2 hlt
    (fun d => hroom.within) f.width.value f.height.value
    (by rw [hlen, Nat.mul_comm, Nat.zero_add])
  refine ⟨pgmCreate s.mem f.width.value f.height.value, ?_, rfl, rfl, ?_⟩
  · simp only [pgmLoadIn, readOrFail_p2, List.getD_cons_zero, List.getD_cons_succ,
      storedSize_natCast f.width_lt, storedSize_natCast f.height_lt,
      storedSize_natCast (show f.maxVal.value < 2 ^ 64 by omega), hmem, hs]
  · show (List.range (f.width.value * f.height.value)).map s.mem = _
    rw [Nat.zero_add, Nat.mul_comm] at hd
    rw [← hlen]
    apply List.ext_getElem
    · rw [List.length_map, List.length_range, List.length_map]
    · intro i hi hi'
      have hilt : i < f.samples.length := by simpa using hi
      rw [List.getElem_map, List.getElem_range, hloaded.mem i (by omega),
        List.getD_eq_getElem?_getD, List.getElem?_eq_getElem hi', Option.getD_some]

/-- If it makes one, the block has room. -/
theorem P2File.hasRoom_of_load {f : P2File} {room : ℕ → Option ℕ} {scale : ℕ → UInt8 → UInt8}
    {malloc : ℕ → Option (ℕ → UInt8)} {img : Image}
    (h : pgmLoadIn room scale malloc (some f.text) = .ok img) :
    f.HasRoom (room (imageSize f.width.value f.height.value)) := by
  have hmax := f.maxVal_le
  simp only [pgmLoadIn, readOrFail_p2, List.getD_cons_zero, List.getD_cons_succ,
    storedSize_natCast f.width_lt, storedSize_natCast f.height_lt,
    storedSize_natCast (show f.maxVal.value < 2 ^ 64 by omega)] at h
  split at h
  · cases h
  · split at h
    · cases h
    · rename_i hs
      obtain ⟨-, hroom⟩ := loadRows_within hs
      rw [Nat.mul_comm, ← f.samples_length, Nat.zero_add] at hroom
      exact hroom.imp_left List.length_eq_zero_iff.mp

/-! ## The samples -/

/-- The low byte of a sample is rescaled like the sample only if both give `0`. -/
theorem samplePixel_eq_iff {maxVal : ℕ} (hpos : 1 ≤ maxVal) (hmax : maxVal ≤ 65535) {w : Word}
    (hw : w.value ≤ maxVal) :
    (samplePixel maxVal w).toNat = w.value * 255 / maxVal ↔
      w.value ≤ 255 ∨ w.value * 255 < maxVal := by
  have hlow : (UInt8.ofNat w.value).toNat = w.value % 256 := UInt8.toNat_ofNat'
  obtain ⟨x, hx⟩ : ∃ x, w.value % 256 * 255 / maxVal = x := ⟨_, rfl⟩
  obtain ⟨q, hq⟩ : ∃ q, w.value * 255 / maxVal = q := ⟨_, rfl⟩
  have hxle : x ≤ 255 := by
    rw [← hx]
    exact Nat.div_le_of_le_mul (Nat.mul_le_mul_right 255 (by omega))
  have hpixel : (samplePixel maxVal w).toNat = x := by
    unfold samplePixel scalePixel
    rw [hlow, hx, UInt8.toNat_ofNat']
    omega
  rw [hpixel, hq]
  constructor
  · rintro rfl
    by_contra hcon
    have hbig : 255 < w.value ∧ maxVal ≤ w.value * 255 := by omega
    -- the sample is at least `65280 / 255` above its low byte
    have hlo : maxVal * x ≤ w.value % 256 * 255 := hx ▸ Nat.mul_div_le _ _
    have hhi : w.value * 255 < maxVal * x + maxVal := by
      rw [← hq]
      exact Nat.lt_mul_div_succ _ hpos
    have hx1 : maxVal * 1 ≤ maxVal * x := Nat.mul_le_mul_left _ (by
      rw [← hq]
      exact Nat.div_pos hbig.2 hpos)
    omega
  · rintro (h | h)
    · rw [← hx, ← hq, Nat.mod_eq_of_lt (by omega)]
    · have hlow' : w.value % 256 * 255 < maxVal :=
        (Nat.mul_le_mul_right 255 (Nat.mod_le w.value 256)).trans_lt h
      rw [← hx, ← hq, Nat.div_eq_of_lt h, Nat.div_eq_of_lt hlow']

/-- **When the image holds the rescaled samples.** `pgm_load` returns an image with
    `⌊v * 255 / max_val⌋` for each sample `v` of a P2 file exactly when the block has room
    for the `int` of the last pixel, if there is one, and each sample is at most `255`,
    or is rescaled to `0`. -/
theorem loads_rescaled_iff (f : P2File) (room : ℕ → Option ℕ) {malloc : ℕ → Option (ℕ → UInt8)}
    (hmalloc : (malloc (imageSize f.width.value f.height.value)).isSome) :
    (∃ img, pgmLoadIn room scalePixel malloc (some f.text) = .ok img ∧
        img.width = f.width.value ∧ img.height = f.height.value ∧
        img.data.map UInt8.toNat = f.rescaled) ↔
      f.HasRoom (room (imageSize f.width.value f.height.value)) ∧
        ∀ w ∈ f.samples, w.value ≤ 255 ∨ w.value * 255 < f.maxVal.value := by
  by_cases hroom : f.HasRoom (room (imageSize f.width.value f.height.value))
  swap
  · exact iff_of_false (fun ⟨_, hload, _⟩ => hroom (P2File.hasRoom_of_load hload))
      fun h => hroom h.1
  rw [and_iff_right hroom]
  obtain ⟨img, hload, hwidth, hheight, hdata⟩ := pgmLoad_p2 f hmalloc hroom
  have hsamples : img.data.map UInt8.toNat = f.rescaled ↔
      ∀ w ∈ f.samples, w.value ≤ 255 ∨ w.value * 255 < f.maxVal.value := by
    rw [hdata, List.map_map, P2File.rescaled, List.map_inj_left]
    exact forall₂_congr fun w hw => samplePixel_eq_iff f.maxVal_pos f.maxVal_le (f.samples_le w hw)
  rw [← hsamples]
  constructor
  · rintro ⟨img', hload', -, -, hdata'⟩
    rw [hload] at hload'
    obtain rfl := Except.ok.inj hload'
    exact hdata'
  · intro h
    exact ⟨img, hload, hwidth, hheight, h⟩

/-- A file with one sample of at most `65535`. -/
def onePixel (w : Word) (hw : w.value ≤ 65535) : P2File where
  lead := [10]
  width := ⟨[49], [32], by decide, by simp [isDigit], by simp [isWhite]⟩
  height := ⟨[49], [10], by decide, by simp [isDigit], by simp [isWhite]⟩
  maxVal := ⟨[54, 53, 53, 51, 53], [10], by decide, by simp [isDigit], by simp [isWhite]⟩
  samples := [w]
  lead_white := by simp [isWhite]
  separated := by simp [Word.Separated]
  width_lt := by decide
  height_lt := by decide
  maxVal_pos := by decide
  maxVal_le := by decide
  samples_le := fun v hv => (List.mem_singleton.mp hv) ▸ hw
  samples_length := by
    rw [List.length_singleton]
    decide

theorem loads_rescaled_iff_grey :
    (∃ img, pgmLoadIn (fun _ => some 8) scalePixel (fun _ => some fun _ => 0)
        (some (onePixel ⟨[50, 53, 53], [10], by decide, by simp [isDigit], by simp [isWhite]⟩
          (by decide)).text) = .ok img ∧
          img.width = 1 ∧ img.height = 1 ∧ img.data.map UInt8.toNat = [0]) :=
  (loads_rescaled_iff
    (onePixel ⟨[50, 53, 53], [10], by decide, by simp [isDigit], by simp [isWhite]⟩ (by decide))
    (fun _ => some 8) rfl).mpr
    ⟨.inr fun r hr => by cases hr; decide, fun w hw => by
      rw [List.mem_singleton.mp hw]
      exact .inl (by decide)⟩

/-- The largest sample of a file becomes black, in a block that has room. -/
theorem white_becomes_black :
    (onePixel ⟨[54, 53, 53, 51, 53], [10], by decide, by simp [isDigit], by simp [isWhite]⟩
        (by decide)).rescaled = [255] ∧
      pgmLoadIn (fun _ => some 8) scalePixel (fun _ => some fun _ => 0) (some (onePixel
          ⟨[54, 53, 53, 51, 53], [10], by decide, by simp [isDigit], by simp [isWhite]⟩
          (by decide)).text) = .ok ⟨1, 1, [0], rfl⟩ :=
  ⟨by decide, rfl⟩

end AghOs.Pgm
