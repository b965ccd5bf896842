import AghOs.Pgm.FilterText
import AghOs.Pgm.Progress
import AghOs.Pgm.Scaling

/-!
# The filter program

`main` on `<threads> <input> <filter> <output>` (`src/cw08/zad1/src/main.c`, lines
110–187), from the texts of the two files that it reads to the text of the one that it
writes, with the arithmetic of the models it is put together from. `pthread_create`
and `malloc` of the arguments of a thread succeed; what is printed is left out.

* `exists_done`: the threads can be run to their end.
* `program_filters`: every way in which the program ends with the files it expects,
  and there is one, writes the same text, that of the reference image.
-/

namespace AghOs.Pgm

open Checked (filterSize)

/-- What `main` finds: `argv[1]`, the texts of the files it reads, the memory that
    `malloc` returns in `read_filter`, in `pgm_load` and for the output image, the room
    that a block has behind the header of an image, which calls on the output file
    succeed, and the conversion to `pix_t`. -/
structure Env where
  threads : List UInt8
  filter : Option (List UInt8)
  input : Option (List UInt8)
  mallocFilter : ℕ → Option (ℤ → ℚ)
  mallocImage : ℕ → Option (ℕ → UInt8)
  mallocOut : ℕ → Option (ℕ → UInt8)
  room : ℕ → Option ℕ
  ok : ℕ → Bool
  conv : ℤ → UInt8

namespace Env

/-- Lines 115–126. -/
def load (e : Env) : Except LoadError (Filter × Image) :=
  if atoi e.threads ≤ 0 then .error .einval
  else
    match readFilter e.mallocFilter e.filter with
    | .error err => .error err
    | .ok f =>
      match pgmLoadIn e.room scalePixel e.mallocImage e.input with
      | .error err => .error err
      | .ok img => .ok (f, img)

/-- `apply_filter` of the threads. -/
def apply (e : Env) (f : Filter) (img : Image) (x y : ℤ) : UInt8 :=
  (applyFilter e.conv f img x y).getD 0

/-- Line 178: the exit status, and the text of the output file. -/
def save (e : Env) (img : Image) : ℤ × List UInt8 :=
  let r := pgmSave e.ok img
  (if r.1 ≠ 0 then 1 else 0, r.2)

/-- `main` ends with the exit status and the text in the output file; behind a store
    outside a block, with any. -/
inductive Ends (e : Env) : ℤ → List UInt8 → Prop
  | rejected {err : LoadError} : e.load = .error err → err ≠ .stray → Ends e 1 []
  | stray {status : ℤ} {out : List UInt8} : e.load = .error .stray → Ends e status out
  | noMemory {f : Filter} {img : Image} : e.load = .ok (f, img) →
      e.mallocOut (imageSize img.width img.height) = none → Ends e 1 []
  | joined {f : Filter} {img : Image} {J : Job} {s : FilterState (Fin J.threadCount)} :
      e.load = .ok (f, img) → e.mallocOut (imageSize img.width img.height) = some J.memory →
      J.inImage = img → J.applyFilter = e.apply f → (J.threadCount : ℤ) = atoi e.threads →
      J.threads.Reach s → (∀ t, (s.thr t).pc = .done) →
      Ends e (e.save s.mem.outImage).1 (e.save s.mem.outImage).2

end Env

/-! ## What the threads leave -/

namespace Job

/-- The threads can always be run to their end. -/
theorem exists_done (J : Job) :
    ∃ s, J.threads.Reach s ∧ ∀ t : Fin J.threadCount, (s.thr t).pc = .done := by
  have hinit : J.threads.init ⟨⟨J.outImage, 0, true, []⟩, fun t => ⟨.head, t.val, 0, 0⟩⟩ := rfl
  obtain ⟨ls, s, -, hr, hend⟩ := threads_variant.exists_final (Machine.Reach.init hinit)
  refine ⟨s, (Machine.Reach.init hinit).runIf hr, fun t => ?_⟩
  exact threadRun_eq_none_iff.mp (Option.map_eq_none_iff.mp (hend t rfl))

end Job

/-! ## The reference -/

/-- The image that `pgm_load` makes of the file. -/
def P2File.image (f : P2File) : Image where
  width := f.width.value
  height := f.height.value
  data := f.samples.map (samplePixel f.maxVal.value)
  length_data := by rw [List.length_map, f.samples_length]

/-- The filter that `read_filter` makes of what `write_filter` writes. -/
def Filter.printed (f : Filter) : Filter where
  size := f.size
  data := f.data.map readBack
  length_data := by rw [List.length_map, f.length_data]

/-- The rounded sum over the window of each pixel. -/
def reference (conv : ℤ → UInt8) (f : Filter) (img : Image) (hw : 0 < img.width)
    (hh : 0 < img.height) : Image where
  width := img.width
  height := img.height
  data := (List.range (img.width * img.height)).map fun p =>
    conv (cRound (windowSum f img hw hh (p % img.width : ℕ) (p / img.width : ℕ)))
  length_data := by rw [List.length_map, List.length_range]

/-- The program finds a number of threads, what `write_filter` writes for `g`, and the
    file `f` with at least one pixel; there is memory, with room for the `int` of the last
    pixel, and the output file can be written. The sizes are such that no `int`
    overflows. -/
structure Env.Given (e : Env) (f : P2File) (g : FloatFilter) : Prop where
  threads : 1 ≤ atoi e.threads
  filter : e.filter = some (writeFilter (fun _ => true) g.toFilter).2
  input : e.input = some f.text
  mallocFilter : (e.mallocFilter (filterSize g.size)).isSome
  mallocImage : (e.mallocImage (imageSize f.width.value f.height.value)).isSome
  mallocOut : (e.mallocOut (imageSize f.width.value f.height.value)).isSome
  room : f.HasRoom (e.room (imageSize f.width.value f.height.value))
  ok : ∀ i, e.ok i = true
  width_pos : 0 < f.image.width
  height_pos : 0 < f.image.height
  width_le : f.image.width + g.size ≤ 2 ^ 31
  height_le : f.image.height + g.size ≤ 2 ^ 31
  area_lt : f.image.width * f.image.height < 2 ^ 31
  size_le : g.size * g.size ≤ 2 ^ 31

namespace Env.Given

variable {e : Env} {f : P2File} {g : FloatFilter}

theorem load_eq (h : e.Given f g) : e.load = .ok (g.toFilter.printed, f.image) := by
  obtain ⟨mem, hmem⟩ := Option.isSome_iff_exists.mp h.mallocFilter
  obtain ⟨-, g', hread, hsize, hdata⟩ :=
    readFilter_writeFilter g (fun _ => true) e.mallocFilter (fun _ => rfl) hmem
  have hg : g' = g.toFilter.printed := by
    refine Filter.ext hsize (List.ext_getElem? fun i => ?_)
    by_cases hi : i < g.size * g.size
    · have hle := h.size_le
      have hlen := g.length_data
      rw [hdata i hi, if_pos (by omega)]
      show _ = (g.data.map readBack)[i]?
      rw [List.getElem?_map, List.getD_eq_getElem?_getD, List.getElem?_eq_getElem (by omega)]
      rfl
    · have hlen := g'.length_data
      rw [hsize] at hlen
      rw [List.getElem?_eq_none (by omega), List.getElem?_eq_none]
      rw [g.toFilter.printed.length_data]
      show g.size * g.size ≤ i
      omega
  obtain ⟨img, hload, hw, hh, hpix⟩ := pgmLoad_p2 f h.mallocImage h.room
  have himg : img = f.image := Image.ext hw hh hpix
  have hn := h.threads
  rw [Env.load, if_neg (by omega), h.filter, hread, h.input, hload, hg, himg]

/-- When the threads are done, the output image is the reference. -/
theorem outImage_eq (h : e.Given f g) {J : Job} {s : FilterState (Fin J.threadCount)}
    (himg : J.inImage = f.image) (happly : J.applyFilter = e.apply g.toFilter.printed)
    (hs : J.threads.Reach s) (hd : ∀ t, (s.thr t).pc = .done) :
    s.mem.outImage = reference e.conv g.toFilter.printed f.image h.width_pos h.height_pos := by
  have hok := Job.reach_ok hs
  have hsides := storeAll_sides (J.applyFilter J.inImage) J.outImage
    (s.mem.stores.map fun c => (c.x, c.y))
  rw [← hok.out] at hsides
  have hinw : J.inImage.width = f.image.width := by rw [himg]
  have hinh : J.inImage.height = f.image.height := by rw [himg]
  have hw : s.mem.outImage.width = f.image.width := hsides.1.trans hinw
  have hh : s.mem.outImage.height = f.image.height := hsides.2.trans hinh
  refine Image.ext hw hh (List.ext_getElem? fun p => ?_)
  by_cases hp : p < f.image.width * f.image.height
  · have hx : p % f.image.width < f.image.width := Nat.mod_lt _ h.width_pos
    have hy : p / f.image.width < f.image.height := Nat.div_lt_of_lt_mul hp
    have hval := applyFilter_eq e.conv (f := g.toFilter.printed) h.width_pos h.height_pos
      h.width_le h.height_le ⟨_, hx⟩ ⟨_, hy⟩
    rw [hok.data_outImage hd (by rw [Job.area, himg]; exact hp), himg, happly, Env.apply, hval,
      reference, List.getElem?_map, List.getElem?_range hp]
    rfl
  · rw [List.getElem?_eq_none, List.getElem?_eq_none]
    · rw [Image.length_data]
      exact Nat.le_of_not_lt hp
    · rw [Image.length_data, hw, hh]
      exact Nat.le_of_not_lt hp

theorem save_eq (h : e.Given f g) (img : Image) :
    e.save img = (0, (pgmSave (fun _ => true) img).2) := by
  rw [Env.save, pgmSave_eq h.ok, pgmSave_eq fun _ => rfl]
  rfl

/-- What `main` hands to the threads. -/
def job (h : e.Given f g) (memory : ℕ → UInt8) : Job where
  inImage := f.image
  applyFilter := e.apply g.toFilter.printed
  memory := memory
  threadCount := (atoi e.threads).toNat
  width_lt := lt_of_le_of_lt (Nat.le_mul_of_pos_right _ h.height_pos) h.area_lt
  height_lt := lt_of_le_of_lt (Nat.le_mul_of_pos_left _ h.width_pos) h.area_lt
  threadCount_pos := by
    have hn := h.threads
    omega
  threadCount_lt := by
    have hlt : atoi e.threads < 2 ^ 31 := by
      unfold atoi toInt
      have := Int.bmod_lt (x := strtol e.threads) (m := 2 ^ 32) (by decide)
      omega
    omega

end Env.Given

/-- The program ends, and only with the exit status 0 and the text of the reference
    image in the output file: the filter as it was printed, on the image as it was
    loaded, for any number of threads and in whatever order they run. -/
theorem program_filters {e : Env} {f : P2File} {g : FloatFilter} (h : e.Given f g) (status : ℤ)
    (out : List UInt8) :
    e.Ends status out ↔ status = 0 ∧ out = (pgmSave (fun _ => true)
      (reference e.conv g.toFilter.printed f.image h.width_pos h.height_pos)).2 := by
  obtain ⟨memory, hmemory⟩ := Option.isSome_iff_exists.mp h.mallocOut
  constructor
  · intro hends
    cases hends with
    | rejected hload _ => cases h.load_eq.symm.trans hload
    | stray hload => cases h.load_eq.symm.trans hload
    | noMemory hload hnone =>
      cases h.load_eq.symm.trans hload
      cases hmemory.symm.trans hnone
    | joined hload hmem himg happly hcount hs hd =>
      cases h.load_eq.symm.trans hload
      rw [h.outImage_eq himg happly hs hd, h.save_eq]
      exact ⟨rfl, rfl⟩
  · rintro ⟨rfl, rfl⟩
    obtain ⟨s, hs, hd⟩ := Job.exists_done (h.job memory)
    have hcount : (((h.job memory).threadCount : ℕ) : ℤ) = atoi e.threads := by
      have hn := h.threads
      show (((atoi e.threads).toNat : ℕ) : ℤ) = _
      omega
    have hends := Env.Ends.joined (J := h.job memory) h.load_eq hmemory rfl rfl hcount hs hd
    rwa [h.outImage_eq rfl rfl hs hd, h.save_eq] at hends

/-- One thread, one pixel, and a filter of nine equal coefficients. -/
def oneThread : Env where
  threads := [49]
  filter := some (writeFilter (fun _ => true) ninths.toFilter).2
  input := some (onePixel ⟨[50, 53, 52], [32, 10], by decide, by simp [isDigit], by simp [isWhite]⟩
    (by decide)).text
  mallocFilter _ := some fun _ => 0
  mallocImage _ := some fun _ => 0
  mallocOut _ := some fun _ => 0
  room _ := some 8
  ok _ := true
  conv v := UInt8.ofNat v.toNat

theorem program_filters_one :
    (∃ out, oneThread.Ends 0 out) ∧ ∀ status out, oneThread.Ends status out → status = 0 := by
  have h : oneThread.Given (onePixel ⟨[50, 53, 52], [32, 10], by decide, by simp [isDigit],
      by simp [isWhite]⟩ (by decide)) ninths :=
    ⟨by decide, rfl, rfl, rfl, rfl, rfl, .inr fun _ hr => by cases hr; decide, fun _ => rfl,
      by decide, by decide, by decide, by decide, by decide, by decide⟩
  exact ⟨⟨_, (program_filters h 0 _).mpr ⟨rfl, rfl⟩⟩, fun status out hends =>
    ((program_filters h status out).mp hends).1⟩

end AghOs.Pgm
