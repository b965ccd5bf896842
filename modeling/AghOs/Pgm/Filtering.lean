import AghOs.Machine.Reach
import AghOs.Pgm.Image
import Mathlib.Data.List.Nodup
import Mathlib.Data.List.Range
import Mathlib.Logic.Function.Basic
import Mathlib.Tactic.Common

/-!
# Filtering by several threads

Model of `thread_run` and of the part of `main` that starts and joins its threads
(`src/cw08/zad1/src/main.c`, lines 46–170). Each thread goes through the pixels
`id`, `id + thread_count`, `id + 2 * thread_count`, ... The steps are the test of
the loop with the computation of the new pixel, the store, `sem_trywait`, the
update of `pixels_processed` and `sem_post`; the threads interleave in any order.

`thread_progress` only reads `pixels_processed` and is left out, as is `free(args)`.
`apply_filter` is a parameter, a function of the input image and the coordinates.

* `reach_ok`: what each thread has stored so far and where it is.
* `threads_joined`: when all threads are done every pixel was stored once, and
  the output image is the one of the sequential program.
-/

namespace AghOs.Pgm

/-- What `main` hands to the threads: the input image, `apply_filter` with the
    filter, the memory that the output image is created in, and the number of
    threads. All sizes fit in an `int`. -/
structure Job where
  inImage : Image
  applyFilter : Image → ℤ → ℤ → UInt8
  memory : ℕ → UInt8
  threadCount : ℕ
  width_lt : inImage.width < 2 ^ 31
  height_lt : inImage.height < 2 ^ 31
  threadCount_pos : 1 ≤ threadCount
  threadCount_lt : threadCount < 2 ^ 31

/-- Where a thread is in `thread_run`. -/
inductive FilterPc
  | head | store (x y : ℤ) (pix : UInt8) | check | add | post | done
  deriving DecidableEq

/-- The local variables of `thread_run`. -/
structure FilterLocals where
  pc : FilterPc
  pixel : ℤ
  processed : ℤ
  total : ℤ

/-- A call of `pgm_set_pixel`. -/
structure StoreCall (ι : Type) where
  thread : ι
  x : ℤ
  y : ℤ
  deriving DecidableEq

/-- `out_image`, `pixels_processed` and `pp_sem`, and the calls of
    `pgm_set_pixel` so far, which no thread reads. -/
structure FilterMem (ι : Type) where
  outImage : Image
  pixelsProcessed : ℤ
  ppSem : Bool
  stores : List (StoreCall ι)

structure FilterState (ι : Type) where
  mem : FilterMem ι
  thr : ι → FilterLocals

namespace Job

variable (J : Job)

/-- `pixel_count = in_image->height * in_image->width`. -/
def pixelCount : ℤ := toLong (toSize (J.inImage.height * J.inImage.width))

/-- `out_image = pgm_create(in_image->width, in_image->height)`. -/
def outImage : Image := pgmCreate J.memory J.inImage.width J.inImage.height

/-- `pixel += count` and back to the test of the loop. -/
def next (l : FilterLocals) : FilterLocals :=
  { l with pc := .head, pixel := toLong (l.pixel + J.threadCount) }

/-- One step of `thread_run` in thread `t`. -/
def threadRun (t : Fin J.threadCount) (m : FilterMem (Fin J.threadCount)) (l : FilterLocals) :
    Option (FilterMem (Fin J.threadCount) × FilterLocals) :=
  match l.pc with
  | .head =>
    if l.pixel < J.pixelCount then
      let x := toInt (toSize l.pixel % J.inImage.width : ℕ)
      let y := toInt (toSize l.pixel / J.inImage.width : ℕ)
      some (m, { l with
        pc := .store x y (J.applyFilter J.inImage x y)
        total := toLong (l.total + 1) })
    else some (m, { l with pc := .done })
  | .store x y pix =>
    some ({ m with
        outImage := pgmSetPixel m.outImage x y pix
        stores := m.stores ++ [⟨t, x, y⟩] },
      { l with pc := .check, processed := toLong (l.processed + 1) })
  | .check =>
    if toInt (J.threadCount + 5) < l.processed ∧ m.ppSem = true then
      some ({ m with ppSem := false }, { l with pc := .add })
    else some (m, J.next l)
  | .add =>
    some ({ m with pixelsProcessed := toInt (m.pixelsProcessed + l.processed) },
      { l with pc := .post, processed := 0 })
  | .post => some ({ m with ppSem := true }, J.next l)
  | .done => none

/-- The threads of a job; the label of a step is the thread that takes it. -/
def threads : Machine (FilterState (Fin J.threadCount)) (Fin J.threadCount) where
  init s := s = ⟨⟨J.outImage, 0, true, []⟩, fun t => ⟨.head, t.val, 0, 0⟩⟩
  next s t := (J.threadRun t s.mem (s.thr t)).map fun r =>
    ⟨r.1, Function.update s.thr t r.2⟩

/-- The sequential program: `apply_filter` on every pixel in order. -/
def filterAll : Image :=
  storeAll (J.applyFilter J.inImage) J.outImage (rowMajor J.inImage.width J.inImage.height)

/-! ## What a thread has stored -/

/-- The number of pixels, without overflow. -/
def area : ℕ := J.inImage.width * J.inImage.height

theorem area_lt : J.area < 2 ^ 62 := Pgm.area_lt J.width_lt J.height_lt

theorem pixelCount_eq : J.pixelCount = J.area := by
  have h := J.area_lt
  unfold pixelCount
  rw [← Int.natCast_mul, Nat.mul_comm]
  show toLong (toSize (J.area : ℤ)) = _
  rw [toSize_natCast (by omega), toLong_natCast (by omega)]

variable {J}

/-- The `i`-th pixel of thread `t`. -/
def strided (t : Fin J.threadCount) (i : ℕ) : ℕ := t.val + J.threadCount * i

theorem strided_succ (t : Fin J.threadCount) (i : ℕ) :
    strided t (i + 1) = strided t i + J.threadCount := by
  unfold strided
  rw [Nat.mul_succ]
  omega

/-- No two threads share a pixel, and no thread comes to a pixel twice. -/
theorem strided_eq_iff {t : Fin J.threadCount} {i p : ℕ} :
    strided t i = p ↔ t.val = p % J.threadCount ∧ i = p / J.threadCount := by
  unfold strided
  constructor
  · rintro rfl
    rw [Nat.add_mul_mod_self_left, Nat.mod_eq_of_lt t.isLt,
      Nat.add_mul_div_left _ _ J.threadCount_pos, Nat.div_eq_of_lt t.isLt]
    omega
  · rintro ⟨h1, h2⟩
    rw [h1, h2]
    exact Nat.mod_add_div p J.threadCount

/-- The call that stores pixel `p` in thread `t`. -/
def storeCall (t : Fin J.threadCount) (p : ℕ) : StoreCall (Fin J.threadCount) :=
  ⟨t, (p % J.inImage.width : ℕ), (p / J.inImage.width : ℕ)⟩

/-- Thread `t` has come to its `k`-th pixel. -/
def At (t : Fin J.threadCount) (k : ℕ) (l : FilterLocals) : Prop :=
  match l.pc with
  | .head => l.pixel = strided t k
  | .store x y pix =>
    l.pixel = strided t k ∧ strided t k < J.area ∧
      (⟨t, x, y⟩ : StoreCall _) = storeCall t (strided t k) ∧ pix = J.applyFilter J.inImage x y
  | .check | .add | .post => l.pixel + J.threadCount = strided t k
  | .done => J.area ≤ strided t k

/-- Thread `t` has stored its first `k` pixels, in this order. -/
def Stored (t : Fin J.threadCount) (k : ℕ) (stores : List (StoreCall (Fin J.threadCount))) : Prop :=
  stores.filter (·.thread = t) = (List.range k).map fun i => storeCall t (strided t i)

/-- The invariant of the run. -/
structure Ok (s : FilterState (Fin J.threadCount)) : Prop where
  out : s.mem.outImage =
    storeAll (J.applyFilter J.inImage) J.outImage (s.mem.stores.map fun c => (c.x, c.y))
  thr : ∀ t, ∃ k, At t k (s.thr t) ∧ Stored t k s.mem.stores ∧ ∀ i < k, strided t i < J.area

section Steps

variable {t : Fin J.threadCount} {k : ℕ} {m m' : FilterMem (Fin J.threadCount)}
  {l l' : FilterLocals}

theorem strided_lt (hlt : ∀ i < k, strided t i < J.area) : strided t k < 2 ^ 63 := by
  have ha := J.area_lt
  have hn := J.threadCount_lt
  have ht := t.isLt
  cases k with
  | zero => unfold strided; omega
  | succ k =>
    have hk := hlt k (Nat.lt_succ_self k)
    rw [strided_succ]
    omega

/-- After `pixel += count` the thread is at its next pixel. -/
theorem at_next (hp : l.pixel + J.threadCount = strided t k)
    (hlt : ∀ i < k, strided t i < J.area) : At t k (J.next l) := by
  show toLong (l.pixel + J.threadCount) = strided t k
  rw [hp, toLong_natCast (strided_lt hlt)]

/-- The coordinates that `thread_run` computes. -/
theorem coordinates_eq (hlt : strided t k < J.area) :
    (⟨t, toInt (toSize (strided t k : ℕ) % J.inImage.width : ℕ),
      toInt (toSize (strided t k : ℕ) / J.inImage.width : ℕ)⟩ : StoreCall _) =
      storeCall t (strided t k) := by
  have ha := J.area_lt
  have hw := J.width_lt
  have hh := J.height_lt
  have hpos : 0 < J.inImage.width := by
    apply Nat.pos_of_ne_zero
    intro h0
    unfold area at hlt
    rw [h0, Nat.zero_mul] at hlt
    omega
  have hx : strided t k % J.inImage.width < J.inImage.width := Nat.mod_lt _ hpos
  have hy : strided t k / J.inImage.width < J.inImage.height := Nat.div_lt_of_lt_mul hlt
  rw [toSize_natCast (by omega), toInt_natCast (by omega), toInt_natCast (by omega)]
  rfl

theorem stored_append (hs : Stored t k m.stores) :
    Stored t (k + 1) (m.stores ++ [storeCall t (strided t k)]) := by
  unfold Stored at hs ⊢
  rw [List.filter_append, hs, List.range_succ, List.map_append]
  simp [storeCall]

theorem stored_append_of_ne {u : Fin J.threadCount} (hne : u ≠ t) (x y : ℤ)
    (hs : Stored t k m.stores) : Stored t k (m.stores ++ [⟨u, x, y⟩]) := by
  unfold Stored at hs ⊢
  rw [List.filter_append, hs]
  simp [hne]

/-- A step of a thread takes it on to its next pixel, or leaves it at the one it
    is at. -/
theorem threadRun_at (h : J.threadRun t m l = some (m', l')) (ha : At t k l)
    (hs : Stored t k m.stores) (hlt : ∀ i < k, strided t i < J.area) :
    ∃ k', At t k' l' ∧ Stored t k' m'.stores ∧ ∀ i < k', strided t i < J.area := by
  obtain ⟨pc, pixel, processed, total⟩ := l
  cases pc with
  | head =>
    have hp : pixel = strided t k := ha
    subst hp
    simp only [threadRun, J.pixelCount_eq] at h
    split at h
    · have hk : strided t k < J.area := by omega
      cases h
      exact ⟨k, ⟨rfl, hk, coordinates_eq hk, rfl⟩, hs, hlt⟩
    · have hk : J.area ≤ strided t k := by omega
      cases h
      exact ⟨k, hk, hs, hlt⟩
  | store x y pix =>
    obtain ⟨hp, hk, hc, rfl⟩ := ha
    have hp' : pixel = strided t k := hp
    cases h
    refine ⟨k + 1, ?_, ?_, ?_⟩
    · show pixel + J.threadCount = (strided t (k + 1) : ℕ)
      rw [hp', strided_succ, Int.natCast_add]
    · show Stored t (k + 1) (m.stores ++ [⟨t, x, y⟩])
      rw [hc]
      exact stored_append hs
    · intro i hi
      obtain hi | rfl := Nat.lt_succ_iff_lt_or_eq.mp hi
      · exact hlt i hi
      · exact hk
  | check =>
    simp only [threadRun] at h
    split at h
    · cases h; exact ⟨k, ha, hs, hlt⟩
    · cases h; exact ⟨k, at_next ha hlt, hs, hlt⟩
  | add => cases h; exact ⟨k, ha, hs, hlt⟩
  | post => cases h; exact ⟨k, at_next ha hlt, hs, hlt⟩
  | done => cases h

/-- A step of a thread does not store for another one. -/
theorem threadRun_stored_of_ne {u : Fin J.threadCount} (h : J.threadRun u m l = some (m', l'))
    (hne : u ≠ t) (hs : Stored t k m.stores) : Stored t k m'.stores := by
  unfold threadRun at h
  repeat' split at h
  all_goals cases h
  all_goals first
    | exact hs
    | exact stored_append_of_ne hne _ _ hs

theorem threadRun_out {img : Image} (h : J.threadRun t m l = some (m', l')) (ha : At t k l)
    (ho : m.outImage =
      storeAll (J.applyFilter J.inImage) img (m.stores.map fun c => (c.x, c.y))) :
    m'.outImage =
      storeAll (J.applyFilter J.inImage) img (m'.stores.map fun c => (c.x, c.y)) := by
  obtain ⟨pc, pixel, processed, total⟩ := l
  cases pc with
  | store x y pix =>
    obtain ⟨-, -, -, rfl⟩ := ha
    cases h
    rw [List.map_append]
    show pgmSetPixel m.outImage x y _ = storeAll _ img (_ ++ [(x, y)])
    rw [storeAll_append, ← ho]
  | _ =>
    simp only [threadRun] at h
    repeat' split at h
    all_goals cases h
    all_goals exact ho

end Steps

theorem reach_ok {s : FilterState (Fin J.threadCount)} (h : J.threads.Reach s) : Ok s := by
  apply h.invariant
  · rintro s rfl
    refine ⟨rfl, fun t => ⟨0, ?_, rfl, fun i hi => by omega⟩⟩
    show (t.val : ℤ) = (strided t 0 : ℕ)
    unfold strided
    omega
  · intro s t s' hok _ hn
    obtain ⟨⟨m', l'⟩, hr, rfl⟩ := Option.map_eq_some_iff.mp hn
    obtain ⟨k, ha, hs, hlt⟩ := hok.thr t
    refine ⟨threadRun_out hr ha hok.out, fun u => ?_⟩
    show ∃ k, At u k (Function.update s.thr t l' u) ∧ Stored u k m'.stores ∧
      ∀ i < k, strided u i < J.area
    by_cases hut : u = t
    · subst hut
      rw [Function.update_self]
      exact threadRun_at hr ha hs hlt
    · rw [Function.update_of_ne hut]
      obtain ⟨k, ha, hs, hlt⟩ := hok.thr u
      exact ⟨k, ha, threadRun_stored_of_ne hr (Ne.symm hut) hs, hlt⟩

/-! ## When all threads have been joined -/

section Joined

variable {s : FilterState (Fin J.threadCount)} {c : StoreCall (Fin J.threadCount)}

/-- The index of the pixel that the call stores, as `pgm_set_pixel` computes it. -/
def index (c : StoreCall (Fin J.threadCount)) : ℕ := pixelIndex J.inImage.width c.x c.y

theorem index_storeCall {t : Fin J.threadCount} {p : ℕ} (hp : p < J.area) :
    index (storeCall t p) = p :=
  pixelIndex_mod_div J.width_lt J.height_lt hp

/-- Every call was for a pixel of the image and by the thread it belongs to. -/
theorem Ok.eq_storeCall (h : Ok s) (hc : c ∈ s.mem.stores) :
    index c < J.area ∧ c = storeCall c.thread (index c) ∧
      c.thread.val = index c % J.threadCount := by
  obtain ⟨k, -, hs, hlt⟩ := h.thr c.thread
  have hmem : c ∈ s.mem.stores.filter (·.thread = c.thread) := by simp [hc]
  rw [hs] at hmem
  obtain ⟨i, hi, hci⟩ := List.mem_map.mp hmem
  have hk := hlt i (List.mem_range.mp hi)
  have hidx : index c = strided c.thread i := by rw [← hci, index_storeCall hk]; rfl
  refine ⟨?_, ?_, ?_⟩
  · rw [hidx]; exact hk
  · rw [hidx]; exact hci.symm
  · exact (strided_eq_iff.mp hidx.symm).1

/-- When the thread of a pixel is done, the pixel was stored, and only once. -/
theorem Ok.filter_index (h : Ok s) (hd : ∀ t, (s.thr t).pc = .done) {p : ℕ} (hp : p < J.area) :
    ∃ t, s.mem.stores.filter (fun c => index c = p) = [storeCall t p] := by
  let t : Fin J.threadCount := ⟨p % J.threadCount, Nat.mod_lt p J.threadCount_pos⟩
  have hown : strided t (p / J.threadCount) = p := strided_eq_iff.mpr ⟨rfl, rfl⟩
  obtain ⟨k, ha, hs, hlt⟩ := h.thr t
  have hk : p / J.threadCount < k := by
    have hle : J.area ≤ strided t k := by
      unfold At at ha
      rwa [hd t] at ha
    by_contra hge
    have hmul := Nat.mul_le_mul_left J.threadCount (Nat.le_of_not_lt hge)
    unfold strided at hle hown
    omega
  have hthread : s.mem.stores.filter (fun c => index c = p) =
      (s.mem.stores.filter (·.thread = t)).filter (fun c => index c = p) := by
    rw [List.filter_filter]
    apply List.filter_congr
    intro c hc
    have hct : index c = p → c.thread = t := by
      intro hi
      apply Fin.ext
      rw [(h.eq_storeCall hc).2.2, hi]
    simpa using hct
  have hstride : (List.range k).filter (fun i => index (storeCall t (strided t i)) = p) =
      [p / J.threadCount] := by
    have hcongr : ∀ i ∈ List.range k, decide (index (storeCall t (strided t i)) = p) =
        decide (i = p / J.threadCount) := by
      intro i hi
      rw [index_storeCall (hlt i (List.mem_range.mp hi))]
      apply decide_eq_decide.mpr
      exact ⟨fun hi => (strided_eq_iff.mp hi).2, fun hi => by rw [hi, hown]⟩
    rw [List.filter_congr hcongr, List.filter_eq,
      List.count_eq_one_of_mem List.nodup_range (List.mem_range.mpr hk)]
    rfl
  refine ⟨t, ?_⟩
  rw [hthread, hs, List.filter_map]
  show ((List.range k).filter fun i => index (storeCall t (strided t i)) = p).map _ = _
  rw [hstride, List.map_singleton, hown]

/-- The calls were for the coordinates of their pixels. -/
theorem Ok.coordinates_stores (h : Ok s) :
    (s.mem.stores.map fun c => (c.x, c.y)) =
      coordinates J.inImage.width (s.mem.stores.map index) := by
  unfold coordinates
  rw [List.map_map]
  apply List.map_congr_left
  intro c hc
  show (c.x, c.y) = ((storeCall c.thread (index c)).x, (storeCall c.thread (index c)).y)
  rw [← (h.eq_storeCall hc).2.1]

/-- The pixels that have been stored are those of the image. -/
theorem Ok.mem_index_iff (h : Ok s) (hd : ∀ t, (s.thr t).pc = .done) (p : ℕ) :
    p ∈ s.mem.stores.map index ↔ p < J.area := by
  constructor
  · intro hp
    obtain ⟨c, hc, rfl⟩ := List.mem_map.mp hp
    exact (h.eq_storeCall hc).1
  · intro hp
    obtain ⟨t, ht⟩ := h.filter_index hd hp
    have hin : storeCall t p ∈ s.mem.stores.filter (fun c => index c = p) := by
      rw [ht]
      exact List.mem_singleton_self _
    exact List.mem_map.mpr ⟨_, List.mem_of_mem_filter hin, index_storeCall hp⟩

/-- Each pixel holds what `apply_filter` computes for its coordinates. -/
theorem Ok.data_outImage (h : Ok s) (hd : ∀ t, (s.thr t).pc = .done) {p : ℕ} (hp : p < J.area) :
    s.mem.outImage.data[p]? =
      some (J.applyFilter J.inImage (p % J.inImage.width : ℕ) (p / J.inImage.width : ℕ)) := by
  have hiw : J.outImage.width = J.inImage.width := rfl
  have hih : J.outImage.height = J.inImage.height := rfl
  rw [h.out, h.coordinates_stores, data_storeAll _ J.width_lt J.height_lt hiw hih
    (fun q => (h.mem_index_iff hd q).mp) hp, if_pos ((h.mem_index_iff hd p).mpr hp)]

/-- When all threads have been joined, each pixel was stored exactly once, at its
    coordinates, each holds what the filter makes of the input there, and the output
    image is the one of the sequential program. -/
theorem threads_joined (h : J.threads.Reach s) (hd : ∀ t, (s.thr t).pc = .done) :
    (∀ c ∈ s.mem.stores,
      0 ≤ c.x ∧ c.x < J.inImage.width ∧ 0 ≤ c.y ∧ c.y < J.inImage.height) ∧
    (∀ p < J.inImage.width * J.inImage.height, ∃ t,
      s.mem.stores.filter (fun c => pixelIndex J.inImage.width c.x c.y = p) =
        [⟨t, (p % J.inImage.width : ℕ), (p / J.inImage.width : ℕ)⟩]) ∧
    (∀ p < J.inImage.width * J.inImage.height, s.mem.outImage.data[p]? =
      some (J.applyFilter J.inImage (p % J.inImage.width : ℕ) (p / J.inImage.width : ℕ))) ∧
    s.mem.outImage = J.filterAll := by
  have hok := reach_ok h
  refine ⟨?_, fun p hp => hok.filter_index hd hp, fun p hp => hok.data_outImage hd hp, ?_⟩
  · intro c hc
    obtain ⟨hlt, heq, -⟩ := hok.eq_storeCall hc
    have hpos : 0 < J.inImage.width := by
      apply Nat.pos_of_ne_zero
      intro h0
      unfold area at hlt
      rw [h0, Nat.zero_mul] at hlt
      omega
    have hx : index c % J.inImage.width < J.inImage.width := Nat.mod_lt _ hpos
    have hy : index c / J.inImage.width < J.inImage.height := Nat.div_lt_of_lt_mul hlt
    rw [heq]
    exact ⟨Int.natCast_nonneg _, Int.ofNat_lt.mpr hx, Int.natCast_nonneg _, Int.ofNat_lt.mpr hy⟩
  · have hiw : J.outImage.width = J.inImage.width := rfl
    have hih : J.outImage.height = J.inImage.height := rfl
    rw [hok.out, hok.coordinates_stores, filterAll, rowMajor_eq]
    exact storeAll_eq _ J.width_lt J.height_lt hiw hih (hok.mem_index_iff hd) fun p =>
      List.mem_range

/-- Two threads on an image of two columns and one row. -/
def small : Job where
  inImage := ⟨2, 1, [3, 4], rfl⟩
  applyFilter img x y := img.data.getD (pixelIndex 2 x y) 0 + 1
  memory _ := 0
  threadCount := 2
  width_lt := by decide
  height_lt := by decide
  threadCount_pos := by decide
  threadCount_lt := by decide

/-- The second thread overtakes the first one. -/
theorem threads_joined_small : ∃ s : FilterState (Fin small.threadCount),
    (small.threads.Reach s ∧ ∀ t, (s.thr t).pc = .done) ∧
      (∀ p < 2 * 1, ∃ t, s.mem.stores.filter (fun c => pixelIndex 2 c.x c.y = p) =
        [⟨t, (p % 2 : ℕ), (p / 2 : ℕ)⟩]) ∧
      s.mem.outImage.data[1]? = some 5 ∧ s.mem.outImage = small.filterAll := by
  obtain ⟨s, hr, hs⟩ := Machine.Reach.of_run (M := small.threads)
    ([0, 1, 1, 1, 1, 0, 0, 0] : List (Fin 2))
    (fun s => ((s.thr (0 : Fin 2)).pc, (s.thr (1 : Fin 2)).pc)) (.done, .done) rfl rfl
  simp only [Prod.mk.injEq] at hs
  have hd : ∀ t, (s.thr t).pc = .done := by
    intro t
    match t with
    | ⟨0, _⟩ => exact hs.1
    | ⟨1, _⟩ => exact hs.2
  have hj := threads_joined hr hd
  exact ⟨s, ⟨hr, hd⟩, hj.2.1, hj.2.2.1 1 (by decide), hj.2.2.2⟩

end Joined

end Job

end AghOs.Pgm
