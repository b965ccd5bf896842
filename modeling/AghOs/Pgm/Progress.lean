import AghOs.Machine.Runs
import AghOs.Machine.Threads
import AghOs.Pgm.Filtering
import Mathlib.Algebra.BigOperators.Intervals
import Mathlib.Algebra.BigOperators.Ring.Finset
import Mathlib.Algebra.Order.BigOperators.Group.Finset
import Mathlib.Data.List.Nodup

/-!
# The progress of the threads

`pixels_processed` (`src/cw08/zad1/src/main.c`, lines 37–38 and 61–66): a thread that
gets `pp_sem` adds the pixels it has not yet reported. `thread_progress` prints what
share of all pixels that is.

* `progress_counted`: the update is done by one thread at a time, and what has been
  reported and what has not is what has been stored; so the share never exceeds one.
  Every run of the threads is bounded, and it stops only when all of them are done.
-/

namespace AghOs.Pgm

/-- The thread holds `pp_sem`. -/
def FilterPc.holds : FilterPc → Bool
  | .add | .post => true
  | _ => false

namespace Job

variable {J : Job}

/-! ## The pixels that have been stored -/

section

variable {s : FilterState (Fin J.threadCount)}

/-- No pixel is stored twice. -/
theorem Ok.nodup_index (h : Ok s) : (s.mem.stores.map index).Nodup := by
  rw [List.nodup_iff_count_le_one]
  intro p
  let t : Fin J.threadCount := ⟨p % J.threadCount, Nat.mod_lt p J.threadCount_pos⟩
  obtain ⟨k, -, hs, hlt⟩ := h.thr t
  have hcount : (s.mem.stores.map index).count p = ((List.range k).filter
      fun i => index (storeCall t (strided t i)) = p).length := by
    have hthread : s.mem.stores.filter (fun c => index c = p) =
        (s.mem.stores.filter (·.thread = t)).filter (fun c => index c = p) := by
      rw [List.filter_filter]
      apply List.filter_congr
      intro c hc
      have hct : index c = p → c.thread = t := fun hi =>
        Fin.ext ((h.eq_storeCall hc).2.2.trans (by rw [hi]))
      simpa using hct
    rw [List.count, List.countP_map, List.countP_eq_length_filter]
    show (s.mem.stores.filter fun c => index c == p).length = _
    simp only [beq_eq_decide]
    rw [hthread, hs, List.filter_map, List.length_map]
    rfl
  have hone : ∀ i ∈ List.range k, decide (index (storeCall t (strided t i)) = p) = true →
      i = p / J.threadCount := by
    intro i hi hp
    rw [index_storeCall (hlt i (List.mem_range.mp hi)), decide_eq_true_eq] at hp
    exact (strided_eq_iff.mp hp).2
  rw [hcount, ← List.countP_eq_length_filter]
  refine le_trans (List.countP_mono_left (q := (· == p / J.threadCount)) fun i hi hp => ?_) ?_
  · exact beq_iff_eq.mpr (hone i hi hp)
  · exact List.nodup_iff_count_le_one.mp List.nodup_range _

theorem Ok.length_stores_le (h : Ok s) : s.mem.stores.length ≤ J.area := by
  have hsub : s.mem.stores.map index ⊆ List.range J.area := by
    intro p hp
    obtain ⟨c, hc, rfl⟩ := List.mem_map.mp hp
    exact List.mem_range.mpr (h.eq_storeCall hc).1
  have hle := (h.nodup_index.subperm hsub).length_le
  rwa [List.length_map, List.length_range] at hle

end

/-! ## The counter -/

/-- The pixels that have been stored are those that were reported and those that were
    not, and `pp_sem` is free or held by one thread. -/
structure Counted (s : FilterState (Fin J.threadCount)) : Prop where
  sem : s.mem.ppSem.toNat + weigh (fun l => l.pc.holds.toNat) s.thr = 1
  pos : 0 ≤ s.mem.pixelsProcessed
  thr_pos : ∀ t, 0 ≤ (s.thr t).processed
  sum : s.mem.pixelsProcessed + ∑ t, (s.thr t).processed = s.mem.stores.length

section

variable {s : FilterState (Fin J.threadCount)} {t : Fin J.threadCount}
  {m' : FilterMem (Fin J.threadCount)} {l' : FilterLocals}

theorem Counted.processed_le (h : Counted s) (hok : Ok s) (t : Fin J.threadCount) :
    s.mem.pixelsProcessed + (s.thr t).processed ≤ J.area := by
  have hle : (s.thr t).processed ≤ ∑ t, (s.thr t).processed :=
    Finset.single_le_sum (fun t _ => h.thr_pos t) (Finset.mem_univ t)
  have hsum := h.sum
  have hlen := hok.length_stores_le
  omega

/-- One thread moves. What it takes on, and what it reports, is balanced. -/
theorem Counted.move (h : Counted s)
    (hsem : m'.ppSem.toNat + l'.pc.holds.toNat = s.mem.ppSem.toNat + (s.thr t).pc.holds.toNat)
    (hpos : 0 ≤ m'.pixelsProcessed) (hthr : 0 ≤ l'.processed)
    (hsum : m'.pixelsProcessed + l'.processed + s.mem.stores.length =
      s.mem.pixelsProcessed + (s.thr t).processed + m'.stores.length) :
    Counted (⟨m', Function.update s.thr t l'⟩ : FilterState (Fin J.threadCount)) where
  sem := by
    have hw := weigh_update (fun l : FilterLocals => l.pc.holds.toNat) s.thr t l'
    have hold := h.sem
    show m'.ppSem.toNat + weigh _ (Function.update s.thr t l') = 1
    omega
  pos := hpos
  thr_pos := (Function.forall_update_iff s.thr fun _ l => 0 ≤ l.processed).mpr
    ⟨hthr, fun u _ => h.thr_pos u⟩
  sum := by
    have hs := sum_update (fun _ : Fin J.threadCount => FilterLocals.processed) s.thr t l'
    have hold := h.sum
    show m'.pixelsProcessed + ∑ u, (Function.update s.thr t l' u).processed = m'.stores.length
    omega

theorem Counted.step (hsmall : J.area < 2 ^ 31) (h : Counted s) (hok : Ok s)
    (hok' : Ok (⟨m', Function.update s.thr t l'⟩ : FilterState (Fin J.threadCount)))
    (hr : J.threadRun t s.mem (s.thr t) = some (m', l')) :
    Counted (⟨m', Function.update s.thr t l'⟩ : FilterState (Fin J.threadCount)) := by
  have hle := h.processed_le hok t
  have hpos := h.pos
  have hthr := h.thr_pos t
  cases hpc : (s.thr t).pc with
  | head =>
    simp only [threadRun, hpc] at hr
    split at hr <;> cases hr
    · exact h.move (by rw [hpc]; rfl) hpos hthr rfl
    · exact h.move (by rw [hpc]; rfl) hpos hthr rfl
  | store x y pix =>
    simp only [threadRun, hpc] at hr
    cases hr
    have hadd : toLong ((s.thr t).processed + 1) = (s.thr t).processed + 1 := by
      obtain ⟨n, hn⟩ := Int.eq_ofNat_of_zero_le hthr
      rw [hn] at hle ⊢
      exact toLong_natCast (n := n + 1) (by omega)
    refine h.move (by rw [hpc]; rfl) hpos ?_ ?_
    · show 0 ≤ toLong _
      omega
    · show s.mem.pixelsProcessed + toLong _ + _ =
        s.mem.pixelsProcessed + _ + ((s.mem.stores ++ [_]).length : ℕ)
      rw [hadd, List.length_append, List.length_singleton]
      omega
  | check =>
    simp only [threadRun, hpc] at hr
    split at hr <;> cases hr
    · rename_i hc
      exact h.move (by rw [hpc, hc.2]; rfl) hpos hthr rfl
    · exact h.move (by rw [hpc]; rfl) hpos hthr rfl
  | add =>
    simp only [threadRun, hpc] at hr
    cases hr
    have hadd : toInt (s.mem.pixelsProcessed + (s.thr t).processed) =
        s.mem.pixelsProcessed + (s.thr t).processed := toInt_eq_self (by omega) (by omega)
    refine h.move (by rw [hpc]; rfl) ?_ le_rfl ?_
    · show 0 ≤ toInt _
      omega
    · show toInt _ + 0 + (s.mem.stores.length : ℤ) = _
      rw [hadd, add_zero]
  | post =>
    simp only [threadRun, hpc] at hr
    cases hr
    have hsem := h.sem
    have hheld : 1 ≤ weigh (fun l : FilterLocals => l.pc.holds.toNat) s.thr :=
      le_trans (by rw [hpc]; rfl) (le_weigh _ _ t)
    have hfree : s.mem.ppSem = false := by
      cases hs : s.mem.ppSem with
      | false => rfl
      | true => rw [hs, Bool.toNat_true] at hsem; omega
    exact h.move (by rw [hpc, hfree]; rfl) hpos hthr rfl
  | done =>
    simp only [threadRun, hpc] at hr
    cases hr

theorem reach_counted (hsmall : J.area < 2 ^ 31) (h : J.threads.Reach s) : Counted s := by
  refine h.invariant_of (fun _ hs => reach_ok hs) ?_ ?_
  · rintro s rfl
    refine ⟨?_, le_rfl, fun _ => le_rfl, ?_⟩
    · have h0 : weigh (fun l : FilterLocals => l.pc.holds.toNat)
          (fun t : Fin J.threadCount => (⟨.head, t.val, 0, 0⟩ : FilterLocals)) = 0 :=
        weigh_eq_zero_iff.mpr fun _ => rfl
      rw [h0]
      rfl
    · simp
  · intro s t s' hok hok' hc _ hn
    obtain ⟨⟨m', l'⟩, hr, rfl⟩ := Option.map_eq_some_iff.mp hn
    exact hc.step hsmall hok hok' hr

end

/-! ## The end of a run -/

/-- The pixels that a thread has before it, from `pixel` on. -/
def ahead (J : Job) (pixel : ℤ) : ℕ :=
  (J.area - pixel + (J.threadCount - 1)).toNat / J.threadCount

/-- The steps that a thread has before it: five at most for a pixel, and the last test. -/
def rank (J : Job) (l : FilterLocals) : ℕ :=
  match l.pc with
  | .head => 5 * J.ahead l.pixel + 1
  | .store _ _ _ => 5 * J.ahead l.pixel
  | .check => 5 * J.ahead l.pixel - 1
  | .add => 5 * J.ahead l.pixel - 2
  | .post => 5 * J.ahead l.pixel - 3
  | .done => 0

theorem ahead_next {pixel : ℤ} (hlt : pixel < J.area) :
    J.ahead pixel = J.ahead (pixel + J.threadCount) + 1 := by
  have hpos := J.threadCount_pos
  have hn : (J.area - (pixel + J.threadCount) + (J.threadCount - 1)).toNat =
      (J.area - pixel + (J.threadCount - 1)).toNat - J.threadCount := by omega
  rw [ahead, ahead, hn]
  exact Nat.div_eq_sub_div hpos (by omega)

theorem sum_add_div {n : ℕ} (hn : 0 < n) (m : ℕ) :
    ∑ i ∈ Finset.range n, (m + i) / n = m := by
  induction m with
  | zero =>
    refine Finset.sum_eq_zero fun i hi => ?_
    rw [Nat.zero_add]
    exact Nat.div_eq_of_lt (Finset.mem_range.mp hi)
  | succ m ih =>
    -- the sums for `m` and `m + 1` have all summands but the outermost in common
    have hsum := Finset.sum_range_succ' (fun i => (m + i) / n) n
    rw [Finset.sum_range_succ, ih, Nat.add_div_right m hn] at hsum
    simp only [Nat.add_zero] at hsum
    have hshift : ∑ i ∈ Finset.range n, (m + 1 + i) / n =
        ∑ i ∈ Finset.range n, (m + (i + 1)) / n :=
      Finset.sum_congr rfl fun i _ => by rw [Nat.add_assoc, Nat.add_comm 1 i]
    omega

/-- Together the threads have all pixels before them. -/
theorem sum_ahead : ∑ t : Fin J.threadCount, J.ahead t.val = J.area := by
  have hpos := J.threadCount_pos
  have hterm : ∀ t : Fin J.threadCount,
      J.ahead t.val = (J.area + (J.threadCount - 1 - t.val)) / J.threadCount := by
    intro t
    have ht := t.isLt
    rw [ahead]
    congr 1
    omega
  rw [Finset.sum_congr rfl fun t _ => hterm t,
    Fin.sum_univ_eq_sum_range (fun i => (J.area + (J.threadCount - 1 - i)) / J.threadCount),
    Finset.sum_range_reflect (fun i => (J.area + i) / J.threadCount)]
  exact sum_add_div hpos J.area

section

variable {s s' : FilterState (Fin J.threadCount)} {t : Fin J.threadCount}

theorem At.pixel_lt {l : FilterLocals} {k : ℕ} (h : At t k l) (hlt : ∀ i < k, strided t i < J.area)
    (hpc : l.pc = .check ∨ l.pc = .add ∨ l.pc = .post) :
    l.pixel < J.area ∧ toLong (l.pixel + J.threadCount) = l.pixel + J.threadCount := by
  have hk := strided_lt hlt
  have ht := t.isLt
  have hat : l.pixel + J.threadCount = strided t k := by
    obtain hpc | hpc | hpc := hpc
    all_goals
      unfold At at h
      rwa [hpc] at h
  refine ⟨?_, by rw [hat, toLong_natCast hk]⟩
  cases k with
  | zero =>
    unfold strided at hat
    omega
  | succ k =>
    have hprev := hlt k (Nat.lt_succ_self k)
    rw [strided_succ] at hat
    omega

theorem threadRun_rank {m m' : FilterMem (Fin J.threadCount)} {l l' : FilterLocals} {k : ℕ}
    (h : J.threadRun t m l = some (m', l')) (ha : At t k l)
    (hlt : ∀ i < k, strided t i < J.area) : J.rank l' + 1 ≤ J.rank l := by
  -- from the pixel that has been stored on to the next one
  have hnext : l.pc = .check ∨ l.pc = .add ∨ l.pc = .post →
      J.ahead l.pixel = J.ahead (J.next l).pixel + 1 := by
    intro hpc
    obtain ⟨hpix, hlong⟩ := ha.pixel_lt hlt hpc
    show J.ahead l.pixel = J.ahead (toLong (l.pixel + J.threadCount)) + 1
    rw [hlong]
    exact ahead_next hpix
  cases hpc : l.pc with
  | head =>
    simp only [threadRun, hpc] at h
    split at h <;> cases h
    · simp only [rank, hpc]
      omega
    · simp only [rank, hpc]
      omega
  | store x y pix =>
    simp only [threadRun, hpc] at h
    cases h
    unfold At at ha
    rw [hpc] at ha
    obtain ⟨hp, hk, -⟩ := ha
    have hnext : J.ahead l.pixel = J.ahead (l.pixel + J.threadCount) + 1 := ahead_next (by omega)
    simp only [rank, hpc]
    omega
  | check =>
    have hnext := hnext (.inl hpc)
    simp only [threadRun, hpc] at h
    split at h <;> cases h
    · simp only [rank, hpc]
      omega
    · simp only [rank, hpc, next] at hnext ⊢
      omega
  | add =>
    have hnext := hnext (.inr (.inl hpc))
    simp only [threadRun, hpc] at h
    cases h
    simp only [rank, hpc]
    omega
  | post =>
    have hnext := hnext (.inr (.inr hpc))
    simp only [threadRun, hpc] at h
    cases h
    simp only [rank, hpc, next] at hnext ⊢
    omega
  | done =>
    simp only [threadRun, hpc] at h
    cases h

theorem threads_variant :
    J.threads.Variant J.threads.Reach (fun _ => 0) (fun s => weigh J.rank s.thr) where
  keep _ _ _ h hn := h.step hn
  lower s t s' h hn := by
    obtain ⟨⟨m', l'⟩, hr, rfl⟩ := Option.map_eq_some_iff.mp hn
    obtain ⟨k, ha, -, hlt⟩ := (reach_ok h).thr t
    have hstep := threadRun_rank hr ha hlt
    have hw := weigh_update J.rank s.thr t l'
    show weigh J.rank (Function.update s.thr t l') + 1 ≤ weigh J.rank s.thr + 0
    omega

theorem start_rank (J : Job) :
    weigh J.rank (fun t : Fin J.threadCount => ⟨.head, t.val, 0, 0⟩) =
      5 * J.area + J.threadCount := by
  have hsum : weigh J.rank (fun t : Fin J.threadCount => ⟨.head, t.val, 0, 0⟩) =
      ∑ t : Fin J.threadCount, (5 * J.ahead t.val + 1) := rfl
  rw [hsum, Finset.sum_add_distrib, ← Finset.mul_sum, sum_ahead]
  simp

/-- When all threads are done, everything has been stored. -/
theorem Ok.length_stores (h : Ok s) (hd : ∀ t, (s.thr t).pc = .done) :
    s.mem.stores.length = J.area := by
  refine le_antisymm h.length_stores_le ?_
  have hsub : List.range J.area ⊆ s.mem.stores.map index := fun p hp =>
    (h.mem_index_iff hd p).mpr (List.mem_range.mp hp)
  have hle := (List.nodup_range.subperm hsub).length_le
  rwa [List.length_map, List.length_range] at hle

theorem threadRun_eq_none_iff {m : FilterMem (Fin J.threadCount)} {l : FilterLocals} :
    J.threadRun t m l = none ↔ l.pc = .done := by
  constructor
  · intro h
    cases hpc : l.pc with
    | done => rfl
    | _ =>
      simp only [threadRun, hpc] at h
      repeat' split at h
      all_goals cases h
  · intro hpc
    simp only [threadRun, hpc]

/-- No update of `pixels_processed` gets lost: one thread at a time changes it, what it
    holds and what the threads have not yet added is what has been stored, and never
    more than there is. A run takes at most five steps for each pixel and one for each
    thread, and where it stops, all threads are done and each pixel has been stored,
    once. -/
theorem progress_counted (hsmall : J.inImage.width * J.inImage.height < 2 ^ 31)
    {ls : List (Fin J.threadCount)} {s₀ : FilterState (Fin J.threadCount)}
    (h0 : J.threads.init s₀) (hr : J.threads.run ls s₀ = some s) :
    (∀ t u, (s.thr t).pc.holds = true → (s.thr u).pc.holds = true → t = u) ∧
      0 ≤ s.mem.pixelsProcessed ∧ (∀ t, 0 ≤ (s.thr t).processed) ∧
      s.mem.pixelsProcessed + ∑ t, (s.thr t).processed = s.mem.stores.length ∧
      s.mem.stores.length ≤ J.inImage.width * J.inImage.height ∧
      ls.length ≤ 5 * (J.inImage.width * J.inImage.height) + J.threadCount ∧
      ((∀ t, J.threads.next s t = none) → (∀ t, (s.thr t).pc = .done) ∧
        s.mem.stores.length = J.inImage.width * J.inImage.height ∧
        ∀ p < J.inImage.width * J.inImage.height, ∃ c,
          s.mem.stores.filter (fun c => pixelIndex J.inImage.width c.x c.y = p) = [c]) := by
  have hreach : J.threads.Reach s := (Machine.Reach.init h0).runIf hr
  have hok := reach_ok hreach
  have hc := reach_counted hsmall hreach
  refine ⟨fun t u ht hu => ?_, hc.pos, hc.thr_pos, hc.sum, hok.length_stores_le, ?_, fun hb => ?_⟩
  · have hle : weigh (fun l : FilterLocals => l.pc.holds.toNat) s.thr ≤ 1 := by
      have hsem := hc.sem
      omega
    exact eq_of_weigh_le_one hle (by rw [ht]; decide) (by rw [hu]; decide)
  · have hlen := threads_variant.length_le (Machine.Reach.init h0) hr
    have hrank : weigh J.rank s₀.thr = 5 * J.area + J.threadCount := by
      cases h0
      exact start_rank J
    have hgain : (ls.map fun _ => 0).sum = 0 := by simp
    show ls.length ≤ 5 * J.area + J.threadCount
    omega
  · have hd : ∀ t, (s.thr t).pc = .done := fun t =>
      threadRun_eq_none_iff.mp (Option.map_eq_none_iff.mp (hb t))
    refine ⟨hd, hok.length_stores hd, fun p hp => ?_⟩
    obtain ⟨t, ht⟩ := hok.filter_index hd hp
    exact ⟨_, ht⟩

/-- Two threads on an image of sixteen columns and one row. -/
def strip : Job :=
  { small with
    inImage := ⟨16, 1, List.replicate 16 3, rfl⟩
    applyFilter := fun img x _ => img.data.getD x.toNat 0 + 1
    width_lt := by decide
    height_lt := by decide }

/-- The first thread holds `pp_sem` while the second one is at its last pixel: the second
    one is done with eight pixels that it has not reported. -/
def stripRun : List (Fin strip.threadCount) :=
  (List.replicate 24 0 ++ List.replicate 25 1 ++ List.replicate 3 0 : List (Fin 2))

theorem progress_counted_strip : ∃ s : FilterState (Fin strip.threadCount),
    (strip.threads.run stripRun
        ⟨⟨strip.outImage, 0, true, []⟩, fun t => ⟨.head, t.val, 0, 0⟩⟩ = some s) ∧
      s.mem.pixelsProcessed = 8 ∧ s.mem.pixelsProcessed + ∑ t, (s.thr t).processed = 16 ∧
      ∃ c, s.mem.stores.filter (fun c => pixelIndex 16 c.x c.y = 15) = [c] := by
  have hrun : (strip.threads.run stripRun
      ⟨⟨strip.outImage, 0, true, []⟩, fun t => ⟨.head, t.val, 0, 0⟩⟩).map
        (fun s => (s.mem.pixelsProcessed, (s.thr (0 : Fin 2)).pc, (s.thr (1 : Fin 2)).pc)) =
      some (8, .done, .done) := by rfl
  obtain ⟨s, hr, hs⟩ := Option.map_eq_some_iff.mp hrun
  simp only [Prod.mk.injEq] at hs
  obtain ⟨height, hpc0, hpc1⟩ := hs
  have hb : ∀ t, strip.threads.next s t = none := by
    intro t
    match t with
    | ⟨0, _⟩ => exact Option.map_eq_none_iff.mpr (threadRun_eq_none_iff.mpr hpc0)
    | ⟨1, _⟩ => exact Option.map_eq_none_iff.mpr (threadRun_eq_none_iff.mpr hpc1)
  obtain ⟨-, -, -, hsum, -, -, hend⟩ :=
    progress_counted (J := strip) (by decide) rfl hr
  obtain ⟨-, hall, hpixels⟩ := hend hb
  have hall : s.mem.stores.length = 16 := hall
  exact ⟨s, hr, height, by rw [hsum, hall]; rfl, hpixels 15 (by decide)⟩

end

end Job

end AghOs.Pgm
