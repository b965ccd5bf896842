import AghOs.Barber.Mutex
import AghOs.Machine.Ring

/-!
# The queue of the waiting room

The seats between `wr_start` and `wr_end` are the queue. `wr_pop` and `wr_push`
write `wr_start`, `wr_end` and `wr_count` one after another, and a client that
has pushed its seat has yet to write it; `Shop.InQueue` counts only seats that
are written, `BarberPc.Popped` is the seat the barber has taken out.

* `Shop.EndsOk`: the three fields agree, up to the writes under way.
* `Shop.queue_barber`, `Shop.queue_client`: how a step changes the queue.
-/

namespace AghOs.Barber

variable {ι : Type*} {b : Build} {cap : ℕ}

/-- `1` while the barber has advanced `wr_start` and not yet written
    `wr_count`. -/
def BarberPc.popping : BarberPc → ℕ
  | .popReadCount _ | .popWriteCount _ _ => 1
  | _ => 0

/-- The barber has popped seat `k` and not yet posted its semaphore. -/
def BarberPc.Popped (k : ℕ) : BarberPc → Prop
  | .popReadCount next | .popWriteCount next _ | .logInvite next | .convWaiting next
  | .postWaiting next _ => next = k
  | _ => False

/-- `1` while the client has advanced `wr_end` and not yet written
    `wr_count`. -/
def ClientPc.pushing : ClientPc → ℕ
  | .pushReadCount _ | .pushWriteCount _ _ => 1
  | _ => 0

/-- `1` while the client has counted its seat and not yet written it. -/
def ClientPc.unwritten : ClientPc → ℕ
  | .newSeat _ | .writeSeat _ _ => 1
  | _ => 0

theorem BarberPc.popping_le_holds (pc : BarberPc) : pc.popping ≤ pc.holds := by
  cases pc <;> simp [popping, holds]

theorem ClientPc.pushing_le_holds (pc : ClientPc) : pc.pushing ≤ pc.holds := by
  cases pc <;> simp [pushing, holds]

theorem ClientPc.unwritten_le_holds (pc : ClientPc) : pc.unwritten ≤ pc.holds := by
  cases pc <;> simp [unwritten, holds]

/-- The seat the barber has popped is the one before the queue. -/
theorem BarberPc.Popped.before {bs : BarberShopMem ι} {pc : BarberPc} {k : ℕ} (h : pc.Popped k)
    (ho : pc.Ok cap bs) (hc : bs.wrCount ≤ cap) :
    k < cap ∧ bs.wrStart = (k + 1) % cap ∧ bs.wrCount < cap + pc.popping := by
  cases pc with
  | popReadCount next | popWriteCount next _ =>
    cases h
    exact ⟨ho.2.1, by simp_all [Ok], Nat.lt_succ_of_le hc⟩
  | logInvite next | convWaiting next | postWaiting next _ =>
    cases h
    exact ⟨ho.1, ho.2.2, ho.2.1⟩
  | _ => exact h.elim

variable [Fintype ι]

/-- Seat `k` is written and in the queue. -/
def Shop.InQueue (cap : ℕ) (s : Shop ι) (k : ℕ) : Prop :=
  ∃ d, d + s.barber.pc.popping + weigh (fun c => c.pc.unwritten) s.client < s.mem.bs.wrCount ∧
    k = (s.mem.bs.wrStart + d) % cap

/-- `wr_end` is `wr_count` seats after `wr_start`, up to the writes under
    way. -/
def Shop.EndsOk (cap : ℕ) (s : Shop ι) : Prop :=
  s.mem.bs.wrEnd + s.barber.pc.popping ≡
    s.mem.bs.wrStart + s.mem.bs.wrCount + weigh (fun c => c.pc.pushing) s.client [MOD cap]

theorem Shop.Init.endsOk {s : Shop ι} (h : s.Init) : s.EndsOk cap := by
  have : weigh (fun c => c.pc.pushing) s.client = 0 :=
    weigh_eq_zero_iff.mpr fun i => by simp [h.pc i, ClientPc.pushing]
  simp [EndsOk, h.bs, h.barber, initializeBarber, BarberPc.popping, this, Nat.ModEq]

theorem Shop.Init.not_inQueue {s : Shop ι} (h : s.Init) (k : ℕ) : ¬s.InQueue cap k := by
  rintro ⟨d, hd, -⟩
  simp [h.bs, initializeBarber] at hd

/-- The seat the barber has popped is not in the queue any more. -/
theorem Shop.MxInv.popped_not_inQueue {s : Shop ι} (hmx : s.MxInv cap) {k : ℕ}
    (hp : s.barber.pc.Popped k) : ¬s.InQueue cap k := by
  rintro ⟨d, hd, hk⟩
  obtain ⟨hlt, hs, hc⟩ := hp.before hmx.barber hmx.bounds.count
  rw [hs, ring_succ] at hk
  exact ring_ne hlt (Nat.succ_pos d) (by omega) hk.symm

/-- While the barber holds the mutex, no client does. -/
theorem Shop.MxInv.barber_alone {s : Shop ι} (hmx : s.MxInv cap) (h : s.barber.pc.holds = 1)
    {w : ClientPc → ℕ} (hw : ∀ pc, w pc ≤ pc.holds) : weigh (fun c => w c.pc) s.client = 0 := by
  have h1 := hmx.one
  have h2 := weigh_mono (fun c : Client => hw c.pc) s.client
  omega

/-- While a client holds the mutex, nobody else does. -/
theorem Shop.MxInv.client_alone {s : Shop ι} (hmx : s.MxInv cap) {i : ι}
    (h : (s.client i).pc.holds = 1) : s.barber.pc.holds = 0 ∧
      ∀ w : ClientPc → ℕ, (∀ pc, w pc ≤ pc.holds) →
        weigh (fun c => w c.pc) s.client = w (s.client i).pc := by
  have h1 := hmx.one
  have h2 := le_weigh (fun c : Client => c.pc.holds) s.client i
  simp only [h] at h2
  refine ⟨by omega, fun w hw => Fintype.sum_eq_single i fun j hj => ?_⟩
  classical
  by_contra hne
  have hwj := hw (s.client j).pc
  change w (s.client j).pc ≠ 0 at hne
  exact hj (eq_of_weigh_le_one (w := fun c : Client => c.pc.holds) (t := s.client) (by omega)
    (by omega) (by omega))

/-! ## The barber's steps -/

/-- A step of the barber takes the first seat out of the queue, or leaves the
    queue as it is; a popped seat stays popped until its semaphore is posted. -/
theorem Shop.queue_barber {s : Shop ι} {m' : Shared ι} {bar' : BarberState}
    (hmx : s.MxInv cap) (hst : barberStep b cap s.mem s.barber = some (m', bar')) (k : ℕ) :
    (Shop.InQueue cap { s with mem := m', barber := bar' } k → s.InQueue cap k) ∧
    (bar'.pc.Popped k → s.barber.pc.Popped k ∨ s.InQueue cap k) ∧
    (s.InQueue cap k →
      Shop.InQueue cap { s with mem := m', barber := bar' } k ∨ bar'.pc.Popped k) ∧
    (s.barber.pc.Popped k → bar'.pc.Popped k ∨ ∃ sem, s.barber.pc = .postWaiting k sem) := by
  have halone := fun h => hmx.barber_alone h ClientPc.unwritten_le_holds
  have hok := hmx.barber
  have hstart := hmx.bounds.start
  obtain ⟨m, ⟨pc, cycles⟩, client⟩ := s
  cases pc with
  | popWriteStart next start =>
    cases hst
    obtain ⟨hc, rfl, rfl⟩ : 0 < m.bs.wrCount ∧ next = m.bs.wrStart ∧ start = m.bs.wrStart := hok
    have hU := halone rfl
    simp only [InQueue, BarberPc.popping, BarberPc.Popped, hU]
    have hcap : 0 < cap := by have := hmx.bounds.count; simp only at this; omega
    have h0 : (m.bs.wrStart + 0) % cap = m.bs.wrStart := Nat.mod_eq_of_lt (hstart hcap)
    refine ⟨?_, ?_, ?_, False.elim⟩
    · rintro ⟨d, hd, rfl⟩
      exact ⟨d + 1, by omega, ring_succ _ _ _⟩
    · rintro rfl
      exact .inr ⟨0, by omega, h0.symm⟩
    · rintro ⟨d, hd, rfl⟩
      cases d with
      | zero => exact .inr h0.symm
      | succ d => exact .inl ⟨d, by omega, (ring_succ _ _ _).symm⟩
  | popWriteCount next count =>
    cases hst
    obtain ⟨hc, -, -, rfl⟩ : 0 < m.bs.wrCount ∧ _ ∧ _ ∧ count = m.bs.wrCount := hok
    simp only [InQueue, BarberPc.popping, BarberPc.Popped]
    refine ⟨?_, .inl, ?_, .inl⟩
    · rintro ⟨d, hd, rfl⟩
      exact ⟨d, by omega, rfl⟩
    · rintro ⟨d, hd, rfl⟩
      exact .inl ⟨d, by omega, rfl⟩
  | postWaiting next sem =>
    simp only [barberStep] at hst
    split at hst <;> cases hst
    all_goals exact ⟨id, False.elim, .inl, fun hp => .inr ⟨sem, by cases hp; rfl⟩⟩
  | _ =>
    simp only [barberStep] at hst
    repeat' split at hst
    all_goals cases hst
    all_goals exact ⟨id, .inl, .inl, .inl⟩

theorem Shop.EndsOk.barber {s : Shop ι} {m' : Shared ι} {bar' : BarberState} (he : s.EndsOk cap)
    (hok : s.barber.pc.Ok cap s.mem.bs)
    (hst : barberStep b cap s.mem s.barber = some (m', bar')) :
    Shop.EndsOk cap { s with mem := m', barber := bar' } := by
  obtain ⟨m, ⟨pc, cycles⟩, client⟩ := s
  cases pc with
  | popWriteStart next start =>
    cases hst
    obtain ⟨-, -, rfl⟩ : 0 < m.bs.wrCount ∧ next = m.bs.wrStart ∧ start = m.bs.wrStart := hok
    have h1 := he.add_right 1
    have h2 : (m.bs.wrStart + 1) % cap ≡ m.bs.wrStart + 1 [MOD cap] := Nat.mod_modEq _ _
    have h3 := (h2.add_right m.bs.wrCount).add_right (weigh (fun c => c.pc.pushing) client)
    refine h1.trans (Nat.ModEq.trans ?_ h3.symm)
    rw [show ∀ a b c : ℕ, a + b + c + 1 = a + 1 + b + c by intros; omega]
  | popWriteCount next count =>
    cases hst
    obtain ⟨hc, -, -, rfl⟩ : 0 < m.bs.wrCount ∧ _ ∧ _ ∧ count = m.bs.wrCount := hok
    refine Nat.ModEq.add_right_cancel' 1 ?_
    have h1 : m.bs.wrStart + (m.bs.wrCount - 1) + weigh (fun c => c.pc.pushing) client + 1 =
        m.bs.wrStart + m.bs.wrCount + weigh (fun c => c.pc.pushing) client := by
      omega
    simp only [BarberPc.popping, Nat.add_zero, h1]
    exact he
  | _ =>
    simp only [barberStep] at hst
    repeat' split at hst
    all_goals cases hst
    all_goals exact he

/-! ## The clients' steps -/

variable [DecidableEq ι]

omit [Fintype ι] in
/-- A client writes `wr_end` and `wr_count` once in `wr_push`. -/
theorem clientStep_ends {i : ι} {id : ℕ} {m m' : Shared ι} {c c' : Client}
    (h : clientStep b cap i id m c = some (m', c')) (ho : c.pc.Ok cap m.bs) :
    m'.bs.wrStart = m.bs.wrStart ∧
    ((∀ my w, c.pc ≠ .writeSeat my w) ∧
        m'.bs.wrCount + c.pc.unwritten = m.bs.wrCount + c'.pc.unwritten ∨
      (∃ my w, c.pc = .writeSeat my w) ∧ m'.bs.wrCount = m.bs.wrCount ∧ c'.pc.unwritten = 0) ∧
    (m'.bs.wrEnd = m.bs.wrEnd ∧ m'.bs.wrCount + c'.pc.pushing = m.bs.wrCount + c.pc.pushing ∨
      m'.bs.wrEnd = (m.bs.wrEnd + 1) % cap ∧
        m'.bs.wrCount + c'.pc.pushing = m.bs.wrCount + c.pc.pushing + 1) := by
  obtain ⟨pc, haircuts, completed⟩ := c
  cases pc with
  | pushWriteEnd my e =>
    cases h
    obtain ⟨-, -, -, rfl⟩ := ho
    exact ⟨rfl, .inl ⟨by simp, rfl⟩, .inr ⟨rfl, rfl⟩⟩
  | pushWriteCount my count =>
    cases h
    obtain ⟨-, -, -, -, rfl⟩ := ho
    exact ⟨rfl, .inl ⟨by simp, rfl⟩, .inl ⟨rfl, rfl⟩⟩
  | writeSeat my w =>
    cases h
    exact ⟨rfl, .inr ⟨⟨my, w, rfl⟩, rfl, rfl⟩, .inl ⟨rfl, rfl⟩⟩
  | _ =>
    simp only [clientStep] at h
    repeat' split at h
    all_goals cases h
    all_goals exact ⟨rfl, .inl ⟨by simp, rfl⟩, .inl ⟨rfl, rfl⟩⟩

theorem Shop.EndsOk.client {s : Shop ι} {i : ι} {id : ℕ} {m' : Shared ι} {c' : Client}
    (he : s.EndsOk cap) (hok : (s.client i).pc.Ok cap s.mem.bs)
    (hst : clientStep b cap i id s.mem (s.client i) = some (m', c')) :
    Shop.EndsOk cap { s with mem := m', client := Function.update s.client i c' } := by
  obtain ⟨hs, -, h⟩ := clientStep_ends hst hok
  have hw := weigh_update (fun c : Client => c.pc.pushing) s.client i c'
  simp only [EndsOk] at he hw ⊢
  rw [hs]
  obtain ⟨he', hc⟩ | ⟨he', hc⟩ := h <;> rw [he']
  · rw [show ∀ a : ℕ,
      a + m'.bs.wrCount + weigh (fun c => c.pc.pushing) (Function.update s.client i c')
      = a + s.mem.bs.wrCount + weigh (fun c => c.pc.pushing) s.client by intros; omega]
    exact he
  · rw [show ∀ a : ℕ,
      a + m'.bs.wrCount + weigh (fun c => c.pc.pushing) (Function.update s.client i c')
      = a + s.mem.bs.wrCount + weigh (fun c => c.pc.pushing) s.client + 1 by intros; omega]
    refine Nat.ModEq.trans ?_ (he.add_right 1)
    have h2 : (s.mem.bs.wrEnd + 1) % cap ≡ s.mem.bs.wrEnd + 1 [MOD cap] := Nat.mod_modEq _ _
    refine (h2.add_right _).trans ?_
    rw [show ∀ a b : ℕ, a + 1 + b = a + b + 1 by intros; omega]

/-- A step of a client leaves the queue as it is, or puts the seat that it
    writes at its end. -/
theorem Shop.queue_client {s : Shop ι} {i : ι} {id : ℕ} {m' : Shared ι} {c' : Client}
    (hmx : s.MxInv cap) (he : s.EndsOk cap)
    (hst : clientStep b cap i id s.mem (s.client i) = some (m', c')) (k : ℕ) :
    Shop.InQueue cap { s with mem := m', client := Function.update s.client i c' } k ↔
      s.InQueue cap k ∨ ∃ w, (s.client i).pc = .writeSeat k w := by
  have hok := hmx.clients i
  obtain ⟨hs, h, -⟩ := clientStep_ends hst hok
  have hw := weigh_update (fun c : Client => c.pc.unwritten) s.client i c'
  simp only [InQueue, hs]
  obtain ⟨hne, h⟩ | ⟨⟨my, w, hpc⟩, hc, hU'⟩ := h
  · constructor
    · rintro ⟨d, hd, rfl⟩
      exact .inl ⟨d, by omega, rfl⟩
    · rintro (⟨d, hd, rfl⟩ | ⟨w, hpc⟩)
      · exact ⟨d, by omega, rfl⟩
      · exact absurd hpc (hne _ _)
  · rw [hpc] at hok
    obtain ⟨hmy, h0, hend⟩ := hok
    obtain ⟨hbar, hcl⟩ := hmx.client_alone (i := i) (by rw [hpc]; rfl)
    have hP : s.barber.pc.popping = 0 := Nat.le_zero.mp (hbar ▸ s.barber.pc.popping_le_holds)
    have hU : weigh (fun c => c.pc.unwritten) s.client = 1 := by
      rw [hcl _ ClientPc.unwritten_le_holds, hpc]; rfl
    have hV : weigh (fun c => c.pc.pushing) s.client = 0 := by
      rw [hcl _ ClientPc.pushing_le_holds, hpc]; rfl
    have hlast : my = (s.mem.bs.wrStart + (s.mem.bs.wrCount - 1)) % cap := by
      refine ring_last hmy h0 ?_
      have h1 : s.mem.bs.wrEnd % cap = (s.mem.bs.wrStart + s.mem.bs.wrCount) % cap := by
        simpa only [EndsOk, hP, hV, Nat.add_zero, Nat.ModEq] using he
      rwa [hend, Nat.mod_mod] at h1
    rw [hpc] at hw
    have hu : (ClientPc.writeSeat my w).unwritten = 1 := rfl
    simp only [hpc, ClientPc.writeSeat.injEq]
    constructor
    · rintro ⟨d, hd, rfl⟩
      by_cases hd' : d = s.mem.bs.wrCount - 1
      · exact .inr ⟨w, by rw [hd']; exact hlast, rfl⟩
      · exact .inl ⟨d, by omega, rfl⟩
    · rintro (⟨d, hd, rfl⟩ | ⟨_, rfl, -⟩)
      · exact ⟨d, by omega, rfl⟩
      · exact ⟨s.mem.bs.wrCount - 1, by omega, hlast⟩

end AghOs.Barber
