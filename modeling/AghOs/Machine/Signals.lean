import Mathlib.Data.List.Count
import Mathlib.Logic.Function.Basic
import Mathlib.Tactic.Common

/-!
# Signals of a process

A process with its signal mask, the signals that are pending, those it has a handler
for, and the handlers that run, the innermost first. A signal that is pending is not
queued again. One that is not blocked can be delivered between any two steps; while its
handler runs it is blocked, too. Without a handler it kills the process.

`κ` is where a handler can be; `todo` says at which places it has yet to act.

* `owed`: how often the handler has yet to act on a signal.
* `owed_raise`: a signal raised adds one, if it is not pending already.
* `owed_deliver`: delivering a signal loses nothing, if there is a handler for it.
* `owed_advance`, `owed_leave`: a step of a handler.
-/

namespace AghOs

/-- A handler that runs, and the mask that is restored when it returns. -/
structure SigFrame (σ κ : Type*) where
  sig : σ
  pc : κ
  saved : σ → Bool

structure SigProcess (σ κ : Type*) where
  running : Bool
  mask : σ → Bool
  pending : σ → Bool
  handled : σ → Bool
  frames : List (SigFrame σ κ)

namespace SigProcess

variable {σ κ : Type*}

/-- A process with the default actions. -/
def start (mask : σ → Bool) : SigProcess σ κ := ⟨true, mask, fun _ => false, fun _ => false, []⟩

/-- `sigprocmask(SIG_SETMASK, ...)` -/
def setMask (p : SigProcess σ κ) (mask : σ → Bool) : SigProcess σ κ := { p with mask := mask }

def exit (p : SigProcess σ κ) : SigProcess σ κ := { p with running := false }

/-- The innermost handler goes on. -/
def advance (p : SigProcess σ κ) (k : κ) : SigProcess σ κ :=
  { p with frames := p.frames.modifyHead fun f => { f with pc := k } }

/-- The innermost handler returns. -/
def leave (p : SigProcess σ κ) : SigProcess σ κ :=
  { p with
    mask :=
      match p.frames with
      | [] => p.mask
      | f :: _ => f.saved
    frames := p.frames.tail }

section

variable {p : SigProcess σ κ} {f : SigFrame σ κ} {fs : List (SigFrame σ κ)} {k : κ}

theorem frames_advance (hf : p.frames = f :: fs) :
    (p.advance k).frames = { f with pc := k } :: fs := by
  unfold advance
  rw [hf]
  rfl

theorem frames_leave (hf : p.frames = f :: fs) : p.leave.frames = fs := by
  unfold leave
  rw [hf]
  rfl

theorem mask_leave (hf : p.frames = f :: fs) : p.leave.mask = f.saved := by
  unfold leave
  rw [hf]

end

variable [DecidableEq σ]

/-- `signal` -/
def install (p : SigProcess σ κ) (x : σ) : SigProcess σ κ :=
  { p with handled := Function.update p.handled x true }

/-- The signal arrives from a call of `kill`. -/
def raise (p : SigProcess σ κ) (x : σ) : SigProcess σ κ :=
  { p with pending := if p.running then Function.update p.pending x true else p.pending }

/-- The signal is delivered; `saved` is the mask for the time behind the handler, which
    is at `k` when it is entered. -/
def deliver (p : SigProcess σ κ) (k : κ) (saved : σ → Bool) (x : σ) : Option (SigProcess σ κ) :=
  if p.running ∧ p.pending x ∧ ¬p.mask x then
    if p.handled x then
      some { p with
        pending := Function.update p.pending x false
        mask := Function.update p.mask x true
        frames := ⟨x, k, saved⟩ :: p.frames }
    else some p.exit
  else none

/-! ## What is owed to a signal -/

/-- How often the handler has yet to act on the signal. -/
def owed (p : SigProcess σ κ) (todo : κ → Bool) (x : σ) : ℕ :=
  (p.pending x).toNat + p.frames.countP fun f => f.sig = x ∧ todo f.pc

section

variable {p p' : SigProcess σ κ} {todo : κ → Bool} {x y : σ} {f : SigFrame σ κ}
  {fs : List (SigFrame σ κ)} {k : κ} {saved : σ → Bool}

theorem pending_of_owed (h : p.owed todo x = 0) : p.pending x = false := by
  have hp := Nat.eq_zero_of_add_eq_zero_right h
  cases hx : p.pending x with
  | false => rfl
  | true =>
    rw [hx] at hp
    cases hp

theorem owed_nil (hf : p.frames = []) : p.owed todo x = (p.pending x).toNat := by
  unfold owed
  rw [hf]
  rfl

theorem owed_cons (todo : κ → Bool) (x : σ) (hf : p.frames = f :: fs) :
    p.owed todo x = (p.pending x).toNat +
      (fs.countP (fun g => g.sig = x ∧ todo g.pc) + if f.sig = x ∧ todo f.pc then 1 else 0) := by
  unfold owed
  rw [hf, List.countP_cons]
  simp only [decide_eq_true_eq]

theorem raise_pending_ne (h : x ≠ y) : (p.raise y).pending x = p.pending x := by
  unfold raise
  cases p.running with
  | true => exact Function.update_of_ne h ..
  | false => rfl

theorem owed_raise_ne (h : x ≠ y) : (p.raise y).owed todo x = p.owed todo x := by
  unfold owed
  rw [raise_pending_ne h]
  rfl

theorem raise_pending (hr : p.running = true) : (p.raise x).pending x = true := by
  unfold raise
  rw [hr, if_pos rfl]
  exact Function.update_self ..

theorem owed_raise (hr : p.running = true) (hp : p.pending x = false) :
    (p.raise x).owed todo x = p.owed todo x + 1 := by
  show ((p.raise x).pending x).toNat + p.frames.countP _ = (p.pending x).toNat + _ + 1
  rw [raise_pending hr, hp, Bool.toNat_true, Bool.toNat_false]
  omega

/-- What a delivery does. -/
theorem deliver_cases (h : p.deliver k saved y = some p') :
    p.running = true ∧ p.pending y = true ∧ p.mask y = false ∧
      (p.handled y = false ∧ p' = p.exit ∨ p.handled y = true ∧ p' = { p with
        pending := Function.update p.pending y false
        mask := Function.update p.mask y true
        frames := ⟨y, k, saved⟩ :: p.frames }) := by
  unfold deliver at h
  split at h
  · rename_i hc
    obtain ⟨hr, hp, hm⟩ := hc
    refine ⟨hr, hp, by simpa using hm, ?_⟩
    split at h
    · rename_i hh
      exact .inr ⟨hh, (Option.some.inj h).symm⟩
    · rename_i hh
      exact .inl ⟨by simpa using hh, (Option.some.inj h).symm⟩
  · cases h

/-- Nothing becomes pending. -/
theorem deliver_pending (h : p.deliver k saved y = some p') (hx : p'.pending x = true) :
    p.pending x = true := by
  obtain ⟨-, hp, -, ⟨-, rfl⟩ | ⟨-, rfl⟩⟩ := deliver_cases h
  · exact hx
  · by_cases hxy : x = y
    · exact hxy ▸ hp
    · exact (Function.update_of_ne hxy ..).symm.trans hx

theorem owed_deliver (h : p.deliver k saved y = some p') (hk : todo k = true) :
    p'.owed todo x = p.owed todo x := by
  obtain ⟨-, hp, -, ⟨-, rfl⟩ | ⟨-, rfl⟩⟩ := deliver_cases h
  · rfl
  · rw [owed_cons todo x rfl]
    show (Function.update p.pending y false x).toNat + (p.frames.countP _ + _) = _
    unfold owed
    by_cases hxy : y = x
    · subst hxy
      rw [Function.update_self, if_pos ⟨rfl, hk⟩, hp, Bool.toNat_true, Bool.toNat_false]
      omega
    · rw [Function.update_of_ne (Ne.symm hxy), if_neg fun hc => hxy hc.1]
      rfl

/-- A step of the innermost handler. -/
theorem owed_advance (todo : κ → Bool) (x : σ) (hf : p.frames = f :: fs)
    (hk : todo k = true → todo f.pc = true) :
    (p.advance k).owed todo x + (if f.sig = x ∧ todo f.pc ∧ ¬todo k then 1 else 0) =
      p.owed todo x := by
  have hpending : (p.advance k).pending = p.pending := rfl
  rw [owed_cons todo x (frames_advance hf), owed_cons todo x hf, hpending]
  by_cases hx : f.sig = x
  · cases hft : todo f.pc with
    | true => cases todo k <;> simp [hx, Nat.add_assoc]
    | false =>
      have hkt : todo k = false := by
        by_contra hne
        rw [hk (by simpa using hne)] at hft
        cases hft
      simp [hkt]
  · simp [hx]

theorem owed_leave (todo : κ → Bool) (x : σ) (hf : p.frames = f :: fs)
    (hdone : todo f.pc = false) :
    p.leave.owed todo x = p.owed todo x := by
  have hpending : p.leave.pending = p.pending := rfl
  rw [owed_cons todo x hf, hdone, if_neg (by simp), ← frames_leave hf, ← hpending]
  rfl

end

end SigProcess

end AghOs
