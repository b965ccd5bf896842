import Mathlib.Tactic.Common

/-!
# The chair protocol

What the barber and his clients do for one another, without the waiting room
and its mutex: who has been called to the chair, who sits in it, and which
semaphores say so. One semaphore (`customer`) carries two messages, "I sit in
the chair" and "I have left it".

`Chair.Step` is the protocol, `Chair.Ok` its invariant (`Chair.Ok.step`). A
step may lose an invitation only under `lossy`; without it, a barber who waits
for a customer is owed exactly one (`Chair.Ok.owed`).
-/

namespace AghOs.Barber

/-- What a client is doing at the chair. -/
inductive Stage
  | idle
  | waking
  | coming
  | seated
  | going
  deriving DecidableEq

/-- What the barber is doing. -/
inductive Phase
  | choosing
  | dozing
  | waiting
  | cutting
  | leaving
  deriving DecidableEq

/-- The state of the protocol. `called` counts the invitations that have been
    made and not been taken, `clients` the clients in each stage. -/
structure Chair where
  phase : Phase
  asleep : Bool
  wake : ℕ
  customer : ℕ
  ready : ℕ
  called : ℕ
  clients : Stage → ℕ
  cycles : ℕ
  haircuts : ℕ

/-- One client goes from stage `a` to stage `b`. -/
def Moves (n : Stage → ℕ) (a b : Stage) (n' : Stage → ℕ) : Prop :=
  ∀ st, n' st + (if st = a then 1 else 0) = n st + (if st = b then 1 else 0)

theorem Moves.eq_of_same {n n' : Stage → ℕ} {a : Stage} (h : Moves n a a n') : n' = n := by
  funext st
  have := h st
  omega

/-- The steps of the protocol. -/
inductive Chair.Step (lossy : Prop) : Chair → Chair → Prop
  | invite {c : Chair} : c.phase = .choosing →
      Step lossy c { c with phase := .waiting, called := c.called + 1 }
  | doze {c : Chair} : c.phase = .choosing →
      Step lossy c { c with phase := .dozing, asleep := true }
  | rouse {c : Chair} {n : Stage → ℕ} : c.asleep = true → Moves c.clients .idle .waking n →
      Step lossy c { c with asleep := false, clients := n }
  | shake {c : Chair} {n : Stage → ℕ} : Moves c.clients .waking .coming n →
      Step lossy c { c with wake := c.wake + 1, clients := n }
  | wakeUp {c : Chair} {w : ℕ} : c.phase = .dozing → c.wake = w + 1 →
      Step lossy c { c with phase := .waiting, wake := w }
  | accept {c : Chair} {v : ℕ} {n : Stage → ℕ} : c.called = v + 1 →
      Moves c.clients .idle .coming n →
      Step lossy c { c with called := v, clients := n }
  | lose {c : Chair} {v : ℕ} : lossy → v ≤ c.called → Step lossy c { c with called := v }
  | sit {c : Chair} {n : Stage → ℕ} : Moves c.clients .coming .seated n →
      Step lossy c { c with customer := c.customer + 1, clients := n }
  | start {c : Chair} {v : ℕ} : c.phase = .waiting → c.customer = v + 1 →
      Step lossy c { c with phase := .cutting, customer := v }
  | finish {c : Chair} : c.phase = .cutting →
      Step lossy c { c with phase := .leaving, ready := c.ready + 1 }
  | rise {c : Chair} {v : ℕ} {n : Stage → ℕ} : c.ready = v + 1 → Moves c.clients .seated .going n →
      Step lossy c { c with ready := v, clients := n }
  | leave {c : Chair} {n : Stage → ℕ} : Moves c.clients .going .idle n →
      Step lossy c { c with customer := c.customer + 1, clients := n, haircuts := c.haircuts + 1 }
  | next {c : Chair} {v : ℕ} : c.phase = .leaving → c.customer = v + 1 →
      Step lossy c { c with phase := .choosing, customer := v, cycles := c.cycles + 1 }

/-- How many clients are where and which semaphores are posted, by the phase
    the barber is in. -/
def Chair.Counts (c : Chair) : Prop :=
  match c.phase with
  | .choosing => c.wake = 0 ∧ c.customer = 0 ∧ c.ready = 0 ∧ c.called = 0 ∧
      c.clients .waking = 0 ∧ c.clients .coming = 0 ∧ c.clients .seated = 0 ∧
      c.clients .going = 0 ∧ c.haircuts = c.cycles
  | .dozing => c.ready = 0 ∧ c.called = 0 ∧ c.clients .going = 0 ∧ c.haircuts = c.cycles ∧
      c.clients .seated = c.customer ∧ c.clients .waking + c.wake + c.asleep.toNat = 1 ∧
      c.clients .coming + c.clients .seated = c.wake
  | .waiting => c.wake = 0 ∧ c.ready = 0 ∧ c.clients .waking = 0 ∧ c.clients .going = 0 ∧
      c.haircuts = c.cycles ∧ c.clients .seated = c.customer ∧
      c.called + c.clients .coming + c.clients .seated ≤ 1
  | .cutting => c.wake = 0 ∧ c.customer = 0 ∧ c.ready = 0 ∧ c.called = 0 ∧
      c.clients .waking = 0 ∧ c.clients .coming = 0 ∧ c.clients .seated = 1 ∧
      c.clients .going = 0 ∧ c.haircuts = c.cycles
  | .leaving => c.wake = 0 ∧ c.called = 0 ∧ c.clients .waking = 0 ∧ c.clients .coming = 0 ∧
      c.clients .seated = c.ready ∧ c.clients .seated + c.clients .going + c.customer = 1 ∧
      c.haircuts = c.cycles + c.customer

/-- The invariant of the protocol. -/
structure Chair.Ok (lossy : Prop) (c : Chair) : Prop where
  counts : c.Counts
  asleep : c.asleep = true → c.phase = .dozing
  owed : ¬lossy → c.phase = .waiting → c.called + c.clients .coming + c.clients .seated = 1

variable {lossy : Prop} {c c' : Chair}

/-- Where a client can have come from. -/
theorem Moves.spec {n n' : Stage → ℕ} {a b : Stage} (h : Moves n a b n') :
    n' .waking + (if .waking = a then 1 else 0) = n .waking + (if .waking = b then 1 else 0) ∧
    n' .coming + (if .coming = a then 1 else 0) = n .coming + (if .coming = b then 1 else 0) ∧
    n' .seated + (if .seated = a then 1 else 0) = n .seated + (if .seated = b then 1 else 0) ∧
    n' .going + (if .going = a then 1 else 0) = n .going + (if .going = b then 1 else 0) :=
  ⟨h _, h _, h _, h _⟩

theorem Chair.Counts.step (h : c.Counts) (ha : c.asleep = true → c.phase = .dozing)
    (hs : Chair.Step lossy c c') : c'.Counts := by
  cases hs with
  | invite hp => simp only [Counts, hp] at h ⊢; omega
  | doze hp => simp only [Counts, hp, Bool.toNat_true] at h ⊢; omega
  | rouse hs hm =>
    have hm := hm.spec
    simp only [reduceCtorEq, if_true, if_false] at hm
    simp only [Counts, ha hs, hs, Bool.toNat_true, Bool.toNat_false] at h ⊢
    omega
  | wakeUp hp hw => simp only [Counts, hp] at h ⊢; omega
  | start hp hv => simp only [Counts, hp] at h ⊢; omega
  | finish hp => simp only [Counts, hp] at h ⊢; omega
  | next hp hv => simp only [Counts, hp] at h ⊢; omega
  | lose hl hv => cases hp : c.phase <;> simp only [Counts, hp] at h ⊢ <;> omega
  | shake hm | accept _ hm | sit hm | rise _ hm | leave hm =>
    have hm := hm.spec
    simp only [reduceCtorEq, if_true, if_false] at hm
    cases hp : c.phase <;> simp only [Counts, hp] at h ⊢ <;> omega

/-- Every step of the protocol keeps the invariant. -/
theorem Chair.Ok.step (h : c.Ok lossy) (hs : Chair.Step lossy c c') : c'.Ok lossy := by
  refine ⟨h.counts.step h.asleep hs, ?_, ?_⟩
  · have ha := h.asleep
    have hc := h.counts
    cases hs with
    | wakeUp hq hw =>
      -- a posted `wake` means that `asleep` was cleared
      simp only [Counts, hq] at hc
      have : c.asleep.toNat = 0 := by omega
      simp_all
    | _ => simp_all
  · intro hl hp
    have ho := h.owed hl
    have hc := h.counts
    cases hs with
    | invite hq => simp only [Counts, hq] at hc; simp only; omega
    | wakeUp hq hw => simp only [Counts, hq] at hc; simp only; omega
    | rouse hs hm => simp [h.asleep hs] at hp
    | lose hl' => exact absurd hl' hl
    | shake hm | accept _ hm | sit hm | rise _ hm | leave hm =>
      have hm := hm.spec
      simp only [reduceCtorEq, if_true, if_false] at hm hp ⊢
      simp only [Counts, hp] at hc
      have := ho hp
      omega
    | _ => simp_all

end AghOs.Barber
