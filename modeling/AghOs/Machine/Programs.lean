import Mathlib.Data.List.Basic
import Mathlib.Logic.Basic

/-!
# Programs that make calls

A program makes calls of a type `κ`, each of which is answered from `ρ` before
the next, and returns a value. A system with states `σ` answers the calls; a
pattern says which of them fail, in the order in which they are made.

* `Prog.run_bind`: a run of one program after another.
* `Prog.Runs`: what a program does when no call fails, with `Runs.ret`,
  `Runs.call` and `Runs.bind`.
* `Prog.Returns.value`: what holds of the value whatever the answers are.
* `Prog.all_served_iff`: no call of a run fails exactly when the pattern spares
  the calls of the run in which none does.
-/

namespace AghOs

/-- The programs that return an `α`. -/
inductive Prog (κ ρ α : Type) where
  | ret (a : α)
  | call (c : κ) (k : ρ → Prog κ ρ α)

namespace Prog

variable {κ ρ σ α β : Type}

def bind : Prog κ ρ α → (α → Prog κ ρ β) → Prog κ ρ β
  | ret a, f => f a
  | call c k, f => call c fun r => (k r).bind f

instance : Monad (Prog κ ρ) where
  pure := ret
  bind := bind

/-- Make one call. -/
def perform (c : κ) : Prog κ ρ ρ := call c ret

/-- What is left of a run: the value, the system, and the calls that were made,
    each with whether it failed. -/
structure Outcome (κ σ α : Type) where
  value : α
  world : σ
  calls : List (κ × Bool)

/-- Run a program. `answer` is the system; its first argument tells whether the
    call fails. -/
def run (answer : Bool → σ → κ → σ × ρ) : (fails : ℕ → Bool) → σ → Prog κ ρ α → Outcome κ σ α
  | _, w, ret a => ⟨a, w, []⟩
  | fails, w, call c k =>
    let (w, r) := answer (fails 0) w c
    let o := run answer (fun n => fails (n + 1)) w (k r)
    ⟨o.value, o.world, (c, fails 0) :: o.calls⟩

/-- The pattern in which no call fails. -/
def noFailure : ℕ → Bool := fun _ => false

variable (answer : Bool → σ → κ → σ × ρ)

theorem run_bind (fails : ℕ → Bool) (w : σ) (p : Prog κ ρ α) (f : α → Prog κ ρ β) :
    run answer fails w (p >>= f) =
      let o := run answer fails w p
      let o' := run answer (fun n => fails (n + o.calls.length)) o.world (f o.value)
      ⟨o'.value, o'.world, o.calls ++ o'.calls⟩ := by
  induction p generalizing fails w with
  | ret a => rfl
  | call c k ih =>
    have hrest := ih (answer (fails 0) w c).2 (fun n => fails (n + 1)) (answer (fails 0) w c).1
    show Outcome.mk (run answer _ _ (k _ >>= f)).value (run answer _ _ (k _ >>= f)).world
      (_ :: (run answer _ _ (k _ >>= f)).calls) = _
    rw [hrest]
    rfl

/-! ## When no call fails -/

/-- `p` returns `a` and leaves the system in `w'`. -/
structure Runs (w : σ) (p : Prog κ ρ α) (a : α) (w' : σ) : Prop where
  value : (run answer noFailure w p).value = a
  world : (run answer noFailure w p).world = w'

section

variable {answer} {w w' w'' : σ} {a : α} {b : β}

theorem Runs.ret : Runs answer w (pure a) a w := ⟨rfl, rfl⟩

theorem Runs.call (c : κ) :
    Runs answer w (perform c) (answer false w c).2 (answer false w c).1 := ⟨rfl, rfl⟩

theorem Runs.bind {p : Prog κ ρ α} {f : α → Prog κ ρ β} (hp : Runs answer w p a w')
    (hf : Runs answer w' (f a) b w'') : Runs answer w (p >>= f) b w'' := by
  obtain ⟨rfl, rfl⟩ := hp
  constructor
  · rw [run_bind]
    exact hf.value
  · rw [run_bind]
    exact hf.world

end

/-! ## Whatever the answers are -/

/-- Every value that the program can return satisfies `P`. -/
def Returns (P : α → Prop) : Prog κ ρ α → Prop
  | ret a => P a
  | call _ k => ∀ r, (k r).Returns P

theorem Returns.bind {P : α → Prop} {Q : β → Prop} {p : Prog κ ρ α} {f : α → Prog κ ρ β}
    (hp : p.Returns P) (hf : ∀ a, P a → (f a).Returns Q) : (p >>= f).Returns Q := by
  induction p with
  | ret a => exact hf a hp
  | call c k ih => exact fun r => ih r (hp r)

theorem returns_true (p : Prog κ ρ α) : p.Returns fun _ => True := by
  induction p with
  | ret a => trivial
  | call c k ih => exact ih

theorem Returns.value {P : α → Prop} {p : Prog κ ρ α} (h : p.Returns P) (fails : ℕ → Bool)
    (w : σ) : P (run answer fails w p).value := by
  induction p generalizing fails w with
  | ret a => exact h
  | call c k ih => exact ih _ (h _) _ _

/-! ## Which calls fail -/

theorem all_served_iff (fails : ℕ → Bool) (w : σ) (p : Prog κ ρ α) :
    (∀ c ∈ (run answer fails w p).calls, c.2 = false) ↔
      ∀ n < (run answer noFailure w p).calls.length, fails n = false := by
  induction p generalizing fails w with
  | ret a => exact ⟨fun _ _ hn => absurd hn (Nat.not_lt_zero _), fun _ _ hc => by cases hc⟩
  | call c k ih =>
    have hcalls : ∀ fs : ℕ → Bool, (run answer fs w (.call c k)).calls =
        (c, fs 0) :: (run answer (fun n => fs (n + 1)) (answer (fs 0) w c).1
          (k (answer (fs 0) w c).2)).calls := fun _ => rfl
    rw [hcalls, hcalls, List.forall_mem_cons, List.length_cons, Nat.forall_lt_succ_left]
    refine and_congr_right fun h0 => ?_
    have h0 : fails 0 = false := h0
    rw [h0]
    exact ih _ _ _

end Prog

end AghOs
