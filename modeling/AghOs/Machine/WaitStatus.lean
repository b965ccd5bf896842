import Mathlib.Data.Nat.Bits
import Mathlib.Tactic.Common

/-!
# Wait statuses

The `int` that `waitpid` stores for a child that has ended: the exit code in the
second byte, or the number of a signal in the first, with `0x80` for a core dump.

* `wexitstatus_exited`, `wexitstatus_killed`: the second byte alone does not tell
  a child that was killed from one that exited with `0`.
-/

namespace AghOs

/-- A signal that ends a process. -/
structure Signal where
  number : ℕ
  pos : 0 < number
  lt : number < 127
  deriving DecidableEq

/-- How a process ends. -/
inductive Termination
  | exited (code : UInt8)
  | killed (signal : Signal) (core : Bool)
  deriving DecidableEq

def Termination.status : Termination → ℕ
  | .exited code => code.toNat <<< 8
  | .killed signal core => signal.number ||| if core then 0x80 else 0

/-- `WEXITSTATUS(status)` -/
def wexitstatus (status : ℕ) : ℕ := (status &&& 0xff00) >>> 8

theorem wexitstatus_eq (status : ℕ) : wexitstatus status = status / 256 % 256 := by
  unfold wexitstatus
  rw [Nat.shiftRight_and_distrib, Nat.shiftRight_eq_div_pow]
  exact Nat.and_two_pow_sub_one_eq_mod _ 8

theorem wexitstatus_exited (code : UInt8) :
    wexitstatus (Termination.exited code).status = code.toNat := by
  rw [wexitstatus_eq]
  show code.toNat <<< 8 / 256 % 256 = _
  have := code.toNat_lt
  rw [Nat.shiftLeft_eq]
  omega

theorem wexitstatus_killed (signal : Signal) (core : Bool) :
    wexitstatus (Termination.killed signal core).status = 0 := by
  rw [wexitstatus_eq]
  have hlt : (signal.number ||| if core then 0x80 else 0) < 256 := by
    refine Nat.or_lt_two_pow (n := 8) (Nat.lt_trans signal.lt (by decide)) ?_
    split <;> decide
  show (signal.number ||| if core then 0x80 else 0) / 256 % 256 = 0
  rw [Nat.div_eq_of_lt hlt]

end AghOs
