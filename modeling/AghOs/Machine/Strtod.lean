import AghOs.Machine.Scanf

/-!
# Numbers at the start of a text

`strtod` for any set of numerals: it skips white space and takes the longest
numeral that follows. If there is none the result is zero, and nothing is
consumed. A numeral is not empty and has no white space in it.

* `strtod_cases`: what is consumed.
* `strtod_white`: a text of white space is not.
-/

namespace AghOs

/-- The texts that are numbers, and their values. `zero` is the number where there is
    none. -/
structure Numerals (α : Type) where
  zero : α
  value : List UInt8 → Option α
  noWhite : ∀ {cs : List UInt8} {v : α}, value cs = some v → ∀ c ∈ cs, isWhite c = false

namespace Numerals

variable {α : Type} (N : Numerals α)

/-- The longest numeral of at most `n` characters, and the text behind it. -/
def longest (text : List UInt8) : ℕ → Option (α × List UInt8)
  | 0 => none
  | n + 1 =>
    match N.value (text.take (n + 1)) with
    | some v => some (v, text.drop (n + 1))
    | none => longest text n

/-- `strtod`: the number, and what follows it. -/
def strtod (data : List UInt8) : α × List UInt8 :=
  let text := data.dropWhile isWhite
  (N.longest text text.length).getD (N.zero, data)

variable {N} {text rest data : List UInt8} {v : α} {n : ℕ}

theorem longest_some (h : N.longest text n = some (v, rest)) :
    ∃ k, 0 < k ∧ k ≤ n ∧ N.value (text.take k) = some v ∧ rest = text.drop k ∧
      ∀ m, k < m → m ≤ n → N.value (text.take m) = none := by
  induction n with
  | zero => cases h
  | succ n ih =>
    rw [longest] at h
    split at h
    · rename_i w hw
      cases h
      exact ⟨n + 1, Nat.succ_pos n, Nat.le_refl _, hw, rfl, fun m hlt hle => by omega⟩
    · rename_i hnone
      obtain ⟨k, hpos, hle, hk, hrest, hmax⟩ := ih h
      refine ⟨k, hpos, Nat.le_succ_of_le hle, hk, hrest, fun m hlt hm => ?_⟩
      obtain rfl | hm := Nat.eq_or_lt_of_le hm
      · exact hnone
      · exact hmax m hlt (Nat.le_of_lt_succ hm)

/-- Either there is no numeral and nothing is consumed, or white space and a
    numeral are. -/
theorem strtod_cases (data : List UInt8) :
    N.strtod data = (N.zero, data) ∨
      ∃ white num v rest, N.strtod data = (v, rest) ∧ data = white ++ num ++ rest ∧
        (∀ c ∈ white, isWhite c = true) ∧ num ≠ [] ∧ N.value num = some v := by
  cases h : N.longest (data.dropWhile isWhite) (data.dropWhile isWhite).length with
  | none => exact .inl (by simp only [strtod, h, Option.getD_none])
  | some r =>
    have hstrtod : N.strtod data = r := by simp only [strtod, h, Option.getD_some]
    obtain ⟨k, hpos, hle, hk, hrest, -⟩ :=
      longest_some (show N.longest _ _ = some (r.1, r.2) from h)
    refine .inr ⟨data.takeWhile isWhite, (data.dropWhile isWhite).take k, r.1, r.2, hstrtod, ?_,
      fun c hc => List.mem_takeWhile_imp hc, ?_, hk⟩
    · rw [List.append_assoc, hrest, List.take_append_drop, List.takeWhile_append_dropWhile]
    · intro hnil
      have hlen := congrArg List.length hnil
      rw [List.length_take_of_le hle, List.length_nil] at hlen
      omega

theorem strtod_suffix (data : List UInt8) : (N.strtod data).2 <:+ data := by
  obtain h | ⟨white, num, v, rest, h, hdata, -, -⟩ := N.strtod_cases data
  · simp only [h, List.suffix_refl]
  · rw [h, hdata]
    exact List.suffix_append ..

theorem strtod_white (h : ∀ c ∈ data, isWhite c = true) : N.strtod data = (N.zero, data) := by
  have hnil : data.dropWhile isWhite = [] := List.dropWhile_eq_nil_iff.mpr h
  unfold strtod
  rw [hnil]
  rfl

end Numerals

end AghOs
