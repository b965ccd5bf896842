import AghOs.Machine.Integers
import Mathlib.Data.List.TakeWhile
import Mathlib.Data.Nat.Init
import Mathlib.Tactic.Common

/-!
# Decimal numbers, `fscanf` and `atoi`

`decimal` is the text that `printf` writes for a number that is not negative
(`%d`, `%zu`), `scanNumber` is how `fscanf` and `strtol` read a number in base ten
(an optional sign and digits), and `fscanf` goes through a format that is given as
a list of directives. `Numeral` is the text of a number.

What `fscanf` stores of a number that does not fit is undefined in C; `storedSize` and
`storedInt` are what glibc stores.

* `scanNumber_decimal`: reading back what was written.
* `fscanf_number`: a number directive on the text of a number.
* `Numeral.atoi_text`: `atoi` of a numeral that fits an `int`.
-/

namespace AghOs

/-! ## Digits -/

/-- A decimal digit. -/
def isDigit (c : UInt8) : Bool := 48 ≤ c.toNat && c.toNat ≤ 57

/-- The text of a number. -/
def decimal (n : ℕ) : List UInt8 :=
  (if n < 10 then [] else decimal (n / 10)) ++ [UInt8.ofNat (48 + n % 10)]
termination_by n
decreasing_by omega

/-- The number that a text of digits stands for. -/
def digitsValue (cs : List UInt8) : ℕ := cs.foldl (fun v c => 10 * v + (c.toNat - 48)) 0

theorem toNat_digit (d : ℕ) : (UInt8.ofNat (48 + d % 10)).toNat = 48 + d % 10 := by
  rw [UInt8.toNat_ofNat']
  omega

theorem isDigit_of_mem_decimal (n : ℕ) : ∀ c ∈ decimal n, isDigit c = true := by
  induction n using Nat.strong_induction_on with
  | _ n ih =>
    intro c hc
    rw [decimal] at hc
    obtain hc | hc := List.mem_append.mp hc
    · split at hc
      · cases hc
      · exact ih (n / 10) (by omega) c hc
    · obtain rfl := List.mem_singleton.mp hc
      unfold isDigit
      rw [toNat_digit, Bool.and_eq_true, decide_eq_true_eq, decide_eq_true_eq]
      omega

theorem digitsValue_decimal (n : ℕ) : digitsValue (decimal n) = n := by
  induction n using Nat.strong_induction_on with
  | _ n ih =>
    have happend : ∀ cs c, digitsValue (cs ++ [c]) = 10 * digitsValue cs + (c.toNat - 48) := by
      intro cs c
      unfold digitsValue
      rw [List.foldl_append]
      rfl
    rw [decimal, happend, toNat_digit]
    split
    · show 10 * 0 + (48 + n % 10 - 48) = n
      omega
    · rw [ih (n / 10) (by omega)]
      omega

/-- A number has at least one digit. -/
theorem decimal_eq_cons (n : ℕ) : ∃ c cs, decimal n = c :: cs ∧ isDigit c = true := by
  cases h : decimal n with
  | nil =>
    rw [decimal] at h
    exact absurd h (List.append_ne_nil_of_right_ne_nil _ (List.cons_ne_nil _ _))
  | cons c cs =>
    refine ⟨c, cs, rfl, isDigit_of_mem_decimal n c ?_⟩
    rw [h]
    exact List.mem_cons_self

/-! ## Directives -/

/-- `isspace`, C locale. -/
def isWhite (c : UInt8) : Bool := c == 32 || 9 ≤ c && c ≤ 13

/-- A directive of a format: white space, a character, or the conversion of a
    decimal number. -/
inductive Directive
  | space | char (c : UInt8) | number

/-- What a call of `fscanf` returns, the numbers that it has stored, and the
    input behind it. -/
structure Scanned where
  ret : ℤ
  values : List ℤ
  rest : List UInt8

/-- `EOF`. -/
def eof : ℤ := -1

/-- The digits at the head of the input as a number with the given sign, and the
    input behind them; `none` if there is no digit. -/
def scanDigits (neg : Bool) (input : List UInt8) : Option ℤ × List UInt8 :=
  let cs := input.takeWhile isDigit
  (if cs = [] then none else some (if neg then -(digitsValue cs : ℤ) else digitsValue cs),
    input.dropWhile isDigit)

/-- The number at the head of the input: a sign, if any, and digits. -/
def scanNumber : List UInt8 → Option ℤ × List UInt8
  | 43 :: input => scanDigits false input
  | 45 :: input => scanDigits true input
  | input => scanDigits false input

/-- `fscanf`, with the numbers stored so far. The input ending before a
    directive is an input failure, other input than the directive asks for is a
    matching failure. -/
def fscanf : List Directive → List UInt8 → List ℤ → Scanned
  | [], input, values => ⟨values.length, values, input⟩
  | .space :: fmt, input, values => fscanf fmt (input.dropWhile isWhite) values
  | .char _ :: _, [], values => ⟨if values = [] then eof else values.length, values, []⟩
  | .char c :: fmt, b :: input, values =>
    if b = c then fscanf fmt input values else ⟨values.length, values, b :: input⟩
  | .number :: fmt, input, values =>
    match input.dropWhile isWhite with
    | [] => ⟨if values = [] then eof else values.length, values, []⟩
    | b :: input =>
      match scanNumber (b :: input) with
      | (some v, rest) => fscanf fmt rest (values ++ [v])
      | (none, rest) => ⟨values.length, values, rest⟩

/-! ## What is stored of a number -/

/-- The number as a `long`: what does not fit is the bound. -/
def clampLong (v : ℤ) : ℤ := max (-2 ^ 63) (min (2 ^ 63 - 1) v)

/-- What `%d` stores: a number is read as a `long`. -/
def storedInt (v : ℤ) : ℤ := toInt (clampLong v)

/-- What `%zu` stores: of a number that does not fit, with either sign, the bound. -/
def storedSize (v : ℤ) : ℕ := if v.natAbs < 2 ^ 64 then toSize v else 2 ^ 64 - 1

theorem storedInt_natCast {n : ℕ} (h : n < 2 ^ 31) : storedInt n = n := by
  have hclamp : clampLong n = n := by
    unfold clampLong
    omega
  rw [storedInt, hclamp, toInt_natCast h]

theorem storedSize_natCast {n : ℕ} (h : n < 2 ^ 64) : storedSize n = n := by
  rw [storedSize, if_pos (by omega), toSize_natCast h]

/-! ## Reading back a number -/

section

variable {n : ℕ} {rest : List UInt8}

theorem isDigit_not_white {c : UInt8} (h : isDigit c = true) :
    isWhite c = false ∧ c ≠ 43 ∧ c ≠ 45 := by
  simp only [isDigit, Bool.and_eq_true, decide_eq_true_eq] at h
  simp only [isWhite, ← UInt8.toNat_inj, UInt8.le_iff_toNat_le, Bool.or_eq_false_iff,
    Bool.and_eq_false_iff, beq_eq_false_iff_ne, decide_eq_false_iff_not, ne_eq]
  simp only [UInt8.reduceToNat]
  omega

theorem dropWhile_decimal : (decimal n ++ rest).dropWhile isWhite = decimal n ++ rest := by
  obtain ⟨c, cs, hc, hd⟩ := decimal_eq_cons n
  rw [hc, List.cons_append, List.dropWhile_cons_of_neg]
  rw [(isDigit_not_white hd).1]
  exact Bool.false_ne_true

theorem scanDigits_decimal (hrest : ∀ c ∈ rest.head?, isDigit c = false) :
    scanDigits false (decimal n ++ rest) = (some (n : ℤ), rest) := by
  have hd := isDigit_of_mem_decimal n
  have htake : rest.takeWhile isDigit = [] ∧ rest.dropWhile isDigit = rest := by
    cases rest with
    | nil => exact ⟨rfl, rfl⟩
    | cons c rest => simp [hrest c rfl]
  obtain ⟨c, cs, hc, -⟩ := decimal_eq_cons n
  simp only [scanDigits]
  rw [List.takeWhile_append_of_pos hd, List.dropWhile_append_of_pos hd, htake.1, htake.2,
    List.append_nil, if_neg (by rw [hc]; exact List.cons_ne_nil c cs), digitsValue_decimal]
  rfl

theorem scanNumber_digit {c : UInt8} (h : isDigit c = true) (cs : List UInt8) :
    scanNumber (c :: cs) = scanDigits false (c :: cs) := by
  obtain ⟨-, hplus, hminus⟩ := isDigit_not_white h
  unfold scanNumber
  split
  · exact absurd (List.cons.inj ‹_›).1 hplus
  · exact absurd (List.cons.inj ‹_›).1 hminus
  · rfl

theorem scanNumber_decimal (hrest : ∀ c ∈ rest.head?, isDigit c = false) :
    scanNumber (decimal n ++ rest) = (some (n : ℤ), rest) := by
  rw [← scanDigits_decimal hrest]
  obtain ⟨c, cs, hc, hd⟩ := decimal_eq_cons n
  rw [hc, List.cons_append]
  exact scanNumber_digit hd _

/-- A number directive reads the number that follows the white space. -/
theorem fscanf_number {fmt : List Directive} {values : List ℤ} {input : List UInt8}
    (hinput : input.dropWhile isWhite = decimal n ++ rest)
    (hrest : ∀ c ∈ rest.head?, isDigit c = false) :
    fscanf (.number :: fmt) input values = fscanf fmt rest (values ++ [(n : ℤ)]) := by
  obtain ⟨c, cs, hc, -⟩ := decimal_eq_cons n
  have hscan : scanNumber (c :: (cs ++ rest)) = (some (n : ℤ), rest) := by
    rw [← List.cons_append, ← hc]
    exact scanNumber_decimal hrest
  rw [hc, List.cons_append] at hinput
  simp only [fscanf, hinput, hscan]

end

/-! ## `atoi` -/

/-- `strtol(text, NULL, 10)`: what does not fit a `long` is its bound. -/
def strtol (text : List UInt8) : ℤ :=
  clampLong ((scanNumber (text.dropWhile isWhite)).1.getD 0)

/-- `atoi` -/
def atoi (text : List UInt8) : ℤ := toInt (strtol text)

inductive Sign
  | none
  | plus
  | minus

def Sign.text : Sign → List UInt8
  | none => []
  | plus => [43]
  | minus => [45]

/-- A sign, if any, and digits. -/
structure Numeral where
  sign : Sign
  digits : List UInt8
  digits_ne : digits ≠ []
  digits_digit : ∀ c ∈ digits, isDigit c = true

namespace Numeral

def text (n : Numeral) : List UInt8 := n.sign.text ++ n.digits

def value (n : Numeral) : ℤ :=
  match n.sign with
  | .minus => -(digitsValue n.digits : ℤ)
  | _ => digitsValue n.digits

theorem text_ne (n : Numeral) : n.text ≠ [] :=
  List.append_ne_nil_of_right_ne_nil _ n.digits_ne

theorem mem_text {n : Numeral} {c : UInt8} (h : c ∈ n.text) :
    isDigit c = true ∨ c = 43 ∨ c = 45 := by
  obtain h | h := List.mem_append.mp h
  · cases hs : n.sign <;> simp [hs, Sign.text] at h <;> simp [h]
  · exact .inl (n.digits_digit c h)

theorem not_white {n : Numeral} {c : UInt8} (h : c ∈ n.text) : isWhite c = false := by
  obtain h | rfl | rfl := mem_text h
  · exact (isDigit_not_white h).1
  · rfl
  · rfl

theorem scanDigits_digits (n : Numeral) (neg : Bool) :
    scanDigits neg n.digits =
      (some (if neg then -(digitsValue n.digits : ℤ) else digitsValue n.digits), []) := by
  have htake : n.digits.takeWhile isDigit = n.digits :=
    List.takeWhile_eq_self_iff.mpr n.digits_digit
  have hdrop : n.digits.dropWhile isDigit = [] := List.dropWhile_eq_nil_iff.mpr n.digits_digit
  simp only [scanDigits, htake, hdrop]
  rw [if_neg n.digits_ne]

theorem scanNumber_text (n : Numeral) : scanNumber n.text = (some n.value, []) := by
  unfold text value
  cases n.sign with
  | minus => exact n.scanDigits_digits true
  | plus => exact n.scanDigits_digits false
  | none =>
    obtain ⟨c, cs, hc⟩ := List.exists_cons_of_ne_nil n.digits_ne
    have hd := n.digits_digit c (hc ▸ List.mem_cons_self)
    show scanNumber n.digits = _
    rw [hc, scanNumber_digit hd, ← hc]
    exact n.scanDigits_digits false

theorem atoi_text (n : Numeral) (hlo : -2 ^ 31 ≤ n.value) (hhi : n.value < 2 ^ 31) :
    atoi n.text = n.value := by
  have hwhite : n.text.dropWhile isWhite = n.text := by
    obtain ⟨c, cs, hc⟩ := List.exists_cons_of_ne_nil n.text_ne
    have := not_white (hc ▸ List.mem_cons_self : c ∈ n.text)
    rw [hc, List.dropWhile_cons_of_neg (by simp [this])]
  have hlong : strtol n.text = n.value := by
    unfold strtol
    rw [hwhite, scanNumber_text]
    show max _ (min _ n.value) = _
    omega
  unfold atoi toInt
  rw [hlong]
  apply Int.bmod_eq_of_le <;> omega

end Numeral

end AghOs
