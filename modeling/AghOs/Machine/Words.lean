import AghOs.Machine.Scanf

/-!
# Numbers between white space

A text of unsigned decimal numbers, with leading zeros or without, each with the
white space behind it.

* `fscanf_word`: `"%zu "` or `"%d "` reads the first of them.
-/

namespace AghOs

/-- A number in a text, and the white space behind it. -/
structure Word where
  digits : List UInt8
  white : List UInt8
  digits_ne : digits ≠ []
  digits_digit : ∀ c ∈ digits, isDigit c = true
  white_white : ∀ c ∈ white, isWhite c = true

namespace Word

def text (w : Word) : List UInt8 := w.digits ++ w.white

def value (w : Word) : ℕ := digitsValue w.digits

/-- Two numbers do not run together. -/
def Separated : List Word → Prop
  | [] => True
  | w :: ws => (ws ≠ [] → w.white ≠ []) ∧ Separated ws

theorem Separated.drop {ws : List Word} (h : Separated ws) (n : ℕ) : Separated (ws.drop n) := by
  induction n generalizing ws with
  | zero => exact h
  | succ n ih =>
    cases ws with
    | nil => exact h
    | cons w ws => exact ih h.2

theorem head?_text (w : Word) (rest : List UInt8) :
    ∃ c cs, w.text ++ rest = c :: cs ∧ isDigit c = true := by
  obtain ⟨c, cs, hc⟩ := List.exists_cons_of_ne_nil w.digits_ne
  exact ⟨c, cs ++ w.white ++ rest, by simp [text, hc], w.digits_digit c (hc ▸ List.mem_cons_self)⟩

/-- No white space in front of the numbers. -/
theorem dropWhile_text (ws : List Word) :
    (ws.flatMap text).dropWhile isWhite = ws.flatMap text := by
  cases ws with
  | nil => rfl
  | cons w ws =>
    obtain ⟨c, cs, hc, hd⟩ := w.head?_text (ws.flatMap text)
    rw [List.flatMap_cons, hc, List.dropWhile_cons_of_neg]
    rw [(isDigit_not_white hd).1]
    exact Bool.false_ne_true

theorem dropWhile_white_text (w : Word) (ws : List Word) :
    (w.white ++ ws.flatMap text).dropWhile isWhite = ws.flatMap text := by
  rw [List.dropWhile_append_of_pos w.white_white, dropWhile_text]

/-- What follows a number is not a digit. -/
theorem Separated.head? {w : Word} {ws : List Word} (h : Separated (w :: ws)) :
    ∀ c ∈ (w.white ++ ws.flatMap text).head?, isDigit c = false := by
  intro c hc
  cases hw : w.white with
  | nil =>
    have hws : ws = [] := by
      by_contra hne
      exact h.1 hne hw
    subst hws
    rw [hw] at hc
    cases hc
  | cons b white =>
    rw [hw] at hc
    obtain rfl := Option.some.inj hc
    have hwhite : isWhite b = true := w.white_white b (hw ▸ List.mem_cons_self)
    by_contra hd
    rw [Bool.not_eq_false] at hd
    rw [(isDigit_not_white hd).1] at hwhite
    cases hwhite

theorem scanNumber_text {w : Word} {ws : List Word} (h : Separated (w :: ws)) :
    scanNumber (w.text ++ ws.flatMap text) =
      (some (w.value : ℤ), w.white ++ ws.flatMap text) := by
  have hstop : (w.white ++ ws.flatMap text).takeWhile isDigit = [] ∧
      (w.white ++ ws.flatMap text).dropWhile isDigit = w.white ++ ws.flatMap text := by
    have hhead := h.head?
    cases hrest : w.white ++ ws.flatMap text with
    | nil => exact ⟨rfl, rfl⟩
    | cons c rest =>
      rw [hrest] at hhead
      have hc := hhead c rfl
      simp [hc]
  have hscan : scanDigits false (w.text ++ ws.flatMap text) =
      (some (w.value : ℤ), w.white ++ ws.flatMap text) := by
    rw [text, List.append_assoc]
    simp only [scanDigits]
    rw [List.takeWhile_append_of_pos w.digits_digit,
      List.dropWhile_append_of_pos w.digits_digit, hstop.1, hstop.2, List.append_nil,
      if_neg w.digits_ne]
    rfl
  obtain ⟨c, cs, hc, hd⟩ := w.head?_text (ws.flatMap text)
  rw [← hscan, hc]
  exact scanNumber_digit hd cs

/-- A number directive followed by white space reads the first number. -/
theorem fscanf_word {w : Word} {ws : List Word} (h : Separated (w :: ws))
    (fmt : List Directive) (values : List ℤ) :
    fscanf (.number :: .space :: fmt) ((w :: ws).flatMap text) values =
      fscanf fmt (ws.flatMap text) (values ++ [(w.value : ℤ)]) := by
  have hinput := dropWhile_text (w :: ws)
  have hscan := scanNumber_text h
  rw [List.flatMap_cons] at hinput ⊢
  obtain ⟨c, cs, hc, -⟩ := w.head?_text (ws.flatMap text)
  rw [hc] at hinput hscan ⊢
  simp only [fscanf, hinput, hscan]
  rw [dropWhile_white_text]

end Word

end AghOs
