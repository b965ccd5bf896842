import AghOs.Calc.Messages
import AghOs.Machine.Strtod

/-!
# The expressions that are parsed

`parse_request` (`src/cw10/zad1/src/request.c`, lines 29–67) against the
expressions that it is for: a number, an operator, a number, and nothing behind
them. What a number is, `strtod` says. The parser does not look whether `strtod`
has consumed anything, nor at what it leaves behind the second number.

* `parseRequest_some_iff`: what the parser accepts.
* `parses_iff`: the lines on which that is the expressions.
* `accepts_no_expression`: three lines that it accepts and that are none.
-/

namespace AghOs.Calc

/-- A C string that `getline` has read: a newline is its last character. -/
structure Line where
  text : List UInt8
  noNul : ∀ c ∈ text, c ≠ 0
  newline : ∀ a b, text = a ++ 10 :: b → b = []

/-- The operation that a character stands for. -/
def operator (op : UInt8) : Option RequestType :=
  if op = 43 then some .addition
  else if op = 45 then some .subtraction
  else if op = 42 then some .multiplication
  else if op = 47 then some .division
  else none

section

variable (N : Numerals Double)

/-- A text begins with a number, and `rest` follows. -/
structure Operand (text : List UInt8) (v : Double) (rest : List UInt8) : Prop where
  read : N.strtod text = (v, rest)
  consumed : rest ≠ text

/-- The line is an expression. -/
def Expression (line : List UInt8) (left : Double) (t : RequestType) (right : Double) : Prop :=
  ∃ rest op tail rest', Operand N line left rest ∧ skipSpaces rest = op :: tail ∧
    operator op = some t ∧ Operand N (skipSpaces tail) right rest' ∧
    ∀ c ∈ rest', isWhite c = true

/-- `parse_request` accepts the line exactly if it is an expression, and stores its
    parts. -/
def Parses (id : Int32) (line : List UInt8) : Prop :=
  ∀ req, parseRequest N.strtod id line = some req ↔
    ∃ left t right, Expression N line left t right ∧ req = ⟨id, t.toUInt32, left, right⟩

/-- `*data == '\n' || *data == 0` -/
def AtEnd (data : List UInt8) : Prop := data.headD 0 = 10 ∨ data.headD 0 = 0

/-- There is an operator and something behind it, but one of the numbers is
    missing, or there is more behind the second. -/
def Sloppy (line : List UInt8) : Prop :=
  ∃ op tail, skipSpaces (N.strtod line).2 = op :: tail ∧ operator op ≠ none ∧
    ¬AtEnd (skipSpaces tail) ∧
    ((N.strtod line).2 = line ∨ (N.strtod (skipSpaces tail)).2 = skipSpaces tail ∨
      ∃ c ∈ (N.strtod (skipSpaces tail)).2, isWhite c = false)

end

instance (data : List UInt8) : Decidable (AtEnd data) :=
  inferInstanceAs (Decidable (data.headD 0 = 10 ∨ data.headD 0 = 0))

section

variable {strtod : List UInt8 → Double × List UInt8} {id : Int32} {line : List UInt8}

/-- `switch (op)` as a look-up of the operator. -/
theorem parseRequest_eq :
    parseRequest strtod id line =
      let data := skipSpaces (strtod line).2
      let operand := skipSpaces data.tail
      if AtEnd operand then none
      else (operator (data.headD 0)).map fun t =>
        ⟨id, t.toUInt32, (strtod line).1, (strtod operand).1⟩ := by
  unfold parseRequest
  dsimp only
  by_cases hend : AtEnd (skipSpaces (skipSpaces (strtod line).2).tail)
  · rw [if_pos hend]
    exact if_pos hend
  · rw [if_neg hend]
    refine (if_neg hend).trans ?_
    unfold operator
    repeat' split
    all_goals rfl

theorem parseRequest_some_iff {req : Request} :
    parseRequest strtod id line = some req ↔
      ∃ op tail t, skipSpaces (strtod line).2 = op :: tail ∧ operator op = some t ∧
        ¬AtEnd (skipSpaces tail) ∧
        req = ⟨id, t.toUInt32, (strtod line).1, (strtod (skipSpaces tail)).1⟩ := by
  rw [parseRequest_eq]
  dsimp only
  cases hdata : skipSpaces (strtod line).2 with
  | nil =>
    rw [if_pos (show AtEnd (skipSpaces [].tail) from .inr rfl)]
    exact ⟨fun h => (by cases h), fun ⟨_, _, _, h, _⟩ => (by cases h)⟩
  | cons op tail =>
    rw [List.headD_cons, List.tail_cons]
    constructor
    · intro h
      split at h
      · cases h
      · obtain ⟨t, ht, rfl⟩ := Option.map_eq_some_iff.mp h
        exact ⟨op, tail, t, rfl, ht, ‹_›, rfl⟩
    · rintro ⟨_, _, t, heq, ht, hend, rfl⟩
      cases heq
      rw [if_neg hend, ht, Option.map_some]

end

/-! ## The lines that are expressions -/

section

variable {N : Numerals Double}

theorem skipSpaces_suffix (data : List UInt8) : skipSpaces data <:+ data :=
  List.dropWhile_suffix _

/-- What is left of a line at its end is the newline, if anything. -/
theorem Line.white_of_atEnd {line : Line} {data : List UInt8} (hs : data <:+ line.text)
    (hend : AtEnd data) : ∀ c ∈ data, isWhite c = true := by
  obtain ⟨front, hfront⟩ := hs
  cases data with
  | nil => exact fun c hc => (by cases hc)
  | cons b data =>
    obtain rfl | rfl : b = 10 ∨ b = 0 := hend
    · rw [line.newline front data hfront.symm]
      intro c hc
      rw [List.mem_singleton.mp hc]
      rfl
    · refine absurd rfl (line.noNul 0 ?_)
      rw [← hfront]
      exact List.mem_append_right _ List.mem_cons_self

/-- The second number is not at the end of the line. -/
theorem Expression.not_atEnd {line : Line} {rest tail rest' : List UInt8} {op : UInt8}
    {left right : Double} (hleft : Operand N line.text left rest)
    (hop : skipSpaces rest = op :: tail) (hright : Operand N (skipSpaces tail) right rest') :
    ¬AtEnd (skipSpaces tail) := by
  intro hend
  have hrest : rest <:+ line.text := by
    have hsuffix := N.strtod_suffix line.text
    rwa [hleft.read] at hsuffix
  have htail : tail <:+ line.text :=
    ((List.suffix_cons op tail).trans (hop ▸ skipSpaces_suffix rest)).trans hrest
  have hwhite := Line.white_of_atEnd ((skipSpaces_suffix tail).trans htail) hend
  have hread := hright.read
  rw [Numerals.strtod_white hwhite] at hread
  exact hright.consumed (congrArg Prod.snd hread).symm

theorem Sloppy.not_parses {line : List UInt8} (hs : Sloppy N line) (id : Int32) :
    ¬Parses N id line := by
  intro h
  obtain ⟨op, tail, hop, hoperator, hend, hsloppy⟩ := hs
  obtain ⟨t, ht⟩ := Option.ne_none_iff_exists'.mp hoperator
  obtain ⟨left, t', right, ⟨rest, op', tail', rest', hleft, hop', -, hright, hwhite⟩, -⟩ :=
    (h _).mp (parseRequest_some_iff.mpr ⟨op, tail, t, hop, ht, hend, rfl⟩)
  rw [hleft.read, hop'] at hop
  cases hop
  rw [hleft.read, hright.read] at hsloppy
  obtain hsame | hsame | ⟨c, hc, hblack⟩ := hsloppy
  · exact hleft.consumed hsame
  · exact hright.consumed hsame
  · rw [hwhite c hc] at hblack
    cases hblack

/-- The parser accepts the expressions on all lines but those with an operator, and
    something behind it, on which a number is missing or more follows. -/
theorem parses_iff (N : Numerals Double) (id : Int32) (line : Line) :
    Parses N id line.text ↔ ¬Sloppy N line.text := by
  constructor
  · exact fun h hs => hs.not_parses id h
  · intro h req
    rw [parseRequest_some_iff]
    constructor
    · rintro ⟨op, tail, t, hop, ht, hend, rfl⟩
      have hexact : ∀ {P : Prop}, (P → Sloppy N line.text) → ¬P := fun hP hp => h (hP hp)
      have hne : operator op ≠ none := by
        rw [ht]
        exact Option.some_ne_none t
      refine ⟨_, t, _, ⟨_, op, tail, _, ⟨rfl, ?_⟩, hop, ht, ⟨rfl, ?_⟩, fun c hc => ?_⟩, rfl⟩
      · exact hexact fun hsame => ⟨op, tail, hop, hne, hend, .inl hsame⟩
      · exact hexact fun hsame => ⟨op, tail, hop, hne, hend, .inr (.inl hsame)⟩
      · by_contra hblack
        rw [Bool.not_eq_true] at hblack
        exact h ⟨op, tail, hop, hne, hend, .inr (.inr ⟨c, hc, hblack⟩)⟩
    · rintro ⟨left, t, right, ⟨rest, op, tail, rest', hleft, hop, ht, hright, -⟩, rfl⟩
      have hend := Expression.not_atEnd hleft hop hright
      refine ⟨op, tail, t, ?_, ht, hend, ?_⟩
      · rw [hleft.read]
        exact hop
      · rw [hleft.read, hright.read]

end

/-- The digit one, which is the only number of the lines below; its value is `1.0`. -/
def oneNumeral : Numerals Double where
  zero := 0
  value cs := if cs = [49] then some 0x3FF0000000000000 else none
  noWhite {cs v} h c hc := by
    split at h
    · subst cs
      obtain rfl := List.mem_singleton.mp hc
      rfl
    · cases h

/-- `+ 1`, `1+x` and `1+1x` are accepted. -/
theorem accepts_no_expression :
    ¬Parses oneNumeral 0 [43, 32, 49, 10] ∧ ¬Parses oneNumeral 0 [49, 43, 120, 10] ∧
      ¬Parses oneNumeral 0 [49, 43, 49, 120, 10] := by
  refine ⟨Sloppy.not_parses ⟨43, [32, 49, 10], ?_⟩ 0, Sloppy.not_parses ⟨43, [120, 10], ?_⟩ 0,
    Sloppy.not_parses ⟨43, [49, 120, 10], ?_⟩ 0⟩
  · exact ⟨by decide, by decide, by decide, .inl (by decide)⟩
  · exact ⟨by decide, by decide, by decide, .inr (.inl (by decide))⟩
  · exact ⟨by decide, by decide, by decide, .inr (.inr ⟨120, by decide, by decide⟩)⟩

end AghOs.Calc
