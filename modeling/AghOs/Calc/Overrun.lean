import AghOs.Calc.Grammar
import AghOs.Calc.Server

/-!
# Reading beyond the line

`read_request` (`src/cw10/zad1/src/server.c`, lines 172–197) and `parse_request`
on the memory that holds a line: its characters and the terminating `0`. A
pointer is what is left of that memory, and to read from a pointer behind the
terminator is undefined (`none`). `strtod` stops before the first `0`.

`parse_request` takes the operator without looking at it and goes on behind it,
even where it is the terminator.

* `stays_inside_iff`: the lines on which nothing behind the terminator is read.
* `readRequestIn_eq`: on these the functions do what `readLine` says.
* `newline_inside`: the lines that end in a newline are among them.
-/

namespace AghOs.Calc

/-- `while (*data == ' ') ++data;` -/
def skipSpacesIn : List UInt8 → Option (List UInt8)
  | [] => none
  | c :: data => if c = 32 then skipSpacesIn data else some (c :: data)

/-- What is left of a text behind the number it begins with; `strtod` sees it up to
    the first `0`. -/
def afterNumber (strtod : List UInt8 → Double × List UInt8) (data : List UInt8) : List UInt8 :=
  let text := data.takeWhile (· ≠ 0)
  data.drop (text.length - (strtod text).2.length)

/-- `strtod(data, &data)` -/
def strtodIn (strtod : List UInt8 → Double × List UInt8) (data : List UInt8) :
    Option (Double × List UInt8) :=
  if data = [] then none
  else some ((strtod (data.takeWhile (· ≠ 0))).1, afterNumber strtod data)

def parseRequestIn (strtod : List UInt8 → Double × List UInt8) (id : Int32)
    (data : List UInt8) : Option (Option Request) := do
  let (left, data) ← strtodIn strtod data
  let data ← skipSpacesIn data
  let op ← data.head?
  let data ← skipSpacesIn data.tail
  let c ← data.head?
  -- no second operand
  if c = 10 ∨ c = 0 then return none
  let (right, _) ← strtodIn strtod data
  return (operator op).map fun t => ⟨id, t.toUInt32, left, right⟩

/-- `read_request` from the first loop on; the inner `none` is an error return. -/
def readRequestIn (strtod : List UInt8 → Double × List UInt8) (id : Int32)
    (line : List UInt8) : Option (Option Request) := do
  let line ← skipSpacesIn line
  let c ← line.head?
  -- empty line
  if c = 10 ∨ c = 0 then return none
  parseRequestIn strtod id line

/-- The line is not empty, and behind its first number there are only spaces. -/
def Overruns (strtod : List UInt8 → Double × List UInt8) (line : List UInt8) : Prop :=
  ¬AtEnd (skipSpaces line) ∧ skipSpaces (afterNumber strtod (skipSpaces line)) = []

/-! ## The steps on a line and its terminator -/

section

variable {strtod : List UInt8 → Double × List UInt8} {id : Int32} {line : List UInt8}

theorem skipSpacesIn_append (line : List UInt8) :
    skipSpacesIn (line ++ [0]) = some (skipSpaces line ++ [0]) := by
  induction line with
  | nil => rfl
  | cons c line ih =>
    rw [List.cons_append, skipSpacesIn, skipSpaces, List.dropWhile_cons]
    by_cases hc : c = 32
    · rw [if_pos hc, if_pos (decide_eq_true hc)]
      exact ih
    · rw [if_neg hc, if_neg (fun h => hc (of_decide_eq_true h)), List.cons_append]

theorem head?_append_nul (line : List UInt8) : (line ++ [0]).head? = some (line.headD 0) := by
  cases line <;> rfl

theorem takeWhile_append_nul (line : List UInt8) :
    (line ++ [0]).takeWhile (· ≠ 0) = line.takeWhile (· ≠ 0) := by
  induction line with
  | nil => rfl
  | cons c line ih =>
    rw [List.cons_append, List.takeWhile_cons, List.takeWhile_cons, ih]

theorem strtodIn_append (strtod : List UInt8 → Double × List UInt8) (line : List UInt8) :
    strtodIn strtod (line ++ [0]) =
      some ((strtod (line.takeWhile (· ≠ 0))).1, afterNumber strtod line ++ [0]) := by
  have hle : (line.takeWhile (· ≠ 0)).length - (strtod (line.takeWhile (· ≠ 0))).2.length ≤
      line.length :=
    Nat.le_trans (Nat.sub_le ..) (List.takeWhile_sublist _).length_le
  unfold strtodIn afterNumber
  rw [if_neg (List.append_ne_nil_of_right_ne_nil _ (List.cons_ne_nil 0 []))]
  simp only [takeWhile_append_nul, List.drop_append_of_le_length hle]

/-- The operator is the terminator, and the next read is behind it. -/
theorem parseRequestIn_none (h : skipSpaces (afterNumber strtod line) = []) :
    parseRequestIn strtod id (line ++ [0]) = none := by
  unfold parseRequestIn
  rw [strtodIn_append]
  simp only [Option.bind_eq_bind, Option.bind_some, skipSpacesIn_append, h, List.nil_append,
    List.head?_cons, List.tail_cons]
  rfl

/-- There is an operator, and the second number is in the line as well. -/
theorem parseRequestIn_some {op : UInt8} {tail : List UInt8}
    (h : skipSpaces (afterNumber strtod line) = op :: tail) :
    parseRequestIn strtod id (line ++ [0]) = some
      (if AtEnd (skipSpaces tail) then none
      else (operator op).map fun t => ⟨id, t.toUInt32, (strtod (line.takeWhile (· ≠ 0))).1,
        (strtod ((skipSpaces tail).takeWhile (· ≠ 0))).1⟩) := by
  unfold parseRequestIn
  rw [strtodIn_append]
  simp only [Option.bind_eq_bind, Option.bind_some, skipSpacesIn_append, h, List.cons_append,
    List.head?_cons, List.tail_cons, head?_append_nul, strtodIn_append]
  by_cases hend : AtEnd (skipSpaces tail)
  · rw [if_pos hend]
    exact if_pos hend
  · rw [if_neg hend]
    exact if_neg hend

/-- Nothing behind the terminator is read, unless only spaces follow the first number. -/
theorem stays_inside_iff (strtod : List UInt8 → Double × List UInt8) (id : Int32)
    (line : List UInt8) :
    readRequestIn strtod id (line ++ [0]) ≠ none ↔ ¬Overruns strtod line := by
  unfold readRequestIn Overruns
  simp only [Option.bind_eq_bind, Option.bind_some, skipSpacesIn_append, head?_append_nul]
  by_cases hend : AtEnd (skipSpaces line)
  · rw [if_pos (show (skipSpaces line).headD 0 = 10 ∨ (skipSpaces line).headD 0 = 0 from hend)]
    exact iff_of_true (Option.some_ne_none _) fun h => h.1 hend
  · rw [if_neg (show ¬((skipSpaces line).headD 0 = 10 ∨ (skipSpaces line).headD 0 = 0) from hend)]
    cases hrest : skipSpaces (afterNumber strtod (skipSpaces line)) with
    | nil =>
      rw [parseRequestIn_none hrest]
      exact iff_of_false (fun h => h rfl) fun h => h ⟨hend, rfl⟩
    | cons op tail =>
      rw [parseRequestIn_some hrest]
      exact iff_of_true (Option.some_ne_none _) fun h => (by cases h.2)

end

/-! ## C strings -/

section

variable {N : Numerals Double} {id : Int32}

theorem takeWhile_of_noNul {data : List UInt8} (h : ∀ c ∈ data, c ≠ 0) :
    data.takeWhile (· ≠ 0) = data := by
  rw [List.takeWhile_eq_self_iff]
  exact fun c hc => decide_eq_true (h c hc)

theorem afterNumber_eq {data : List UInt8} (h : ∀ c ∈ data, c ≠ 0) :
    afterNumber N.strtod data = (N.strtod data).2 := by
  unfold afterNumber
  rw [takeWhile_of_noNul h]
  exact (List.suffix_iff_eq_drop.mp (N.strtod_suffix data)).symm

/-- Where nothing behind the terminator is read, the functions do what `readLine`
    says. -/
theorem readRequestIn_eq (line : Line) (h : ¬Overruns N.strtod line.text) :
    readRequestIn N.strtod id (line.text ++ [0]) = some (readLine N.strtod id line.text) := by
  have hnul : ∀ {data : List UInt8}, data <:+ line.text → ∀ c ∈ data, c ≠ 0 :=
    fun hs c hc => line.noNul c (hs.subset hc)
  have hline := skipSpaces_suffix line.text
  unfold readRequestIn readLine
  simp only [Option.bind_eq_bind, Option.bind_some, skipSpacesIn_append, head?_append_nul]
  by_cases hend : (skipSpaces line.text).headD 0 = 10 ∨ (skipSpaces line.text).headD 0 = 0
  · rw [if_pos hend, if_pos hend]
    rfl
  · rw [if_neg hend, if_neg hend]
    have hafter := afterNumber_eq (N := N) (hnul hline)
    cases hrest : skipSpaces (afterNumber N.strtod (skipSpaces line.text)) with
    | nil => exact absurd ⟨hend, hrest⟩ h
    | cons op tail =>
      have hrest' := hrest
      rw [hafter] at hrest'
      have htail : skipSpaces tail <:+ line.text :=
        (skipSpaces_suffix tail).trans <| (List.suffix_cons op tail).trans <|
          (hrest' ▸ skipSpaces_suffix _).trans <| (N.strtod_suffix _).trans hline
      rw [parseRequestIn_some hrest, parseRequest_eq, takeWhile_of_noNul (hnul hline),
        takeWhile_of_noNul (hnul htail), hrest']
      rfl

theorem mem_skipSpaces {c : UInt8} {data : List UInt8} (hc : c ≠ 32) (h : c ∈ data) :
    c ∈ skipSpaces data := by
  rw [← List.takeWhile_append_dropWhile (p := (· = 32)) (l := data), List.mem_append] at h
  obtain h | h := h
  · have hspace := List.mem_takeWhile_imp h
    exact absurd (of_decide_eq_true hspace) hc
  · exact h

/-- A line that has a newline has it at its end, and no number contains it. -/
theorem newline_inside {line : Line} (h : 10 ∈ line.text) : ¬Overruns N.strtod line.text := by
  rintro ⟨hend, hrest⟩
  have hnul : ∀ c ∈ skipSpaces line.text, c ≠ 0 :=
    fun c hc => line.noNul c ((skipSpaces_suffix _).subset hc)
  have hmem : 10 ∈ skipSpaces line.text := mem_skipSpaces (by decide) h
  have hnone : 10 ∉ (N.strtod (skipSpaces line.text)).2 := by
    intro hmem
    have hskip := mem_skipSpaces (by decide) hmem
    rw [← afterNumber_eq hnul, hrest] at hskip
    cases hskip
  obtain hread | ⟨white, num, v, rest, hread, hdata, -, hnum, hv⟩ :=
    N.strtod_cases (skipSpaces line.text)
  · rw [hread] at hnone
    exact hnone hmem
  · rw [hread] at hnone
    rw [hdata, List.append_assoc, List.mem_append, List.mem_append] at hmem
    obtain hwhite | hmem | hmem := hmem
    · -- behind the newline there would be the number
      obtain ⟨w, w', rfl⟩ := List.append_of_mem hwhite
      obtain ⟨front, hfront⟩ := skipSpaces_suffix line.text
      have hempty : w' ++ num ++ rest = [] := by
        refine line.newline (front ++ w) _ ?_
        rw [← hfront, hdata]
        simp
      simp only [List.append_eq_nil_iff] at hempty
      exact hnum hempty.1.2
    · have hblack := N.noWhite hv 10 hmem
      cases hblack
    · exact hnone hmem

end

/-- The line `1` at the end of the input, without a newline. -/
theorem reads_behind_terminator :
    readRequestIn oneNumeral.strtod 0 ([49] ++ [0]) = none := by
  decide

end AghOs.Calc
