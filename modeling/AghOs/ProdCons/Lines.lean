import Mathlib.Data.List.TakeWhile
import Mathlib.Tactic.Common

/-!
# The lines of the input file

Model of the reading loop of the producers (`cw09/zad1/src/main-sem.c`, lines
69–73, the same in `main-monitor.c`): `getline`, and `strtok(line, "\n")` on
the C string it returns.

* `getline_eq_some`: one turn of the loop reads the next non-empty line of the
  file (`fileLines`), or skips an empty one.
-/

namespace AghOs.ProdCons

/-- A C string: its bytes in front of the terminating `'\\0'`. -/
abbrev Text := List UInt8

/-- `'\\n'` -/
def newline : UInt8 := 10

/-- The input up to and with the first newline, and the rest of it. -/
def splitLine : List UInt8 → List UInt8 × List UInt8
  | [] => ([], [])
  | c :: cs =>
    if c = newline then ([c], cs)
    else (c :: (splitLine cs).1, (splitLine cs).2)

/-- `getline`: the bytes read and the input that is left; `none` (`-1`) at the
    end of the file. -/
def getline : List UInt8 → Option (List UInt8 × List UInt8)
  | [] => none
  | c :: cs => some (splitLine (c :: cs))

/-- The C string at the start of the bytes. -/
def cString (bytes : List UInt8) : Text := bytes.takeWhile (· ≠ 0)

/-- `strtok(line, "\\n")`: skip newlines, then take the bytes up to the next one;
    `none` (`NULL`) if there is nothing but newlines. -/
def strtok (line : List UInt8) : Option Text :=
  match (cString line).dropWhile (· = newline) with
  | [] => none
  | c :: cs => some ((c :: cs).takeWhile (· ≠ newline))

/-- The non-empty lines of a file. A byte `'\\0'` ends its line early. -/
def fileLines (input : List UInt8) : List Text :=
  ((input.splitOn newline).map cString).filter (· ≠ [])

@[simp] theorem fileLines_nil : fileLines [] = [] := rfl

/-- The line that `splitLine` takes off has its newline at the end, unless the
    file ends without one. -/
theorem splitLine_spec (input : List UInt8) :
    ∃ line, newline ∉ line ∧
      (splitLine input = (line ++ [newline], (splitLine input).2) ∧
          input = line ++ newline :: (splitLine input).2 ∨
        splitLine input = (line, []) ∧ input = line) := by
  induction input with
  | nil => exact ⟨[], by simp, .inr ⟨rfl, rfl⟩⟩
  | cons c cs ih =>
    by_cases hc : c = newline
    · refine ⟨[], by simp, .inl ⟨?_, ?_⟩⟩ <;> simp [splitLine, hc]
    · obtain ⟨line, hl, ⟨h1, h2⟩ | ⟨h1, h2⟩⟩ := ih
      · refine ⟨c :: line, by simpa [Ne.symm hc] using hl, .inl ⟨?_, ?_⟩⟩
        · rw [splitLine, if_neg hc, h1]; rfl
        · rw [splitLine, if_neg hc]
          simpa using h2
      · refine ⟨c :: line, by simpa [Ne.symm hc] using hl, .inr ⟨?_, ?_⟩⟩
        · rw [splitLine, if_neg hc, h1]
        · rw [h2]

theorem cString_append (line : List UInt8) :
    cString (line ++ [newline]) = cString line ∨
      cString line = line ∧ cString (line ++ [newline]) = line ++ [newline] := by
  by_cases h : ∀ c ∈ line, decide (c ≠ 0) = true
  · right
    refine ⟨List.takeWhile_eq_self_iff.mpr h, ?_⟩
    rw [cString, List.takeWhile_append_of_pos h]
    rfl
  · left
    rw [cString, cString, List.takeWhile_append, if_neg]
    intro hlen
    exact h (List.takeWhile_eq_self_iff.mp ((List.takeWhile_prefix _).eq_of_length hlen))

/-- `strtok` returns a line without its newline, and nothing for an empty
    one. -/
theorem strtok_eq {l q : List UInt8} (hq : newline ∉ q)
    (hl : cString l = q ∨ cString l = q ++ [newline]) :
    (strtok l).toList = [q].filter (· ≠ []) := by
  cases q with
  | nil => rcases hl with hl | hl <;> simp [strtok, hl, newline]
  | cons c cs =>
    have hne : ∀ x ∈ c :: cs, decide (x ≠ newline) = true := fun x hx =>
      decide_eq_true fun e => hq (e ▸ hx)
    have hc : decide (c = newline) = false := by simpa using hne c (by simp)
    have h1 : (c :: cs).takeWhile (fun x => decide (x ≠ newline)) = c :: cs :=
      List.takeWhile_eq_self_iff.mpr hne
    have h2 : (c :: cs ++ [newline]).takeWhile (fun x => decide (x ≠ newline)) = c :: cs := by
      rw [List.takeWhile_append_of_pos hne]
      simp
    have hs : strtok l = some (c :: cs) := by
      unfold strtok
      rcases hl with hl | hl <;> rw [hl]
      · rw [List.dropWhile_cons, hc]
        exact congrArg some h1
      · rw [List.cons_append, List.dropWhile_cons, hc]
        exact congrArg some h2
    rw [hs]
    rfl

/-- What `strtok` makes of a line, with or without its newline. -/
theorem strtok_line {l line : List UInt8} (h : newline ∉ line)
    (hl : l = line ∨ l = line ++ [newline]) :
    (strtok l).toList = [cString line].filter (· ≠ []) := by
  have hq : newline ∉ cString line := fun hm => h ((List.takeWhile_prefix _).subset hm)
  refine strtok_eq hq ?_
  rcases hl with rfl | rfl
  · exact .inl rfl
  · obtain h | ⟨h1, h2⟩ := cString_append line
    · exact .inl h
    · exact .inr (by rw [h1, h2])

/-- One turn of the reading loop takes the next line off the file. -/
theorem getline_eq_some {input l rest : List UInt8} (h : getline input = some (l, rest)) :
    fileLines input = (strtok l).toList ++ fileLines rest := by
  cases input with
  | nil => cases h
  | cons c cs =>
    have h := Option.some.inj h
    obtain ⟨line, hn, ⟨h1, h2⟩ | ⟨h1, h2⟩⟩ := splitLine_spec (c :: cs)
    · rw [h] at h1 h2
      obtain ⟨rfl, -⟩ := Prod.mk.inj h1
      rw [strtok_line hn (.inr rfl), h2, fileLines, List.splitOn_append_cons_self_of_not_mem hn]
      simp [fileLines, List.filter_cons]
      split <;> rfl
    · rw [h] at h1
      obtain ⟨rfl, rfl⟩ := Prod.mk.inj h1
      rw [strtok_line hn (.inl rfl), h2, fileLines, List.splitOn_eq_singleton hn]
      simp

/-- The lines of a file without empty lines and `'\0'` bytes. -/
example : fileLines [97, 98, 10, 10, 99] = [[97, 98], [99]] := by decide

end AghOs.ProdCons
