import AghOs.ListFiles.Shown

/-!
# Listing by date

`main` of `cw02/zad2` (`main.c`, lines 20–68) in the build that walks the directories
itself. `sscanf` stores a number that is no `int` as its low 32 bits. The calls on files
and directories succeed, and no path is longer than `PATH_MAX`.

* `scanNumber_zeroPadded`: a number that was printed with leading zeros is read back.
* `line_eq_dateText`: the column of a line in which its date stands.
* `parseDate_dateText`: the date of a line is one that can be asked for.
* `listed_by_shown_date`: asking for it compares the dates that are shown.
-/

namespace AghOs.ListFiles

/-! ## The program -/

/-- `%d-%d-%d` -/
def dateFormat : List Directive := [.number, .char 45, .number, .char 45, .number]

/-- `sscanf(date, "%d-%d-%d", &year, &month, &day)`, if it returns `3`. -/
def parseDate (date : List UInt8) : Option Date :=
  match (fscanf dateFormat date []).values with
  | [year, month, day] => some ⟨toInt year, toInt month, toInt day⟩
  | _ => none

def Cond.text : Cond → List UInt8
  | lt => [60]
  | eq => [61]
  | gt => [62]

/-- The comparisons of `condv`. -/
def parseCond (condv : List UInt8) : Option Cond :=
  if condv = Cond.lt.text then some .lt
  else if condv = Cond.eq.text then some .eq
  else if condv = Cond.gt.text then some .gt
  else none

/-- `main`: the value returned, and the lines printed. `realpath` gives the resolved path
    of a directory and what is in it. -/
def main (cal : Calendar) (realpath : Path → Option (Path × Stream)) (argv : List (List UInt8)) :
    ℤ × List (List UInt8) :=
  match argv with
  | [_, dir, condv, date] =>
    match parseDate date with
    | none => (2, [])
    | some sdate =>
      match parseCond condv with
      | none => (3, [])
      | some cond =>
        match realpath dir with
        | none => (5, [])
        | some (dirr, stream) => (0, listFiles cal cond sdate dirr stream)
  | _ => (1, [])

/-! ## Reading a date back -/

theorem digitsValue_zeros (k : ℕ) (cs : List UInt8) :
    digitsValue (List.replicate k 48 ++ cs) = digitsValue cs := by
  unfold digitsValue
  rw [List.foldl_append]
  congr 1
  induction k with
  | zero => rfl
  | succ k ih => exact ih

theorem scanDigits_append {cs rest : List UInt8} (neg : Bool) (hne : cs ≠ [])
    (hcs : ∀ c ∈ cs, isDigit c = true) (hrest : ∀ c ∈ rest.head?, isDigit c = false) :
    scanDigits neg (cs ++ rest) =
      (some (if neg then -(digitsValue cs : ℤ) else digitsValue cs), rest) := by
  have htake : rest.takeWhile isDigit = [] ∧ rest.dropWhile isDigit = rest := by
    cases rest with
    | nil => exact ⟨rfl, rfl⟩
    | cons c rest => simp [hrest c rfl]
  simp only [scanDigits]
  rw [List.takeWhile_append_of_pos hcs, List.dropWhile_append_of_pos hcs, htake.1, htake.2,
    List.append_nil, if_neg hne]

/-- The digits of a number, with zeros in front. -/
theorem padded_digits (k n : ℕ) : ∀ c ∈ List.replicate k 48 ++ decimal n, isDigit c = true := by
  intro c hc
  rcases List.mem_append.mp hc with hc | hc
  · rw [List.eq_of_mem_replicate hc]
    decide
  · exact isDigit_of_mem_decimal n c hc

theorem padded_ne (k n : ℕ) : List.replicate k 48 ++ decimal n ≠ [] := by
  obtain ⟨c, cs, hc, -⟩ := decimal_eq_cons n
  rw [hc]
  exact List.append_ne_nil_of_right_ne_nil _ (List.cons_ne_nil c cs)

/-- `%0*d` writes a sign, if any, and digits. -/
theorem zeroPadded_eq (width : ℕ) (n : ℤ) :
    ∃ k, zeroPadded width n =
      (if n < 0 then [45] else []) ++ (List.replicate k 48 ++ decimal n.natAbs) :=
  ⟨_, List.append_assoc ..⟩

theorem scanNumber_zeroPadded (width : ℕ) (n : ℤ) {rest : List UInt8}
    (hrest : ∀ c ∈ rest.head?, isDigit c = false) :
    scanNumber (zeroPadded width n ++ rest) = (some n, rest) := by
  obtain ⟨k, hk⟩ := zeroPadded_eq width n
  have hscan := fun neg => scanDigits_append neg (padded_ne k n.natAbs) (padded_digits k n.natAbs)
    hrest
  rw [digitsValue_zeros, digitsValue_decimal] at hscan
  rw [hk]
  by_cases hn : n < 0
  · rw [if_pos hn]
    have habs : -(n.natAbs : ℤ) = n := by omega
    have hneg := hscan true
    rw [if_pos rfl, habs] at hneg
    exact hneg
  · rw [if_neg hn, List.nil_append]
    have habs : (n.natAbs : ℤ) = n := by omega
    obtain ⟨c, cs, hc⟩ := List.exists_cons_of_ne_nil (padded_ne k n.natAbs)
    have hd := padded_digits k n.natAbs c (hc ▸ List.mem_cons_self)
    have hpos := hscan false
    rw [if_neg Bool.false_ne_true, habs, hc, List.cons_append] at hpos
    rw [hc, List.cons_append, scanNumber_digit hd, hpos]

/-- `%d` reads a number that `%0*d` has written. -/
theorem fscanf_zeroPadded (width : ℕ) (n : ℤ) {fmt : List Directive} {values : List ℤ}
    {rest : List UInt8} (hrest : ∀ c ∈ rest.head?, isDigit c = false) :
    fscanf (.number :: fmt) (zeroPadded width n ++ rest) values =
      fscanf fmt rest (values ++ [n]) := by
  have hscan := scanNumber_zeroPadded width n hrest
  obtain ⟨c, cs, hc, hwhite⟩ : ∃ c cs, zeroPadded width n = c :: cs ∧ isWhite c = false := by
    obtain ⟨k, hk⟩ := zeroPadded_eq width n
    by_cases hn : n < 0
    · rw [if_pos hn] at hk
      exact ⟨45, _, hk, by decide⟩
    · rw [if_neg hn, List.nil_append] at hk
      obtain ⟨c, cs, hc⟩ := List.exists_cons_of_ne_nil (padded_ne k n.natAbs)
      have hd := padded_digits k n.natAbs c (hc ▸ List.mem_cons_self)
      exact ⟨c, cs, hk.trans hc, (isDigit_not_white hd).1⟩
  rw [hc, List.cons_append] at hscan ⊢
  have hskip : (c :: (cs ++ rest)).dropWhile isWhite = c :: (cs ++ rest) :=
    List.dropWhile_cons_of_neg (by simp [hwhite])
  simp only [fscanf, hskip, hscan]

/-- The date as `print_last_mod` prints it. -/
def dateText (date : Date) : List UInt8 :=
  zeroPadded 4 date.year ++ [45] ++ zeroPadded 2 date.month ++ [45] ++ zeroPadded 2 date.day

/-- The date of a file is the second column of its line. -/
theorem line_eq_dateText (cal : Calendar) (o : Obj) :
    o.line cal = printAccess o.st ++ (dateText (shownDate cal o.st) ++ [32]) ++ printSize o.st ++
      o.path ++ [10] := by
  rw [Obj.line, line, printLastMod_eq, dateText]

theorem parseDate_dateText {date : Date} (hyear : toInt date.year = date.year)
    (hmonth : toInt date.month = date.month) (hday : toInt date.day = date.day) :
    parseDate (dateText date) = some date := by
  have htext : dateText date = zeroPadded 4 date.year ++ 45 ::
      (zeroPadded 2 date.month ++ 45 :: (zeroPadded 2 date.day ++ [])) := by
    simp [dateText]
  have hminus : ∀ (rest : List UInt8), ∀ c ∈ (45 :: rest).head?, isDigit c = false := by
    intro rest c hc
    cases hc
    decide
  have hvalues : (fscanf dateFormat (dateText date) []).values =
      [date.year, date.month, date.day] := by
    unfold dateFormat
    rw [htext, fscanf_zeroPadded _ _ (hminus _), fscanf, if_pos rfl,
      fscanf_zeroPadded _ _ (hminus _), fscanf, if_pos rfl,
      fscanf_zeroPadded _ _ (fun c hc => by cases hc), fscanf]
    rfl
  unfold parseDate
  rw [hvalues]
  show some (Date.mk _ _ _) = _
  rw [hyear, hmonth, hday]

/-! ## The dates of a listing -/

instance {α : Type*} [LinearOrder α] (cond : Cond) (a b : α) : Decidable (cond.Holds a b) :=
  match cond with
  | .lt => inferInstanceAs (Decidable (a < b))
  | .eq => inferInstanceAs (Decidable (a = b))
  | .gt => inferInstanceAs (Decidable (b < a))

/-- In the time zone it is the same day as in UTC, of a year that is an `int`. -/
structure SameDay (offset mtime : ℤ) : Prop where
  day : mtime / 86400 = (mtime + offset) / 86400
  year_ge : -2 ^ 31 + 1900 ≤ (Civil.ofDay (mtime / 86400)).year
  year_lt : (Civil.ofDay (mtime / 86400)).year < 2 ^ 31

section

variable {offset : ℤ} {st : Stat}

/-- The date shown is the one that `check_time` sees. -/
theorem SameDay.shownDate_eq (h : SameDay offset st.mtime) :
    shownDate (zone offset) st = (gmtime st.mtime).date := by
  have hsame : gmtime (st.mtime + offset) = gmtime st.mtime := by
    unfold gmtime
    rw [h.day]
  have hlo := h.year_ge
  have hhi := h.year_lt
  rw [shownDate_zone ?_ ?_, hsame]
  · unfold InTmRange
    rw [hsame]
    unfold gmtime
    dsimp only
    omega
  · rw [hsame]
    unfold gmtime
    dsimp only
    omega

theorem SameDay.fits (h : SameDay offset st.mtime) : (gmtime st.mtime).date.Fits := by
  have hlo := h.year_ge
  have hhi := h.year_lt
  refine fits_date ?_
  unfold InTmRange gmtime
  dsimp only
  omega

theorem SameDay.parseDate_shown (h : SameDay offset st.mtime) :
    parseDate (dateText (shownDate (zone offset) st)) = some (shownDate (zone offset) st) := by
  have hlo := h.year_ge
  have hhi := h.year_lt
  have hmonth := Civil.month_ofDay (st.mtime / 86400)
  have hday := Civil.day_ofDay (st.mtime / 86400)
  rw [h.shownDate_eq]
  refine parseDate_dateText ?_ ?_ ?_ <;> refine toInt_eq_self ?_ ?_ <;>
    unfold Tm.date gmtime <;> dsimp only <;> omega

/-- A file is selected when the dates that are shown are in the relation. -/
theorem SameDay.selected_iff {o : Obj} (ho : SameDay offset o.st.mtime)
    (h : SameDay offset st.mtime) (cond : Cond) :
    o.Selected (zone offset) cond (shownDate (zone offset) st) ↔
      cond.Holds (shownDate (zone offset) o.st).ymd (shownDate (zone offset) st).ymd := by
  rw [Obj.Selected, checkTime_eq_zero_iff, ho.shownDate_eq, h.shownDate_eq, holds_tm_iff h.fits]
  rfl

end

@[simp] theorem parseCond_text (cond : Cond) : parseCond cond.text = some cond := by
  cases cond with
  | lt => rfl
  | eq => rfl
  | gt => rfl

/-- The date in the second column of any line, given back to the program, selects by the
    dates that are shown: what is printed are the lines of the files that are selected,
    as long as the calls succeed and no path reaches `PATH_MAX`. -/
theorem listed_by_shown_date {offset : ℤ} {realpath : Path → Option (Path × Stream)}
    {dir dirr : Path} {stream : Stream} (hpath : realpath dir = some (dirr, stream))
    (hdays : ∀ o ∈ stream.regular dirr, SameDay offset o.st.mtime) {shown : Obj}
    (hshown : shown ∈ stream.regular dirr) (cond : Cond) (program : List UInt8) :
    ∃ date, shown.line (zone offset) =
        printAccess shown.st ++ (date ++ [32]) ++ printSize shown.st ++ shown.path ++ [10] ∧
      date = dateText (shownDate (zone offset) shown.st) ∧
      main (zone offset) realpath [program, dir, cond.text, date] =
        (0, ((stream.regular dirr).filter fun o =>
          cond.Holds (shownDate (zone offset) o.st).ymd
            (shownDate (zone offset) shown.st).ymd).map (Obj.line (zone offset))) := by
  refine ⟨_, line_eq_dateText (zone offset) shown, rfl, ?_⟩
  have hmain : main (zone offset) realpath
      [program, dir, cond.text, dateText (shownDate (zone offset) shown.st)] =
        (0, listFiles (zone offset) cond (shownDate (zone offset) shown.st) dirr stream) := by
    unfold main
    simp only [(hdays shown hshown).parseDate_shown, parseCond_text, hpath]
  rw [hmain, listFiles_eq_map_regular]
  congr 2
  refine List.filter_congr fun o ho => ?_
  rw [decide_eq_decide]
  exact (hdays o ho).selected_iff (hdays shown hshown) cond

/-- The file of 17 March 2018 is shown with its date, and found under it. -/
theorem listed_by_shown_date_march :
    ∃ date, line (zone 0) [47, 97] ⟨0o644, 1521288000, 5⟩ =
        printAccess ⟨0o644, 1521288000, 5⟩ ++ (date ++ [32]) ++
          printSize ⟨0o644, 1521288000, 5⟩ ++ [47, 97] ++ [10] ∧
      date = dateText ⟨2018, 3, 17⟩ ∧
      main (zone 0) (fun _ => some ([47], oneEntry .reg)) [[97], [46], Cond.eq.text, date] =
        (0, [line (zone 0) [47, 97] ⟨0o644, 1521288000, 5⟩]) := by
  have hregular : (oneEntry .reg).regular [47] = [⟨[47, 97], .reg, ⟨0o644, 1521288000, 5⟩⟩] := rfl
  have hday : SameDay 0 1521288000 := ⟨by decide, by decide, by decide⟩
  have hdays : ∀ o ∈ (oneEntry .reg).regular [47], SameDay 0 o.st.mtime := by
    rw [hregular]
    intro o ho
    rw [List.mem_singleton.mp ho]
    exact hday
  exact @listed_by_shown_date 0 (fun _ => some ([47], oneEntry .reg)) [46] [47] (oneEntry .reg) rfl
    hdays ⟨[47, 97], .reg, ⟨0o644, 1521288000, 5⟩⟩ List.mem_cons_self .eq [97]

end AghOs.ListFiles
