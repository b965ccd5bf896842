import AghOs.ListFiles.Nftw
import Mathlib.Data.Prod.Lex

/-!
# The three conditions

`check_time` of `src/cw02/zad2/src/list_files.c` (lines 42–78) compares a broken-down
time with a date, field by field; that is the lexicographic order of the two triples.
The offsets of the fields are taken off the date, in `int`.

* `checkTime_eq_zero_iff`: a condition is the relation of the two triples.
* `listFiles_eq_map_regular`: the walker prints the regular files that it selects.
* `mem_listFiles_iff`: the line of a file is in the listing if the file is selected.
* `conditions_partition`: the listings under `<`, `=` and `>` share out the lines of
  the regular files, and a later date lists more under `<` and less under `>`.
-/

namespace AghOs.ListFiles

/-! ## The order of dates -/

/-- Year, month and day, in lexicographic order. -/
abbrev Ymd := ℤ ×ₗ ℤ ×ₗ ℤ

def ymd (year month day : ℤ) : Ymd := toLex (year, toLex (month, day))

theorem ymd_lt_ymd {y m d y' m' d' : ℤ} :
    ymd y m d < ymd y' m' d' ↔ y < y' ∨ y = y' ∧ (m < m' ∨ m = m' ∧ d < d') := by
  unfold ymd
  rw [Prod.Lex.toLex_lt_toLex, Prod.Lex.toLex_lt_toLex]

theorem ymd_inj {y m d y' m' d' : ℤ} :
    ymd y m d = ymd y' m' d' ↔ y = y' ∧ m = m' ∧ d = d' := by
  unfold ymd
  rw [toLex_inj, Prod.mk.injEq, toLex_inj, Prod.mk.injEq]

/-- A date as it was requested. -/
def Date.ymd (date : Date) : Ymd := ListFiles.ymd date.year date.month date.day

/-- A date in the units of `struct tm`. -/
def Date.tm (date : Date) : Tm := ⟨toInt (date.year - 1900), toInt (date.month - 1), date.day⟩

def Tm.ymd (tm : Tm) : Ymd := ListFiles.ymd tm.year tm.mon tm.mday

/-- The subtractions of `check_time` do not overflow. -/
def Date.Fits (date : Date) : Prop :=
  toInt (date.year - 1900) = date.year - 1900 ∧ toInt (date.month - 1) = date.month - 1

theorem Date.tm_ymd {date : Date} (h : date.Fits) :
    date.tm.ymd = ListFiles.ymd (date.year - 1900) (date.month - 1) date.day := by
  rw [Tm.ymd, Date.tm, h.1, h.2]

/-- Dates are compared as they are in the units of `struct tm`. -/
theorem Date.tm_lt_tm {d₁ d₂ : Date} (h₁ : d₁.Fits) (h₂ : d₂.Fits) (h : d₁.ymd < d₂.ymd) :
    d₁.tm.ymd < d₂.tm.ymd := by
  rw [Date.ymd, Date.ymd, ymd_lt_ymd] at h
  rw [Date.tm_ymd h₁, Date.tm_ymd h₂, ymd_lt_ymd]
  omega

/-- The relation that a condition stands for. -/
def Cond.Holds {α : Type*} [LT α] (cond : Cond) (a b : α) : Prop :=
  match cond with
  | .lt => a < b
  | .eq => a = b
  | .gt => b < a

/-- In a linear order one of the three holds. -/
theorem existsUnique_holds {α : Type*} [LinearOrder α] (a b : α) :
    ∃! cond : Cond, cond.Holds a b := by
  obtain h | h | h := lt_trichotomy a b
  · refine ⟨.lt, h, fun cond hc => ?_⟩
    cases cond with
    | lt => rfl
    | eq => exact absurd hc h.ne
    | gt => exact absurd hc h.asymm
  · refine ⟨.eq, h, fun cond hc => ?_⟩
    cases cond with
    | lt => exact absurd h hc.ne
    | eq => rfl
    | gt => exact absurd h hc.ne'
  · refine ⟨.gt, h, fun cond hc => ?_⟩
    cases cond with
    | lt => exact absurd hc h.asymm
    | eq => exact absurd hc h.ne'
    | gt => rfl

/-! ## `check_time` -/

/-- `cmp`, after the comparisons of `check_time`. -/
def cmpTm (ll tm : Tm) : ℤ :=
  if ll.year > tm.year then 1
  else if ll.year < tm.year then -1
  else if ll.mon > tm.mon then 1
  else if ll.mon < tm.mon then -1
  else if ll.mday > tm.mday then 1
  else if ll.mday < tm.mday then -1
  else 0

/-- The comparisons one after the other are the lexicographic order. -/
theorem cmpTm_cases (ll tm : Tm) :
    ll.ymd < tm.ymd ∧ cmpTm ll tm = -1 ∨ ll.ymd = tm.ymd ∧ cmpTm ll tm = 0 ∨
      tm.ymd < ll.ymd ∧ cmpTm ll tm = 1 := by
  simp only [Tm.ymd, ymd_lt_ymd, ymd_inj]
  unfold cmpTm
  split_ifs <;> omega

theorem checkTime_eq_zero_iff (cal : Calendar) (left : ℤ) (cond : Cond) (date : Date) :
    checkTime cal left cond date = 0 ↔ cond.Holds (cal.gmtime left).ymd date.tm.ymd := by
  have hlt : checkTime cal left .lt date =
      if cmpTm (cal.gmtime left) date.tm < 0 then 0 else 1 := rfl
  have hgt : checkTime cal left .gt date =
      if cmpTm (cal.gmtime left) date.tm > 0 then 0 else 1 := rfl
  have heq : checkTime cal left .eq date =
      if cmpTm (cal.gmtime left) date.tm = 0 then 0 else 1 := rfl
  obtain ⟨h, hc⟩ | ⟨h, hc⟩ | ⟨h, hc⟩ := cmpTm_cases (cal.gmtime left) date.tm
  · cases cond <;> simp [Cond.Holds, hlt, hgt, heq, hc, h, h.ne, h.not_gt]
  · cases cond <;> simp [Cond.Holds, hlt, hgt, heq, hc, h]
  · cases cond <;> simp [Cond.Holds, hlt, hgt, heq, hc, h, h.ne', h.not_gt]

/-! ## The walker -/

/-- The regular files of a directory. -/
def Stream.regular (dirname : Path) (stream : Stream) : List Obj :=
  (stream.objects dirname).filter fun o => o.kind = .reg

/-- The line printed for a file. -/
def Obj.line (cal : Calendar) (o : Obj) : List UInt8 := ListFiles.line cal o.path o.st

/-- `check_time` selects a file. -/
abbrev Obj.Selected (cal : Calendar) (cond : Cond) (date : Date) (o : Obj) : Prop :=
  checkTime cal o.st.mtime cond date = 0

/-- The walker prints the regular files that are selected, and nothing else. -/
theorem listFiles_eq_map_regular (cal : Calendar) (cond : Cond) (date : Date) (dirname : Path)
    (stream : Stream) :
    listFiles cal cond date dirname stream =
      ((stream.regular dirname).filter fun o => o.Selected cal cond date).map (Obj.line cal) := by
  rw [listFiles_eq, Stream.regular]
  induction stream.objects dirname with
  | nil => rfl
  | cons o os ih =>
    rw [List.flatMap_cons, ih]
    by_cases hk : o.kind = .reg
    · rw [List.filter_cons_of_pos (by simpa using hk)]
      by_cases hc : o.Selected cal cond date
      · rw [List.filter_cons_of_pos (by simpa using hc), Obj.regLines, if_pos ⟨hk, hc⟩]
        rfl
      · rw [List.filter_cons_of_neg (by simpa using hc), Obj.regLines, if_neg fun h => hc h.2]
        rfl
    · rw [List.filter_cons_of_neg (by simpa using hk), Obj.regLines, if_neg fun h => hk h.1]
      rfl

/-- An earlier time than a date is earlier than the dates after it. -/
theorem Obj.Selected.lt_mono {cal : Calendar} {d₁ d₂ : Date} (h₁ : d₁.Fits) (h₂ : d₂.Fits)
    (hlt : d₁.ymd < d₂.ymd) {o : Obj} (h : o.Selected cal .lt d₁) : o.Selected cal .lt d₂ := by
  rw [Obj.Selected, checkTime_eq_zero_iff] at h ⊢
  exact lt_trans h (Date.tm_lt_tm h₁ h₂ hlt)

theorem Obj.Selected.gt_mono {cal : Calendar} {d₁ d₂ : Date} (h₁ : d₁.Fits) (h₂ : d₂.Fits)
    (hlt : d₁.ymd < d₂.ymd) {o : Obj} (h : o.Selected cal .gt d₂) : o.Selected cal .gt d₁ := by
  rw [Obj.Selected, checkTime_eq_zero_iff] at h ⊢
  exact lt_trans (Date.tm_lt_tm h₁ h₂ hlt) h

theorem existsUnique_selected (cal : Calendar) (date : Date) (o : Obj) :
    ∃! cond, o.Selected cal cond date := by
  simp only [Obj.Selected, checkTime_eq_zero_iff]
  exact existsUnique_holds _ _

/-! ## What is printed -/

section

variable {cal : Calendar} {dirname : Path} {stream : Stream}

/-- Two files of a tree do not have the same line. -/
theorem line_injOn (hroot : dirname.head? = some 47) (hwf : stream.Wf) {o o' : Obj}
    (ho : o ∈ stream.regular dirname) (ho' : o' ∈ stream.regular dirname)
    (h : o.line cal = o'.line cal) : o = o' := by
  have hmem := (List.mem_filter.mp ho).1
  have hmem' := (List.mem_filter.mp ho').1
  have hpath := line_path h (head?_of_mem hroot hmem) (head?_of_mem hroot hmem')
  exact path_unique hwf hmem hmem' hpath

theorem mem_listFiles_iff (hroot : dirname.head? = some 47) (hwf : stream.Wf) {o : Obj}
    (ho : o ∈ stream.regular dirname) (cond : Cond) (date : Date) :
    o.line cal ∈ listFiles cal cond date dirname stream ↔ o.Selected cal cond date := by
  rw [listFiles_eq_map_regular, List.mem_map]
  constructor
  · rintro ⟨o', ho', hline⟩
    obtain ⟨hreg', hsel⟩ := List.mem_filter.mp ho'
    rw [← line_injOn hroot hwf hreg' ho hline]
    exact of_decide_eq_true hsel
  · intro hsel
    exact ⟨o, List.mem_filter.mpr ⟨ho, decide_eq_true hsel⟩, rfl⟩

/-- Three filters share out a list if each element passes one of them. -/
theorem filters_perm {α : Type*} {P : Cond → α → Prop} [∀ cond, DecidablePred (P cond)]
    {l : List α} (h : ∀ a ∈ l, ∃! cond, P cond a) :
    (l.filter (P .lt) ++ (l.filter (P .eq) ++ l.filter (P .gt))).Perm l := by
  have hone : ∀ a ∈ l, ∀ {cond cond'}, P cond a → P cond' a → cond = cond' := fun a ha _ _ hc hc' =>
    (h a ha).unique hc hc'
  have heq : l.filter (P .eq) = (l.filter fun a => !decide (P .lt a)).filter (P .eq) := by
    rw [List.filter_filter]
    refine List.filter_congr fun a ha => ?_
    by_cases hp : P .eq a
    · have hlt : ¬P .lt a := fun hlt => nomatch hone a ha hp hlt
      simp [hp, hlt]
    · simp [hp]
  have hgt : l.filter (P .gt) =
      (l.filter fun a => !decide (P .lt a)).filter fun a => !decide (P .eq a) := by
    rw [List.filter_filter]
    refine List.filter_congr fun a ha => ?_
    by_cases hp : P .gt a
    · have hlt : ¬P .lt a := fun hlt => nomatch hone a ha hp hlt
      have heq : ¬P .eq a := fun heq => nomatch hone a ha hp heq
      simp [hp, hlt, heq]
    · obtain ⟨cond, hc, -⟩ := h a ha
      cases cond with
      | lt => simp [hp, hc]
      | eq => simp [hp, hc]
      | gt => exact absurd hc hp
  rw [heq, hgt]
  exact ((List.filter_append_perm _ _).append_left _).trans (List.filter_append_perm _ _)

end

/-- **The conditions share out the regular files.** The line of each regular file is
    printed under exactly one condition; what is printed under the three of them
    together is the lines of the regular files, each once, and nothing else. Of two
    dates the later lists more under `<` and less under `>`. -/
theorem conditions_partition (cal : Calendar) {dirname : Path} {stream : Stream}
    (hroot : dirname.head? = some 47) (hwf : stream.Wf) {d₁ d₂ : Date} (h₁ : d₁.Fits)
    (h₂ : d₂.Fits) (hlt : d₁.ymd < d₂.ymd) :
    (∀ date : Date,
      (∀ o ∈ stream.regular dirname,
        ∃! cond, o.line cal ∈ listFiles cal cond date dirname stream) ∧
      (listFiles cal .lt date dirname stream ++ (listFiles cal .eq date dirname stream ++
        listFiles cal .gt date dirname stream)).Perm
          ((stream.regular dirname).map (Obj.line cal))) ∧
    (∀ o ∈ stream.regular dirname, o.line cal ∈ listFiles cal .lt d₁ dirname stream →
      o.line cal ∈ listFiles cal .lt d₂ dirname stream) ∧
    ∀ o ∈ stream.regular dirname, o.line cal ∈ listFiles cal .gt d₂ dirname stream →
      o.line cal ∈ listFiles cal .gt d₁ dirname stream := by
  refine ⟨fun date => ⟨fun o ho => ?_, ?_⟩, fun o ho h => ?_, fun o ho h => ?_⟩
  · simp only [mem_listFiles_iff hroot hwf ho]
    exact existsUnique_selected cal date o
  · simp only [listFiles_eq_map_regular, ← List.map_append]
    exact (filters_perm fun o _ => existsUnique_selected cal date o).map _
  · rw [mem_listFiles_iff hroot hwf ho] at h ⊢
    exact h.lt_mono h₁ h₂ hlt
  · rw [mem_listFiles_iff hroot hwf ho] at h ⊢
    exact h.gt_mono h₁ h₂ hlt

/-- `gmtime` and `localtime`, where a time is a number of months. -/
def monthly : Calendar := ⟨fun t => ⟨118, t, 17⟩, fun t => ⟨118, t, 17⟩⟩

/-- `a` of March and, in a directory `b`, `a` of April and `b` of July. -/
def threeFiles : Stream :=
  .dot (.entry nameA (.file .reg ⟨0o644, 2, 5⟩) (.entry nameB (.dir ⟨0o755, 6, 4096⟩
    (.entry nameA (.file .reg ⟨0o600, 3, 7⟩) (.entry nameB (.file .reg ⟨0o444, 6, 0⟩) .nil)))
      (.dotDot .nil)))

/-- The three files, each listed under its condition; the first and the last of them
    also for the other date. -/
theorem conditions_partition_months :
    listFiles monthly .lt ⟨2018, 4, 17⟩ [47] threeFiles = [line monthly [47, 97] ⟨0o644, 2, 5⟩] ∧
    listFiles monthly .eq ⟨2018, 4, 17⟩ [47] threeFiles =
      [line monthly [47, 98, 47, 97] ⟨0o600, 3, 7⟩] ∧
    listFiles monthly .gt ⟨2018, 4, 17⟩ [47] threeFiles =
      [line monthly [47, 98, 47, 98] ⟨0o444, 6, 0⟩] ∧
    line monthly [47, 97] ⟨0o644, 2, 5⟩ ∈ listFiles monthly .lt ⟨2018, 5, 1⟩ [47] threeFiles ∧
    line monthly [47, 98, 47, 98] ⟨0o444, 6, 0⟩ ∈
      listFiles monthly .gt ⟨2018, 4, 17⟩ [47] threeFiles ∧
    ∃! cond, line monthly [47, 98, 47, 97] ⟨0o600, 3, 7⟩ ∈
      listFiles monthly cond ⟨2018, 5, 1⟩ [47] threeFiles := by
  have hwf : threeFiles.Wf := by
    simp [threeFiles, Stream.Wf, Node.Wf, Stream.names, nameA, nameB]
  obtain ⟨hdate, hbefore, hafter⟩ := @conditions_partition monthly [47] threeFiles rfl hwf
    ⟨2018, 4, 17⟩ ⟨2018, 5, 1⟩ ⟨by decide, by decide⟩ ⟨by decide, by decide⟩
    (ymd_lt_ymd.mpr (by decide))
  have hregular : threeFiles.regular [47] = [⟨[47, 97], .reg, ⟨0o644, 2, 5⟩⟩,
    ⟨[47, 98, 47, 97], .reg, ⟨0o600, 3, 7⟩⟩, ⟨[47, 98, 47, 98], .reg, ⟨0o444, 6, 0⟩⟩] := rfl
  rw [hregular] at hbefore hafter hdate
  refine ⟨rfl, rfl, rfl, ?_, ?_, ?_⟩
  · exact hbefore ⟨[47, 97], .reg, ⟨0o644, 2, 5⟩⟩ (by simp) (List.mem_singleton_self _)
  · exact hafter ⟨[47, 98, 47, 98], .reg, ⟨0o444, 6, 0⟩⟩ (by simp) (List.mem_singleton_self _)
  · exact (hdate ⟨2018, 5, 1⟩).1 ⟨[47, 98, 47, 97], .reg, ⟨0o600, 3, 7⟩⟩ (by simp)

end AghOs.ListFiles
