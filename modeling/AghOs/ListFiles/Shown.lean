import AghOs.ListFiles.Partition
import AghOs.Machine.Civil

/-!
# The date that is shown

`check_time` of `src/cw02/zad2/src/list_files.c` takes the date of a file from
`gmtime` (line 45), `print_last_mod` from `localtime` (line 13). Here both are the
functions of the C library: `gmtime` is the Gregorian calendar, and `localtime(t)` is
`gmtime(t + offset)`. Both return a null pointer, which the program dereferences, when
the year does not fit into `tm_year`.

* `gmtime_inj`: the date determines the day.
* `filtered_as_shown_iff`: the date that is compared is the one that is shown
  exactly when the day in the time zone is the day in UTC.
-/

namespace AghOs.ListFiles

/-! ## `gmtime` and `localtime` -/

def gmtime (t : ℤ) : Tm :=
  let date := Civil.ofDay (t / 86400)
  ⟨date.year - 1900, date.month - 1, date.day⟩

/-- The calendar of a time zone. -/
def zone (offset : ℤ) : Calendar := ⟨gmtime, fun t => gmtime (t + offset)⟩

/-- `gmtime` does not return a null pointer. -/
def InTmRange (t : ℤ) : Prop := -2 ^ 31 ≤ (gmtime t).year ∧ (gmtime t).year < 2 ^ 31

/-- The date determines the day. -/
theorem gmtime_inj {t t' : ℤ} : (gmtime t).ymd = (gmtime t').ymd ↔ t / 86400 = t' / 86400 := by
  rw [← Civil.ofDay_inj, Tm.ymd, Tm.ymd, ymd_inj]
  unfold gmtime
  dsimp only
  constructor
  · rintro ⟨hy, hm, hd⟩
    exact Civil.ext (by omega) (by omega) hd
  · intro h
    rw [h]
    exact ⟨rfl, rfl, rfl⟩

/-! ## The program -/

/-- The date that `print_last_mod` prints. -/
def shownDate (cal : Calendar) (st : Stat) : Date :=
  let tm := cal.localtime st.mtime
  ⟨toInt (tm.year + 1900), toInt (tm.mon + 1), tm.mday⟩

theorem printLastMod_eq (cal : Calendar) (st : Stat) :
    printLastMod cal st = zeroPadded 4 (shownDate cal st).year ++ [45] ++
      zeroPadded 2 (shownDate cal st).month ++ [45] ++ zeroPadded 2 (shownDate cal st).day ++
      [32] := rfl

/-- A file with this modification time is listed exactly when the date that is shown
    for it stands in the relation to the date requested. -/
def FilteredAsShown (offset mtime : ℤ) : Prop :=
  InTmRange mtime ∧ InTmRange (mtime + offset) ∧
    (gmtime (mtime + offset)).year + 1900 < 2 ^ 31 ∧
    ∀ (cond : Cond) (date : Date) (filename : Path) (st : Stat), date.Fits → st.mtime = mtime →
      (listFile (zone offset) cond date filename (.file .reg st) =
          [line (zone offset) filename st] ↔
        cond.Holds (shownDate (zone offset) st).ymd date.ymd)

theorem listFile_reg_iff (cal : Calendar) (cond : Cond) (date : Date) (filename : Path)
    (st : Stat) :
    listFile cal cond date filename (.file .reg st) = [line cal filename st] ↔
      cond.Holds (cal.gmtime st.mtime).ymd date.tm.ymd := by
  rw [listFile, if_pos rfl, ← checkTime_eq_zero_iff]
  by_cases h : checkTime cal st.mtime cond date = 0 <;> simp [h]

/-- A broken-down time as a date. -/
def Tm.date (tm : Tm) : Date := ⟨tm.year + 1900, tm.mon + 1, tm.mday⟩

/-- Dates are related as they are in the units of `struct tm`. -/
theorem holds_tm_iff {tm : Tm} {date : Date} (h : date.Fits) (cond : Cond) :
    cond.Holds tm.ymd date.tm.ymd ↔ cond.Holds tm.date.ymd date.ymd := by
  rw [Date.tm_ymd h, Date.ymd, Tm.ymd, Tm.date, Date.ymd]
  cases cond <;> simp only [Cond.Holds, ymd_lt_ymd, ymd_inj] <;> omega

theorem shownDate_zone {offset : ℤ} {st : Stat} (h : InTmRange (st.mtime + offset))
    (h' : (gmtime (st.mtime + offset)).year + 1900 < 2 ^ 31) :
    shownDate (zone offset) st = (gmtime (st.mtime + offset)).date := by
  have hmon : toInt ((gmtime (st.mtime + offset)).mon + 1) =
      (gmtime (st.mtime + offset)).mon + 1 := by
    have hm := Civil.month_ofDay ((st.mtime + offset) / 86400)
    refine toInt_eq_self ?_ ?_ <;> unfold gmtime <;> dsimp only <;> omega
  have hyear : toInt ((gmtime (st.mtime + offset)).year + 1900) =
      (gmtime (st.mtime + offset)).year + 1900 := by
    have := h.1
    exact toInt_eq_self (by omega) h'
  unfold shownDate
  dsimp only [zone]
  rw [hyear, hmon, Tm.date]

/-- The date of a time can be requested. -/
theorem fits_date {t : ℤ} (h : InTmRange t) : (gmtime t).date.Fits := by
  have hm := Civil.month_ofDay (t / 86400)
  unfold Date.Fits Tm.date
  dsimp only
  rw [Int.add_sub_cancel, Int.add_sub_cancel]
  refine ⟨toInt_eq_self h.1 h.2, toInt_eq_self ?_ ?_⟩ <;> unfold gmtime <;> dsimp only <;> omega

/-- The file is listed under `=` for the date that is shown; so that is its date. -/
theorem FilteredAsShown.same_day {offset mtime : ℤ} (h : FilteredAsShown offset mtime) :
    mtime / 86400 = (mtime + offset) / 86400 := by
  obtain ⟨-, hlocal, hyear, hlisted⟩ := h
  obtain ⟨st, rfl⟩ : ∃ st : Stat, st.mtime = mtime := ⟨⟨0, mtime, 0⟩, rfl⟩
  have hfits := fits_date hlocal
  have heq := hlisted .eq (gmtime (st.mtime + offset)).date [] st hfits rfl
  rw [listFile_reg_iff, shownDate_zone hlocal hyear] at heq
  have hsame : (gmtime st.mtime).ymd = (gmtime (st.mtime + offset)).date.tm.ymd := heq.mpr rfl
  rw [Date.tm_ymd hfits, Tm.date, Int.add_sub_cancel, Int.add_sub_cancel] at hsame
  exact gmtime_inj.mp hsame

/-- **The date that is filtered is the date that is shown** exactly when the day in
    the time zone is the day in UTC, and its year is an `int`. -/
theorem filtered_as_shown_iff (offset mtime : ℤ) :
    FilteredAsShown offset mtime ↔
      mtime / 86400 = (mtime + offset) / 86400 ∧
        -2 ^ 31 + 1900 ≤ (Civil.ofDay (mtime / 86400)).year ∧
        (Civil.ofDay (mtime / 86400)).year < 2 ^ 31 := by
  constructor
  · intro h
    have hday := h.same_day
    obtain ⟨hgm, -, hyear, -⟩ := h
    refine ⟨hday, ?_, ?_⟩
    · have := hgm.1
      unfold gmtime at this
      dsimp only at this
      omega
    · unfold gmtime at hyear
      dsimp only at hyear
      rw [← hday] at hyear
      omega
  · rintro ⟨hday, hlo, hhi⟩
    have hsame : gmtime mtime = gmtime (mtime + offset) := by
      unfold gmtime
      rw [hday]
    have hgm : InTmRange mtime := by
      unfold InTmRange gmtime
      dsimp only
      omega
    have hyear : (gmtime mtime).year + 1900 < 2 ^ 31 := by
      unfold gmtime
      dsimp only
      omega
    have hlocal : InTmRange (mtime + offset) := by
      unfold InTmRange
      rw [← hsame]
      exact hgm
    have hyear' : (gmtime (mtime + offset)).year + 1900 < 2 ^ 31 := by
      rw [← hsame]
      exact hyear
    refine ⟨hgm, hlocal, hyear', fun cond date filename st hfits hst => ?_⟩
    subst hst
    rw [listFile_reg_iff, holds_tm_iff hfits, shownDate_zone hlocal hyear', ← hsame, zone]

/-- Written half an hour before midnight UTC, an hour east of it: the file is shown
    with the next day, and is not listed for that day. -/
theorem next_day_not_listed :
    shownDate (zone 3600) ⟨0o644, 1521243000, 5⟩ = ⟨2018, 3, 17⟩ ∧
      listFile (zone 3600) .eq ⟨2018, 3, 17⟩ [47, 97] (.file .reg ⟨0o644, 1521243000, 5⟩) = [] ∧
      ¬FilteredAsShown 3600 1521243000 := by
  refine ⟨rfl, rfl, fun h => ?_⟩
  exact absurd h.same_day (by decide)

end AghOs.ListFiles
