import Mathlib.Algebra.Order.Ring.Int

/-!
# The Gregorian calendar

The date of a day, days being counted from 1 January 1970. Years begin in March
here, so that the day that a leap year has more is its last: 400 years have 146097
days, 100 years 36524, 4 years 1461, a year 365, and one more at the end of the
first and the third of these periods.

* `Civil.dayNumber_ofDay`: the day is recovered from its date.
* `Civil.ofDay_inj`: two days have different dates.
* `Civil.month_ofDay`, `Civil.day_ofDay`: the months are `1` to `12`, and the days of a
  month at most `31`.
-/

namespace AghOs

@[ext]
structure Civil where
  year : ℤ
  month : ℤ
  day : ℤ
  deriving DecidableEq

namespace Civil

/-- 1 March of the year 0, in days before 1970. -/
def epoch : ℤ := 719468

/-- The days of the years `0` to `y - 1`, that begin in March. -/
def yearStart (y : ℤ) : ℤ := 365 * y + y / 4 - y / 100 + y / 400

/-- The days of the months before the month `mp`, counted from March. -/
def monthStart (mp : ℤ) : ℤ := (153 * mp + 2) / 5

/-- The year and the day in it, for a day counted from 1 March of the year 0. -/
def splitYear (z : ℤ) : ℤ × ℤ :=
  let era := z / 146097
  let r := z % 146097
  let century := min (r / 36524) 3
  let r := r - century * 36524
  let four := min (r / 1461) 24
  let r := r - four * 1461
  let year := min (r / 365) 3
  (400 * era + 100 * century + 4 * four + year, r - year * 365)

/-- The date of a day. -/
def ofDay (z : ℤ) : Civil :=
  let (y, r) := splitYear (z + epoch)
  let mp := (5 * r + 2) / 153
  ⟨if mp < 10 then y else y + 1, if mp < 10 then mp + 3 else mp - 9, r - monthStart mp + 1⟩

/-- The day with a given date. -/
def dayNumber (c : Civil) : ℤ :=
  if c.month ≤ 2 then yearStart (c.year - 1) + monthStart (c.month + 9) + c.day - 1 - epoch
  else yearStart c.year + monthStart (c.month - 3) + c.day - 1 - epoch

/-- The days before a year, by its place in the periods. -/
theorem yearStart_eq {era century four year : ℤ} (hc : 0 ≤ century ∧ century ≤ 3)
    (hf : 0 ≤ four ∧ four ≤ 24) (hy : 0 ≤ year ∧ year ≤ 3) :
    yearStart (400 * era + 100 * century + 4 * four + year) =
      146097 * era + 36524 * century + 1461 * four + 365 * year := by
  have h4 : (400 * era + 100 * century + 4 * four + year) / 4 =
      100 * era + 25 * century + four := by omega
  have h100 : (400 * era + 100 * century + 4 * four + year) / 100 = 4 * era + century := by omega
  have h400 : (400 * era + 100 * century + 4 * four + year) / 400 = era := by omega
  rw [yearStart, h4, h100, h400]
  omega

theorem splitYear_spec (z : ℤ) :
    yearStart (splitYear z).1 + (splitYear z).2 = z ∧
      0 ≤ (splitYear z).2 ∧ (splitYear z).2 ≤ 365 := by
  have hz : 146097 * (z / 146097) + z % 146097 = z := Int.mul_ediv_add_emod z 146097
  have hr : 0 ≤ z % 146097 ∧ z % 146097 < 146097 := by omega
  unfold splitYear
  dsimp only
  generalize z / 146097 = era at hz ⊢
  generalize z % 146097 = r at hz hr ⊢
  -- the last day of a long period belongs to its last part
  obtain ⟨c, hc⟩ : ∃ c, min (r / 36524) 3 = c := ⟨_, rfl⟩
  obtain ⟨r₁, hr₁⟩ : ∃ r₁, r - c * 36524 = r₁ := ⟨_, rfl⟩
  obtain ⟨f, hf⟩ : ∃ f, min (r₁ / 1461) 24 = f := ⟨_, rfl⟩
  obtain ⟨r₂, hr₂⟩ : ∃ r₂, r₁ - f * 1461 = r₂ := ⟨_, rfl⟩
  obtain ⟨y, hy⟩ : ∃ y, min (r₂ / 365) 3 = y := ⟨_, rfl⟩
  rw [hc, hr₁, hf, hr₂, hy]
  have h1 : (0 ≤ c ∧ c ≤ 3) ∧ 0 ≤ r₁ ∧ r₁ ≤ 36524 := by omega
  have h2 : (0 ≤ f ∧ f ≤ 24) ∧ 0 ≤ r₂ ∧ r₂ ≤ 1460 := by omega
  have h3 : (0 ≤ y ∧ y ≤ 3) ∧ 0 ≤ r₂ - y * 365 ∧ r₂ - y * 365 ≤ 365 := by omega
  refine ⟨?_, h3.2⟩
  rw [yearStart_eq h1.1 h2.1 h3.1]
  omega

theorem ofDay_spec (z : ℤ) :
    dayNumber (ofDay z) = z ∧ 1 ≤ (ofDay z).month ∧ (ofDay z).month ≤ 12 := by
  obtain ⟨hz, h0, h1⟩ := splitYear_spec (z + epoch)
  obtain ⟨y, hy⟩ : ∃ y, (splitYear (z + epoch)).1 = y := ⟨_, rfl⟩
  obtain ⟨r, hr⟩ : ∃ r, (splitYear (z + epoch)).2 = r := ⟨_, rfl⟩
  obtain ⟨mp, hmp⟩ : ∃ mp, (5 * r + 2) / 153 = mp := ⟨_, rfl⟩
  have hdate : ofDay z = ⟨if mp < 10 then y else y + 1, if mp < 10 then mp + 3 else mp - 9,
      r - monthStart mp + 1⟩ := by
    rw [← hmp, ← hr, ← hy]
    rfl
  rw [hy, hr] at hz
  rw [hr] at h0 h1
  by_cases h : mp < 10
  · rw [if_pos h, if_pos h] at hdate
    rw [hdate, dayNumber, if_neg (by dsimp only; omega)]
    dsimp only
    rw [Int.add_sub_cancel]
    exact ⟨by omega, by omega, by omega⟩
  · rw [if_neg h, if_neg h] at hdate
    rw [hdate, dayNumber, if_pos (by dsimp only; omega)]
    dsimp only
    rw [Int.add_sub_cancel, Int.sub_add_cancel]
    exact ⟨by omega, by omega, by omega⟩

theorem dayNumber_ofDay (z : ℤ) : dayNumber (ofDay z) = z := (ofDay_spec z).1

theorem month_ofDay (z : ℤ) : 1 ≤ (ofDay z).month ∧ (ofDay z).month ≤ 12 := (ofDay_spec z).2

theorem day_ofDay (z : ℤ) : 1 ≤ (ofDay z).day ∧ (ofDay z).day ≤ 31 := by
  obtain ⟨-, h0, h1⟩ := splitYear_spec (z + epoch)
  show 1 ≤ (splitYear (z + epoch)).2 - monthStart ((5 * (splitYear (z + epoch)).2 + 2) / 153) + 1 ∧
    (splitYear (z + epoch)).2 - monthStart ((5 * (splitYear (z + epoch)).2 + 2) / 153) + 1 ≤ 31
  unfold monthStart
  omega

theorem ofDay_inj {z z' : ℤ} : ofDay z = ofDay z' ↔ z = z' := by
  refine ⟨fun h => ?_, fun h => h ▸ rfl⟩
  rw [← dayNumber_ofDay z, h, dayNumber_ofDay]

example : ofDay 0 = ⟨1970, 1, 1⟩ := by decide

example : (List.map ofDay [11016, 17606, -719162]) = [⟨2000, 2, 29⟩, ⟨2018, 3, 16⟩, ⟨1, 1, 1⟩] := by
  decide

end Civil

end AghOs
