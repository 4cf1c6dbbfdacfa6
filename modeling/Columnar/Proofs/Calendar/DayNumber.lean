import Mathlib.Algebra.BigOperators.Intervals
import Mathlib.Algebra.Order.BigOperators.Group.Finset
import Columnar.Calendar

/-!
The day number of a date, counted from 1970-01-01 by adding up the lengths of years and months. It
goes up by one from each day to the next, so it grows with the calendar order and no two days share
one. Nothing here knows how a date is found from its number.
-/
namespace Columnar

open Finset

/-- The days of a year before the given month. -/
def daysBeforeMonth (year : Int) (month : Nat) : Nat := ∑ m ∈ Ico 1 month, daysInMonth year m

/-- The length of a year, which is that of its twelve months. -/
def daysInYear (year : Int) : Nat := daysBeforeMonth year 13

/-- The days from the beginning of 1970 to that of the given year, negative for earlier years. -/
def daysBeforeYear (year : Int) : Int :=
  ∑ n ∈ range (year - 1970).toNat, (daysInYear (1970 + n) : Int) -
    ∑ n ∈ range (1970 - year).toNat, (daysInYear (1969 - n) : Int)

theorem daysBeforeMonth_one (year : Int) : daysBeforeMonth year 1 = 0 := rfl

theorem daysBeforeMonth_succ (year : Int) {month : Nat} (h : 1 ≤ month) :
    daysBeforeMonth year (month + 1) = daysBeforeMonth year month + daysInMonth year month :=
  sum_Ico_succ_top h _

theorem daysInYear_eq (year : Int) : daysInYear year = if isLeapYear year then 366 else 365 := by
  simp only [daysInYear, daysBeforeMonth, daysInMonth]
  cases isLeapYear year <;> decide

theorem daysBeforeYear_succ (year : Int) :
    daysBeforeYear (year + 1) = daysBeforeYear year + daysInYear year := by
  by_cases h : 1970 ≤ year
  · have hcount : (year + 1 - 1970).toNat = (year - 1970).toNat + 1 := by omega
    have hyear : 1970 + ((year - 1970).toNat : Int) = year := by omega
    have hnone : (1970 - (year + 1)).toNat = 0 ∧ (1970 - year).toNat = 0 := by omega
    simp only [daysBeforeYear, hcount, hnone, sum_range_succ, hyear, sum_range_zero]
    omega
  · have hcount : (1970 - year).toNat = (1970 - (year + 1)).toNat + 1 := by omega
    have hyear : 1969 - ((1970 - (year + 1)).toNat : Int) = year := by omega
    have hnone : (year + 1 - 1970).toNat = 0 ∧ (year - 1970).toNat = 0 := by omega
    simp only [daysBeforeYear, hcount, hnone, sum_range_succ, hyear, sum_range_zero]
    omega

/-- The years have 365 days each, and one more for every leap year that went by. -/
theorem daysBeforeYear_eq (year : Int) : daysBeforeYear year =
    365 * (year - 1970) + (year - 1) / 4 - (year - 1) / 100 + (year - 1) / 400 - 477 := by
  have hstep (year : Int) : (daysInYear year : Int) = 365 + (year / 4 - (year - 1) / 4) -
      (year / 100 - (year - 1) / 100) + (year / 400 - (year - 1) / 400) := by
    rw [daysInYear_eq, isLeapYear]
    by_cases hleap : year % 4 = 0 ∧ (year % 100 ≠ 0 ∨ year % 400 = 0)
    · rw [if_pos (decide_eq_true hleap)]
      omega
    · rw [if_neg (by simpa using hleap)]
      omega
  refine Int.inductionOn' year 1970 rfl ?_ ?_
  · intro year _ ih
    have hyear := hstep year
    rw [daysBeforeYear_succ, ih]
    omega
  · intro year _ ih
    have hyear := hstep (year - 1)
    have hsucc := daysBeforeYear_succ (year - 1)
    rw [Int.sub_add_cancel, ih] at hsucc
    omega

namespace YearMonthDay

/-- The days from 1970-01-01 to the given day. -/
def dayNumber (d : YearMonthDay) : Int :=
  daysBeforeYear d.year + daysBeforeMonth d.year d.month + d.day - 1

/-- The day after the given one. -/
def next (d : YearMonthDay) : YearMonthDay :=
  if d.day < daysInMonth d.year d.month then ⟨d.year, d.month, d.day + 1⟩
  else if d.month < 12 then ⟨d.year, d.month + 1, 1⟩
  else ⟨d.year + 1, 1, 1⟩

/-- The calendar order: by year, then by month, then by day. -/
def Before (d e : YearMonthDay) : Prop :=
  d.year < e.year ∨ d.year = e.year ∧ (d.month < e.month ∨ d.month = e.month ∧ d.day < e.day)

variable {d e : YearMonthDay}

theorem isValid_next (hd : d.IsValid) : d.next.IsValid := by
  obtain ⟨hmonth, hmonth', hday, hday'⟩ := hd
  have hfirst (year : Int) (month : Nat) : 1 ≤ daysInMonth year month := by
    rw [daysInMonth]
    split <;> split <;> omega
  rw [next]
  split
  · next hlast => exact ⟨hmonth, hmonth', Nat.le_add_left 1 d.day, hlast⟩
  · split
    · next hdecember => exact ⟨Nat.le_add_left 1 d.month, hdecember, Nat.le_refl 1, hfirst _ _⟩
    · exact ⟨Nat.le_refl 1, (by decide : 1 ≤ 12), Nat.le_refl 1, hfirst _ _⟩

/-- The end of a month is the beginning of the next, and that of December the end of the year. -/
theorem dayNumber_next (hd : d.IsValid) : d.next.dayNumber = d.dayNumber + 1 := by
  obtain ⟨hmonth, hmonth', hday, hday'⟩ := hd
  have hend := daysBeforeMonth_succ d.year hmonth
  rw [next]
  split
  · simp only [dayNumber]
    omega
  · next hlast =>
    split
    · next hdecember =>
      simp only [dayNumber]
      omega
    · next hdecember =>
      have htwelve : d.month = 12 := by omega
      rw [htwelve] at hend hday'
      simp only [dayNumber, daysBeforeYear_succ, daysInYear, daysBeforeMonth_one, htwelve, hend]
      rw [htwelve] at hlast
      omega

theorem daysBeforeMonth_le (year : Int) {month month' : Nat} (h : month ≤ month') :
    daysBeforeMonth year month ≤ daysBeforeMonth year month' :=
  sum_le_sum_of_subset (Ico_subset_Ico_right h)

theorem daysBeforeYear_le {year year' : Int} (h : year ≤ year') :
    daysBeforeYear year ≤ daysBeforeYear year' := by
  rw [daysBeforeYear_eq, daysBeforeYear_eq]
  omega

/-- A day lies in its month, and so in its year. -/
theorem dayNumber_bounds (hd : d.IsValid) :
    daysBeforeYear d.year + daysBeforeMonth d.year d.month ≤ d.dayNumber ∧
      d.dayNumber < daysBeforeYear d.year + daysBeforeMonth d.year (d.month + 1) ∧
      daysBeforeYear d.year ≤ d.dayNumber ∧ d.dayNumber < daysBeforeYear (d.year + 1) := by
  obtain ⟨hmonth, hmonth', hday, hday'⟩ := hd
  have hend := daysBeforeMonth_succ d.year hmonth
  have hyear : daysBeforeMonth d.year (d.month + 1) ≤ daysInYear d.year :=
    daysBeforeMonth_le d.year (by omega)
  rw [daysBeforeYear_succ, dayNumber]
  omega

theorem dayNumber_lt_of_before (hd : d.IsValid) (he : e.IsValid) (h : d.Before e) :
    d.dayNumber < e.dayNumber := by
  obtain ⟨_, hmonth, _, hyear⟩ := dayNumber_bounds hd
  obtain ⟨hmonth', _, hyear', _⟩ := dayNumber_bounds he
  rcases h with h | ⟨hsame, h | ⟨hsame', h⟩⟩
  · have hle : daysBeforeYear (d.year + 1) ≤ daysBeforeYear e.year := daysBeforeYear_le (by omega)
    omega
  · have hle : daysBeforeMonth d.year (d.month + 1) ≤ daysBeforeMonth d.year e.month :=
      daysBeforeMonth_le d.year (by omega)
    rw [← hsame] at hmonth'
    omega
  · simp only [dayNumber, hsame, hsame']
    omega

theorem eq_or_before (d e : YearMonthDay) : d = e ∨ d.Before e ∨ e.Before d := by
  obtain ⟨year, month, day⟩ := d
  obtain ⟨year', month', day'⟩ := e
  simp only [YearMonthDay.mk.injEq, Before]
  omega

/-- The order of the day numbers is the calendar order. -/
theorem dayNumber_lt_iff (hd : d.IsValid) (he : e.IsValid) :
    d.dayNumber < e.dayNumber ↔ d.Before e := by
  refine ⟨fun hlt => ?_, dayNumber_lt_of_before hd he⟩
  rcases eq_or_before d e with rfl | hbefore | hbefore
  · omega
  · exact hbefore
  · have hgt := dayNumber_lt_of_before he hd hbefore
    omega

/-- No two days have the same number. -/
theorem dayNumber_inj (hd : d.IsValid) (he : e.IsValid) :
    d.dayNumber = e.dayNumber ↔ d = e := by
  refine ⟨fun hsame => ?_, congrArg dayNumber⟩
  rcases eq_or_before d e with rfl | hbefore | hbefore
  · rfl
  · have hlt := dayNumber_lt_of_before hd he hbefore
    omega
  · have hgt := dayNumber_lt_of_before he hd hbefore
    omega

end YearMonthDay

end Columnar
