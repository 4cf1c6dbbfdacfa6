import Columnar.Proofs.Calendar.DayNumber

/-!
Dates are found from their numbers by dividing by the lengths of the cycles. What is left of a
year is right as soon as year and day of the year are; these come out of the divisions, where the
last day of a long cycle has to be counted to the shorter one before it.
-/
namespace Columnar.EpochDay

/-- The table of the days before each month agrees with the sum of the months. -/
theorem cumulativeDays_eq (year : Int) {month : Nat} (h : month ≤ 12) :
    (cumulativeDays (isLeapYear year)).getD month 0 = daysBeforeMonth year (month + 1) := by
  simp only [cumulativeDays, daysBeforeMonth, daysInMonth]
  cases isLeapYear year <;> revert month <;> decide

/-- Going back from a month that is not too early ends in the month of the day. -/
theorem monthDayFrom_spec (leap : Bool) (dayOfYear guess : Nat)
    (hguess : dayOfYear < (cumulativeDays leap).getD (guess + 1) 0) :
    ∃ month ≤ guess, monthDayFrom leap dayOfYear guess =
        (month + 1, dayOfYear - (cumulativeDays leap).getD month 0 + 1) ∧
      (cumulativeDays leap).getD month 0 ≤ dayOfYear ∧
      dayOfYear < (cumulativeDays leap).getD (month + 1) 0 := by
  induction guess with
  | zero =>
    have hzero : (cumulativeDays leap).getD 0 0 = 0 := by cases leap <;> rfl
    exact ⟨0, Nat.le_refl 0, by rw [monthDayFrom, hzero, Nat.sub_zero], by rw [hzero]; omega, hguess⟩
  | succ guess ih =>
    rw [monthDayFrom]
    split
    · next hbefore =>
      obtain ⟨month, hle, hrest⟩ := ih hbefore
      exact ⟨month, by omega, hrest⟩
    · next hbefore => exact ⟨guess + 1, Nat.le_refl _, rfl, Nat.not_lt.mp hbefore, hguess⟩

/-- The first guess is a month after the right one only if the day is no day of its own month. -/
theorem monthDay_eq (leap : Bool) {dayOfYear : Nat}
    (h : dayOfYear < (cumulativeDays leap).getD 12 0) :
    ∃ guess ≤ 11, monthDay leap dayOfYear = monthDayFrom leap dayOfYear guess ∧
      dayOfYear < (cumulativeDays leap).getD (guess + 1) 0 := by
  have hyear : (cumulativeDays leap).getD 12 0 ≤ 366 := by cases leap <;> decide
  by_cases hlast : dayOfYear / 32 = 11
  · refine ⟨11, Nat.le_refl 11, ?_, h⟩
    rw [monthDay, hlast, monthDayFrom]
    exact if_pos h
  · have hlate (guess : Nat) (hguess : guess ≤ 10) :
        32 * (guess + 1) ≤ (cumulativeDays leap).getD (guess + 1 + 1) 0 := by
      revert guess
      cases leap <;> decide
    have hguess := hlate (dayOfYear / 32) (by omega)
    exact ⟨dayOfYear / 32 + 1, by omega, rfl, by omega⟩

/-- The day exists and has the given number. -/
def IsDateOf (d : YearMonthDay) (days : Int) : Prop := d.IsValid ∧ d.dayNumber = days

/-- The day of a year with the given number, counted from zero. -/
def ofYearDay (year : Int) (leap : Bool) (dayOfYear : Nat) : YearMonthDay :=
  ⟨year, (monthDay leap dayOfYear).1, (monthDay leap dayOfYear).2⟩

/-- A date is right if its year is, with its leap day, and the day of the year. -/
theorem isDateOf_ofYearDay {year days : Int} {leap : Bool} {dayOfYear : Nat}
    (hleap : isLeapYear year = leap) (hlength : dayOfYear < if leap then 366 else 365)
    (hdays : daysBeforeYear year + dayOfYear = days) :
    IsDateOf (ofYearDay year leap dayOfYear) days := by
  subst hleap
  have hyear : (cumulativeDays (isLeapYear year)).getD 12 0 = daysInYear year :=
    cumulativeDays_eq year (Nat.le_refl 12)
  have hday : dayOfYear < (cumulativeDays (isLeapYear year)).getD 12 0 := by
    rw [hyear, daysInYear_eq]
    exact hlength
  obtain ⟨guess, hguess, hfirst, hlate⟩ := monthDay_eq (isLeapYear year) hday
  obtain ⟨month, hmonth, hfrom, hbegin, hend⟩ := monthDayFrom_spec _ _ guess hlate
  have hmonthLength := daysBeforeMonth_succ year (Nat.le_add_left 1 month)
  rw [cumulativeDays_eq year (by omega)] at hfrom hbegin hend
  simp only [IsDateOf, ofYearDay, hfirst, hfrom, YearMonthDay.IsValid, YearMonthDay.dayNumber]
  omega

/-- The last day of four years is the last of the fourth. -/
theorem splitFourYears_spec {day year dayOfYear : Nat} (hday : day < 1461)
    (h : splitFourYears day = (year, dayOfYear)) :
    year ≤ 3 ∧ 365 * year + dayOfYear = day ∧
      (dayOfYear < 365 ∨ year = 3 ∧ dayOfYear = 365) := by
  rw [splitFourYears] at h
  split at h <;> cases h <;> omega

/-- The last day of four centuries is the last of the fourth. -/
theorem splitFourCenturies_spec {day century dayOfCentury : Nat} (hday : day < 146097)
    (h : splitFourCenturies day = (century, dayOfCentury)) :
    century ≤ 3 ∧ 36524 * century + dayOfCentury = day ∧
      (dayOfCentury < 36524 ∨ century = 3 ∧ dayOfCentury = 36524) := by
  rw [splitFourCenturies] at h
  split at h <;> cases h <;> omega

/-- Four-year cycles are enough while no leap year is left out. -/
theorem isDateOf_recentDate {days : Int} (hfirst : 0 ≤ days) (hlast : days < recentEnd) :
    IsDateOf (recentDate days) days := by
  rw [recentEnd] at hlast
  rcases hsplit : splitFourYears ((days + 365).toNat % 1461) with ⟨year, dayOfYear⟩
  obtain ⟨hyear, hday, hlength⟩ := splitFourYears_spec (Nat.mod_lt _ (by decide)) hsplit
  have hdate : recentDate days =
      ofYearDay (1969 + (4 * ((days + 365).toNat / 1461) + year : Nat)) (year = 3) dayOfYear := by
    simp only [recentDate, hsplit, ofYearDay]
  rw [hdate]
  generalize hcycle : (days + 365).toNat / 1461 = cycle
  -- so the only century that begins among these years is that of 2000, a leap year
  have hlate : 4 * cycle + year ≤ 130 := by omega
  apply isDateOf_ofYearDay
  · rw [isLeapYear, decide_eq_decide]
    omega
  · simp only [decide_eq_true_eq]
    split <;> omega
  · have hcenturies : (1969 + (4 * cycle + year : Nat) - 1 : Int) / 100 -
        (1969 + (4 * cycle + year : Nat) - 1 : Int) / 400 = 15 := by omega
    rw [daysBeforeYear_eq]
    omega

/-- The leap year at the end of a century counts only in the last century of four. -/
theorem isDateOf_anyDate (days : Int) : IsDateOf (anyDate days) days := by
  rcases hcenturies : splitFourCenturies ((days + 134774) % 146097).toNat with
    ⟨century, dayOfCentury⟩
  obtain ⟨hcentury, hdayOfCentury, hcenturyLength⟩ :=
    splitFourCenturies_spec (by omega) hcenturies
  rcases hyears : splitFourYears (dayOfCentury % 1461) with ⟨year, dayOfYear⟩
  obtain ⟨hyear, hday, hlength⟩ := splitFourYears_spec (Nat.mod_lt _ (by decide)) hyears
  have hdate : anyDate days =
      ofYearDay (1601 + 400 * ((days + 134774) / 146097) +
          (100 * century + 4 * (dayOfCentury / 1461) + year : Nat))
        (year = 3 ∧ (dayOfCentury / 1461 ≠ 24 ∨ century = 3)) dayOfYear := by
    simp only [anyDate, hcenturies, hyears, ofYearDay]
  rw [hdate]
  generalize hcycle : dayOfCentury / 1461 = cycle
  generalize hround : (days + 134774) / 146097 = round
  have hlate : cycle ≤ 24 := by omega
  apply isDateOf_ofYearDay
  · rw [isLeapYear, decide_eq_decide]
    omega
  · simp only [decide_eq_true_eq]
    split <;> omega
  · generalize hbefore : (1601 + 400 * round + (100 * century + 4 * cycle + year : Nat) : Int) - 1 =
      before
    have hleaps : before / 4 = 400 + 100 * round + 25 * century + cycle ∧
        before / 100 = 16 + 4 * round + century ∧ before / 400 = 4 + round := by omega
    rw [daysBeforeYear_eq, hbefore]
    omega

end Columnar.EpochDay
