import Columnar.Proofs.Calendar.Cycles
import Columnar.Proofs.Checked.Machine

/-!
Dates and timestamps in checked operations. Every intermediate number of the calendar and of the
tick scales fits its type, the search for the month stays inside its table, and so each conversion
gives what it gives in unbounded numbers, for every number that a column can hold.
-/
namespace Columnar.Checked

namespace EpochDay

/-- Year of a four-year cycle and day of that year. -/
def splitFourYears (day : Int) : Option (Int × Nat) :=
  let year := day.tdiv 365
  if year = 4 then some (3, 365)
  else do
    let before ← int64 (year * 365)
    let left ← int64 (day - before)
    let dayOfYear ← nat32 left
    return (year, dayOfYear)

/-- Goes back to the month in which a day of the year lies, counted from zero. -/
def monthFrom (table : List Nat) (dayOfYear : Nat) : (guess : Nat) → Option Nat
  | 0 => do
    let before ← table[0]?
    if dayOfYear < before then none else return 0
  | guess + 1 => do
    let before ← table[guess + 1]?
    if dayOfYear < before then monthFrom table dayOfYear guess else return guess + 1

/-- Month and day of the month. -/
def monthDay (leap : Bool) (dayOfYear : Nat) : Option (Nat × Nat) := do
  let guess ← nat32 (dayOfYear / 32 + 1)
  let month ← monthFrom (cumulativeDays leap) dayOfYear guess
  let before ← (cumulativeDays leap)[month]?
  let number ← nat32 (month + 1)
  let left ← nat32 (dayOfYear - before)
  let day ← nat32 (left + 1)
  return (number, day)

/-- The date of a day between 1970-01-01 and 2099-12-31. -/
def recentDate (days : Int) : Option YearMonthDay := do
  let shifted ← int64 (days + 365)
  let (yearInCycle, dayOfYear) ← splitFourYears (shifted.tmod 1461)
  let before ← int64 (4 * shifted.tdiv 1461)
  let first ← int64 (1969 + before)
  let year ← int64 (first + yearInCycle)
  let (month, day) ← monthDay (yearInCycle = 3) dayOfYear
  let year ← int32 year
  return ⟨year, month, day⟩

/-- Century of a 400-year cycle and day of that century. -/
def splitFourCenturies (day : Int) : Option (Int × Int) :=
  let century := day.tdiv 36524
  if century = 4 then some (3, 36524)
  else do
    let before ← int64 (century * 36524)
    let dayOfCentury ← int64 (day - before)
    return (century, dayOfCentury)

/-- The date of any day. -/
def anyDate (days : Int) : Option YearMonthDay := do
  let shifted ← int64 (days + 134774)
  let cycles ← quotient shifted 146097
  let day ← remainder shifted 146097
  let (century, dayOfCentury) ← splitFourCenturies day
  let cycle := dayOfCentury.tdiv 1461
  let (yearInCycle, dayOfYear) ← splitFourYears (dayOfCentury.tmod 1461)
  let long ← int64 (400 * cycles)
  let year ← int64 (1601 + long)
  let centuries ← int64 (100 * century)
  let year ← int64 (year + centuries)
  let short ← int64 (4 * cycle)
  let year ← int64 (year + short)
  let year ← int64 (year + yearInCycle)
  let (month, day) ← monthDay (yearInCycle = 3 ∧ (cycle ≠ 24 ∨ century = 3)) dayOfYear
  let year ← int32 year
  return ⟨year, month, day⟩

/-- The date of a day number in the supported range. -/
def date (days : Int) : Option (Except DecodeError Date) :=
  if days < EpochDay.first ∨ EpochDay.last < days then some (.error (.dateOutOfRange days))
  else do
    let d ← if 0 ≤ days ∧ days < EpochDay.recentEnd then recentDate days else anyDate days
    return match Date.ofYearMonthDay? d with
      | some date => .ok date
      | none => .error (.dateOutOfRange days)

theorem getElem?_cumulativeDays (leap : Bool) {month : Nat} (h : month ≤ 12) :
    (cumulativeDays leap)[month]? = some ((cumulativeDays leap).getD month 0) := by
  have hlength : (cumulativeDays leap).length = 13 := by cases leap <;> rfl
  rw [List.getD_eq_getElem?_getD, List.getElem?_eq_getElem (by omega)]
  rfl

/-- The search ends at a month that begins no later than the day, at the first one if need be. -/
theorem monthFrom_eq (leap : Bool) (dayOfYear : Nat) {guess : Nat} (hguess : guess ≤ 12) :
    ∃ month ≤ guess, monthFrom (cumulativeDays leap) dayOfYear guess = some month ∧
      (cumulativeDays leap).getD month 0 ≤ dayOfYear ∧
      Columnar.EpochDay.monthDayFrom leap dayOfYear guess =
        (month + 1, dayOfYear - (cumulativeDays leap).getD month 0 + 1) := by
  induction guess with
  | zero =>
    have hzero : (cumulativeDays leap).getD 0 0 = 0 := by cases leap <;> rfl
    refine ⟨0, Nat.le_refl 0, ?_, by rw [hzero]; exact Nat.zero_le _, ?_⟩
    · rw [monthFrom, getElem?_cumulativeDays leap hguess, hzero]
      rfl
    · rw [Columnar.EpochDay.monthDayFrom, hzero, Nat.sub_zero]
  | succ guess ih =>
    rw [monthFrom, getElem?_cumulativeDays leap hguess, Columnar.EpochDay.monthDayFrom]
    simp only [Option.bind_eq_bind, Option.bind_some]
    by_cases hbefore : dayOfYear < (cumulativeDays leap).getD (guess + 1) 0
    · obtain ⟨month, hmonth, hfound⟩ := ih (Nat.le_of_succ_le hguess)
      rw [if_pos hbefore, if_pos hbefore]
      exact ⟨month, Nat.le_succ_of_le hmonth, hfound⟩
    · rw [if_neg hbefore, if_neg hbefore]
      exact ⟨guess + 1, Nat.le_refl _, rfl, Nat.not_lt.mp hbefore, rfl⟩

theorem monthDay_eq (leap : Bool) {dayOfYear : Nat} (h : dayOfYear ≤ 366) :
    monthDay leap dayOfYear = some (Columnar.EpochDay.monthDay leap dayOfYear) := by
  have hguess : dayOfYear / 32 + 1 ≤ 12 := by omega
  obtain ⟨month, hmonth, hfound, hbegin, hmodel⟩ := monthFrom_eq leap dayOfYear hguess
  rw [Columnar.EpochDay.monthDay, hmodel]
  have hindex := getElem?_cumulativeDays leap (Nat.le_trans hmonth hguess)
  generalize (cumulativeDays leap).getD month 0 = before at hbegin hindex ⊢
  have hguessed : nat32 (dayOfYear / 32 + 1) = some (dayOfYear / 32 + 1) :=
    nat32_eq (by omega) (by omega)
  have hnumber : nat32 (month + 1) = some (month + 1) := nat32_eq rfl (by omega)
  have hleft : nat32 (dayOfYear - before) = some (dayOfYear - before) :=
    nat32_eq (by omega) (by omega)
  have hday : nat32 ((dayOfYear - before : Nat) + 1) = some (dayOfYear - before + 1) :=
    nat32_eq rfl (by omega)
  exact andThen hguessed (andThen hfound (andThen hindex
    (andThen hnumber (andThen hleft (andThen hday rfl)))))

theorem splitFourYears_eq {day year dayOfYear : Nat} (h : day < 1461)
    (hsplit : Columnar.EpochDay.splitFourYears day = (year, dayOfYear)) :
    splitFourYears day = some ((year : Int), dayOfYear) := by
  have hyear : (day : Int).tdiv 365 = (day / 365 : Nat) := rfl
  rw [Columnar.EpochDay.splitFourYears] at hsplit
  simp only [splitFourYears, hyear]
  by_cases hlast : day / 365 = 4
  · rw [if_pos hlast] at hsplit
    obtain ⟨rfl, rfl⟩ := Prod.mk.inj hsplit
    exact if_pos (by omega)
  · rw [if_neg hlast] at hsplit
    obtain ⟨rfl, rfl⟩ := Prod.mk.inj hsplit
    rw [if_neg (by omega)]
    have hbefore : int64 ((day / 365 : Nat) * 365) = some ((day / 365 * 365 : Nat) : Int) :=
      int64_eq (by omega) (by omega) (by omega)
    have hleft : int64 (day - (day / 365 * 365 : Nat)) = some ((day % 365 : Nat) : Int) :=
      int64_eq (by omega) (by omega) (by omega)
    have hday : nat32 ((day % 365 : Nat) : Int) = some (day % 365) := nat32_eq rfl (by omega)
    exact andThen hbefore (andThen hleft (andThen hday rfl))

theorem splitFourCenturies_eq {day century dayOfCentury : Nat} (h : day < 146097)
    (hsplit : Columnar.EpochDay.splitFourCenturies day = (century, dayOfCentury)) :
    splitFourCenturies day = some ((century : Int), (dayOfCentury : Int)) := by
  have hcentury : (day : Int).tdiv 36524 = (day / 36524 : Nat) := rfl
  rw [Columnar.EpochDay.splitFourCenturies] at hsplit
  simp only [splitFourCenturies, hcentury]
  by_cases hlast : day / 36524 = 4
  · rw [if_pos hlast] at hsplit
    obtain ⟨rfl, rfl⟩ := Prod.mk.inj hsplit
    exact if_pos (by omega)
  · rw [if_neg hlast] at hsplit
    obtain ⟨rfl, rfl⟩ := Prod.mk.inj hsplit
    rw [if_neg (by omega)]
    have hbefore : int64 ((day / 36524 : Nat) * 36524) = some ((day / 36524 * 36524 : Nat) : Int) :=
      int64_eq (by omega) (by omega) (by omega)
    have hleft : int64 (day - (day / 36524 * 36524 : Nat)) = some ((day % 36524 : Nat) : Int) :=
      int64_eq (by omega) (by omega) (by omega)
    exact andThen hbefore (andThen hleft rfl)

theorem recentDate_eq {days : Int} (hfirst : 0 ≤ days)
    (hlast : days < Columnar.EpochDay.recentEnd) :
    recentDate days = some (Columnar.EpochDay.recentDate days) := by
  rw [Columnar.EpochDay.recentEnd] at hlast
  obtain ⟨shifted, hshifted⟩ : ∃ shifted : Nat, days + 365 = shifted :=
    ⟨(days + 365).toNat, by omega⟩
  rcases hsplit : Columnar.EpochDay.splitFourYears (shifted % 1461) with ⟨year, dayOfYear⟩
  have hrange : shifted % 1461 < 1461 := Nat.mod_lt _ (by decide)
  obtain ⟨hyear, hday, hlength⟩ := Columnar.EpochDay.splitFourYears_spec hrange hsplit
  simp only [Columnar.EpochDay.recentDate, hshifted, Int.toNat_natCast, hsplit]
  have hparts : splitFourYears ((shifted : Int).tmod 1461) = some ((year : Int), dayOfYear) :=
    splitFourYears_eq hrange hsplit
  have hcycle : (shifted : Int).tdiv 1461 = (shifted / 1461 : Nat) := rfl
  have hcycle32 : shifted / 1461 ≤ 32 := by omega
  generalize shifted / 1461 = cycle at hcycle hcycle32 ⊢
  have hstart : int64 (days + 365) = some (shifted : Int) :=
    int64_eq hshifted (by omega) (by omega)
  have hcycles : int64 (4 * (shifted : Int).tdiv 1461) = some ((4 * cycle : Nat) : Int) :=
    int64_eq (by omega) (by omega) (by omega)
  have hbefore : int64 (1969 + (4 * cycle : Nat)) = some ((1969 + 4 * cycle : Nat) : Int) :=
    int64_eq (by omega) (by omega) (by omega)
  have hsum : int64 ((1969 + 4 * cycle : Nat) + year) =
      some (1969 + (4 * cycle + year : Nat)) :=
    int64_eq (by omega) (by omega) (by omega)
  have hmonth := monthDay_eq ((year : Int) = 3) (show dayOfYear ≤ 366 by omega)
  have hyear32 : int32 (1969 + (4 * cycle + year : Nat)) =
      some (1969 + (4 * cycle + year : Nat)) :=
    int32_eq (by omega) (by omega)
  have hleap : decide ((year : Int) = 3) = decide (year = 3) := decide_eq_decide.mpr (by omega)
  rw [hleap] at hmonth
  refine andThen hstart (andThen hparts (andThen hcycles (andThen hbefore (andThen hsum ?_))))
  rw [hleap]
  exact andThen hmonth (andThen hyear32 rfl)

/-- A year is one of its 400-year cycle. -/
theorem year_anyDate (days : Int) :
    1601 + 400 * ((days + 134774) / 146097) ≤ (Columnar.EpochDay.anyDate days).year ∧
      (Columnar.EpochDay.anyDate days).year < 2101 + 400 * ((days + 134774) / 146097) := by
  have hday : ((days + 134774) % 146097).toNat < 146097 := by omega
  rcases hcenturies : Columnar.EpochDay.splitFourCenturies ((days + 134774) % 146097).toNat with
    ⟨century, dayOfCentury⟩
  obtain ⟨hcentury, hcut, _⟩ := Columnar.EpochDay.splitFourCenturies_spec hday hcenturies
  rcases hyears : Columnar.EpochDay.splitFourYears (dayOfCentury % 1461) with ⟨year, dayOfYear⟩
  obtain ⟨hyear, _, _⟩ :=
    Columnar.EpochDay.splitFourYears_spec (Nat.mod_lt dayOfCentury (by decide)) hyears
  simp only [Columnar.EpochDay.anyDate, hcenturies, hyears]
  omega

/-- The general way stays within its types on every day whose year fits 32 bits. -/
theorem anyDate_eq {days : Int} (hlow : -0x80000000 ≤ (Columnar.EpochDay.anyDate days).year)
    (hhigh : (Columnar.EpochDay.anyDate days).year ≤ 0x7fffffff) :
    anyDate days = some (Columnar.EpochDay.anyDate days) := by
  have hlong : -5400000 ≤ (days + 134774) / 146097 ∧ (days + 134774) / 146097 ≤ 5400000 := by
    have hyear := year_anyDate days
    omega
  obtain ⟨day, hday⟩ : ∃ day : Nat, (days + 134774) % 146097 = day :=
    ⟨((days + 134774) % 146097).toNat, by omega⟩
  have hrange : day < 146097 := by omega
  rcases hcenturies : Columnar.EpochDay.splitFourCenturies day with ⟨century, dayOfCentury⟩
  obtain ⟨hcentury, _, _⟩ := Columnar.EpochDay.splitFourCenturies_spec hrange hcenturies
  have hcut : dayOfCentury % 1461 < 1461 := Nat.mod_lt _ (by decide)
  rcases hyears : Columnar.EpochDay.splitFourYears (dayOfCentury % 1461) with ⟨year, dayOfYear⟩
  obtain ⟨hyear, _, _⟩ := Columnar.EpochDay.splitFourYears_spec hcut hyears
  simp only [Columnar.EpochDay.anyDate, hday, Int.toNat_natCast, hcenturies, hyears]
    at hlow hhigh ⊢
  have hparts : splitFourYears ((dayOfCentury : Int).tmod 1461) = some ((year : Int), dayOfYear) :=
    splitFourYears_eq hcut hyears
  have hcycle : (dayOfCentury : Int).tdiv 1461 = (dayOfCentury / 1461 : Nat) := rfl
  have hcycle25 : dayOfCentury / 1461 ≤ 25 := by omega
  generalize dayOfCentury / 1461 = cycle at hcycle hcycle25 hlow hhigh ⊢
  have hstart : int64 (days + 134774) = some (days + 134774) :=
    int64_eq rfl (by omega) (by omega)
  have hquotient : quotient (days + 134774) 146097 = some ((days + 134774) / 146097) :=
    quotient_eq (by decide) (by omega) (by omega)
  have hremainder : remainder (days + 134774) 146097 = some (day : Int) := by
    rw [remainder_eq (by decide) (by omega) (by omega), hday]
  generalize (days + 134774) / 146097 = era at hlong hquotient hlow hhigh ⊢
  -- the sum of the year from left to right
  have hera : int64 (400 * era) = some (400 * era) := int64_eq rfl (by omega) (by omega)
  have hyear1 : int64 (1601 + 400 * era) = some (1601 + 400 * era) :=
    int64_eq rfl (by omega) (by omega)
  have hcenturies' : int64 (100 * century) = some (100 * century : Int) :=
    int64_eq rfl (by omega) (by omega)
  have hyear2 : int64 (1601 + 400 * era + 100 * century) =
      some (1601 + 400 * era + 100 * century) :=
    int64_eq rfl (by omega) (by omega)
  have hcycles : int64 (4 * (dayOfCentury : Int).tdiv 1461) = some (4 * cycle : Int) :=
    int64_eq (by omega) (by omega) (by omega)
  have hyear3 : int64 (1601 + 400 * era + 100 * century + 4 * cycle) =
      some (1601 + 400 * era + 100 * century + 4 * cycle) :=
    int64_eq rfl (by omega) (by omega)
  have hyear4 : int64 (1601 + 400 * era + 100 * century + 4 * cycle + year) =
      some (1601 + 400 * era + (100 * century + 4 * cycle + year : Nat)) :=
    int64_eq (by omega) (by omega) (by omega)
  have hcast : int32 (1601 + 400 * era + (100 * century + 4 * cycle + year : Nat)) =
      some (1601 + 400 * era + (100 * century + 4 * cycle + year : Nat)) :=
    int32_eq (by omega) (by omega)
  have hleap : decide ((year : Int) = 3 ∧ ((dayOfCentury : Int).tdiv 1461 ≠ 24 ∨ (century : Int) = 3)) =
      decide (year = 3 ∧ (cycle ≠ 24 ∨ century = 3)) := decide_eq_decide.mpr (by omega)
  have hmonth := monthDay_eq (year = 3 ∧ (cycle ≠ 24 ∨ century = 3)) (show dayOfYear ≤ 366 by omega)
  refine andThen hstart (andThen hquotient (andThen hremainder
    (andThen (splitFourCenturies_eq hrange hcenturies) (andThen hparts (andThen hera
      (andThen hyear1 (andThen hcenturies' (andThen hyear2 (andThen hcycles
        (andThen hyear3 (andThen hyear4 ?_)))))))))))
  rw [hleap]
  exact andThen hmonth (andThen hcast rfl)

/-- The calendar stays within its types on every day number. -/
theorem date_eq (days : Int) : date days = some (Columnar.EpochDay.date days) := by
  rw [date, Columnar.EpochDay.date, Columnar.EpochDay.dateBy, Columnar.EpochDay.yearMonthDay]
  by_cases hrange : days < EpochDay.first ∨ EpochDay.last < days
  · rw [if_pos hrange, if_pos hrange]
  · rw [if_neg hrange, if_neg hrange]
    by_cases hrecent : 0 ≤ days ∧ days < EpochDay.recentEnd
    · rw [if_pos hrecent, if_pos hrecent]
      refine andThen (recentDate_eq hrecent.1 hrecent.2) ?_
      dsimp only
      cases Date.ofYearMonthDay? (Columnar.EpochDay.recentDate days) <;> rfl
    · rw [if_neg hrecent, if_neg hrecent]
      have hyear := year_anyDate days
      rw [EpochDay.first, EpochDay.last] at hrange
      refine andThen (anyDate_eq (by omega) (by omega)) ?_
      dsimp only
      cases Date.ofYearMonthDay? (Columnar.EpochDay.anyDate days) <;> rfl

end EpochDay

namespace TickScale

/-- Ticks of `10 ^ -precision` seconds. -/
def ofPrecision (precision : Nat) : Option (Except DecodeError TickScale) :=
  if maxPrecision < precision then some (.error (.invalidPrecision precision))
  else do
    let ticks ← int64 (Nat.pow 10 precision)
    let digits ← nat32 (maxPrecision - precision)
    let nanos ← int64 (Nat.pow 10 digits)
    return .ok ⟨ticks.toNat, nanos.toNat⟩

/-- Seconds and nanoseconds of a tick count. -/
def split (scale : TickScale) (ticks : Int) : Option (Int × Nat) := do
  let seconds ← quotient ticks scale.ticksPerSecond
  let left ← remainder ticks scale.ticksPerSecond
  let product ← int64 (left * scale.nanosPerTick)
  let nanos ← nat32 product
  return (seconds, nanos)

/-- The instant of a tick count. -/
def timestamp (scale : TickScale) (ticks : Int) : Option (Except DecodeError Timestamp) := do
  let seconds ← quotient ticks scale.ticksPerSecond
  let left ← remainder ticks scale.ticksPerSecond
  let product ← int64 (left * scale.nanosPerTick)
  let nanos ← nat32 product
  return Timestamp.of seconds nanos

theorem ofPrecision_eq (precision : Nat) :
    ofPrecision precision = some (Columnar.TickScale.ofPrecision precision) := by
  rw [ofPrecision, Columnar.TickScale.ofPrecision]
  by_cases hlarge : maxPrecision < precision
  · rw [if_pos hlarge, if_pos hlarge]
  · rw [if_neg hlarge, if_neg hlarge]
    rw [maxPrecision] at hlarge
    have hpow (digits : Nat) (h : digits ≤ 9) : Nat.pow 10 digits ≤ 1000000000 :=
      Nat.pow_le_pow_right (by decide) h
    have hticks := hpow precision (by omega)
    have hnanos := hpow (maxPrecision - precision) (by rw [maxPrecision]; omega)
    have hfirst : int64 (Nat.pow 10 precision) = some (Nat.pow 10 precision : Int) :=
      int64_eq rfl (by omega) (by omega)
    have hdigits : nat32 (maxPrecision - precision) = some (maxPrecision - precision) :=
      nat32_eq (by rw [maxPrecision]; omega) (by rw [maxPrecision]; omega)
    have hsecond : int64 (Nat.pow 10 (maxPrecision - precision)) =
        some (Nat.pow 10 (maxPrecision - precision) : Int) :=
      int64_eq rfl (by omega) (by omega)
    exact andThen hfirst (andThen hdigits (andThen hsecond rfl))

/-- A scale divides a second into whole ticks of whole nanoseconds. -/
def IsExact (scale : TickScale) : Prop := scale.ticksPerSecond * scale.nanosPerTick = 1000000000

theorem isExact_ofPrecision {precision : Nat} {scale : TickScale}
    (h : Columnar.TickScale.ofPrecision precision = .ok scale) : IsExact scale := by
  rw [Columnar.TickScale.ofPrecision] at h
  split at h
  · cases h
  · next hsmall =>
    cases h
    rw [maxPrecision] at hsmall
    have hsum : precision + (maxPrecision - precision) = 9 := by
      rw [maxPrecision]
      omega
    have hpow : Nat.pow 10 precision * Nat.pow 10 (maxPrecision - precision) =
        Nat.pow 10 (precision + (maxPrecision - precision)) :=
      (Nat.pow_add 10 precision (maxPrecision - precision)).symm
    rw [hsum] at hpow
    exact hpow

/-- A scale stays within its types on every tick count of 64 bits. -/
theorem split_eq {scale : TickScale} (hexact : IsExact scale) {ticks : Int}
    (hlow : -0x8000000000000000 ≤ ticks) (hhigh : ticks ≤ 0x7fffffffffffffff) :
    split scale ticks = some (scale.split ticks) := by
  obtain ⟨perSecond, perTick⟩ := scale
  replace hexact : perSecond * perTick = 1000000000 := hexact
  have hpos : 0 < perSecond := by
    refine Nat.pos_of_ne_zero fun hzero => ?_
    rw [hzero, Nat.zero_mul] at hexact
    cases hexact
  obtain ⟨left, hleft⟩ : ∃ left : Nat, ticks % perSecond = left :=
    ⟨(ticks % perSecond).toNat, (Int.toNat_of_nonneg (Int.emod_nonneg _ (by omega))).symm⟩
  have hless : left < perSecond := by
    have hmod := Int.emod_lt_of_pos ticks (show (0 : Int) < perSecond by omega)
    omega
  have hsecond : left * perTick ≤ 1000000000 := by
    rw [← hexact]
    exact Nat.mul_le_mul_right perTick (Nat.le_of_lt hless)
  have hle : perSecond ≤ 1000000000 := Nat.le_of_dvd (by omega) (Dvd.intro perTick hexact)
  have hquotient : quotient ticks perSecond = some (ticks / perSecond) :=
    quotient_eq (by omega) (Int.le_ediv_of_mul_le (by omega) (by omega))
      (Int.ediv_le_of_le_mul (by omega) (by omega))
  have hremainder : remainder ticks perSecond = some (left : Int) := by
    rw [remainder_eq (by omega) (by omega) (by omega), hleft]
  have hproduct : int64 (left * perTick) = some ((left * perTick : Nat) : Int) :=
    int64_eq (by simp) (by omega) (by omega)
  have hnanos : nat32 ((left * perTick : Nat) : Int) = some (left * perTick) :=
    nat32_eq rfl (by omega)
  rw [Columnar.TickScale.split, hleft]
  exact andThen hquotient (andThen hremainder (andThen hproduct (andThen hnanos rfl)))

theorem timestamp_eq {scale : TickScale} (hexact : IsExact scale) {ticks : Int}
    (hlow : -0x8000000000000000 ≤ ticks) (hhigh : ticks ≤ 0x7fffffffffffffff) :
    timestamp scale ticks = some (scale.timestamp ticks) := by
  have hmap : timestamp scale ticks =
      (split scale ticks).map fun parts => Timestamp.of parts.1 parts.2 := by
    simp [timestamp, split, Option.map_bind]
  rw [hmap, split_eq hexact hlow hhigh]
  rfl

end TickScale

end Columnar.Checked
