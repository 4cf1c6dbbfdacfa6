import Columnar.Fault

/-!
Dates of the proleptic Gregorian calendar and instants, both counted from 1970-01-01.

The calendar repeats after 400 years, that is 146097 days: four centuries of 36524 days and one day
more at the end, each century of four-year cycles of 1461 days with the leap year last. Counting
from 1601-01-01 puts all the long years at the ends of their cycles. From 1970 to 2099 no leap year
is left out, so there four-year cycles that count from 1969-01-01 suffice. The supported dates are
those of the years 1 to 9999.

Instants have seconds and nanoseconds. The seconds are rounded towards the past, so the nanoseconds
are never negative. The supported instants are those of the years -262143 to 262142.
-/
namespace Columnar

/-- Every fourth year is a leap year, except that of the years that end a century only every
fourth is. -/
def isLeapYear (year : Int) : Bool :=
  decide (year % 4 = 0 ∧ (year % 100 ≠ 0 ∨ year % 400 = 0))

/-- The days of the year before each month, and those of the whole year at the end. -/
def cumulativeDays (leap : Bool) : List Nat :=
  if leap then [0, 31, 60, 91, 121, 152, 182, 213, 244, 274, 305, 335, 366]
  else [0, 31, 59, 90, 120, 151, 181, 212, 243, 273, 304, 334, 365]

def daysInMonth (year : Int) (month : Nat) : Nat :=
  if month = 2 then (if isLeapYear year then 29 else 28)
  else if month ∈ [4, 6, 9, 11] then 30
  else 31

/-- A year, a month and a day of the month, whether there is such a day or not. -/
structure YearMonthDay where
  year : Int
  month : Nat
  day : Nat
  deriving DecidableEq, Repr

def YearMonthDay.IsValid (d : YearMonthDay) : Prop :=
  1 ≤ d.month ∧ d.month ≤ 12 ∧ 1 ≤ d.day ∧ d.day ≤ daysInMonth d.year d.month

instance (d : YearMonthDay) : Decidable d.IsValid := by
  unfold YearMonthDay.IsValid
  infer_instance

/-- A day that exists. -/
structure Date extends YearMonthDay where
  isValid : toYearMonthDay.IsValid
  deriving DecidableEq, Repr

namespace Date

def ofYearMonthDay? (d : YearMonthDay) : Option Date :=
  if h : d.IsValid then some ⟨d, h⟩ else none

theorem ofYearMonthDay?_eq_some_iff (d : YearMonthDay) (date : Date) :
    ofYearMonthDay? d = some date ↔ date.toYearMonthDay = d := by
  obtain ⟨e, he⟩ := date
  simp only [ofYearMonthDay?]
  constructor
  · intro h
    split at h
    · exact (congrArg Date.toYearMonthDay (Option.some.inj h)).symm
    · cases h
  · rintro rfl
    simp [he]

/-- Decimal digits with zeros in front, at least `width` in all. -/
def padded (width value : Nat) : String :=
  String.ofList (List.leftpad width '0' (toString value).toList)

/-- Year, month and day with hyphens. Years outside four digits carry a sign. -/
def text (date : Date) : String :=
  let sign := if date.year < 0 then "-" else if 9999 < date.year then "+" else ""
  sign ++ padded 4 date.year.natAbs ++ "-" ++ padded 2 date.month ++ "-" ++ padded 2 date.day

end Date

namespace EpochDay

/-- Day number of 0001-01-01. -/
def first : Int := -719162

/-- Day number of 9999-12-31. -/
def last : Int := 2932896

/-- Day number of 2100-01-01, where four-year cycles stop being enough. -/
def recentEnd : Int := 47482

/-- Year of a four-year cycle and day of that year. Day 1460 is the last of the leap year. -/
def splitFourYears (day : Nat) : Nat × Nat :=
  if day / 365 = 4 then (3, 365) else (day / 365, day % 365)

/-- Goes back from month `guess + 1` to the month in which a day of the year lies. -/
def monthDayFrom (leap : Bool) (dayOfYear : Nat) : (guess : Nat) → Nat × Nat
  | 0 => (1, dayOfYear + 1)
  | guess + 1 =>
    let before := (cumulativeDays leap).getD (guess + 1) 0
    if dayOfYear < before then monthDayFrom leap dayOfYear guess
    else (guess + 2, dayOfYear - before + 1)

/-- Month and day of the month. No month has more than 32 days, so the first guess is the right
month or a later one. -/
def monthDay (leap : Bool) (dayOfYear : Nat) : Nat × Nat :=
  monthDayFrom leap dayOfYear (dayOfYear / 32 + 1)

/-- The date of a day between 1970-01-01 and 2099-12-31. -/
def recentDate (days : Int) : YearMonthDay :=
  let shifted := (days + 365).toNat
  let (year, dayOfYear) := splitFourYears (shifted % 1461)
  let (month, day) := monthDay (year = 3) dayOfYear
  ⟨1969 + (4 * (shifted / 1461) + year : Nat), month, day⟩

/-- Century of a 400-year cycle and day of that century. The last day of the cycle is the last
of the fourth century. -/
def splitFourCenturies (day : Nat) : Nat × Nat :=
  if day / 36524 = 4 then (3, 36524) else (day / 36524, day % 36524)

/-- The date of any day. -/
def anyDate (days : Int) : YearMonthDay :=
  let shifted := days + 134774
  let (century, dayOfCentury) := splitFourCenturies (shifted % 146097).toNat
  let cycle := dayOfCentury / 1461
  let (year, dayOfYear) := splitFourYears (dayOfCentury % 1461)
  let leap := year = 3 ∧ (cycle ≠ 24 ∨ century = 3)
  let (month, day) := monthDay leap dayOfYear
  ⟨1601 + 400 * (shifted / 146097) + (100 * century + 4 * cycle + year : Nat), month, day⟩

/-- Year, month and day of a day number in the supported range. -/
def yearMonthDay (days : Int) : Except DecodeError YearMonthDay :=
  if days < first ∨ last < days then .error (.dateOutOfRange days)
  else if 0 ≤ days ∧ days < recentEnd then .ok (recentDate days)
  else .ok (anyDate days)

/-- The day number in the supported range as a date that `make` builds from year, month and day. -/
def dateBy (make : YearMonthDay → Option δ) (days : Int) : Except DecodeError δ :=
  match yearMonthDay days with
  | .error cause => .error cause
  | .ok d =>
    match make d with
    | some date => .ok date
    | none => .error (.dateOutOfRange days)

/-- The date of a day number in the supported range. -/
def date (days : Int) : Except DecodeError Date := dateBy Date.ofYearMonthDay? days

end EpochDay

/-- An instant. The nanoseconds go forward from the second, also before the epoch. -/
structure Timestamp where
  seconds : Int
  nanos : Nat
  deriving DecidableEq, Repr

namespace Timestamp

def firstSecond : Int := -8334601228800

def lastSecond : Int := 8210266876799

/-- The instant, if its second is supported. -/
def of (seconds : Int) (nanos : Nat) : Except DecodeError Timestamp :=
  if seconds < firstSecond ∨ lastSecond < seconds then .error (.timestampOutOfRange seconds)
  else .ok ⟨seconds, nanos⟩

end Timestamp

/-- The most sub-second digits that a tick can stand for. -/
def maxPrecision : Nat := 9

/-- How ticks divide a second. -/
structure TickScale where
  ticksPerSecond : Nat
  nanosPerTick : Nat
  deriving DecidableEq, Repr

namespace TickScale

/-- Ticks of `10 ^ -precision` seconds. -/
def ofPrecision (precision : Nat) : Except DecodeError TickScale :=
  if maxPrecision < precision then .error (.invalidPrecision precision)
  else .ok ⟨Nat.pow 10 precision, Nat.pow 10 (maxPrecision - precision)⟩

/-- Seconds and nanoseconds of a tick count. -/
def split (scale : TickScale) (ticks : Int) : Int × Nat :=
  (ticks / scale.ticksPerSecond, (ticks % scale.ticksPerSecond).toNat * scale.nanosPerTick)

def timestamp (scale : TickScale) (ticks : Int) : Except DecodeError Timestamp :=
  Timestamp.of (scale.split ticks).1 (scale.split ticks).2

end TickScale

end Columnar
