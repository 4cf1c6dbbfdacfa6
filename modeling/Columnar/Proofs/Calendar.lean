import Columnar.Proofs.Checked.Calendar

/-!
Day numbers and dates belong together one to one, in the same order. The supported dates are found
from their numbers and no other number is accepted. Outside the supported years the cycles are
just as right, and the shorter way through recent years gives the same dates.
-/
namespace Columnar.EpochDay

variable {days : Int} {d : YearMonthDay} {cause : DecodeError}

/-- A day has one date. -/
theorem IsDateOf.unique {e : YearMonthDay} (hd : IsDateOf d days) (he : IsDateOf e days) :
    d = e := by
  have hsame : d.dayNumber = e.dayNumber := hd.2.trans he.2.symm
  exact (YearMonthDay.dayNumber_inj hd.1 he.1).mp hsame

theorem yearMonthDay_eq_ok_iff :
    yearMonthDay days = .ok d ↔ (first ≤ days ∧ days ≤ last) ∧ IsDateOf d days := by
  rw [yearMonthDay]
  split
  · next hout =>
    simp only [reduceCtorEq, false_iff]
    omega
  · next hin =>
    have hrange : first ≤ days ∧ days ≤ last := by omega
    split
    · next hrecent =>
      have hdate := isDateOf_recentDate hrecent.1 hrecent.2
      rw [Except.ok.injEq]
      exact ⟨fun heq => ⟨hrange, heq ▸ hdate⟩, fun h => hdate.unique h.2⟩
    · have hdate := isDateOf_anyDate days
      rw [Except.ok.injEq]
      exact ⟨fun heq => ⟨hrange, heq ▸ hdate⟩, fun h => hdate.unique h.2⟩

theorem yearMonthDay_eq_error_iff :
    yearMonthDay days = .error cause ↔
      (days < first ∨ last < days) ∧ cause = .dateOutOfRange days := by
  rw [yearMonthDay]
  split
  · next hout =>
    rw [Except.error.injEq]
    exact ⟨fun heq => ⟨hout, heq.symm⟩, fun h => h.2.symm⟩
  · next hin =>
    refine ⟨fun h => ?_, fun h => absurd h.1 hin⟩
    split at h <;> cases h

/-- The supported days are those of four-digit years. -/
theorem year_of_supported (hfirst : first ≤ days) (hlast : days ≤ last) (hd : IsDateOf d days) :
    1 ≤ d.year ∧ d.year ≤ 9999 := by
  obtain ⟨_, _, hbegin, hend⟩ := YearMonthDay.dayNumber_bounds hd.1
  rw [hd.2, daysBeforeYear_eq] at hbegin hend
  rw [first] at hfirst
  rw [last] at hlast
  omega

section Build

variable {make : YearMonthDay → Option δ} {fields : δ → YearMonthDay}
  (hmake : ∀ d : YearMonthDay, 1 ≤ d.year → d.year ≤ 9999 → ((make d).isSome ↔ d.IsValid))

include hmake

/-- Every date that is found can be built. -/
theorem dateBy_of_ok (h : yearMonthDay days = .ok d) :
    ∃ date, make d = some date ∧ dateBy make days = .ok date := by
  obtain ⟨⟨hfirst, hlast⟩, hdate⟩ := yearMonthDay_eq_ok_iff.mp h
  obtain ⟨hyear, hyear'⟩ := year_of_supported hfirst hlast hdate
  obtain ⟨date, hsome⟩ := Option.isSome_iff_exists.mp ((hmake d hyear hyear').mpr hdate.1)
  exact ⟨date, hsome, by rw [dateBy, h]; simp only [hsome]⟩

theorem dateBy_eq_error_iff :
    dateBy make days = .error cause ↔ yearMonthDay days = .error cause := by
  cases h : yearMonthDay days with
  | error cause' => rw [dateBy, h, Except.error.injEq, Except.error.injEq]
  | ok d =>
    obtain ⟨date, _, hdate⟩ := dateBy_of_ok hmake h
    rw [hdate]
    simp only [reduceCtorEq]

theorem dateBy_eq_ok_iff (hfields : ∀ d date, make d = some date → fields date = d) :
    (∃ date, dateBy make days = .ok date ∧ fields date = d) ↔ yearMonthDay days = .ok d := by
  cases h : yearMonthDay days with
  | error cause =>
    rw [(dateBy_eq_error_iff hmake).mpr h]
    simp only [reduceCtorEq, false_and, exists_false]
  | ok found =>
    obtain ⟨date, hsome, hdate⟩ := dateBy_of_ok hmake h
    rw [hdate, ← hfields found date hsome]
    simp only [Except.ok.injEq, exists_eq_left']

end Build

/-- What is known of a date that was built is what was found. -/
theorem fields_of_dateBy {make : YearMonthDay → Option δ} {fields : δ → YearMonthDay} {date : δ}
    (hfields : ∀ d date, make d = some date → fields date = d)
    (h : dateBy make days = .ok date) : yearMonthDay days = .ok (fields date) := by
  rw [dateBy] at h
  split at h
  · cases h
  · next d hfound =>
    split at h
    · next built hmade =>
      obtain rfl := Except.ok.inj h
      rw [hfound, hfields d built hmade]
    · cases h

/-- No two day numbers have the same date, whatever dates are built. -/
theorem dateBy_inj {make : YearMonthDay → Option δ} {fields : δ → YearMonthDay} {days' : Int}
    {date : δ} (hfields : ∀ d date, make d = some date → fields date = d)
    (h : dateBy make days = .ok date) (h' : dateBy make days' = .ok date) : days = days' := by
  obtain ⟨_, _, hnumber⟩ := yearMonthDay_eq_ok_iff.mp (fields_of_dateBy hfields h)
  obtain ⟨_, _, hnumber'⟩ := yearMonthDay_eq_ok_iff.mp (fields_of_dateBy hfields h')
  exact hnumber.symm.trans hnumber'

/-- The dates that exist are found from their day numbers, and from no other numbers. -/
theorem date_eq_ok_iff {date : Date} :
    EpochDay.date days = .ok date ↔ (first ≤ days ∧ days ≤ last) ∧ date.dayNumber = days := by
  have hmake (d : YearMonthDay) : (Date.ofYearMonthDay? d).isSome ↔ d.IsValid := by
    rw [Date.ofYearMonthDay?]
    split <;> simp_all
  have hfound : (∃ found, dateBy Date.ofYearMonthDay? days = .ok found ∧
      found.toYearMonthDay = date.toYearMonthDay) ↔ yearMonthDay days = .ok date.toYearMonthDay :=
    dateBy_eq_ok_iff (fun d _ _ => hmake d)
      fun d date => (Date.ofYearMonthDay?_eq_some_iff d date).mp
  have hsame : (∃ found, dateBy Date.ofYearMonthDay? days = .ok found ∧
      found.toYearMonthDay = date.toYearMonthDay) ↔ EpochDay.date days = .ok date := by
    constructor
    · rintro ⟨⟨_, _⟩, hdate, rfl⟩
      exact hdate
    · intro hdate
      exact ⟨date, hdate, rfl⟩
  rw [← hsame, hfound, yearMonthDay_eq_ok_iff, IsDateOf, and_iff_right date.isValid]

/-- Dates are found from their numbers, by their fields and built by `make`, in calendar order. The
ways to them stay within 64 bits, and their years within 32, on every day whose year fits so. -/
structure Calendar (make : YearMonthDay → Option δ) (fields : δ → YearMonthDay) : Prop where
  rejects : ∀ days cause, yearMonthDay days = .error cause ↔
    (days < -719162 ∨ 2932896 < days) ∧ cause = .dateOutOfRange days
  accepts : ∀ days d, yearMonthDay days = .ok d ↔
    (-719162 ≤ days ∧ days ≤ 2932896) ∧ d.IsValid ∧ d.dayNumber = days
  unique : ∀ days, ∃! d : YearMonthDay, d.IsValid ∧ d.dayNumber = days
  successor : ∀ days d e, yearMonthDay days = .ok d → yearMonthDay (days + 1) = .ok e → e = d.next
  injective : ∀ days days' d, yearMonthDay days = .ok d → yearMonthDay days' = .ok d → days = days'
  ordered : ∀ days days' d e, yearMonthDay days = .ok d → yearMonthDay days' = .ok e →
    (days < days' ↔ d.Before e)
  built : ∀ days d,
    (∃ date, dateBy make days = .ok date ∧ fields date = d) ↔ yearMonthDay days = .ok d
  refused : ∀ days cause, dateBy make days = .error cause ↔ yearMonthDay days = .error cause
  general : ∀ days, (anyDate days).IsValid ∧ (anyDate days).dayNumber = days
  recent : ∀ days, 0 ≤ days → days < recentEnd → recentDate days = anyDate days
  checked : ∀ days, -0x80000000 ≤ (anyDate days).year → (anyDate days).year ≤ 0x7fffffff →
    Checked.EpochDay.anyDate days = some (anyDate days)
  checkedRecent : ∀ days, 0 ≤ days → days < recentEnd →
    Checked.EpochDay.recentDate days = some (recentDate days)

/-- Day numbers are read by the calendar, whatever dates are built from its fields, if exactly the
days that exist can be built. -/
theorem dates_follow_calendar {make : YearMonthDay → Option δ} {fields : δ → YearMonthDay}
    (hmake : ∀ d : YearMonthDay, 1 ≤ d.year → d.year ≤ 9999 → ((make d).isSome ↔ d.IsValid))
    (hfields : ∀ d date, make d = some date → fields date = d) : Calendar make fields where
  rejects _ _ := yearMonthDay_eq_error_iff
  accepts _ _ := yearMonthDay_eq_ok_iff
  unique days := ⟨anyDate days, isDateOf_anyDate days,
    fun _ hdate => IsDateOf.unique hdate (isDateOf_anyDate days)⟩
  successor days d e hd he := by
    obtain ⟨_, hvalid, hnumber⟩ := yearMonthDay_eq_ok_iff.mp hd
    obtain ⟨_, hdate⟩ := yearMonthDay_eq_ok_iff.mp he
    have hnext : IsDateOf d.next (days + 1) :=
      ⟨YearMonthDay.isValid_next hvalid, by rw [YearMonthDay.dayNumber_next hvalid, hnumber]⟩
    exact hdate.unique hnext
  injective days days' d hd hd' := by
    have hnumber := (yearMonthDay_eq_ok_iff.mp hd).2.2
    have hnumber' := (yearMonthDay_eq_ok_iff.mp hd').2.2
    exact hnumber.symm.trans hnumber'
  ordered days days' d e hd he := by
    obtain ⟨_, hvalid, rfl⟩ := yearMonthDay_eq_ok_iff.mp hd
    obtain ⟨_, hvalid', rfl⟩ := yearMonthDay_eq_ok_iff.mp he
    exact YearMonthDay.dayNumber_lt_iff hvalid hvalid'
  built _ _ := dateBy_eq_ok_iff hmake hfields
  refused _ _ := dateBy_eq_error_iff hmake
  general := isDateOf_anyDate
  recent days hfirst hlast :=
    (isDateOf_recentDate hfirst hlast).unique (isDateOf_anyDate days)
  checked _ := Checked.EpochDay.anyDate_eq
  checkedRecent _ := Checked.EpochDay.recentDate_eq

/-- Dates that carry the proof of their existence are built from the days that exist. -/
theorem dates_follow_calendar_leapDay :
    Calendar Date.ofYearMonthDay? Date.toYearMonthDay ∧
      (⟨2000, 2, 29⟩ : YearMonthDay).dayNumber = 11016 := by
  have hmake (d : YearMonthDay) : (Date.ofYearMonthDay? d).isSome ↔ d.IsValid := by
    rw [Date.ofYearMonthDay?]
    split <;> simp_all
  have hcalendar := dates_follow_calendar (fun d _ _ => hmake d)
    (fun d date => (Date.ofYearMonthDay?_eq_some_iff d date).mp)
  exact ⟨hcalendar, ((hcalendar.accepts 11016 ⟨2000, 2, 29⟩).mp (by decide)).2.2⟩

end Columnar.EpochDay
