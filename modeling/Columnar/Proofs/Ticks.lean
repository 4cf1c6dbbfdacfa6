import Mathlib.Algebra.Group.Int.Defs
import Columnar.Column
import Columnar.Proofs.Checked.Calendar

/-!
Tick counts as instants. A scale turns ticks into seconds and nanoseconds without rounding: the two
together are as many nanoseconds as the ticks are, the nanoseconds are less than a second, before
the epoch too, and so instants follow one another as their ticks do.

What an instant is built of is all that its columns know of it. Which seconds there are instants
for is left to the function that builds them; `Timestamp.make` is one of these.
-/
namespace Columnar

/-- The order of time. -/
def Timestamp.Before (first second : Timestamp) : Prop :=
  first.seconds < second.seconds ∨
    first.seconds = second.seconds ∧ first.nanos < second.nanos

namespace TickScale

/-- The instant of a tick count, whether it is supported or not. -/
def instant (scale : TickScale) (ticks : Int) : Timestamp :=
  ⟨(scale.split ticks).1, (scale.split ticks).2⟩

variable {scale : TickScale} (hexact : Checked.TickScale.IsExact scale)

include hexact

theorem ticksPerSecond_pos : 0 < scale.ticksPerSecond := by
  refine Nat.pos_of_ne_zero fun hzero => ?_
  rw [Checked.TickScale.IsExact, hzero, Nat.zero_mul] at hexact
  cases hexact

theorem nanosPerTick_pos : 0 < scale.nanosPerTick := by
  refine Nat.pos_of_ne_zero fun hzero => ?_
  rw [Checked.TickScale.IsExact, hzero, Nat.mul_zero] at hexact
  cases hexact

/-- What is left of the ticks is less than a second. -/
theorem nanos_lt (ticks : Int) : (scale.instant ticks).nanos < 1000000000 := by
  have hpos := ticksPerSecond_pos hexact
  have hless : (ticks % scale.ticksPerSecond).toNat < scale.ticksPerSecond := by
    have hmod := Int.emod_lt_of_pos ticks (show (0 : Int) < scale.ticksPerSecond by omega)
    omega
  have hproduct := Nat.mul_lt_mul_of_pos_right hless (nanosPerTick_pos hexact)
  rwa [hexact] at hproduct

theorem instant_exact (ticks : Int) :
    (scale.instant ticks).seconds * 1000000000 + (scale.instant ticks).nanos =
      ticks * scale.nanosPerTick := by
  have hpos := ticksPerSecond_pos hexact
  have hleft : ((ticks % scale.ticksPerSecond).toNat : Int) = ticks % scale.ticksPerSecond :=
    Int.toNat_of_nonneg (Int.emod_nonneg _ (by omega))
  have hsecond : (1000000000 : Int) = scale.ticksPerSecond * scale.nanosPerTick := by
    rw [← Int.natCast_mul, hexact]
    rfl
  have hsplit : ticks / scale.ticksPerSecond * scale.ticksPerSecond +
      ticks % scale.ticksPerSecond = ticks := Int.ediv_mul_add_emod ticks _
  calc (scale.instant ticks).seconds * 1000000000 + (scale.instant ticks).nanos
      = ticks / scale.ticksPerSecond * (scale.ticksPerSecond * scale.nanosPerTick) +
          ticks % scale.ticksPerSecond * scale.nanosPerTick := by
        simp only [instant, split, Int.natCast_mul, hleft, hsecond]
    _ = (ticks / scale.ticksPerSecond * scale.ticksPerSecond +
          ticks % scale.ticksPerSecond) * scale.nanosPerTick := by
        rw [← Int.mul_assoc, ← Int.add_mul]
    _ = ticks * scale.nanosPerTick := by rw [hsplit]

/-- Instants in the order of time are ticks in their order. -/
theorem before_iff {ticks ticks' : Int} :
    (scale.instant ticks).Before (scale.instant ticks') ↔ ticks < ticks' := by
  have hpos : (0 : Int) < scale.nanosPerTick := by
    have hnanos := nanosPerTick_pos hexact
    omega
  have hexact₁ := instant_exact hexact ticks
  have hexact₂ := instant_exact hexact ticks'
  have hnanos₁ := nanos_lt hexact ticks
  have hnanos₂ := nanos_lt hexact ticks'
  -- both sides are counts of nanoseconds now, and each has less than a second of them
  rw [← Int.mul_lt_mul_right hpos, ← hexact₁, ← hexact₂, Timestamp.Before]
  omega

theorem instant_inj {ticks ticks' : Int} :
    scale.instant ticks = scale.instant ticks' ↔ ticks = ticks' := by
  constructor
  · intro hsame
    have hexact₁ := instant_exact hexact ticks
    have hexact₂ := instant_exact hexact ticks'
    have hpos := nanosPerTick_pos hexact
    rw [hsame, hexact₂] at hexact₁
    exact (Int.eq_of_mul_eq_mul_right (by omega) hexact₁).symm
  · rintro rfl
    rfl

end TickScale

theorem TickScale.exists_ofPrecision {precision : Nat} (h : precision ≤ maxPrecision) :
    ∃ scale, ofPrecision precision = .ok scale :=
  ⟨_, if_neg (Nat.not_lt.mpr h)⟩

/-- What ticks of `10 ^ -precision` seconds are worth. -/
structure ExactScale (precision : Nat) (scale : TickScale) : Prop where
  built : Checked.TickScale.ofPrecision precision = some (.ok scale)
  /-- No intermediate number is too large for its type. -/
  within : ∀ ticks : Int, -0x8000000000000000 ≤ ticks → ticks ≤ 0x7fffffffffffffff →
    Checked.TickScale.split scale ticks =
      some ((scale.instant ticks).seconds, (scale.instant ticks).nanos)
  exact : ∀ ticks : Int, (scale.instant ticks).seconds * 10 ^ 9 + (scale.instant ticks).nanos =
    ticks * 10 ^ (9 - precision)
  nanos : ∀ ticks : Int, (scale.instant ticks).nanos < 10 ^ 9
  floor : ∀ ticks : Int, (scale.instant ticks).seconds = Int.fdiv ticks (10 ^ precision)
  ordered : ∀ ticks ticks' : Int,
    (scale.instant ticks).Before (scale.instant ticks') ↔ ticks < ticks'
  injective : ∀ ticks ticks' : Int, scale.instant ticks = scale.instant ticks' ↔ ticks = ticks'

theorem exactScale {precision : Nat} {scale : TickScale}
    (h : TickScale.ofPrecision precision = .ok scale) : ExactScale precision scale := by
  have hexact := Checked.TickScale.isExact_ofPrecision h
  have hbuilt := Checked.TickScale.ofPrecision_eq precision
  rw [h] at hbuilt
  have hscale : scale = ⟨10 ^ precision, 10 ^ (9 - precision)⟩ := by
    rw [TickScale.ofPrecision] at h
    split at h
    · cases h
    · exact (Except.ok.inj h).symm
  constructor
  case built => exact hbuilt
  case within => exact fun ticks => Checked.TickScale.split_eq hexact
  case exact =>
    intro ticks
    have hsum := TickScale.instant_exact hexact ticks
    rw [hscale] at hsum ⊢
    simpa using hsum
  case nanos => exact TickScale.nanos_lt hexact
  case floor =>
    intro ticks
    rw [Int.fdiv_eq_ediv_of_nonneg _ (Int.pow_nonneg (by decide)), hscale]
    simp [TickScale.instant, TickScale.split]
  case ordered => exact fun _ _ => TickScale.before_iff hexact
  case injective => exact fun _ _ => TickScale.instant_inj hexact

/-- The instant that is built of seconds and nanoseconds, if there is one. -/
def Timestamp.buildBy (make : Int → Nat → Option τ) (seconds : Int) (nanos : Nat) :
    Except DecodeError τ :=
  (make seconds nanos).elim (.error (.timestampOutOfRange seconds)) .ok

def TickScale.timestampBy (make : Int → Nat → Option τ) (scale : TickScale) (ticks : Int) :
    Except DecodeError τ :=
  Timestamp.buildBy make (scale.instant ticks).seconds (scale.instant ticks).nanos

namespace Column

/-- A column of seconds, whatever its instants are built by. -/
def dateTimeBy (make : Int → Nat → Option τ) (rows : Nat) : Decoder (List τ) :=
  converted (fun seconds : Nat => Timestamp.buildBy make seconds 0) (rawDateTime rows)

/-- A column of ticks, whatever its instants are built by. -/
def dateTime64By (make : Int → Nat → Option τ) (precision rows : Nat) : Decoder (List τ) := do
  let scale ← Decoder.ofExcept (TickScale.ofPrecision precision)
  converted (scale.timestampBy make) (rawDateTime64 rows)

def nullableDateTimeBy (make : Int → Nat → Option τ) : (rows : Nat) → Decoder (List (Option τ)) :=
  nullableConverted (fun seconds : Nat => Timestamp.buildBy make seconds 0) rawDateTime

def nullableDateTime64By (make : Int → Nat → Option τ) (precision rows : Nat) :
    Decoder (List (Option τ)) := do
  let scale ← Decoder.ofExcept (TickScale.ofPrecision precision)
  nullableConverted (scale.timestampBy make) rawDateTime64 rows

end Column

/-- Instants are built of the seconds from `first` to `last` with less than a second of nanoseconds,
and they are what they were built of. -/
structure Builds (make : Int → Nat → Option τ) (fields : τ → Timestamp) (first last : Int) :
    Prop where
  accepts : ∀ seconds nanos, nanos < 1000000000 →
    ((make seconds nanos).isSome ↔ first ≤ seconds ∧ seconds ≤ last)
  keeps : ∀ seconds nanos built, make seconds nanos = some built →
    fields built = ⟨seconds, nanos⟩

/-- The supported instants, built as they are. -/
def Timestamp.make (seconds : Int) (nanos : Nat) : Option Timestamp := (of seconds nanos).toOption

theorem Timestamp.builds : Builds make id firstSecond lastSecond where
  accepts seconds nanos _ := by
    rw [make, of]
    split
    · simp only [Except.toOption, Option.isSome_none, Bool.false_eq_true, false_iff]
      omega
    · simp only [Except.toOption, Option.isSome_some, true_iff]
      omega
  keeps seconds nanos built h := by
    rw [make, of] at h
    split at h
    · cases h
    · exact (Option.some.inj h).symm

theorem Timestamp.buildBy_make (seconds : Int) (nanos : Nat) :
    buildBy make seconds nanos = of seconds nanos := by
  rw [buildBy, make, of]
  split <;> rfl

theorem TickScale.timestampBy_make (scale : TickScale) :
    scale.timestampBy Timestamp.make = scale.timestamp := by
  funext ticks
  exact Timestamp.buildBy_make _ _

namespace Column

theorem buildBy_make_seconds :
    (fun seconds : Nat => Timestamp.buildBy Timestamp.make seconds 0) = convertDateTime := by
  funext seconds
  exact Timestamp.buildBy_make seconds 0

theorem dateTimeBy_make (rows : Nat) : dateTimeBy Timestamp.make rows = dateTime rows := by
  rw [dateTimeBy, buildBy_make_seconds, dateTime]

theorem dateTime64By_make (precision : Nat) :
    dateTime64By Timestamp.make precision = dateTime64 precision := by
  funext rows
  simp only [dateTime64By, TickScale.timestampBy_make, dateTime64]

theorem nullableDateTime64By_make (precision : Nat) :
    nullableDateTime64By Timestamp.make precision = nullableDateTime64 precision := by
  funext rows
  simp only [nullableDateTime64By, TickScale.timestampBy_make, nullableDateTime64]

end Column

/-- A conversion of values to their instants. It fails if the second is not from `first` to `last`,
and names it. -/
structure ConvertsTo (instant : α → Timestamp) (fields : τ → Timestamp) (first last : Int)
    (convert : α → Except DecodeError τ) : Prop where
  accepts : ∀ value, (∃ built, convert value = .ok built) ↔
    first ≤ (instant value).seconds ∧ (instant value).seconds ≤ last
  keeps : ∀ value built, convert value = .ok built → fields built = instant value
  rejects : ∀ value cause, convert value = .error cause ↔
    ¬ (first ≤ (instant value).seconds ∧ (instant value).seconds ≤ last) ∧
      cause = .timestampOutOfRange (instant value).seconds

namespace Builds

variable {make : Int → Nat → Option τ} {fields : τ → Timestamp} {first last : Int}
  (hbuilds : Builds make fields first last)

include hbuilds

theorem convertsTo {instant : α → Timestamp}
    (hnanos : ∀ value, (instant value).nanos < 1000000000) :
    ConvertsTo instant fields first last fun value =>
      Timestamp.buildBy make (instant value).seconds (instant value).nanos where
  accepts value := by
    rw [← hbuilds.accepts _ _ (hnanos value), Timestamp.buildBy]
    cases make (instant value).seconds (instant value).nanos <;> simp
  keeps value built h := by
    rw [Timestamp.buildBy] at h
    cases hmake : make (instant value).seconds (instant value).nanos with
    | none => simp [hmake] at h
    | some other =>
      rw [hmake] at h
      rw [← Except.ok.inj h]
      exact hbuilds.keeps _ _ other hmake
  rejects value cause := by
    rw [← hbuilds.accepts _ _ (hnanos value), Timestamp.buildBy]
    cases make (instant value).seconds (instant value).nanos <;> simp [eq_comm]

/-- Seconds have no nanoseconds. -/
theorem seconds :
    ConvertsTo (fun seconds : Nat => ⟨seconds, 0⟩) fields first last
      fun seconds : Nat => Timestamp.buildBy make seconds 0 :=
  hbuilds.convertsTo fun _ => by simp

theorem ticks {scale : TickScale} (hexact : Checked.TickScale.IsExact scale) :
    ConvertsTo scale.instant fields first last (scale.timestampBy make) :=
  hbuilds.convertsTo (TickScale.nanos_lt hexact)

end Builds

end Columnar
