import Mathlib.Algebra.Group.Nat.Defs
import Columnar.Program

/-!
What a client sees of a run: the result of every step and the position after it. Beside it stands
what a run asks of its source, the sizes of its contiguous reads. Both are taken up to the end of
the stream, because a read that meets the end may leave different bytes behind in different
sources.
-/
namespace Columnar

def Fault.isEndOfStream : Fault → Bool
  | .error cause => cause.isEndOfStream
  | .capacityOverflow => false

/-- A result that reports the end of the stream. -/
def endsStream : Except Fault α → Bool
  | .ok _ => false
  | .error fault => fault.isEndOfStream

@[simp] theorem endsStream_error (fault : Fault) :
    endsStream (.error fault : Except Fault α) = fault.isEndOfStream := rfl
@[simp] theorem isEndOfStream_endOfStream (requested available : Nat) :
    Fault.isEndOfStream (.error (.endOfStream requested available)) = true := rfl

namespace Outcome

/-- Goes on from the value of an outcome, if there is one. -/
def andThen (outcome : Outcome σ α) (next : α → σ → Outcome σ β) : Outcome σ β :=
  match outcome with
  | (.ok value, state) => next value state
  | (.error fault, state) => (.error fault, state)

theorem andThen_eq_ok_iff {outcome : Outcome σ α} {next : α → σ → Outcome σ β} {result : β}
    {after : σ} :
    outcome.andThen next = (.ok result, after) ↔
      ∃ value state, outcome = (.ok value, state) ∧ next value state = (.ok result, after) := by
  rcases outcome with ⟨fault | value, state⟩
  · exact ⟨nofun, fun ⟨_, _, h, _⟩ => nomatch h⟩
  · refine ⟨fun h => ⟨value, state, rfl, h⟩, ?_⟩
    rintro ⟨_, _, ⟨⟩, h⟩
    exact h

theorem andThen_congr {outcome : Outcome σ α} {next next' : α → σ → Outcome σ β}
    (h : ∀ value after, outcome = (.ok value, after) → next value after = next' value after) :
    outcome.andThen next = outcome.andThen next' := by
  rcases outcome with ⟨fault | value, after⟩
  · rfl
  · exact h value after rfl

/-- A list that depends on the value of an outcome, empty after a fault. -/
def listNext (outcome : Outcome σ α) (next : α → σ → List β) : List β :=
  match outcome with
  | (.ok value, state) => next value state
  | (.error _, _) => []

end Outcome

namespace Decoder

theorem run_bind_andThen (source : ByteSource σ) (first : Decoder α) (rest : α → Decoder β)
    (state : σ) :
    (first.bind rest).run source state =
      (first.run source state).andThen fun value => (rest value).run source := by
  rw [run_bind]
  generalize first.run source state = outcome
  rcases outcome with ⟨fault | value, after⟩ <;> rfl

theorem map_eq (f : α → β) (decoder : Decoder α) :
    f <$> decoder = decoder.bind fun value => .done (f value) := rfl

theorem run_map (source : ByteSource σ) (f : α → β) (decoder : Decoder α) (state : σ) :
    (f <$> decoder).run source state = (decoder.run source state).map (Except.map f) id := by
  rw [map_eq, run_bind]
  obtain ⟨result, after⟩ := decoder.run source state
  cases result <;> rfl

theorem run_byte (source : ByteSource σ) (next : UInt8 → Decoder α) (state : σ) :
    (Decoder.byte next).run source state =
      (source.readByte state).andThen fun b => (next b).run source := by
  simp only [run, Outcome.andThen]
  obtain ⟨result, after⟩ := source.readByte state
  cases result <;> rfl

theorem run_bytes (source : ByteSource σ) (size : Nat) (next : Bytes → Decoder α) (state : σ) :
    (Decoder.bytes size next).run source state =
      (source.readBytes size state).andThen fun block => (next block).run source := by
  simp only [run, Outcome.andThen]
  obtain ⟨result, after⟩ := source.readBytes size state
  cases result <;> rfl

theorem run_takeBytes (source : ByteSource σ) (size : Nat) (state : σ) :
    (takeBytes size).run source state = source.readBytes size state := by
  rw [takeBytes, run]
  generalize source.readBytes size state = outcome
  rcases outcome with ⟨fault | block, after⟩ <;> rfl

/-- Runs two decoders in a row and puts what they give together. -/
def both (first second : Decoder (List α)) : Decoder (List α) := do
  let front ← first
  let back ← second
  return front ++ back

theorem run_both_eq_ok_iff {source : ByteSource σ} {first second : Decoder (List α)}
    {state after : σ} {values : List α} :
    (both first second).run source state = (.ok values, after) ↔ ∃ front middle back,
      first.run source state = (.ok front, middle) ∧
      second.run source middle = (.ok back, after) ∧ values = front ++ back := by
  simp only [both, bind_eq, run_bind_andThen, Outcome.andThen_eq_ok_iff, pure_eq, run_done,
    Prod.mk.injEq, Except.ok.injEq]
  constructor
  · rintro ⟨front, middle, hfront, back, last, hback, rfl, rfl⟩
    exact ⟨front, middle, back, hfront, hback, rfl⟩
  · rintro ⟨front, middle, back, hfront, hback, rfl⟩
    exact ⟨front, middle, hfront, back, after, hback, rfl, rfl⟩

theorem reserve_of_le {size : Nat} (h : size ≤ maxAllocation) : reserve size = .done () :=
  if_neg (Nat.not_lt.mpr h)

theorem run_reserve (source : ByteSource σ) (size : Nat) (rest : Decoder α) (state : σ) :
    ((reserve size).bind fun _ => rest).run source state =
      if maxAllocation < size then (.error .capacityOverflow, state) else rest.run source state := by
  rw [reserve]
  split <;> rfl

/-- The sizes of the contiguous reads of a run, in order, the one that fails included. -/
def requests (source : ByteSource σ) : Decoder α → σ → List Nat
  | .done _, _ => []
  | .fail _, _ => []
  | .byte next, state =>
    (source.readByte state).listNext fun b state => (next b).requests source state
  | .bytes size next, state =>
    size ::
      (source.readBytes size state).listNext fun block state => (next block).requests source state
  | .encoding next, state => (next (source.encoding state)).requests source state

end Decoder

/-- The result of a step and the position after it. -/
abbrev Observation := Except Fault Value × Nat

/-- Observations up to the first end of the stream, that one included. -/
def untilEnd : List Observation → List Observation
  | [] => []
  | seen :: later => if endsStream seen.1 then [seen] else seen :: untilEnd later

theorem untilEnd_prefix (seen : List Observation) : untilEnd seen <+: seen := by
  induction seen with
  | nil => exact List.nil_prefix
  | cons first later ih =>
    rw [untilEnd]
    by_cases hend : endsStream first.1 = true
    · rw [if_pos hend]
      exact List.cons_prefix_cons.mpr ⟨rfl, List.nil_prefix⟩
    · rw [if_neg hend]
      exact List.cons_prefix_cons.mpr ⟨rfl, ih⟩

/-- Nothing is cut off if the stream does not end earlier. -/
theorem untilEnd_append {before later : List Observation}
    (hbefore : ∀ seen ∈ before, endsStream seen.1 = false) :
    untilEnd (before ++ later) = before ++ untilEnd later := by
  induction before with
  | nil => rfl
  | cons first before ih =>
    have hfirst := hbefore first List.mem_cons_self
    have hlater := ih fun seen hmem => hbefore seen (List.mem_cons_of_mem first hmem)
    rw [List.cons_append, untilEnd, if_neg (by simp [hfirst]), hlater, List.cons_append]

theorem untilEnd_eq_self {seen : List Observation}
    (h : ∀ first ∈ seen, endsStream first.1 = false) : untilEnd seen = seen := by
  have happend : untilEnd (seen ++ []) = seen ++ untilEnd [] := untilEnd_append h
  simpa only [untilEnd, List.append_nil] using happend

theorem eq_of_untilEnd {seen expected : List Observation} (h : untilEnd seen = expected)
    (hlength : seen.length = expected.length) : seen = expected := by
  have hfront := untilEnd_prefix seen
  rw [h] at hfront
  exact (hfront.eq_of_length hlength.symm).symm

/-- Every step gave a value. -/
def Succeeds (seen : List Observation) : Prop := ∀ first ∈ seen, first.1.isOk = true

instance (seen : List Observation) : Decidable (Succeeds seen) :=
  inferInstanceAs (Decidable (∀ first ∈ seen, first.1.isOk = true))

theorem succeeds_cons {first : Observation} {later : List Observation} :
    Succeeds (first :: later) ↔ (∃ value, first.1 = .ok value) ∧ Succeeds later := by
  have hfirst : first.1.isOk = true ↔ ∃ value, first.1 = .ok value := by
    obtain ⟨result, position⟩ := first
    cases result with
    | ok value => exact ⟨fun _ => ⟨value, rfl⟩, fun _ => rfl⟩
    | error fault => exact ⟨(nomatch ·), fun ⟨_, hvalue⟩ => nomatch hvalue⟩
  rw [Succeeds, List.forall_mem_cons, hfirst]
  rfl

theorem Succeeds.not_endsStream {seen : List Observation} (h : Succeeds seen) :
    ∀ first ∈ seen, endsStream first.1 = false := by
  induction seen with
  | nil => exact fun _ hmem => absurd hmem List.not_mem_nil
  | cons first later ih =>
    obtain ⟨⟨value, hvalue⟩, hlater⟩ := succeeds_cons.mp h
    rw [List.forall_mem_cons, hvalue]
    exact ⟨rfl, ih hlater⟩

theorem Succeeds.untilEnd_eq {seen : List Observation} (h : Succeeds seen) :
    untilEnd seen = seen := untilEnd_eq_self h.not_endsStream

namespace ReadStep

/-- What a client sees of a program. -/
def observe (source : ByteSource σ) (position : σ → Nat) (steps : List ReadStep) (state : σ) :
    List Observation :=
  (trace source steps state).map fun outcome => (outcome.1, position outcome.2)

/-- The state after all steps of a program. -/
def finish (source : ByteSource σ) : List ReadStep → σ → σ
  | [], state => state
  | step :: steps, state => finish source steps (step.run source state).2

/-- The sizes of the contiguous reads of a program, up to the end of the stream. -/
def requests (source : ByteSource σ) : List ReadStep → σ → List Nat
  | [], _ => []
  | step :: steps, state =>
    step.decoder.requests source state ++
      if endsStream (step.run source state).1 then []
      else requests source steps (step.run source state).2

@[simp] theorem observe_cons (source : ByteSource σ) (position : σ → Nat) (step : ReadStep)
    (steps : List ReadStep) (state : σ) :
    observe source position (step :: steps) state =
      ((step.run source state).1, position (step.run source state).2) ::
        observe source position steps (step.run source state).2 := rfl

@[simp] theorem length_observe (source : ByteSource σ) (position : σ → Nat)
    (steps : List ReadStep) (state : σ) :
    (observe source position steps state).length = steps.length := by
  induction steps generalizing state with
  | nil => rfl
  | cons step steps ih => simp [ih]

end ReadStep

namespace ByteSource

/-- The source has no way of its own to read a word. -/
def ReadsWords (source : ByteSource σ) : Prop :=
  ∀ state, source.readWord state =
    (source.readBytes 8 state).andThen fun block state => (.ok block.littleEndian, state)

end ByteSource

theorem Slice.readsWords : Slice.byteSource.ReadsWords := by
  intro slice
  simp only [byteSource, Outcome.andThen]
  obtain ⟨result, after⟩ := slice.readBytes 8
  cases result <;> rfl

/-- Every step over such a source is its decoder. -/
theorem ReadStep.run_eq {source : ByteSource σ} (hwords : source.ReadsWords) (step : ReadStep)
    (state : σ) : step.run source state = step.decoder.run source state := by
  cases step with
  | word =>
    simp only [run, decoder, hwords state, Decoder.map_eq, Decoder.takeBytes, Decoder.bind,
      Decoder.run_bytes, Outcome.andThen]
    obtain ⟨result, after⟩ := source.readBytes 8 state
    cases result <;> rfl
  | _ => rfl

end Columnar
