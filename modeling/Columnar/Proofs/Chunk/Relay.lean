import Columnar.Proofs.Cursor.Exchange

/-!
A source over a reader passes on what the reader answers. Interruptions are passed over, every
other failure and every piece of data is handed out once and in its place, and behind the first
read without bytes the reader is left alone. What has been handed out is told by the answers of the
reader to the reads that were made of it.
-/
namespace Columnar

namespace ReadEvent

/-- The answers of a reader to its next reads. -/
def answers (room : Nat) : (reads : Nat) → List ReadEvent → List (Except IoError Bytes)
  | 0, _ => []
  | reads + 1, events => (read room events).1 :: answers room reads (read room events).2

/-- What a reader still has after some reads. -/
def later (room : Nat) : (reads : Nat) → List ReadEvent → List ReadEvent
  | 0, events => events
  | reads + 1, events => later room reads (read room events).2

/-- The bytes that an answer brings. -/
def delivered : Except IoError Bytes → Bytes
  | .ok bytes => bytes
  | .error _ => []

/-- What a source hands out for an answer of its reader. -/
def passedOn : Except IoError Bytes → Option (Except DecodeError (Option Bytes))
  | .ok [] => some (.ok none)
  | .ok bytes => some (.ok (some bytes))
  | .error cause => if cause.kind = .interrupted then none else some (.error (.source cause))

theorem answers_add (room front back : Nat) (events : List ReadEvent) :
    answers room (front + back) events =
      answers room front events ++ answers room back (later room front events) := by
  induction front generalizing events with
  | zero => rw [Nat.zero_add, answers, later, List.nil_append]
  | succ front ih => rw [Nat.succ_add, answers, answers, later, ih, List.cons_append]

theorem later_add (room front back : Nat) (events : List ReadEvent) :
    later room (front + back) events = later room back (later room front events) := by
  induction front generalizing events with
  | zero => rw [Nat.zero_add, later]
  | succ front ih => rw [Nat.succ_add, later, later, ih]

theorem read_data (room : Nat) (bytes : Bytes) (rest : List ReadEvent) :
    (read room (.data bytes :: rest)).1 = .ok (bytes.take room) := by
  rw [read]
  split <;> rfl

/-- One read never brings more than it has room for. -/
theorem length_read_le {room : Nat} {events : List ReadEvent} {bytes : Bytes}
    (h : (read room events).1 = .ok bytes) : bytes.length ≤ room := by
  have hempty (hnone : (.ok [] : Except IoError Bytes) = .ok bytes) : bytes.length ≤ room := by
    cases hnone
    exact Nat.zero_le room
  cases events with
  | nil => exact hempty h
  | cons event rest =>
    cases event with
    | finish => exact hempty h
    | failure => cases h
    | data given =>
      rw [read_data] at h
      obtain rfl := Except.ok.inj h
      exact List.length_take_le room given

theorem length_le_of_mem_answers {room reads : Nat} {events : List ReadEvent} {bytes : Bytes}
    (h : .ok bytes ∈ answers room reads events) : bytes.length ≤ room := by
  induction reads generalizing events with
  | zero => cases h
  | succ reads ih =>
    rcases List.mem_cons.mp h with hfirst | hlater
    · exact length_read_le hfirst.symm
    · exact ih hlater

theorem passedOn_eq_chunk_iff {answer : Except IoError Bytes} {bytes : Bytes} :
    passedOn answer = some (.ok (some bytes)) ↔ answer = .ok bytes ∧ bytes ≠ [] := by
  rcases answer with cause | _ | ⟨head, tail⟩
  · simp [passedOn]
  · simp only [passedOn, Option.some.injEq, Except.ok.injEq, reduceCtorEq, false_iff, not_and,
      Decidable.not_not]
    exact Eq.symm
  · simp only [passedOn, Option.some.injEq, Except.ok.injEq]
    constructor
    · rintro rfl
      exact ⟨rfl, List.cons_ne_nil _ _⟩
    · exact And.left

theorem passedOn_eq_end_iff {answer : Except IoError Bytes} :
    passedOn answer = some (.ok none) ↔ answer = .ok [] := by
  rcases answer with cause | _ | ⟨head, tail⟩
  · simp [passedOn]
  · simp [passedOn]
  · simp [passedOn]

theorem passedOn_eq_none_iff {answer : Except IoError Bytes} :
    passedOn answer = none ↔ ∃ cause, answer = .error cause ∧ cause.kind = .interrupted := by
  rcases answer with cause | _ | ⟨head, tail⟩
  · simp [passedOn]
  · simp [passedOn]
  · simp [passedOn]

theorem passedOn_eq_failure_iff {answer : Except IoError Bytes} {cause : DecodeError} :
    passedOn answer = some (.error cause) ↔
      ∃ failure, answer = .error failure ∧ failure.kind ≠ .interrupted ∧
        cause = .source failure := by
  rcases answer with failure | _ | ⟨head, tail⟩
  · simp only [passedOn, Option.ite_none_left_eq_some, Option.some.injEq, Except.error.injEq]
    constructor
    · rintro ⟨hkind, rfl⟩
      exact ⟨failure, rfl, hkind, rfl⟩
    · rintro ⟨_, rfl, hkind, rfl⟩
      exact ⟨hkind, rfl⟩
  · simp [passedOn]
  · simp [passedOn]

/-- The chunks that are passed on have the bytes that the reader brought. -/
theorem joined_passedOn (answers : List (Except IoError Bytes)) :
    joined ((answers.filterMap passedOn).filterMap chunk?) = answers.flatMap delivered := by
  rw [List.filterMap_filterMap]
  induction answers with
  | nil => rfl
  | cons answer answers ih =>
    rw [List.flatMap_cons, ← ih]
    rcases answer with cause | _ | ⟨head, tail⟩
    · by_cases hkind : cause.kind = .interrupted <;> simp [passedOn, hkind, delivered, chunk?]
    · rw [List.filterMap_cons]
      rfl
    · simp [passedOn, delivered, chunk?, Chunk.bytes]

end ReadEvent

namespace ChunkedReader

open ReadEvent (answers later passedOn delivered)

/-- An answer without an interruption is the one that reading on stops at. -/
theorem readOn_of_passedOn {room : Nat} {events : List ReadEvent}
    (h : passedOn (ReadEvent.read room events).1 ≠ none) :
    readOn room events = ReadEvent.read room events := by
  cases events with
  | nil => rfl
  | cons event rest =>
    cases event with
    | finish => rfl
    | data => rfl
    | failure cause =>
      have hkind : cause.kind ≠ .interrupted := fun hkind => h (if_pos hkind)
      rw [readOn, if_neg hkind]
      rfl

/-- Reading on passes over a stretch of interruptions and stops at what follows them. -/
theorem readOn_eq (room : Nat) (events : List ReadEvent) : ∃ reads stops answer,
    readOn room events = (answer, later room (reads + 1) events) ∧
    answers room (reads + 1) events = stops ++ [answer] ∧
    stops.filterMap passedOn = [] ∧ passedOn answer ≠ none := by
  induction events with
  | nil => exact ⟨0, [], .ok [], rfl, rfl, rfl, nofun⟩
  | cons event rest ih =>
    by_cases hfirst : passedOn (ReadEvent.read room (event :: rest)).1 = none
    · cases event with
      | finish => cases hfirst
      | data bytes =>
        rw [ReadEvent.read_data, ReadEvent.passedOn_eq_none_iff] at hfirst
        obtain ⟨_, hcause, _⟩ := hfirst
        cases hcause
      | failure cause =>
        obtain ⟨_, hcause, hkind⟩ := ReadEvent.passedOn_eq_none_iff.mp hfirst
        obtain rfl := Except.error.inj hcause
        obtain ⟨reads, stops, answer, hread, hanswers, hstops, hanswer⟩ := ih
        refine ⟨reads + 1, .error cause :: stops, answer, ?_, ?_, ?_, hanswer⟩
        · rw [readOn, if_pos hkind, hread]
          rfl
        · rw [answers, ReadEvent.read, hanswers, List.cons_append]
        · rw [List.filterMap_cons, show passedOn (.error cause) = none from if_pos hkind, hstops]
    · exact ⟨0, [], _, readOn_of_passedOn hfirst, rfl, rfl, hfirst⟩

theorem next_of_finished {source : ChunkedReader} (h : source.finished = true) :
    ChunkSource.next source = (.ok none, source) :=
  if_pos h

/-- A call makes reads up to the first answer that is not an interruption, and passes that on. -/
theorem next_eq {source : ChunkedReader} (h : source.finished = false) :
    ∃ reads stops answer result after,
      ChunkSource.next source = (result, after) ∧
      answers source.chunkSize (reads + 1) source.events = stops ++ [answer] ∧
      stops.filterMap passedOn = [] ∧ passedOn answer = some result ∧
      after.events = later source.chunkSize (reads + 1) source.events ∧
      after.chunkSize = source.chunkSize ∧ (after.finished = true ↔ answer = .ok []) := by
  obtain ⟨reads, stops, answer, hread, hanswers, hstops, hanswer⟩ :=
    readOn_eq source.chunkSize source.events
  have hnext : ChunkSource.next source = next source := rfl
  rw [next, if_neg (by simp [h]), hread] at hnext
  rcases answer with cause | _ | ⟨head, tail⟩
  · have hpassed : passedOn (.error cause) = some (.error (.source cause)) :=
      if_neg fun hkind => hanswer (if_pos hkind)
    exact ⟨reads, stops, _, _, _, hnext, hanswers, hstops, hpassed, rfl, rfl, by simp [h]⟩
  · exact ⟨reads, stops, _, _, _, hnext, hanswers, hstops, rfl, rfl, rfl, by simp⟩
  · exact ⟨reads, stops, _, _, _, hnext, hanswers, hstops, rfl, rfl, rfl, by simp [h]⟩

/-- How a source over a reader stands after some calls. It has made `reads` reads, and it was called
`idle` times behind their end. -/
structure Relayed (size : Nat) (events : List ReadEvent) (calls reads idle : Nat) : Prop where
  handedOut : ChunkSource.answers calls (ofEvents size events) =
    (answers (max size 1) reads events).filterMap passedOn ++ List.replicate idle (.ok none)
  left : (ChunkSource.later calls (ofEvents size events)).events = later (max size 1) reads events
  room : (ChunkSource.later calls (ofEvents size events)).chunkSize = max size 1
  finished : (ChunkSource.later calls (ofEvents size events)).finished = true ↔
    .ok [] ∈ answers (max size 1) reads events
  /-- Nothing is read behind the end. -/
  last : ∀ front back, answers (max size 1) reads events = front ++ .ok [] :: back → back = []
  idle : 0 < idle → .ok [] ∈ answers (max size 1) reads events

variable {size : Nat} {events : List ReadEvent} {calls reads idle : Nat}

theorem Relayed.start (size : Nat) (events : List ReadEvent) : Relayed size events 0 0 0 where
  handedOut := rfl
  left := rfl
  room := rfl
  finished := by simp [ChunkSource.later, ofEvents, answers]
  last front back h := by simp [answers] at h
  idle h := absurd h (Nat.lt_irrefl 0)

/-- The answers to one more call. -/
theorem answers_succ (calls : Nat) (source : ChunkedReader) :
    ChunkSource.answers (calls + 1) source =
        ChunkSource.answers calls source ++ [(ChunkSource.next (ChunkSource.later calls source)).1] ∧
      ChunkSource.later (calls + 1) source =
        (ChunkSource.next (ChunkSource.later calls source)).2 := by
  rw [ChunkSource.answers_add, ChunkSource.later_add]
  exact ⟨rfl, rfl⟩

theorem Relayed.next (h : Relayed size events calls reads idle) :
    ∃ reads idle, Relayed size events (calls + 1) reads idle := by
  obtain ⟨hanswers, hlater⟩ := answers_succ calls (ofEvents size events)
  cases hfinished : (ChunkSource.later calls (ofEvents size events)).finished with
  | true =>
    rw [next_of_finished hfinished] at hanswers hlater
    refine ⟨reads, idle + 1, ?_, ?_, ?_, ?_, h.last, fun _ => h.finished.mp hfinished⟩
    · rw [hanswers, h.handedOut, List.append_assoc, List.replicate_succ']
    · rw [hlater, h.left]
    · rw [hlater, h.room]
    · rw [hlater, h.finished]
  | false =>
    have hopen : .ok [] ∉ answers (max size 1) reads events := fun hend => by
      simp [h.finished.mpr hend] at hfinished
    obtain ⟨more, stops, answer, result, after, hnext, hmade, hstops, hpassed, hevents, hroom,
      hend⟩ := next_eq hfinished
    rw [h.room, h.left] at hmade hevents
    have hidle : idle = 0 := Nat.eq_zero_of_not_pos fun hpos => hopen (h.idle hpos)
    have hreads : answers (max size 1) (reads + (more + 1)) events =
        (answers (max size 1) reads events ++ stops) ++ [answer] := by
      rw [ReadEvent.answers_add, hmade, List.append_assoc]
    have hbefore : .ok [] ∉ answers (max size 1) reads events ++ stops := fun hmem => by
      have hstop : .ok [] ∈ stops := (List.mem_append.mp hmem).resolve_left hopen
      exact nomatch List.filterMap_eq_nil_iff.mp hstops _ hstop
    rw [hnext] at hanswers hlater
    refine ⟨reads + (more + 1), 0, ?_, ?_, ?_, ?_, ?_, fun hpos => absurd hpos (Nat.lt_irrefl 0)⟩
    · rw [hanswers, h.handedOut, hidle, hreads]
      simp [hstops, hpassed]
    · rw [hlater, hevents, ← ReadEvent.later_add]
    · rw [hlater, hroom, h.room]
    · rw [hlater, hend, hreads, List.mem_append, or_iff_right hbefore, List.mem_singleton, eq_comm]
    · intro front back hsplit
      rw [hreads] at hsplit
      rcases List.eq_nil_or_concat back with hback | ⟨middle, last, hback⟩
      · exact hback
      · -- an end before the last answer would be one of those that the source read on from
        rw [hback, List.concat_eq_append, ← List.cons_append, ← List.append_assoc] at hsplit
        rw [(List.append_inj' hsplit rfl).1] at hbefore
        exact absurd (List.mem_append_right front List.mem_cons_self) hbefore

theorem relayed (size : Nat) (events : List ReadEvent) (calls : Nat) :
    ∃ reads idle, Relayed size events calls reads idle := by
  induction calls with
  | zero => exact ⟨0, 0, .start size events⟩
  | succ calls ih =>
    obtain ⟨reads, idle, h⟩ := ih
    exact h.next

/-- What was handed out is what the reader brought. -/
theorem Relayed.bytes (h : Relayed size events calls reads idle) :
    joined (ChunkSource.handed calls (ofEvents size events)) =
      (answers (max size 1) reads events).flatMap delivered := by
  have hends : (List.replicate idle (.ok none : Except DecodeError (Option Bytes))).filterMap chunk? =
      [] := by
    rw [List.filterMap_eq_nil_iff]
    intro answer hanswer
    rw [(List.mem_replicate.mp hanswer).2]
    rfl
  rw [ChunkSource.handed, h.handedOut, List.filterMap_append, hends, List.append_nil,
    ReadEvent.joined_passedOn]

/-- Every answer but the ends comes from an answer of the reader. -/
theorem Relayed.exists_read (h : Relayed size events calls reads idle)
    {result : Except DecodeError (Option Bytes)}
    (hmem : result ∈ ChunkSource.answers calls (ofEvents size events)) (hsome : result ≠ .ok none) :
    ∃ answer ∈ answers (max size 1) reads events, passedOn answer = some result := by
  rw [h.handedOut] at hmem
  rcases List.mem_append.mp hmem with hread | hend
  · exact List.mem_filterMap.mp hread
  · exact absurd (List.mem_replicate.mp hend).2 hsome

theorem Relayed.chunk (h : Relayed size events calls reads idle) {bytes : Bytes}
    (hmem : .ok (some bytes) ∈ ChunkSource.answers calls (ofEvents size events)) :
    bytes ≠ [] ∧ bytes.length ≤ max size 1 := by
  obtain ⟨answer, hread, hpassed⟩ := h.exists_read hmem nofun
  obtain ⟨rfl, hsome⟩ := ReadEvent.passedOn_eq_chunk_iff.mp hpassed
  exact ⟨hsome, ReadEvent.length_le_of_mem_answers hread⟩

theorem Relayed.failure (h : Relayed size events calls reads idle) {cause : DecodeError}
    (hmem : .error cause ∈ ChunkSource.answers calls (ofEvents size events)) :
    ∃ failure, cause = .source failure ∧ failure.kind ≠ .interrupted := by
  obtain ⟨answer, _, hpassed⟩ := h.exists_read hmem nofun
  obtain ⟨failure, _, hkind, hcause⟩ := ReadEvent.passedOn_eq_failure_iff.mp hpassed
  exact ⟨failure, hcause, hkind⟩

/-- A call that gives nothing has found the end, and only such a call has. -/
theorem next_eq_none_iff (source : ChunkedReader) :
    (ChunkSource.next source).1 = .ok none ↔ (ChunkSource.next source).2.finished = true := by
  cases hfinished : source.finished with
  | true => simp [next_of_finished hfinished, hfinished]
  | false =>
    obtain ⟨_, _, answer, result, after, hnext, _, _, hpassed, _, _, hend⟩ := next_eq hfinished
    rw [hnext, hend, ← ReadEvent.passedOn_eq_end_iff, hpassed, Option.some.injEq]

end ChunkedReader

end Columnar
