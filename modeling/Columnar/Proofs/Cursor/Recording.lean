import Columnar.Proofs.Cursor.Refinement
import Columnar.Proofs.Cursor.Request

/-!
Cursors over sources that keep a record of their answers. The record changes nothing that a
cursor does, because a cursor sees of a source only its answers, and it tells from outside which
chunks were handed out so far and which errors came.

Whatever a decoder does with the answers, all that it does to a cursor is to make one read after
another, so what holds after any reads holds after any program.
-/
namespace Columnar

/-- The chunk that an answer brings. An end and a failure bring none. -/
def chunk? : Except DecodeError (Option Bytes) → Option Chunk
  | .ok (some (head :: tail)) => some ⟨head, tail⟩
  | _ => none

@[simp] theorem chunk?_bytes (chunk : Chunk) : chunk? (.ok (some chunk.bytes)) = some chunk := rfl

/-- The error that an answer is. -/
def error? : Except DecodeError (Option Bytes) → Option DecodeError
  | .error cause => some cause
  | .ok _ => none

theorem error?_eq_some_iff {answer : Except DecodeError (Option Bytes)} {cause : DecodeError} :
    error? answer = some cause ↔ answer = .error cause := by
  cases answer <;> simp [error?]

/-- A source with all answers that it gave so far. -/
structure Recorded (σ : Type) where
  source : σ
  answers : List (Except DecodeError (Option Bytes)) := []

/-- The map follows the steps of its source: the answers are the same. -/
def Follows [ChunkSource σ] [ChunkSource τ] (f : σ → τ) : Prop :=
  ∀ source, ChunkSource.next (f source) = (ChunkSource.next source).map id f

namespace Follows

variable [ChunkSource σ] [ChunkSource τ] {f : σ → τ} (hf : Follows f) {source last : σ}

include hf

theorem map_next {answer : Except DecodeError (Option Bytes)}
    (h : ChunkSource.next source = (answer, last)) :
    ChunkSource.next (f source) = (answer, f last) := by
  rw [hf source, h]
  rfl

theorem map_supplies {chunks : List Chunk} (h : Supplies source chunks last) :
    Supplies (f source) chunks (f last) := by
  induction h with
  | none source => exact .none (f source)
  | more hnext _ ih => exact .more (hf.map_next hnext) ih

theorem map_stops {exhausted : Bool} (h : Stops exhausted source last) :
    Stops exhausted (f source) (f last) := by
  cases exhausted with
  | true => exact congrArg f h
  | false =>
    obtain ⟨hends, rfl⟩ := h
    simp only [Stops, Ends, hf source, Prod.map_fst, Prod.map_snd, id_eq]
    exact ⟨hends, trivial⟩

end Follows

namespace Recorded

instance [ChunkSource σ] : ChunkSource (Recorded σ) where
  next recorded :=
    let (answer, source) := ChunkSource.next recorded.source
    (answer, ⟨source, recorded.answers ++ [answer]⟩)

/-- The chunks handed out so far. -/
def chunks (recorded : Recorded σ) : List Chunk := recorded.answers.filterMap chunk?

/-- The errors so far. -/
def failures (recorded : Recorded σ) : List DecodeError := recorded.answers.filterMap error?

variable [ChunkSource σ] {recorded last : Recorded σ}

theorem follows_source : Follows (Recorded.source (σ := σ)) := fun _ => rfl

/-- What is told by single answers is told by one more after a call. -/
theorem filterMap_of_next (tell : Except DecodeError (Option Bytes) → Option α)
    {answer : Except DecodeError (Option Bytes)} (h : ChunkSource.next recorded = (answer, last)) :
    last.answers.filterMap tell = recorded.answers.filterMap tell ++ (tell answer).toList := by
  have hanswers : last.answers = recorded.answers ++ [answer] := by
    obtain ⟨rfl, rfl⟩ := Prod.mk.inj h
    rfl
  rw [hanswers, List.filterMap_append]
  cases htold : tell answer <;> simp [htold]

theorem chunks_of_next {answer : Except DecodeError (Option Bytes)}
    (h : ChunkSource.next recorded = (answer, last)) :
    last.chunks = recorded.chunks ++ (chunk? answer).toList :=
  filterMap_of_next chunk? h

theorem chunks_of_supplies {chunks : List Chunk} (h : Supplies recorded chunks last) :
    last.chunks = recorded.chunks ++ chunks := by
  induction h with
  | none => simp
  | more hnext _ ih =>
    rw [ih, chunks_of_next hnext, chunk?_bytes, List.append_assoc]
    rfl

theorem failures_of_next {answer : Except DecodeError (Option Bytes)}
    (h : ChunkSource.next recorded = (answer, last)) :
    last.failures = recorded.failures ++ (error? answer).toList :=
  filterMap_of_next error? h

/-- A chunk is no error. -/
theorem failures_of_supplies {chunks : List Chunk} (h : Supplies recorded chunks last) :
    last.failures = recorded.failures := by
  induction h with
  | none => rfl
  | more hnext _ ih => rw [ih, failures_of_next hnext, error?, Option.toList_none, List.append_nil]

/-- An end is neither a chunk nor an error. -/
theorem told_of_stops {exhausted : Bool} (h : Stops exhausted recorded last) :
    last.chunks = recorded.chunks ∧ last.failures = recorded.failures := by
  cases exhausted with
  | true =>
    obtain rfl : last = recorded := h
    exact ⟨rfl, rfl⟩
  | false =>
    obtain ⟨hends, hlast⟩ := h
    have hnext : ChunkSource.next recorded = ((ChunkSource.next recorded).1, last) := by rw [hlast]
    rw [chunks_of_next hnext, failures_of_next hnext]
    rcases hends with hanswer | hanswer <;> simp [hanswer, chunk?, error?]

end Recorded

namespace Cursor

/-- The same cursor over another source. -/
def mapSource (f : σ → τ) (cursor : Cursor σ) : Cursor τ :=
  { source := f cursor.source
    config := cursor.config
    region := cursor.region
    scratch := cursor.scratch
    scratchCapacity := cursor.scratchCapacity
    exhausted := cursor.exhausted
    closed := cursor.closed
    counters := cursor.counters }

@[simp] theorem source_mapSource (f : σ → τ) (cursor : Cursor σ) :
    (cursor.mapSource f).source = f cursor.source := rfl
@[simp] theorem config_mapSource (f : σ → τ) (cursor : Cursor σ) :
    (cursor.mapSource f).config = cursor.config := rfl
@[simp] theorem region_mapSource (f : σ → τ) (cursor : Cursor σ) :
    (cursor.mapSource f).region = cursor.region := rfl
@[simp] theorem exhausted_mapSource (f : σ → τ) (cursor : Cursor σ) :
    (cursor.mapSource f).exhausted = cursor.exhausted := rfl
@[simp] theorem closed_mapSource (f : σ → τ) (cursor : Cursor σ) :
    (cursor.mapSource f).closed = cursor.closed := rfl

/-- The cursor with a record of its source that is empty so far. -/
def recorded (cursor : Cursor σ) : Cursor (Recorded σ) :=
  cursor.mapSource fun source => { source }

theorem mapSource_recorded (cursor : Cursor σ) :
    cursor.recorded.mapSource Recorded.source = cursor := rfl

section Follows

variable [ChunkSource σ] [ChunkSource τ] {f : σ → τ} (hf : Follows f)

include hf

theorem pull_mapSource (cursor : Cursor σ) :
    (cursor.mapSource f).pull = cursor.pull.map id (mapSource f) := by
  by_cases hopen : cursor.exhausted = true
  · have hmapped : (cursor.mapSource f).exhausted = true := hopen
    rw [pull_of_exhausted hmapped, pull_of_exhausted hopen]
    rfl
  · have hnext := hf cursor.source
    rw [pull, pull, exhausted_mapSource, source_mapSource, if_neg hopen, if_neg hopen, hnext]
    rcases ChunkSource.next cursor.source with ⟨cause | _ | _ | ⟨head, tail⟩, source⟩
    · rfl
    · rfl
    · rfl
    · rfl

theorem assemble_mapSource (size needed : Nat) (cursor : Cursor σ) :
    assemble size needed (cursor.mapSource f) =
      (assemble size needed cursor).map id (mapSource f) := by
  induction needed using Nat.strongRecOn generalizing cursor with
  | ind needed ih =>
    rw [assemble, assemble]
    by_cases hzero : needed = 0
    · rw [if_pos hzero, if_pos hzero]
      rfl
    · rw [if_neg hzero, if_neg hzero, pull_mapSource hf]
      rcases cursor.pull with ⟨cause | _ | chunk, after⟩
      · rfl
      · rfl
      · simp only [Prod.map_apply, id_eq]
        by_cases hlast : needed < chunk.length
        · rw [if_pos hlast, if_pos hlast]
          rfl
        · rw [if_neg hlast, if_neg hlast]
          exact ih _ (by have := chunk.length_pos; omega)
            { after with scratch := chunk.bytes.reverseAux after.scratch }

theorem readAcross_mapSource (size : Nat) (cursor : Cursor σ) :
    (cursor.mapSource f).readAcross size = (cursor.readAcross size).map id (mapSource f) := by
  have hassemble := assemble_mapSource hf size (size - cursor.region.unread.length)
    { cursor with
      region := .scratch
      scratch := cursor.region.unread.reverse
      scratchCapacity := cursor.capacityFor size }
  have hcapacity : (cursor.mapSource f).capacityFor size = cursor.capacityFor size := rfl
  by_cases hroom : maxAllocation < cursor.capacityFor size
  · simp only [readAcross, hcapacity, if_pos hroom]
    rfl
  · simp only [readAcross, hcapacity, if_neg hroom]
    simp only [mapSource] at hassemble ⊢
    rw [hassemble]
    rcases assemble _ _ _ with ⟨result, after⟩
    cases result <;> rfl

theorem readBuffered_mapSource (size : Nat) (cursor : Cursor σ) :
    (cursor.mapSource f).readBuffered size = (cursor.readBuffered size).map id (mapSource f) := by
  rw [readBuffered, readBuffered, region_mapSource]
  cases cursor.region.unread.split? size with
  | none => exact readAcross_mapSource hf size cursor
  | some view => rfl

theorem readBytes_mapSource (size : Nat) (cursor : Cursor σ) :
    (cursor.mapSource f).readBytes size = (cursor.readBytes size).map id (mapSource f) := by
  rw [readBytes, readBytes, closed_mapSource, config_mapSource, region_mapSource,
    pull_mapSource hf]
  by_cases hclosed : cursor.closed = true
  · rw [if_pos hclosed, if_pos hclosed]
    rfl
  rw [if_neg hclosed, if_neg hclosed]
  by_cases hzero : size = 0
  · rw [if_pos hzero, if_pos hzero]
    rfl
  rw [if_neg hzero, if_neg hzero]
  by_cases hlimit : cursor.config.maxReadSize < size
  · rw [if_pos hlimit, if_pos hlimit]
    rfl
  rw [if_neg hlimit, if_neg hlimit]
  by_cases hspent : cursor.region.unread.isEmpty
  · rw [if_pos hspent, if_pos hspent]
    rcases cursor.pull with ⟨cause | _ | chunk, after⟩
    · rfl
    · rfl
    · exact readBuffered_mapSource hf size (after.enter chunk)
  · rw [if_neg hspent, if_neg hspent]
    exact readBuffered_mapSource hf size cursor

theorem readByte_mapSource (cursor : Cursor σ) :
    (cursor.mapSource f).readByte = cursor.readByte.map id (mapSource f) := by
  rw [readByte, readByte, closed_mapSource, region_mapSource, pull_mapSource hf]
  by_cases hclosed : cursor.closed = true
  · rw [if_pos hclosed, if_pos hclosed]
    rfl
  rw [if_neg hclosed, if_neg hclosed]
  cases cursor.region.unread with
  | cons byte rest => rfl
  | nil =>
    rcases cursor.pull with ⟨cause | _ | chunk, after⟩
    · rfl
    · rfl
    · rfl

theorem run_mapSource (request : Request) (cursor : Cursor σ) :
    request.run (cursor.mapSource f) = (request.run cursor).map id (mapSource f) := by
  cases request with
  | bytes size => exact readBytes_mapSource hf size cursor
  | byte =>
    simp only [Request.run, readByte_mapSource hf]
    rfl

theorem after_mapSource (requests : List Request) (cursor : Cursor σ) :
    (cursor.mapSource f).after requests = (cursor.after requests).mapSource f := by
  induction requests generalizing cursor with
  | nil => rfl
  | cons request requests ih =>
    simp only [after, run_mapSource hf, Prod.map_snd]
    exact ih _

theorem refilled_mapSource (cursor : Cursor σ) :
    (cursor.mapSource f).refilled = cursor.refilled.mapSource f := by
  rw [refilled, refilled, region_mapSource]
  by_cases hspent : cursor.region.unread.isEmpty
  · rw [if_pos hspent, if_pos hspent, pull_mapSource hf]
    rcases cursor.pull with ⟨cause | _ | chunk, after⟩
    · rfl
    · rfl
    · rfl
  · rw [if_neg hspent, if_neg hspent]

theorem straddles_mapSource (size : Nat) (cursor : Cursor σ) :
    (cursor.mapSource f).straddles size = cursor.straddles size := by
  simp only [straddles, refilled_mapSource hf]
  rfl

theorem straddled?_mapSource (request : Request) (cursor : Cursor σ) :
    request.straddled? (cursor.mapSource f) = request.straddled? cursor := by
  cases request with
  | byte => rfl
  | bytes size => rw [Request.straddled?, straddles_mapSource hf, Request.straddled?]

theorem returned_mapSource (request : Request) (cursor : Cursor σ) :
    request.returned (cursor.mapSource f) = request.returned cursor := by
  simp only [Request.returned, run_mapSource hf, Prod.map_fst, id_eq]

theorem discarded_mapSource (request : Request) (cursor : Cursor σ) :
    request.discarded (cursor.mapSource f) = request.discarded cursor := by
  cases request with
  | byte => rfl
  | bytes size =>
    simp only [Request.discarded, straddles_mapSource hf, readBytes_mapSource hf]
    rcases cursor.readBytes size with ⟨(cause | _) | bytes, after⟩
    · rfl
    · rfl
    · rfl

end Follows

variable [ChunkSource σ]

/-- A source that carries a proof of what its calls keep. -/
@[reducible]
def carrying {P : σ → Prop} (hnext : ∀ source, P source → P (ChunkSource.next source).2) :
    ChunkSource {source : σ // P source} where
  next source := ((ChunkSource.next source.1).1, ⟨(ChunkSource.next source.1).2, hnext _ source.2⟩)

/-- What every call of the source keeps, every run keeps. The source can carry its proof, and the
cursor does not notice. -/
theorem source_after {P : σ → Prop} (hnext : ∀ source, P source → P (ChunkSource.next source).2)
    (requests : List Request) (cursor : Cursor σ) (h : P cursor.source) :
    P (cursor.after requests).source := by
  let := carrying hnext
  have hfollows : Follows (Subtype.val : {source : σ // P source} → σ) := fun _ => rfl
  have hafter := after_mapSource hfollows requests (cursor.mapSource fun _ => ⟨cursor.source, h⟩)
  rw [show cursor = (cursor.mapSource fun _ => ⟨cursor.source, h⟩).mapSource Subtype.val from rfl,
    hafter]
  exact Subtype.property _

/-- The errors that some reads get from the source. -/
def failures (requests : List Request) (cursor : Cursor σ) : List DecodeError :=
  (cursor.recorded.after requests).source.failures

end Cursor

namespace Recorded

variable [ChunkSource σ]

/-- The record has all answers since the source was in the given state. -/
def Since (start : σ) (recorded : Recorded σ) : Prop :=
  recorded.answers = ChunkSource.answers recorded.answers.length start ∧
    recorded.source = ChunkSource.later recorded.answers.length start

theorem Since.next {start : σ} {recorded : Recorded σ} (h : recorded.Since start) :
    (ChunkSource.next recorded).2.Since start := by
  obtain ⟨hanswers, hsource⟩ := h
  simp only [Since, ChunkSource.next, List.length_append, List.length_singleton,
    ChunkSource.answers_add, ChunkSource.later_add, ← hsource, ← hanswers]
  exact ⟨rfl, rfl⟩

end Recorded

namespace Cursor

variable [ChunkSource σ]

/-- The record of a run has the answers to its calls. -/
theorem since_after (requests : List Request) (cursor : Cursor σ) :
    (cursor.recorded.after requests).source.Since cursor.source :=
  source_after (fun _ => Recorded.Since.next) requests cursor.recorded ⟨rfl, rfl⟩

variable {cursor : Cursor σ} {kind : DecodeError → Prop}

theorem failsWith_after (h : ChunkSource.FailsWith kind cursor.source) (requests : List Request) :
    ChunkSource.FailsWith kind (cursor.after requests).source :=
  source_after (fun _ => ChunkSource.FailsWith.next) requests cursor h

theorem kind_of_failures (h : ChunkSource.FailsWith kind cursor.source) {requests : List Request}
    {cause : DecodeError} (hfailed : cause ∈ cursor.failures requests) : kind cause := by
  obtain ⟨answer, hanswer, herror⟩ := List.mem_filterMap.mp hfailed
  obtain rfl := error?_eq_some_iff.mp herror
  rw [(since_after requests cursor).1] at hanswer
  exact h _ cause hanswer

end Cursor

namespace Decoder

/-- The single reads of a run, in order, the one that fails included. -/
def reads (source : ByteSource σ) : Decoder α → σ → List Request
  | .done _, _ => []
  | .fail _, _ => []
  | .byte next, state =>
    .byte :: (source.readByte state).listNext fun b state => (next b).reads source state
  | .bytes size next, state =>
    .bytes size ::
      (source.readBytes size state).listNext fun block state => (next block).reads source state
  | .encoding next, state => (next (source.encoding state)).reads source state

end Decoder

/-- The single reads of a program. -/
def ReadStep.reads (source : ByteSource σ) : List ReadStep → σ → List Request
  | [], _ => []
  | step :: steps, state =>
    step.decoder.reads source state ++ reads source steps (step.run source state).2

namespace Cursor

variable [ChunkSource σ]

theorem after_append (front back : List Request) (cursor : Cursor σ) :
    cursor.after (front ++ back) = (cursor.after front).after back := by
  induction front generalizing cursor with
  | nil => rfl
  | cons request front ih => exact ih _

/-- A decoder leaves the cursor that its single reads leave. -/
theorem run_decoder (decoder : Decoder α) (cursor : Cursor σ) :
    (decoder.run byteSource cursor).2 = cursor.after (decoder.reads byteSource cursor) := by
  induction decoder generalizing cursor with
  | done => rfl
  | fail => rfl
  | byte next ih =>
    rw [Decoder.run_byte, Decoder.reads, after, Request.run]
    simp only [byteSource, Prod.map_snd, id_eq]
    rcases cursor.readByte with ⟨fault | b, rest⟩
    · rfl
    · exact ih b rest
  | bytes size next ih =>
    rw [Decoder.run_bytes, Decoder.reads, after, Request.run]
    simp only [byteSource]
    rcases cursor.readBytes size with ⟨fault | block, rest⟩
    · rfl
    · exact ih block rest
  | encoding next ih => exact ih _ cursor

theorem failsWith_decoder {kind : DecodeError → Prop} {cursor : Cursor σ}
    (h : ChunkSource.FailsWith kind cursor.source) (decoder : Decoder α) :
    ChunkSource.FailsWith kind (decoder.run byteSource cursor).2.source := by
  rw [run_decoder]
  exact failsWith_after h _

/-- A program leaves the cursor that its single reads leave. -/
theorem finish_eq (steps : List ReadStep) (cursor : Cursor σ) :
    ReadStep.finish byteSource steps cursor =
      cursor.after (ReadStep.reads byteSource steps cursor) := by
  induction steps generalizing cursor with
  | nil => rfl
  | cons step steps ih =>
    rw [ReadStep.finish, ReadStep.reads, after_append, ih, ReadStep.run_eq readsWords, run_decoder]

end Cursor

end Columnar
