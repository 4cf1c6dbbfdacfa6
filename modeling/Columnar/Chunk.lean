import Columnar.Fault

/-!
Sources of chunks. A source hands out byte strings one at a time until it has no more, and any
call may fail instead. Where one chunk ends and the next begins says nothing about the content.
A reader of chunks takes an empty one as the end, so the chunks that it works with are never
empty, and `Chunk` holds just those.

A blocking reader is such a source. It is what it does when it is read from: a list of events, each
the data that has arrived, an end, or a failure. One read takes what fits its buffer and leaves the
rest for the next. It is asked again while it is interrupted, and once it has reported its end it is
left alone.

A payload is cut into chunks at a fixed distance or at chosen places. No chunk is ever empty,
because an empty one would end the stream that is made of them.
-/
namespace Columnar

/-- One step of a source: an error, a chunk or nothing more, and the source after it. The error
may be any, also one that a cursor raises itself. -/
class ChunkSource (σ : Type) where
  next : σ → Except DecodeError (Option Bytes) × σ

/-- A byte string that is not empty. -/
structure Chunk where
  head : UInt8
  tail : Bytes
  deriving DecidableEq, Repr

namespace Chunk

def bytes (chunk : Chunk) : Bytes := chunk.head :: chunk.tail

def length (chunk : Chunk) : Nat := chunk.bytes.length

theorem length_pos (chunk : Chunk) : 0 < chunk.length := by simp [length, bytes]

end Chunk

/-- A list of chunks is a source that hands them out in order and never fails. -/
instance : ChunkSource (List Bytes) where
  next
    | [] => (.ok none, [])
    | chunk :: rest => (.ok (some chunk), rest)

/-- What a scripted source answers to one call. Its failures are those of the input below it. -/
inductive SourceEvent where
  | chunk (bytes : Bytes)
  | finish
  | failure (cause : IoError)
  deriving DecidableEq, Repr

def SourceEvent.answer : SourceEvent → Except DecodeError (Option Bytes)
  | .chunk bytes => .ok (some bytes)
  | .finish => .ok none
  | .failure cause => .error (.source cause)

/-- A script answers one call an event. It may go on after an end or a failure, and it ends
after its last event. -/
instance : ChunkSource (List SourceEvent) where
  next
    | [] => (.ok none, [])
    | event :: rest => (event.answer, rest)

/-- The answers of a source to at most `limit` calls, up to the first that says it has no more. -/
def ChunkSource.drain [ChunkSource σ] : (limit : Nat) → σ → List (Except DecodeError Bytes)
  | 0, _ => []
  | limit + 1, source =>
    match ChunkSource.next source with
    | (.ok none, _) => []
    | (.ok (some bytes), source) => .ok bytes :: drain limit source
    | (.error cause, source) => .error cause :: drain limit source

/-- What a blocking reader does when it is read from. -/
inductive ReadEvent where
  | data (bytes : Bytes)
  | finish
  | failure (cause : IoError)
  deriving DecidableEq, Repr

/-- One read into a buffer of `room` bytes. No bytes means the end. -/
def ReadEvent.read (room : Nat) : List ReadEvent → Except IoError Bytes × List ReadEvent
  | [] => (.ok [], [])
  | .finish :: rest => (.ok [], rest)
  | .failure cause :: rest => (.error cause, rest)
  | .data bytes :: rest =>
    match bytes.drop room with
    | [] => (.ok (bytes.take room), rest)
    | left => (.ok (bytes.take room), .data left :: rest)

/-- A blocking reader that hands out what each read gave. -/
structure ChunkedReader where
  events : List ReadEvent
  /-- How many bytes each read has room for. -/
  chunkSize : Nat
  /-- The reader has reported its end. -/
  finished : Bool := false
  deriving DecidableEq, Repr

namespace ChunkedReader

/-- A reader that is asked for `size` bytes at a time, and for one if that is zero. -/
def ofEvents (size : Nat) (events : List ReadEvent) : ChunkedReader where
  events := events
  chunkSize := max size 1

def ofConfig (config : DecoderConfig) (events : List ReadEvent) : ChunkedReader :=
  ofEvents config.readerChunkSize events

/-- Reads until something other than an interruption comes. -/
def readOn (room : Nat) : List ReadEvent → Except IoError Bytes × List ReadEvent
  | .failure cause :: rest =>
    if cause.kind = .interrupted then readOn room rest else (.error cause, rest)
  | events => ReadEvent.read room events

def next (source : ChunkedReader) : Except DecodeError (Option Bytes) × ChunkedReader :=
  if source.finished then (.ok none, source)
  else
    match readOn source.chunkSize source.events with
    | (.error cause, events) => (.error (.source cause), { source with events })
    | (.ok [], events) => (.ok none, { source with events, finished := true })
    | (.ok bytes, events) => (.ok (some bytes), { source with events })

instance : ChunkSource ChunkedReader where
  next := next

/-- The size of the reads and whether the end was seen. The reader itself is not shown. -/
def describe (source : ChunkedReader) : String :=
  "ReaderSource \x7b chunk_size: " ++ toString source.chunkSize ++
    ", finished: " ++ toString source.finished ++ ", .. \x7d"

end ChunkedReader

namespace Bytes

/-- Chunks of `size + 1` bytes, the last possibly shorter, behind those in `earlier`. -/
def chunksAfter (size : Nat) (data : Bytes) (earlier : List Bytes) : List Bytes :=
  match data with
  | [] => earlier.reverse
  | head :: tail => chunksAfter size (tail.drop size) ((head :: tail.take size) :: earlier)
termination_by data.length
decreasing_by
  rw [List.length_drop, List.length_cons]
  exact Nat.lt_succ_of_le (Nat.sub_le _ _)

/-- Chunks of `size` bytes, and of one byte if that is zero. The last may be shorter. -/
def splitEvery (size : Nat) (data : Bytes) : List Bytes := chunksAfter (size - 1) data []

/-- Cuts `data`, which begins at `start`, behind the chunks in `earlier`. -/
def cutsAfter (start : Nat) (data : Bytes) (earlier : List Bytes) : List Nat → List Bytes
  | [] => (if data.isEmpty then earlier else data :: earlier).reverse
  | offset :: offsets =>
    let front := data.take (offset - start)
    let earlier := if front.isEmpty then earlier else front :: earlier
    cutsAfter (start + front.length) (data.drop (offset - start)) earlier offsets

/-- Cuts at each of the offsets. One that lies before an earlier cut or past the end cuts
nothing off. -/
def splitAtOffsets (offsets : List Nat) (data : Bytes) : List Bytes := cutsAfter 0 data [] offsets

end Bytes

end Columnar
