import Columnar.Chunk
import Columnar.Decoder

/-!
A byte source over a stream of chunks. The cursor pulls chunks only when it needs them. A read
that the current chunk can serve alone is served from it; one that reaches past its end is
assembled in scratch storage, chunk by chunk, and what it leaves of its last chunk is served
next. Scratch storage grows by doubling and never shrinks until the cursor is closed.

The text that shows the state of a cursor has its chunk whole, as a quoted byte string, with the
place that reading has reached in it. The source and the configuration are not shown.
-/
namespace Columnar

/-- Where the next bytes come from: the rest of a chunk, or nowhere because the last read was
assembled in scratch storage and used up every byte pulled. -/
inductive Region where
  | chunk (data unread : Bytes)
  | scratch
  deriving DecidableEq, Repr

namespace Region

def unread : Region → Bytes
  | .chunk _ unread => unread
  | .scratch => []

/-- The same region with only `rest` left to read. -/
def leave (rest : Bytes) : Region → Region
  | .chunk data _ => .chunk data rest
  | .scratch => .scratch

@[simp] theorem unread_chunk (data unread : Bytes) : (chunk data unread).unread = unread := rfl
@[simp] theorem unread_scratch : scratch.unread = [] := rfl

end Region

/-- What a cursor has done so far. The counters have 64 bits where the cursor runs; here they are
natural numbers, which never wrap around. -/
structure ReadCounters where
  /-- Chunks pulled, empty ones not counted. -/
  chunksPulled : Nat := 0
  /-- Bytes handed out. -/
  bytesConsumed : Nat := 0
  /-- Reads of several bytes that one chunk served alone. -/
  zeroCopyReads : Nat := 0
  /-- Reads of several bytes that were assembled. -/
  scratchReads : Nat := 0
  deriving DecidableEq, Repr

structure Cursor (σ : Type) where
  source : σ
  config : DecoderConfig
  region : Region := .chunk [] []
  /-- The bytes assembled by the latest read that needed scratch storage, the latest first. -/
  scratch : Bytes := []
  /-- How many bytes scratch storage has room for. -/
  scratchCapacity : Nat := 0
  /-- The source has reported its end. -/
  exhausted : Bool := false
  closed : Bool := false
  counters : ReadCounters := {}
  deriving DecidableEq, Repr

/-- The capacity after doubling from `capacity` until `target` is reached. Doubling stops at the
largest size, and every target is at most that. -/
def doubleUntil (target capacity : Nat) : Nat :=
  if 0 < capacity ∧ capacity < target ∧ target ≤ maxSize then
    doubleUntil target (mulSat capacity 2)
  else capacity
termination_by maxSize - capacity
decreasing_by
  simp only [mulSat]
  omega

namespace Cursor

/-- A cursor with the default configuration. -/
def ofSource (source : σ) : Cursor σ where
  source := source
  config := {}

/-- A cursor with the given configuration, if that is valid. -/
def ofConfig (config : DecoderConfig) (source : σ) : Except DecodeError (Cursor σ) :=
  match config.validate with
  | .ok () => .ok { source, config }
  | .error cause => .error (.config cause)

/-- The number of bytes consumed so far. -/
def position (cursor : Cursor σ) : Nat := cursor.counters.bytesConsumed

/-- The number of bytes pulled and not yet read. -/
def buffered (cursor : Cursor σ) : Nat := cursor.region.unread.length

/-- Takes a chunk from the source, or finds that there is none left. An empty chunk is an end
like any other, and an error of the source is handed on as it is. After its end the source is not
asked again. -/
def pull [ChunkSource σ] (cursor : Cursor σ) : Except DecodeError (Option Chunk) × Cursor σ :=
  if cursor.exhausted then (.ok none, cursor)
  else
    match ChunkSource.next cursor.source with
    | (.error cause, source) => (.error cause, { cursor with source })
    | (.ok (some (head :: tail)), source) =>
      (.ok (some ⟨head, tail⟩),
        { cursor with
          source
          counters := { cursor.counters with chunksPulled := cursor.counters.chunksPulled + 1 } })
    | (.ok (some []), source) => (.ok none, { cursor with source, exhausted := true })
    | (.ok none, source) => (.ok none, { cursor with source, exhausted := true })

/-- Serves one byte, leaving `rest` of the region. -/
def serveByte (rest : Bytes) (cursor : Cursor σ) : Cursor σ :=
  { cursor with
    region := cursor.region.leave rest
    counters := { cursor.counters with bytesConsumed := cursor.counters.bytesConsumed + 1 } }

/-- Serves `size` bytes of one chunk, leaving `rest` of it. -/
def serveView (size : Nat) (rest : Bytes) (cursor : Cursor σ) : Cursor σ :=
  { cursor with
    region := cursor.region.leave rest
    counters :=
      { cursor.counters with
        bytesConsumed := cursor.counters.bytesConsumed + size
        zeroCopyReads := cursor.counters.zeroCopyReads + 1 } }

/-- Makes a pulled chunk the current one. -/
def enter (chunk : Chunk) (cursor : Cursor σ) : Cursor σ :=
  { cursor with region := .chunk chunk.bytes chunk.bytes }

def readByte [ChunkSource σ] (cursor : Cursor σ) : Outcome (Cursor σ) UInt8 :=
  if cursor.closed then (.error (.error .closed), cursor)
  else
    match cursor.region.unread with
    | byte :: rest => (.ok byte, cursor.serveByte rest)
    | [] =>
      match cursor.pull with
      | (.error cause, cursor) => (.error (.error cause), cursor)
      | (.ok none, cursor) => (.error (.error (.endOfStream 1 0)), cursor)
      | (.ok (some chunk), cursor) => (.ok chunk.head, (cursor.enter chunk).serveByte chunk.tail)

/-- The capacity that scratch storage needs for a read of `size` bytes: twice that, reached by
doubling. It stays as it is if it is large enough. -/
def capacityFor (size : Nat) (cursor : Cursor σ) : Nat :=
  let target := mulSat size 2
  if target ≤ cursor.scratchCapacity then cursor.scratchCapacity
  else doubleUntil target (max cursor.scratchCapacity cursor.config.initialScratchCapacity)

/-- Appends chunks to scratch storage until a read of `size` bytes has the `needed` ones that it
lacks. What the read leaves of the last chunk becomes the region. -/
def assemble [ChunkSource σ] (size needed : Nat) (cursor : Cursor σ) :
    Except DecodeError Unit × Cursor σ :=
  if needed = 0 then (.ok (), cursor)
  else
    match cursor.pull with
    | (.error cause, cursor) => (.error cause, cursor)
    | (.ok none, cursor) => (.error (.endOfStream size (size - needed)), cursor)
    | (.ok (some chunk), cursor) =>
      if needed < chunk.length then
        (.ok (),
          { cursor with
            region := .chunk chunk.bytes (chunk.bytes.drop needed)
            scratch := (chunk.bytes.take needed).reverseAux cursor.scratch })
      else
        have := chunk.length_pos
        assemble size (needed - chunk.length)
          { cursor with scratch := chunk.bytes.reverseAux cursor.scratch }
termination_by needed

/-- A read of more bytes than the current chunk has left. Room is made before anything is taken
from the region or pulled. -/
def readAcross [ChunkSource σ] (size : Nat) (cursor : Cursor σ) : Outcome (Cursor σ) Bytes :=
  let capacity := cursor.capacityFor size
  if maxAllocation < capacity then (.error .capacityOverflow, { cursor with scratch := [] })
  else
    let unread := cursor.region.unread
    match assemble size (size - unread.length)
        { cursor with
          region := .scratch
          scratch := unread.reverse
          scratchCapacity := capacity } with
    | (.error cause, cursor) => (.error (.error cause), cursor)
    | (.ok (), cursor) =>
      (.ok cursor.scratch.reverse,
        { cursor with
          counters :=
            { cursor.counters with
              bytesConsumed := cursor.counters.bytesConsumed + size
              scratchReads := cursor.counters.scratchReads + 1 } })

/-- Reads from the current chunk if it has enough bytes left, otherwise across its end. -/
def readBuffered [ChunkSource σ] (size : Nat) (cursor : Cursor σ) : Outcome (Cursor σ) Bytes :=
  match cursor.region.unread.split? size with
  | some (front, rest) => (.ok front, cursor.serveView size rest)
  | none => cursor.readAcross size

/-- Reads `size` contiguous bytes. The empty read always succeeds on an open cursor. -/
def readBytes [ChunkSource σ] (size : Nat) (cursor : Cursor σ) : Outcome (Cursor σ) Bytes :=
  if cursor.closed then (.error (.error .closed), cursor)
  else if size = 0 then (.ok [], cursor)
  else if cursor.config.maxReadSize < size then
    (.error (.error (.readTooLarge size cursor.config.maxReadSize)), cursor)
  else if cursor.region.unread.isEmpty then
    match cursor.pull with
    | (.error cause, cursor) => (.error (.error cause), cursor)
    | (.ok none, cursor) => (.error (.error (.endOfStream size 0)), cursor)
    | (.ok (some chunk), cursor) => (cursor.enter chunk).readBuffered size
  else cursor.readBuffered size

/-- Reads a little-endian number of 64 bits. -/
def readWord [ChunkSource σ] (cursor : Cursor σ) : Outcome (Cursor σ) Nat :=
  match cursor.readBytes 8 with
  | (.ok block, cursor) => (.ok block.littleEndian, cursor)
  | (.error fault, cursor) => (.error fault, cursor)

/-- Gives up the current chunk and scratch storage for good. -/
def close (cursor : Cursor σ) : Cursor σ :=
  if cursor.closed then cursor
  else { cursor with region := .chunk [] [], scratch := [], scratchCapacity := 0, closed := true }

def byteSource [ChunkSource σ] : ByteSource (Cursor σ) where
  readByte := readByte
  readBytes := readBytes
  encoding cursor := cursor.config.encoding
  readWord := readWord

end Cursor

/-- A byte as it stands in a quoted byte string: printable ASCII as itself, the rest escaped. -/
def escapeByte (byte : UInt8) : List Char :=
  if byte = 10 then ['\\', 'n']
  else if byte = 13 then ['\\', 'r']
  else if byte = 9 then ['\\', 't']
  else if byte = 92 then ['\\', '\\']
  else if byte = 34 then ['\\', '"']
  else if byte = 0 then ['\\', '0']
  else if 32 ≤ byte ∧ byte < 127 then [Char.ofUInt8 byte]
  else '\\' :: 'x' :: Bytes.hexPair byte

def quoteBytes (bytes : Bytes) : String :=
  "b\"" ++ String.ofList (bytes.flatMap escapeByte) ++ "\""

def Region.describe : Region → String
  | .chunk data unread =>
    "Chunk \x7b data: " ++ quoteBytes data ++
      ", pos: " ++ toString (data.length - unread.length) ++ " \x7d"
  | .scratch => "Scratch"

/-- The counters as kept by the cursor, which keeps the capacity of scratch storage elsewhere. -/
def ReadCounters.describe (counters : ReadCounters) : String :=
  "CursorStats \x7b chunks_pulled: " ++ toString counters.chunksPulled ++
    ", bytes_consumed: " ++ toString counters.bytesConsumed ++
    ", zero_copy_reads: " ++ toString counters.zeroCopyReads ++
    ", scratch_reads: " ++ toString counters.scratchReads ++
    ", scratch_capacity: 0 \x7d"

def Cursor.describe (cursor : Cursor σ) : String :=
  "StreamCursor \x7b region: " ++ cursor.region.describe ++
    ", scratch_capacity: " ++ toString cursor.scratchCapacity ++
    ", exhausted: " ++ toString cursor.exhausted ++
    ", closed: " ++ toString cursor.closed ++
    ", stats: " ++ cursor.counters.describe ++ ", .. \x7d"

end Columnar
