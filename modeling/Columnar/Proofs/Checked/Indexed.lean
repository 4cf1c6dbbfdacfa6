import Columnar.Proofs.Checked.Source
import Columnar.Proofs.Cursor.Exchange

/-!
The cursor in checked operations. Its region is a chunk and a place in it, so every byte is looked
up at an index, every view is a slice, and what is left is a difference. Only its counters are not
checked.
-/
namespace Columnar

/-- A buffer can hold every chunk of the source. -/
def ShortChunks [ChunkSource σ] (source : σ) : Prop :=
  ∀ calls, ∀ chunk ∈ ChunkSource.handed calls source, chunk.length ≤ maxAllocation

/-- The chunks of the source have fewer bytes than the limit together, also those behind an end or
a failure. -/
def ContentBelow [ChunkSource σ] (limit : Nat) (source : σ) : Prop :=
  ∀ calls, (joined (ChunkSource.handed calls source)).length < limit

section Next

variable [ChunkSource σ] {source : σ}

theorem ShortChunks.next (h : ShortChunks source) : ShortChunks (ChunkSource.next source).2 := by
  intro calls chunk hchunk
  refine h (1 + calls) chunk ?_
  rw [ChunkSource.handed_add]
  exact List.mem_append_right _ hchunk

theorem ShortChunks.of_next (h : ShortChunks source) {chunk : Chunk}
    (hnext : (ChunkSource.next source).1 = .ok (some chunk.bytes)) :
    chunk.length ≤ maxAllocation := by
  refine h 1 chunk ?_
  rw [ChunkSource.handed, ChunkSource.answers, hnext, List.filterMap_cons, chunk?_bytes]
  exact List.mem_cons_self

theorem ShortChunks.later (h : ShortChunks source) (calls : Nat) :
    ShortChunks (ChunkSource.later calls source) := by
  induction calls generalizing source with
  | zero => exact h
  | succ calls ih => exact ih h.next

theorem ShortChunks.of_supplies {last : σ} {chunks : List Chunk}
    (h : ShortChunks source) (hsupplies : Supplies source chunks last) :
    ∀ chunk ∈ chunks, chunk.length ≤ maxAllocation := by
  intro chunk hchunk
  refine h chunks.length chunk ?_
  rw [hsupplies.calls.2]
  exact hchunk

theorem length_le_joined {chunks : List Chunk} {chunk : Chunk} (h : chunk ∈ chunks) :
    chunk.length ≤ (joined chunks).length := by
  obtain ⟨front, back, rfl⟩ := List.append_of_mem h
  rw [joined_append, joined_cons, List.length_append, List.length_append, Chunk.length_bytes]
  omega

theorem ContentBelow.shortChunks {limit : Nat} (h : ContentBelow limit source)
    (hlimit : limit ≤ maxAllocation) : ShortChunks source := by
  intro calls chunk hchunk
  have hchunk := length_le_joined hchunk
  have hcontent := h calls
  omega

end Next

theorem length_handed_le (calls : Nat) (chunks : List Bytes) :
    (joined (ChunkSource.handed calls chunks)).length ≤ chunks.flatten.length := by
  induction calls generalizing chunks with
  | zero => exact Nat.zero_le _
  | succ calls ih =>
    cases chunks with
    | nil => exact ih []
    | cons first rest =>
      have hrest := ih rest
      rw [List.flatten_cons, List.length_append]
      cases first with
      | nil => exact Nat.le_add_left_of_le hrest
      | cons head tail =>
        have hhanded : ChunkSource.handed (calls + 1) ((head :: tail) :: rest) =
            ⟨head, tail⟩ :: ChunkSource.handed calls rest := rfl
        rw [hhanded, joined_cons, List.length_append]
        exact Nat.add_le_add_left hrest _

theorem contentBelow_list {limit : Nat} {chunks : List Bytes}
    (h : chunks.flatten.length < limit) : ContentBelow limit chunks :=
  fun calls => Nat.lt_of_le_of_lt (length_handed_le calls chunks) h

namespace Checked

/-- Where the next bytes come from: from a place in a chunk, or nowhere. -/
inductive Place where
  | chunk (data : Bytes) (place : Nat)
  | scratch

namespace Place

def remaining : Place → Option Nat
  | .chunk data place => difference data.length place
  | .scratch => some 0

def hasByte : Place → Bool
  | .chunk data place => place < data.length
  | .scratch => false

/-- The bytes from the place on. -/
def tail : Place → Option Bytes
  | .chunk data place => slice place data.length data
  | .scratch => some []

def region : Place → Region
  | .chunk data place => .chunk data (data.drop place)
  | .scratch => .scratch

/-- The place is in its chunk or right behind it. -/
def InRange : Place → Prop
  | .chunk data place => place ≤ data.length ∧ data.length ≤ maxAllocation
  | .scratch => True

theorem remaining_eq {place : Place} (h : place.InRange) :
    place.remaining = some place.region.unread.length := by
  cases place with
  | chunk data place =>
    rw [region, Region.unread_chunk, List.length_drop]
    exact difference_eq h.1
  | scratch => rfl

theorem tail_eq {place : Place} (h : place.InRange) : place.tail = some place.region.unread := by
  cases place with
  | chunk data place =>
    rw [tail, slice, if_pos ⟨h.1, Nat.le_refl _⟩, List.take_length]
    rfl
  | scratch => rfl

theorem hasByte_iff {place : Place} : place.hasByte = true ↔ place.region.unread ≠ [] := by
  cases place with
  | chunk data place =>
    rw [hasByte, decide_eq_true_iff, region, Region.unread_chunk, Ne, List.drop_eq_nil_iff,
      Nat.not_le]
  | scratch => simp [hasByte, region]

end Place

structure Indexed (σ : Type) where
  source : σ
  config : DecoderConfig
  place : Place := .chunk [] 0
  scratch : Bytes := []
  scratchCapacity : Nat := 0
  exhausted : Bool := false
  closed : Bool := false
  counters : ReadCounters := {}

namespace Indexed

/-- The cursor that stands where the indexed one stands. -/
def view (indexed : Indexed σ) : Cursor σ where
  source := indexed.source
  config := indexed.config
  region := indexed.place.region
  scratch := indexed.scratch.reverse
  scratchCapacity := indexed.scratchCapacity
  exhausted := indexed.exhausted
  closed := indexed.closed
  counters := indexed.counters

def pull [ChunkSource σ] (indexed : Indexed σ) : Except DecodeError (Option Chunk) × Indexed σ :=
  if indexed.exhausted then (.ok none, indexed)
  else
    match ChunkSource.next indexed.source with
    | (.error cause, source) => (.error cause, { indexed with source })
    | (.ok (some (head :: tail)), source) =>
      (.ok (some ⟨head, tail⟩),
        { indexed with
          source
          counters := { indexed.counters with chunksPulled := indexed.counters.chunksPulled + 1 } })
    | (.ok (some []), source) => (.ok none, { indexed with source, exhausted := true })
    | (.ok none, source) => (.ok none, { indexed with source, exhausted := true })

def enter (chunk : Chunk) (indexed : Indexed σ) : Indexed σ :=
  { indexed with place := .chunk chunk.bytes 0 }

/-- Serves the byte at the place. -/
def serveByte (indexed : Indexed σ) : Option (Outcome (Indexed σ) UInt8) :=
  match indexed.place with
  | .chunk data place => do
    let byte ← data[place]?
    let next ← word (place + 1)
    return (.ok byte,
      { indexed with
        place := .chunk data next
        counters := { indexed.counters with bytesConsumed := indexed.counters.bytesConsumed + 1 } })
  | .scratch => none

def readByte [ChunkSource σ] (indexed : Indexed σ) : Option (Outcome (Indexed σ) UInt8) :=
  if indexed.closed then some (.error (.error .closed), indexed)
  else if indexed.place.hasByte then indexed.serveByte
  else
    match indexed.pull with
    | (.error cause, indexed) => some (.error (.error cause), indexed)
    | (.ok none, indexed) => some (.error (.error (.endOfStream 1 0)), indexed)
    | (.ok (some chunk), indexed) => (indexed.enter chunk).serveByte

/-- Serves `size` bytes from the place on. There are none if the region is scratch storage. -/
def serveView (size : Nat) (indexed : Indexed σ) : Option (Outcome (Indexed σ) Bytes) :=
  let counters :=
    { indexed.counters with
      bytesConsumed := indexed.counters.bytesConsumed + size
      zeroCopyReads := indexed.counters.zeroCopyReads + 1 }
  match indexed.place with
  | .chunk data place => do
    let stop ← word (place + size)
    let block ← slice place stop data
    return (.ok block, { indexed with place := .chunk data stop, counters })
  | .scratch => some (.ok [], { indexed with counters })

/-- Appends chunks to scratch storage until it has `size` bytes. -/
def assemble [ChunkSource σ] (size : Nat) (scratch : Bytes) (indexed : Indexed σ) :
    Option (Except DecodeError Unit × Indexed σ) :=
  if _ : scratch.length < size then
    match pull { indexed with scratch } with
    | (.error cause, indexed) => some (.error cause, indexed)
    | (.ok none, indexed) => some (.error (.endOfStream size scratch.length), indexed)
    | (.ok (some chunk), indexed) => do
      let needed ← difference size scratch.length
      if needed < chunk.length then
        let front ← slice 0 needed chunk.bytes
        return (.ok (),
          { indexed with place := .chunk chunk.bytes needed, scratch := scratch ++ front })
      else assemble size (scratch ++ chunk.bytes) indexed
  else some (.ok (), { indexed with scratch })
termination_by size - scratch.length
decreasing_by
  have hpos := chunk.length_pos
  rw [List.length_append, Chunk.length_bytes]
  omega

/-- A read of more bytes than the region has. Scratch storage is emptied before it grows. -/
def readAcross [ChunkSource σ] (size : Nat) (indexed : Indexed σ) :
    Option (Outcome (Indexed σ) Bytes) := do
  let indexed := { indexed with scratch := [] }
  let capacity := indexed.view.capacityFor size
  let room ← difference capacity indexed.scratch.length
  if maxAllocation < room then some (.error .capacityOverflow, indexed)
  else
    let tail ← indexed.place.tail
    match ← assemble size tail { indexed with place := .scratch, scratchCapacity := capacity } with
    | (.error cause, indexed) => some (.error (.error cause), indexed)
    | (.ok (), indexed) =>
      let block ← slice 0 size indexed.scratch
      return (.ok block,
        { indexed with
          counters :=
            { indexed.counters with
              bytesConsumed := indexed.counters.bytesConsumed + size
              scratchReads := indexed.counters.scratchReads + 1 } })

def readBuffered [ChunkSource σ] (size : Nat) (indexed : Indexed σ) :
    Option (Outcome (Indexed σ) Bytes) := do
  let left ← indexed.place.remaining
  if size ≤ left then indexed.serveView size else indexed.readAcross size

def readBytes [ChunkSource σ] (size : Nat) (indexed : Indexed σ) :
    Option (Outcome (Indexed σ) Bytes) :=
  if indexed.closed then some (.error (.error .closed), indexed)
  else if size = 0 then some (.ok [], indexed)
  else if indexed.config.maxReadSize < size then
    some (.error (.error (.readTooLarge size indexed.config.maxReadSize)), indexed)
  else do
    let left ← indexed.place.remaining
    if left = 0 then
      match indexed.pull with
      | (.error cause, indexed) => some (.error (.error cause), indexed)
      | (.ok none, indexed) => some (.error (.error (.endOfStream size 0)), indexed)
      | (.ok (some chunk), indexed) => (indexed.enter chunk).readBuffered size
    else indexed.readBuffered size

def byteSource [ChunkSource σ] : Source (Indexed σ) where
  readByte := readByte
  readBytes := readBytes
  encoding indexed := indexed.config.encoding

/-- Makes one read. -/
def run [ChunkSource σ] : Request → Indexed σ → Option (Outcome (Indexed σ) Bytes)
  | .byte, indexed => indexed.readByte.map fun outcome => outcome.map (Except.map fun b => [b]) id
  | .bytes size, indexed => indexed.readBytes size

/-- The indexed cursor after some reads. -/
def after [ChunkSource σ] : List Request → Indexed σ → Option (Indexed σ)
  | [], indexed => some indexed
  | request :: requests, indexed => do
    let outcome ← indexed.run request
    after requests outcome.2

/-- An indexed cursor with all of its source to be read. -/
def ofSource (config : DecoderConfig) (source : σ) : Indexed σ where
  source := source
  config := config

end Indexed

end Checked

end Columnar
