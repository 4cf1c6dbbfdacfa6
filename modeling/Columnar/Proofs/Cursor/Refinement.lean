import Columnar.Proofs.Cursor.Assembly
import Columnar.Proofs.Simulation

/-!
A cursor over chunks reads like a slice over their bytes. The relation between the two says that
the slice has before it what the region and the coming chunks hold together. It survives all
three ways of reading, and it ends with the stream: a read that fails there has moved bytes into
scratch storage that a slice would still offer.

So where chunks begin and end cannot be seen. A client of a cursor gets the same values and the same
faults at the same positions as a client of the whole data, whatever the chunks are, until the
stream has ended.
-/
namespace Columnar

/-- Doubling reaches a target without a buffer that cannot exist. -/
theorem doubleUntil_le {target capacity : Nat} (htarget : target ≤ 2 ^ 62)
    (hcapacity : capacity ≤ maxAllocation) : doubleUntil target capacity ≤ maxAllocation := by
  fun_induction doubleUntil target capacity with
  | case1 capacity hstep ih =>
    apply ih
    simp only [mulSat, maxAllocation]
    omega
  | case2 => exact hcapacity

namespace Cursor

/-- The slice stands where the cursor stands, with the same bytes before it. -/
structure Represents [ChunkSource σ] (config : DecoderConfig) (cursor : Cursor σ) (slice : Slice) :
    Prop where
  configured : cursor.config = config
  opened : cursor.closed = false
  live : cursor.exhausted = false
  room : cursor.scratchCapacity ≤ maxAllocation
  unread : ∃ chunks, Delivers cursor.source chunks ∧
    slice.unread = cursor.region.unread ++ joined chunks
  position : cursor.position = slice.position
  encoding : config.encoding = slice.encoding

/-- All that is left of it after the end of the stream. -/
def SamePlace (cursor : Cursor σ) (slice : Slice) : Prop := cursor.position = slice.position

variable [ChunkSource σ] {config : DecoderConfig} {cursor : Cursor σ} {slice : Slice}

theorem represents_ofConfig {source : σ} {chunks : List Chunk}
    (hcursor : ofConfig config source = .ok cursor) (hsource : Delivers source chunks) :
    Represents config cursor (.ofBytes (joined chunks) config.encoding) := by
  unfold ofConfig at hcursor
  split at hcursor
  · cases hcursor
    exact ⟨rfl, rfl, rfl, Nat.zero_le _, ⟨chunks, hsource, rfl⟩, rfl, rfl⟩
  · cases hcursor

omit [ChunkSource σ] in
theorem capacityFor_le {size : Nat} (hsize : size ≤ 2 ^ 61)
    (hscratch : cursor.config.initialScratchCapacity ≤ 2 ^ 62)
    (hroom : cursor.scratchCapacity ≤ maxAllocation) :
    cursor.capacityFor size ≤ maxAllocation := by
  simp only [capacityFor]
  split
  · exact hroom
  · apply doubleUntil_le
    · simp only [mulSat]; omega
    · simp only [maxAllocation] at hroom ⊢; omega

/-- Chunks that were pulled are the next part of what the slice has before it. -/
theorem Represents.split (h : Represents config cursor slice) {front : List Chunk} {source : σ}
    (hfront : Supplies cursor.source front source) :
    ∃ back, Delivers source back ∧
      slice.unread = cursor.region.unread ++ joined front ++ joined back := by
  obtain ⟨chunks, hsource, hunread⟩ := h.unread
  obtain ⟨back, rfl, hback⟩ := hsource.split hfront
  exact ⟨back, hback, by rw [hunread, joined_append, List.append_assoc]⟩

theorem Represents.not_failed (h : Represents config cursor slice) {front : List Chunk}
    {source last : σ} {cause : DecodeError} (hfront : Supplies cursor.source front source) :
    ChunkSource.next source ≠ (.error cause, last) := by
  obtain ⟨back, hback, _⟩ := h.split hfront
  exact hback.not_failed

/-- If nothing more comes, the slice has no more than what was pulled. -/
theorem Represents.unread_eq (h : Represents config cursor slice) {front : List Chunk}
    {source last : σ} (hfront : Supplies cursor.source front source)
    (hstops : Stops cursor.exhausted source last) :
    slice.unread = cursor.region.unread ++ joined front := by
  obtain ⟨back, hback, hunread⟩ := h.split hfront
  rw [h.live] at hstops
  obtain rfl := hback.eq_nil hstops.1
  rw [hunread, joined_nil, List.append_nil]

theorem Represents.enter (h : Represents config cursor slice) (hspent : cursor.region.unread = [])
    {chunk : Chunk} {source : σ}
    (hnext : ChunkSource.next cursor.source = (.ok (some chunk.bytes), source)) :
    Represents config ((cursor.supplied [chunk] source).enter chunk) slice := by
  obtain ⟨back, hback, hunread⟩ := h.split (.more hnext (.none source))
  refine ⟨h.configured, h.opened, h.live, h.room, ⟨back, hback, ?_⟩, h.position, h.encoding⟩
  rw [hunread, hspent, joined_cons, joined_nil, List.append_nil]
  rfl

/-- A read that the region serves, or that is assembled from it and the coming chunks. -/
theorem Represents.readBuffered (h : Represents config cursor slice)
    (hscratch : config.initialScratchCapacity ≤ 2 ^ 62) {size : Nat} (hsize : size ≤ 2 ^ 61) :
    Agree (Represents config) SamePlace (cursor.readBuffered size) (slice.readBytes size) := by
  obtain ⟨unread, position, encoding⟩ := slice
  have hposition := h.position
  have hcapacity := capacityFor_le hsize (h.configured ▸ hscratch) h.room
  rw [Cursor.readBuffered]
  cases hview : cursor.region.unread.split? size with
  | some view =>
    obtain ⟨front, rest⟩ := view
    obtain ⟨chunks, hsource, rfl⟩ := h.unread
    obtain ⟨hregion, rfl⟩ := Bytes.split?_eq_some_iff.mp hview
    have hrest : (cursor.serveView front.length rest).region.unread = rest :=
      Region.unread_leave hregion
    rw [hregion, List.append_assoc, Slice.readBytes_append]
    refine .ok front ⟨h.configured, h.opened, h.live, h.room, ⟨chunks, hsource, ?_⟩, ?_, h.encoding⟩
    · rw [hrest]
    · exact congrArg (· + front.length) hposition
  | none =>
    have hacross := across (Bytes.split?_eq_none_iff.mp hview)
    generalize cursor.readAcross size = outcome at hacross ⊢
    cases hacross with
    | overflow hroom => exact absurd hroom (Nat.not_lt.mpr hcapacity)
    | @complete chunks source bytes region _ hsupplies _ hbytes hlength =>
      obtain ⟨back, hback, rfl⟩ := h.split hsupplies
      subst hlength
      rw [hbytes, List.append_assoc, Slice.readBytes_append]
      refine .ok bytes
        ⟨h.configured, h.opened, h.live, hcapacity, ⟨back, hback, rfl⟩, ?_, h.encoding⟩
      exact congrArg (· + bytes.length) hposition
    | failed _ hsupplies _ _ hnext => exact absurd hnext (h.not_failed hsupplies)
    | @ended chunks source last _ hsupplies _ hlack hstops =>
      obtain rfl : unread = _ := h.unread_eq hsupplies hstops
      rw [Slice.readBytes_of_lt _ _ hlack]
      exact .endOfStream hposition

theorem Represents.readBytes (h : Represents config cursor slice)
    (hscratch : config.initialScratchCapacity ≤ 2 ^ 62) {size : Nat}
    (hsize : size ≤ min config.maxReadSize (2 ^ 61)) :
    Agree (Represents config) SamePlace (cursor.readBytes size) (slice.readBytes size) := by
  have hlimit : ¬ cursor.config.maxReadSize < size := by rw [h.configured]; omega
  have hsize : size ≤ 2 ^ 61 := by omega
  rw [Cursor.readBytes, if_neg (by simp [h.opened])]
  by_cases hzero : size = 0
  · subst hzero
    rw [if_pos rfl]
    exact .ok [] h
  · rw [if_neg hzero, if_neg hlimit]
    by_cases hspent : cursor.region.unread.isEmpty
    · have hnil := List.isEmpty_iff.mp hspent
      rw [if_pos hspent]
      rcases pull_cases cursor with ⟨chunk, source, _, hnext, hpull⟩ |
        ⟨cause, source, _, hnext, _⟩ | ⟨last, hstops, hpull⟩
      · simp only [hpull]
        exact (h.enter hnil hnext).readBuffered hscratch hsize
      · exact absurd hnext (h.not_failed (.none cursor.source))
      · have hempty : slice.unread = [] := by
          rw [h.unread_eq (.none cursor.source) hstops, hnil]
          rfl
        have hlack : slice.unread.length < size := by
          rw [hempty]
          exact Nat.pos_of_ne_zero hzero
        rw [hpull, Slice.readBytes_of_lt _ _ hlack, hempty]
        exact .endOfStream h.position
    · rw [if_neg hspent]
      exact h.readBuffered hscratch hsize

theorem Represents.readByte (h : Represents config cursor slice) :
    Agree (Represents config) SamePlace cursor.readByte slice.readByte := by
  obtain ⟨unread, position, encoding⟩ := slice
  have hposition := h.position
  rw [Cursor.readByte, if_neg (by simp [h.opened])]
  cases hregion : cursor.region.unread with
  | cons byte rest =>
    obtain ⟨chunks, hsource, rfl⟩ := h.unread
    have hfront : cursor.region.unread = [byte] ++ rest := hregion
    have hrest : (cursor.serveByte rest).region.unread = rest := Region.unread_leave hfront
    rw [hregion]
    refine .ok byte ⟨h.configured, h.opened, h.live, h.room, ⟨chunks, hsource, ?_⟩, ?_, h.encoding⟩
    · rw [hrest]
      rfl
    · exact congrArg (· + 1) hposition
  | nil =>
    rcases pull_cases cursor with ⟨chunk, source, _, hnext, hpull⟩ |
      ⟨cause, source, _, hnext, _⟩ | ⟨last, hstops, hpull⟩
    · obtain ⟨back, hback, rfl⟩ := h.split (.more hnext (.none source))
      rw [hpull, hregion, joined_cons, joined_nil, List.append_nil]
      refine .ok chunk.head
        ⟨h.configured, h.opened, h.live, h.room, ⟨back, hback, rfl⟩, ?_, h.encoding⟩
      exact congrArg (· + 1) hposition
    · exact absurd hnext (h.not_failed (.none cursor.source))
    · obtain rfl : unread = _ := h.unread_eq (.none cursor.source) hstops
      rw [hpull, hregion]
      exact .endOfStream hposition

/-- The cursor and the slice answer every request alike that the cursor does not refuse. -/
theorem simulation (hscratch : config.initialScratchCapacity ≤ 2 ^ 62) :
    Simulation (byteSource (σ := σ)) Slice.byteSource
      (fun size => size ≤ min config.maxReadSize (2 ^ 61)) (Represents config) SamePlace where
  ended h := h.position
  encoding h := (congrArg DecoderConfig.encoding h.configured).trans h.encoding
  byte h := h.readByte
  bytes h hsize := h.readBytes hscratch hsize

theorem readsWords : (byteSource (σ := σ)).ReadsWords := by
  intro cursor
  simp only [byteSource, readWord, Outcome.andThen]
  obtain ⟨result, after⟩ := cursor.readBytes 8
  cases result <;> rfl

end Cursor

namespace Cursor.Represents

variable [ChunkSource σ] {config : DecoderConfig} {cursor : Cursor σ} {slice : Slice}

/-- A client cannot tell the cursor from the slice before the stream has ended. -/
theorem observe_eq (h : Represents config cursor slice)
    (hscratch : config.initialScratchCapacity ≤ 2 ^ 62) (steps : List ReadStep)
    (hrequests : ∀ size ∈ ReadStep.requests Slice.byteSource steps slice,
      size ≤ min config.maxReadSize (2 ^ 61)) :
    untilEnd (ReadStep.observe Cursor.byteSource Cursor.position steps cursor) =
      untilEnd (ReadStep.observe Slice.byteSource Slice.position steps slice) :=
  (Cursor.simulation hscratch).observe_eq Cursor.readsWords Slice.readsWords (fun hplace => hplace)
    steps h hrequests

/-- A program makes the same requests of both, if the cursor refuses none of them. -/
theorem requests_eq (h : Represents config cursor slice)
    (hscratch : config.initialScratchCapacity ≤ 2 ^ 62) (steps : List ReadStep)
    (hrequests : ∀ size ∈ ReadStep.requests Cursor.byteSource steps cursor,
      size ≤ min config.maxReadSize (2 ^ 61)) :
    ReadStep.requests Cursor.byteSource steps cursor =
      ReadStep.requests Slice.byteSource steps slice :=
  (Cursor.simulation hscratch).requests_program_eq Cursor.readsWords Slice.readsWords steps h
    hrequests

/-- They still stand at the same place after a program that the stream did not end. -/
theorem finish (h : Represents config cursor slice)
    (hscratch : config.initialScratchCapacity ≤ 2 ^ 62) (steps : List ReadStep)
    (hrequests : ∀ size ∈ ReadStep.requests Slice.byteSource steps slice,
      size ≤ min config.maxReadSize (2 ^ 61))
    (hopen : ∀ seen ∈ ReadStep.observe Slice.byteSource Slice.position steps slice,
      endsStream seen.1 = false) :
    Represents config (ReadStep.finish Cursor.byteSource steps cursor)
      (ReadStep.finish Slice.byteSource steps slice) :=
  (Cursor.simulation hscratch).finish Cursor.readsWords Slice.readsWords Slice.position steps h
    hrequests hopen

end Cursor.Represents

/-- A cursor over any chunks and a slice over their bytes look the same up to the end of the
stream, if no read asks for more than the cursor admits. -/
theorem chunks_read_as_whole [ChunkSource σ] {config : DecoderConfig} {source : σ}
    {chunks : List Chunk} (hvalid : config.validate = .ok ())
    (hscratch : config.initialScratchCapacity ≤ 2 ^ 62) (hsource : Delivers source chunks)
    (steps : List ReadStep)
    (hrequests : ∀ size ∈ ReadStep.requests Slice.byteSource steps
        (.ofBytes (joined chunks) config.encoding), size ≤ min config.maxReadSize (2 ^ 61)) :
    ∃ cursor, Cursor.ofConfig config source = .ok cursor ∧
      untilEnd (ReadStep.observe Cursor.byteSource Cursor.position steps cursor) =
        untilEnd (ReadStep.observe Slice.byteSource Slice.position steps
          (.ofBytes (joined chunks) config.encoding)) := by
  have hcursor : Cursor.ofConfig config source = .ok { source, config } := by
    rw [Cursor.ofConfig, hvalid]
  refine ⟨_, hcursor, ?_⟩
  exact (Cursor.represents_ofConfig hcursor hsource).observe_eq hscratch steps hrequests

/-- A varint, two sized cells, a null mask, two numbers and two bytes more, cut inside the varint,
inside a cell and between the mask and the numbers. -/
def cutChunks : List Chunk :=
  [⟨0x80, []⟩, ⟨0x01, [3, 97]⟩, ⟨98, [99, 1, 100, 0, 1]⟩, ⟨7, [0, 9]⟩, ⟨0, [5, 6]⟩]

/-- What stands behind an empty chunk is not read. -/
theorem chunks_read_as_whole_cut :
    ∃ cursor,
      Cursor.ofConfig {} (cutChunks.map Chunk.bytes ++ [[], [8]]) = .ok cursor ∧
      untilEnd (ReadStep.observe Cursor.byteSource Cursor.position
        [.varint, .column .rawText 2, .nullable (.number .u16) 2, .bytes 4, .byte] cursor) =
        [(.ok (.natural 128), 2), (.ok (.column [.bytes [97, 98, 99], .bytes [100]]), 8),
          (.ok (.nullable [some (.integer 7), none]), 14),
          (.error (.error (.endOfStream 4 2)), 14)] :=
  chunks_read_as_whole DecoderConfig.validate_default (by decide) (delivers_list cutChunks rfl)
    [.varint, .column .rawText 2, .nullable (.number .u16) 2, .bytes 4, .byte] (by decide)

end Columnar
