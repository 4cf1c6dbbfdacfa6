import Columnar.Proofs.Checked.Cursor
import Columnar.Proofs.Cursor.Overflow

/-!
What stops the program. A read of a cursor can only ask for a buffer that cannot exist, and it does
that only when it begins to assemble too many bytes. Columns of cells of a fixed size have no other
way to stop it, whatever numbers of rows and bytes they are asked for, as long as what there is to
read is shorter than `2 ^ 56` bytes.
-/
namespace Columnar

namespace Cursor

variable [ChunkSource σ]

/-- What there is still to read has fewer bytes than the limit. -/
def Bounded (limit : Nat) (cursor : Cursor σ) : Prop :=
  ∀ calls, cursor.buffered + (joined (ChunkSource.handed calls cursor.source)).length < limit

variable {limit : Nat} {cursor : Cursor σ}

theorem bounded_ofConfig {config : DecoderConfig} {source : σ} {start : Cursor σ}
    (hstart : ofConfig config source = .ok start) (h : ContentBelow limit source) :
    start.Bounded limit := by
  obtain ⟨_, rfl⟩ := ofConfig_eq_ok_iff.mp hstart
  intro calls
  have hcalls := h calls
  rw [buffered, Region.unread_chunk, List.length_nil, Nat.zero_add]
  exact hcalls

/-- What a read takes is no longer there to be read. -/
theorem Bounded.run (h : cursor.Bounded limit) (request : Request) :
    (request.returned cursor).length < limit ∧ (request.run cursor).2.Bounded limit := by
  obtain ⟨calls, hsource, htaken⟩ := calls_run request cursor
  refine ⟨by have hcalls := h calls; omega, fun more => ?_⟩
  have hcalls := h (calls + more)
  rw [ChunkSource.handed_add, joined_append, List.length_append] at hcalls
  rw [hsource]
  omega

theorem Bounded.after (h : cursor.Bounded limit) (requests : List Request) :
    (cursor.after requests).Bounded limit := by
  induction requests generalizing cursor with
  | nil => exact h
  | cons request requests ih => exact ih (h.run request).2

theorem Bounded.whole (h : cursor.Bounded limit) {size : Nat} {block : Bytes} {after : Cursor σ}
    (hread : cursor.readBytes size = (.ok block, after)) : block.length = size ∧ size < limit := by
  have hexchange := exchange (.bytes size) cursor
  have htaken := (h.run (.bytes size)).1
  rw [Request.returned] at htaken
  simp only [Request.run, hread] at hexchange htaken
  cases hexchange with
  | served _ _ _ hsize =>
    replace hsize : block.length = size := hsize
    exact ⟨hsize, by omega⟩

/-- The last of some reads overflows. -/
def Overflows (requests : List Request) (cursor : Cursor σ) : Prop :=
  ∃ front request, requests = front ++ [request] ∧
    (request.run (cursor.after front)).1 = .error .capacityOverflow

theorem not_overflows_nil (cursor : Cursor σ) : ¬ Overflows [] cursor := by
  rintro ⟨front, request, hsplit, _⟩
  simp at hsplit

theorem overflows_singleton {request : Request} :
    Overflows [request] cursor ↔ (request.run cursor).1 = .error .capacityOverflow := by
  constructor
  · rintro ⟨front, last, hsplit, hfails⟩
    obtain ⟨rfl, rfl⟩ : front = [] ∧ last = request := by
      simpa [List.singleton_eq_append_iff, eq_comm] using hsplit
    exact hfails
  · exact fun hfails => ⟨[], request, rfl, hfails⟩

/-- A read that gives its bytes is not the last one. -/
theorem overflows_cons {request : Request} {requests : List Request} {bytes : Bytes}
    (hread : (request.run cursor).1 = .ok bytes) :
    Overflows (request :: requests) cursor ↔ Overflows requests (request.run cursor).2 := by
  constructor
  · rintro ⟨front, last, hsplit, hfails⟩
    rcases List.cons_eq_append_iff.mp hsplit with ⟨rfl, hlast⟩ | ⟨back, rfl, rfl⟩
    · cases hlast
      rw [after, hread] at hfails
      cases hfails
    · exact ⟨back, last, rfl, hfails⟩
  · rintro ⟨front, last, rfl, hfails⟩
    exact ⟨request :: front, last, rfl, hfails⟩

end Cursor

theorem Slice.readByte_not_overflows (slice : Slice) :
    slice.readByte.1 ≠ .error .capacityOverflow := by
  rw [Slice.readByte]
  split <;> simp

theorem Slice.readBytes_not_overflows (size : Nat) (slice : Slice) :
    (slice.readBytes size).1 ≠ .error .capacityOverflow := by
  rw [Slice.readBytes]
  split <;> simp

namespace Checked

variable [ChunkSource σ] {limit : Nat}

/-- An indexed cursor that stands where the cursor stands, with a limit to what it may still read. -/
def Indexed.Within (limit : Nat) (indexed : Indexed σ) (cursor : Cursor σ) : Prop :=
  indexed.At cursor ∧ cursor.Bounded limit

namespace Indexed

theorem mirrors : Mirrors limit (Within limit) (byteSource (σ := σ)) Cursor.byteSource where
  encoding := by
    rintro indexed _ ⟨⟨rfl, _⟩, _⟩
    rfl
  byte := by
    rintro indexed _ ⟨⟨rfl, hsound⟩, hbounded⟩
    obtain ⟨after, hchecked, hafter⟩ := completes_readByte hsound
    exact ⟨after, hchecked, hafter, (hbounded.run .byte).2⟩
  bytes := by
    rintro indexed _ size ⟨⟨rfl, hsound⟩, hbounded⟩
    obtain ⟨after, hchecked, hafter⟩ := completes_readBytes hsound size
    exact ⟨after, hchecked, hafter, (hbounded.run (.bytes size)).2⟩
  whole := by
    rintro indexed _ after size block ⟨_, hbounded⟩ hread
    exact hbounded.whole hread

end Indexed

/-- A fault is the same for every type of value. -/
theorem error_eq_iff {fault fault' : Fault} : (.error fault : Except Fault α) = .error fault' ↔
    (.error fault : Except Fault β) = .error fault' := by
  rw [Except.error.injEq, Except.error.injEq]

/-- Such a decoder overflows in its last read or not at all. -/
theorem Untrapped.overflows_iff {Q : α → Prop} {checked : Decoder (Option α)} {plain : Decoder α}
    (h : Untrapped limit Q checked plain) {cursor : Cursor σ} (hbounded : cursor.Bounded limit) :
    (plain.run Cursor.byteSource cursor).1 = .error .capacityOverflow ↔
      Cursor.Overflows (plain.reads Cursor.byteSource cursor) cursor := by
  induction h generalizing cursor with
  | done => exact ⟨nofun, fun h => absurd h (Cursor.not_overflows_nil cursor)⟩
  | fail => exact ⟨nofun, fun h => absurd h (Cursor.not_overflows_nil cursor)⟩
  | @byte _ next _ ih =>
    have hafter := (hbounded.run .byte).2
    have hrun : Request.byte.run cursor = cursor.readByte.map (Except.map fun b => [b]) id := rfl
    rw [Decoder.run_byte, Decoder.reads]
    simp only [Cursor.byteSource]
    -- a fault ends the run, so this read is the last one
    rcases hread : cursor.readByte with ⟨fault | b, rest⟩
    · rw [hread] at hrun
      rw [Outcome.listNext, Cursor.overflows_singleton, hrun]
      exact error_eq_iff
    · rw [hread] at hrun
      rw [Outcome.listNext, Cursor.overflows_cons (congrArg Prod.fst hrun)]
      rw [hrun] at hafter ⊢
      exact ih b hafter
  | @bytes size _ next _ ih =>
    have hafter := (hbounded.run (.bytes size)).2
    have hrun : (Request.bytes size).run cursor = cursor.readBytes size := rfl
    rw [Decoder.run_bytes, Decoder.reads]
    simp only [Cursor.byteSource]
    rcases hread : cursor.readBytes size with ⟨fault | block, rest⟩
    · rw [hread] at hrun
      rw [Outcome.listNext, Cursor.overflows_singleton, hrun]
      exact error_eq_iff
    · obtain ⟨hlength, hlimit⟩ := hbounded.whole hread
      rw [hread] at hrun
      rw [Outcome.listNext, Cursor.overflows_cons (congrArg Prod.fst hrun)]
      rw [hrun] at hafter ⊢
      exact ih block hlength hlimit hafter
  | encoding _ ih => exact ih _ hbounded

/-- On a source that never overflows, such a decoder does not overflow either. -/
theorem Untrapped.not_overflows {Q : α → Prop} {checked : Decoder (Option α)} {plain : Decoder α}
    {related : τ → ρ → Prop} {source : Source τ} {plainSource : ByteSource ρ}
    (h : Untrapped limit Q checked plain) (hmirrors : Mirrors limit related source plainSource)
    (hbyte : ∀ s, (plainSource.readByte s).1 ≠ .error .capacityOverflow)
    (hbytes : ∀ size s, (plainSource.readBytes size s).1 ≠ .error .capacityOverflow)
    {t : τ} {s : ρ} (hstate : related t s) :
    (plain.run plainSource s).1 ≠ .error .capacityOverflow := by
  induction h generalizing t s with
  | done => simp
  | fail => simp
  | byte _ ih =>
    have hfault := hbyte s
    obtain ⟨after, _, hafter⟩ := hmirrors.byte hstate
    rw [Decoder.run_byte]
    rcases hread : plainSource.readByte s with ⟨fault | b, rest⟩
    · rw [hread] at hfault
      exact fun hfails => hfault (error_eq_iff.mp hfails)
    · rw [hread] at hafter
      exact ih b hafter
  | @bytes size _ _ _ ih =>
    have hfault := hbytes size s
    obtain ⟨after, _, hafter⟩ := hmirrors.bytes size hstate
    rw [Decoder.run_bytes]
    rcases hread : plainSource.readBytes size s with ⟨fault | block, rest⟩
    · rw [hread] at hfault
      exact fun hfails => hfault (error_eq_iff.mp hfails)
    · obtain ⟨hlength, hlimit⟩ := hmirrors.whole hstate hread
      rw [hread] at hafter
      exact ih block hlength hlimit hafter
  | encoding _ ih => exact ih _ hstate

/-- A decoder of cells of a fixed size, in checked operations and as it is. -/
inductive BulkDecoder (rows : Nat) : {α : Type} → OptionT Decoder α → Decoder α → Prop where
  | column {type : ColumnType} (hbulk : Bulk type) :
      BulkDecoder rows (read type rows) (type.read rows)
  | nullable {type : ColumnType} (hbulk : Bulk type) :
      BulkDecoder rows (readNullable type rows) (type.readNullable rows)
  | nullMask : BulkDecoder rows (Column.nullMask rows) (Columnar.Column.nullMask rows)

theorem BulkDecoder.untrapped {rows : Nat} {checked : OptionT Decoder α} {plain : Decoder α}
    (h : BulkDecoder rows checked plain) : ∃ Q, Untrapped contentLimit Q checked plain := by
  cases h with
  | column hbulk => exact ⟨_, untrapped_read hbulk rows⟩
  | nullable hbulk => exact ⟨_, untrapped_readNullable hbulk rows⟩
  | nullMask => exact ⟨_, Column.untrapped_nullMask rows⟩

/-- All that single reads of a cursor can do to stop the program. -/
structure ReadsSafely (config : DecoderConfig) (indexed : Indexed σ) (cursor : Cursor σ) :
    Prop where
  completes : ∀ request : Request,
    Completes Indexed.At (indexed.run request) (request.run cursor)
  byte : cursor.readByte.1 ≠ .error .capacityOverflow
  overflows : ∀ size, (cursor.readBytes size).1 = .error .capacityOverflow ↔
    cursor.straddles size = true ∧ (2 ^ 61 < size ∨ 2 ^ 62 < config.initialScratchCapacity)
  overflowed : ∀ size, (cursor.readBytes size).1 = .error .capacityOverflow →
    Cursor.Overflowed config size cursor (cursor.readBytes size).2

/-- A decoder over a cursor can only stop the program by a read that does. -/
structure DecodesSafely (config : DecoderConfig) (indexed : Indexed σ) (cursor : Cursor σ)
    (checked : OptionT Decoder α) (plain : Decoder α) : Prop where
  completes : Completes Indexed.At (Indexed.byteSource.run checked indexed)
    (plain.run Cursor.byteSource cursor)
  overflows : (plain.run Cursor.byteSource cursor).1 = .error .capacityOverflow ↔
    ∃ front size, plain.reads Cursor.byteSource cursor = front ++ [.bytes size] ∧
      (cursor.after front).straddles size = true ∧
      (2 ^ 61 < size ∨ 2 ^ 62 < config.initialScratchCapacity)

theorem readsSafely {config : DecoderConfig} {indexed : Indexed σ} {cursor : Cursor σ}
    (hplace : indexed.At cursor) (hreached : cursor.Reached config) :
    ReadsSafely config indexed cursor where
  completes request := by
    obtain ⟨rfl, hsound⟩ := hplace
    exact Indexed.completes_run hsound request
  byte := cursor.readByte_not_overflows
  overflows _ := hreached.overflows_iff
  overflowed _ hfails := hreached.overflowed hfails

theorem decodesSafely {config : DecoderConfig} {indexed : Indexed σ} {cursor : Cursor σ}
    {rows : Nat} {checked : OptionT Decoder α} {plain : Decoder α}
    (hplace : indexed.At cursor) (hreached : cursor.Reached config)
    (hbounded : cursor.Bounded contentLimit) (hdecoder : BulkDecoder rows checked plain) :
    DecodesSafely config indexed cursor checked plain := by
  obtain ⟨_, huntrapped⟩ := hdecoder.untrapped
  obtain ⟨after, hchecked, hafter, _⟩ := huntrapped.run Indexed.mirrors ⟨hplace, hbounded⟩
  refine ⟨⟨after, hchecked, hafter⟩, ?_⟩
  rw [huntrapped.overflows_iff hbounded]
  constructor
  · rintro ⟨front, last, hreads, hfails⟩
    cases last with
    | byte => exact absurd hfails (cursor.after front).run_byte_not_overflows
    | bytes size => exact ⟨front, size, hreads, (hreached.after front).overflows_iff.mp hfails⟩
  · rintro ⟨front, size, hreads, hcause⟩
    exact ⟨front, .bytes size, hreads, (hreached.after front).overflows_iff.mpr hcause⟩

/-- A decoder over a slice cannot stop the program. -/
theorem decodesBuffer {rows : Nat} {checked : OptionT Decoder α} {plain : Decoder α}
    (hdecoder : BulkDecoder rows checked plain) {buffer : Buffer}
    (hplace : buffer.place ≤ buffer.data.length) (hshort : buffer.data.length < contentLimit) :
    Completes (Buffer.At contentLimit) (Buffer.byteSource.run checked buffer)
        (plain.run Slice.byteSource buffer.view) ∧
      (plain.run Slice.byteSource buffer.view).1 ≠ .error .capacityOverflow := by
  obtain ⟨_, huntrapped⟩ := hdecoder.untrapped
  have hmirrors : Mirrors contentLimit (Buffer.At contentLimit) Buffer.byteSource
      Slice.byteSource := Buffer.mirrors (by decide)
  have hat : Buffer.At contentLimit buffer buffer.view := ⟨rfl, hplace, hshort⟩
  exact ⟨huntrapped.run hmirrors hat, huntrapped.not_overflows hmirrors
    Slice.readByte_not_overflows Slice.readBytes_not_overflows hat⟩

end Checked

/-- Whatever sizes are asked for, single reads of a cursor stop the program only by an assembly that
is too large or was bound to be, and leave all bytes in place then. Columns of cells of a fixed size
stop it only by such a read, and over a slice not at all: none of the other operations in them or in
their source ever fails, be it an index, a slice, a difference, a product or a copy. -/
theorem only_assembly_overflows [ChunkSource σ] {config : DecoderConfig} {source : σ}
    {start : Cursor σ} (hstart : Cursor.ofConfig config source = .ok start)
    (hchunks : ShortChunks source) (requests : List Request) :
    (∃ indexed, (Checked.Indexed.ofSource config source).after requests = some indexed ∧
      indexed.At (start.after requests) ∧
      Checked.ReadsSafely config indexed (start.after requests) ∧
      (ContentBelow (2 ^ 56) source →
        ∀ {α : Type} (rows : Nat) (checked : OptionT Decoder α) (plain : Decoder α),
          Checked.BulkDecoder rows checked plain →
          Checked.DecodesSafely config indexed (start.after requests) checked plain)) ∧
    ∀ {α : Type} (rows : Nat) (checked : OptionT Decoder α) (plain : Decoder α),
      Checked.BulkDecoder rows checked plain →
      ∀ buffer : Checked.Buffer, buffer.place ≤ buffer.data.length →
      buffer.data.length < 2 ^ 56 →
      Checked.Completes (Checked.Buffer.At (2 ^ 56)) (Checked.Buffer.byteSource.run checked buffer)
          (plain.run Slice.byteSource buffer.view) ∧
        (plain.run Slice.byteSource buffer.view).1 ≠ .error .capacityOverflow := by
  have hreached : (start.after requests).Reached config := (Cursor.Reached.start hstart).after requests
  have hnew : (Checked.Indexed.ofSource config source).At start := by
    obtain ⟨_, rfl⟩ := Cursor.ofConfig_eq_ok_iff.mp hstart
    exact ⟨rfl, ⟨Nat.le_refl 0, Nat.zero_le _⟩, hchunks⟩
  obtain ⟨indexed, hafter, hview, hsound⟩ := Checked.Indexed.after_eq requests hnew.2
  rw [hnew.1] at hview
  have hplace : indexed.At (start.after requests) := ⟨hview, hsound⟩
  refine ⟨⟨indexed, hafter, hplace, Checked.readsSafely hplace hreached, ?_⟩, ?_⟩
  · intro hcontent α rows checked plain hdecoder
    have hbounded := (Cursor.bounded_ofConfig hstart hcontent).after requests
    exact Checked.decodesSafely hplace hreached hbounded hdecoder
  · intro α rows checked plain hdecoder buffer hbuffer hshort
    exact Checked.decodesBuffer hdecoder hbuffer hshort

def hostileConfig : DecoderConfig where
  maxReadSize := 2 ^ 62

def hostileChunks : List Bytes := [[1, 2], [3, 4, 5]]

/-- A column of as many identifiers as there can be rows asks for as many bytes as there can be. -/
theorem run_uuid_of_fails {source : ByteSource σ} {state after : σ} {fault : Fault}
    (hread : source.readBytes maxSize state = (.error fault, after)) :
    (ColumnType.uuid.read maxSize).run source state = (.error fault, after) := by
  have hsize : mulSat Uuid.format.size maxSize = maxSize := by decide
  rw [ColumnType.read, Decoder.run_map, Column.uuid, Column.array, Decoder.bind_eq,
    Decoder.takeBytes, Decoder.bind, Decoder.run_bytes, hsize, hread]
  rfl

/-- A read that has a byte and asks for `2 ^ 62` stops the program, and the next three bytes can be
read all the same. To ask for as many identifiers as there can be rows is no more than an error,
over chunks as over a slice. -/
theorem only_assembly_overflows_resumed : ∃ start indexed,
    Cursor.ofConfig hostileConfig hostileChunks = .ok start ∧
    ((start.after [.byte]).readBytes (2 ^ 62)).1 = .error .capacityOverflow ∧
    (∃ last, ((start.after [.byte]).readBytes (2 ^ 62)).2.readBytes 3 = (.ok [2, 3, 4], last) ∧
      last.position = 4) ∧
    (∃ last, Checked.Indexed.byteSource.run (Checked.read .uuid maxSize) indexed =
      some (.error (.error (.readTooLarge maxSize (2 ^ 62))), last) ∧
      last.view = start.after [.byte]) ∧
    ∃ last, Checked.Buffer.byteSource.run (Checked.read .uuid maxSize) { data := [1, 2, 3] } =
      some (.error (.error (.endOfStream maxSize 3)), last) := by
  have hstart : Cursor.ofConfig hostileConfig hostileChunks =
      .ok { source := hostileChunks, config := hostileConfig } := by rfl
  have hcontent : ContentBelow (2 ^ 56) hostileChunks := contentBelow_list (by decide)
  obtain ⟨⟨indexed, _, _, hreads, hdecodes⟩, hslices⟩ :=
    only_assembly_overflows hstart (hcontent.shortChunks (by decide)) [.byte]
  have hover := (hreads.overflows (2 ^ 62)).mpr ⟨by decide +kernel, .inl (by decide)⟩
  have hoffers : Cursor.Offers (Cursor.after [.byte]
      { source := hostileChunks, config := hostileConfig }) ([2, 3, 4] ++ [5]) := by
    refine ⟨by rfl, [⟨3, [4, 5]⟩], [], .more rfl (.none _), fun _ => by rfl, ?_⟩
    exact List.prefix_rfl
  obtain ⟨last, hread, _, hposition⟩ :=
    (hreads.overflowed _ hover).later [2, 3, 4] [5] hoffers (by decide) (.inr (by decide))
  refine ⟨_, indexed, hstart, hover, ⟨last, hread, hposition.trans (by decide +kernel)⟩, ?_, ?_⟩
  · obtain ⟨after, hchecked, hview, _⟩ :=
      (hdecodes hcontent maxSize _ _ (.column (show Checked.Bulk .uuid from trivial))).completes
    rw [run_uuid_of_fails rfl] at hchecked hview
    exact ⟨after, hchecked, hview⟩
  · obtain ⟨⟨after, hchecked, _⟩, _⟩ :=
      hslices maxSize _ _ (.column (show Checked.Bulk .uuid from trivial))
        { data := [1, 2, 3] } (by decide) (by decide)
    have hshort := Slice.readBytes_of_lt maxSize (Checked.Buffer.view { data := [1, 2, 3] })
      (by decide)
    rw [run_uuid_of_fails hshort] at hchecked
    exact ⟨after, hchecked⟩

end Columnar
