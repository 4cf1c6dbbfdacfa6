import Columnar.Proofs.Checked.Indexed
import Columnar.Proofs.Closing
import Columnar.Proofs.Consumption
import Columnar.Proofs.Cursor.Overflow

/-!
What a source gives up. A source that serves its reads exactly gives the bytes that it moves over
and as many as it was asked for, and it never serves a read of the largest size. Slices do, and
so do cursors, because no buffer and no chunk is so large. A decoder that succeeded on such a source
has taken the bytes that it consumes.
-/
namespace Columnar

/-- Reads that succeed from a live state take what they give, and less than the largest size. -/
structure ByteSource.Exact (source : ByteSource σ) (Live : σ → Prop)
    (Takes : σ → Bytes → σ → Prop) : Prop where
  refl : ∀ state, Takes state [] state
  trans : ∀ {before middle after : σ} {front back : Bytes}, Takes before front middle →
    Takes middle back after → Takes before (front ++ back) after
  encoding : ∀ {before after : σ} {bytes : Bytes}, Takes before bytes after →
    source.encoding after = source.encoding before
  byte : ∀ {before after : σ} {b : UInt8}, Live before →
    source.readByte before = (.ok b, after) → Live after ∧ Takes before [b] after
  bytes : ∀ {before after : σ} {size : Nat} {block : Bytes}, Live before →
    source.readBytes size before = (.ok block, after) →
    Live after ∧ Takes before block after ∧ block.length = size ∧ size < maxSize

/-- A decoder that succeeds has taken what it consumes. -/
theorem ByteSource.Exact.run {source : ByteSource σ} {Live : σ → Prop}
    {Takes : σ → Bytes → σ → Prop} (h : source.Exact Live Takes) {decoder : Decoder α}
    {before after : σ} {value : α} (hlive : Live before)
    (hrun : decoder.run source before = (.ok value, after)) :
    ∃ bytes sizes, Consumes (source.encoding before) decoder bytes sizes value ∧
      (∀ size ∈ sizes, size < maxSize) ∧ Takes before bytes after := by
  induction decoder generalizing before with
  | done given =>
    obtain ⟨hvalue, rfl⟩ := Prod.mk.inj hrun
    obtain rfl := Except.ok.inj hvalue
    exact ⟨[], [], .done given, by simp, h.refl before⟩
  | fail fault => cases hrun
  | byte next ih =>
    rw [Decoder.run_byte] at hrun
    cases hread : source.readByte before with
    | mk result middle =>
      rw [hread] at hrun
      cases result with
      | error fault => cases hrun
      | ok b =>
        obtain ⟨hmiddle, htakes⟩ := h.byte hlive hread
        obtain ⟨bytes, sizes, hnext, hsizes, hrest⟩ := ih b hmiddle hrun
        rw [h.encoding htakes] at hnext
        exact ⟨b :: bytes, sizes, .byte hnext, hsizes, h.trans htakes hrest⟩
  | bytes size next ih =>
    rw [Decoder.run_bytes] at hrun
    cases hread : source.readBytes size before with
    | mk result middle =>
      rw [hread] at hrun
      cases result with
      | error fault => cases hrun
      | ok block =>
        obtain ⟨hmiddle, htakes, rfl, hsize⟩ := h.bytes hlive hread
        obtain ⟨bytes, sizes, hnext, hsizes, hrest⟩ := ih block hmiddle hrun
        rw [h.encoding htakes] at hnext
        exact ⟨block ++ bytes, block.length :: sizes, .bytes hnext,
          List.forall_mem_cons.mpr ⟨hsize, hsizes⟩, h.trans htakes hrest⟩
  | encoding next ih =>
    obtain ⟨bytes, sizes, hnext, hsizes, htakes⟩ := ih _ hlive hrun
    exact ⟨bytes, sizes, .encoding hnext, hsizes, htakes⟩

namespace Slice

/-- The slice has moved over the bytes. -/
structure Takes (before : Slice) (bytes : Bytes) (after : Slice) : Prop where
  unread : before.unread = bytes ++ after.unread
  position : after.position = before.position + bytes.length
  encoding : after.encoding = before.encoding

/-- A buffer can hold what is unread. -/
def Short (slice : Slice) : Prop := slice.unread.length ≤ maxAllocation

theorem exact : byteSource.Exact Short Takes where
  refl slice := ⟨rfl, rfl, rfl⟩
  trans hfront hback := by
    refine ⟨?_, ?_, hback.encoding.trans hfront.encoding⟩
    · rw [hfront.unread, hback.unread, List.append_assoc]
    · rw [hback.position, hfront.position, List.length_append, Nat.add_assoc]
  encoding htakes := htakes.encoding
  byte := by
    intro before after b hshort hread
    obtain ⟨unread, position, encoding⟩ := before
    cases unread with
    | nil => cases hread
    | cons first unread =>
      obtain ⟨hb, rfl⟩ := Prod.mk.inj hread
      obtain rfl := Except.ok.inj hb
      exact ⟨Nat.le_of_succ_le hshort, rfl, rfl, rfl⟩
  bytes := by
    intro before after size block hshort hread
    simp only [byteSource, readBytes] at hread
    cases hsplit : before.unread.split? size with
    | none =>
      rw [hsplit] at hread
      cases hread
    | some parts =>
      rw [hsplit] at hread
      obtain ⟨hblock, rfl⟩ := Prod.mk.inj hread
      obtain rfl := Except.ok.inj hblock
      obtain ⟨hunread, hlength⟩ := Bytes.split?_eq_some_iff.mp hsplit
      rw [Short, hunread, List.length_append, maxAllocation] at hshort
      have hrest : parts.2.length ≤ maxAllocation := by
        rw [maxAllocation]
        omega
      exact ⟨hrest, ⟨hunread, by rw [hlength], rfl⟩, hlength, by rw [maxSize]; omega⟩

end Slice

namespace Cursor

variable [ChunkSource σ]

/-- The cursor has taken chunks as it needed them and has moved over the bytes. -/
structure Takes (before : Cursor σ) (bytes : Bytes) (after : Cursor σ) : Prop where
  supply : ∃ chunks, Supplies before.source chunks after.source ∧
    before.region.unread ++ joined chunks = bytes ++ after.region.unread
  position : after.position = before.position + bytes.length
  encoding : after.config.encoding = before.config.encoding

/-- A buffer can hold what is left of the region and every chunk that may come, and scratch storage
can begin to grow. -/
structure Short (cursor : Cursor σ) : Prop where
  region : cursor.region.unread.length ≤ maxAllocation
  chunks : ShortChunks cursor.source
  scratch : 0 < cursor.config.initialScratchCapacity

variable {cursor : Cursor σ}

theorem Short.refilled (h : cursor.Short) (hsome : 0 < cursor.refilled.buffered) :
    cursor.refilled.region.unread.length ≤ maxAllocation := by
  obtain ⟨chunks, source, region, hsupplies, _, hunread, hlast, hrefilled⟩ :=
    refilled_supplied hsome
  rw [hrefilled]
  cases hend : chunks.getLast? with
  | none =>
    rw [List.getLast?_eq_none_iff.mp hend, joined_nil, List.append_nil] at hunread
    exact hunread ▸ h.region
  | some chunk =>
    have hchunk := h.chunks.of_supplies hsupplies chunk (List.mem_of_getLast? hend)
    exact hlast chunk hend ▸ hchunk

/-- What a read leaves of the region was there before or is left of a chunk. -/
theorem Short.run (h : cursor.Short) (request : Request) : (request.run cursor).2.Short := by
  obtain ⟨calls, hsource, _⟩ := calls_run request cursor
  obtain ⟨hconfig, _⟩ := storage_run request cursor
  have hexchange := exchange request cursor
  refine ⟨?_, hsource ▸ h.chunks.later calls, hconfig ▸ h.scratch⟩
  generalize request.run cursor = outcome at hexchange ⊢
  cases hexchange with
  | @served chunks bytes after hsupplies _ hbytes _ hlast =>
    cases hend : chunks.getLast? with
    | none =>
      rw [List.getLast?_eq_none_iff.mp hend, joined_nil, List.append_nil] at hbytes
      have hregion := h.region
      rw [hbytes, List.length_append] at hregion
      exact Nat.le_trans (Nat.le_add_left _ _) hregion
    | some chunk =>
      have hchunk := h.chunks.of_supplies hsupplies chunk (List.mem_of_getLast? hend)
      exact Nat.le_trans (Nat.le_of_lt (hlast chunk hend)) hchunk
  | refused => exact h.region
  | overflowed _ hstraddles => exact h.refilled (straddles_iff.mp hstraddles).2.2.1
  | failed _ _ _ hspent => simp [hspent]
  | ended _ _ hspent => simp [hspent]

theorem Short.after (h : cursor.Short) (requests : List Request) :
    (cursor.after requests).Short := by
  induction requests generalizing cursor with
  | nil => exact h
  | cons request requests ih => exact ih (h.run request)

theorem Short.close (h : cursor.Short) : cursor.close.Short := by
  rw [Cursor.close]
  split
  · exact h
  · exact ⟨Nat.zero_le _, h.chunks, h.scratch⟩

/-- Whatever a client does, the cursor stays so. -/
theorem Short.calls (h : cursor.Short) (calls : List Call) : (Call.after calls cursor).Short := by
  induction calls generalizing cursor with
  | nil => exact h
  | cons call calls ih =>
    cases call with
    | read step =>
      refine ih ?_
      rw [Call.run, ReadStep.run_eq readsWords, run_decoder]
      exact h.after _
    | close => exact ih h.close

theorem short_ofConfig {config : DecoderConfig} {source : σ} {start : Cursor σ}
    (hstart : ofConfig config source = .ok start) (hchunks : ShortChunks source) : start.Short := by
  obtain ⟨hvalid, rfl⟩ := ofConfig_eq_ok_iff.mp hstart
  have hpower := ((DecoderConfig.validate_eq_ok_iff config).mp hvalid).1.2
  exact ⟨Nat.zero_le _, hchunks, Nat.pos_of_isPowerOfTwo hpower⟩

/-- A block stands in one chunk or in a buffer, so it has not the largest size. -/
theorem Short.size_lt (h : cursor.Short) {size : Nat} {block : Bytes} {after : Cursor σ}
    (hread : cursor.readBytes size = (.ok block, after)) : size < maxSize := by
  by_cases hstraddles : cursor.straddles size = true
  -- scratch storage is twice as large as the block, a chunk at least as large
  · have hroom : ¬ maxAllocation < cursor.capacityFor size := by
      intro hover
      have hfails := readBytes_overflows_iff.mpr ⟨hstraddles, hover⟩
      rw [hread] at hfails
      cases hfails
    have htarget : mulSat size 2 ≤ cursor.capacityFor size := target_le_capacityFor h.scratch
    rw [mulSat, maxSize] at htarget
    rw [maxAllocation] at hroom
    rw [maxSize]
    omega
  · have hdirect := direct (by simpa using hstraddles)
    rw [hread] at hdirect
    cases hdirect with
    | empty _ hzero =>
      rw [hzero]
      decide
    | @view front rest hview hlength hsize =>
      have hsome : 0 < cursor.refilled.buffered := by
        rw [buffered, hview, List.length_append]
        omega
      have hregion := h.refilled hsome
      rw [hview, List.length_append, maxAllocation] at hregion
      rw [maxSize]
      omega

theorem Short.takes (h : cursor.Short) {request : Request} {bytes : Bytes} {after : Cursor σ}
    (hrun : request.run cursor = (.ok bytes, after)) :
    after.Short ∧ cursor.Takes bytes after ∧ bytes.length = request.size := by
  have hafter := h.run request
  obtain ⟨hconfig, _⟩ := storage_run request cursor
  have hexchange := exchange request cursor
  rw [hrun] at hafter hconfig hexchange
  cases hexchange with
  | @served chunks _ _ hsupplies _ hbytes hsize _ _ hposition =>
    exact ⟨hafter, ⟨⟨chunks, hsupplies, hbytes⟩, by rw [hsize]; exact hposition,
      congrArg DecoderConfig.encoding hconfig⟩, hsize⟩

theorem exact : (byteSource (σ := σ)).Exact Short Takes where
  refl cursor := ⟨⟨[], .none _, by simp⟩, rfl, rfl⟩
  trans := by
    rintro before middle after front back ⟨⟨chunks, hsupplies, hbytes⟩, hposition, hencoding⟩
      ⟨⟨later, hlater, hrest⟩, hlast, hkept⟩
    refine ⟨⟨chunks ++ later, hsupplies.append hlater, ?_⟩, ?_, hkept.trans hencoding⟩
    · rw [joined_append, ← List.append_assoc, hbytes, List.append_assoc, hrest, List.append_assoc]
    · rw [hlast, hposition, List.length_append, Nat.add_assoc]
  encoding htakes := htakes.encoding
  byte := by
    intro before after b hshort hread
    have hrun : Request.byte.run before = (.ok [b], after) := by
      rw [Request.run, show before.readByte = (.ok b, after) from hread]
      rfl
    obtain ⟨hafter, htakes, _⟩ := hshort.takes hrun
    exact ⟨hafter, htakes⟩
  bytes := by
    intro before after size block hshort hread
    have hrun : (Request.bytes size).run before = (.ok block, after) := hread
    obtain ⟨hafter, htakes, hlength⟩ := hshort.takes hrun
    exact ⟨hafter, htakes, hlength, hshort.size_lt hread⟩

end Cursor

end Columnar
