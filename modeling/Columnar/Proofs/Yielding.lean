import Columnar.Proofs.Bytewise
import Columnar.Proofs.Consumption
import Columnar.Proofs.Cursor.Overflow

/-!
Decoders that have their bytes before them. What a decoder consumes of a slice it also consumes of a
cursor that offers it, however the chunks are cut. The only thing that a cursor may lack is room:
scratch storage that begins larger than any buffer cannot be had, and the first read that has to be
assembled says so.
-/
namespace Columnar

namespace Cursor

variable [ChunkSource σ] {config : DecoderConfig} {cursor : Cursor σ} {bytes front rest : Bytes}

/-- What a cursor offers is a front of what it has before it. -/
theorem offers_iff_faces : cursor.Offers bytes ↔ ∃ later, cursor.Faces (bytes ++ later) False := by
  constructor
  · rintro ⟨hopened, chunks, last, hsupplies, hlive, later, hbytes⟩
    exact ⟨later, hopened, chunks, last, hsupplies, hlive, hbytes, False.elim⟩
  · rintro ⟨later, hopened, chunks, last, hsupplies, hlive, hbytes, _⟩
    exact ⟨hopened, chunks, last, hsupplies, hlive, later, hbytes⟩

theorem Offers.readByte {b : UInt8} (h : cursor.Offers (b :: rest)) :
    ∃ after, cursor.readByte = (.ok b, after) ∧ after.Offers rest ∧
      after.position = cursor.position + 1 := by
  obtain ⟨later, hfaces⟩ := offers_iff_faces.mp h
  obtain ⟨after, hread, hafter, hposition⟩ := hfaces.readByte
  exact ⟨after, hread, offers_iff_faces.mpr ⟨later, hafter⟩, hposition⟩

theorem Reached.readByte {b : UInt8} {after : Cursor σ} (h : cursor.Reached config)
    (hread : cursor.readByte = (.ok b, after)) : after.Reached config := by
  have hstep := h.read .byte
  rw [Request.run, hread] at hstep
  exact hstep

/-- The outcomes of a run over bytes that are offered. -/
inductive Yielded (config : DecoderConfig) (before : Cursor σ) (bytes rest : Bytes) (value : α) :
    Outcome (Cursor σ) α → Prop where
  | value {after : Cursor σ} (hoffers : after.Offers rest) (hreached : after.Reached config)
      (hposition : after.position = before.position + bytes.length) :
      Yielded config before bytes rest value (.ok value, after)
  | noRoom {after : Cursor σ} (hscratch : 2 ^ 62 < config.initialScratchCapacity) :
      Yielded config before bytes rest value (.error .capacityOverflow, after)

/-- Where scratch storage can begin, the value is there. -/
theorem Yielded.of_room {value : α} {outcome : Outcome (Cursor σ) α}
    (h : Yielded config cursor bytes rest value outcome)
    (hscratch : config.initialScratchCapacity ≤ 2 ^ 62) :
    ∃ after, outcome = (.ok value, after) ∧ after.Offers rest ∧ after.Reached config ∧
      after.position = cursor.position + bytes.length := by
  cases h with
  | value hoffers hreached hposition => exact ⟨_, rfl, hoffers, hreached, hposition⟩
  | noRoom hlarge => omega

theorem Offers.yielded (h : cursor.Offers (front ++ rest)) (hreached : cursor.Reached config)
    (hsize : front.length ≤ min config.maxReadSize (2 ^ 61)) :
    Yielded config cursor front rest front (cursor.readBytes front.length) := by
  by_cases hscratch : config.initialScratchCapacity ≤ 2 ^ 62
  · obtain ⟨after, hread, hoffers, hafter, hposition⟩ := h.readBytes hreached hscratch hsize
    rw [hread]
    exact .value hoffers hafter hposition
  · have hafter := hreached.read (.bytes front.length)
    obtain ⟨rfl, _⟩ := hreached.storage
    by_cases hroom : front.length ≤ cursor.refilled.buffered ∨
        cursor.capacityFor front.length ≤ maxAllocation
    · obtain ⟨after, hread, hoffers, hposition⟩ := h.readAdmitted (by omega) hroom
      rw [Request.run, hread] at hafter
      rw [hread]
      exact .value hoffers hafter hposition
    · rw [not_or, Nat.not_le, Nat.not_le] at hroom
      have hsome : front ++ rest ≠ [] := by
        intro hnil
        rw [(List.append_eq_nil_iff.mp hnil).1] at hroom
        exact absurd hroom.1 (Nat.not_lt_zero _)
      have hstraddles : cursor.straddles front.length = true :=
        straddles_iff.mpr ⟨h.opened, by omega, (h.refilled hsome).1, hroom.1⟩
      have hfails := readBytes_overflows_iff.mpr ⟨hstraddles, hroom.2⟩
      generalize cursor.readBytes front.length = outcome at hfails ⊢
      obtain ⟨result, after⟩ := outcome
      obtain rfl : result = .error .capacityOverflow := hfails
      exact .noRoom (Nat.not_le.mp hscratch)

end Cursor

/-- A decoder that has these bytes before it gives the value and stands behind them, in a slice and
in a cursor. The cursor must admit contiguous reads of the given sizes. -/
structure Yields (encoding : TextEncoding) (decoder : Decoder α) (bytes : Bytes) (sizes : List Nat)
    (value : α) : Prop where
  slice : ∀ (rest : Bytes) (position : Nat),
    decoder.run Slice.byteSource ⟨bytes ++ rest, position, encoding⟩ =
      (.ok value, ⟨rest, position + bytes.length, encoding⟩)
  cursor : ∀ {σ : Type} [ChunkSource σ] {config : DecoderConfig} {cursor : Cursor σ} {rest : Bytes},
    cursor.Reached config → config.encoding = encoding →
    (∀ size ∈ sizes, size ≤ min config.maxReadSize (2 ^ 61)) →
    cursor.Offers (bytes ++ rest) →
    cursor.Yielded config bytes rest value (decoder.run Cursor.byteSource cursor)

namespace Consumes

variable {encoding : TextEncoding} {decoder : Decoder α} {bytes rest : Bytes} {sizes : List Nat}
  {value : α}

/-- A cursor that offers the bytes is left where they end. -/
theorem run_offers [ChunkSource σ] {config : DecoderConfig} {cursor : Cursor σ}
    (h : Consumes encoding decoder bytes sizes value) (hreached : cursor.Reached config)
    (hencoding : config.encoding = encoding)
    (hsizes : ∀ size ∈ sizes, size ≤ min config.maxReadSize (2 ^ 61))
    (hoffers : cursor.Offers (bytes ++ rest)) :
    cursor.Yielded config bytes rest value (decoder.run Cursor.byteSource cursor) := by
  induction h generalizing cursor with
  | done value => exact .value hoffers hreached rfl
  | @byte next b bytes sizes value _ ih =>
    obtain ⟨middle, hread, hmiddle, hfirst⟩ := Cursor.Offers.readByte hoffers
    have hnext := ih (hreached.readByte hread) hsizes hmiddle
    rw [Decoder.run_byte, show Cursor.byteSource.readByte cursor = (.ok b, middle) from hread,
      Outcome.andThen]
    generalize (next b).run Cursor.byteSource middle = outcome at hnext ⊢
    cases hnext with
    | value hafter hkept hposition =>
      refine .value hafter hkept ?_
      rw [hposition, hfirst, List.length_cons]
      omega
    | noRoom hscratch => exact .noRoom hscratch
  | @bytes next block bytes sizes value _ ih =>
    obtain ⟨hblock, hlater⟩ := List.forall_mem_cons.mp hsizes
    rw [List.append_assoc] at hoffers
    have hread := hoffers.yielded hreached hblock
    rw [Decoder.run_bytes, show Cursor.byteSource.readBytes block.length cursor =
      cursor.readBytes block.length from rfl]
    generalize cursor.readBytes block.length = outcome at hread ⊢
    cases hread with
    | noRoom hscratch => exact .noRoom hscratch
    | @value middle hmiddle hkept hfirst =>
      have hnext := ih hkept hlater hmiddle
      rw [Outcome.andThen]
      generalize (next block).run Cursor.byteSource middle = outcome at hnext ⊢
      cases hnext with
      | value hafter hlast hposition =>
        refine .value hafter hlast ?_
        rw [hposition, hfirst, List.length_append]
        omega
      | noRoom hscratch => exact .noRoom hscratch
  | encoding _ ih =>
    obtain ⟨hconfig, _⟩ := hreached.storage
    rw [Decoder.run, show Cursor.byteSource.encoding cursor = cursor.config.encoding from rfl,
      hconfig, hencoding]
    exact ih hreached hsizes hoffers

theorem yields (h : Consumes encoding decoder bytes sizes value) :
    Yields encoding decoder bytes sizes value where
  slice := h.run
  cursor := h.run_offers

end Consumes

end Columnar
