import Columnar.Proofs.Cursor.Refinement
import Columnar.Proofs.Scratch

/-!
Reads of bytes that are on their way. A cursor offers a byte string if it begins what the region
and the next chunks hold together. The source need not come to an end: it may fail or go on in any
way behind the chunks that are needed.
-/
namespace Columnar

namespace Cursor

variable [ChunkSource σ]

/-- What a program can make of a new cursor: it reads, and it may close the cursor. -/
inductive Reached (config : DecoderConfig) : Cursor σ → Prop where
  | start {source : σ} {cursor : Cursor σ} (hstart : ofConfig config source = .ok cursor) :
      Reached config cursor
  | read {cursor : Cursor σ} (request : Request) (h : Reached config cursor) :
      Reached config (request.run cursor).2
  | close {cursor : Cursor σ} (h : Reached config cursor) : Reached config cursor.close

theorem Reached.after {config : DecoderConfig} {cursor : Cursor σ} (h : Reached config cursor)
    (requests : List Request) : Reached config (cursor.after requests) := by
  induction requests generalizing cursor with
  | nil => exact h
  | cons request requests ih => exact ih (h.read request)

/-- The capacity changes only to what a read needs, and only if a buffer can have it. -/
theorem capacity_run (request : Request) (cursor : Cursor σ) :
    (request.run cursor).2.config = cursor.config ∧
      ((request.run cursor).2.scratchCapacity = cursor.scratchCapacity ∨
        ∃ size, (request.run cursor).2.scratchCapacity = cursor.capacityFor size ∧
          cursor.capacityFor size ≤ maxAllocation) := by
  cases hstraddled : request.straddled? cursor with
  | none =>
    obtain ⟨hconfig, _, hcapacity⟩ := storage_of_not_straddled hstraddled
    exact ⟨hconfig, .inl hcapacity⟩
  | some size =>
    obtain ⟨rfl, hstraddles⟩ := Request.straddled?_eq_some_iff.mp hstraddled
    have hacross := across (straddles_iff.mp hstraddles).2.2.2
    rw [Request.run, readBytes_of_straddles hstraddles, ← config_refilled cursor,
      ← scratchCapacity_refilled cursor]
    simp only [← capacityFor_refilled _ cursor]
    generalize cursor.refilled.readAcross size = outcome at hacross ⊢
    cases hacross with
    | overflow => exact ⟨rfl, .inl rfl⟩
    | complete _ hroom => exact ⟨rfl, .inr ⟨size, rfl, hroom⟩⟩
    | failed hroom => exact ⟨rfl, .inr ⟨size, rfl, hroom⟩⟩
    | ended hroom => exact ⟨rfl, .inr ⟨size, rfl, hroom⟩⟩

theorem storage_run (request : Request) (cursor : Cursor σ) :
    (request.run cursor).2.config = cursor.config ∧
      (cursor.scratchCapacity ≤ maxAllocation →
        (request.run cursor).2.scratchCapacity ≤ maxAllocation) := by
  obtain ⟨hconfig, hsame | ⟨size, hgrown, hroom⟩⟩ := capacity_run request cursor
  · exact ⟨hconfig, fun hbefore => by rw [hsame]; exact hbefore⟩
  · exact ⟨hconfig, fun _ => by rw [hgrown]; exact hroom⟩

/-- A cursor keeps its configuration, and its storage never outgrows a buffer. -/
theorem Reached.storage {config : DecoderConfig} {cursor : Cursor σ} (h : Reached config cursor) :
    cursor.config = config ∧ cursor.scratchCapacity ≤ maxAllocation := by
  induction h with
  | start hstart =>
    obtain ⟨_, rfl⟩ := ofConfig_eq_ok_iff.mp hstart
    exact ⟨rfl, Nat.zero_le _⟩
  | @read cursor request _ ih =>
    obtain ⟨hconfig, hroom⟩ := storage_run request cursor
    exact ⟨hconfig.trans ih.1, hroom ih.2⟩
  | @close cursor _ ih =>
    rw [Cursor.close]
    split
    · exact ih
    · exact ⟨ih.1, Nat.zero_le _⟩

/-- The next bytes of the stream, as far as they are known. -/
structure Offers (cursor : Cursor σ) (bytes : Bytes) : Prop where
  opened : cursor.closed = false
  supply : ∃ chunks last, Supplies cursor.source chunks last ∧
    (chunks ≠ [] → cursor.exhausted = false) ∧ bytes <+: cursor.region.unread ++ joined chunks

omit [ChunkSource σ] in
theorem split_offer {front rest front' rest' : Bytes} (h : front ++ rest <+: front' ++ rest')
    (hlength : front'.length = front.length) : front' = front ∧ rest <+: rest' := by
  obtain ⟨more, hmore⟩ := h
  rw [List.append_assoc] at hmore
  obtain ⟨rfl, hrest⟩ := List.append_inj hmore hlength.symm
  exact ⟨rfl, more, hrest⟩

namespace Offers

variable {cursor : Cursor σ} {bytes front rest : Bytes} {size : Nat}

/-- Offered bytes can be read from a chunk. -/
theorem refilled (h : cursor.Offers bytes) (hsome : bytes ≠ []) :
    0 < cursor.refilled.buffered ∧ cursor.refilled.Offers bytes ∧
      cursor.refilled.position = cursor.position := by
  by_cases hspent : cursor.region.unread.isEmpty
  · obtain ⟨chunks, last, hsupplies, hlive, hbytes⟩ := h.supply
    rw [List.isEmpty_iff.mp hspent, List.nil_append] at hbytes
    cases hsupplies with
    | none => exact absurd (List.prefix_nil.mp hbytes) hsome
    | @more _ middle _ chunk later hnext hlater =>
      have hpull := pull_of_next (hlive (List.cons_ne_nil _ _)) hnext
      have hrefilled : cursor.refilled = (cursor.supplied [chunk] middle).enter chunk := by
        rw [Cursor.refilled, if_pos hspent, hpull]
      rw [hrefilled]
      exact ⟨chunk.length_pos, ⟨h.opened, later, last, hlater,
        fun _ => hlive (List.cons_ne_nil _ _), hbytes⟩, rfl⟩
  · rw [Cursor.refilled, if_neg hspent]
    exact ⟨List.length_pos_iff.mpr (by simpa using hspent), h, rfl⟩

/-- The source neither ends nor fails before the last of the bytes. -/
theorem not_short {chunks : List Chunk} {middle : σ} (h : cursor.Offers bytes)
    (hsupplies : Supplies cursor.source chunks middle)
    (hshort : (cursor.region.unread ++ joined chunks).length < bytes.length) :
    cursor.exhausted = false ∧
      ∃ (chunk : Chunk) (after : σ), ChunkSource.next middle = (.ok (some chunk.bytes), after) := by
  obtain ⟨offered, last, hoffered, hlive, hbytes⟩ := h.supply
  have hlong := hbytes.length_le
  rw [List.length_append] at hshort hlong
  rcases hsupplies.front_or hoffered with ⟨back, rfl, hback⟩ | ⟨back, rfl⟩
  · cases hback with
    | none =>
      rw [List.append_nil] at hlong
      omega
    | @more _ after _ chunk later hnext _ =>
      exact ⟨hlive (by simp), chunk, after, hnext⟩
  · rw [joined_append, List.length_append] at hshort
    omega

/-- What an assembly left of its bytes and the chunks behind them is offered next. -/
theorem later {chunks : List Chunk} {middle : σ} {taken : Bytes} (region : Region)
    (h : cursor.Offers (front ++ rest)) (hsupplies : Supplies cursor.source chunks middle)
    (hbytes : cursor.region.unread ++ joined chunks = taken ++ region.unread)
    (htaken : taken.length = front.length) :
    taken = front ∧ ∃ offered last, Supplies middle offered last ∧
      (offered ≠ [] → cursor.exhausted = false) ∧ rest <+: region.unread ++ joined offered := by
  obtain ⟨offered, last, hoffered, hlive, hfront⟩ := h.supply
  rcases hsupplies.front_or hoffered with ⟨back, rfl, hback⟩ | ⟨back, rfl⟩
  · rw [joined_append, ← List.append_assoc, hbytes, List.append_assoc] at hfront
    obtain ⟨rfl, hrest⟩ := split_offer hfront htaken
    exact ⟨rfl, back, last, hback, fun hsome => hlive (by simp [hsome]), hrest⟩
  · -- more was pulled than was known to come
    have hlong : front ++ rest <+: taken ++ region.unread := by
      rw [← hbytes, joined_append, ← List.append_assoc]
      exact hfront.trans (List.prefix_append _ _)
    obtain ⟨rfl, hrest⟩ := split_offer hlong htaken
    refine ⟨rfl, [], middle, .none middle, fun hsome => absurd rfl hsome, ?_⟩
    rw [joined_nil, List.append_nil]
    exact hrest

theorem readBuffered (h : cursor.Offers (front ++ rest))
    (hroom : front.length ≤ cursor.buffered ∨
      cursor.capacityFor front.length ≤ maxAllocation) :
    ∃ after, cursor.readBuffered front.length = (.ok front, after) ∧ after.Offers rest ∧
      after.position = cursor.position + front.length := by
  rw [Cursor.readBuffered]
  cases hview : cursor.region.unread.split? front.length with
  | some view =>
    obtain ⟨taken, left⟩ := view
    obtain ⟨hregion, htaken⟩ := Bytes.split?_eq_some_iff.mp hview
    have hleft : (cursor.region.leave left).unread = left := Region.unread_leave hregion
    obtain ⟨rfl, hlater⟩ := h.later (cursor.region.leave left) (.none cursor.source)
      (by rw [joined_nil, List.append_nil, hleft, hregion]) htaken
    exact ⟨_, rfl, ⟨h.opened, hlater⟩, rfl⟩
  | none =>
    have hshort := Bytes.split?_eq_none_iff.mp hview
    have hcapacity := hroom.resolve_left (Nat.not_le.mpr hshort)
    have hacross := across hshort
    have hlength : front.length ≤ (front ++ rest).length := by
      rw [List.length_append]
      omega
    generalize cursor.readAcross front.length = outcome at hacross ⊢
    cases hacross with
    | overflow hlarge => exact absurd hlarge (Nat.not_lt.mpr hcapacity)
    | complete region _ hsupplies _ hbytes htaken =>
      obtain ⟨rfl, hlater⟩ := h.later region hsupplies hbytes htaken
      exact ⟨_, rfl, ⟨h.opened, hlater⟩, rfl⟩
    | failed _ hsupplies _ hshort hnext =>
      obtain ⟨_, chunk, after, hchunk⟩ := h.not_short hsupplies (by omega)
      rw [hnext] at hchunk
      cases hchunk
    | ended _ hsupplies _ hshort hstops =>
      obtain ⟨hlive, chunk, after, hchunk⟩ := h.not_short hsupplies (by omega)
      rw [hlive] at hstops
      obtain ⟨hends, _⟩ := hstops
      simp [Ends, hchunk, Chunk.bytes_ne_nil] at hends

/-- Bytes that are offered are read if the region has them all or there is room for them. -/
theorem readAdmitted (h : cursor.Offers (front ++ rest))
    (hlimit : front.length ≤ cursor.config.maxReadSize)
    (hroom : front.length ≤ cursor.refilled.buffered ∨
      cursor.capacityFor front.length ≤ maxAllocation) :
    ∃ after, cursor.readBytes front.length = (.ok front, after) ∧ after.Offers rest ∧
      after.position = cursor.position + front.length := by
  cases hfront : front with
  | nil =>
    rw [hfront] at h
    refine ⟨cursor, ?_, h, rfl⟩
    rw [Cursor.readBytes, if_neg (by simp [h.opened])]
    rfl
  | cons byte tail =>
    rw [← hfront]
    have hpos : 0 < front.length := by
      rw [hfront]
      exact Nat.succ_pos _
    obtain ⟨hbuffered, hrefilled, hposition⟩ := h.refilled (by simp [hfront])
    rw [readBytes_refilled h.opened hpos hlimit hbuffered, ← hposition]
    rw [← capacityFor_refilled front.length cursor] at hroom
    exact hrefilled.readBuffered hroom

/-- Offered bytes are read, and what was offered behind them is offered then. -/
theorem readBytes {config : DecoderConfig} (h : cursor.Offers (front ++ rest))
    (hreached : cursor.Reached config) (hscratch : config.initialScratchCapacity ≤ 2 ^ 62)
    (hsize : front.length ≤ min config.maxReadSize (2 ^ 61)) :
    ∃ after, cursor.readBytes front.length = (.ok front, after) ∧ after.Offers rest ∧
      after.Reached config ∧ after.position = cursor.position + front.length := by
  obtain ⟨rfl, hroom⟩ := hreached.storage
  obtain ⟨after, hread, hoffers, hposition⟩ :=
    h.readAdmitted (by omega) (.inr (capacityFor_le (by omega) hscratch hroom))
  have hafter : after.Reached cursor.config := by
    have hstep := hreached.read (.bytes front.length)
    rw [Request.run, hread] at hstep
    exact hstep
  exact ⟨after, hread, hoffers, hafter, hposition⟩

end Offers

end Cursor

end Columnar
