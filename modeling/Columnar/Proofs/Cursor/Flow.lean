import Columnar.Proofs.Cursor.Recording

/-!
Where the bytes go in one read. Between two states of a cursor whose source is recorded some
chunks were pulled, some bytes left the region for good, and a number of them was handed out.
Flows in a row add up.
-/
namespace Columnar.Cursor

/-- What was pulled between the two cursors is what was taken and what is unread now. -/
structure Flow (before after : Cursor (Recorded σ)) (chunks : List Chunk) (taken : Bytes)
    (served : Nat) : Prop where
  handed : after.source.chunks = before.source.chunks ++ chunks
  bytes : before.region.unread ++ joined chunks = taken ++ after.region.unread
  counted : after.counters.chunksPulled = before.counters.chunksPulled + chunks.length
  position : after.position = before.position + served

theorem Flow.refl (cursor : Cursor (Recorded σ)) : Flow cursor cursor [] [] 0 := by
  constructor
  · rw [List.append_nil]
  · rw [joined_nil, List.append_nil, List.nil_append]
  · rfl
  · rfl

theorem Flow.trans {first second third : Cursor (Recorded σ)} {chunks chunks' : List Chunk}
    {taken taken' : Bytes} {served served' : Nat} (h : Flow first second chunks taken served)
    (h' : Flow second third chunks' taken' served') :
    Flow first third (chunks ++ chunks') (taken ++ taken') (served + served') := by
  constructor
  · rw [h'.handed, h.handed, List.append_assoc]
  · have hfirst := h.bytes
    have hsecond := h'.bytes
    rw [joined_append, ← List.append_assoc, hfirst, List.append_assoc, hsecond, List.append_assoc]
  · rw [h'.counted, h.counted, List.length_append, Nat.add_assoc]
  · rw [h'.position, h.position, Nat.add_assoc]

theorem flow_serveByte {cursor : Cursor (Recorded σ)} {byte : UInt8} {rest : Bytes}
    (h : cursor.region.unread = byte :: rest) : Flow cursor (cursor.serveByte rest) [] [byte] 1 := by
  have hfront : cursor.region.unread = [byte] ++ rest := h
  have hrest : (cursor.serveByte rest).region.unread = rest := Region.unread_leave hfront
  constructor
  · rw [List.append_nil]
    rfl
  · rw [joined_nil, List.append_nil, hrest, hfront]
  · rfl
  · rfl

theorem flow_serveView {cursor : Cursor (Recorded σ)} {front rest : Bytes}
    (h : cursor.region.unread = front ++ rest) :
    Flow cursor (cursor.serveView front.length rest) [] front front.length := by
  have hrest : (cursor.serveView front.length rest).region.unread = rest := Region.unread_leave h
  constructor
  · rw [List.append_nil]
    rfl
  · rw [joined_nil, List.append_nil, hrest, h]
  · rfl
  · rfl

variable [ChunkSource σ]

/-- A chunk that is entered when the region is spent. -/
theorem flow_enter {cursor : Cursor (Recorded σ)} {chunk : Chunk} {source : Recorded σ}
    (hspent : cursor.region.unread = [])
    (hnext : ChunkSource.next cursor.source = (.ok (some chunk.bytes), source)) :
    Flow cursor ((cursor.supplied [chunk] source).enter chunk) [chunk] [] 0 := by
  constructor
  · exact Recorded.chunks_of_next hnext
  · rw [hspent, joined_cons, joined_nil, List.append_nil]
    rfl
  · rfl
  · rfl

/-- A source that fails hands out nothing. -/
theorem flow_failed {cursor : Cursor (Recorded σ)} {cause : DecodeError} {last : Recorded σ}
    (hnext : ChunkSource.next cursor.source = (.error cause, last)) :
    Flow cursor { cursor with source := last } [] [] 0 := by
  constructor
  · exact Recorded.chunks_of_next hnext
  · rw [joined_nil, List.append_nil, List.nil_append]
  · rfl
  · rfl

theorem flow_ended {cursor : Cursor (Recorded σ)} {last : Recorded σ}
    (hstops : Stops cursor.exhausted cursor.source last) :
    Flow cursor { cursor with source := last, exhausted := true } [] [] 0 := by
  constructor
  · rw [List.append_nil]
    exact (Recorded.told_of_stops hstops).1
  · rw [joined_nil, List.append_nil, List.nil_append]
  · rfl
  · rfl

theorem flow_refilled {cursor : Cursor (Recorded σ)} (h : 0 < cursor.refilled.buffered) :
    ∃ chunks, Flow cursor cursor.refilled chunks [] 0 := by
  obtain ⟨chunks, source, region, hsupplies, _, hunread, heq⟩ := refilled_eq h
  rw [heq]
  refine ⟨chunks, ?_⟩
  constructor
  · exact Recorded.chunks_of_supplies hsupplies
  · exact hunread.symm
  · rfl
  · rfl

/-- An assembled read takes from the region and the pulled chunks what it hands out or drops. -/
theorem flow_across {size : Nat} {cursor after : Cursor (Recorded σ)} {result : Except Fault Bytes}
    (h : Across size cursor (result, after)) :
    (∃ bytes chunks, result = .ok bytes ∧ Flow cursor after chunks bytes bytes.length) ∨
    (∃ chunks, result = .error .capacityOverflow ∧ Flow cursor after chunks [] 0) ∨
    (∃ cause chunks, result = .error (.error cause) ∧
      Flow cursor after chunks after.scratch.reverse 0) := by
  cases h with
  | overflow => exact .inr (.inl ⟨[], rfl, by simp, by simp, rfl, rfl⟩)
  | @complete chunks source bytes region _ hsupplies _ hbytes hsize =>
    subst hsize
    exact .inl ⟨bytes, chunks, rfl, Recorded.chunks_of_supplies hsupplies, hbytes, rfl, rfl⟩
  | @failed chunks source last cause _ hsupplies _ _ hnext =>
    refine .inr (.inr ⟨_, chunks, rfl, ?_, ?_, rfl, rfl⟩)
    · have hlast := Recorded.chunks_of_next hnext
      rw [Recorded.chunks_of_supplies hsupplies] at hlast
      simpa [crossing, supplied, chunk?] using hlast
    · simp [crossing]
  | @ended chunks source last _ hsupplies _ _ hstops =>
    refine .inr (.inr ⟨_, chunks, rfl, ?_, ?_, rfl, rfl⟩)
    · have hlast := (Recorded.told_of_stops hstops).1
      rw [Recorded.chunks_of_supplies hsupplies] at hlast
      simpa [crossing, supplied] using hlast
    · simp [crossing]

/-- A single byte is never assembled, so it is never dropped. -/
theorem flow_readByte (cursor : Cursor (Recorded σ)) :
    ∃ chunks, Flow cursor (Request.byte.run cursor).2 chunks
      (Request.byte.returned cursor) (Request.byte.returned cursor).length := by
  simp only [Request.returned, Request.run, readByte]
  by_cases hclosed : cursor.closed = true
  · rw [if_pos hclosed]
    exact ⟨[], .refl cursor⟩
  · rw [if_neg hclosed]
    cases hregion : cursor.region.unread with
    | cons byte rest => exact ⟨[], flow_serveByte hregion⟩
    | nil =>
      rcases pull_cases cursor with ⟨chunk, source, _, hnext, hpull⟩ |
        ⟨cause, source, _, hnext, hpull⟩ | ⟨last, hstops, hpull⟩
      · simp only [hpull]
        exact ⟨[chunk], (flow_enter hregion hnext).trans (flow_serveByte rfl)⟩
      · simp only [hpull]
        exact ⟨[], flow_failed hnext⟩
      · simp only [hpull]
        exact ⟨[], flow_ended hstops⟩

/-- A read that does not straddle drops nothing. -/
theorem flow_direct {size : Nat} {cursor after : Cursor (Recorded σ)}
    {result : Except Fault Bytes} (h : Direct size cursor (result, after)) :
    (∃ bytes chunks, result = .ok bytes ∧ Flow cursor after chunks bytes bytes.length) ∨
    ∃ fault, result = .error fault ∧ Flow cursor after [] [] 0 := by
  cases h with
  | closed => exact .inr ⟨_, rfl, .refl cursor⟩
  | empty => exact .inl ⟨[], [], rfl, .refl cursor⟩
  | tooLarge => exact .inr ⟨_, rfl, .refl cursor⟩
  | failed _ _ hnext => exact .inr ⟨_, rfl, flow_failed hnext⟩
  | ended _ hstops => exact .inr ⟨_, rfl, flow_ended hstops⟩
  | @view front rest hview hlength hsize =>
    subst hlength
    have hsome : 0 < cursor.refilled.buffered := by
      rw [buffered, hview, List.length_append]
      omega
    obtain ⟨chunks, hrefilled⟩ := flow_refilled hsome
    have hserved := hrefilled.trans (flow_serveView hview)
    rw [List.append_nil, Nat.zero_add] at hserved
    exact .inl ⟨front, chunks, rfl, hserved⟩

/-- A read takes from the region and the pulled chunks what it hands out or drops. -/
theorem flow_run (request : Request) (cursor : Cursor (Recorded σ)) :
    ∃ chunks, Flow cursor (request.run cursor).2 chunks
      (request.returned cursor ++ request.discarded cursor) (request.returned cursor).length := by
  cases request with
  | byte =>
    obtain ⟨chunks, hflow⟩ := flow_readByte cursor
    exact ⟨chunks, by rw [Request.discarded, List.append_nil]; exact hflow⟩
  | bytes size =>
    simp only [Request.returned, Request.run, Request.discarded]
    by_cases hstraddles : cursor.straddles size = true
    · obtain ⟨_, _, hsome, hshort⟩ := straddles_iff.mp hstraddles
      obtain ⟨front, hrefilled⟩ := flow_refilled hsome
      have hacross := across hshort
      rw [if_pos hstraddles, readBytes_of_straddles hstraddles]
      generalize cursor.refilled.readAcross size = outcome at hacross ⊢
      obtain ⟨result, after⟩ := outcome
      rcases flow_across hacross with ⟨bytes, chunks, rfl, hflow⟩ | ⟨chunks, rfl, hflow⟩ |
        ⟨cause, chunks, rfl, hflow⟩
      all_goals
        refine ⟨front ++ chunks, ?_⟩
        simpa using hrefilled.trans hflow
    · replace hstraddles : cursor.straddles size = false := by simpa using hstraddles
      have hdirect := direct hstraddles
      rw [if_neg (by simp [hstraddles])]
      generalize cursor.readBytes size = outcome at hdirect ⊢
      obtain ⟨result, after⟩ := outcome
      rcases flow_direct hdirect with ⟨bytes, chunks, rfl, hflow⟩ | ⟨fault, rfl, hflow⟩
      · exact ⟨chunks, by simpa using hflow⟩
      · exact ⟨[], hflow⟩

/-- An assembly that failed leaves nothing unread. Its fault is one of the source, or names the end
of the stream with the number of bytes that were there. -/
theorem spent_of_straddles {σ : Type} [ChunkSource σ] {size : Nat} {cursor : Cursor σ}
    {cause : DecodeError} (hstraddles : cursor.straddles size = true)
    (hfails : (cursor.readBytes size).1 = .error (.error cause)) :
    (cursor.readBytes size).2.region.unread = [] ∧
      ∀ kind, ChunkSource.FailsWith kind cursor.source →
        cause = .endOfStream size (Request.discarded (.bytes size) cursor).length ∨ kind cause := by
  obtain ⟨_, _, hsome, hshort⟩ := straddles_iff.mp hstraddles
  have hacross := across hshort
  rw [Request.discarded, if_pos hstraddles]
  rw [readBytes_of_straddles hstraddles] at hfails ⊢
  generalize cursor.refilled.readAcross size = outcome at hfails hacross ⊢
  cases hacross with
  | overflow => cases hfails
  | complete => cases hfails
  | failed _ hback _ _ hnext =>
    cases hfails
    refine ⟨rfl, fun kind hkind => .inr ?_⟩
    obtain ⟨_, _, _, hfront, _, _, hrefilled⟩ := refilled_eq hsome
    rw [hrefilled] at hback
    exact ((hkind.supplies hfront).supplies hback).of_next hnext
  | ended =>
    cases hfails
    exact ⟨rfl, fun _ _ => .inl (by simp [crossing])⟩

end Columnar.Cursor
