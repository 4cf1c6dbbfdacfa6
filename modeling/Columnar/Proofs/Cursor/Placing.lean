import Columnar.Proofs.Cursor.Counting
import Columnar.Proofs.EndOfStream

/-!
Where a cursor stands in the stream. As long as every read that straddles is served, no byte is
lost, so the position and the bytes that are buffered reach just to the end of the chunks pulled,
and what is buffered lies in the last of them. Then the path of a successful read is told by the
chunks alone: it straddles if and only if no chunk has all of its bytes.
-/
namespace Columnar

/-- The last of some chunks is the last of those behind, or there are none behind. -/
theorem getLast?_of_append {chunks more : List Chunk} {chunk : Chunk}
    (h : (chunks ++ more).getLast? = some chunk) :
    more.getLast? = some chunk ∨ more = [] ∧ chunks.getLast? = some chunk := by
  by_cases hnone : more = []
  · rw [hnone, List.append_nil] at h
    exact .inr ⟨hnone, h⟩
  · rw [List.getLast?_append, Option.or_of_isSome (by simpa using hnone)] at h
    exact .inl h

theorem ChunkSource.prefix_beforeEnd [ChunkSource σ] {calls more : Nat} (h : calls ≤ more)
    (source : σ) : beforeEnd calls source <+: beforeEnd more source := by
  obtain ⟨rest, rfl⟩ := Nat.exists_eq_add_of_le h
  refine List.IsPrefix.filterMap _ ?_
  rw [answers_add, List.takeWhile_append]
  split
  · next hwhole =>
    rw [(List.takeWhile_prefix _).eq_of_length hwhole]
    exact List.prefix_append _ _
  · exact List.prefix_refl _

namespace Cursor

variable [ChunkSource σ]

section Follows

variable [ChunkSource τ] {f : σ → τ} (hf : Follows f)

include hf

theorem straddled_mapSource (requests : List Request) (cursor : Cursor σ) :
    (cursor.mapSource f).straddled requests = cursor.straddled requests := by
  induction requests generalizing cursor with
  | nil => rfl
  | cons request requests ih =>
    simp only [straddled, straddled?_mapSource hf, run_mapSource hf, Prod.map_snd]
    rw [ih]

theorem intact_mapSource (requests : List Request) (cursor : Cursor σ) :
    (cursor.mapSource f).Intact requests ↔ cursor.Intact requests := by
  induction requests generalizing cursor with
  | nil => exact Iff.rfl
  | cons request requests ih =>
    simp only [Intact, Request.Intact, straddled?_mapSource hf, run_mapSource hf, Prod.map_fst,
      Prod.map_snd, id_eq]
    rw [ih]

end Follows

/-- The position and the buffered bytes reach to the end of the chunks pulled, and all that is
buffered is of the last of them. -/
structure Placed (cursor : Cursor (Recorded σ)) : Prop where
  total : cursor.position + cursor.buffered = (joined cursor.source.chunks).length
  last : ∀ chunk, cursor.source.chunks.getLast? = some chunk → cursor.buffered ≤ chunk.length

variable {cursor : Cursor (Recorded σ)} {request : Request} {size : Nat} {bytes : Bytes}

/-- A chunk that is entered follows those before it. -/
theorem Placed.refilled (h : cursor.Placed) (hsome : 0 < cursor.refilled.buffered) :
    cursor.refilled.Placed ∧ cursor.refilled.position = cursor.position := by
  obtain ⟨chunks, source, region, hsupplies, _, hunread, hlast, hrefilled⟩ :=
    refilled_supplied hsome
  have hbuffered : cursor.refilled.buffered = region.unread.length := by rw [hrefilled]; rfl
  have hposition : cursor.refilled.position = cursor.position := by rw [hrefilled]; rfl
  have hchunks : cursor.refilled.source.chunks = cursor.source.chunks ++ chunks := by
    rw [hrefilled]
    exact Recorded.chunks_of_supplies hsupplies
  have hlength := congrArg List.length hunread
  rw [List.length_append, ← hbuffered, ← buffered] at hlength
  refine ⟨⟨?total, ?last⟩, hposition⟩
  case total =>
    rw [hposition, hchunks, joined_append, List.length_append, ← h.total]
    omega
  case last =>
    intro chunk hchunk
    rw [hchunks] at hchunk
    rcases getLast?_of_append hchunk with hnew | ⟨hnone, hold⟩
    · rw [hbuffered, hlast chunk hnew]
    · rw [hnone, joined_nil, List.length_nil] at hlength
      have hbefore := h.last chunk hold
      omega

/-- A chunk is pulled only when nothing is buffered, or to be used for the read. -/
theorem Placed.last_run (h : cursor.Placed) (request : Request) {chunk : Chunk}
    (hchunk : (request.run cursor).2.source.chunks.getLast? = some chunk) :
    (request.run cursor).2.buffered ≤ chunk.length := by
  have hexchange := exchange request cursor
  generalize request.run cursor = outcome at hexchange hchunk ⊢
  cases hexchange with
  | @served chunks bytes after hsupplies _ hbytes _ hlast =>
    replace hchunk : after.source.chunks.getLast? = some chunk := hchunk
    rw [Recorded.chunks_of_supplies hsupplies] at hchunk
    rcases getLast?_of_append hchunk with hnew | ⟨hnone, hold⟩
    · exact Nat.le_of_lt (hlast chunk hnew)
    · have hlength := congrArg List.length hbytes
      rw [hnone, joined_nil, List.append_nil, List.length_append, ← buffered, ← buffered]
        at hlength
      have hbefore := h.last chunk hold
      exact (by omega : after.buffered ≤ chunk.length)
  | refused => exact h.last chunk hchunk
  | overflowed _ hstraddles =>
    exact (h.refilled (straddles_iff.mp hstraddles).2.2.1).1.last chunk hchunk
  | failed _ _ _ hspent =>
    rw [buffered, hspent]
    exact Nat.zero_le _
  | ended _ _ hspent =>
    rw [buffered, hspent]
    exact Nat.zero_le _

/-- A read loses no byte unless it straddles and fails. -/
theorem discarded_of_intact (hintact : request.Intact cursor) : request.discarded cursor = [] := by
  by_contra hlost
  obtain ⟨size, cause, rfl, hstraddles, hfails⟩ := discarded_ne_nil hlost
  have hdirect := hintact.direct hfails
  rw [Request.straddled?_eq_some_iff.mpr ⟨rfl, hstraddles⟩] at hdirect
  cases hdirect

theorem Placed.run (h : cursor.Placed) (hintact : request.Intact cursor) :
    (request.run cursor).2.Placed where
  last _ := h.last_run request
  total := by
    obtain ⟨chunks, hflow⟩ := flow_run request cursor
    have hlength := congrArg List.length hflow.bytes
    rw [discarded_of_intact hintact, List.append_nil, List.length_append, List.length_append,
      ← buffered, ← buffered] at hlength
    rw [hflow.position, hflow.handed, joined_append, List.length_append, ← h.total]
    omega

theorem Placed.after (h : cursor.Placed) {requests : List Request}
    (hintact : cursor.Intact requests) : (cursor.after requests).Placed := by
  induction requests generalizing cursor with
  | nil => exact h
  | cons request requests ih => exact ih (h.run hintact.1) hintact.2

/-- No chunk is forgotten. -/
theorem prefix_chunks_after (requests : List Request) (cursor : Cursor (Recorded σ)) :
    cursor.source.chunks <+: (cursor.after requests).source.chunks := by
  obtain ⟨chunks, hflow⟩ := flow_after requests cursor
  exact ⟨chunks, hflow.handed.symm⟩

/-- The chunk that a successful read enters is there when it is served. -/
theorem prefix_chunks_served (hsize : 0 < size)
    (hserved : (cursor.readBytes size).1 = .ok bytes) :
    cursor.refilled.source.chunks <+: (cursor.readBytes size).2.source.chunks := by
  cases hstraddles : cursor.straddles size with
  | true =>
    have hacross := across (straddles_iff.mp hstraddles).2.2.2
    rw [readBytes_of_straddles hstraddles] at hserved ⊢
    generalize cursor.refilled.readAcross size = outcome at hserved hacross ⊢
    cases hacross with
    | complete _ _ hsupplies =>
      exact ⟨_, (Recorded.chunks_of_supplies hsupplies).symm⟩
    | overflow => cases hserved
    | failed => cases hserved
    | ended => cases hserved
  | false =>
    have hdirect := direct hstraddles
    generalize cursor.readBytes size = outcome at hserved hdirect ⊢
    cases hdirect with
    | view => exact List.prefix_refl _
    | closed => cases hserved
    | tooLarge => cases hserved
    | failed => cases hserved
    | ended => cases hserved
    | empty _ hzero => omega

/-- The path of a successful read is told by the chunks: they may go on behind those pulled. -/
theorem Placed.straddles_iff_span (h : cursor.Placed) (hsize : 0 < size)
    (hserved : (cursor.readBytes size).1 = .ok bytes) {chunks : List Chunk}
    (hchunks : (cursor.readBytes size).2.source.chunks <+: chunks) :
    cursor.straddles size = false ↔ Span.InOneChunk chunks ⟨cursor.position, size⟩ := by
  obtain ⟨hsome, hfits⟩ := refilled_of_served hsize hserved
  obtain ⟨hplaced, hposition⟩ := h.refilled hsome
  obtain ⟨back, rfl⟩ := (prefix_chunks_served hsize hserved).trans hchunks
  have htotal := hplaced.total
  have hlast := hplaced.last
  generalize cursor.refilled.source.chunks = pulled at htotal hlast ⊢
  cases hheld : pulled.getLast? with
  | none =>
    rw [List.getLast?_eq_none_iff.mp hheld, joined_nil, List.length_nil] at htotal
    omega
  | some chunk =>
    -- the first byte is in the last chunk pulled
    have hwithin := hlast chunk hheld
    obtain ⟨front, rfl⟩ := List.getLast?_eq_some_iff.mp hheld
    rw [joined_append, joined_cons, joined_nil, List.append_nil, List.length_append,
      Chunk.length_bytes, hposition] at htotal
    rw [List.append_assoc, List.singleton_append,
      Span.inOneChunk_iff (by simp only; omega) (by simp only; omega), hfits]
    simp only
    omega

end Cursor

end Columnar
