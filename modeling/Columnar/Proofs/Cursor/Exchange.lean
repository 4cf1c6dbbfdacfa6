import Columnar.Proofs.Failure

/-!
What one read exchanges with its source. A read takes a stretch of chunks, and then it hands out
bytes, or the source has failed or ended. A read that is refused takes nothing. One that finds no
room for its assembly has taken at most the chunk that it was to begin with.

The answers of a source are told by how often it was called. So the number of calls says which
chunks a run has had in its hands, also when the source fails and goes on, or would go on after its
end.
-/
namespace Columnar

namespace Cursor

variable [ChunkSource σ]

/-- The outcomes of a read, with the chunks that it took. A chunk is taken only for bytes that
the read hands out, so some of the last one are among them. -/
inductive Exchange (request : Request) (cursor : Cursor σ) : Outcome (Cursor σ) Bytes → Prop where
  | served {chunks : List Chunk} {bytes : Bytes} {after : Cursor σ}
      (hsupplies : Supplies cursor.source chunks after.source)
      (hopen : chunks ≠ [] → cursor.exhausted = false)
      (hbytes : cursor.region.unread ++ joined chunks = bytes ++ after.region.unread)
      (hsize : bytes.length = request.size)
      (hlast : ∀ chunk, chunks.getLast? = some chunk → after.buffered < chunk.length)
      (hcounted : after.counters.chunksPulled = cursor.counters.chunksPulled + chunks.length)
      (hposition : after.position = cursor.position + request.size)
      (hexhausted : after.exhausted = cursor.exhausted) (hclosed : after.closed = cursor.closed) :
      Exchange request cursor (.ok bytes, after)
  | refused {cause : DecodeError} (hrefused : request.Refused cursor cause) :
      Exchange request cursor (.error (.error cause), cursor)
  | overflowed {size : Nat} (hrequest : request = .bytes size)
      (hstraddles : cursor.straddles size = true)
      (hroom : maxAllocation < cursor.capacityFor size) :
      Exchange request cursor (.error .capacityOverflow, { cursor.refilled with scratch := [] })
  | failed {chunks : List Chunk} {middle : σ} {cause : DecodeError} {after : Cursor σ}
      (hsupplies : Supplies cursor.source chunks middle)
      (hopen : cursor.exhausted = false)
      (hnext : ChunkSource.next middle = (.error cause, after.source))
      (hspent : after.region.unread = []) (hexhausted : after.exhausted = false)
      (hclosed : after.closed = cursor.closed) :
      Exchange request cursor (.error (.error cause), after)
  | ended {chunks : List Chunk} {middle : σ} {requested available : Nat} {after : Cursor σ}
      (hsupplies : Supplies cursor.source chunks middle)
      (hstops : Stops cursor.exhausted middle after.source)
      (hspent : after.region.unread = []) (hexhausted : after.exhausted = true)
      (hclosed : after.closed = cursor.closed) :
      Exchange request cursor (.error (.error (.endOfStream requested available)), after)

variable {request : Request} {cursor : Cursor σ}

theorem exchange_of_failed {cause : DecodeError}
    (hfails : (request.run cursor).1 = .error (.error cause)) :
    Exchange request cursor (request.run cursor) := by
  obtain ⟨origin, hfailed⟩ := failedRead_of_fails hfails
  generalize request.run cursor = outcome at hfails hfailed ⊢
  obtain ⟨result, after⟩ := outcome
  obtain rfl : result = .error (.error cause) := hfails
  replace hfailed : FailedRead cursor request origin cause after := hfailed
  cases hfailed with
  | closed hclosed => exact .refused (.inl ⟨hclosed, rfl⟩)
  | tooLarge hopen hlimit => exact .refused (.inr ⟨_, rfl, hopen, hlimit, rfl⟩)
  | failed _ hspent hopen hnext => exact .failed (.none _) hopen hnext hspent hopen rfl
  | ended _ hspent hstops => exact .ended (.none _) hstops hspent rfl rfl
  | lostToFailure _ _ hsupplies hopen hnext => exact .failed hsupplies hopen hnext rfl hopen rfl
  | lostToEnd _ _ hsupplies hstops => exact .ended hsupplies hstops rfl rfl rfl

/-- Bytes that the region has are handed out, after at most one chunk was taken for them. -/
theorem exchange_of_view {after : Cursor σ} {front : Bytes}
    (hview : cursor.refilled.region.unread = front ++ after.region.unread)
    (hlength : front.length = request.size) (hsize : 0 < request.size)
    (hsource : after.source = cursor.refilled.source)
    (hcounted : after.counters.chunksPulled = cursor.refilled.counters.chunksPulled)
    (hposition : after.position = cursor.refilled.position + request.size)
    (hexhausted : after.exhausted = cursor.refilled.exhausted)
    (hclosed : after.closed = cursor.refilled.closed) :
    Exchange request cursor (.ok front, after) := by
  have hsome : 0 < cursor.refilled.buffered := by
    rw [buffered, hview, List.length_append]
    omega
  obtain ⟨chunks, source, region, hsupplies, hopen, hunread, hlast, hrefilled⟩ :=
    refilled_supplied hsome
  rw [hrefilled] at hview hsource hcounted hposition hexhausted hclosed
  replace hview : region.unread = front ++ after.region.unread := hview
  refine .served (hsource ▸ hsupplies) hopen (hunread ▸ hview) hlength
    (fun chunk hchunk => ?_) hcounted hposition hexhausted hclosed
  have hwhole := hlast chunk hchunk
  rw [hview, List.length_append] at hwhole
  rw [buffered]
  omega

theorem exchange_of_straddles {size : Nat} (hstraddles : cursor.straddles size = true) :
    Exchange (.bytes size) cursor (cursor.readBytes size) := by
  by_cases hfails : ∃ cause, (cursor.readBytes size).1 = .error (.error cause)
  · obtain ⟨cause, hfails⟩ := hfails
    have hbytes : (Request.run (.bytes size) cursor).1 = .error (.error cause) := hfails
    exact exchange_of_failed hbytes
  · obtain ⟨_, _, hsome, hshort⟩ := straddles_iff.mp hstraddles
    have hacross := across hshort
    rw [readBytes_of_straddles hstraddles] at hfails ⊢
    obtain ⟨front, middle, region, hfront, hlive, hunread, _, hrefilled⟩ :=
      refilled_supplied hsome
    generalize cursor.refilled.readAcross size = outcome at hfails hacross ⊢
    cases hacross with
    | overflow hroom => exact .overflowed rfl hstraddles (capacityFor_refilled size cursor ▸ hroom)
    | failed => exact absurd ⟨_, rfl⟩ hfails
    | ended => exact absurd ⟨_, rfl⟩ hfails
    | @complete back source bytes rest _ hback hopen hbytes hsize hlast =>
      rw [buffered, hrefilled] at hshort
      rw [hrefilled] at hback hopen hbytes ⊢
      replace hbytes : region.unread ++ joined back = bytes ++ rest.unread := hbytes
      have hmore : back ≠ [] := by
        rintro rfl
        have hlength := congrArg List.length hbytes
        rw [joined_nil, List.append_nil, List.length_append] at hlength
        replace hshort : region.unread.length < size := hshort
        omega
      refine .served (hfront.append hback) (fun _ => hopen hmore) ?_ hsize (fun chunk hchunk => ?_)
        ?_ rfl rfl rfl
      · rw [joined_append, ← List.append_assoc, ← hunread, hbytes]
      · rw [List.getLast?_append, Option.or_of_isSome (by simpa using hmore)] at hchunk
        exact hlast chunk hchunk
      · rw [List.length_append, ← Nat.add_assoc]
        rfl

/-- These are all outcomes of a read. -/
theorem exchange (request : Request) (cursor : Cursor σ) :
    Exchange request cursor (request.run cursor) := by
  by_cases hfails : ∃ cause, (request.run cursor).1 = .error (.error cause)
  · obtain ⟨cause, hfails⟩ := hfails
    exact exchange_of_failed hfails
  · cases request with
    | byte =>
      have hsingle := single cursor
      generalize Request.byte.run cursor = outcome at hfails hsingle ⊢
      cases hsingle with
      | closed => exact absurd ⟨_, rfl⟩ hfails
      | failed => exact absurd ⟨_, rfl⟩ hfails
      | ended => exact absurd ⟨_, rfl⟩ hfails
      | @served byte rest hview =>
        have hfront : cursor.refilled.region.unread = [byte] ++ rest := hview
        have hrest : (cursor.refilled.serveByte rest).region.unread = rest :=
          Region.unread_leave hfront
        exact exchange_of_view (by rw [hrest, hview]; rfl) rfl Nat.one_pos rfl rfl rfl rfl rfl
    | bytes size =>
      by_cases hstraddles : cursor.straddles size = true
      · exact exchange_of_straddles hstraddles
      · have hdirect := direct (by simpa using hstraddles)
        rw [Request.run] at hfails ⊢
        generalize cursor.readBytes size = outcome at hfails hdirect ⊢
        cases hdirect with
        | closed => exact absurd ⟨_, rfl⟩ hfails
        | tooLarge => exact absurd ⟨_, rfl⟩ hfails
        | failed => exact absurd ⟨_, rfl⟩ hfails
        | ended => exact absurd ⟨_, rfl⟩ hfails
        | empty _ hzero =>
          subst hzero
          exact .served (.none _) (fun hne => absurd rfl hne) (by simp) rfl (by simp) rfl rfl
            rfl rfl
        | @view front rest hview hlength hsize =>
          have hrest : (cursor.refilled.serveView size rest).region.unread = rest :=
            Region.unread_leave hview
          exact exchange_of_view (by rw [hrest, hview]) hlength hsize rfl rfl rfl rfl rfl

end Cursor

/-- The answer that a reader takes as the end. -/
def isEnd : Except DecodeError (Option Bytes) → Bool
  | .ok none => true
  | .ok (some []) => true
  | _ => false

namespace ChunkSource

variable [ChunkSource σ]

/-- The chunks among the next answers. -/
def handed (calls : Nat) (source : σ) : List Chunk := (answers calls source).filterMap chunk?

/-- The chunks among the next answers that come before an end. -/
def beforeEnd (calls : Nat) (source : σ) : List Chunk :=
  ((answers calls source).takeWhile fun answer => !isEnd answer).filterMap chunk?

theorem handed_add (front back : Nat) (source : σ) :
    handed (front + back) source = handed front source ++ handed back (later front source) := by
  rw [handed, answers_add, List.filterMap_append]
  rfl

end ChunkSource

variable [ChunkSource σ]

/-- A stretch of chunks is as many calls. -/
theorem Supplies.calls {source last : σ} {chunks : List Chunk} (h : Supplies source chunks last) :
    ChunkSource.later chunks.length source = last ∧
      ChunkSource.handed chunks.length source = chunks := by
  induction h with
  | none => exact ⟨rfl, rfl⟩
  | @more source middle last chunk chunks hnext _ ih =>
    simp only [List.length_cons, ChunkSource.later, ChunkSource.handed, ChunkSource.answers, hnext]
    exact ⟨ih.1, by rw [List.filterMap_cons, chunk?_bytes]; exact congrArg _ ih.2⟩

theorem Stops.calls {exhausted : Bool} {source last : σ} (h : Stops exhausted source last) :
    ∃ calls, ChunkSource.later calls source = last := by
  cases exhausted with
  | true => exact ⟨0, Eq.symm h⟩
  | false => exact ⟨1, Eq.symm h.2⟩

namespace Cursor

/-- How often some reads call the source. -/
def calls (requests : List Request) (cursor : Cursor σ) : Nat :=
  (cursor.recorded.after requests).source.answers.length

/-- A read does nothing to its source but call it, and the bytes that it hands out and leaves come
from the region and from the answers to those calls. -/
theorem calls_run (request : Request) (cursor : Cursor σ) :
    ∃ calls, (request.run cursor).2.source = ChunkSource.later calls cursor.source ∧
      (request.returned cursor).length + (request.run cursor).2.buffered ≤
        cursor.buffered + (joined (ChunkSource.handed calls cursor.source)).length := by
  have hexchange := exchange request cursor
  rw [Request.returned]
  generalize request.run cursor = outcome at hexchange ⊢
  cases hexchange with
  | @served chunks bytes after hsupplies _ hbytes =>
    have hlength := congrArg List.length hbytes
    rw [List.length_append, List.length_append, ← buffered, ← buffered] at hlength
    refine ⟨chunks.length, hsupplies.calls.1.symm, ?_⟩
    rw [hsupplies.calls.2]
    exact Nat.le_of_eq hlength.symm
  | refused => exact ⟨0, rfl, by simp⟩
  | overflowed _ hstraddles =>
    obtain ⟨chunks, source, region, hsupplies, _, hunread, _, hrefilled⟩ :=
      refilled_supplied (straddles_iff.mp hstraddles).2.2.1
    refine ⟨chunks.length, ?_, ?_⟩
    · rw [hrefilled, hsupplies.calls.1]
      rfl
    · rw [hrefilled, hsupplies.calls.2]
      have hlength := congrArg List.length hunread
      rw [List.length_append] at hlength
      simpa [buffered] using Nat.le_of_eq hlength
  | @failed chunks middle cause after hsupplies _ hnext hspent =>
    refine ⟨chunks.length + 1, ?_, by simp [buffered, hspent]⟩
    rw [ChunkSource.later_add, hsupplies.calls.1, ChunkSource.later, hnext]
    rfl
  | @ended chunks middle requested available after hsupplies hstops hspent =>
    obtain ⟨more, hmore⟩ := hstops.calls
    refine ⟨chunks.length + more, ?_, by simp [buffered, hspent]⟩
    rw [ChunkSource.later_add, hsupplies.calls.1, hmore]

end Cursor

end Columnar
