import Mathlib.Algebra.GroupWithZero.Nat
import Columnar.Proofs.Demand

/-!
What reads count. A successful read counts its bytes, and if it is of several bytes it counts as
served from a chunk or as assembled. A read that fails counts nothing, and neither does one of no
bytes. So the counters of a run are told by its successful reads, and the assembled ones among
them are those that straddle.
-/
namespace Columnar

/-- What the counters of bytes and of reads gain. -/
structure Gains (before after : ReadCounters) (bytes views assembled : Nat) : Prop where
  bytesConsumed : after.bytesConsumed = before.bytesConsumed + bytes
  zeroCopyReads : after.zeroCopyReads = before.zeroCopyReads + views
  scratchReads : after.scratchReads = before.scratchReads + assembled

theorem Gains.none (counters : ReadCounters) : Gains counters counters 0 0 0 := ⟨rfl, rfl, rfl⟩

variable [ChunkSource σ]

/-- The places of the bytes that a read of several bytes hands out. -/
def Request.span? (request : Request) (cursor : Cursor σ) : Option Span :=
  match request, (request.run cursor).1 with
  | .bytes (size + 1), .ok _ => some ⟨cursor.position, size + 1⟩
  | _, _ => none

/-- The read is of a single byte, and it succeeds. -/
def Request.takesByte (request : Request) (cursor : Cursor σ) : Bool :=
  match request, (request.run cursor).1 with
  | .byte, .ok _ => true
  | _, _ => false

/-- If the read straddles, it is served. -/
def Request.Intact (request : Request) (cursor : Cursor σ) : Prop :=
  ∀ size, request.straddled? cursor = some size → ∃ bytes, (request.run cursor).1 = .ok bytes

theorem Request.Intact.direct {request : Request} {cursor : Cursor σ} (h : request.Intact cursor)
    {fault : Fault} (hfails : (request.run cursor).1 = .error fault) :
    request.straddled? cursor = none := by
  cases hstraddled : request.straddled? cursor with
  | none => rfl
  | some size =>
    obtain ⟨bytes, hserved⟩ := h size hstraddled
    rw [hfails] at hserved
    cases hserved

namespace Cursor

/-- The places that the successful reads of several bytes hand out, in the order of the calls. -/
def spans : List Request → Cursor σ → List Span
  | [], _ => []
  | request :: requests, cursor =>
    (request.span? cursor).toList ++ spans requests (request.run cursor).2

/-- The number of successful reads of a single byte. -/
def singles : List Request → Cursor σ → Nat
  | [], _ => 0
  | request :: requests, cursor =>
    (request.takesByte cursor).toNat + singles requests (request.run cursor).2

/-- Every read of a run that straddles is served. -/
def Intact : List Request → Cursor σ → Prop
  | [], _ => True
  | request :: requests, cursor =>
    request.Intact cursor ∧ Intact requests (request.run cursor).2

variable {request : Request} {cursor : Cursor σ} {size : Nat} {bytes : Bytes}

/-- A chunk that is entered counts as pulled only. -/
theorem gains_refilled (cursor : Cursor σ) : Gains cursor.counters cursor.refilled.counters 0 0 0 := by
  by_cases hspent : cursor.region.unread.isEmpty
  · rw [refilled, if_pos hspent]
    rcases pull_cases cursor with ⟨chunk, source, _, _, hpull⟩ | ⟨cause, source, _, _, hpull⟩ |
      ⟨last, _, hpull⟩
    all_goals
      rw [hpull]
      exact ⟨rfl, rfl, rfl⟩
  · rw [refilled, if_neg hspent]
    exact .none _

/-- A read that fails counts nothing. -/
theorem gains_of_fails {fault : Fault} (hfails : (request.run cursor).1 = .error fault) :
    Gains cursor.counters (request.run cursor).2.counters 0 0 0 := by
  cases fault with
  | error cause =>
    obtain ⟨_, hfailed⟩ := failedRead_of_fails hfails
    generalize (request.run cursor).2 = after at hfailed ⊢
    cases hfailed with
    | closed => exact .none _
    | tooLarge => exact .none _
    | failed => exact .none _
    | ended => exact .none _
    | lostToFailure => exact ⟨rfl, rfl, rfl⟩
    | lostToEnd => exact ⟨rfl, rfl, rfl⟩
  | capacityOverflow =>
    have hexchange := exchange request cursor
    generalize request.run cursor = outcome at hfails hexchange ⊢
    cases hexchange with
    | overflowed => exact gains_refilled cursor
    | served => cases hfails
    | refused => cases hfails
    | failed => cases hfails
    | ended => cases hfails

theorem gains_of_byte (hserved : (Request.byte.run cursor).1 = .ok bytes) :
    Gains cursor.counters (Request.byte.run cursor).2.counters 1 0 0 := by
  have hsingle := single cursor
  generalize Request.byte.run cursor = outcome at hserved hsingle ⊢
  cases hsingle with
  | closed => cases hserved
  | failed => cases hserved
  | ended => cases hserved
  | served =>
    obtain ⟨hbytes, hviews, hassembled⟩ := gains_refilled cursor
    exact ⟨congrArg (· + 1) hbytes, hviews, hassembled⟩

/-- The read of no bytes does nothing. -/
theorem run_bytes_zero (cursor : Cursor σ) : (Request.run (.bytes 0) cursor).2 = cursor := by
  rw [Request.run, readBytes]
  by_cases hclosed : cursor.closed = true
  · rw [if_pos hclosed]
  · rw [if_neg hclosed, if_pos rfl]

/-- A successful read finds its first byte in the region, and all the others too unless it
straddles. -/
theorem refilled_of_served (hsize : 0 < size) (hserved : (cursor.readBytes size).1 = .ok bytes) :
    0 < cursor.refilled.buffered ∧
      (cursor.straddles size = false ↔ size ≤ cursor.refilled.buffered) := by
  cases hstraddles : cursor.straddles size with
  | true =>
    obtain ⟨_, _, hsome, hshort⟩ := straddles_iff.mp hstraddles
    exact ⟨hsome, by simpa using hshort⟩
  | false =>
    have hdirect := direct hstraddles
    generalize cursor.readBytes size = outcome at hserved hdirect
    cases hdirect with
    | closed => cases hserved
    | tooLarge => cases hserved
    | failed => cases hserved
    | ended => cases hserved
    | empty _ hzero => omega
    | view hview hlength =>
      have hfits : size ≤ cursor.refilled.buffered := by
        rw [buffered, hview, List.length_append]
        omega
      exact ⟨by omega, by simpa using hfits⟩

/-- A read that one chunk serves alone counts as such. -/
theorem gains_of_view (hsize : 0 < size) (hdirect : cursor.straddles size = false)
    (hserved : (cursor.readBytes size).1 = .ok bytes) :
    Gains cursor.counters (cursor.readBytes size).2.counters size 1 0 := by
  replace hdirect := direct hdirect
  generalize cursor.readBytes size = outcome at hserved hdirect ⊢
  cases hdirect with
  | closed => cases hserved
  | tooLarge => cases hserved
  | failed => cases hserved
  | ended => cases hserved
  | empty _ hzero => omega
  | view =>
    obtain ⟨hbytes, hviews, hassembled⟩ := gains_refilled cursor
    exact ⟨congrArg (· + size) hbytes, congrArg (· + 1) hviews, hassembled⟩

/-- A read that straddles counts as assembled. -/
theorem gains_of_straddles (hstraddles : cursor.straddles size = true)
    (hserved : (cursor.readBytes size).1 = .ok bytes) :
    Gains cursor.counters (cursor.readBytes size).2.counters size 0 1 := by
  have hacross := across (straddles_iff.mp hstraddles).2.2.2
  rw [readBytes_of_straddles hstraddles] at hserved ⊢
  generalize cursor.refilled.readAcross size = outcome at hserved hacross ⊢
  cases hacross with
  | overflow => cases hserved
  | failed => cases hserved
  | ended => cases hserved
  | complete =>
    obtain ⟨hbytes, hviews, hassembled⟩ := gains_refilled cursor
    exact ⟨congrArg (· + size) hbytes, hviews, congrArg (· + 1) hassembled⟩

/-- What one read counts: its bytes, and itself on one of the two paths. -/
theorem gains_run (request : Request) (cursor : Cursor σ) : ∃ views assembled,
    Gains cursor.counters (request.run cursor).2.counters
      (((request.span? cursor).toList.map Span.size).sum + (request.takesByte cursor).toNat)
      views assembled ∧
    views + assembled = (request.span? cursor).toList.length ∧
    assembled ≤ (request.straddled? cursor).toList.length ∧
    ∀ bytes, (request.run cursor).1 = .ok bytes →
      assembled = (request.straddled? cursor).toList.length := by
  cases hserved : (request.run cursor).1 with
  | error fault =>
    have hgains := gains_of_fails hserved
    exact ⟨0, 0, by simpa [Request.span?, Request.takesByte, hserved] using hgains,
      by simp [Request.span?, hserved], Nat.zero_le _, nofun⟩
  | ok bytes =>
    cases request with
    | byte =>
      have hgains := gains_of_byte hserved
      exact ⟨0, 0, by simpa [Request.span?, Request.takesByte, hserved] using hgains,
        by simp [Request.span?], Nat.zero_le _, fun _ _ => rfl⟩
    | bytes size =>
      cases size with
      | zero =>
        have hdirect : cursor.straddles 0 = false := by simp [straddles]
        rw [run_bytes_zero]
        exact ⟨0, 0, by simpa [Request.span?, Request.takesByte] using Gains.none cursor.counters,
          by simp [Request.span?], Nat.zero_le _,
          fun _ _ => by simp [Request.straddled?, hdirect]⟩
      | succ size =>
        have hspan : Request.span? (.bytes (size + 1)) cursor =
            some ⟨cursor.position, size + 1⟩ := by
          simp [Request.span?, hserved]
        rw [hspan]
        cases hstraddles : cursor.straddles (size + 1) with
        | true =>
          have hgains := gains_of_straddles hstraddles hserved
          exact ⟨0, 1, by simpa [Request.takesByte, Request.run] using hgains, rfl,
            by simp [Request.straddled?, hstraddles],
            fun _ _ => by simp [Request.straddled?, hstraddles]⟩
        | false =>
          have hgains := gains_of_view (Nat.succ_pos size) hstraddles hserved
          exact ⟨1, 0, by simpa [Request.takesByte, Request.run] using hgains, rfl, Nat.zero_le _,
            fun _ _ => by simp [Request.straddled?, hstraddles]⟩

/-- What a run counts: the bytes of its successful reads, and each of those of several bytes
once. -/
structure Tally (requests : List Request) (before after : Cursor σ) : Prop where
  bytesConsumed : after.counters.bytesConsumed = before.counters.bytesConsumed +
    (((before.spans requests).map Span.size).sum + before.singles requests)
  reads : after.counters.zeroCopyReads + after.counters.scratchReads =
    before.counters.zeroCopyReads + before.counters.scratchReads + (before.spans requests).length

theorem tally_after (requests : List Request) (cursor : Cursor σ) :
    Tally requests cursor (cursor.after requests) := by
  induction requests generalizing cursor with
  | nil => exact ⟨rfl, rfl⟩
  | cons request requests ih =>
    obtain ⟨views, assembled, ⟨hbytes, hviews, hassembled⟩, hreads, _⟩ := gains_run request cursor
    obtain ⟨hlaterBytes, hlaterReads⟩ := ih (request.run cursor).2
    constructor
    · rw [after, spans, singles, hlaterBytes, hbytes, List.map_append, List.sum_append]
      omega
    · rw [after, spans, hlaterReads, hviews, hassembled, List.length_append, ← hreads]
      omega

/-- Only a read that straddles is assembled. -/
theorem scratchReads_after_le (requests : List Request) (cursor : Cursor σ) :
    (cursor.after requests).counters.scratchReads ≤
      cursor.counters.scratchReads + (cursor.straddled requests).length := by
  induction requests generalizing cursor with
  | nil => exact Nat.le_refl _
  | cons request requests ih =>
    obtain ⟨_, assembled, hgains, _, hle, _⟩ := gains_run request cursor
    have hlater := ih (request.run cursor).2
    rw [hgains.scratchReads] at hlater
    rw [after, straddled, List.length_append]
    omega

/-- If all reads that straddle are served, they are the assembled ones. -/
theorem Intact.scratchReads_after {requests : List Request} {cursor : Cursor σ}
    (h : cursor.Intact requests) : (cursor.after requests).counters.scratchReads =
      cursor.counters.scratchReads + (cursor.straddled requests).length := by
  induction requests generalizing cursor with
  | nil => rfl
  | cons request requests ih =>
    obtain ⟨_, assembled, hgains, _, hle, heq⟩ := gains_run request cursor
    have hassembled : assembled = (request.straddled? cursor).toList.length := by
      cases hstraddled : request.straddled? cursor with
      | none => simpa [hstraddled] using hle
      | some size =>
        obtain ⟨bytes, hserved⟩ := h.1 size hstraddled
        rw [heq bytes hserved, hstraddled]
    rw [after, straddled, ih h.2, hgains.scratchReads, hassembled, List.length_append,
      Nat.add_assoc]

/-- With room for its assemblies, a run of which none fails has them all served. -/
theorem intact_of_unbroken {requests : List Request} {cursor : Cursor σ}
    (hscratch : cursor.config.initialScratchCapacity ≤ 2 ^ 62)
    (hcapacity : cursor.scratchCapacity ≤ maxAllocation)
    (hsizes : ∀ request ∈ requests, request.size ≤ 2 ^ 61)
    (hunbroken : cursor.unbroken requests = true) : cursor.Intact requests := by
  induction requests generalizing cursor with
  | nil => trivial
  | cons request requests ih =>
    rw [List.forall_mem_cons] at hsizes
    simp only [unbroken, Bool.and_eq_true, Bool.not_eq_true'] at hunbroken
    obtain ⟨hconfig, hroom⟩ := storage_run request cursor
    refine ⟨fun size hstraddled => ?_,
      ih (hconfig ▸ hscratch) (hroom hcapacity) hsizes.2 hunbroken.2⟩
    obtain ⟨rfl, hstraddles⟩ := Request.straddled?_eq_some_iff.mp hstraddled
    have henough := capacityFor_le hsizes.1 hscratch hcapacity
    have hbreaks := hunbroken.1
    have hexchange := exchange_of_straddles hstraddles
    simp only [Request.breaks, hstraddled, Request.run] at hbreaks ⊢
    generalize cursor.readBytes size = outcome at hbreaks hexchange ⊢
    cases hexchange with
    | served => exact ⟨_, rfl⟩
    | overflowed hrequest _ hlarge =>
      cases hrequest
      exact absurd henough (Nat.not_le.mpr hlarge)
    | refused => cases hbreaks
    | failed => cases hbreaks
    | ended => cases hbreaks

omit [ChunkSource σ] in
theorem counters_of_ofConfig {config : DecoderConfig} {source : σ} {start : Cursor σ}
    (hstart : ofConfig config source = .ok start) : start.counters = {} := by
  obtain ⟨_, rfl⟩ := ofConfig_eq_ok_iff.mp hstart
  rfl

/-- A run of a new cursor. -/
theorem intact_of_ofConfig {config : DecoderConfig} {source : σ} {start : Cursor σ}
    (hstart : ofConfig config source = .ok start)
    (hscratch : config.initialScratchCapacity ≤ 2 ^ 62) {requests : List Request}
    (hsizes : ∀ request ∈ requests, request.size ≤ 2 ^ 61)
    (hunbroken : start.unbroken requests = true) : start.Intact requests := by
  obtain ⟨_, rfl⟩ := ofConfig_eq_ok_iff.mp hstart
  exact intact_of_unbroken hscratch (Nat.zero_le _) hsizes hunbroken

end Cursor

end Columnar
