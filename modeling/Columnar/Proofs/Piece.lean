import Columnar.Proofs.Consumption
import Columnar.Proofs.Cursor.Refinement

/-!
Programs along a byte string. A program that succeeds takes one piece of the bytes for each of its
steps, and the pieces say all that a client sees of it. If the bytes end inside the pieces, the
steps before the end see what they saw, and the next one ends the stream.

A cursor takes the same pieces as a slice with the same bytes before it, if it refuses none of their
contiguous reads, and it sees the end of the stream where the slice does.
-/
namespace Columnar

/-- What one step takes and gives. -/
structure Piece where
  bytes : Bytes
  /-- The sizes of the contiguous reads. -/
  sizes : List Nat
  value : Value

/-- Every step of the program takes its piece. -/
inductive Reads (encoding : TextEncoding) : List ReadStep → List Piece → Prop where
  | nil : Reads encoding [] []
  | cons {step : ReadStep} {piece : Piece} {steps : List ReadStep} {pieces : List Piece}
      (hstep : Consumes encoding step.decoder piece.bytes piece.sizes piece.value)
      (hlater : Reads encoding steps pieces) : Reads encoding (step :: steps) (piece :: pieces)

namespace Piece

/-- The bytes of pieces, one after another. -/
def content (pieces : List Piece) : Bytes := pieces.flatMap Piece.bytes

/-- What a client sees of pieces that begin at the given position. -/
def observed : (position : Nat) → List Piece → List Observation
  | _, [] => []
  | position, piece :: pieces =>
    (.ok piece.value, position + piece.bytes.length) ::
      observed (position + piece.bytes.length) pieces

@[simp] theorem content_cons (piece : Piece) (pieces : List Piece) :
    content (piece :: pieces) = piece.bytes ++ content pieces := rfl

theorem succeeds_observed (position : Nat) (pieces : List Piece) :
    Succeeds (observed position pieces) := by
  induction pieces generalizing position with
  | nil => exact fun _ hmem => absurd hmem List.not_mem_nil
  | cons piece pieces ih => exact succeeds_cons.mpr ⟨⟨piece.value, rfl⟩, ih _⟩

theorem map_fst_observed (position : Nat) (pieces : List Piece) :
    (observed position pieces).map Prod.fst = pieces.map fun piece => .ok piece.value := by
  induction pieces generalizing position with
  | nil => rfl
  | cons piece pieces ih =>
    rw [observed, List.map_cons, List.map_cons, ih]

end Piece

namespace Reads

variable {encoding : TextEncoding} {steps : List ReadStep} {pieces : List Piece}

/-- The slice that is left is the one behind the pieces. -/
theorem finish (h : Reads encoding steps pieces) (rest : Bytes) (position : Nat) :
    ReadStep.finish Slice.byteSource steps ⟨Piece.content pieces ++ rest, position, encoding⟩ =
      ⟨rest, position + (Piece.content pieces).length, encoding⟩ := by
  induction h generalizing position with
  | nil => rfl
  | @cons step piece steps pieces hstep _ ih =>
    have hrun := hstep.run (Piece.content pieces ++ rest) position
    have hlength : position + piece.bytes.length + (Piece.content pieces).length =
        position + (Piece.content (piece :: pieces)).length := by
      rw [Piece.content_cons, List.length_append]; omega
    rw [ReadStep.finish, ReadStep.run_eq Slice.readsWords, Piece.content_cons, List.append_assoc,
      hrun, ih, hlength, Piece.content_cons]

theorem observe (h : Reads encoding steps pieces) (rest : Bytes) (position : Nat) :
    ReadStep.observe Slice.byteSource Slice.position steps
        ⟨Piece.content pieces ++ rest, position, encoding⟩ =
      Piece.observed position pieces := by
  induction h generalizing position with
  | nil => rfl
  | @cons step piece steps pieces hstep _ ih =>
    have hrun := hstep.run (Piece.content pieces ++ rest) position
    rw [ReadStep.observe_cons, ReadStep.run_eq Slice.readsWords, Piece.content_cons,
      List.append_assoc, hrun, ih]
    rfl

theorem requests (h : Reads encoding steps pieces) (rest : Bytes) (position : Nat) :
    ReadStep.requests Slice.byteSource steps
        ⟨Piece.content pieces ++ rest, position, encoding⟩ =
      pieces.flatMap Piece.sizes := by
  induction h generalizing position with
  | nil => rfl
  | @cons step piece steps pieces hstep _ ih =>
    have hrun := hstep.run (Piece.content pieces ++ rest) position
    have hrequests := hstep.requests (Piece.content pieces ++ rest) position
    rw [ReadStep.requests, ReadStep.run_eq Slice.readsWords, Piece.content_cons,
      List.append_assoc, hrun, hrequests, List.flatMap_cons]
    exact congrArg (piece.sizes ++ ·) (ih (position + piece.bytes.length))

/-- If the bytes end inside the pieces, the program sees the end of the stream and nothing else
that is new. -/
theorem truncated {front lost : Bytes} (h : Reads encoding steps pieces)
    (hsplit : Piece.content pieces = front ++ lost) (hlost : lost ≠ []) (position : Nat) :
    (∃ before requested available place later, available < requested ∧
      before <+: Piece.observed position pieces ∧
      ReadStep.observe Slice.byteSource Slice.position steps ⟨front, position, encoding⟩ =
        before ++ (.error (.error (.endOfStream requested available)), place) :: later) ∧
    ReadStep.requests Slice.byteSource steps ⟨front, position, encoding⟩ <+:
      pieces.flatMap Piece.sizes := by
  induction h generalizing front position with
  | nil =>
    have hnil := List.append_eq_nil_iff.mp hsplit.symm
    exact absurd hnil.2 hlost
  | @cons step piece steps pieces hstep hlater ih =>
    rw [Piece.content_cons] at hsplit
    rw [ReadStep.observe_cons, ReadStep.requests, ReadStep.run_eq Slice.readsWords,
      List.flatMap_cons, Piece.observed]
    rcases cut_cases hsplit with ⟨cut, hbytes, hcut⟩ | ⟨left, rfl, hrest⟩
    · -- the end falls into this piece
      rw [hbytes] at hstep
      obtain ⟨requested, available, after, hlt, hrun, hrequests⟩ := hstep.truncated hcut position
      rw [hrun]
      refine ⟨⟨[], requested, available, after.position, _, hlt, List.nil_prefix, rfl⟩, ?_⟩
      simp only [endsStream_error, isEndOfStream_endOfStream, if_true, List.append_nil]
      exact hrequests.trans (List.prefix_append _ _)
    · have hrun := hstep.run left position
      have hsizes := hstep.requests left position
      obtain ⟨⟨before, requested, available, place, later, hlt, hbefore, hobserve⟩, hrequests⟩ :=
        ih hrest (position + piece.bytes.length)
      rw [hrun, hsizes, hobserve]
      refine ⟨⟨(.ok piece.value, position + piece.bytes.length) :: before, requested, available,
        place, later, hlt, List.cons_prefix_cons.mpr ⟨rfl, hbefore⟩, rfl⟩, ?_⟩
      exact List.prefix_append_right_inj _ |>.mpr hrequests

end Reads

/-- A program that succeeds on a slice has taken pieces from its front. -/
theorem reads_of_observe {steps : List ReadStep} {slice : Slice}
    (h : Succeeds (ReadStep.observe Slice.byteSource Slice.position steps slice)) :
    ∃ pieces rest, Reads slice.encoding steps pieces ∧
      slice.unread = Piece.content pieces ++ rest := by
  induction steps generalizing slice with
  | nil => exact ⟨[], slice.unread, .nil, rfl⟩
  | cons step steps ih =>
    rw [ReadStep.observe_cons, ReadStep.run_eq Slice.readsWords] at h
    obtain ⟨⟨value, hvalue⟩, hlater⟩ := succeeds_cons.mp h
    replace hlater := ih hlater
    rcases hrun : step.decoder.run Slice.byteSource slice with ⟨result, after⟩
    rw [hrun] at hvalue hlater
    obtain rfl : result = .ok value := hvalue
    obtain ⟨bytes, sizes, rest, hstep, hunread⟩ := consumes_of_run hrun
    obtain ⟨pieces, last, hpieces, hafter⟩ := hlater
    have hslice : slice = ⟨bytes ++ rest, slice.position, slice.encoding⟩ := by
      rw [← hunread]
    have hleft := hstep.run rest slice.position
    rw [← hslice, hrun] at hleft
    obtain rfl : after = ⟨rest, _, slice.encoding⟩ := (Prod.mk.inj hleft).2
    refine ⟨⟨bytes, sizes, value⟩ :: pieces, last, .cons hstep hpieces, ?_⟩
    rw [hunread, Piece.content_cons, List.append_assoc, ← hafter]

namespace Cursor.Represents

variable [ChunkSource σ] {config : DecoderConfig} {cursor : Cursor σ} {encoding : TextEncoding}
  {position : Nat} {steps : List ReadStep} {pieces : List Piece}

theorem observed {rest : Bytes}
    (h : Represents config cursor ⟨Piece.content pieces ++ rest, position, encoding⟩)
    (hscratch : config.initialScratchCapacity ≤ 2 ^ 62) (hreads : Reads encoding steps pieces)
    (hsizes : ∀ size ∈ pieces.flatMap Piece.sizes, size ≤ min config.maxReadSize (2 ^ 61)) :
    ReadStep.observe Cursor.byteSource Cursor.position steps cursor =
      Piece.observed position pieces := by
  have hslice := hreads.observe rest position
  have hrequests := hreads.requests rest position
  rw [← hrequests] at hsizes
  have hseen := h.observe_eq hscratch steps hsizes
  rw [hslice, (Piece.succeeds_observed position pieces).untilEnd_eq] at hseen
  refine eq_of_untilEnd hseen ?_
  rw [← hslice, ReadStep.length_observe, ReadStep.length_observe]

/-- What is left is behind the pieces. -/
theorem finished {rest : Bytes}
    (h : Represents config cursor ⟨Piece.content pieces ++ rest, position, encoding⟩)
    (hscratch : config.initialScratchCapacity ≤ 2 ^ 62) (hreads : Reads encoding steps pieces)
    (hsizes : ∀ size ∈ pieces.flatMap Piece.sizes, size ≤ min config.maxReadSize (2 ^ 61)) :
    Represents config (ReadStep.finish Cursor.byteSource steps cursor)
      ⟨rest, position + (Piece.content pieces).length, encoding⟩ := by
  have hslice := hreads.observe rest position
  rw [← hreads.requests rest position] at hsizes
  rw [← hreads.finish rest position]
  refine h.finish hscratch steps hsizes ?_
  rw [hslice]
  exact (Piece.succeeds_observed position pieces).not_endsStream

/-- Where the bytes end inside the pieces, the cursor sees the end of the stream. -/
theorem truncated {front lost : Bytes} (h : Represents config cursor ⟨front, position, encoding⟩)
    (hscratch : config.initialScratchCapacity ≤ 2 ^ 62) (hreads : Reads encoding steps pieces)
    (hsizes : ∀ size ∈ pieces.flatMap Piece.sizes, size ≤ min config.maxReadSize (2 ^ 61))
    (hsplit : Piece.content pieces = front ++ lost) (hlost : lost ≠ []) :
    ∃ before requested available place later, available < requested ∧
      before <+: Piece.observed position pieces ∧
      ReadStep.observe Cursor.byteSource Cursor.position steps cursor =
        before ++ (.error (.error (.endOfStream requested available)), place) :: later := by
  obtain ⟨⟨before, requested, available, place, later, hlt, hbefore, hslice⟩, hrequests⟩ :=
    hreads.truncated hsplit hlost position
  have hallowed : ∀ size ∈ ReadStep.requests Slice.byteSource steps ⟨front, position, encoding⟩,
      size ≤ min config.maxReadSize (2 ^ 61) := by
    intro size hsize
    exact hsizes size (hrequests.subset hsize)
  have hopen : ∀ seen ∈ before, endsStream seen.1 = false := by
    intro seen hmem
    exact (Piece.succeeds_observed position pieces).not_endsStream seen (hbefore.subset hmem)
  have hseen := h.observe_eq hscratch steps hallowed
  rw [hslice, untilEnd_append hopen] at hseen
  -- the cursor may go on after the end of the stream in its own way
  obtain ⟨after, hafter⟩ := untilEnd_prefix
    (ReadStep.observe Cursor.byteSource Cursor.position steps cursor)
  rw [hseen] at hafter
  refine ⟨before, requested, available, place, after, hlt, hbefore, ?_⟩
  rw [← hafter, List.append_assoc]
  rfl

/-- A program that succeeds on the cursor has taken pieces of the bytes before it. -/
theorem reads {data : Bytes} (h : Represents config cursor ⟨data, position, encoding⟩)
    (hscratch : config.initialScratchCapacity ≤ 2 ^ 62)
    (hallowed : ∀ size ∈ ReadStep.requests Cursor.byteSource steps cursor,
      size ≤ min config.maxReadSize (2 ^ 61))
    (hsucceeds : Succeeds (ReadStep.observe Cursor.byteSource Cursor.position steps cursor)) :
    ∃ pieces rest, Reads encoding steps pieces ∧ data = Piece.content pieces ++ rest ∧
      ReadStep.requests Cursor.byteSource steps cursor = pieces.flatMap Piece.sizes := by
  have hrequests := h.requests_eq hscratch steps hallowed
  have hseen := h.observe_eq hscratch steps (hrequests ▸ hallowed)
  rw [hsucceeds.untilEnd_eq] at hseen
  have hsame := eq_of_untilEnd hseen.symm (by
    rw [ReadStep.length_observe, ReadStep.length_observe])
  rw [← hsame] at hsucceeds
  obtain ⟨pieces, rest, hreads, hdata⟩ := reads_of_observe hsucceeds
  refine ⟨pieces, rest, hreads, hdata, ?_⟩
  rw [hrequests, ← hreads.requests rest position, ← hdata]

end Cursor.Represents

end Columnar
