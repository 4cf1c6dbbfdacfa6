import Columnar.Proofs.Piece

/-!
A program that succeeds has looked at the bytes that it consumed and at no others. With fewer of
them it sees the end of the stream, after the same answers as before and never another fault. With
other bytes behind them it sees what it saw. Slices and cursors can take each other's place in
this, whatever the chunks are.
-/
namespace Columnar

/-- What a client reads from: a slice, or a cursor over some source. -/
inductive Feed where
  | whole (slice : Slice)
  | chunked {σ : Type} [ChunkSource σ] (cursor : Cursor σ)

namespace Feed

/-- The feed is new and has exactly these bytes. -/
def Carries : Feed → Bytes → Prop
  | .whole slice, data => slice = .ofBytes data slice.encoding
  | @chunked _ _ cursor, data => ∃ config source chunks, Cursor.ofConfig config source = .ok cursor ∧
      config.initialScratchCapacity ≤ 2 ^ 62 ∧ Delivers source chunks ∧ joined chunks = data

/-- A contiguous read of this size is not refused. -/
def Admits : Feed → Nat → Prop
  | .whole _, _ => True
  | @chunked _ _ cursor, size => size ≤ min cursor.config.maxReadSize (2 ^ 61)

def encoding : Feed → TextEncoding
  | .whole slice => slice.encoding
  | @chunked _ _ cursor => cursor.config.encoding

/-- What a client sees of a program. -/
def observe (steps : List ReadStep) : Feed → List Observation
  | .whole slice => ReadStep.observe Slice.byteSource Slice.position steps slice
  | @chunked _ _ cursor => ReadStep.observe Cursor.byteSource Cursor.position steps cursor

/-- The sizes of the contiguous reads of a program, up to the end of the stream. -/
def requests (steps : List ReadStep) : Feed → List Nat
  | .whole slice => ReadStep.requests Slice.byteSource steps slice
  | @chunked _ _ cursor => ReadStep.requests Cursor.byteSource steps cursor

/-- The position after a program. -/
def consumed (steps : List ReadStep) : Feed → Nat
  | .whole slice => (ReadStep.finish Slice.byteSource steps slice).position
  | @chunked _ _ cursor => (ReadStep.finish Cursor.byteSource steps cursor).position

end Feed

theorem Cursor.config_of_ofConfig {config : DecoderConfig} {source : σ} {cursor : Cursor σ}
    (h : Cursor.ofConfig config source = .ok cursor) : cursor.config = config := by
  unfold Cursor.ofConfig at h
  split at h
  · cases h
    rfl
  · cases h

namespace Feed.Carries

variable {feed : Feed} {steps : List ReadStep} {pieces : List Piece}

theorem represents {σ : Type} [ChunkSource σ] {cursor : Cursor σ} {data : Bytes}
    (h : (Feed.chunked cursor).Carries data) :
    cursor.config.initialScratchCapacity ≤ 2 ^ 62 ∧
      Cursor.Represents cursor.config cursor ⟨data, 0, cursor.config.encoding⟩ := by
  obtain ⟨config, source, chunks, hcursor, hscratch, hsource, rfl⟩ := h
  obtain rfl := Cursor.config_of_ofConfig hcursor
  exact ⟨hscratch, Cursor.represents_ofConfig hcursor hsource⟩

/-- A feed that begins with the pieces is read along them. -/
theorem observed {rest : Bytes} (h : feed.Carries (Piece.content pieces ++ rest))
    (hreads : Reads feed.encoding steps pieces)
    (hsizes : ∀ size ∈ pieces.flatMap Piece.sizes, feed.Admits size) :
    feed.observe steps = Piece.observed 0 pieces ∧
      feed.consumed steps = (Piece.content pieces).length := by
  cases feed with
  | whole slice =>
    have hslice : slice = ⟨Piece.content pieces ++ rest, 0, slice.encoding⟩ := h
    have hobserve := hreads.observe rest 0
    have hfinish := hreads.finish rest 0
    simp only [Feed.encoding] at hobserve hfinish
    rw [← hslice] at hobserve hfinish
    refine ⟨hobserve, ?_⟩
    simp only [Feed.consumed, hfinish, Nat.zero_add]
  | chunked cursor =>
    obtain ⟨hscratch, hrepresents⟩ := h.represents
    have hfinished := hrepresents.finished hscratch hreads hsizes
    refine ⟨hrepresents.observed hscratch hreads hsizes, ?_⟩
    exact hfinished.position.trans (Nat.zero_add _)

/-- A feed that ends inside the pieces ends the stream there. -/
theorem truncated {front lost : Bytes} (h : feed.Carries front)
    (hreads : Reads feed.encoding steps pieces)
    (hsizes : ∀ size ∈ pieces.flatMap Piece.sizes, feed.Admits size)
    (hsplit : Piece.content pieces = front ++ lost) (hlost : lost ≠ []) :
    ∃ before requested available place later, available < requested ∧
      before <+: Piece.observed 0 pieces ∧
      feed.observe steps =
        before ++ (.error (.error (.endOfStream requested available)), place) :: later := by
  cases feed with
  | whole slice =>
    have hslice : slice = ⟨front, 0, slice.encoding⟩ := h
    have htruncated := (hreads.truncated hsplit hlost 0).1
    simp only [Feed.encoding] at htruncated
    rw [← hslice] at htruncated
    exact htruncated
  | chunked cursor =>
    obtain ⟨hscratch, hrepresents⟩ := h.represents
    exact hrepresents.truncated hscratch hreads hsizes hsplit hlost

/-- A program that succeeds has taken pieces of the bytes. -/
theorem reads {data : Bytes} (h : feed.Carries data)
    (hadmits : ∀ size ∈ feed.requests steps, feed.Admits size)
    (hsucceeds : Succeeds (feed.observe steps)) :
    ∃ pieces rest, Reads feed.encoding steps pieces ∧ data = Piece.content pieces ++ rest ∧
      feed.requests steps = pieces.flatMap Piece.sizes := by
  cases feed with
  | whole slice =>
    have hslice : slice = ⟨data, 0, slice.encoding⟩ := h
    obtain ⟨pieces, rest, hreads, hdata⟩ := reads_of_observe hsucceeds
    have hunread : slice.unread = data := congrArg Slice.unread hslice
    rw [hunread] at hdata
    have hrequests := hreads.requests rest 0
    rw [← hdata, ← hslice] at hrequests
    exact ⟨pieces, rest, hreads, hdata, hrequests⟩
  | chunked cursor =>
    obtain ⟨hscratch, hrepresents⟩ := h.represents
    exact hrepresents.reads hscratch hadmits hsucceeds

end Feed.Carries

/-- Fewer bytes end the stream, and more bytes change nothing. -/
theorem truncation_ends_stream {feed : Feed} {data : Bytes} {steps : List ReadStep}
    (hdata : feed.Carries data) (hadmits : ∀ size ∈ feed.requests steps, feed.Admits size)
    (hsucceeds : Succeeds (feed.observe steps)) :
    feed.consumed steps ≤ data.length ∧
    (∀ (kept : Nat) (short : Feed), kept < feed.consumed steps →
      short.encoding = feed.encoding → short.Carries (data.take kept) →
      (∀ size ∈ feed.requests steps, short.Admits size) →
      ∃ before requested available place later, available < requested ∧
        before <+: feed.observe steps ∧
        short.observe steps =
          before ++ (.error (.error (.endOfStream requested available)), place) :: later) ∧
    ∀ (extra : Bytes) (long : Feed), long.encoding = feed.encoding →
      long.Carries (data.take (feed.consumed steps) ++ extra) →
      (∀ size ∈ feed.requests steps, long.Admits size) →
      long.observe steps = feed.observe steps ∧ long.consumed steps = feed.consumed steps := by
  obtain ⟨pieces, rest, hreads, rfl, hrequests⟩ := hdata.reads hadmits hsucceeds
  rw [hrequests] at hadmits ⊢
  obtain ⟨hobserve, hconsumed⟩ := hdata.observed hreads hadmits
  rw [hobserve, hconsumed]
  refine ⟨by rw [List.length_append]; omega, ?_, ?_⟩
  · intro kept short hkept hencoding hshort hsizes
    have hfront : (Piece.content pieces ++ rest).take kept = (Piece.content pieces).take kept :=
      List.take_append_of_le_length (by omega)
    have hsplit : Piece.content pieces =
        (Piece.content pieces).take kept ++ (Piece.content pieces).drop kept :=
      (List.take_append_drop kept _).symm
    have hlost : (Piece.content pieces).drop kept ≠ [] := by
      intro hnil
      have hlength := List.drop_eq_nil_iff.mp hnil
      omega
    rw [hfront] at hshort
    rw [← hencoding] at hreads
    exact hshort.truncated hreads hsizes hsplit hlost
  · intro extra long hencoding hlong hsizes
    rw [List.take_left] at hlong
    rw [← hencoding] at hreads
    exact hlong.observed hreads hsizes

/-- A text, a nullable column of two dates and one byte more. -/
def dated : Bytes := [2, 104, 105, 0, 1, 0x10, 0x27, 0, 0, 0xff, 0xff, 0xff, 0xff, 9]

def datedSteps : List ReadStep := [.sizedText, .nullable .date32 2]

def datedFeed : Feed := .whole (.ofBytes dated .utf8)

/-- All but the last byte of the dates, cut inside the text, the mask and a date. -/
def cutDates : List Chunk := [⟨2, [104]⟩, ⟨105, [0]⟩, ⟨1, [0x10]⟩, ⟨0x27, [0, 0, 0xff, 0xff, 0xff]⟩]

def cutFeed : Feed := .chunked (Cursor.ofSource (cutDates.map Chunk.bytes ++ []))

/-- Without the last byte of the block no date is converted. -/
theorem truncation_ends_stream_dated :
    12 < datedFeed.consumed datedSteps ∧ cutFeed.Carries (dated.take 12) ∧
    ∃ before requested available place later, available < requested ∧
      before <+: datedFeed.observe datedSteps ∧
      cutFeed.observe datedSteps =
        before ++ (.error (.error (.endOfStream requested available)), place) :: later := by
  have hdata : datedFeed.Carries dated := rfl
  have hsucceeds : Succeeds (datedFeed.observe datedSteps) := by decide +kernel
  have hconsumed : 12 < datedFeed.consumed datedSteps := by decide +kernel
  have hcut : cutFeed.Carries (dated.take 12) :=
    ⟨{}, _, cutDates, rfl, by decide, delivers_list cutDates rfl, rfl⟩
  have hsizes : ∀ size ∈ datedFeed.requests datedSteps,
      size ≤ min defaultMaxReadSize (2 ^ 61) := by decide +kernel
  have htruncation := truncation_ends_stream hdata (fun _ _ => trivial) hsucceeds
  exact ⟨hconsumed, hcut, htruncation.2.1 12 cutFeed hconsumed rfl hcut hsizes⟩

end Columnar
