import Columnar.Proofs.Checked.Cursor
import Columnar.Proofs.Closing
import Columnar.Proofs.Cursor.Overflow
import Columnar.Proofs.EndOfStream

/-!
What holds of a cursor between any two of its operations, also after reads that failed. What is
unread is an end of the chunk that it is in, scratch storage holds no more than it has room for, a
closed cursor has nothing, and no byte is left once the source has ended. So a cursor that works
with indices and lengths always has them in range, it never looks for a view in scratch storage,
and a read that succeeds gives as many bytes as it was asked for.
-/
namespace Columnar

/-- What a client does to a cursor. -/
inductive Operation where
  | read (request : Request)
  | close
  deriving DecidableEq, Repr

/-- What is unread of a chunk is an end of it. -/
def Region.Windowed : Region → Prop
  | .chunk data unread => unread <:+ data
  | .scratch => True

theorem Region.Windowed.leave {region : Region} (h : region.Windowed) {rest : Bytes}
    (hrest : rest <:+ region.unread) : (region.leave rest).Windowed := by
  cases region with
  | chunk data unread => exact hrest.trans h
  | scratch => exact trivial

namespace Cursor

variable [ChunkSource σ]

def operated : List Operation → Cursor σ → Cursor σ
  | [], cursor => cursor
  | .read request :: operations, cursor => operated operations (request.run cursor).2
  | .close :: operations, cursor => operated operations cursor.close

theorem Reached.operated {config : DecoderConfig} {cursor : Cursor σ} (h : Reached config cursor)
    (operations : List Operation) : Reached config (cursor.operated operations) := by
  induction operations generalizing cursor with
  | nil => exact h
  | cons operation operations ih =>
    cases operation with
    | read request => exact ih (h.read request)
    | close => exact ih h.close

section Region

variable {cursor : Cursor σ} {size needed : Nat}

theorem windowed_refilled (h : cursor.region.Windowed) : cursor.refilled.region.Windowed := by
  by_cases hspent : cursor.region.unread.isEmpty
  · rw [refilled, if_pos hspent]
    rcases pull_cases cursor with ⟨chunk, source, _, _, hpull⟩ | ⟨cause, source, _, _, hpull⟩ |
      ⟨last, _, hpull⟩
    · rw [hpull]
      exact List.suffix_refl _
    · rw [hpull]
      exact h
    · rw [hpull]
      exact h
  · rw [refilled, if_neg hspent]
    exact h

/-- What an assembly leaves of its last chunk is an end of that. -/
theorem windowed_assemble (h : cursor.region.Windowed) :
    (assemble size needed cursor).2.region.Windowed := by
  induction needed using Nat.strongRecOn generalizing cursor with
  | ind needed ih =>
    rw [assemble]
    split
    · exact h
    · next hlacks =>
      rcases pull_cases cursor with ⟨chunk, source, _, _, hpull⟩ | ⟨cause, source, _, _, hpull⟩ |
        ⟨last, _, hpull⟩
      · simp only [hpull]
        split
        · exact List.drop_suffix needed chunk.bytes
        · have hpos := chunk.length_pos
          exact ih (needed - chunk.length) (by omega) h
      · simp only [hpull]
        exact h
      · simp only [hpull]
        exact h

theorem windowed_readAcross (h : cursor.region.Windowed) :
    (cursor.readAcross size).2.region.Windowed := by
  simp only [readAcross]
  split
  · exact h
  · have hstart : (cursor.assembling size).region.Windowed := trivial
    have hassembled : (assemble size (size - cursor.region.unread.length)
        (cursor.assembling size)).2.region.Windowed := windowed_assemble hstart
    rw [assembling] at hassembled
    split
    · next hassembly =>
      rw [hassembly] at hassembled
      exact hassembled
    · next hassembly =>
      rw [hassembly] at hassembled
      exact hassembled

theorem windowed_run (h : cursor.region.Windowed) (request : Request) :
    (request.run cursor).2.region.Windowed := by
  have hrefilled := windowed_refilled h
  cases request with
  | byte =>
    have hsingle := single cursor
    generalize Request.byte.run cursor = outcome at hsingle ⊢
    cases hsingle with
    | closed => exact h
    | failed => exact h
    | ended => exact h
    | served hview => exact hrefilled.leave (hview ▸ List.suffix_cons _ _)
  | bytes size =>
    rw [Request.run]
    cases hstraddles : cursor.straddles size with
    | true =>
      rw [readBytes_of_straddles hstraddles]
      exact windowed_readAcross hrefilled
    | false =>
      have hdirect := direct hstraddles
      generalize cursor.readBytes size = outcome at hdirect ⊢
      cases hdirect with
      | closed => exact h
      | empty => exact h
      | tooLarge => exact h
      | failed => exact h
      | ended => exact h
      | view hview => exact hrefilled.leave (hview ▸ List.suffix_append _ _)

end Region

section Storage

variable {cursor : Cursor σ} {size : Nat}

omit [ChunkSource σ] in
/-- A capacity that a buffer can have has room for the whole read. -/
theorem size_le_capacityFor (hinitial : 0 < cursor.config.initialScratchCapacity)
    (hroom : cursor.capacityFor size ≤ maxAllocation) : size ≤ cursor.capacityFor size := by
  have htarget : mulSat size 2 ≤ cursor.capacityFor size := target_le_capacityFor hinitial
  rw [mulSat, maxSize] at htarget
  rw [maxAllocation] at hroom
  omega

theorem filled_run (hinitial : 0 < cursor.config.initialScratchCapacity)
    (h : cursor.scratch.length ≤ cursor.scratchCapacity) (request : Request) :
    (request.run cursor).2.scratch.length ≤ (request.run cursor).2.scratchCapacity := by
  cases hstraddled : request.straddled? cursor with
  | none =>
    obtain ⟨_, hscratch, hcapacity⟩ := storage_of_not_straddled hstraddled
    rw [hscratch, hcapacity]
    exact h
  | some size =>
    obtain ⟨rfl, hstraddles⟩ := Request.straddled?_eq_some_iff.mp hstraddled
    rw [Request.run]
    by_cases hroom : cursor.capacityFor size ≤ maxAllocation
    · obtain ⟨_, hscratch, hcapacity⟩ := storage_of_straddles hstraddles hroom
      rw [hcapacity]
      exact hscratch.trans (size_le_capacityFor hinitial hroom)
    · rw [readBytes_of_overflows hstraddles (Nat.lt_of_not_le hroom)]
      exact Nat.zero_le _

/-- The bytes that an assembly has and those that it lacks are the whole read, and there is room
for them. -/
theorem Course.room {during : Cursor σ} {lacking : Nat}
    (hinitial : 0 < cursor.config.initialScratchCapacity)
    (hstraddles : cursor.straddles size = true) (hroom : cursor.capacityFor size ≤ maxAllocation)
    (hcourse : Course (size - cursor.refilled.buffered) (cursor.refilled.assembling size) lacking
      during) : during.scratch.length + lacking = size ∧ size ≤ during.scratchCapacity := by
  obtain ⟨_, _, _, hshort⟩ := straddles_iff.mp hstraddles
  obtain ⟨hlength, hcapacity⟩ := hcourse.storage
  simp only [assembling, capacityFor_refilled, List.length_reverse] at hlength hcapacity
  rw [buffered] at hlength hshort
  rw [hcapacity]
  exact ⟨by omega, size_le_capacityFor hinitial hroom⟩

end Storage

/-- What holds of a cursor whatever has been done with it. -/
structure Represented (cursor : Cursor σ) : Prop where
  windowed : cursor.region.Windowed
  filled : cursor.scratch.length ≤ cursor.scratchCapacity
  shut : cursor.closed = true →
    cursor.region = .chunk [] [] ∧ cursor.scratch = [] ∧ cursor.scratchCapacity = 0
  spent : cursor.exhausted = true → cursor.region.unread = []

variable {config : DecoderConfig} {cursor : Cursor σ}

omit [ChunkSource σ] in
theorem represented_start (source : σ) (config : DecoderConfig) :
    ({ source, config } : Cursor σ).Represented :=
  ⟨List.suffix_refl _, Nat.le_refl 0, nofun, nofun⟩

theorem Represented.run (h : cursor.Represented)
    (hinitial : 0 < cursor.config.initialScratchCapacity) (request : Request) :
    (request.run cursor).2.Represented := by
  cases hclosed : cursor.closed with
  | true =>
    rw [run_request_of_closed hclosed]
    exact h
  | false =>
    refine ⟨windowed_run h.windowed request, filled_run hinitial h.filled request, fun hshut => ?_,
      (Settled.run ⟨hclosed, h.spent⟩ request).2⟩
    rw [closed_run, hclosed] at hshut
    cases hshut

omit [ChunkSource σ] in
theorem Represented.close (h : cursor.Represented) : cursor.close.Represented := by
  rw [Cursor.close]
  split
  · exact h
  · exact ⟨List.suffix_refl _, Nat.le_refl 0, fun _ => ⟨rfl, rfl, rfl⟩, fun _ => rfl⟩

theorem Reached.initial_pos (h : Reached config cursor) :
    0 < cursor.config.initialScratchCapacity := by
  rw [h.storage.1]
  exact Nat.pos_of_isPowerOfTwo h.doubled.1

theorem Reached.represented (h : Reached config cursor) : cursor.Represented := by
  induction h with
  | start hstart =>
    obtain ⟨_, rfl⟩ := ofConfig_eq_ok_iff.mp hstart
    exact represented_start _ config
  | read request h ih => exact ih.run h.initial_pos request
  | close _ ih => exact ih.close

/-- A read gives no fewer bytes than it was asked for, and no more. -/
theorem length_of_served {request : Request} {bytes : Bytes}
    (h : (request.run cursor).1 = .ok bytes) : bytes.length = request.size := by
  have hexchange := exchange request cursor
  generalize request.run cursor = outcome at h hexchange
  cases hexchange with
  | served _ _ _ hsize =>
    cases h
    exact hsize
  | refused => cases h
  | overflowed => cases h
  | failed => cases h
  | ended => cases h

end Cursor

namespace Checked.Indexed

variable [ChunkSource σ] {indexed : Indexed σ}

def close (indexed : Indexed σ) : Indexed σ :=
  if indexed.closed then indexed
  else { indexed with place := .chunk [] 0, scratch := [], scratchCapacity := 0, closed := true }

/-- The indexed cursor after some operations, if none of them stops the program. -/
def operated : List Operation → Indexed σ → Option (Indexed σ)
  | [], indexed => some indexed
  | .read request :: operations, indexed => do
    let outcome ← indexed.run request
    operated operations outcome.2
  | .close :: operations, indexed => operated operations indexed.close

theorem at_close (h : indexed.Sound) : indexed.close.At indexed.view.close := by
  rw [close, Cursor.close]
  by_cases hclosed : indexed.closed = true
  · rw [if_pos hclosed, if_pos (show indexed.view.closed = true from hclosed)]
    exact ⟨rfl, h⟩
  · rw [if_neg hclosed, if_neg (show ¬ indexed.view.closed = true from hclosed)]
    exact ⟨rfl, ⟨Nat.le_refl 0, Nat.zero_le _⟩, h.chunks⟩

/-- No run of operations stops the program. -/
theorem operated_eq (operations : List Operation) (h : indexed.Sound) :
    ∃ last, indexed.operated operations = some last ∧
      last.At (indexed.view.operated operations) := by
  induction operations generalizing indexed with
  | nil => exact ⟨indexed, rfl, rfl, h⟩
  | cons operation operations ih =>
    cases operation with
    | read request =>
      obtain ⟨next, hchecked, hview, hnext⟩ := completes_run h request
      obtain ⟨last, hlast, hat⟩ := ih hnext
      rw [hview] at hat
      exact ⟨last, andThen hchecked hlast, hat⟩
    | close =>
      obtain ⟨hview, hnext⟩ := at_close h
      obtain ⟨last, hlast, hat⟩ := ih hnext
      rw [hview] at hat
      exact ⟨last, hlast, hat⟩

/-- Serves `size` bytes of a chunk, and the given answer if the region is scratch storage. -/
def serveViewOr (answer : Option (Outcome (Indexed σ) Bytes)) (size : Nat) (indexed : Indexed σ) :
    Option (Outcome (Indexed σ) Bytes) :=
  match indexed.place with
  | .chunk _ _ => indexed.serveView size
  | .scratch => answer

def readBufferedOr (answer : Option (Outcome (Indexed σ) Bytes)) (size : Nat)
    (indexed : Indexed σ) : Option (Outcome (Indexed σ) Bytes) := do
  let left ← indexed.place.remaining
  if size ≤ left then indexed.serveViewOr answer size else indexed.readAcross size

/-- A read that gives the given answer where it would view scratch storage. -/
def readBytesOr (answer : Option (Outcome (Indexed σ) Bytes)) (size : Nat) (indexed : Indexed σ) :
    Option (Outcome (Indexed σ) Bytes) :=
  if indexed.closed then some (.error (.error .closed), indexed)
  else if size = 0 then some (.ok [], indexed)
  else if indexed.config.maxReadSize < size then
    some (.error (.error (.readTooLarge size indexed.config.maxReadSize)), indexed)
  else do
    let left ← indexed.place.remaining
    if left = 0 then
      match indexed.pull with
      | (.error cause, indexed) => some (.error (.error cause), indexed)
      | (.ok none, indexed) => some (.error (.error (.endOfStream size 0)), indexed)
      | (.ok (some chunk), indexed) => (indexed.enter chunk).readBufferedOr answer size
    else indexed.readBufferedOr answer size

theorem readBufferedOr_eq (answer : Option (Outcome (Indexed σ) Bytes)) {size : Nat}
    (hpos : 0 < size) : indexed.readBufferedOr answer size = indexed.readBuffered size := by
  rw [readBufferedOr, readBuffered]
  cases hplace : indexed.place with
  | chunk data place => simp only [serveViewOr, hplace]
  | scratch =>
    have hnone : ¬ size ≤ 0 := Nat.not_le.mpr hpos
    simp only [Place.remaining, Option.bind_eq_bind, Option.bind_some, if_neg hnone]

/-- No read views scratch storage. -/
theorem readBytesOr_eq (answer : Option (Outcome (Indexed σ) Bytes)) (size : Nat) :
    indexed.readBytesOr answer size = indexed.readBytes size := by
  by_cases hzero : size = 0
  · rw [readBytesOr, readBytes, if_pos hzero, if_pos hzero]
  · have hbuffered : readBufferedOr answer size = (readBuffered size : Indexed σ → _) :=
      funext fun _ => readBufferedOr_eq answer (Nat.pos_of_ne_zero hzero)
    rw [readBytesOr, hbuffered]
    rfl

/-- What holds of an indexed cursor whatever has been done with it. -/
structure Represented (indexed : Indexed σ) : Prop where
  inRange : ∀ data place, indexed.place = .chunk data place → place ≤ data.length
  filled : indexed.scratch.length ≤ indexed.scratchCapacity
  shut : indexed.closed = true →
    indexed.place = .chunk [] 0 ∧ indexed.scratch = [] ∧ indexed.scratchCapacity = 0
  spent : indexed.exhausted = true → indexed.place.remaining = some 0

theorem Sound.represented (h : indexed.Sound) (hview : indexed.view.Represented) :
    indexed.Represented where
  inRange data place hplace := by
    have hinRange := h.inRange
    rw [hplace] at hinRange
    exact hinRange.1
  filled := by
    have hfilled := hview.filled
    rw [view, List.length_reverse] at hfilled
    exact hfilled
  shut hclosed := by
    obtain ⟨hregion, hscratch, hcapacity⟩ := hview.shut hclosed
    refine ⟨?_, List.reverse_eq_nil_iff.mp hscratch, hcapacity⟩
    replace hregion : indexed.place.region = .chunk [] [] := hregion
    have hinRange := h.inRange
    cases hplace : indexed.place with
    | scratch =>
      rw [hplace] at hregion
      cases hregion
    | chunk data place =>
      rw [hplace] at hregion hinRange
      obtain ⟨rfl, _⟩ := Region.chunk.inj hregion
      rw [Nat.le_zero.mp hinRange.1]
  spent hended := by
    have hspent : indexed.place.region.unread = [] := hview.spent hended
    rw [Place.remaining_eq h.inRange, hspent]
    rfl

/-- The next read, whichever it is, has all its indices, slices and differences in range. -/
structure ReadsInRange (indexed : Indexed σ) : Prop where
  completes : ∀ request : Request,
    Completes At (indexed.run request) (request.run indexed.view)
  whole : ∀ (request : Request) bytes after,
    indexed.run request = some (.ok bytes, after) → bytes.length = request.size
  noScratchView : ∀ answer size, indexed.readBytesOr answer size = indexed.readBytes size

theorem Sound.readsInRange (h : indexed.Sound) : indexed.ReadsInRange where
  completes := completes_run h
  whole request bytes after hserved := by
    obtain ⟨next, hchecked, _⟩ := completes_run h request
    rw [hchecked] at hserved
    exact Cursor.length_of_served (congrArg Prod.fst (Option.some.inj hserved))
  noScratchView answer size := readBytesOr_eq answer size

end Checked.Indexed

/-- Whatever a client does to a cursor, and whatever its source does, the cursor keeps what
`Cursor.Represented` says, and an assembly has room for all of its read. So no sequence of
operations takes an index, a slice or a difference that is out of range, no view is ever taken of
scratch storage, and a successful read has just the length that was asked for. -/
theorem cursor_keeps_representation [ChunkSource σ] {config : DecoderConfig} {source : σ}
    {start : Cursor σ} (hstart : Cursor.ofConfig config source = .ok start)
    (operations : List Operation) :
    (start.operated operations).Represented ∧
    (∀ (request : Request) (bytes : Bytes),
      (request.run (start.operated operations)).1 = .ok bytes → bytes.length = request.size) ∧
    (∀ (size lacking : Nat) (during : Cursor σ),
      (start.operated operations).straddles size = true →
      (start.operated operations).capacityFor size ≤ maxAllocation →
      Cursor.Course (size - (start.operated operations).refilled.buffered)
        ((start.operated operations).refilled.assembling size) lacking during →
      during.scratch.length + lacking = size ∧ size ≤ during.scratchCapacity) ∧
    (ShortChunks source → ∃ indexed,
      (Checked.Indexed.ofSource config source).operated operations = some indexed ∧
      indexed.view = start.operated operations ∧ indexed.Represented ∧ indexed.ReadsInRange) := by
  have hreached := (Cursor.Reached.start hstart).operated operations
  refine ⟨hreached.represented, fun _ _ => Cursor.length_of_served, ?assembly, ?checked⟩
  case assembly =>
    intro size lacking during hstraddles hroom hcourse
    exact hcourse.room hreached.initial_pos hstraddles hroom
  case checked =>
    intro hchunks
    have hnew : (Checked.Indexed.ofSource config source).At start := by
      obtain ⟨_, rfl⟩ := Cursor.ofConfig_eq_ok_iff.mp hstart
      exact ⟨rfl, ⟨Nat.le_refl 0, Nat.zero_le _⟩, hchunks⟩
    obtain ⟨indexed, hchecked, hview, hsound⟩ := Checked.Indexed.operated_eq operations hnew.2
    rw [hnew.1] at hview
    exact ⟨indexed, hchecked, hview, hsound.represented (hview ▸ hreached.represented),
      hsound.readsInRange⟩

def brokenOffChunks : List Bytes := [[1, 2], [3]]

/-- The second read loses two bytes to the end of the stream, and leaves them in scratch storage. -/
def brokenOffReads : List Operation := [.read .byte, .read (.bytes 3), .read (.bytes 2)]

/-- Closing gives up the storage with the two bytes in it, and then even the empty read is
refused. -/
theorem cursor_keeps_representation_broken_off : ∃ start indexed,
    Cursor.ofConfig {} brokenOffChunks = .ok start ∧
    (start.operated brokenOffReads).scratch = [3, 2] ∧
    (Checked.Indexed.ofSource {} brokenOffChunks).operated (brokenOffReads ++ [.close]) =
      some indexed ∧
    indexed.place = .chunk [] 0 ∧ indexed.scratchCapacity = 0 ∧
    ∃ last, indexed.run (.bytes 0) = some (.error (.error .closed), last) := by
  have hstart : Cursor.ofConfig {} brokenOffChunks =
      .ok { source := brokenOffChunks, config := {} } := by rfl
  have hcontent : ContentBelow maxAllocation brokenOffChunks := contentBelow_list (by decide)
  obtain ⟨_, _, _, hchecked⟩ := cursor_keeps_representation hstart (brokenOffReads ++ [.close])
  obtain ⟨indexed, hoperated, hview, hrepresented, hreads⟩ :=
    hchecked (hcontent.shortChunks (Nat.le_refl _))
  have hclosed : indexed.view.closed = true := by
    rw [hview]
    decide +kernel
  obtain ⟨hplace, _, hcapacity⟩ := hrepresented.shut hclosed
  obtain ⟨last, hrefused, _⟩ := hreads.completes (.bytes 0)
  rw [Cursor.run_request_of_closed hclosed] at hrefused
  exact ⟨_, indexed, hstart, by decide +kernel, hoperated, hplace, hcapacity, last, hrefused⟩

end Columnar
