import Columnar.Proofs.Checked.Indexed

/-!
Reads of an indexed cursor. It shows as a cursor, and all its reads come to what the reads of that
cursor come to, as long as no chunk is too long for a buffer.
-/
namespace Columnar.Checked

namespace Indexed

/-- The place is in range, and so will be all others. -/
structure Sound [ChunkSource σ] (indexed : Indexed σ) : Prop where
  inRange : indexed.place.InRange
  chunks : ShortChunks indexed.source

/-- An indexed cursor that stands where the cursor stands. -/
def At [ChunkSource σ] (indexed : Indexed σ) (cursor : Cursor σ) : Prop :=
  indexed.view = cursor ∧ indexed.Sound

variable [ChunkSource σ] {indexed : Indexed σ}

/-- Pulling shows as pulling. -/
theorem pull_eq (h : indexed.Sound) : ∃ result after, indexed.pull = (result, after) ∧
    indexed.view.pull = (result, after.view) ∧ after.Sound ∧ after.scratch = indexed.scratch ∧
    ∀ chunk, result = .ok (some chunk) → chunk.length ≤ maxAllocation := by
  have hshort : ∀ chunk : Chunk, (ChunkSource.next indexed.source).1 = .ok (some chunk.bytes) →
      chunk.length ≤ maxAllocation := fun _ => h.chunks.of_next
  have hlater := h.chunks.next
  rw [pull, Cursor.pull]
  by_cases hended : indexed.exhausted = true
  · rw [if_pos hended, if_pos (show indexed.view.exhausted = true from hended)]
    exact ⟨_, _, rfl, rfl, h, rfl, by simp⟩
  · rw [if_neg hended, if_neg (show ¬ indexed.view.exhausted = true from hended)]
    rw [show indexed.view.source = indexed.source from rfl]
    generalize ChunkSource.next indexed.source = answer at hshort hlater ⊢
    rcases answer with ⟨cause | _ | _ | ⟨head, tail⟩, source⟩
    · exact ⟨_, _, rfl, rfl, ⟨h.inRange, hlater⟩, rfl, by simp⟩
    · exact ⟨_, _, rfl, rfl, ⟨h.inRange, hlater⟩, rfl, by simp⟩
    · exact ⟨_, _, rfl, rfl, ⟨h.inRange, hlater⟩, rfl, by simp⟩
    · refine ⟨_, _, rfl, rfl, ⟨h.inRange, hlater⟩, rfl, fun chunk hchunk => ?_⟩
      cases hchunk
      exact hshort ⟨head, tail⟩ rfl

theorem sound_enter (h : indexed.Sound) {chunk : Chunk} (hchunk : chunk.length ≤ maxAllocation) :
    (indexed.enter chunk).Sound :=
  ⟨⟨Nat.zero_le _, hchunk⟩, h.chunks⟩

theorem completes_serveByte (h : indexed.Sound) {byte : UInt8} {rest : Bytes}
    (hunread : indexed.view.region.unread = byte :: rest) :
    Completes At indexed.serveByte (.ok byte, indexed.view.serveByte rest) := by
  obtain ⟨hplace, hchunks⟩ := h
  rw [serveByte]
  cases hregion : indexed.place with
  | scratch => simp [view, hregion, Place.region] at hunread
  | chunk data place =>
    simp only [view, hregion, Place.region, Region.unread_chunk] at hunread
    rw [hregion] at hplace
    obtain ⟨hle, hshort⟩ := hplace
    have hfront : data.drop place = [byte] ++ rest := hunread
    obtain ⟨_, hrest, hend⟩ := slice_front hle hfront rfl
    replace hrest : data.drop (place + 1) = rest := hrest
    have hbyte : data[place]? = some byte := by rw [← List.head?_drop, hunread]; rfl
    have hnext : word (place + 1) = some (place + 1) :=
      word_eq rfl (by rw [maxAllocation] at hshort; rw [maxSize]; omega)
    refine ⟨_, andThen hbyte (andThen hnext rfl), ?_, ⟨hend, hshort⟩, hchunks⟩
    rw [view, Cursor.serveByte, view, hregion]
    simp only [Place.region, Region.leave, hrest]

theorem completes_serveView (h : indexed.Sound) {size : Nat} {front rest : Bytes}
    (hunread : indexed.view.region.unread = front ++ rest) (hsize : front.length = size)
    (hpos : 0 < size) :
    Completes At (indexed.serveView size) (.ok front, indexed.view.serveView size rest) := by
  obtain ⟨hplace, hchunks⟩ := h
  rw [serveView]
  cases hregion : indexed.place with
  | scratch =>
    simp only [view, hregion, Place.region, Region.unread_scratch] at hunread
    have hnone := congrArg List.length hunread
    rw [List.length_append] at hnone
    simp only [List.length_nil] at hnone
    omega
  | chunk data place =>
    simp only [view, hregion, Place.region, Region.unread_chunk] at hunread
    rw [hregion] at hplace
    obtain ⟨hle, hshort⟩ := hplace
    obtain ⟨hblock, hrest, hend⟩ := slice_front hle hunread hsize
    have hstop : word (place + size) = some (place + size) :=
      word_eq rfl (by rw [maxAllocation] at hshort; rw [maxSize]; omega)
    refine ⟨_, andThen hstop (andThen hblock rfl), ?_, ⟨hend, hshort⟩, hchunks⟩
    rw [view, Cursor.serveView, view, hregion]
    simp only [Place.region, Region.leave, hrest]

theorem completes_readByte (h : indexed.Sound) :
    Completes At indexed.readByte indexed.view.readByte := by
  rw [readByte, Cursor.readByte]
  by_cases hclosed : indexed.closed = true
  · rw [if_pos hclosed, if_pos (show indexed.view.closed = true from hclosed)]
    exact .intro ⟨rfl, h⟩
  · rw [if_neg hclosed, if_neg (show ¬ indexed.view.closed = true from hclosed)]
    cases hunread : indexed.view.region.unread with
    | cons byte rest =>
      have hsome : indexed.place.hasByte = true :=
        Place.hasByte_iff.mpr (hunread ▸ List.cons_ne_nil _ _)
      rw [if_pos hsome]
      exact completes_serveByte h hunread
    | nil =>
      have hnone : ¬ indexed.place.hasByte = true :=
        fun hsome => Place.hasByte_iff.mp hsome hunread
      obtain ⟨result, after, hpull, hplain, hafter, _, hshort⟩ := pull_eq h
      rw [if_neg hnone, hpull, hplain]
      rcases result with cause | _ | chunk
      · exact .intro ⟨rfl, hafter⟩
      · exact .intro ⟨rfl, hafter⟩
      · exact completes_serveByte (sound_enter hafter (hshort chunk rfl)) rfl

/-- Assembling shows as assembling. What the storage lacks is what the read still needs. -/
theorem assemble_eq (size : Nat) (scratch : Bytes) (h : indexed.Sound)
    (hlength : scratch.length ≤ size) :
    ∃ result after, assemble size scratch indexed = some (result, after) ∧
      Cursor.assemble size (size - scratch.length)
        { indexed.view with scratch := scratch.reverse } = (result, after.view) ∧
      after.Sound ∧ (result = .ok () → after.scratch.length = size) := by
  induction hlack : size - scratch.length using Nat.strongRecOn generalizing scratch indexed with
  | ind needed ih =>
    have hstored : Sound { indexed with scratch } := ⟨h.inRange, h.chunks⟩
    rw [assemble, Cursor.assemble]
    by_cases hwhole : needed = 0
    · rw [dif_neg (by omega), if_pos hwhole]
      exact ⟨_, _, rfl, rfl, hstored, fun _ => by dsimp only; omega⟩
    · obtain ⟨result, after, hpull, hplain, hafter, hkept, hshort⟩ := pull_eq hstored
      replace hplain : ({ indexed.view with scratch := scratch.reverse } : Cursor σ).pull =
          (result, after.view) := hplain
      replace hkept : after.scratch = scratch := hkept
      rw [dif_pos (by omega), if_neg hwhole, hpull, hplain]
      rcases result with cause | _ | chunk
      · exact ⟨_, _, rfl, rfl, hafter, by simp⟩
      · have hcount : size - needed = scratch.length := by omega
        simp only [hcount]
        exact ⟨_, _, rfl, rfl, hafter, by simp⟩
      · have hneeded : difference size scratch.length = some needed := by
          rw [difference_eq hlength, hlack]
        have hchunk := hshort chunk rfl
        have hview : after.view.scratch = scratch.reverse := congrArg List.reverse hkept
        -- the read ends inside this chunk, or the whole chunk goes into the storage
        by_cases hlast : needed < chunk.length
        · have hsplit : chunk.bytes.drop 0 = chunk.bytes.take needed ++ chunk.bytes.drop needed :=
            (List.take_append_drop needed chunk.bytes).symm
          have hfront : (chunk.bytes.take needed).length = needed := by
            rw [List.length_take, Chunk.length_bytes]
            omega
          obtain ⟨hblock, _, _⟩ := slice_front (Nat.zero_le _) hsplit hfront
          rw [Nat.zero_add] at hblock
          refine ⟨_, _, andThen hneeded ((if_pos hlast).trans (andThen hblock rfl)), ?_,
            ⟨⟨Nat.le_of_lt hlast, hchunk⟩, hafter.chunks⟩, fun _ => ?_⟩
          · refine (if_pos hlast).trans ?_
            rw [List.reverseAux_eq, hview, ← List.reverse_append]
            rfl
          · rw [List.length_append, hfront]
            omega
        · have hgrown : (scratch ++ chunk.bytes).reverse =
              chunk.bytes.reverseAux after.view.scratch := by
            rw [hview, List.reverseAux_eq, List.reverse_append]
          have hlonger : (scratch ++ chunk.bytes).length = scratch.length + chunk.length := by
            rw [List.length_append, Chunk.length_bytes]
          have hpos := chunk.length_pos
          obtain ⟨result, last, hrest, hplain, hlast'⟩ :=
            ih (needed - chunk.length) (by omega) (scratch ++ chunk.bytes) hafter (by omega)
              (by omega)
          rw [hgrown] at hplain
          exact ⟨result, last, andThen hneeded ((if_neg hlast).trans hrest),
            (if_neg hlast).trans hplain, hlast'⟩

theorem completes_readAcross (h : indexed.Sound) {size : Nat}
    (hshort : indexed.view.region.unread.length < size) :
    Completes At (indexed.readAcross size) (indexed.view.readAcross size) := by
  by_cases hroom : maxAllocation < indexed.view.capacityFor size
  · refine ⟨{ indexed with scratch := [] }, ?_, ?_⟩
    · simp only [Cursor.readAcross, if_pos hroom]
      exact andThen (difference_eq (Nat.zero_le _)) (if_pos hroom)
    · simp only [Cursor.readAcross, if_pos hroom]
      exact ⟨rfl, h.inRange, h.chunks⟩
  · have hstart : Sound
        { indexed with
          place := .scratch
          scratch := []
          scratchCapacity := indexed.view.capacityFor size } :=
      ⟨trivial, h.chunks⟩
    obtain ⟨result, after, hchecked, hplain, hafter, hwhole⟩ :=
      assemble_eq size indexed.view.region.unread hstart (Nat.le_of_lt hshort)
    replace hplain : Cursor.assemble size (size - indexed.view.region.unread.length)
        ({ indexed.view with
          region := .scratch
          scratch := indexed.view.region.unread.reverse
          scratchCapacity := indexed.view.capacityFor size } : Cursor σ) =
      (result, after.view) := hplain
    simp only [Cursor.readAcross, if_neg hroom, hplain]
    cases result with
    | error cause =>
      refine ⟨after, ?_, rfl, hafter⟩
      exact andThen (difference_eq (Nat.zero_le _)) ((if_neg hroom).trans
        (andThen (Place.tail_eq h.inRange) (andThen hchecked rfl)))
    | ok _ =>
      have hblock : slice 0 size after.scratch = some after.view.scratch.reverse := by
        rw [slice, if_pos ⟨Nat.zero_le _, Nat.le_of_eq (hwhole rfl).symm⟩, ← hwhole rfl,
          List.take_length, view, List.reverse_reverse]
        rfl
      refine ⟨{ after with
        counters :=
          { after.counters with
            bytesConsumed := after.counters.bytesConsumed + size
            scratchReads := after.counters.scratchReads + 1 } }, ?_, rfl, hafter.inRange,
        hafter.chunks⟩
      exact andThen (difference_eq (Nat.zero_le _)) ((if_neg hroom).trans
        (andThen (Place.tail_eq h.inRange) (andThen hchecked (andThen hblock rfl))))

theorem completes_readBuffered (h : indexed.Sound) {size : Nat} (hpos : 0 < size) :
    Completes At (indexed.readBuffered size) (indexed.view.readBuffered size) := by
  have hleft : indexed.place.remaining = some indexed.view.region.unread.length :=
    Place.remaining_eq h.inRange
  rw [Cursor.readBuffered]
  cases hview : indexed.view.region.unread.split? size with
  | none =>
    have hshort := Bytes.split?_eq_none_iff.mp hview
    obtain ⟨after, hchecked, hafter⟩ := completes_readAcross h hshort
    exact ⟨after, andThen hleft ((if_neg (Nat.not_le.mpr hshort)).trans hchecked), hafter⟩
  | some taken =>
    obtain ⟨front, rest⟩ := taken
    obtain ⟨hunread, hsize⟩ := Bytes.split?_eq_some_iff.mp hview
    have hfits : size ≤ indexed.view.region.unread.length := by
      rw [hunread, List.length_append]
      omega
    obtain ⟨after, hchecked, hafter⟩ := completes_serveView h hunread hsize hpos
    exact ⟨after, andThen hleft ((if_pos hfits).trans hchecked), hafter⟩

theorem completes_readBytes (h : indexed.Sound) (size : Nat) :
    Completes At (indexed.readBytes size) (indexed.view.readBytes size) := by
  rw [readBytes, Cursor.readBytes]
  by_cases hclosed : indexed.closed = true
  · rw [if_pos hclosed, if_pos (show indexed.view.closed = true from hclosed)]
    exact .intro ⟨rfl, h⟩
  rw [if_neg hclosed, if_neg (show ¬ indexed.view.closed = true from hclosed)]
  by_cases hzero : size = 0
  · rw [if_pos hzero, if_pos hzero]
    exact .intro ⟨rfl, h⟩
  rw [if_neg hzero, if_neg hzero]
  by_cases hlimit : indexed.config.maxReadSize < size
  · rw [if_pos hlimit, if_pos (show indexed.view.config.maxReadSize < size from hlimit)]
    exact .intro ⟨rfl, h⟩
  rw [if_neg hlimit, if_neg (show ¬ indexed.view.config.maxReadSize < size from hlimit)]
  have hleft : indexed.place.remaining = some indexed.view.region.unread.length :=
    Place.remaining_eq h.inRange
  cases hunread : indexed.view.region.unread with
  | cons byte rest =>
    have hsome : ¬ indexed.view.region.unread.length = 0 := by
      rw [hunread]
      exact Nat.succ_ne_zero _
    obtain ⟨after, hchecked, hafter⟩ := completes_readBuffered h (Nat.pos_of_ne_zero hzero)
    exact ⟨after, andThen hleft ((if_neg hsome).trans hchecked), hafter⟩
  | nil =>
    have hnone : indexed.view.region.unread.length = 0 := congrArg List.length hunread
    obtain ⟨result, after, hpull, hplain, hafter, _, hshort⟩ := pull_eq h
    rw [hpull, hplain]
    rcases result with cause | _ | chunk
    · exact ⟨after, andThen hleft (if_pos hnone), rfl, hafter⟩
    · exact ⟨after, andThen hleft (if_pos hnone), rfl, hafter⟩
    · obtain ⟨last, hchecked, hlast⟩ := completes_readBuffered
        (sound_enter hafter (hshort chunk rfl)) (Nat.pos_of_ne_zero hzero)
      exact ⟨last, andThen hleft ((if_pos hnone).trans hchecked), hlast⟩

theorem completes_run (h : indexed.Sound) (request : Request) :
    Completes At (indexed.run request) (request.run indexed.view) := by
  cases request with
  | bytes size => exact completes_readBytes h size
  | byte =>
    obtain ⟨after, hchecked, hafter⟩ := completes_readByte h
    rw [run, hchecked]
    exact ⟨after, rfl, hafter⟩

/-- No run of reads stops the program. -/
theorem after_eq (requests : List Request) (h : indexed.Sound) :
    ∃ last, indexed.after requests = some last ∧ last.view = indexed.view.after requests ∧
      last.Sound := by
  induction requests generalizing indexed with
  | nil => exact ⟨indexed, rfl, rfl, h⟩
  | cons request requests ih =>
    obtain ⟨next, hchecked, hview, hnext⟩ := completes_run h request
    obtain ⟨last, hlast, hsame, hsound⟩ := ih hnext
    exact ⟨last, andThen hchecked hlast, by rw [hsame, hview]; rfl, hsound⟩

end Indexed

end Columnar.Checked
