import Columnar.Proofs.Cursor.Overflow

/-!
Reads come to an end. The loops of a cursor are stated round by round here: the search for a byte,
the assembly of a read and the doubling of scratch storage. No source has to end for them to end,
because a chunk that is pulled has at least one byte: an assembly lacks less after every round, and
a read never calls its source more often than it has bytes.
-/
namespace Columnar

/-- What one round of a loop comes to. -/
inductive Round (σ ρ : Type) where
  | again (state : σ)
  | done (result : ρ)

/-- The loop has the result after that many rounds. -/
inductive Loops (body : σ → Round σ ρ) : (rounds : Nat) → σ → ρ → Prop where
  | done {state : σ} {result : ρ} (hbody : body state = .done result) : Loops body 1 state result
  | again {rounds : Nat} {state next : σ} {result : ρ} (hbody : body state = .again next)
      (hlater : Loops body rounds next result) : Loops body (rounds + 1) state result

/-- The loop has the result after at most that many rounds. -/
def EndsWithin (limit : Nat) (body : σ → Round σ ρ) (state : σ) (result : ρ) : Prop :=
  ∃ rounds ≤ limit, Loops body rounds state result

namespace EndsWithin

variable {limit : Nat} {body : σ → Round σ ρ} {state next : σ} {result : ρ}

theorem done (hbody : body state = .done result) : EndsWithin (limit + 1) body state result :=
  ⟨1, Nat.le_add_left 1 limit, .done hbody⟩

theorem again (hbody : body state = .again next) (h : EndsWithin limit body next result) :
    EndsWithin (limit + 1) body state result := by
  obtain ⟨rounds, hrounds, hlater⟩ := h
  exact ⟨rounds + 1, Nat.succ_le_succ hrounds, .again hbody hlater⟩

theorem weaken {larger : Nat} (h : EndsWithin limit body state result) (hle : limit ≤ larger) :
    EndsWithin larger body state result := by
  obtain ⟨rounds, hrounds, hloops⟩ := h
  exact ⟨rounds, Nat.le_trans hrounds hle, hloops⟩

end EndsWithin

/-- One doubling of a capacity that is still too small. -/
def doublingRound (target capacity : Nat) : Round Nat Nat :=
  if capacity < target then .again (mulSat capacity 2) else .done capacity

/-- Doubling ends as soon as it would reach the largest size, where it stays. -/
theorem endsWithin_doubling {target capacity doublings : Nat} (htarget : target ≤ maxSize)
    (hreach : maxSize ≤ capacity * 2 ^ doublings) :
    EndsWithin (doublings + 1) (doublingRound target) capacity (doubleUntil target capacity) := by
  induction doublings generalizing capacity with
  | zero =>
    rw [Nat.pow_zero, Nat.mul_one] at hreach
    have hstop : ¬ capacity < target := by omega
    rw [doubleUntil, if_neg fun hstep => hstop hstep.2.1]
    exact .done (if_neg hstop)
  | succ doublings ih =>
    by_cases hshort : capacity < target
    · have hpos : 0 < capacity := by
        refine Nat.pos_of_ne_zero fun hzero => ?_
        rw [hzero, Nat.zero_mul, maxSize] at hreach
        omega
      have hlater : maxSize ≤ mulSat capacity 2 * 2 ^ doublings := by
        rw [Nat.pow_succ, Nat.mul_comm _ 2, ← Nat.mul_assoc] at hreach
        rcases Nat.le_total (capacity * 2) maxSize with hexact | hfull
        · rw [mulSat_eq _ _ hexact]
          exact hreach
        · rw [mulSat, Nat.min_eq_right hfull]
          exact Nat.le_mul_of_pos_right maxSize (Nat.two_pow_pos doublings)
      rw [doubleUntil, if_pos ⟨hpos, hshort, htarget⟩]
      exact .again (if_pos hshort) (ih hlater)
    · rw [doubleUntil, if_neg fun hstep => hshort hstep.2.1]
      exact .done (if_neg hshort)

namespace Cursor

section Rounds

variable [ChunkSource σ]

/-- Takes the next byte of the region, or pulls a chunk to look again. -/
def byteRound (cursor : Cursor σ) : Round (Cursor σ) (Outcome (Cursor σ) UInt8) :=
  match cursor.region.unread with
  | byte :: rest => .done (.ok byte, cursor.serveByte rest)
  | [] =>
    match cursor.pull with
    | (.error cause, cursor) => .done (.error (.error cause), cursor)
    | (.ok none, cursor) => .done (.error (.error (.endOfStream 1 0)), cursor)
    | (.ok (some chunk), cursor) => .again (cursor.enter chunk)

/-- Puts into scratch storage what a read of `size` bytes needs of a chunk. What it does not need
becomes the region. -/
def absorb (size : Nat) (chunk : Chunk) (cursor : Cursor σ) : Cursor σ :=
  let needed := size - cursor.scratch.length
  if needed < chunk.length then
    { cursor with
      region := .chunk chunk.bytes (chunk.bytes.drop needed)
      scratch := (chunk.bytes.take needed).reverseAux cursor.scratch }
  else { cursor with scratch := chunk.bytes.reverseAux cursor.scratch }

/-- Pulls a chunk for a read of `size` bytes, as long as scratch storage has fewer. -/
def assemblyRound (size : Nat) (cursor : Cursor σ) :
    Round (Cursor σ) (Except DecodeError Unit × Cursor σ) :=
  if cursor.scratch.length < size then
    match cursor.pull with
    | (.error cause, cursor) => .done (.error cause, cursor)
    | (.ok none, cursor) => .done (.error (.endOfStream size cursor.scratch.length), cursor)
    | (.ok (some chunk), cursor) => .again (cursor.absorb size chunk)
  else .done (.ok (), cursor)

/-- The search for a byte ends in its second round, if not in the first. -/
theorem endsWithin_byte {cursor : Cursor σ} (hopen : cursor.closed = false) :
    EndsWithin 2 byteRound cursor cursor.readByte := by
  rw [readByte, if_neg (by simp [hopen])]
  cases hregion : cursor.region.unread with
  | cons byte rest => exact .done (by rw [byteRound, hregion])
  | nil =>
    rcases hpull : cursor.pull with ⟨cause | _ | chunk, after⟩
    · exact .done (by rw [byteRound, hregion, hpull])
    · exact .done (by rw [byteRound, hregion, hpull])
    · have hround : byteRound cursor = .again (after.enter chunk) := by
        rw [byteRound, hregion, hpull]
      exact .again hround (.done rfl)

omit [ChunkSource σ] in
theorem length_absorb {size : Nat} {chunk : Chunk} {cursor : Cursor σ}
    (hsize : cursor.scratch.length ≤ size) :
    (cursor.absorb size chunk).scratch.length = min size (cursor.scratch.length + chunk.length) := by
  simp only [absorb]
  split
  · simp only [List.reverseAux_eq, List.length_append, List.length_reverse, List.length_take,
      Chunk.length_bytes]
    omega
  · simp only [List.reverseAux_eq, List.length_append, List.length_reverse, Chunk.length_bytes]
    omega

/-- No round of an assembly that goes on leaves it with as much to do. -/
theorem lacking_decreases {size : Nat} {cursor next : Cursor σ}
    (hround : assemblyRound size cursor = .again next) :
    size - next.scratch.length < size - cursor.scratch.length := by
  by_cases hshort : cursor.scratch.length < size
  · obtain ⟨hkept, _⟩ := storage_of_pull cursor
    simp only [assemblyRound, if_pos hshort] at hround
    rcases hpull : cursor.pull with ⟨cause | _ | chunk, after⟩
    all_goals rw [hpull] at hround hkept
    · cases hround
    · cases hround
    · cases hround
      have hpos := chunk.length_pos
      replace hkept : after.scratch = cursor.scratch := hkept
      rw [length_absorb (by rw [hkept]; omega), hkept]
      omega
  · rw [assemblyRound, if_neg hshort] at hround
    cases hround

/-- An assembly has at most a round for each byte that it lacks, and one to see that it is done. -/
theorem endsWithin_assembly {size needed : Nat} {cursor : Cursor σ}
    (hneeded : cursor.scratch.length + needed = size) :
    EndsWithin (needed + 1) (assemblyRound size) cursor (assemble size needed cursor) := by
  induction needed using Nat.strongRecOn generalizing cursor with
  | ind needed ih =>
    rw [assemble]
    by_cases hzero : needed = 0
    · rw [if_pos hzero]
      exact .done (if_neg (by omega))
    · obtain ⟨hkept, _⟩ := storage_of_pull cursor
      have hshort : cursor.scratch.length < size := by omega
      have hlack : size - needed = cursor.scratch.length := by omega
      rw [if_neg hzero]
      rcases hpull : cursor.pull with ⟨cause | _ | chunk, after⟩
      all_goals
        rw [hpull] at hkept
        replace hkept : after.scratch = cursor.scratch := hkept
      · exact .done (by rw [assemblyRound, if_pos hshort, hpull])
      · exact .done (by rw [assemblyRound, if_pos hshort, hpull, hlack, ← hkept])
      · have hround : assemblyRound size cursor = .again (after.absorb size chunk) := by
          rw [assemblyRound, if_pos hshort, hpull]
        have hsame : after.scratch.length = cursor.scratch.length := by rw [hkept]
        have hlength : (after.absorb size chunk).scratch.length =
            min size (after.scratch.length + chunk.length) := length_absorb (by omega)
        have hpos := chunk.length_pos
        have hneed : size - after.scratch.length = needed := by omega
        by_cases hlast : needed < chunk.length
        · -- the next round sees that the read is complete
          have hdone : assemblyRound size (after.absorb size chunk) =
              .done (.ok (), after.absorb size chunk) := by
            rw [assemblyRound, if_neg (by omega)]
          have hends : EndsWithin 2 (assemblyRound size) cursor (.ok (), after.absorb size chunk) :=
            .again hround (.done hdone)
          simp only [absorb, hneed, if_pos hlast] at hends ⊢
          exact hends.weaken (by omega)
        · have hlater : (after.absorb size chunk).scratch.length + (needed - chunk.length) = size := by
            omega
          have hends := EndsWithin.again hround (ih (needed - chunk.length) (by omega) hlater)
          simp only [absorb, hneed, if_neg hlast] at hends ⊢
          exact hends.weaken (by omega)

end Rounds

section Asked

variable [ChunkSource σ]

/-- How often the source was called so far. -/
def asked (cursor : Cursor (Recorded σ)) : Nat := cursor.source.answers.length

theorem asked_pull (cursor : Cursor (Recorded σ)) : cursor.pull.2.asked ≤ cursor.asked + 1 := by
  have hnext (recorded : Recorded σ) :
      (ChunkSource.next recorded).2.answers.length = recorded.answers.length + 1 := by
    simp [ChunkSource.next]
  rcases pull_cases cursor with ⟨chunk, source, _, hanswer, hpull⟩ |
    ⟨cause, source, _, hanswer, hpull⟩ | ⟨last, hstops, hpull⟩
  · have hcalled := hnext cursor.source
    rw [hanswer] at hcalled
    rw [hpull]
    exact Nat.le_of_eq hcalled
  · have hcalled := hnext cursor.source
    rw [hanswer] at hcalled
    rw [hpull]
    exact Nat.le_of_eq hcalled
  · rw [hpull]
    cases hlive : cursor.exhausted with
    | true =>
      rw [hlive] at hstops
      obtain rfl : last = cursor.source := hstops
      exact Nat.le_succ _
    | false =>
      rw [hlive] at hstops
      obtain ⟨_, rfl⟩ := hstops
      exact Nat.le_of_eq (hnext cursor.source)

/-- Every chunk has a byte, so an assembly asks at most once for each byte that it lacks. -/
theorem asked_assemble (size needed : Nat) (cursor : Cursor (Recorded σ)) :
    (assemble size needed cursor).2.asked ≤ cursor.asked + needed := by
  induction needed using Nat.strongRecOn generalizing cursor with
  | ind needed ih =>
    rw [assemble]
    by_cases hzero : needed = 0
    · rw [if_pos hzero]
      exact Nat.le_add_right _ _
    · have hasked := asked_pull cursor
      rw [if_neg hzero]
      generalize cursor.pull = outcome at hasked ⊢
      rcases outcome with ⟨cause | _ | chunk, after⟩
      all_goals replace hasked : after.asked ≤ cursor.asked + 1 := hasked
      · show after.asked ≤ _
        omega
      · show after.asked ≤ _
        omega
      · have hpos := chunk.length_pos
        by_cases hlast : needed < chunk.length
        · simp only [if_pos hlast]
          show after.asked ≤ _
          omega
        · simp only [if_neg hlast]
          have hlater := ih (needed - chunk.length) (by omega)
            { after with scratch := chunk.bytes.reverseAux after.scratch }
          replace hlater : _ ≤ after.asked + (needed - chunk.length) := hlater
          omega

theorem asked_readAcross (size : Nat) (cursor : Cursor (Recorded σ)) :
    (cursor.readAcross size).2.asked ≤ cursor.asked + (size - cursor.buffered) := by
  by_cases hroom : maxAllocation < cursor.capacityFor size
  · simp only [readAcross, if_pos hroom]
    exact Nat.le_add_right _ _
  · have hassemble := asked_assemble size (size - cursor.region.unread.length)
      (cursor.assembling size)
    simp only [readAcross, if_neg hroom]
    simp only [assembling] at hassemble
    generalize assemble (σ := Recorded σ) size _ _ = outcome at hassemble ⊢
    rcases outcome with ⟨cause | _, after⟩
    · exact hassemble
    · exact hassemble

theorem asked_readBuffered (size : Nat) (cursor : Cursor (Recorded σ)) :
    (cursor.readBuffered size).2.asked ≤ cursor.asked + (size - cursor.buffered) := by
  rw [readBuffered]
  cases cursor.region.unread.split? size with
  | some view => exact Nat.le_add_right _ _
  | none => exact asked_readAcross size cursor

/-- A read asks at most once for each byte that the region does not have. -/
theorem asked_readBytes (size : Nat) (cursor : Cursor (Recorded σ)) :
    (cursor.readBytes size).2.asked ≤ cursor.asked + (size - cursor.buffered) := by
  rw [readBytes]
  split
  · exact Nat.le_add_right _ _
  split
  · exact Nat.le_add_right _ _
  next hzero =>
  split
  · exact Nat.le_add_right _ _
  split
  · next hspent =>
    have hasked := asked_pull cursor
    have hnone : cursor.buffered = 0 := by
      rw [buffered, List.isEmpty_iff.mp hspent, List.length_nil]
    generalize cursor.pull = outcome at hasked ⊢
    rcases outcome with ⟨cause | _ | chunk, after⟩
    all_goals replace hasked : after.asked ≤ cursor.asked + 1 := hasked
    · show after.asked ≤ _
      omega
    · show after.asked ≤ _
      omega
    · -- the chunk has at least one of the bytes
      have hpos := chunk.length_pos
      have hlater := asked_readBuffered size (after.enter chunk)
      replace hlater : _ ≤ after.asked + (size - chunk.length) := hlater
      show ((after.enter chunk).readBuffered size).2.asked ≤ _
      omega
  · exact asked_readBuffered size cursor

theorem asked_readByte (cursor : Cursor (Recorded σ)) :
    cursor.readByte.2.asked ≤ cursor.asked + 1 := by
  rw [readByte]
  split
  · exact Nat.le_add_right _ _
  split
  · exact Nat.le_add_right _ _
  · have hasked := asked_pull cursor
    generalize cursor.pull = outcome at hasked ⊢
    rcases outcome with ⟨cause | _ | chunk, after⟩
    · exact hasked
    · exact hasked
    · exact hasked

end Asked

variable [ChunkSource σ] {config : DecoderConfig} {cursor : Cursor σ}

theorem calls_byte_le (cursor : Cursor σ) : cursor.calls [.byte] ≤ 1 := by
  have hasked := asked_readByte cursor.recorded
  rw [show cursor.recorded.asked = 0 from rfl, Nat.zero_add] at hasked
  exact hasked

theorem calls_bytes_le (size : Nat) (cursor : Cursor σ) :
    cursor.calls [.bytes size] ≤ size - cursor.buffered := by
  have hasked := asked_readBytes size cursor.recorded
  rw [show cursor.recorded.asked = 0 from rfl, Nat.zero_add] at hasked
  exact hasked

theorem Reached.valid (h : Reached config cursor) : config.validate = .ok () := by
  induction h with
  | start hstart => exact (ofConfig_eq_ok_iff.mp hstart).1
  | read _ _ ih => exact ih
  | close _ ih => exact ih

/-- Scratch storage that is too small has grown enough after at most 58 doublings. -/
theorem Reached.endsWithin_doubling (h : Reached config cursor) {size : Nat}
    (hshort : cursor.scratchCapacity < mulSat size 2) :
    EndsWithin 59 (doublingRound (mulSat size 2))
      (max cursor.scratchCapacity config.initialScratchCapacity) (cursor.capacityFor size) := by
  have hinitial := ((DecoderConfig.validate_eq_ok_iff config).mp h.valid).1.1
  obtain ⟨rfl, _⟩ := h.storage
  simp only [capacityFor, if_neg (Nat.not_le.mpr hshort)]
  refine Columnar.endsWithin_doubling (mulSat_le size 2) ?_
  rw [minScratchCapacity] at hinitial
  rw [maxSize]
  omega

/-- The loops of a cursor, each with a bound on its rounds. -/
structure LoopsEnd (cursor : Cursor σ) : Prop where
  byte : cursor.closed = false → EndsWithin 2 byteRound cursor cursor.readByte
  assembly : ∀ size, cursor.straddles size = true →
    EndsWithin size (assemblyRound size) (cursor.refilled.assembling size)
      (assemble size (size - cursor.refilled.buffered) (cursor.refilled.assembling size))
  progress : ∀ (size : Nat) (during next : Cursor σ), assemblyRound size during = .again next →
    size - next.scratch.length < size - during.scratch.length
  doubling : ∀ size, cursor.scratchCapacity < mulSat size 2 →
    EndsWithin 59 (doublingRound (mulSat size 2))
      (max cursor.scratchCapacity cursor.config.initialScratchCapacity) (cursor.capacityFor size)

theorem Reached.loopsEnd (h : Reached config cursor) : LoopsEnd cursor where
  byte := endsWithin_byte
  assembly size hstraddles := by
    obtain ⟨_, _, hsome, hshort⟩ := straddles_iff.mp hstraddles
    refine (endsWithin_assembly ?_).weaken (by omega)
    rw [assembling, List.length_reverse, ← buffered]
    omega
  progress _ _ _ := lacking_decreases
  doubling size hshort := by
    rw [h.storage.1]
    exact h.endsWithin_doubling hshort

end Cursor

/-- Every read ends, also over a source that never does. A read of a byte calls its source once at
most, and a read of several bytes calls it at most as often as it has bytes, or once less if some
of them are there. The loops behind this end by themselves, the doubling of scratch storage for any
size whatever, and those that pull because each chunk leaves less to do. -/
theorem reads_end [ChunkSource σ] {config : DecoderConfig} {cursor : Cursor σ}
    (h : cursor.Reached config) :
    cursor.calls [.byte] ≤ 1 ∧
    (∀ size, cursor.calls [.bytes size] ≤ size ∧
      (cursor.region.unread ≠ [] → cursor.calls [.bytes size] ≤ size - 1)) ∧
    cursor.LoopsEnd := by
  refine ⟨cursor.calls_byte_le, fun size => ⟨?_, fun hunread => ?_⟩, h.loopsEnd⟩
  · exact Nat.le_trans (cursor.calls_bytes_le size) (Nat.sub_le _ _)
  · have hsome : 0 < cursor.buffered := List.length_pos_iff.mpr hunread
    have hcalls := cursor.calls_bytes_le size
    omega

/-- A source that hands out the same chunk again and again. -/
structure Endless where
  chunk : Bytes

instance : ChunkSource Endless where
  next source := (.ok (some source.chunk), source)

/-- The first byte of two is read. -/
def endlessCursor : Cursor Endless := (Cursor.ofSource ⟨[7, 8]⟩).after [.byte]

/-- One byte is there, so a read of two takes one call of a source that has no end. The largest read
of all would need scratch storage of the largest size, and that is found in less than 60 rounds. -/
theorem reads_end_endless :
    endlessCursor.region.unread = [8] ∧
    (Request.bytes 2).returned endlessCursor = [8, 7] ∧ endlessCursor.calls [.bytes 2] = 1 ∧
    EndsWithin 59 (doublingRound maxSize) defaultScratchCapacity maxSize := by
  have hstart : Cursor.ofConfig {} (Endless.mk [7, 8]) = .ok (Cursor.ofSource ⟨[7, 8]⟩) := by rfl
  obtain ⟨_, hcalls, hloops⟩ := reads_end ((Cursor.Reached.start hstart).after [.byte])
  have hunread : endlessCursor.region.unread = [8] := by decide +kernel
  have hatMost : endlessCursor.calls [.bytes 2] ≤ 1 :=
    (hcalls 2).2 (hunread ▸ List.cons_ne_nil 8 [])
  have hcapacity : endlessCursor.capacityFor maxSize = maxSize := by decide +kernel
  have hdoubling : EndsWithin 59 (doublingRound maxSize) defaultScratchCapacity
      (endlessCursor.capacityFor maxSize) := hloops.doubling maxSize (by decide +kernel)
  rw [hcapacity] at hdoubling
  exact ⟨hunread, by decide +kernel, Nat.le_antisymm hatMost (by decide +kernel), hdoubling⟩

end Columnar
