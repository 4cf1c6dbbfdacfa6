import Columnar.Proofs.Cursor.Offers

/-!
The same reads under two configurations. The size of a read meets a configuration in two places
only, the limit on one read and the room that scratch storage has or makes. Where both
configurations let a read pass these two, two cursors that differ in nothing else answer it alike
and differ in nothing else behind it.
-/
namespace Columnar

/-- Both fail in the same way, or both give values, and these are related. -/
inductive Paired (Related : α → β → Prop) : Except Fault α → Except Fault β → Prop where
  | error (fault : Fault) : Paired Related (.error fault) (.error fault)
  | ok {value : α} {value' : β} (h : Related value value') :
      Paired Related (.ok value) (.ok value')

namespace Paired

theorem mono {Related Weaker : α → β → Prop} {result : Except Fault α} {result' : Except Fault β}
    (hweaker : ∀ {value value'}, Related value value' → Weaker value value')
    (h : Paired Related result result') : Paired Weaker result result' := by
  cases h with
  | error fault => exact .error fault
  | ok hvalue => exact .ok (hweaker hvalue)

theorem of_eq {result result' : Except Fault α} (h : result = result') :
    Paired Eq result result' := by
  subst h
  cases result with
  | error fault => exact .error fault
  | ok value => exact .ok rfl

theorem eq {result result' : Except Fault α} (h : Paired Eq result result') :
    result = result' := by
  cases h with
  | error => rfl
  | ok hvalue => rw [hvalue]

end Paired

/-- Both configurations treat a read of this size alike. -/
structure DecoderConfig.AlikeFor (config config' : DecoderConfig) (size : Nat) : Prop where
  limit : config.maxReadSize = config'.maxReadSize ∨
    size ≤ config.maxReadSize ∧ size ≤ config'.maxReadSize
  room : config.initialScratchCapacity = config'.initialScratchCapacity ∨
    config.initialScratchCapacity ≤ 2 ^ 62 ∧ config'.initialScratchCapacity ≤ 2 ^ 62 ∧
      size ≤ 2 ^ 61

namespace Cursor

/-- The same cursor under another configuration. -/
def under (config : DecoderConfig) (cursor : Cursor σ) : Cursor σ := { cursor with config }

/-- The same cursor under another configuration, with scratch storage of another size. -/
def refit (config : DecoderConfig) (capacity : Nat) (cursor : Cursor σ) : Cursor σ :=
  { cursor.under config with scratchCapacity := capacity }

/-- The second cursor is the first under another configuration. Scratch storage may have another
size if it is to start from another. -/
structure Refitted (config config' : DecoderConfig) (cursor cursor' : Cursor σ) : Prop where
  configured : cursor.config = config
  same : cursor' = cursor.refit config' cursor'.scratchCapacity
  room : cursor.scratchCapacity ≤ maxAllocation ∧ cursor'.scratchCapacity ≤ maxAllocation
  capacity : config.initialScratchCapacity = config'.initialScratchCapacity →
    cursor'.scratchCapacity = cursor.scratchCapacity

/-- What two cursors answer, and where it leaves them. -/
structure InStep (config config' : DecoderConfig) (Related : α → β → Prop)
    (outcome : Outcome (Cursor σ) α) (outcome' : Outcome (Cursor σ) β) : Prop where
  result : Paired Related outcome.1 outcome'.1
  state : Refitted config config' outcome.2 outcome'.2

variable [ChunkSource σ] {config config' : DecoderConfig} {cursor cursor' : Cursor σ}
  {capacity size : Nat}

omit [ChunkSource σ] in
theorem refitted_ofConfig {source : σ} {start start' : Cursor σ}
    (hstart : ofConfig config source = .ok start)
    (hstart' : ofConfig config' source = .ok start') : Refitted config config' start start' := by
  obtain ⟨_, rfl⟩ := ofConfig_eq_ok_iff.mp hstart
  obtain ⟨_, rfl⟩ := ofConfig_eq_ok_iff.mp hstart'
  exact ⟨rfl, rfl, ⟨Nat.zero_le _, Nat.zero_le _⟩, fun _ => rfl⟩

omit [ChunkSource σ] in
/-- Only the configuration differs if scratch storage starts from the same size. -/
theorem Refitted.eq_of_initial (h : Refitted config config' cursor cursor')
    (hinitial : config.initialScratchCapacity = config'.initialScratchCapacity) :
    cursor' = cursor.under config' := by
  rw [h.same, h.capacity hinitial]
  rfl

theorem pull_refit (config : DecoderConfig) (capacity : Nat) (cursor : Cursor σ) :
    (cursor.refit config capacity).pull = cursor.pull.map id (refit config capacity) := by
  by_cases hopen : cursor.exhausted = true
  · have hrefit : (cursor.refit config capacity).exhausted = true := hopen
    rw [pull_of_exhausted hrefit, pull_of_exhausted hopen]
    rfl
  · have hrefit : ¬ (cursor.refit config capacity).exhausted = true := hopen
    have hsource : (cursor.refit config capacity).source = cursor.source := rfl
    rw [pull, pull, if_neg hopen, if_neg hrefit, hsource]
    rcases ChunkSource.next cursor.source with ⟨cause | _ | _ | ⟨head, tail⟩, source⟩
    all_goals rfl

theorem assemble_refit (config : DecoderConfig) (capacity size needed : Nat) (cursor : Cursor σ) :
    assemble size needed (cursor.refit config capacity) =
      (assemble size needed cursor).map id (refit config capacity) := by
  induction needed using Nat.strongRecOn generalizing cursor with
  | ind needed ih =>
    rw [assemble, assemble]
    by_cases hzero : needed = 0
    · rw [if_pos hzero, if_pos hzero]
      rfl
    · rw [if_neg hzero, if_neg hzero, pull_refit]
      rcases cursor.pull with ⟨cause | _ | chunk, after⟩
      · rfl
      · rfl
      · simp only [Prod.map_apply, id_eq]
        by_cases hlast : needed < chunk.length
        · rw [if_pos hlast, if_pos hlast]
          rfl
        · rw [if_neg hlast, if_neg hlast]
          exact ih _ (by have := chunk.length_pos; omega)
            { after with scratch := chunk.bytes.reverseAux after.scratch }

namespace Refitted

omit [ChunkSource σ] in
theorem config_eq (h : Refitted config config' cursor cursor') : cursor'.config = config' := by
  rw [h.same]
  rfl

omit [ChunkSource σ] in
theorem region_eq (h : Refitted config config' cursor cursor') :
    cursor'.region = cursor.region := by
  rw [h.same]
  rfl

omit [ChunkSource σ] in
theorem closed_eq (h : Refitted config config' cursor cursor') :
    cursor'.closed = cursor.closed := by
  rw [h.same]
  rfl

omit [ChunkSource σ] in
/-- A change that leaves configuration and capacity alone is the same on both sides. -/
theorem change (h : Refitted config config' cursor cursor') (change : Cursor σ → Cursor σ)
    (hrefit : ∀ (config : DecoderConfig) (capacity : Nat) (cursor : Cursor σ),
      change (cursor.refit config capacity) = (change cursor).refit config capacity) :
    Refitted config config' (change cursor) (change cursor') := by
  have hself : change cursor = (change cursor).refit cursor.config cursor.scratchCapacity :=
    hrefit cursor.config cursor.scratchCapacity cursor
  have hother : change cursor' = (change cursor).refit config' cursor'.scratchCapacity := by
    rw [← hrefit, ← h.same]
  have hconfig : (change cursor).config = cursor.config :=
    congrArg (fun after => after.config) hself
  have hcapacity : (change cursor).scratchCapacity = cursor.scratchCapacity :=
    congrArg (fun after => after.scratchCapacity) hself
  have hcapacity' : (change cursor').scratchCapacity = cursor'.scratchCapacity :=
    congrArg (fun after => after.scratchCapacity) hother
  refine ⟨hconfig.trans h.configured, ?_, ?_, ?_⟩
  · rw [hcapacity']
    exact hother
  · rw [hcapacity, hcapacity']
    exact h.room
  · rw [hcapacity, hcapacity']
    exact h.capacity

theorem pull (h : Refitted config config' cursor cursor') :
    cursor'.pull.1 = cursor.pull.1 ∧ Refitted config config' cursor.pull.2 cursor'.pull.2 := by
  refine ⟨?_, h.change (fun cursor => cursor.pull.2) fun config capacity cursor => ?_⟩
  · rw [h.same, pull_refit]
    rfl
  · rw [pull_refit]
    rfl

theorem assemble (size needed : Nat) (h : Refitted config config' cursor cursor') :
    (Cursor.assemble size needed cursor').1 = (Cursor.assemble size needed cursor).1 ∧
      Refitted config config' (Cursor.assemble size needed cursor).2
        (Cursor.assemble size needed cursor').2 := by
  refine ⟨?_, h.change (fun cursor => (Cursor.assemble size needed cursor).2)
    fun config capacity cursor => ?_⟩
  · rw [h.same, assemble_refit]
    rfl
  · rw [assemble_refit]
    rfl

omit [ChunkSource σ] in
theorem capacityFor_eq (h : Refitted config config' cursor cursor')
    (hinitial : config.initialScratchCapacity = config'.initialScratchCapacity) :
    cursor'.capacityFor size = cursor.capacityFor size := by
  simp only [capacityFor, h.config_eq, h.configured, h.capacity hinitial, hinitial]

omit [ChunkSource σ] in
/-- One finds no room for a read only if the other does. -/
theorem overflows_iff (h : Refitted config config' cursor cursor')
    (halike : config.AlikeFor config' size) :
    maxAllocation < cursor'.capacityFor size ↔ maxAllocation < cursor.capacityFor size := by
  rcases halike.room with hinitial | ⟨hinitial, hinitial', hsize⟩
  · rw [h.capacityFor_eq hinitial]
  · have hroom := capacityFor_le hsize (h.configured ▸ hinitial) h.room.1
    have hroom' := capacityFor_le hsize (h.config_eq ▸ hinitial') h.room.2
    exact ⟨fun hover => absurd hroom' (Nat.not_le.mpr hover),
      fun hover => absurd hroom (Nat.not_le.mpr hover)⟩

theorem readAcross (h : Refitted config config' cursor cursor')
    (halike : config.AlikeFor config' size) :
    InStep config config' Eq (cursor.readAcross size) (cursor'.readAcross size) := by
  have hover := h.overflows_iff halike
  by_cases hlarge : maxAllocation < cursor.capacityFor size
  · simp only [Cursor.readAcross, if_pos hlarge, if_pos (hover.mpr hlarge)]
    exact ⟨.error _, h.change (fun cursor => { cursor with scratch := [] }) fun _ _ _ => rfl⟩
  · have hlarge' : ¬ maxAllocation < cursor'.capacityFor size := fun hlarge' =>
      hlarge (hover.mp hlarge')
    simp only [Cursor.readAcross, if_neg hlarge, if_neg hlarge']
    have hbegin : Refitted config config'
        { cursor with
          region := .scratch
          scratch := cursor.region.unread.reverse
          scratchCapacity := cursor.capacityFor size }
        { cursor' with
          region := .scratch
          scratch := cursor'.region.unread.reverse
          scratchCapacity := cursor'.capacityFor size } := by
      refine ⟨h.configured, ?_, ⟨Nat.not_lt.mp hlarge, Nat.not_lt.mp hlarge'⟩, h.capacityFor_eq⟩
      rw [h.same]
      rfl
    rw [h.region_eq] at hbegin ⊢
    obtain ⟨hresult, hafter⟩ := hbegin.assemble size (size - cursor.region.unread.length)
    rcases hfirst : Cursor.assemble size (size - cursor.region.unread.length)
        { cursor with
          region := .scratch
          scratch := cursor.region.unread.reverse
          scratchCapacity := cursor.capacityFor size } with ⟨result, after⟩
    rcases hsecond : Cursor.assemble size (size - cursor.region.unread.length)
        { cursor' with
          region := .scratch
          scratch := cursor.region.unread.reverse
          scratchCapacity := cursor'.capacityFor size } with ⟨result', after'⟩
    rw [hfirst, hsecond] at hresult hafter
    obtain rfl : result' = result := hresult
    replace hafter : Refitted config config' after after' := hafter
    cases result' with
    | error cause => exact ⟨.error _, hafter⟩
    | ok =>
      refine ⟨.ok ?_, hafter.change (fun after =>
        { after with
          counters :=
            { after.counters with
              bytesConsumed := after.counters.bytesConsumed + size
              scratchReads := after.counters.scratchReads + 1 } }) fun _ _ _ => rfl⟩
      have hscratch : after'.scratch = after.scratch := by
        rw [hafter.same]
        rfl
      rw [hscratch]

theorem readBuffered (h : Refitted config config' cursor cursor')
    (halike : config.AlikeFor config' size) :
    InStep config config' Eq (cursor.readBuffered size) (cursor'.readBuffered size) := by
  rw [Cursor.readBuffered, Cursor.readBuffered, h.region_eq]
  cases cursor.region.unread.split? size with
  | none => exact h.readAcross halike
  | some view => exact ⟨.ok rfl, h.change (serveView size view.2) fun _ _ _ => rfl⟩

theorem readBytes (h : Refitted config config' cursor cursor')
    (halike : config.AlikeFor config' size) :
    InStep config config' Eq (cursor.readBytes size) (cursor'.readBytes size) := by
  obtain ⟨hpull, hpulled⟩ := h.pull
  rw [Cursor.readBytes, Cursor.readBytes, h.closed_eq, h.region_eq, h.config_eq, h.configured]
  by_cases hclosed : cursor.closed = true
  · rw [if_pos hclosed, if_pos hclosed]
    exact ⟨.error _, h⟩
  rw [if_neg hclosed, if_neg hclosed]
  by_cases hzero : size = 0
  · rw [if_pos hzero, if_pos hzero]
    exact ⟨.ok rfl, h⟩
  rw [if_neg hzero, if_neg hzero]
  by_cases hlimit : config.maxReadSize < size
  · have hsame : config.maxReadSize = config'.maxReadSize :=
      halike.limit.resolve_right fun hfits => absurd hfits.1 (Nat.not_le.mpr hlimit)
    rw [← hsame, if_pos hlimit, if_pos hlimit]
    exact ⟨.error _, h⟩
  have hlimit' : ¬ config'.maxReadSize < size := by
    rcases halike.limit with hsame | hfits
    · rw [← hsame]
      exact hlimit
    · exact Nat.not_lt.mpr hfits.2
  rw [if_neg hlimit, if_neg hlimit']
  by_cases hspent : cursor.region.unread.isEmpty
  · rw [if_pos hspent, if_pos hspent]
    generalize cursor.pull = pulled, cursor'.pull = pulled' at hpull hpulled ⊢
    obtain ⟨answer, after⟩ := pulled
    obtain ⟨answer', after'⟩ := pulled'
    obtain rfl : answer' = answer := hpull
    rcases answer' with cause | _ | chunk
    · exact ⟨.error _, hpulled⟩
    · exact ⟨.error _, hpulled⟩
    · exact (hpulled.change (enter chunk) fun _ _ _ => rfl).readBuffered halike
  · rw [if_neg hspent, if_neg hspent]
    exact h.readBuffered halike

theorem readByte (h : Refitted config config' cursor cursor') :
    InStep config config' Eq cursor.readByte cursor'.readByte := by
  obtain ⟨hpull, hpulled⟩ := h.pull
  rw [Cursor.readByte, Cursor.readByte, h.closed_eq, h.region_eq]
  by_cases hclosed : cursor.closed = true
  · rw [if_pos hclosed, if_pos hclosed]
    exact ⟨.error _, h⟩
  rw [if_neg hclosed, if_neg hclosed]
  cases cursor.region.unread with
  | cons byte rest => exact ⟨.ok rfl, h.change (serveByte rest) fun _ _ _ => rfl⟩
  | nil =>
    generalize cursor.pull = pulled, cursor'.pull = pulled' at hpull hpulled ⊢
    obtain ⟨answer, after⟩ := pulled
    obtain ⟨answer', after'⟩ := pulled'
    obtain rfl : answer' = answer := hpull
    rcases answer' with cause | _ | chunk
    · exact ⟨.error _, hpulled⟩
    · exact ⟨.error _, hpulled⟩
    · exact ⟨.ok rfl, hpulled.change (fun after => (after.enter chunk).serveByte chunk.tail)
        fun _ _ _ => rfl⟩

/-- Both cursors answer a read alike that both configurations treat alike. -/
theorem run (h : Refitted config config' cursor cursor') (request : Request)
    (halike : ∀ size, request = .bytes size → config.AlikeFor config' size) :
    InStep config config' Eq (request.run cursor) (request.run cursor') := by
  cases request with
  | bytes size => exact h.readBytes (halike size rfl)
  | byte =>
    obtain ⟨hresult, hstate⟩ := h.readByte
    refine ⟨.of_eq ?_, hstate⟩
    rw [Request.run, Request.run, Prod.map_fst, Prod.map_fst, hresult.eq]

end Refitted

end Cursor

end Columnar
