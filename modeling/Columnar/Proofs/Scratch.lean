import Columnar.Proofs.Cursor.Growth

/-!
Scratch storage over a whole run. Its capacity is told by the sizes of the straddling reads alone,
in fact by the largest of them, whether they succeeded or not, and it is bounded by what a read
may ask for. No assembly fills more of it than its read has bytes.
-/
namespace Columnar

variable [ChunkSource σ]

namespace Cursor

/-- The sizes of the reads that straddle, in the order of the calls. -/
def straddled : List Request → Cursor σ → List Nat
  | [], _ => []
  | request :: requests, cursor =>
    (request.straddled? cursor).toList ++ straddled requests (request.run cursor).2

/-- Pulling leaves scratch storage alone. -/
theorem storage_of_pull (cursor : Cursor σ) : cursor.pull.2.scratch = cursor.scratch ∧
    cursor.pull.2.scratchCapacity = cursor.scratchCapacity := by
  rcases pull_cases cursor with ⟨chunk, source, _, _, hpull⟩ | ⟨cause, source, _, _, hpull⟩ |
    ⟨last, _, hpull⟩
  all_goals
    rw [hpull]
    exact ⟨rfl, rfl⟩

/-- The cursor when the assembly of a read begins. -/
def assembling (size : Nat) (cursor : Cursor σ) : Cursor σ :=
  { cursor with
    region := .scratch
    scratch := cursor.region.unread.reverse
    scratchCapacity := cursor.capacityFor size }

/-- An assembly that still lacks bytes goes on behind each chunk that it uses up. -/
inductive Course : (needed : Nat) → Cursor σ → (lacking : Nat) → Cursor σ → Prop where
  | start (needed : Nat) (cursor : Cursor σ) : Course needed cursor needed cursor
  | more {needed lacking : Nat} {cursor after during : Cursor σ} {chunk : Chunk}
      (hpull : cursor.pull = (.ok (some chunk), after)) (hwhole : chunk.length ≤ needed)
      (hlater : Course (needed - chunk.length)
        { after with scratch := chunk.bytes.reverseAux after.scratch } lacking during) :
      Course needed cursor lacking during

namespace Course

variable {needed lacking : Nat} {cursor during : Cursor σ}

/-- The course of an assembly is that of the loop. -/
theorem assemble_eq (size : Nat) (h : Course needed cursor lacking during) :
    assemble size needed cursor = assemble size lacking during := by
  induction h with
  | start => rfl
  | @more needed lacking cursor after during chunk hpull hwhole _ ih =>
    have hpos := chunk.length_pos
    rw [← ih, assemble, if_neg (by omega), hpull]
    exact if_neg (by omega)

/-- What is there and what is lacking are the whole read all along. -/
theorem storage (h : Course needed cursor lacking during) :
    during.scratch.length + lacking = cursor.scratch.length + needed ∧
      during.scratchCapacity = cursor.scratchCapacity := by
  induction h with
  | start => exact ⟨rfl, rfl⟩
  | @more needed lacking cursor after during chunk hpull hwhole _ ih =>
    have hkept := storage_of_pull cursor
    rw [hpull] at hkept
    rw [List.reverseAux_eq, List.length_append, List.length_reverse, Chunk.length_bytes, hkept.1,
      hkept.2] at ih
    exact ⟨by omega, ih.2⟩

end Course

/-- A read that does not straddle leaves scratch storage as it is. -/
theorem storage_of_not_straddled {request : Request} {cursor : Cursor σ}
    (h : request.straddled? cursor = none) :
    (request.run cursor).2.config = cursor.config ∧
      (request.run cursor).2.scratch = cursor.scratch ∧
      (request.run cursor).2.scratchCapacity = cursor.scratchCapacity := by
  cases request with
  | byte =>
    have hsingle := single cursor
    generalize Request.byte.run cursor = outcome at hsingle ⊢
    cases hsingle with
    | closed => exact ⟨rfl, rfl, rfl⟩
    | failed => exact ⟨rfl, rfl, rfl⟩
    | ended => exact ⟨rfl, rfl, rfl⟩
    | served =>
      exact ⟨config_refilled cursor, scratch_refilled cursor, scratchCapacity_refilled cursor⟩
  | bytes size =>
    have hstraddles : cursor.straddles size = false := by
      simpa [Request.straddled?] using h
    have hdirect := direct hstraddles
    rw [Request.run]
    generalize cursor.readBytes size = outcome at hdirect ⊢
    cases hdirect with
    | closed => exact ⟨rfl, rfl, rfl⟩
    | empty => exact ⟨rfl, rfl, rfl⟩
    | tooLarge => exact ⟨rfl, rfl, rfl⟩
    | failed => exact ⟨rfl, rfl, rfl⟩
    | ended => exact ⟨rfl, rfl, rfl⟩
    | view =>
      exact ⟨config_refilled cursor, scratch_refilled cursor, scratchCapacity_refilled cursor⟩

/-- A straddling read makes its room and fills no more of it than it has bytes. -/
theorem storage_of_straddles {size : Nat} {cursor : Cursor σ}
    (hstraddles : cursor.straddles size = true) (hroom : cursor.capacityFor size ≤ maxAllocation) :
    (cursor.readBytes size).2.config = cursor.config ∧
      (cursor.readBytes size).2.scratch.length ≤ size ∧
      (cursor.readBytes size).2.scratchCapacity = cursor.capacityFor size := by
  obtain ⟨_, _, _, hshort⟩ := straddles_iff.mp hstraddles
  have hacross := across hshort
  rw [readBytes_of_straddles hstraddles]
  rw [← capacityFor_refilled size cursor] at hroom ⊢
  rw [← config_refilled cursor]
  generalize cursor.refilled.readAcross size = outcome at hacross ⊢
  cases hacross with
  | overflow hlarge => exact absurd hlarge (Nat.not_lt.mpr hroom)
  | complete _ _ _ _ _ hsize => exact ⟨rfl, by simp [crossing, hsize], rfl⟩
  | failed _ _ _ hlack => exact ⟨rfl, by simp [crossing] at hlack ⊢; omega, rfl⟩
  | ended _ _ _ hlack => exact ⟨rfl, by simp [crossing] at hlack ⊢; omega, rfl⟩

/-- What scratch storage is after straddling reads of the given sizes. -/
structure Stored (config : DecoderConfig) (sizes : List Nat) (cursor : Cursor σ) : Prop where
  configured : cursor.config = config
  grown : Grown config.initialScratchCapacity sizes cursor.scratchCapacity
  filled : cursor.scratch.length ≤ sizes.getLast?.getD 0
  admitted : ∀ size ∈ sizes, size ≤ config.maxReadSize ∧ size ≤ 2 ^ 61

variable {config : DecoderConfig} {sizes : List Nat} {cursor : Cursor σ}

theorem Stored.run (h : Stored config sizes cursor)
    (hinitial : 0 < config.initialScratchCapacity)
    (hscratch : config.initialScratchCapacity ≤ 2 ^ 62) {request : Request}
    (hsize : request.size ≤ 2 ^ 61) :
    Stored config (sizes ++ (request.straddled? cursor).toList) (request.run cursor).2 := by
  cases hstraddled : request.straddled? cursor with
  | none =>
    obtain ⟨hconfig, hkept, hcapacity⟩ := storage_of_not_straddled hstraddled
    rw [Option.toList_none, List.append_nil]
    exact ⟨hconfig.trans h.configured, by rw [hcapacity]; exact h.grown,
      by rw [hkept]; exact h.filled, h.admitted⟩
  | some size =>
    obtain ⟨rfl, hstraddles⟩ := Request.straddled?_eq_some_iff.mp hstraddled
    obtain ⟨_, hlimit, hsome, hshort⟩ := straddles_iff.mp hstraddles
    replace hsize : size ≤ 2 ^ 61 := hsize
    obtain ⟨rfl⟩ := h.configured
    have hadmitted : ∀ other ∈ sizes ++ [size],
        other ≤ cursor.config.maxReadSize ∧ other ≤ 2 ^ 61 := by
      intro other hother
      rcases List.mem_append.mp hother with hother | hother
      · exact h.admitted other hother
      · exact List.mem_singleton.mp hother ▸ ⟨hlimit, hsize⟩
    have hgrown := h.grown.capacityFor hinitial (by omega) hsize
    have hroom : cursor.capacityFor size ≤ maxAllocation := by
      have hle := hgrown.le_max fun other hother => (hadmitted other hother).2
      rw [maxAllocation]
      omega
    obtain ⟨hconfig, hfilled, hcapacity⟩ := storage_of_straddles hstraddles hroom
    rw [Option.toList_some]
    refine ⟨hconfig, by rw [Request.run, hcapacity]; exact hgrown, ?_, hadmitted⟩
    rw [List.getLast?_concat]
    exact hfilled

/-- What a run leaves depends on the sizes of its straddling reads alone. -/
theorem Stored.after (h : Stored config sizes cursor)
    (hinitial : 0 < config.initialScratchCapacity)
    (hscratch : config.initialScratchCapacity ≤ 2 ^ 62) (requests : List Request)
    (hsizes : ∀ request ∈ requests, request.size ≤ 2 ^ 61) :
    Stored config (sizes ++ cursor.straddled requests) (cursor.after requests) := by
  induction requests generalizing sizes cursor with
  | nil =>
    rw [straddled, List.append_nil]
    exact h
  | cons request requests ih =>
    rw [List.forall_mem_cons] at hsizes
    have hfirst := h.run hinitial hscratch hsizes.1
    rw [straddled, ← List.append_assoc, Cursor.after]
    exact ih hfirst hsizes.2

end Cursor

/-- What the capacity of scratch storage is after straddling reads of the given sizes, and what
follows from that. -/
structure GrowthLaw (config : DecoderConfig) (sizes : List Nat) (capacity : Nat) : Prop where
  unused : sizes = [] → capacity = 0
  closedForm : ∀ largest, sizes.max? = some largest →
    LeastDoubling config.initialScratchCapacity (2 * largest) capacity
  powerOfTwo : sizes ≠ [] → capacity.isPowerOfTwo
  last : ∀ size, sizes.getLast? = some size → 2 * size ≤ capacity
  bounded : capacity ≤ max config.initialScratchCapacity (4 * config.maxReadSize - 1)

namespace Cursor

variable {config : DecoderConfig}

omit [ChunkSource σ] in
theorem Stored.growthLaw {sizes : List Nat} {cursor : Cursor σ} (h : Stored config sizes cursor)
    (hinitial : config.initialScratchCapacity.isPowerOfTwo) :
    GrowthLaw config sizes cursor.scratchCapacity where
  unused := h.grown.unused
  closedForm := h.grown.used
  powerOfTwo hsome := by
    cases hlargest : sizes.max? with
    | none => exact absurd (List.max?_eq_none_iff.mp hlargest) hsome
    | some largest => exact (h.grown.used largest hlargest).isPowerOfTwo hinitial
  last _ hlast := h.grown.twice_le (List.mem_of_getLast? hlast)
  bounded := h.grown.le_max fun size hsize => (h.admitted size hsize).1

/-- A run of a new cursor. -/
theorem stored_of_ofConfig {source : σ} {start : Cursor σ}
    (hstart : ofConfig config source = .ok start)
    (hscratch : config.initialScratchCapacity ≤ 2 ^ 62) {requests : List Request}
    (hsizes : ∀ request ∈ requests, request.size ≤ 2 ^ 61) :
    Stored config (start.straddled requests) (start.after requests) := by
  obtain ⟨hvalid, rfl⟩ := ofConfig_eq_ok_iff.mp hstart
  have hinitial := ((DecoderConfig.validate_eq_ok_iff config).mp hvalid).1.1
  rw [minScratchCapacity] at hinitial
  have hnew : Stored config [] ({ source, config } : Cursor σ) :=
    ⟨rfl, ⟨fun _ => rfl, fun _ hlargest => nomatch hlargest⟩, Nat.le_refl 0,
      fun _ hsize => nomatch hsize⟩
  exact hnew.after (by omega) hscratch requests hsizes

/-- While a read is assembled there is room for twice what it asks for, and it fills no more than
half of that. -/
theorem Stored.course {sizes : List Nat} {cursor during : Cursor σ} {size lacking : Nat}
    (h : Stored config sizes cursor) (hinitial : 0 < config.initialScratchCapacity)
    (hstraddles : cursor.straddles size = true) (hsize : size ≤ 2 ^ 61)
    (hcourse : Course (size - cursor.refilled.buffered) (cursor.refilled.assembling size) lacking
      during) : during.scratch.length + lacking = size ∧ 2 * size ≤ during.scratchCapacity := by
  obtain ⟨_, _, _, hshort⟩ := straddles_iff.mp hstraddles
  obtain ⟨hlength, hcapacity⟩ := hcourse.storage
  obtain ⟨rfl⟩ := h.configured
  have hgrown := h.grown.capacityFor hinitial (by omega) hsize
  have htwice := hgrown.twice_le (List.mem_append_right sizes (List.mem_singleton_self size))
  simp only [assembling, capacityFor_refilled, List.length_reverse] at hlength hcapacity
  rw [buffered] at hlength hshort
  exact ⟨by omega, by rw [hcapacity]; exact htwice⟩

end Cursor

/-- Scratch storage has the room that the largest straddling read so far needs, whatever the order
and the number of the reads and whether they succeeded. It never shrinks, and no assembly outgrows
it. -/
theorem scratch_grows_with_largest {config : DecoderConfig} {source : σ} {start : Cursor σ}
    (hstart : Cursor.ofConfig config source = .ok start)
    (hscratch : config.initialScratchCapacity ≤ 2 ^ 62) (requests : List Request)
    (hsizes : ∀ request ∈ requests, request.size ≤ 2 ^ 61) :
    GrowthLaw config (start.straddled requests) (start.after requests).scratchCapacity ∧
    (∀ later : List Request, (∀ request ∈ later, request.size ≤ 2 ^ 61) →
      (start.after requests).scratchCapacity ≤
        ((start.after requests).after later).scratchCapacity) ∧
    (∀ (τ : Type) [ChunkSource τ] (config' : DecoderConfig) (source' : τ) (start' : Cursor τ)
        (requests' : List Request), Cursor.ofConfig config' source' = .ok start' →
      config'.initialScratchCapacity = config.initialScratchCapacity →
      (∀ request ∈ requests', request.size ≤ 2 ^ 61) →
      (start'.straddled requests').max? = (start.straddled requests).max? →
      (start'.after requests').scratchCapacity = (start.after requests).scratchCapacity) ∧
    (start.after requests).scratch.length ≤ (start.straddled requests).getLast?.getD 0 ∧
    ∀ (size lacking : Nat) (during : Cursor σ), (start.after requests).straddles size = true →
      size ≤ 2 ^ 61 →
      Cursor.Course (size - (start.after requests).refilled.buffered)
        ((start.after requests).refilled.assembling size) lacking during →
      Cursor.assemble size (size - (start.after requests).refilled.buffered)
          ((start.after requests).refilled.assembling size) =
        Cursor.assemble size lacking during ∧
      during.scratch.length + lacking = size ∧ 2 * size ≤ during.scratchCapacity := by
  have hvalid := (Cursor.ofConfig_eq_ok_iff.mp hstart).1
  obtain ⟨⟨hmin, hpower⟩, _⟩ := (DecoderConfig.validate_eq_ok_iff config).mp hvalid
  have hinitial : 0 < config.initialScratchCapacity := by
    rw [minScratchCapacity] at hmin
    omega
  have hstored := Cursor.stored_of_ofConfig hstart hscratch hsizes
  refine ⟨hstored.growthLaw hpower, ?_, ?_, hstored.filled, ?_⟩
  · intro later hlater
    exact hstored.grown.mono (hstored.after hinitial hscratch later hlater).grown
  · intro τ _ config' source' start' requests' hstart' hsame hsizes' hlargest
    have hgrown' := (Cursor.stored_of_ofConfig hstart' (hsame ▸ hscratch) hsizes').grown
    rw [hsame] at hgrown'
    exact hgrown'.unique hstored.grown hlargest
  · intro size lacking during hstraddles hsize hcourse
    exact ⟨hcourse.assemble_eq size, hstored.course hinitial hstraddles hsize hcourse⟩

def tightConfig : DecoderConfig where
  initialScratchCapacity := 64

def straddledChunks : List Bytes := [[1], [2], List.replicate 40 0]

/-- Two bytes from two chunks, then a read that takes a whole chunk and lacks the next. -/
def straddlingReads : List Request := [.bytes 2, .bytes 41]

/-- The second read fails, and the capacity that the first one left is doubled for it all the
same. -/
theorem scratch_grows_with_largest_failing :
    ∃ start, Cursor.ofConfig tightConfig straddledChunks = .ok start ∧
      (start.after straddlingReads).position = 2 ∧
      (start.after straddlingReads).scratchCapacity = 128 ∧ GrowthLaw tightConfig [2, 41] 128 := by
  have hstart : Cursor.ofConfig tightConfig straddledChunks =
      .ok { source := straddledChunks, config := tightConfig } := by rfl
  have hsizes : ∀ request ∈ straddlingReads, request.size ≤ 2 ^ 61 := by decide
  have hlaw := (scratch_grows_with_largest hstart (by decide) straddlingReads hsizes).1
  refine ⟨_, hstart, by decide +kernel, by decide +kernel, ?_⟩
  generalize hcursor : ({ source := straddledChunks, config := tightConfig } :
    Cursor (List Bytes)) = start at hlaw
  have hstraddled : start.straddled straddlingReads = [2, 41] := by
    rw [← hcursor]
    decide +kernel
  have hcapacity : (start.after straddlingReads).scratchCapacity = 128 := by
    rw [← hcursor]
    decide +kernel
  rw [hstraddled, hcapacity] at hlaw
  exact hlaw

end Columnar
