import Columnar.Proofs.Cursor.Abreast
import Columnar.Proofs.Cursor.Placing

/-!
The path of a read is told by the chunks of the stream. As long as no assembly fails, a read of
several bytes is served from a chunk if one chunk has them all, and is assembled otherwise, however
the reads before it went. So one chunk alone needs no scratch storage, and larger chunks need no
more of it.
-/
namespace Columnar

namespace Cursor

variable [ChunkSource σ]

/-- What a read counts, if the chunks of the stream are these. -/
structure PathLaw (chunks : List Chunk) (cursor : Cursor σ) (request : Request) : Prop where
  failed : ∀ fault, (request.run cursor).1 = .error fault →
    Gains cursor.counters (request.run cursor).2.counters 0 0 0
  empty : request.size = 0 → Gains cursor.counters (request.run cursor).2.counters 0 0 0
  byte : ∀ bytes, request = .byte → (request.run cursor).1 = .ok bytes →
    Gains cursor.counters (request.run cursor).2.counters 1 0 0
  view : ∀ size bytes, request = .bytes size → 0 < size → (request.run cursor).1 = .ok bytes →
    Span.InOneChunk chunks ⟨cursor.position, size⟩ →
    Gains cursor.counters (request.run cursor).2.counters size 1 0
  assembled : ∀ size bytes, request = .bytes size → 0 < size →
    (request.run cursor).1 = .ok bytes → ¬ Span.InOneChunk chunks ⟨cursor.position, size⟩ →
    Gains cursor.counters (request.run cursor).2.counters size 0 1

variable {config : DecoderConfig} {source : σ} {start : Cursor σ} {requests : List Request}
  {request : Request} {size calls : Nat} {bytes : Bytes}

omit [ChunkSource σ] in
theorem placed_of_ofConfig (hstart : ofConfig config source = .ok start) :
    start.recorded.Placed := by
  obtain ⟨_, rfl⟩ := ofConfig_eq_ok_iff.mp hstart
  exact ⟨rfl, fun _ hchunk => by cases hchunk⟩

theorem prefix_pulled (hstart : ofConfig config source = .ok start)
    (hcalls : start.calls requests ≤ calls) :
    start.pulled requests <+: ChunkSource.beforeEnd calls source := by
  obtain ⟨_, rfl⟩ := ofConfig_eq_ok_iff.mp hstart
  rw [pulled_eq rfl rfl]
  exact ChunkSource.prefix_beforeEnd hcalls source

/-- The path of the next read, if it succeeds. -/
theorem straddles_iff_span (hstart : ofConfig config source = .ok start)
    (hintact : start.Intact requests)
    (hcalls : start.calls (requests ++ [.bytes size]) ≤ calls) (hsize : 0 < size)
    (hserved : ((start.after requests).readBytes size).1 = .ok bytes) :
    (start.after requests).straddles size = false ↔
      Span.InOneChunk (ChunkSource.beforeEnd calls source)
        ⟨(start.after requests).position, size⟩ := by
  have hafter := after_mapSource Recorded.follows_source requests start.recorded
  rw [mapSource_recorded] at hafter
  have hrecorded := (intact_mapSource Recorded.follows_source requests start.recorded).mp hintact
  have hplaced := (placed_of_ofConfig hstart).after hrecorded
  have hchunks := prefix_pulled hstart hcalls
  rw [pulled, after_append] at hchunks
  rw [hafter, readBytes_mapSource Recorded.follows_source] at hserved
  rw [hafter, straddles_mapSource Recorded.follows_source]
  exact hplaced.straddles_iff_span hsize hserved hchunks

theorem pathLaw (hstart : ofConfig config source = .ok start) (hintact : start.Intact requests)
    (hcalls : start.calls (requests ++ [request]) ≤ calls) :
    PathLaw (ChunkSource.beforeEnd calls source) (start.after requests) request where
  failed _ hfails := gains_of_fails hfails
  empty hzero := by
    cases request with
    | byte => cases hzero
    | bytes size =>
      obtain rfl : size = 0 := hzero
      rw [run_bytes_zero]
      exact .none _
  byte _ hrequest hserved := by
    subst hrequest
    exact gains_of_byte hserved
  view size _ hrequest hsize hserved hone := by
    subst hrequest
    exact gains_of_view hsize ((straddles_iff_span hstart hintact hcalls hsize hserved).mpr hone)
      hserved
  assembled size _ hrequest hsize hserved hmany := by
    subst hrequest
    have hstraddles := mt (straddles_iff_span hstart hintact hcalls hsize hserved).mp hmany
    exact gains_of_straddles (by simpa using hstraddles) hserved

/-- Over at most one chunk no read straddles. -/
theorem Placed.straddled_eq_nil {cursor : Cursor (Recorded σ)} (h : cursor.Placed)
    (hintact : cursor.Intact requests)
    (hsingle : (cursor.after requests).source.chunks.length ≤ 1) :
    cursor.straddled requests = [] := by
  induction requests generalizing cursor with
  | nil => rfl
  | cons request requests ih =>
    rw [straddled, ih (h.run hintact.1) hintact.2 hsingle, List.append_nil]
    cases hstraddled : request.straddled? cursor with
    | none => rfl
    | some size =>
      exfalso
      obtain ⟨bytes, hserved⟩ := hintact.1 size hstraddled
      obtain ⟨rfl, hstraddles⟩ := Request.straddled?_eq_some_iff.mp hstraddled
      obtain ⟨_, _, hsome, hshort⟩ := straddles_iff.mp hstraddles
      have hsize : 0 < size := by omega
      have htotal := (h.run hintact.1).total
      have hposition : (Request.run (.bytes size) cursor).2.position = cursor.position + size :=
        (gains_of_straddles hstraddles hserved).bytesConsumed
      have hpulled := (prefix_chunks_after requests _).length_le.trans hsingle
      have hone : Span.InOneChunk (Request.run (.bytes size) cursor).2.source.chunks
          ⟨cursor.position, size⟩ :=
        Span.inOneChunk_of_single hpulled hsize (by simp only; omega)
      have hdirect := (h.straddles_iff_span hsize hserved (List.prefix_refl _)).mpr hone
      rw [hstraddles] at hdirect
      cases hdirect

end Cursor

/-- As long as no assembly fails, a successful read of several bytes is counted as a view if one
chunk has all of its bytes, and as assembled otherwise; the counters tell the successful reads and
their bytes, and nothing else counts. So reads over one chunk alone leave scratch storage unused,
and over a source with some of the chunks merged the same reads use no more of it. -/
theorem read_paths_follow_chunks [ChunkSource σ] {config : DecoderConfig} {source : σ}
    {start : Cursor σ} (hstart : Cursor.ofConfig config source = .ok start)
    (hscratch : config.initialScratchCapacity ≤ 2 ^ 62) {requests : List Request}
    (hsizes : ∀ request ∈ requests, request.size ≤ 2 ^ 61)
    (hunbroken : start.unbroken requests = true) :
    (∀ request calls, start.calls (requests ++ [request]) ≤ calls →
      Cursor.PathLaw (ChunkSource.beforeEnd calls source) (start.after requests) request) ∧
    ((start.after requests).counters.zeroCopyReads + (start.after requests).counters.scratchReads =
        (start.spans requests).length ∧
      (start.after requests).counters.bytesConsumed =
        ((start.spans requests).map Span.size).sum + start.singles requests) ∧
    (∀ calls, start.calls requests ≤ calls →
      (ChunkSource.beforeEnd calls source).length ≤ 1 →
      start.straddled requests = [] ∧ (start.after requests).counters.scratchReads = 0 ∧
        (start.after requests).scratchCapacity = 0 ∧ (start.after requests).scratch = []) ∧
    ∀ (τ : Type) [ChunkSource τ] (source' : τ) (start' : Cursor τ), Merged source source' →
      Cursor.ofConfig config source' = .ok start' →
      (start'.after requests).counters.scratchReads ≤
          (start.after requests).counters.scratchReads ∧
        (start'.after requests).scratchCapacity ≤ (start.after requests).scratchCapacity := by
  have hintact := Cursor.intact_of_ofConfig hstart hscratch hsizes hunbroken
  have hstored := Cursor.stored_of_ofConfig hstart hscratch hsizes
  have hfresh := Cursor.counters_of_ofConfig hstart
  have hassembled := hintact.scratchReads_after
  rw [hfresh, Nat.zero_add] at hassembled
  refine ⟨fun request calls => Cursor.pathLaw hstart hintact, ?totals, ?single, ?merged⟩
  case totals =>
    obtain ⟨hbytes, hreads⟩ := Cursor.tally_after requests start
    rw [hfresh] at hbytes hreads
    exact ⟨by simpa using hreads, by simpa using hbytes⟩
  case single =>
    intro calls hcalls hsingle
    have hrecorded :=
      (Cursor.intact_mapSource Recorded.follows_source requests start.recorded).mp hintact
    have hpulled := (Cursor.prefix_pulled hstart hcalls).length_le.trans hsingle
    have hnone := (Cursor.placed_of_ofConfig hstart).straddled_eq_nil hrecorded hpulled
    rw [← Cursor.straddled_mapSource Recorded.follows_source, Cursor.mapSource_recorded] at hnone
    rw [hnone] at hassembled hstored
    exact ⟨hnone, hassembled, hstored.grown.unused rfl,
      List.length_eq_zero_iff.mp (Nat.le_zero.mp hstored.filled)⟩
  case merged =>
    intro τ _ source' start' hmerged hstart'
    have hstored' := Cursor.stored_of_ofConfig hstart' hscratch hsizes
    have hfewer := Cursor.straddled_of_merged hmerged hstart hstart' hscratch hsizes hintact
    refine ⟨?_, hstored'.grown.le_of_subset hstored.grown hfewer.subset⟩
    have hle := Cursor.scratchReads_after_le requests start'
    rw [Cursor.counters_of_ofConfig hstart', Nat.zero_add] at hle
    rw [hassembled]
    exact hle.trans hfewer.length_le

/-- Four chunks that are merged two by two. -/
def chunkPairs : List (List Chunk) := [[⟨1, [2]⟩, ⟨3, []⟩], [⟨4, [5, 6]⟩, ⟨7, []⟩]]

def pairedChunks : List Bytes := chunkPairs.flatten.map Chunk.bytes

/-- A read up to a boundary, one across the next boundary, and a single byte. -/
def boundaryReads : List Request := [.bytes 2, .bytes 2, .byte]

/-- The next read takes the last byte of the third chunk and the only one of the fourth. Over the
pairs the reads need no more scratch storage, and over the first pair alone they need none. -/
theorem read_paths_follow_chunks_paired :
    Gains ((Cursor.ofSource pairedChunks).after boundaryReads).counters
      (Request.run (.bytes 2) ((Cursor.ofSource pairedChunks).after boundaryReads)).2.counters
      2 0 1 ∧
    ((Cursor.ofSource pairedChunks).after boundaryReads).counters.bytesConsumed = 5 ∧
    ((Cursor.ofSource (chunkPairs.map joined)).after boundaryReads).counters.scratchReads ≤ 1 ∧
    ((Cursor.ofSource ((chunkPairs.map joined).take 1)).after
      [.byte, .bytes 2]).scratchCapacity = 0 := by
  have hstart : Cursor.ofConfig {} pairedChunks = .ok (Cursor.ofSource pairedChunks) := by rfl
  have hlaw := read_paths_follow_chunks hstart (by decide)
    (by decide : ∀ request ∈ boundaryReads, request.size ≤ 2 ^ 61) (by decide +kernel)
  have hsingle : Cursor.ofConfig {} ((chunkPairs.map joined).take 1) =
      .ok (Cursor.ofSource ((chunkPairs.map joined).take 1)) := by rfl
  have hone := read_paths_follow_chunks hsingle (by decide)
    (by decide : ∀ request ∈ [Request.byte, .bytes 2], request.size ≤ 2 ^ 61) (by decide +kernel)
  refine ⟨?_, ?_, ?_, ?_⟩
  · have hpath := hlaw.1 (.bytes 2) 4 (by decide +kernel)
    have hserved : (Request.run (.bytes 2) ((Cursor.ofSource pairedChunks).after boundaryReads)).1 =
        .ok [6, 7] := by
      decide +kernel
    exact hpath.assembled 2 [6, 7] rfl (by decide) hserved (by decide +kernel)
  · rw [hlaw.2.1.2]
    decide +kernel
  · have hmerged : Merged pairedChunks (chunkPairs.map joined) :=
      merged_groups chunkPairs (by decide)
    obtain ⟨hreads, _⟩ := hlaw.2.2.2 _ _ _ hmerged rfl
    exact hreads.trans (by decide +kernel)
  · exact (hone.2.2.1 2 (by decide +kernel) (by decide +kernel)).2.2.1

end Columnar
