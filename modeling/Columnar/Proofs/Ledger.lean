import Columnar.Proofs.Cursor.Flow

/-!
Where every byte goes. Each read has an entry with the bytes that it handed out and those that it
dropped, and the entries and the unread bytes of the region are together exactly what was pulled.
The books are kept on a cursor whose source records its answers, one read at a time.
-/
namespace Columnar

/-- What one read did with the bytes that it took. -/
structure Entry where
  returned : Bytes
  discarded : Bytes
  deriving DecidableEq, Repr

def Entry.bytes (entry : Entry) : Bytes := entry.returned ++ entry.discarded

namespace Cursor

/-- The entries of some reads, in the order of the calls. -/
def ledger [ChunkSource σ] : List Request → Cursor σ → List Entry
  | [], _ => []
  | request :: requests, cursor =>
    ⟨request.returned cursor, request.discarded cursor⟩ :: ledger requests (request.run cursor).2

/-- The chunks that some reads pull. A cursor does not notice that its source is recorded. -/
def pulled [ChunkSource σ] (requests : List Request) (cursor : Cursor σ) : List Chunk :=
  (cursor.recorded.after requests).source.chunks

variable [ChunkSource σ]

theorem ledger_mapSource [ChunkSource τ] {f : σ → τ} (hf : Follows f) (requests : List Request)
    (cursor : Cursor σ) : (cursor.mapSource f).ledger requests = cursor.ledger requests := by
  induction requests generalizing cursor with
  | nil => rfl
  | cons request requests ih =>
    simp only [ledger, returned_mapSource hf, discarded_mapSource hf, run_mapSource hf,
      Prod.map_snd]
    rw [ih]

/-- Some reads take from the region and the pulled chunks what their entries say. -/
theorem flow_after (requests : List Request) (cursor : Cursor (Recorded σ)) :
    ∃ chunks, Flow cursor (cursor.after requests) chunks
      ((cursor.ledger requests).flatMap Entry.bytes)
      ((cursor.ledger requests).flatMap Entry.returned).length := by
  induction requests generalizing cursor with
  | nil => exact ⟨[], .refl cursor⟩
  | cons request requests ih =>
    obtain ⟨chunks, hread⟩ := flow_run request cursor
    obtain ⟨later, hlater⟩ := ih (request.run cursor).2
    refine ⟨chunks ++ later, ?_⟩
    simp only [after, ledger, List.flatMap_cons, List.length_append]
    exact hread.trans hlater

/-- The books of a run, kept without the records. -/
theorem balance_after (requests : List Request) (cursor : Cursor σ) :
    cursor.region.unread ++ joined (cursor.pulled requests) =
      (cursor.ledger requests).flatMap Entry.bytes ++ (cursor.after requests).region.unread ∧
    (cursor.after requests).counters.chunksPulled =
      cursor.counters.chunksPulled + (cursor.pulled requests).length ∧
    (cursor.after requests).position =
      cursor.position + ((cursor.ledger requests).flatMap Entry.returned).length := by
  obtain ⟨chunks, hflow⟩ := flow_after requests cursor.recorded
  have hafter := after_mapSource Recorded.follows_source requests cursor.recorded
  have hledger := ledger_mapSource Recorded.follows_source requests cursor.recorded
  rw [mapSource_recorded] at hafter hledger
  have hpulled : cursor.pulled requests = chunks := hflow.handed
  rw [hpulled, hafter, hledger]
  exact ⟨hflow.bytes, hflow.counted, hflow.position⟩

/-- Only an assembly that failed drops bytes. -/
theorem discarded_ne_nil {request : Request} {cursor : Cursor σ}
    (h : request.discarded cursor ≠ []) :
    ∃ size cause, request = .bytes size ∧ cursor.straddles size = true ∧
      (cursor.readBytes size).1 = .error (.error cause) := by
  cases request with
  | byte => exact absurd rfl h
  | bytes size =>
    rw [Request.discarded] at h
    by_cases hstraddles : cursor.straddles size = true
    · rw [if_pos hstraddles] at h
      generalize hread : cursor.readBytes size = outcome at h
      rcases outcome with ⟨(cause | _) | bytes, last⟩
      · exact ⟨size, cause, rfl, hstraddles, by rw [hread]⟩
      · exact absurd rfl h
      · exact absurd rfl h
    · rw [if_neg hstraddles] at h
      exact absurd rfl h

/-- It drops everything that it had before it. -/
theorem discarded_eq {size : Nat} {cursor : Cursor σ} {cause : DecodeError}
    (hstraddles : cursor.straddles size = true)
    (hfails : (cursor.readBytes size).1 = .error (.error cause)) :
    Request.discarded (.bytes size) cursor =
      cursor.region.unread ++ joined (cursor.pulled [.bytes size]) := by
  have hspent := (spent_of_straddles hstraddles hfails).1
  have hreturned : Request.returned (.bytes size) cursor = [] := by
    simp only [Request.returned, Request.run, hfails]
  have hbytes := (balance_after [.bytes size] cursor).1
  simp only [ledger, after, Request.run, hspent, hreturned, Entry.bytes, List.flatMap_singleton,
    List.nil_append, List.append_nil] at hbytes
  exact hbytes.symm

/-- What a run pulled is what its reads handed out and dropped, in the order of the calls, and
what is still unread. -/
structure Balanced (requests : List Request) (start : Cursor σ) : Prop where
  bytes : joined (start.pulled requests) =
    (start.ledger requests).flatMap Entry.bytes ++ (start.after requests).region.unread
  counted : (start.after requests).counters.chunksPulled = (start.pulled requests).length
  consumed : (start.after requests).position =
    ((start.ledger requests).flatMap Entry.returned).length
  total : (joined (start.pulled requests)).length =
    (start.after requests).position + (start.after requests).buffered +
      ((start.ledger requests).flatMap Entry.discarded).length

end Cursor

theorem length_bytes_entries (entries : List Entry) :
    (entries.flatMap Entry.bytes).length =
      (entries.flatMap Entry.returned).length + (entries.flatMap Entry.discarded).length := by
  induction entries with
  | nil => rfl
  | cons entry entries ih =>
    simp only [List.flatMap_cons, List.length_append, ih, Entry.bytes]
    omega

/-- The books of a cursor balance after any reads, whatever its source does. The next read drops
bytes only if it had begun to assemble them and then fails, and then it drops all that it had. It
fails so at the end of the stream or with an error of the source, of whatever kind those are. -/
theorem ledger_balances [ChunkSource σ] {config : DecoderConfig} {source : σ} {start : Cursor σ}
    (hstart : Cursor.ofConfig config source = .ok start) (requests : List Request) :
    Cursor.Balanced requests start ∧
    (∀ request : Request, request.discarded (start.after requests) ≠ [] →
      ∃ size cause, request = .bytes size ∧ (start.after requests).straddles size = true ∧
        ((start.after requests).readBytes size).1 = .error (.error cause)) ∧
    ∀ size cause, (start.after requests).straddles size = true →
      ((start.after requests).readBytes size).1 = .error (.error cause) →
      Request.discarded (.bytes size) (start.after requests) =
        (start.after requests).region.unread ++
          joined ((start.after requests).pulled [.bytes size]) ∧
      ∀ kind, ChunkSource.FailsWith kind source →
        cause = .endOfStream size
          (Request.discarded (.bytes size) (start.after requests)).length ∨ kind cause := by
  have hfresh : start.region.unread = [] ∧ start.counters = {} ∧ start.source = source := by
    obtain ⟨_, rfl⟩ := Cursor.ofConfig_eq_ok_iff.mp hstart
    exact ⟨rfl, rfl, rfl⟩
  obtain ⟨hbytes, hcounted, hconsumed⟩ := Cursor.balance_after requests start
  simp only [Cursor.position, hfresh.1, hfresh.2.1, List.nil_append, Nat.zero_add]
    at hbytes hcounted hconsumed
  refine ⟨⟨hbytes, hcounted, hconsumed, ?_⟩, fun _ => Cursor.discarded_ne_nil, ?_⟩
  · rw [hbytes, List.length_append, length_bytes_entries, Cursor.position, hconsumed,
      Cursor.buffered]
    omega
  · intro size cause hstraddles hfails
    refine ⟨Cursor.discarded_eq hstraddles hfails, fun kind hkind => ?_⟩
    rw [← hfresh.2.2] at hkind
    exact (Cursor.spent_of_straddles hstraddles hfails).2 kind
      (Cursor.failsWith_after hkind requests)

/-- A source that fails in the middle of an assembled read and goes on after it. -/
def failingScript : List SourceEvent :=
  [.chunk [1, 2, 3], .chunk [4], .failure { kind := .timedOut }, .chunk [5, 6], .chunk [7, 8],
    .finish, .chunk [9]]

def failingReads : List Request := [.byte, .bytes 5, .bytes 3]

/-- The failure costs the three bytes assembled so far, and the end of the stream the last one. -/
theorem ledger_balances_failing :
    Cursor.ledger (failingReads ++ [.bytes 4]) (Cursor.ofSource failingScript) =
      [⟨[1], []⟩, ⟨[], [2, 3, 4]⟩, ⟨[5, 6, 7], []⟩, ⟨[], [8]⟩] ∧
    Cursor.Balanced failingReads (Cursor.ofSource failingScript) ∧
    Request.discarded (.bytes 4) ((Cursor.ofSource failingScript).after failingReads) =
      ((Cursor.ofSource failingScript).after failingReads).region.unread ++
        joined (((Cursor.ofSource failingScript).after failingReads).pulled [.bytes 4]) ∧
    ∃ cause, (((Cursor.ofSource failingScript).after failingReads).readBytes 4).1 =
        .error (.error cause) ∧
      (cause = .endOfStream 4 1 ∨ ∃ failure, cause = .source failure) := by
  have hstart : Cursor.ofConfig {} failingScript = .ok (Cursor.ofSource failingScript) := by rfl
  have hbooks := ledger_balances hstart failingReads
  obtain ⟨size, cause, hrequest, hstraddles, hfails⟩ := hbooks.2.1 (.bytes 4) (by decide +kernel)
  obtain rfl := Request.bytes.inj hrequest
  obtain ⟨hdropped, hblamed⟩ := hbooks.2.2 4 cause hstraddles hfails
  have hone : (Request.discarded (.bytes 4)
      ((Cursor.ofSource failingScript).after failingReads)).length = 1 := by decide +kernel
  rw [hone] at hblamed
  exact ⟨by decide +kernel, hbooks.1, hdropped, cause, hfails,
    hblamed _ (failsWith_script failingScript)⟩

end Columnar
