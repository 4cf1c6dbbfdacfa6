import Columnar.Proofs.Bytewise
import Columnar.Proofs.Checked.Cutting
import Columnar.Proofs.Cursor.Abreast

/-!
A payload cut into chunks and read back through a cursor. Both ways of cutting give chunks that
come to the payload, and none of them is empty. So a cursor over them reads the payload to its last
byte, and no read is told of an end before it asks for more than there is left.
-/
namespace Columnar

namespace Cursor

variable [ChunkSource σ] {total : Nat} {cursor : Cursor σ}

/-- What was read, what is in the region and what the source still has come to the total. -/
def Awaits (total : Nat) (cursor : Cursor σ) : Prop :=
  ∃ chunks, Delivers cursor.source chunks ∧
    cursor.position + (cursor.region.unread ++ joined chunks).length = total

theorem awaits_ofConfig {config : DecoderConfig} {source : σ} {chunks : List Chunk}
    (hcursor : ofConfig config source = .ok cursor) (hsource : Delivers source chunks) :
    cursor.Awaits (joined chunks).length := by
  obtain ⟨_, rfl⟩ := ofConfig_eq_ok_iff.mp hcursor
  exact ⟨chunks, hsource, Nat.zero_add _⟩

theorem Awaits.run (h : cursor.Awaits total) (request : Request)
    (hmore : (request.run cursor).2.exhausted = false) : (request.run cursor).2.Awaits total := by
  obtain ⟨chunks, hsource, htotal⟩ := h
  rw [List.length_append] at htotal
  have hexchange := exchange request cursor
  generalize request.run cursor = outcome at hmore hexchange ⊢
  cases hexchange with
  | @served front bytes after hsupplies _ hbytes hsize _ _ hposition =>
    obtain ⟨back, rfl, hback⟩ := hsource.split hsupplies
    refine ⟨back, hback, ?_⟩
    have hlength := congrArg List.length hbytes
    rw [List.length_append, List.length_append] at hlength
    rw [joined_append, List.length_append] at htotal
    show after.position + (after.region.unread ++ joined back).length = total
    rw [hposition, List.length_append]
    omega
  | refused => exact ⟨chunks, hsource, by rw [List.length_append]; exact htotal⟩
  | overflowed _ hstraddles =>
    obtain ⟨front, source, region, hsupplies, _, hunread, _, hrefilled⟩ :=
      refilled_supplied (straddles_iff.mp hstraddles).2.2.1
    obtain ⟨back, rfl, hback⟩ := hsource.split hsupplies
    rw [hrefilled]
    refine ⟨back, hback, ?_⟩
    rw [joined_append, List.length_append] at htotal
    rw [show cursor.position = cursor.counters.bytesConsumed from rfl] at htotal
    simp only [position, supplied, hunread, List.length_append]
    omega
  | failed hsupplies _ hnext =>
    obtain ⟨back, _, hback⟩ := hsource.split hsupplies
    exact absurd hnext hback.not_failed
  | ended _ _ _ hexhausted =>
    rw [hexhausted] at hmore
    cases hmore

theorem exhausted_of_after {requests : List Request}
    (hlive : (cursor.after requests).exhausted = false) : cursor.exhausted = false := by
  rw [← Bool.not_eq_true, exhausted_after_iff, not_or] at hlive
  simpa using hlive.1

/-- Until an end is reported, no byte goes astray. -/
theorem Awaits.after (h : cursor.Awaits total) (requests : List Request)
    (hlive : (cursor.after requests).exhausted = false) : (cursor.after requests).Awaits total := by
  induction requests generalizing cursor with
  | nil => exact h
  | cons request requests ih => exact ih (h.run request (exhausted_of_after hlive)) hlive

/-- An end is reported when there is less left than the read asks for. -/
theorem Awaits.ended (h : cursor.Awaits total) (hlive : cursor.exhausted = false)
    {request : Request} {requested available : Nat}
    (hends : (request.run cursor).1 = .error (.error (.endOfStream requested available))) :
    requested = request.size ∧ available < requested ∧ cursor.position + available = total := by
  obtain ⟨chunks, hsource, htotal⟩ := h
  have hgranted : ¬ request.Refused cursor (.endOfStream requested available) := by
    rintro (⟨_, hcause⟩ | ⟨_, _, _, _, hcause⟩)
    · cases hcause
    · cases hcause
  have hsize := size_pos_of_fails hends hgranted
  have hlacks := lacks_of_fails hlive hends hgranted
  obtain ⟨_, hfailed⟩ := failedRead_of_fails hends
  generalize (request.run cursor).2 = after at hfailed
  cases hfailed with
  | failed _ _ _ hnext => exact absurd hnext hsource.not_failed
  | lostToFailure _ _ hsupplies _ hnext =>
    obtain ⟨_, _, hback⟩ := hsource.split hsupplies
    exact absurd hnext hback.not_failed
  | ended _ hspent hstops =>
    rw [hlive] at hstops
    obtain rfl := hsource.eq_nil hstops.1
    rw [hspent] at htotal
    exact ⟨rfl, hsize, htotal⟩
  | lostToEnd _ _ hsupplies hstops =>
    rw [hlive] at hstops
    obtain ⟨back, rfl, hback⟩ := hsource.split hsupplies
    obtain rfl := hback.eq_nil hstops.1
    rw [List.append_nil] at htotal
    exact ⟨rfl, hlacks.lt hsupplies, htotal⟩

/-- A cursor with just the data before it. It gives them byte by byte and then ends, no read is
told of the end as long as it asks for what is left, and every program sees what it would see of
the data themselves. -/
structure ReadsWhole (config : DecoderConfig) (data : Bytes) (start : Cursor σ) : Prop where
  bytes : ∃ after last, byteSource.Gives start data after ∧ after.position = data.length ∧
    after.readByte = (.error (.error (.endOfStream 1 0)), last)
  ended : ∀ (before : List Request) (request : Request) requested available,
    ¬ start.ReportsEnd before →
    (request.run (start.after before)).1 =
      .error (.error (.endOfStream requested available)) →
    requested = request.size ∧ available < requested ∧
      (start.after before).position + available = data.length
  program : config.initialScratchCapacity ≤ 2 ^ 62 → ∀ steps : List ReadStep,
    (∀ size ∈ ReadStep.requests Slice.byteSource steps (.ofBytes data config.encoding),
      size ≤ min config.maxReadSize (2 ^ 61)) →
    untilEnd (ReadStep.observe byteSource position steps start) =
      untilEnd (ReadStep.observe Slice.byteSource Slice.position steps
        (.ofBytes data config.encoding))

theorem readsWhole {config : DecoderConfig} {source : σ} {chunks : List Chunk}
    (hcursor : ofConfig config source = .ok cursor) (hsource : Delivers source chunks) :
    ReadsWhole config (joined chunks) cursor where
  bytes := by
    have hfaces := faces_ofConfig hcursor hsource
    rw [← List.append_nil (joined chunks)] at hfaces
    obtain ⟨after, hgives, hafter, hposition⟩ := hfaces.gives
    obtain ⟨last, hlast, _⟩ := hafter.readByte_nil trivial
    refine ⟨after, last, hgives, ?_, hlast⟩
    obtain ⟨_, rfl⟩ := ofConfig_eq_ok_iff.mp hcursor
    exact hposition.trans (Nat.zero_add _)
  ended := by
    intro before request requested available hunreported hends
    have hawaits := awaits_ofConfig hcursor hsource
    have hlive : (cursor.after before).exhausted = false := by
      obtain ⟨_, rfl⟩ := ofConfig_eq_ok_iff.mp hcursor
      rw [← Bool.not_eq_true, exhausted_after_iff]
      simpa using mt FindsEnd.reportsEnd hunreported
    exact (hawaits.after before hlive).ended hlive hends
  program hscratch steps hrequests :=
    (represents_ofConfig hcursor hsource).observe_eq hscratch steps hrequests

end Cursor

/-- A cursor over chunks that come to the data reads the data and no more. -/
theorem Bytes.Partitions.readsWhole {data : Bytes} {chunks : List Bytes}
    (h : Partitions data chunks) {config : DecoderConfig} {start : Cursor (List Bytes)}
    (hstart : Cursor.ofConfig config chunks = .ok start) :
    start.ReadsWhole config data := by
  obtain ⟨supplied, rfl, rfl⟩ := h.exists_chunks
  have hdelivers : Delivers (supplied.map Chunk.bytes ++ []) supplied := delivers_list supplied rfl
  rw [List.append_nil] at hdelivers
  exact Cursor.readsWhole hstart hdelivers

/-- However a payload is cut, by any distance or at any offsets, nothing stops the program, the
chunks are those that the payload and the distance or the offsets call for, and a cursor over them
reads the payload to its end and no further. -/
theorem cut_chunks_read_back {data : Bytes} (hdata : data.length < 2 ^ 63) :
    (∀ size, size ≤ maxSize → ∃ chunks, Checked.splitEvery size data = some chunks ∧
      chunks = Bytes.splitEvery size data ∧ Bytes.EvenlyCut (max size 1) data chunks ∧
      ∀ config start, Cursor.ofConfig config chunks = .ok start →
        start.ReadsWhole config data) ∧
    ∀ offsets, ∃ chunks, Checked.splitAtOffsets offsets data = some chunks ∧
      chunks = Bytes.splitAtOffsets offsets data ∧ Bytes.CutAt offsets data chunks ∧
      ∀ config start, Cursor.ofConfig config chunks = .ok start →
        start.ReadsWhole config data := by
  constructor
  · intro size hsize
    have hroom : data.length ≤ maxAllocation := Nat.le_of_lt_succ hdata
    have hcut := Bytes.evenlyCut_splitEvery
      (Nat.lt_of_lt_of_le Nat.one_pos (Nat.le_max_right size 1)) data
    rw [Bytes.splitEvery_max] at hcut
    exact ⟨_, Checked.splitEvery_eq hsize hroom, rfl, hcut, fun _ _ => hcut.readsWhole⟩
  · intro offsets
    have hcut := Bytes.cutAt_splitAtOffsets offsets data
    exact ⟨_, Checked.splitAtOffsets_eq offsets data, rfl, hcut, fun _ _ => hcut.readsWhole⟩

def sevenBytes : Bytes := [1, 2, 3, 4, 5, 6, 7]

/-- The third offset lies before an earlier one, the fourth repeats it, and the last is past the
end. -/
def offsetsOutOfOrder : List Nat := [3, 5, 2, 5, 9]

def threeChunks : List Bytes := [[1, 2, 3], [4, 5], [6, 7]]

/-- Cut out of order, seven bytes fall into three chunks; cut at the largest distance there is, they
stay whole. Over the three chunks a read that asks for one byte too many is told how many are
left. -/
theorem cut_chunks_read_back_out_of_order :
    Checked.splitAtOffsets offsetsOutOfOrder sevenBytes = some threeChunks ∧
    Checked.splitEvery maxSize sevenBytes = some [sevenBytes] ∧
    ∃ start, Cursor.ofConfig {} threeChunks = .ok start ∧
      (Request.run (.bytes 4) (start.after [.bytes 4])).1 =
        .error (.error (.endOfStream 4 3)) ∧
      (start.after [.bytes 4]).position + 3 = sevenBytes.length := by
  have hshort : sevenBytes.length < 2 ^ 63 := by decide
  obtain ⟨hevery, hoffsets⟩ := cut_chunks_read_back hshort
  obtain ⟨chunks, hchecked, hchunks, _, hreads⟩ := hoffsets offsetsOutOfOrder
  obtain ⟨all, hall, _, heven, _⟩ := hevery maxSize (Nat.le_refl _)
  have hthree : chunks = threeChunks := hchunks.trans (by decide +kernel)
  have hone : all = [sevenBytes] := by
    obtain ⟨chunk, rfl⟩ := List.length_eq_one_iff.mp (heven.count.trans (by decide))
    have hwhole := heven.whole
    rw [List.flatten_singleton] at hwhole
    rw [hwhole]
  rw [hthree] at hchecked hreads
  rw [hone] at hall
  have hstart : Cursor.ofConfig {} threeChunks =
      .ok (Cursor.ofSource threeChunks) := by rfl
  have hunreported : ¬ (Cursor.ofSource threeChunks).ReportsEnd [.bytes 4] := by
    intro hreported
    have hended := (Cursor.exhausted_after_iff _ _).mpr
      (.inr (hreported.findsEnd (failsWith_list threeChunks)))
    revert hended
    decide +kernel
  have hends : (Request.run (.bytes 4)
      ((Cursor.ofSource threeChunks).after [.bytes 4])).1 =
      .error (.error (.endOfStream 4 3)) := by
    decide +kernel
  exact ⟨hchecked, hall, _, hstart, hends,
    ((hreads {} _ hstart).ended [.bytes 4] (.bytes 4) 4 3 hunreported hends).2.2⟩

end Columnar
