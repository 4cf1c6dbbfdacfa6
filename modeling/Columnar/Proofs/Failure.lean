import Columnar.Proofs.Cursor.Growth
import Columnar.Proofs.Ledger

/-!
What a failing read leaves behind. A read that is refused changes nothing, and one that finds the
source failing or at its end before it has taken a byte changes nothing but the source and the
mark of the end. Once an assembly has begun, the bytes that it had are gone, but nothing was handed
out, and the cursor is where it was.

The error alone does not say which of these it was, because a cursor hands on what its source fails
with, and that may be an error that the cursor raises itself. So a failing read has an origin. It
can be read off the error exactly if the source leaves the errors of the cursor to the cursor.
-/
namespace Columnar

/-- Who raised the error of a read. -/
inductive Origin where
  /-- The cursor, which refuses the read. -/
  | refusal
  /-- The source. The cursor hands its error on. -/
  | failure
  /-- The cursor, which has found that nothing more comes. -/
  | ending
  deriving DecidableEq, Repr

/-- The origin of an error if the source does not fail with those of the cursor. -/
def DecodeError.origin : DecodeError → Origin
  | .closed | .readTooLarge .. => .refusal
  | .endOfStream .. => .ending
  | _ => .failure

/-- The cursor refuses the read with this error, before it looks for bytes. -/
def Request.Refused (request : Request) (cursor : Cursor σ) (cause : DecodeError) : Prop :=
  cursor.closed = true ∧ cause = .closed ∨
    ∃ size, request = .bytes size ∧ cursor.closed = false ∧ cursor.config.maxReadSize < size ∧
      cause = .readTooLarge size cursor.config.maxReadSize

namespace Cursor

variable [ChunkSource σ]

/-- The origin of the error of a read. The source is it if it answered with that error. -/
def origin (request : Request) (cursor : Cursor σ) (cause : DecodeError) : Origin :=
  if cause ∈ cursor.failures [request] then .failure else cause.origin

/-- Each way in which a read can fail, with all that it leaves. -/
inductive FailedRead (cursor : Cursor σ) :
    Request → Origin → DecodeError → Cursor σ → Prop where
  | closed {request : Request} (hclosed : cursor.closed = true) :
      FailedRead cursor request .refusal .closed cursor
  | tooLarge {size : Nat} (hopen : cursor.closed = false)
      (hlimit : cursor.config.maxReadSize < size) :
      FailedRead cursor (.bytes size) .refusal (.readTooLarge size cursor.config.maxReadSize) cursor
  | failed {request : Request} {cause : DecodeError} {last : σ}
      (hdirect : request.straddled? cursor = none) (hspent : cursor.region.unread = [])
      (hopen : cursor.exhausted = false)
      (hnext : ChunkSource.next cursor.source = (.error cause, last)) :
      FailedRead cursor request .failure cause { cursor with source := last }
  | ended {request : Request} {last : σ} (hdirect : request.straddled? cursor = none)
      (hspent : cursor.region.unread = [])
      (hstops : Stops cursor.exhausted cursor.source last) :
      FailedRead cursor request .ending (.endOfStream request.size 0)
        { cursor with source := last, exhausted := true }
  | lostToFailure {size : Nat} {chunks : List Chunk} {middle last : σ} {cause : DecodeError}
      (hstraddles : cursor.straddles size = true)
      (hsome : cursor.region.unread ++ joined chunks ≠ [])
      (hsupplies : Supplies cursor.source chunks middle) (hopen : cursor.exhausted = false)
      (hnext : ChunkSource.next middle = (.error cause, last)) :
      FailedRead cursor (.bytes size) .failure cause
        (cursor.crossing size chunks last (cursor.region.unread ++ joined chunks))
  | lostToEnd {size : Nat} {chunks : List Chunk} {middle last : σ}
      (hstraddles : cursor.straddles size = true)
      (hsome : cursor.region.unread ++ joined chunks ≠ [])
      (hsupplies : Supplies cursor.source chunks middle)
      (hstops : Stops cursor.exhausted middle last) :
      FailedRead cursor (.bytes size) .ending
        (.endOfStream size (cursor.region.unread ++ joined chunks).length)
        { cursor.crossing size chunks last (cursor.region.unread ++ joined chunks) with
          exhausted := true }

omit [ChunkSource σ] in
/-- A chunk pulled to have something to read from is the first that the assembly uses. -/
theorem crossing_refilled {size : Nat} {cursor : Cursor σ} {front back : List Chunk}
    {middle last : σ} {region : Region} {kept : Bytes} :
    crossing size back last kept { cursor.supplied front middle with region } =
      cursor.crossing size (front ++ back) last kept := by
  have hcount : cursor.counters.chunksPulled + front.length + back.length =
      cursor.counters.chunksPulled + (front ++ back).length := by
    rw [List.length_append]
    omega
  simp only [crossing, supplied, hcount]
  rfl

theorem failedRead_of_straddles {size : Nat} {cursor : Cursor σ} {cause : DecodeError}
    (hstraddles : cursor.straddles size = true)
    (hfails : (cursor.readBytes size).1 = .error (.error cause)) :
    ∃ origin, FailedRead cursor (.bytes size) origin cause (cursor.readBytes size).2 := by
  obtain ⟨_, _, hsome, hshort⟩ := straddles_iff.mp hstraddles
  have hacross := across hshort
  rw [readBytes_of_straddles hstraddles] at hfails ⊢
  -- a chunk that the read began with is the first of those that it lost
  obtain ⟨front, middle, region, hfront, hpulls, hunread, hrefilled⟩ := refilled_eq hsome
  rw [hrefilled] at hfails hacross ⊢
  rw [buffered, hrefilled] at hsome
  generalize readAcross size { cursor.supplied front middle with region } = outcome
    at hfails hacross ⊢
  have hkept (back : List Chunk) :
      region.unread ++ joined back = cursor.region.unread ++ joined (front ++ back) := by
    rw [hunread, joined_append, List.append_assoc]
  have hmany (back : List Chunk) : cursor.region.unread ++ joined (front ++ back) ≠ [] := by
    rw [← hkept]
    exact List.append_ne_nil_of_left_ne_nil (List.ne_nil_of_length_pos hsome) _
  cases hacross with
  | overflow => cases hfails
  | complete => cases hfails
  | failed _ hback hopen _ hnext =>
    cases hfails
    rw [crossing_refilled, hkept]
    exact ⟨_, .lostToFailure hstraddles (hmany _) (hfront.append hback) hopen hnext⟩
  | ended _ hback hopen _ hstops =>
    cases hfails
    rw [crossing_refilled, hkept]
    exact ⟨_, .lostToEnd hstraddles (hmany _) (hfront.append hback) hstops⟩

theorem failedRead_of_fails {request : Request} {cursor : Cursor σ} {cause : DecodeError}
    (hfails : (request.run cursor).1 = .error (.error cause)) :
    ∃ origin, FailedRead cursor request origin cause (request.run cursor).2 := by
  cases request with
  | byte =>
    have hsingle := single cursor
    generalize Request.byte.run cursor = outcome at hsingle hfails ⊢
    cases hsingle with
    | closed hclosed =>
      cases hfails
      exact ⟨_, .closed hclosed⟩
    | failed hspent hopen hnext =>
      cases hfails
      exact ⟨_, .failed rfl hspent hopen hnext⟩
    | ended hspent hstops =>
      cases hfails
      exact ⟨_, .ended rfl hspent hstops⟩
    | served => cases hfails
  | bytes size =>
    rw [Request.run] at hfails ⊢
    by_cases hstraddles : cursor.straddles size = true
    · exact failedRead_of_straddles hstraddles hfails
    · have hnone : Request.straddled? (.bytes size) cursor = none := if_neg hstraddles
      have hdirect := direct (by simpa using hstraddles)
      generalize cursor.readBytes size = outcome at hdirect hfails ⊢
      cases hdirect with
      | closed hclosed =>
        cases hfails
        exact ⟨_, .closed hclosed⟩
      | empty => cases hfails
      | tooLarge hopen hlimit =>
        cases hfails
        exact ⟨_, .tooLarge hopen hlimit⟩
      | failed hspent hopen hnext =>
        cases hfails
        exact ⟨_, .failed hnone hspent hopen hnext⟩
      | ended hspent hstops =>
        cases hfails
        exact ⟨_, .ended hnone hspent hstops⟩
      | view => cases hfails

/-- The map of a source keeps the origin. -/
theorem FailedRead.mapSource [ChunkSource τ] {f : σ → τ} (hf : Follows f) {request : Request}
    {origin : Origin} {cursor after : Cursor σ} {cause : DecodeError}
    (h : FailedRead cursor request origin cause after) :
    FailedRead (cursor.mapSource f) request origin cause (after.mapSource f) := by
  have hdirect := straddled?_mapSource hf request cursor
  cases h with
  | closed hclosed => exact .closed hclosed
  | tooLarge hopen hlimit => exact .tooLarge hopen hlimit
  | failed hnone hspent hopen hnext =>
    exact .failed (hdirect.trans hnone) hspent hopen (hf.map_next hnext)
  | ended hnone hspent hstops => exact .ended (hdirect.trans hnone) hspent (hf.map_stops hstops)
  | @lostToFailure size _ _ _ _ hstraddles hsome hsupplies hopen hnext =>
    exact .lostToFailure ((straddles_mapSource hf size cursor).trans hstraddles) hsome
      (hf.map_supplies hsupplies) hopen (hf.map_next hnext)
  | @lostToEnd size _ _ _ hstraddles hsome hsupplies hstops =>
    exact .lostToEnd ((straddles_mapSource hf size cursor).trans hstraddles) hsome
      (hf.map_supplies hsupplies) (hf.map_stops hstops)

/-- Over a record that was empty, the source has failed if that is the origin. -/
theorem FailedRead.failures_iff {request : Request} {origin : Origin}
    {cursor after : Cursor (Recorded σ)} {cause : DecodeError}
    (h : FailedRead cursor request origin cause after) (hnew : cursor.source.failures = []) :
    cause ∈ after.source.failures ↔ origin = .failure := by
  cases h with
  | closed => simp [hnew]
  | tooLarge => simp [hnew]
  | failed _ _ _ hnext => simp [Recorded.failures_of_next hnext, error?]
  | ended _ _ hstops => simp [(Recorded.told_of_stops hstops).2, hnew]
  | lostToFailure _ _ _ _ hnext =>
    simp [crossing, supplied, Recorded.failures_of_next hnext, error?]
  | lostToEnd _ _ hsupplies hstops =>
    simp [crossing, supplied, (Recorded.told_of_stops hstops).2,
      Recorded.failures_of_supplies hsupplies, hnew]

/-- What the source did not fail with is the error of its origin. -/
theorem FailedRead.origin_cause {request : Request} {origin : Origin} {cursor after : Cursor σ}
    {cause : DecodeError} (h : FailedRead cursor request origin cause after)
    (hown : origin ≠ .failure) : cause.origin = origin := by
  cases h with
  | closed => rfl
  | tooLarge => rfl
  | failed => exact absurd rfl hown
  | ended => rfl
  | lostToFailure => exact absurd rfl hown
  | lostToEnd => rfl

/-- The record tells the origin, and without it the read fails alike. -/
theorem failedRead_failures {request : Request} {cursor : Cursor σ} {cause : DecodeError}
    (hfails : (request.run cursor).1 = .error (.error cause)) :
    ∃ origin, FailedRead cursor request origin cause (request.run cursor).2 ∧
      (cause ∈ cursor.failures [request] ↔ origin = .failure) := by
  have hrun := run_mapSource Recorded.follows_source request cursor.recorded
  rw [mapSource_recorded] at hrun
  have hrecorded : (request.run cursor.recorded).1 = .error (.error cause) := by
    rw [hrun] at hfails
    exact hfails
  obtain ⟨origin, hfailed⟩ := failedRead_of_fails hrecorded
  rw [hrun]
  exact ⟨origin, hfailed.mapSource Recorded.follows_source, hfailed.failures_iff rfl⟩

theorem failedRead {request : Request} {cursor : Cursor σ} {cause : DecodeError}
    (hfails : (request.run cursor).1 = .error (.error cause)) :
    FailedRead cursor request (cursor.origin request cause) cause (request.run cursor).2 := by
  obtain ⟨origin, hfailed, hsource⟩ := failedRead_failures hfails
  have horigin : cursor.origin request cause = origin := by
    rw [Cursor.origin]
    by_cases hfailure : origin = .failure
    · rw [if_pos (hsource.mpr hfailure), hfailure]
    · rw [if_neg (hfailure ∘ hsource.mp), hfailed.origin_cause hfailure]
  rw [horigin]
  exact hfailed

/-- An error that no cursor raises is one of the source. -/
theorem failures_of_fails {request : Request} {cursor : Cursor σ} {cause : DecodeError}
    (hfails : (request.run cursor).1 = .error (.error cause)) (hforeign : cause.origin = .failure) :
    cause ∈ cursor.failures [request] := by
  obtain ⟨origin, hfailed, hsource⟩ := failedRead_failures hfails
  refine hsource.mpr (Decidable.byContradiction fun hown => hown ?_)
  rw [← hfailed.origin_cause hown, hforeign]

/-- At the end of the stream nothing comes any more, and the source is not asked again. -/
theorem run_of_drained {request : Request} {cursor : Cursor σ} (hopen : cursor.closed = false)
    (hspent : cursor.region.unread = []) (hended : cursor.exhausted = true)
    (hsome : 0 < request.size) (hlimit : request.size ≤ cursor.config.maxReadSize) :
    request.run cursor = (.error (.error (.endOfStream request.size 0)), cursor) := by
  have hpull := pull_of_exhausted hended
  cases request with
  | byte =>
    rw [Request.run, readByte, if_neg (by simp [hopen]), hspent]
    simp only [hpull]
    rfl
  | bytes size =>
    replace hlimit : size ≤ cursor.config.maxReadSize := hlimit
    have hzero : size ≠ 0 := Nat.ne_of_gt hsome
    rw [Request.run, readBytes, if_neg (by simp [hopen]), if_neg hzero, if_neg (by omega), hspent]
    simp only [hpull]
    rfl

/-- What a failed assembly leaves. The bytes that it had are gone: the source is past them, and
they do not count as read. -/
structure AssemblyLost (size : Nat) (before : Cursor σ) (cause : DecodeError) (origin : Origin)
    (after : Cursor σ) : Prop where
  position : after.position = before.position
  zeroCopyReads : after.counters.zeroCopyReads = before.counters.zeroCopyReads
  scratchReads : after.counters.scratchReads = before.counters.scratchReads
  closed : after.closed = before.closed
  buffered : after.buffered = 0
  capacity : before.scratchCapacity ≤ after.scratchCapacity
  exhausted : after.exhausted = true ↔ origin = .ending
  passed : ∃ chunks middle, Supplies before.source chunks middle ∧
    after.counters.chunksPulled = before.counters.chunksPulled + chunks.length ∧
    before.region.unread ++ joined chunks ≠ [] ∧
    (origin = .failure ∧ ChunkSource.next middle = (.error cause, after.source) ∨
      origin = .ending ∧
        cause = .endOfStream size (before.region.unread ++ joined chunks).length ∧
        Stops before.exhausted middle after.source)

/-- What a failing read changes, by the origin of its error. Before anything is in hand, a failure
of the source costs one call of it and the end of the stream sets its mark. -/
structure FailureEffect (request : Request) (before : Cursor σ) (cause : DecodeError)
    (origin : Origin) (after : Cursor σ) : Prop where
  refused : origin = .refusal → request.Refused before cause ∧ after = before
  failed : origin = .failure → before.region.unread = [] → before.pulled [request] = [] →
    (ChunkSource.next before.source).1 = .error cause ∧
      after = { before with source := (ChunkSource.next before.source).2 }
  ended : origin = .ending → before.region.unread = [] → before.pulled [request] = [] →
    cause = .endOfStream request.size 0 ∧ Stops before.exhausted before.source after.source ∧
      after = { before with source := after.source, exhausted := true }
  lost : ∀ size, request = .bytes size → before.straddles size = true →
    AssemblyLost size before cause origin after
  inHand : origin ≠ .refusal →
    ((before.region.unread ≠ [] ∨ before.pulled [request] ≠ []) ↔
      ∃ size, request = .bytes size ∧ before.straddles size = true)
  resumed : origin = .failure → after.region.unread = [] ∧ after.exhausted = false
  drained : origin = .ending → ∀ later : Request, 0 < later.size →
    later.size ≤ before.config.maxReadSize →
    later.run after = (.error (.error (.endOfStream later.size 0)), after)

theorem pulled_eq_nil_iff {request : Request} {cursor : Cursor σ} :
    cursor.pulled [request] = [] ↔
      (request.run cursor).2.counters.chunksPulled = cursor.counters.chunksPulled := by
  have hcounted := (balance_after [request] cursor).2.1
  simp only [after] at hcounted
  rw [hcounted, ← List.length_eq_zero_iff]
  omega

/-- A read that straddles has bytes in hand. -/
theorem pulled_of_crossing {size : Nat} {cursor : Cursor σ} {chunks : List Chunk}
    (hcounted : (cursor.readBytes size).2.counters.chunksPulled =
      cursor.counters.chunksPulled + chunks.length)
    (hsome : cursor.region.unread ++ joined chunks ≠ []) :
    cursor.region.unread ≠ [] ∨ cursor.pulled [.bytes size] ≠ [] := by
  by_cases hspent : cursor.region.unread = []
  · refine .inr fun hnone => hsome ?_
    have hsame := pulled_eq_nil_iff.mp hnone
    rw [Request.run, hcounted] at hsame
    have hchunks : chunks = [] := List.length_eq_zero_iff.mp (by omega)
    rw [hspent, hchunks]
    rfl
  · exact .inl hspent

variable {request : Request} {before after : Cursor σ} {cause : DecodeError} {origin : Origin}

theorem FailedRead.refused (h : FailedRead before request .refusal cause after) :
    request.Refused before cause ∧ after = before := by
  cases h with
  | closed hclosed => exact ⟨.inl ⟨hclosed, rfl⟩, rfl⟩
  | tooLarge hopen hlimit => exact ⟨.inr ⟨_, rfl, hopen, hlimit, rfl⟩, rfl⟩

theorem FailedRead.granted (h : FailedRead before request origin cause after)
    (hgranted : ¬ request.Refused before cause) : origin ≠ .refusal := by
  rintro rfl
  exact hgranted h.refused.1

/-- What is left when nothing was in hand. -/
theorem FailedRead.emptyHanded (h : FailedRead before request origin cause after)
    (hdirect : request.straddled? before = none) (hgranted : origin ≠ .refusal) :
    before.region.unread = [] ∧ after.counters = before.counters ∧
      ((∃ last, origin = .failure ∧ ChunkSource.next before.source = (.error cause, last) ∧
          after = { before with source := last }) ∨
        ∃ last, origin = .ending ∧ cause = .endOfStream request.size 0 ∧
          Stops before.exhausted before.source last ∧
          after = { before with source := last, exhausted := true }) := by
  cases h with
  | closed => exact absurd rfl hgranted
  | tooLarge => exact absurd rfl hgranted
  | failed _ hspent _ hnext => exact ⟨hspent, rfl, .inl ⟨_, rfl, hnext, rfl⟩⟩
  | ended _ hspent hstops => exact ⟨hspent, rfl, .inr ⟨_, rfl, rfl, hstops, rfl⟩⟩
  | lostToFailure hstraddles => simp [Request.straddled?, hstraddles] at hdirect
  | lostToEnd hstraddles => simp [Request.straddled?, hstraddles] at hdirect

theorem FailedRead.assemblyLost {size : Nat}
    (h : FailedRead before (.bytes size) origin cause after)
    (hstraddles : before.straddles size = true) :
    AssemblyLost size before cause origin after := by
  have hopen := (straddles_iff.mp hstraddles).1
  have hlimit := (straddles_iff.mp hstraddles).2.1
  cases h with
  | closed hclosed => simp [hopen] at hclosed
  | tooLarge _ hlarge => exact absurd hlimit (Nat.not_le.mpr hlarge)
  | failed hdirect => simp [Request.straddled?, hstraddles] at hdirect
  | ended hdirect => simp [Request.straddled?, hstraddles] at hdirect
  | lostToFailure _ hsome hsupplies hlive hnext =>
    constructor
    case capacity => exact scratchCapacity_le size before
    case exhausted => simp [crossing, supplied, hlive]
    case passed => exact ⟨_, _, hsupplies, rfl, hsome, .inl ⟨rfl, hnext⟩⟩
    all_goals rfl
  | lostToEnd _ hsome hsupplies hstops =>
    constructor
    case capacity => exact scratchCapacity_le size before
    case exhausted => simp
    case passed => exact ⟨_, _, hsupplies, rfl, hsome, .inr ⟨rfl, rfl, hstops⟩⟩
    all_goals rfl

/-- A failing source has no bytes left behind it, and more may come. -/
theorem FailedRead.resumed (h : FailedRead before request .failure cause after) :
    after.region.unread = [] ∧ after.exhausted = false := by
  cases h with
  | failed _ hspent hopen => exact ⟨hspent, hopen⟩
  | lostToFailure _ _ _ hopen => exact ⟨rfl, hopen⟩

/-- A read that finds the end was admitted. -/
theorem FailedRead.drained (h : FailedRead before request .ending cause after) :
    after.region.unread = [] ∧ after.exhausted = true ∧ after.closed = before.closed ∧
      after.config = before.config := by
  cases h with
  | ended _ hspent => exact ⟨hspent, rfl, rfl, rfl⟩
  | lostToEnd => exact ⟨rfl, rfl, rfl, rfl⟩

/-- Exactly the straddling reads fail with bytes in hand. -/
theorem inHand_iff (hfails : (request.run before).1 = .error (.error cause))
    (hgranted : before.origin request cause ≠ .refusal) :
    (before.region.unread ≠ [] ∨ before.pulled [request] ≠ []) ↔
      ∃ size, request = .bytes size ∧ before.straddles size = true := by
  have hfailed := failedRead hfails
  constructor
  · intro hhand
    cases hstraddled : request.straddled? before with
    | some size => exact ⟨size, Request.straddled?_eq_some_iff.mp hstraddled⟩
    | none =>
      obtain ⟨hspent, hcounters, _⟩ := hfailed.emptyHanded hstraddled hgranted
      rcases hhand with hunread | hpulled
      · exact absurd hspent hunread
      · exact absurd (pulled_eq_nil_iff.mpr (by rw [hcounters])) hpulled
  · rintro ⟨size, rfl, hstraddles⟩
    obtain ⟨chunks, _, _, hcounted, hsome, _⟩ := (hfailed.assemblyLost hstraddles).passed
    exact pulled_of_crossing hcounted hsome

theorem run_of_refused (h : request.Refused before cause) :
    request.run before = (.error (.error cause), before) := by
  rcases h with ⟨hclosed, rfl⟩ | ⟨size, rfl, hopen, hlimit, rfl⟩
  · cases request with
    | byte =>
      rw [Request.run, readByte, if_pos hclosed]
      rfl
    | bytes size => rw [Request.run, readBytes, if_pos hclosed]
  · exact readBytes_of_large hopen hlimit

/-- A read that fails with nothing in hand leaves the cursor as it was over what is left of the
source, with the mark of the end if that was the reason. -/
theorem failureEffect (hfails : (request.run before).1 = .error (.error cause)) :
    FailureEffect request before cause (before.origin request cause) (request.run before).2 := by
  have hfailed := failedRead hfails
  have hhand := inHand_iff hfails
  generalize before.origin request cause = origin at hfailed hhand
  -- a read with nothing in hand does not straddle, so only two ways to fail are left
  have hdirect (hgranted : origin ≠ .refusal) (hspent : before.region.unread = [])
      (hnone : before.pulled [request] = []) : request.straddled? before = none := by
    cases hstraddled : request.straddled? before with
    | none => rfl
    | some size =>
      have hsome := (hhand hgranted).mpr ⟨size, Request.straddled?_eq_some_iff.mp hstraddled⟩
      simp [hspent, hnone] at hsome
  constructor
  case refused =>
    rintro rfl
    exact hfailed.refused
  case failed =>
    rintro rfl hspent hnone
    obtain ⟨_, _, ⟨last, _, hnext, hafter⟩ | ⟨_, hother, _⟩⟩ :=
      hfailed.emptyHanded (hdirect (by decide) hspent hnone) (by decide)
    · rw [hnext]
      exact ⟨rfl, hafter⟩
    · cases hother
  case ended =>
    rintro rfl hspent hnone
    obtain ⟨_, _, ⟨_, hother, _⟩ | ⟨last, _, hcause, hstops, hafter⟩⟩ :=
      hfailed.emptyHanded (hdirect (by decide) hspent hnone) (by decide)
    · cases hother
    · rw [hafter]
      exact ⟨hcause, hstops, rfl⟩
  case lost =>
    rintro size rfl hstraddles
    exact hfailed.assemblyLost hstraddles
  case inHand => exact hhand
  case resumed =>
    rintro rfl
    exact hfailed.resumed
  case drained =>
    rintro rfl later hsome hlimit
    obtain ⟨hspent, hended, hclosed, hconfig⟩ := hfailed.drained
    have hshown := hfailed.origin_cause (by decide)
    refine run_of_drained ?_ hspent hended hsome (hconfig ▸ hlimit)
    rw [hclosed, ← Bool.not_eq_true]
    intro hshut
    rw [run_of_refused (.inl ⟨hshut, rfl⟩)] at hfails
    cases hfails
    cases hshown

/-- If the source leaves the errors of the cursor to the cursor, an error tells its origin. -/
theorem origin_eq
    (hkind : ChunkSource.FailsWith (fun cause => cause.origin = .failure) before.source)
    (request : Request) (cause : DecodeError) : before.origin request cause = cause.origin := by
  rw [Cursor.origin]
  by_cases hfailed : cause ∈ before.failures [request]
  · rw [if_pos hfailed, kind_of_failures hkind hfailed]
  · rw [if_neg hfailed]

/-- If the source does not fail with the errors of a refusal, they come from one. -/
theorem origin_eq_refusal
    (hkind : ChunkSource.FailsWith (fun cause => cause.origin ≠ .refusal) before.source)
    (hcause : cause.origin = .refusal) : before.origin request cause = .refusal := by
  have hown : cause ∉ before.failures [request] := by
    intro hfailed
    exact kind_of_failures hkind hfailed hcause
  rw [Cursor.origin, if_neg hown, hcause]

/-- A cursor raises the errors of a refusal exactly if it refuses the read. -/
theorem run_refused_iff (horigin : before.origin request cause = .refusal) :
    (request.run before).1 = .error (.error cause) ↔ request.Refused before cause := by
  constructor
  · intro hfails
    exact ((failureEffect hfails).refused horigin).1
  · intro hrefused
    rw [run_of_refused hrefused]

theorem run_tooLarge_iff {size limit : Nat}
    (horigin : before.origin request (.readTooLarge size limit) = .refusal) :
    (request.run before).1 = .error (.error (.readTooLarge size limit)) ↔
      request = .bytes size ∧ limit = before.config.maxReadSize ∧ before.closed = false ∧
        limit < size := by
  rw [run_refused_iff horigin]
  constructor
  · rintro (⟨_, hcause⟩ | ⟨_, rfl, hopen, hlimit, hcause⟩)
    · cases hcause
    · cases hcause
      exact ⟨rfl, rfl, hopen, hlimit⟩
  · rintro ⟨rfl, rfl, hopen, hlimit⟩
    exact .inr ⟨size, rfl, hopen, hlimit, rfl⟩

end Cursor

/-- What a failing read costs, by the origin of its error. One that is refused changes nothing; one
that fails with nothing in hand can be made again as if it had not been; and an assembly that fails
has lost just what it had. The source may do what it likes. If it leaves the errors of the cursor
to the cursor, as the documented meaning of each of these errors demands, an error tells its
origin: then a read fails as closed exactly on a closed cursor and as too large exactly if an open
one is asked for more than its limit. -/
theorem failed_read_effect [ChunkSource σ] (request : Request) (cursor : Cursor σ) :
    (∀ cause, request.Refused cursor cause →
      request.run cursor = (.error (.error cause), cursor)) ∧
    (∀ cause, (request.run cursor).1 = .error (.error cause) →
      Cursor.FailureEffect request cursor cause (cursor.origin request cause)
        (request.run cursor).2) ∧
    (ChunkSource.FailsWith (fun cause => cause.origin = .failure) cursor.source →
      ((request.run cursor).1 = .error (.error .closed) ↔ cursor.closed = true) ∧
      (∀ size limit, (request.run cursor).1 = .error (.error (.readTooLarge size limit)) ↔
        request = .bytes size ∧ limit = cursor.config.maxReadSize ∧ cursor.closed = false ∧
          limit < size) ∧
      ∀ cause, (request.run cursor).1 = .error (.error cause) →
        Cursor.FailureEffect request cursor cause cause.origin (request.run cursor).2) := by
  refine ⟨fun _ => Cursor.run_of_refused, fun _ => Cursor.failureEffect, fun hkind => ?_⟩
  have horigin := Cursor.origin_eq hkind request
  refine ⟨?closed, fun size limit => Cursor.run_tooLarge_iff (horigin _), ?effect⟩
  case closed =>
    rw [Cursor.run_refused_iff (horigin _)]
    simp [Request.Refused]
  case effect =>
    intro cause hfails
    rw [← horigin cause]
    exact Cursor.failureEffect hfails

/-- A source that fails at once, and then again after two bytes. -/
def stutteringScript : List SourceEvent :=
  [.failure { kind := .interrupted }, .chunk [1, 2], .failure { kind := .timedOut },
    .chunk [3, 4, 5]]

/-- The first failure costs one call of the source, and the second one the two bytes that the read
had. -/
theorem failed_read_effect_resumed :
    (Request.run (.bytes 3) (Cursor.ofSource stutteringScript)).2 =
      Cursor.ofSource stutteringScript.tail ∧
    ∃ cause, Cursor.AssemblyLost 3 (Cursor.ofSource stutteringScript.tail) cause cause.origin
        (Request.run (.bytes 3) (Cursor.ofSource stutteringScript.tail)).2 ∧
      Request.returned (.bytes 3)
        (Request.run (.bytes 3) (Cursor.ofSource stutteringScript.tail)).2 = [3, 4, 5] := by
  have hkind (script : List SourceEvent) :
      ChunkSource.FailsWith (fun cause => cause.origin = .failure) script :=
    (failsWith_script script).mono fun cause hsource => by
      obtain ⟨failure, rfl⟩ := hsource
      rfl
  constructor
  · have hlaw := (failed_read_effect (.bytes 3) (Cursor.ofSource stutteringScript)).2.2 (hkind _)
    have heffect := hlaw.2.2 (.source { kind := .interrupted }) rfl
    exact (heffect.failed rfl rfl (by decide +kernel)).2
  · have hdrops : Request.discarded (.bytes 3) (Cursor.ofSource stutteringScript.tail) ≠ [] := by
      decide +kernel
    obtain ⟨size, cause, hrequest, hstraddles, hfails⟩ := Cursor.discarded_ne_nil hdrops
    cases hrequest
    have hlaw :=
      (failed_read_effect (.bytes 3) (Cursor.ofSource stutteringScript.tail)).2.2 (hkind _)
    exact ⟨cause, (hlaw.2.2 cause hfails).lost 3 rfl hstraddles, by decide +kernel⟩

/-- A source that fails as a closed cursor does makes an open one fail so. -/
example : (Request.byte.run (Cursor.ofSource (Broken.mk .closed))).1 = .error (.error .closed) ∧
    (Cursor.ofSource (Broken.mk .closed)).closed = false ∧
    (Cursor.ofSource (Broken.mk .closed)).origin .byte .closed = .failure := by
  exact ⟨rfl, rfl, rfl⟩

end Columnar
