import Mathlib.Data.List.TakeWhile
import Columnar.Proofs.Cursor.Exchange
import Columnar.Proofs.Cursor.Offers

/-!
The end of the stream. An open cursor has its mark from the read that finds the end, and by then
nothing is buffered, so no later read changes the cursor or asks the source again. What the
source would give behind its end never gets into the hands of a read. A read that reports the end
has found it, unless the source has failed with just that error.
-/
namespace Columnar

variable [ChunkSource σ]

theorem isEnd_of_ends {source : σ} (h : Ends source) :
    isEnd (ChunkSource.next source).1 = true := by
  rcases h with hanswer | hanswer
  all_goals
    rw [hanswer]
    rfl

theorem chunk?_of_isEnd {answer : Except DecodeError (Option Bytes)} (h : isEnd answer = true) :
    chunk? answer = none := by
  unfold isEnd at h
  split at h
  · rfl
  · rfl
  · cases h

namespace Recorded

variable {recorded last : Recorded σ}

theorem live_of_next {answer : Except DecodeError (Option Bytes)}
    (hnext : ChunkSource.next recorded = (answer, last)) (hanswer : isEnd answer = false)
    (h : ∀ answer ∈ recorded.answers, isEnd answer = false) :
    ∀ answer ∈ last.answers, isEnd answer = false := by
  obtain ⟨rfl, rfl⟩ := Prod.mk.inj hnext
  intro other hother
  rcases List.mem_append.mp hother with hother | hother
  · exact h other hother
  · rw [List.mem_singleton.mp hother]
    exact hanswer

theorem live_of_supplies {chunks : List Chunk} (hsupplies : Supplies recorded chunks last)
    (h : ∀ answer ∈ recorded.answers, isEnd answer = false) :
    ∀ answer ∈ last.answers, isEnd answer = false := by
  induction hsupplies with
  | none => exact h
  | more hnext _ ih => exact ih (live_of_next hnext rfl h)

theorem answers_of_stops (h : Stops false recorded last) :
    last.answers = recorded.answers ++ [(ChunkSource.next recorded.source).1] := by
  obtain ⟨_, rfl⟩ := h
  rfl

end Recorded

namespace Cursor

/-- Some read of a run reports the end of the stream. -/
def ReportsEnd (requests : List Request) (cursor : Cursor σ) : Prop :=
  ∃ before request later requested available, requests = before ++ request :: later ∧
    (request.run (cursor.after before)).1 = .error (.error (.endOfStream requested available))

/-- Some read of a run reports the end of the stream because it has found it, and not because the
source failed with that error. -/
def FindsEnd (requests : List Request) (cursor : Cursor σ) : Prop :=
  ∃ before request later requested available, requests = before ++ request :: later ∧
    (request.run (cursor.after before)).1 = .error (.error (.endOfStream requested available)) ∧
    (cursor.after before).origin request (.endOfStream requested available) = .ending

theorem FindsEnd.reportsEnd {requests : List Request} {cursor : Cursor σ}
    (h : cursor.FindsEnd requests) : cursor.ReportsEnd requests := by
  obtain ⟨before, request, later, requested, available, hsplit, hends, _⟩ := h
  exact ⟨before, request, later, requested, available, hsplit, hends⟩

/-- If the source does not fail with it, a report of the end was found. -/
theorem ReportsEnd.findsEnd {requests : List Request} {cursor : Cursor σ}
    (h : cursor.ReportsEnd requests)
    (hsource : ChunkSource.FailsWith (fun cause => cause.isEndOfStream = false) cursor.source) :
    cursor.FindsEnd requests := by
  obtain ⟨before, request, later, requested, available, hsplit, hends⟩ := h
  refine ⟨before, request, later, requested, available, hsplit, hends, ?_⟩
  have hfound : .endOfStream requested available ∉
      (cursor.after before).failures [request] := by
    intro hfailed
    have hkind := kind_of_failures (failsWith_after hsource before) hfailed
    simp [DecodeError.isEndOfStream] at hkind
  rw [origin, if_neg hfound]
  rfl

/-- The stream has ended under an open cursor, and nothing of it is left. -/
structure Drained (cursor : Cursor σ) : Prop where
  opened : cursor.closed = false
  exhausted : cursor.exhausted = true
  spent : cursor.region.unread = []

/-- All that a cursor with the given limit still does at the end of the stream. -/
structure AtRest (limit : Nat) (cursor : Cursor σ) : Prop where
  byte : cursor.readByte = (.error (.error (.endOfStream 1 0)), cursor)
  empty : cursor.readBytes 0 = (.ok [], cursor)
  bytes : ∀ size, 0 < size → size ≤ limit →
    cursor.readBytes size = (.error (.error (.endOfStream size 0)), cursor)
  tooLarge : ∀ size, limit < size →
    cursor.readBytes size = (.error (.error (.readTooLarge size limit)), cursor)
  program : ∀ steps : List ReadStep, ReadStep.finish byteSource steps cursor = cursor

/-- The mark of the end is only on a cursor that has nothing left. -/
def Settled (cursor : Cursor σ) : Prop :=
  cursor.closed = false ∧ (cursor.exhausted = true → cursor.region.unread = [])

variable {cursor : Cursor σ}

theorem Drained.readByte (h : cursor.Drained) :
    cursor.readByte = (.error (.error (.endOfStream 1 0)), cursor) := by
  have hpull := pull_of_exhausted h.exhausted
  rw [Cursor.readByte, if_neg (by simp [h.opened]), h.spent]
  simp only [hpull]

theorem Drained.readBytes_zero (h : cursor.Drained) : cursor.readBytes 0 = (.ok [], cursor) := by
  rw [readBytes, if_neg (by simp [h.opened]), if_pos rfl]

theorem Drained.readBytes (h : cursor.Drained) {size : Nat} (hsome : 0 < size)
    (hlimit : size ≤ cursor.config.maxReadSize) :
    cursor.readBytes size = (.error (.error (.endOfStream size 0)), cursor) := by
  have hasked : 0 < (Request.bytes size).size := hsome
  exact run_of_drained h.opened h.spent h.exhausted hasked hlimit

theorem Drained.readBytes_tooLarge (h : cursor.Drained) {size : Nat}
    (hlimit : cursor.config.maxReadSize < size) :
    cursor.readBytes size =
      (.error (.error (.readTooLarge size cursor.config.maxReadSize)), cursor) :=
  readBytes_of_large h.opened hlimit

/-- No read changes a cursor at the end of the stream. -/
theorem Drained.run (h : cursor.Drained) (request : Request) : (request.run cursor).2 = cursor := by
  cases request with
  | byte =>
    rw [Request.run, h.readByte]
    rfl
  | bytes size =>
    rw [Request.run]
    by_cases hzero : size = 0
    · rw [hzero, h.readBytes_zero]
    · by_cases hlimit : size ≤ cursor.config.maxReadSize
      · rw [h.readBytes (Nat.pos_of_ne_zero hzero) hlimit]
      · rw [h.readBytes_tooLarge (Nat.lt_of_not_le hlimit)]

theorem Drained.after (h : cursor.Drained) (requests : List Request) :
    cursor.after requests = cursor := by
  induction requests with
  | nil => rfl
  | cons request requests ih => rw [Cursor.after, h.run, ih]

theorem Drained.atRest (h : cursor.Drained) : cursor.AtRest cursor.config.maxReadSize where
  byte := h.readByte
  empty := h.readBytes_zero
  bytes _ := h.readBytes
  tooLarge _ := h.readBytes_tooLarge
  program steps := by rw [finish_eq, h.after]

omit [ChunkSource σ] in
theorem Settled.drained (h : cursor.Settled) (hended : cursor.exhausted = true) :
    cursor.Drained :=
  ⟨h.1, hended, h.2 hended⟩

omit [ChunkSource σ] in
/-- A read that is served on a cursor with the mark takes nothing from the source. -/
theorem Settled.served (h : cursor.Settled) {chunks : List Chunk} {bytes rest : Bytes}
    (hopen : chunks ≠ [] → cursor.exhausted = false)
    (hbytes : cursor.region.unread ++ joined chunks = bytes ++ rest)
    (hended : cursor.exhausted = true) : rest = [] := by
  have hnone : chunks = [] := by
    cases chunks with
    | nil => rfl
    | cons => simp [hopen (List.cons_ne_nil _ _)] at hended
  rw [hnone, h.2 hended] at hbytes
  exact (List.append_eq_nil_iff.mp hbytes.symm).2

/-- A read leaves the mark as it is, or it sets it and reports the end. -/
theorem exhausted_run (request : Request) (cursor : Cursor σ) :
    (request.run cursor).2.exhausted = cursor.exhausted ∨
      (request.run cursor).2.exhausted = true ∧ ∃ requested available,
        (request.run cursor).1 = .error (.error (.endOfStream requested available)) := by
  have hexchange := exchange request cursor
  generalize request.run cursor = outcome at hexchange ⊢
  cases hexchange with
  | served _ _ _ _ _ _ _ hexhausted => exact .inl hexhausted
  | refused => exact .inl rfl
  | overflowed _ hstraddles =>
    obtain ⟨_, _, _, _, _, _, hrefilled⟩ := refilled_eq (straddles_iff.mp hstraddles).2.2.1
    rw [hrefilled]
    exact .inl rfl
  | failed _ hopen _ _ hexhausted => exact .inl (hexhausted.trans hopen.symm)
  | ended _ _ _ hexhausted => exact .inr ⟨hexhausted, _, _, rfl⟩

/-- The read that finds the end sets the mark, and no other does. -/
theorem exhausted_run_iff (request : Request) (cursor : Cursor σ) :
    (request.run cursor).2.exhausted = true ↔ cursor.exhausted = true ∨
      ∃ requested available,
        (request.run cursor).1 = .error (.error (.endOfStream requested available)) ∧
          cursor.origin request (.endOfStream requested available) = .ending := by
  constructor
  · intro hended
    rcases exhausted_run request cursor with hsame | ⟨_, requested, available, hends⟩
    · exact .inl (hsame.symm.trans hended)
    · have heffect := failureEffect hends
      cases horigin : cursor.origin request (.endOfStream requested available) with
      | refusal =>
        rw [(heffect.refused horigin).2] at hended
        exact .inl hended
      | failure => simp [(heffect.resumed horigin).2] at hended
      | ending => exact .inr ⟨requested, available, hends, horigin⟩
  · rintro (hended | ⟨requested, available, hends, horigin⟩)
    · rcases exhausted_run request cursor with hsame | ⟨hmarked, _⟩
      · exact hsame.trans hended
      · exact hmarked
    · have hfailed := failedRead hends
      rw [horigin] at hfailed
      exact hfailed.drained.2.1

theorem exhausted_after_iff (requests : List Request) (cursor : Cursor σ) :
    (cursor.after requests).exhausted = true ↔
      cursor.exhausted = true ∨ cursor.FindsEnd requests := by
  induction requests generalizing cursor with
  | nil => simp [Cursor.after, FindsEnd]
  | cons request requests ih =>
    rw [Cursor.after, ih, exhausted_run_iff, or_assoc]
    refine or_congr Iff.rfl ⟨?_, ?_⟩
    · rintro (⟨requested, available, hends⟩ |
        ⟨before, last, later, requested, available, rfl, hends⟩)
      · exact ⟨[], request, requests, requested, available, rfl, hends⟩
      · exact ⟨request :: before, last, later, requested, available, rfl, hends⟩
    · rintro ⟨before, last, later, requested, available, hsplit, hends⟩
      cases before with
      | nil =>
        obtain ⟨rfl, rfl⟩ := List.cons.inj hsplit
        exact .inl ⟨requested, available, hends⟩
      | cons first before =>
        obtain ⟨rfl, rfl⟩ := List.cons.inj hsplit
        exact .inr ⟨before, last, later, requested, available, rfl, hends⟩

theorem Settled.run (h : cursor.Settled) (request : Request) : (request.run cursor).2.Settled := by
  have hexchange := exchange request cursor
  generalize request.run cursor = outcome at hexchange ⊢
  cases hexchange with
  | served _ hopen hbytes _ _ _ _ hexhausted hclosed =>
    exact ⟨hclosed.trans h.1, fun hended => h.served hopen hbytes (hexhausted ▸ hended)⟩
  | refused => exact h
  | overflowed _ hstraddles =>
    obtain ⟨hopened, _, hsome, _⟩ := straddles_iff.mp hstraddles
    obtain ⟨_, _, region, _, hopen, hunread, hrefilled⟩ := refilled_eq hsome
    rw [buffered, hrefilled] at hsome
    rw [hrefilled]
    have hbytes : cursor.region.unread ++ joined _ = [] ++ region.unread := hunread.symm
    exact ⟨hopened, h.served hopen hbytes⟩
  | failed _ _ _ hspent _ hclosed => exact ⟨hclosed.trans h.1, fun _ => hspent⟩
  | ended _ _ hspent _ hclosed => exact ⟨hclosed.trans h.1, fun _ => hspent⟩

theorem Settled.after (h : cursor.Settled) (requests : List Request) :
    (cursor.after requests).Settled := by
  induction requests generalizing cursor with
  | nil => exact h
  | cons request requests ih => exact ih (h.run request)

/-- An end is the last answer on record, and there is one if and only if the cursor has its
mark. -/
structure Marked (cursor : Cursor (Recorded σ)) : Prop where
  live : cursor.exhausted = false → ∀ answer ∈ cursor.source.answers, isEnd answer = false
  ended : cursor.exhausted = true → ∃ front last, cursor.source.answers = front ++ [last] ∧
    isEnd last = true ∧ ∀ answer ∈ front, isEnd answer = false

theorem Marked.run {cursor : Cursor (Recorded σ)} (h : cursor.Marked) (hsettled : cursor.Settled)
    (request : Request) : (request.run cursor).2.Marked := by
  cases hlive : cursor.exhausted with
  | true =>
    rw [(hsettled.drained hlive).run request]
    exact h
  | false =>
    replace h := h.live hlive
    have hexchange := exchange request cursor
    generalize request.run cursor = outcome at hexchange ⊢
    cases hexchange with
    | served hsupplies _ _ _ _ _ _ hexhausted =>
      refine ⟨fun _ => Recorded.live_of_supplies hsupplies h, fun hended => ?_⟩
      simp [hexhausted, hlive] at hended
    | refused => exact ⟨fun _ => h, fun hended => by simp [hlive] at hended⟩
    | overflowed _ hstraddles =>
      obtain ⟨_, _, _, hsupplies, _, _, hrefilled⟩ :=
        refilled_eq (straddles_iff.mp hstraddles).2.2.1
      rw [hrefilled]
      exact ⟨fun _ => Recorded.live_of_supplies hsupplies h, fun hended => by
        simp [supplied, hlive] at hended⟩
    | failed hsupplies _ hnext _ hexhausted =>
      refine ⟨fun _ => ?_, fun hended => by simp [hexhausted] at hended⟩
      exact Recorded.live_of_next hnext rfl (Recorded.live_of_supplies hsupplies h)
    | ended hsupplies hstops _ hexhausted =>
      rw [hlive] at hstops
      refine ⟨fun hopen => by simp [hexhausted] at hopen, fun _ => ?_⟩
      exact ⟨_, _, Recorded.answers_of_stops hstops, isEnd_of_ends hstops.1,
        Recorded.live_of_supplies hsupplies h⟩

theorem Marked.after {cursor : Cursor (Recorded σ)} (h : cursor.Marked)
    (hsettled : cursor.Settled) (requests : List Request) : (cursor.after requests).Marked := by
  induction requests generalizing cursor with
  | nil => exact h
  | cons request requests ih => exact ih (h.run hsettled request) (hsettled.run request)

omit [ChunkSource σ] in
/-- Nothing on record comes behind an end. -/
theorem Marked.chunks_eq {cursor : Cursor (Recorded σ)} (h : cursor.Marked) :
    cursor.source.chunks =
      (cursor.source.answers.takeWhile fun answer => !isEnd answer).filterMap chunk? := by
  cases hended : cursor.exhausted with
  | false =>
    rw [List.takeWhile_eq_self_iff.mpr (by simpa using h.live hended)]
    rfl
  | true =>
    obtain ⟨front, last, hanswers, hend, hfront⟩ := h.ended hended
    rw [Recorded.chunks, hanswers, List.filterMap_append,
      List.takeWhile_append_of_pos (by simpa using hfront)]
    simp [hend, chunk?_of_isEnd hend]

/-- A run pulls the chunks that its calls give before an end. -/
theorem pulled_eq {start : Cursor σ} (hlive : start.exhausted = false)
    (hopened : start.closed = false) (requests : List Request) :
    start.pulled requests = ChunkSource.beforeEnd (start.calls requests) start.source := by
  have hnew : start.recorded.Marked :=
    ⟨fun _ => nofun, fun hended => by simp [recorded, hlive] at hended⟩
  have hsettled : start.recorded.Settled :=
    ⟨hopened, fun hended => by simp [recorded, hlive] at hended⟩
  have hmarked := hnew.after hsettled requests
  rw [pulled, hmarked.chunks_eq, ChunkSource.beforeEnd, calls, ← (since_after requests start).1]

/-- What a run leaves at the end of the stream, all later reads leave. -/
theorem calls_of_drained {start : Cursor σ} {requests : List Request}
    (h : (start.after requests).Drained) (later : List Request) :
    start.calls (requests ++ later) = start.calls requests := by
  have hafter := after_mapSource Recorded.follows_source requests start.recorded
  rw [mapSource_recorded] at hafter
  rw [hafter] at h
  have hrecorded : (start.recorded.after requests).Drained := ⟨h.opened, h.exhausted, h.spent⟩
  rw [calls, calls, after_append, hrecorded.after]

end Cursor

/-- The end of the stream is final, also if the source would go on behind it. The cursor has its
mark if and only if a read has found the end, and if the source never fails with that error itself,
if and only if a read has reported it. From then on the source is not asked, and no read changes
anything. What the reads have taken is what comes before the end. -/
theorem end_of_stream_is_final {config : DecoderConfig} {source : σ} {start : Cursor σ}
    (hstart : Cursor.ofConfig config source = .ok start) (requests : List Request) :
    ((start.after requests).exhausted = true ↔ start.FindsEnd requests) ∧
    (ChunkSource.FailsWith (fun cause => cause.isEndOfStream = false) source →
      ((start.after requests).exhausted = true ↔ start.ReportsEnd requests)) ∧
    ((start.after requests).exhausted = true →
      (start.after requests).buffered = 0 ∧ (start.after requests).AtRest config.maxReadSize ∧
      ∀ later : List Request, start.after (requests ++ later) = start.after requests ∧
        start.calls (requests ++ later) = start.calls requests) ∧
    joined (ChunkSource.beforeEnd (start.calls requests) source) =
      (start.ledger requests).flatMap Entry.bytes ++ (start.after requests).region.unread := by
  have hreached := (Cursor.Reached.start hstart).after requests
  obtain ⟨_, rfl⟩ := Cursor.ofConfig_eq_ok_iff.mp hstart
  generalize hcursor : ({ source, config } : Cursor σ) = start at hreached ⊢
  have hsettled : start.Settled := by
    rw [← hcursor]
    exact ⟨rfl, nofun⟩
  have hmark : (start.after requests).exhausted = true ↔ start.FindsEnd requests := by
    rw [Cursor.exhausted_after_iff, ← hcursor]
    simp
  refine ⟨hmark, fun hsource => ?reported, ?rest, ?taken⟩
  case reported =>
    rw [hmark]
    refine ⟨Cursor.FindsEnd.reportsEnd, fun hreports => hreports.findsEnd ?_⟩
    rw [← hcursor]
    exact hsource
  case rest =>
    intro hended
    have hdrained := (hsettled.after requests).drained hended
    refine ⟨by rw [Cursor.buffered, hdrained.spent]; rfl, ?_, fun later => ?_⟩
    · have hrest := hdrained.atRest
      rw [hreached.storage.1] at hrest
      exact hrest
    · rw [Cursor.after_append, hdrained.after]
      exact ⟨rfl, Cursor.calls_of_drained hdrained later⟩
  case taken =>
    have hbytes := (Cursor.balance_after requests start).1
    rw [Cursor.pulled_eq (by rw [← hcursor]) hsettled.1] at hbytes
    rw [← hbytes, ← hcursor]
    rfl

/-- A source that goes on behind an empty chunk. -/
def resumingScript : List SourceEvent :=
  [.chunk [1, 2], .chunk [3], .chunk [], .chunk [4, 5]]

/-- The end is found in the middle of an assembly. The two bytes that it had are lost, and those
behind the end stay with the source. -/
theorem end_of_stream_is_final_resuming :
    (Cursor.ofSource resumingScript).ledger [.byte, .bytes 4] = [⟨[1], []⟩, ⟨[], [2, 3]⟩] ∧
    (Cursor.ofSource resumingScript).ReportsEnd [.byte, .bytes 4] ∧
    ((Cursor.ofSource resumingScript).after [.byte, .bytes 4]).AtRest defaultMaxReadSize ∧
    ((Cursor.ofSource resumingScript).after ([.byte, .bytes 4] ++ [.bytes 2, .byte])).source =
      [.chunk [4, 5]] := by
  have hstart : Cursor.ofConfig {} resumingScript = .ok (Cursor.ofSource resumingScript) := by rfl
  have hsource : ChunkSource.FailsWith (fun cause => cause.isEndOfStream = false)
      resumingScript :=
    (failsWith_script resumingScript).mono fun cause hfailure => by
      obtain ⟨failure, rfl⟩ := hfailure
      rfl
  obtain ⟨_, hreports, hfinal, _⟩ := end_of_stream_is_final hstart [.byte, .bytes 4]
  have hended : ((Cursor.ofSource resumingScript).after [.byte, .bytes 4]).exhausted = true := by
    decide +kernel
  obtain ⟨_, hrest, hlater⟩ := hfinal hended
  refine ⟨by decide +kernel, (hreports hsource).mp hended, hrest, ?_⟩
  rw [(hlater [.bytes 2, .byte]).1]
  decide +kernel

/-- A source that fails with the end of the stream makes a read report it, and the cursor goes on
asking. -/
example : (Cursor.ofSource (Broken.mk (.endOfStream 7 3))).ReportsEnd [.byte] ∧
    ((Cursor.ofSource (Broken.mk (.endOfStream 7 3))).after [.byte]).exhausted = false := by
  exact ⟨⟨[], .byte, [], 7, 3, rfl, rfl⟩, rfl⟩

end Columnar
