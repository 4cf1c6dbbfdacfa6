import Columnar.Proofs.Cursor.Exchange
import Columnar.Proofs.Cursor.Offers

/-!
A cursor pulls no chunk before it needs one. As long as no assembly has failed, the chunks that it
has pulled are the fewest that hold the bytes it has handed out, so they are told by the position
alone: it does not matter which reads led there.
-/
namespace Columnar

variable [ChunkSource σ]

/-- The source does not fail before its end. It need not have one. -/
def Unfailing (source : σ) : Prop :=
  ∀ chunks last, Supplies source chunks last →
    ∀ cause, (ChunkSource.next last).1 ≠ .error cause

theorem unfailing_list (chunks : List Bytes) : Unfailing chunks := by
  intro _ last _ cause
  cases last <;> exact nofun

/-- The read begins to assemble its bytes and then fails. -/
def Request.breaks (request : Request) (cursor : Cursor σ) : Bool :=
  match request.straddled? cursor, (request.run cursor).1 with
  | some _, .error (.error _) => true
  | _, _ => false

namespace Cursor

/-- No assembly fails in a run. -/
def unbroken : List Request → Cursor σ → Bool
  | [], _ => true
  | request :: requests, cursor =>
    !request.breaks cursor && unbroken requests (request.run cursor).2

/-- The chunks pulled hold what was handed out and what is buffered, and some of the last of them
was handed out. What is left of the source comes behind them. -/
structure Holds (source : σ) (chunks : List Chunk) (rest : σ) (cursor : Cursor σ) : Prop where
  supplied : Supplies source chunks rest
  counted : cursor.counters.chunksPulled = chunks.length
  total : cursor.position + cursor.buffered = (joined chunks).length
  last : ∀ chunk, chunks.getLast? = some chunk → cursor.buffered < chunk.length
  leftover : cursor.exhausted = false → cursor.source = rest
  passed : cursor.exhausted = true → Ends rest ∧ cursor.source = (ChunkSource.next rest).2

/-- The chunks pulled are those that the bytes handed out need, and no fewer would do. -/
structure Demanded (source : σ) (chunks : List Chunk) (rest : σ) (cursor : Cursor σ) : Prop
    extends Holds source chunks rest cursor where
  least : ∀ fewer < chunks.length, (joined (chunks.take fewer)).length < cursor.position

/-- The cursor has pulled just what it needed. -/
def OnDemand (source : σ) (cursor : Cursor σ) : Prop :=
  ∃ chunks rest, Demanded source chunks rest cursor

variable {source rest : σ} {chunks : List Chunk} {cursor : Cursor σ} {request : Request}

theorem length_joined_take_le (fewer : Nat) (chunks : List Chunk) :
    (joined (chunks.take fewer)).length ≤ (joined chunks).length := by
  have hsplit := joined_append (chunks.take fewer) (chunks.drop fewer)
  rw [List.take_append_drop] at hsplit
  rw [hsplit, List.length_append]
  exact Nat.le_add_right _ _

theorem Holds.demanded (h : Holds source chunks rest cursor) :
    Demanded source chunks rest cursor where
  toHolds := h
  least fewer hfewer := by
    cases hchunks : chunks.getLast? with
    | none => simp [List.getLast?_eq_none_iff.mp hchunks] at hfewer
    | some chunk =>
      have hlast := h.last chunk hchunks
      have htotal := h.total
      obtain ⟨front, rfl⟩ := List.getLast?_eq_some_iff.mp hchunks
      rw [List.length_append, List.length_singleton] at hfewer
      rw [joined_append, List.length_append, joined_cons, joined_nil, List.append_nil,
        Chunk.length_bytes] at htotal
      have hfront := length_joined_take_le fewer front
      rw [List.take_append_of_le_length (by omega)]
      omega

/-- A read that hands out bytes takes the next chunks of the source. -/
theorem Holds.served (h : Holds source chunks rest cursor) {more : List Chunk} {bytes : Bytes}
    {after : Cursor σ} (hsupplies : Supplies cursor.source more after.source)
    (hopen : more ≠ [] → cursor.exhausted = false)
    (hbytes : cursor.region.unread ++ joined more = bytes ++ after.region.unread)
    (hlast : ∀ chunk, more.getLast? = some chunk → after.buffered < chunk.length)
    (hcounted : after.counters.chunksPulled = cursor.counters.chunksPulled + more.length)
    (hposition : after.position = cursor.position + bytes.length)
    (hexhausted : after.exhausted = cursor.exhausted) :
    ∃ later, Holds source (chunks ++ more) later after := by
  have hlength := congrArg List.length hbytes
  rw [List.length_append, List.length_append, ← buffered, ← buffered] at hlength
  have hpulled : after.counters.chunksPulled = (chunks ++ more).length := by
    rw [hcounted, h.counted, List.length_append]
  have htotal : after.position + after.buffered = (joined (chunks ++ more)).length := by
    rw [joined_append, List.length_append, ← h.total, hposition]
    omega
  have hfresh : ∀ chunk, (chunks ++ more).getLast? = some chunk →
      after.buffered < chunk.length := by
    intro chunk hchunk
    by_cases hmore : more = []
    · rw [hmore, List.append_nil] at hchunk
      have hbefore := h.last chunk hchunk
      rw [hmore, joined_nil, List.length_nil] at hlength
      omega
    · rw [List.getLast?_append, Option.or_of_isSome (by simpa using hmore)] at hchunk
      exact hlast chunk hchunk
  cases hlive : cursor.exhausted with
  | false =>
    rw [hlive] at hexhausted
    rw [h.leftover hlive] at hsupplies
    exact ⟨after.source, h.supplied.append hsupplies, hpulled, htotal, hfresh, fun _ => rfl,
      fun hended => by simp [hexhausted] at hended⟩
  | true =>
    -- the source is not asked any more, so nothing was taken
    have hmore : more = [] := by
      cases more with
      | nil => rfl
      | cons => simp [hopen (List.cons_ne_nil _ _)] at hlive
    subst hmore
    rw [hlive] at hexhausted
    obtain ⟨hends, hsource⟩ := h.passed hlive
    have hsame : cursor.source = after.source := (Supplies.none _).unique hsupplies
    refine ⟨rest, ?_, hpulled, htotal, hfresh, fun hended => by simp [hexhausted] at hended,
      fun _ => ⟨hends, by rw [← hsame, hsource]⟩⟩
    rw [List.append_nil]
    exact h.supplied

/-- A read that fails before it has taken anything takes at most the end. -/
theorem Holds.failed (h : Holds source chunks rest cursor) (hsource : Unfailing source)
    {origin : Origin} {cause : DecodeError} {after : Cursor σ}
    (hfails : FailedRead cursor request origin cause after)
    (hdirect : request.straddled? cursor = none) : Holds source chunks rest after := by
  cases hfails with
  | closed => exact h
  | tooLarge => exact h
  | failed _ _ hopen hnext =>
    rw [h.leftover hopen] at hnext
    exact absurd (congrArg Prod.fst hnext) (hsource chunks rest h.supplied _)
  | @ended _ last _ _ hstops =>
    refine ⟨h.supplied, h.counted, h.total, h.last, nofun, fun _ => ?_⟩
    cases hlive : cursor.exhausted with
    | false =>
      rw [hlive, h.leftover hlive] at hstops
      exact hstops
    | true =>
      rw [hlive] at hstops
      obtain rfl : last = cursor.source := hstops
      exact h.passed hlive
  | lostToFailure hstraddles => simp [Request.straddled?, hstraddles] at hdirect
  | lostToEnd hstraddles => simp [Request.straddled?, hstraddles] at hdirect

theorem Holds.run (h : Holds source chunks rest cursor) (hsource : Unfailing source)
    (hroom : cursor.capacityFor request.size ≤ maxAllocation)
    (hunbroken : request.breaks cursor = false) :
    ∃ chunks rest, Holds source chunks rest (request.run cursor).2 := by
  by_cases hfails : ∃ cause, (request.run cursor).1 = .error (.error cause)
  · obtain ⟨cause, hfails⟩ := hfails
    have hdirect : request.straddled? cursor = none := by
      cases hstraddled : request.straddled? cursor with
      | none => rfl
      | some size => simp [Request.breaks, hstraddled, hfails] at hunbroken
    exact ⟨chunks, rest, h.failed hsource (failedRead hfails) hdirect⟩
  · have hexchange := exchange request cursor
    generalize request.run cursor = outcome at hfails hexchange ⊢
    cases hexchange with
    | served hsupplies hopen hbytes hsize hlast hcounted hposition hexhausted =>
      rw [← hsize] at hposition
      exact ⟨_, h.served hsupplies hopen hbytes hlast hcounted hposition hexhausted⟩
    | refused => exact absurd ⟨_, rfl⟩ hfails
    | overflowed hrequest _ hlarge =>
      subst hrequest
      exact absurd hroom (Nat.not_le.mpr hlarge)
    | failed => exact absurd ⟨_, rfl⟩ hfails
    | ended => exact absurd ⟨_, rfl⟩ hfails

theorem Holds.after (h : Holds source chunks rest cursor) (hsource : Unfailing source)
    (hscratch : cursor.config.initialScratchCapacity ≤ 2 ^ 62)
    (hcapacity : cursor.scratchCapacity ≤ maxAllocation) (requests : List Request)
    (hsizes : ∀ request ∈ requests, request.size ≤ 2 ^ 61)
    (hunbroken : cursor.unbroken requests = true) :
    ∃ chunks rest, Holds source chunks rest (cursor.after requests) := by
  induction requests generalizing chunks rest cursor with
  | nil => exact ⟨chunks, rest, h⟩
  | cons request requests ih =>
    rw [List.forall_mem_cons] at hsizes
    simp only [unbroken, Bool.and_eq_true, Bool.not_eq_true'] at hunbroken
    obtain ⟨hconfig, hroom⟩ := storage_run request cursor
    obtain ⟨_, _, hnext⟩ :=
      h.run hsource (capacityFor_le hsizes.1 hscratch hcapacity) hunbroken.1
    exact ih hnext (hconfig ▸ hscratch) (hroom hcapacity) hsizes.2 hunbroken.2

/-- A run of a new cursor. -/
theorem onDemand_after {config : DecoderConfig} {start : Cursor σ} (hsource : Unfailing source)
    (hstart : ofConfig config source = .ok start)
    (hscratch : config.initialScratchCapacity ≤ 2 ^ 62) {requests : List Request}
    (hsizes : ∀ request ∈ requests, request.size ≤ 2 ^ 61)
    (hunbroken : start.unbroken requests = true) : OnDemand source (start.after requests) := by
  obtain ⟨_, rfl⟩ := ofConfig_eq_ok_iff.mp hstart
  have hnew : Holds source [] source ({ source, config } : Cursor σ) :=
    ⟨.none _, rfl, rfl, nofun, fun _ => rfl, nofun⟩
  obtain ⟨chunks, rest, hafter⟩ :=
    hnew.after hsource hscratch (Nat.zero_le _) requests hsizes hunbroken
  exact ⟨chunks, rest, hafter.demanded⟩

/-- Of two stretches that hold the bytes up to the same place none is longer. -/
theorem Demanded.length_le {chunks' : List Chunk} {rest' : σ} {cursor' : Cursor σ}
    (h : Demanded source chunks rest cursor) (h' : Demanded source chunks' rest' cursor')
    (hposition : cursor.position = cursor'.position) : chunks.length ≤ chunks'.length := by
  refine Nat.le_of_not_lt fun hless => ?_
  have hleast := h.least chunks'.length hless
  have htotal := h'.total
  rcases h'.supplied.front_or h.supplied with ⟨back, rfl, _⟩ | ⟨back, rfl⟩
  · rw [List.take_left] at hleast
    omega
  · rw [List.length_append] at hless
    omega

theorem Demanded.unique {chunks' : List Chunk} {rest' : σ} {cursor' : Cursor σ}
    (h : Demanded source chunks rest cursor) (h' : Demanded source chunks' rest' cursor')
    (hposition : cursor.position = cursor'.position) : chunks = chunks' ∧ rest = rest' := by
  have hlength : chunks.length = chunks'.length :=
    Nat.le_antisymm (h.length_le h' hposition) (h'.length_le h hposition.symm)
  have hchunks : chunks = chunks' := by
    rcases h'.supplied.front_or h.supplied with ⟨back, rfl, _⟩ | ⟨back, rfl⟩
    all_goals
      rw [List.length_append] at hlength
      rw [List.length_eq_zero_iff.mp (by omega : back.length = 0), List.append_nil]
  subst hchunks
  exact ⟨rfl, h.supplied.unique h'.supplied⟩

end Cursor

/-- A run of reads in which no assembly fails pulls the fewest chunks that hold the bytes that it
hands out, and so does a program, which is a run of reads. Two runs that hand out equally many
bytes have pulled and buffered the same, however the bytes were read. -/
theorem pulls_on_demand {source : σ} (hsource : Unfailing source) :
    (∀ {config : DecoderConfig} {start : Cursor σ} (requests : List Request),
      Cursor.ofConfig config source = .ok start → config.initialScratchCapacity ≤ 2 ^ 62 →
      (∀ request ∈ requests, request.size ≤ 2 ^ 61) → start.unbroken requests = true →
      (start.after requests).OnDemand source) ∧
    (∀ {config : DecoderConfig} {start : Cursor σ} (steps : List ReadStep),
      Cursor.ofConfig config source = .ok start → config.initialScratchCapacity ≤ 2 ^ 62 →
      (∀ request ∈ ReadStep.reads Cursor.byteSource steps start, request.size ≤ 2 ^ 61) →
      start.unbroken (ReadStep.reads Cursor.byteSource steps start) = true →
      (ReadStep.finish Cursor.byteSource steps start).OnDemand source) ∧
    ∀ first second : Cursor σ, first.OnDemand source → second.OnDemand source →
      first.position = second.position →
      first.counters.chunksPulled = second.counters.chunksPulled ∧
      first.buffered = second.buffered ∧
      (first.exhausted = false → second.exhausted = false → first.source = second.source) := by
  refine ⟨?runs, ?programs, ?same⟩
  case runs =>
    intro config start requests hstart hscratch hsizes hunbroken
    exact Cursor.onDemand_after hsource hstart hscratch hsizes hunbroken
  case programs =>
    intro config start steps hstart hscratch hsizes hunbroken
    rw [Cursor.finish_eq]
    exact Cursor.onDemand_after hsource hstart hscratch hsizes hunbroken
  case same =>
    rintro first second ⟨chunks, rest, hfirst⟩ ⟨_, _, hsecond⟩ hposition
    obtain ⟨rfl, rfl⟩ := hfirst.unique hsecond hposition
    have htotal := hfirst.total
    have htotal' := hsecond.total
    refine ⟨by rw [hfirst.counted, hsecond.counted], by omega, fun hlive hlive' => ?_⟩
    rw [hfirst.leftover hlive, hsecond.leftover hlive']

/-- Four chunks, of which three are needed for the first five bytes. -/
def fourChunks : List Bytes := [[1], [2, 3], [4, 5, 6], [7]]

/-- A byte, nothing, an assembly of two chunks and a read that is refused. -/
def fourReads : List Request := [.byte, .bytes 0, .bytes 4, .bytes (2 ^ 60)]

/-- The same bytes as two numbers and a byte. -/
def fourSteps : List ReadStep := [.column (.number .u16) 2, .byte]

/-- Both runs stop inside the third chunk, with one byte of it left and the last one not pulled. -/
theorem pulls_on_demand_partitioned :
    ((Cursor.ofSource fourChunks).after fourReads).OnDemand fourChunks ∧
    ((Cursor.ofSource fourChunks).after fourReads).counters.chunksPulled = 3 ∧
    ((Cursor.ofSource fourChunks).after fourReads).buffered = 1 ∧
    (ReadStep.finish Cursor.byteSource fourSteps (Cursor.ofSource fourChunks)).source = [[7]] := by
  have hlaw := pulls_on_demand (unfailing_list fourChunks)
  have hstart : Cursor.ofConfig {} fourChunks = .ok (Cursor.ofSource fourChunks) := by rfl
  have hfirst := hlaw.1 fourReads hstart (by decide) (by decide) (by decide +kernel)
  have hsecond := hlaw.2.1 fourSteps hstart (by decide) (by decide +kernel) (by decide +kernel)
  obtain ⟨hpulled, hbuffered, hsource⟩ := hlaw.2.2 _ _ hfirst hsecond (by decide +kernel)
  refine ⟨hfirst, hpulled.trans (by decide +kernel), hbuffered.trans (by decide +kernel), ?_⟩
  rw [← hsource (by decide +kernel) (by decide +kernel)]
  decide +kernel

end Columnar
