import Columnar.Proofs.Chunk.Merging
import Columnar.Proofs.Cursor.Counting
import Columnar.Proofs.Cursor.Overflow
import Columnar.Proofs.EndOfStream

/-!
The same reads over larger chunks. Of two cursors that have handed out the same bytes, the one
over the merged source has pulled as much as the other or more, and whole chunks of the other. So
where it has too little for a read, the other has too little as well, and every read that straddles
over the merged source straddles over the other.
-/
namespace Columnar.Cursor

section Alone

variable [ChunkSource σ] {cursor : Cursor σ} {request : Request} {size : Nat} {bytes : Bytes}

theorem refilled_of_unread (h : cursor.region.unread ≠ []) : cursor.refilled = cursor := by
  rw [refilled, if_neg (by simpa using h)]

theorem buffered_refilled_of_next {chunk : Chunk} {last : σ} (hspent : cursor.region.unread = [])
    (hlive : cursor.exhausted = false)
    (hnext : ChunkSource.next cursor.source = (.ok (some chunk.bytes), last)) :
    cursor.refilled.buffered = chunk.length := by
  rw [refilled, if_pos (by simp [hspent]), pull_of_next hlive hnext]
  rfl

theorem buffered_refilled_of_halts (hspent : cursor.region.unread = [])
    (hhalts : cursor.exhausted = false → Halts cursor.source) : cursor.refilled.buffered = 0 := by
  by_contra hsome
  obtain ⟨chunks, _, region, hsupplies, hopen, hunread, hrefilled⟩ :=
    refilled_eq (Nat.pos_of_ne_zero hsome)
  have hnone : chunks = [] := by
    by_contra hmore
    exact hmore (hsupplies.eq_nil_of_halts (hhalts (hopen hmore)))
  rw [hspent, hnone, joined_nil] at hunread
  refine hsome ?_
  rw [hrefilled, buffered]
  exact List.length_eq_zero_iff.mpr hunread

/-- The source halts before there are as many bytes. -/
def Lacks (size : Nat) (cursor : Cursor σ) : Prop :=
  ∃ chunks middle, Supplies cursor.source chunks middle ∧ Halts middle ∧
    (cursor.region.unread ++ joined chunks).length < size

/-- No chunks of a source that halts too soon have the bytes. -/
theorem Lacks.lt (h : cursor.Lacks size) {chunks : List Chunk} {last : σ}
    (hsupplies : Supplies cursor.source chunks last) :
    (cursor.region.unread ++ joined chunks).length < size := by
  obtain ⟨all, middle, hall, hhalts, hshort⟩ := h
  obtain ⟨back, rfl⟩ := hsupplies.front_of_halts hall hhalts
  rw [joined_append, ← List.append_assoc, List.length_append] at hshort
  omega

theorem not_lacks_of_served (hserved : (request.run cursor).1 = .ok bytes) :
    ¬ cursor.Lacks request.size := by
  intro hlacks
  have hexchange := exchange request cursor
  generalize request.run cursor = outcome at hserved hexchange
  cases hexchange with
  | served hsupplies _ hbytes hsize =>
    have hlack := hlacks.lt hsupplies
    rw [hbytes, List.length_append] at hlack
    omega
  | refused => cases hserved
  | overflowed => cases hserved
  | failed => cases hserved
  | ended => cases hserved

/-- A read overflows only when it straddles and there is no room for it. -/
theorem straddled?_of_overflow (h : (request.run cursor).1 = .error .capacityOverflow) :
    request.straddled? cursor = some request.size ∧
      maxAllocation < cursor.capacityFor request.size := by
  cases request with
  | byte =>
    have hsingle := single cursor
    generalize Request.byte.run cursor = outcome at h hsingle
    cases hsingle with
    | closed => cases h
    | failed => cases h
    | ended => cases h
    | served => cases h
  | bytes size =>
    obtain ⟨hstraddles, hlarge⟩ := readBytes_overflows_iff.mp h
    exact ⟨Request.straddled?_eq_some_iff.mpr ⟨rfl, hstraddles⟩, hlarge⟩

/-- A read that is admitted and has its room is served, or it fails without being refused. -/
theorem served_or_fails (request : Request) (hopen : cursor.closed = false)
    (hadmitted : ∀ size, request = .bytes size → size ≤ cursor.config.maxReadSize)
    (hroom : (request.run cursor).1 ≠ .error .capacityOverflow) :
    (∃ bytes, (request.run cursor).1 = .ok bytes) ∨
      ∃ cause, (request.run cursor).1 = .error (.error cause) ∧
        ¬ request.Refused cursor cause := by
  cases hresult : (request.run cursor).1 with
  | ok bytes => exact .inl ⟨bytes, rfl⟩
  | error fault =>
    cases fault with
    | capacityOverflow => exact absurd hresult hroom
    | error cause =>
      refine .inr ⟨cause, rfl, ?_⟩
      rintro (⟨hclosed, _⟩ | ⟨size, hrequest, _, hlimit, _⟩)
      · simp [hopen] at hclosed
      · exact absurd (hadmitted size hrequest) (Nat.not_le.mpr hlimit)

/-- An assembly fails only at a source that halts too soon. -/
theorem lacks_of_straddles {cause : DecodeError} (hlive : cursor.exhausted = false)
    (hstraddles : cursor.straddles size = true)
    (hfails : (cursor.readBytes size).1 = .error (.error cause)) : cursor.Lacks size := by
  obtain ⟨_, _, hsome, hshort⟩ := straddles_iff.mp hstraddles
  have hacross := across hshort
  rw [readBytes_of_straddles hstraddles] at hfails
  obtain ⟨front, middle, region, hfront, _, hunread, hrefilled⟩ := refilled_eq hsome
  rw [hrefilled] at hfails hacross
  generalize readAcross size { cursor.supplied front middle with region } = outcome
    at hfails hacross
  have hwhole (back : List Chunk) :
      cursor.region.unread ++ joined (front ++ back) = region.unread ++ joined back := by
    rw [hunread, joined_append, List.append_assoc]
  cases hacross with
  | overflow => cases hfails
  | complete => cases hfails
  | failed _ hback _ hlack hnext =>
    exact ⟨_, _, hfront.append hback, .inr ⟨_, by rw [hnext]⟩, by rw [hwhole]; exact hlack⟩
  | ended _ hback _ hlack hstops =>
    replace hstops : Stops cursor.exhausted _ _ := hstops
    rw [hlive] at hstops
    exact ⟨_, _, hfront.append hback, .inl hstops.1, by rw [hwhole]; exact hlack⟩

theorem size_pos_of_fails {cause : DecodeError}
    (hfails : (request.run cursor).1 = .error (.error cause))
    (hgranted : ¬ request.Refused cursor cause) : 0 < request.size := by
  cases request with
  | byte => exact Nat.one_pos
  | bytes size =>
    refine Nat.pos_of_ne_zero fun hzero => ?_
    obtain rfl : size = 0 := hzero
    rw [Request.run, readBytes] at hfails
    by_cases hclosed : cursor.closed = true
    · rw [if_pos hclosed] at hfails
      cases hfails
      exact hgranted (.inl ⟨hclosed, rfl⟩)
    · rw [if_neg hclosed, if_pos rfl] at hfails
      cases hfails

/-- A read that does not straddle fails only at a source that halts at once. -/
theorem halts_of_fails {cause : DecodeError} (hlive : cursor.exhausted = false)
    (hdirect : request.straddled? cursor = none)
    (hfails : (request.run cursor).1 = .error (.error cause))
    (hgranted : ¬ request.Refused cursor cause) :
    cursor.region.unread = [] ∧ Halts cursor.source := by
  have hfailed := failedRead hfails
  obtain ⟨hspent, _, ⟨last, _, hnext, _⟩ | ⟨last, _, _, hstops, _⟩⟩ :=
    hfailed.emptyHanded hdirect (hfailed.granted hgranted)
  · exact ⟨hspent, .inr ⟨cause, by rw [hnext]⟩⟩
  · rw [hlive] at hstops
    exact ⟨hspent, .inl hstops.1⟩

theorem lacks_of_fails {cause : DecodeError} (hlive : cursor.exhausted = false)
    (hfails : (request.run cursor).1 = .error (.error cause))
    (hgranted : ¬ request.Refused cursor cause) : cursor.Lacks request.size := by
  cases hstraddled : request.straddled? cursor with
  | some size =>
    obtain ⟨rfl, hstraddles⟩ := Request.straddled?_eq_some_iff.mp hstraddled
    exact lacks_of_straddles hlive hstraddles hfails
  | none =>
    obtain ⟨hspent, hhalts⟩ := halts_of_fails hlive hstraddled hfails hgranted
    refine ⟨[], _, .none _, hhalts, ?_⟩
    rw [hspent]
    exact size_pos_of_fails hfails hgranted

end Alone

variable [ChunkSource σ] [ChunkSource τ]

/-- Both cursors have handed out the same bytes, and their sources are not known to have ended.
The second has pulled whole merged chunks, and what it has in excess the first still has in
front of it. -/
structure Leads (fine : Cursor σ) (coarse : Cursor τ) : Prop where
  opened : fine.closed = false ∧ coarse.closed = false
  live : fine.exhausted = false ∧ coarse.exhausted = false
  ahead : ∃ chunks middle, Supplies fine.source chunks middle ∧ Merged middle coarse.source ∧
    coarse.region.unread = fine.region.unread ++ joined chunks

/-- The cursors have handed out the same bytes. -/
structure Abreast (fine : Cursor σ) (coarse : Cursor τ) : Prop where
  configured : coarse.config = fine.config
  places : Leads fine coarse ∨ fine.Drained ∧ coarse.Drained

variable {fine : Cursor σ} {coarse : Cursor τ} {request : Request} {size : Nat}

/-- What the second cursor can pull, the first can. -/
theorem Leads.supplies (h : Leads fine coarse) {chunks : List Chunk} {last : τ}
    (hsupplies : Supplies coarse.source chunks last) :
    ∃ pieces last', Supplies fine.source pieces last' ∧ Merged last' last ∧
      fine.region.unread ++ joined pieces = coarse.region.unread ++ joined chunks := by
  obtain ⟨ahead, middle, hahead, hmerged, hunread⟩ := h.ahead
  obtain ⟨pieces, last', hpieces, hjoined, hlater⟩ := hmerged.supplies hsupplies
  refine ⟨ahead ++ pieces, last', hahead.append hpieces, hlater, ?_⟩
  rw [joined_append, hjoined, hunread, List.append_assoc]

theorem Leads.lacks (h : Leads fine coarse) (hlacks : coarse.Lacks size) : fine.Lacks size := by
  obtain ⟨chunks, middle, hsupplies, hhalts, hlack⟩ := hlacks
  obtain ⟨pieces, last, hpieces, hmerged, hwhole⟩ := h.supplies hsupplies
  exact ⟨pieces, last, hpieces, hmerged.halts_iff.mpr hhalts, by rw [hwhole]; exact hlack⟩

/-- Before a source that halts, the second cursor has nothing in excess. -/
theorem Leads.of_halts (h : Leads fine coarse) (hspent : fine.region.unread = [])
    (hhalts : Halts fine.source) :
    coarse.region.unread = [] ∧ Merged fine.source coarse.source := by
  obtain ⟨ahead, middle, hahead, hmerged, hunread⟩ := h.ahead
  obtain rfl := hahead.eq_nil_of_halts hhalts
  cases hahead
  rw [hspent, joined_nil] at hunread
  exact ⟨hunread, hmerged⟩

/-- The second cursor has at least as much to read from, and it has something only if the first
has. -/
theorem Leads.buffered_refilled (h : Leads fine coarse) :
    fine.refilled.buffered ≤ coarse.refilled.buffered ∧
      (0 < coarse.refilled.buffered → 0 < fine.refilled.buffered) := by
  obtain ⟨ahead, middle, hahead, hmerged, hunread⟩ := h.ahead
  by_cases hspent : fine.region.unread = []
  · rw [hspent, List.nil_append] at hunread
    cases hahead with
    | none =>
      cases hmerged.step with
      | @chunk pieces chunk _ _ hpieces hnext hbytes =>
        rw [buffered_refilled_of_next hunread h.live.2 hnext]
        cases hpieces with
        | none => exact absurd rfl (Merged.pieces_ne_nil hbytes)
        | more hfirst =>
          rw [buffered_refilled_of_next hspent h.live.1 hfirst]
          have hlength := congrArg List.length hbytes
          rw [joined_cons, List.length_append, Chunk.length_bytes, Chunk.length_bytes] at hlength
          exact ⟨by omega, fun _ => Chunk.length_pos _⟩
      | failure hfine hcoarse =>
        rw [buffered_refilled_of_halts hspent fun _ => .inr ⟨_, by rw [hfine]⟩,
          buffered_refilled_of_halts hunread fun _ => .inr ⟨_, by rw [hcoarse]⟩]
        exact ⟨Nat.le_refl 0, id⟩
      | finish hfine hcoarse =>
        rw [buffered_refilled_of_halts hspent fun _ => .inl hfine,
          buffered_refilled_of_halts hunread fun _ => .inl hcoarse]
        exact ⟨Nat.le_refl 0, id⟩
    | @more _ _ _ first later hfirst =>
      have hmore : coarse.region.unread ≠ [] := by
        rw [hunread]
        exact List.append_ne_nil_of_left_ne_nil first.bytes_ne_nil _
      rw [buffered_refilled_of_next hspent h.live.1 hfirst, refilled_of_unread hmore, buffered,
        hunread, joined_cons, List.length_append, Chunk.length_bytes]
      exact ⟨Nat.le_add_right _ _, fun _ => first.length_pos⟩
  · have hboth : coarse.region.unread ≠ [] := by
      rw [hunread]
      exact List.append_ne_nil_of_left_ne_nil hspent _
    rw [refilled_of_unread hspent, refilled_of_unread hboth, buffered, buffered, hunread,
      List.length_append]
    exact ⟨Nat.le_add_right _ _, fun _ => List.length_pos_iff.mpr hspent⟩

/-- A read straddles over the larger chunks only if it does over the smaller ones. -/
theorem Abreast.straddled? (h : Abreast fine coarse)
    (hstraddled : request.straddled? coarse = some size) :
    request.straddled? fine = some size := by
  obtain ⟨rfl, hstraddles⟩ := Request.straddled?_eq_some_iff.mp hstraddled
  obtain ⟨_, hlimit, hsome, hshort⟩ := straddles_iff.mp hstraddles
  rcases h.places with hleads | ⟨_, hdrained⟩
  · obtain ⟨hle, hpos⟩ := hleads.buffered_refilled
    refine Request.straddled?_eq_some_iff.mpr ⟨rfl, straddles_iff.mpr ?_⟩
    exact ⟨hleads.opened.1, h.configured ▸ hlimit, hpos hsome, by omega⟩
  · rw [buffered_refilled_of_halts hdrained.spent (by simp [hdrained.exhausted])] at hsome
    exact absurd hsome (Nat.lt_irrefl 0)

theorem Abreast.direct (h : Abreast fine coarse) (hdirect : request.straddled? fine = none) :
    request.straddled? coarse = none := by
  cases hstraddled : request.straddled? coarse with
  | none => rfl
  | some size =>
    rw [h.straddled? hstraddled] at hdirect
    cases hdirect

/-- Where the first cursor finds no byte, neither does the second. -/
theorem Leads.lacks_of_fails (h : Leads fine coarse) {cause : DecodeError}
    (hfails : (request.run fine).1 = .error (.error cause))
    (hgranted : ¬ request.Refused fine cause) (hdirect : request.straddled? fine = none) :
    coarse.Lacks request.size := by
  obtain ⟨hspent, hhalts⟩ := halts_of_fails h.live.1 hdirect hfails hgranted
  obtain ⟨hspent', hmerged⟩ := h.of_halts hspent hhalts
  refine ⟨[], _, .none _, hmerged.halts_iff.mp hhalts, ?_⟩
  rw [hspent']
  exact size_pos_of_fails hfails hgranted

/-- Both cursors take as many bytes from their regions and chunks, and the first has pulled no
chunk that it did not need. -/
theorem Leads.ahead_served (h : Leads fine coarse) {chunks : List Chunk} {bytes : Bytes}
    {fine' : Cursor σ} {chunks' : List Chunk} {bytes' : Bytes} {coarse' : Cursor τ}
    (hsupplies : Supplies fine.source chunks fine'.source)
    (hbytes : fine.region.unread ++ joined chunks = bytes ++ fine'.region.unread)
    (hlast : ∀ chunk, chunks.getLast? = some chunk → fine'.buffered < chunk.length)
    (hsupplies' : Supplies coarse.source chunks' coarse'.source)
    (hbytes' : coarse.region.unread ++ joined chunks' = bytes' ++ coarse'.region.unread)
    (hsize : bytes.length = bytes'.length) :
    ∃ chunks middle, Supplies fine'.source chunks middle ∧ Merged middle coarse'.source ∧
      coarse'.region.unread = fine'.region.unread ++ joined chunks := by
  obtain ⟨pieces, last, hpieces, hmerged, hwhole⟩ := h.supplies hsupplies'
  rw [hbytes'] at hwhole
  have henough : ∃ back, pieces = chunks ++ back ∧ Supplies fine'.source back last := by
    rcases hsupplies.front_or hpieces with hback | ⟨back, rfl⟩
    · exact hback
    · cases hheld : back.getLast? with
      | none =>
        obtain rfl := List.getLast?_eq_none_iff.mp hheld
        rw [List.append_nil] at hsupplies ⊢
        obtain rfl := hsupplies.unique hpieces
        exact ⟨[], (List.append_nil _).symm, .none _⟩
      | some chunk =>
        -- a further chunk of the first cursor would have no byte that was handed out
        exfalso
        obtain ⟨front, rfl⟩ := List.getLast?_eq_some_iff.mp hheld
        have hshort := hlast chunk (by simp)
        have hlength := congrArg List.length hbytes
        have hlength' := congrArg List.length hwhole
        rw [buffered] at hshort
        simp only [joined_append, joined_cons, joined_nil, List.append_nil, List.length_append,
          Chunk.length_bytes] at hlength hlength'
        omega
  obtain ⟨back, rfl, hback⟩ := henough
  refine ⟨back, last, hback, hmerged, ?_⟩
  rw [joined_append, ← List.append_assoc, hbytes, List.append_assoc] at hwhole
  exact (List.append_inj_right hwhole hsize).symm

theorem Leads.served (h : Leads fine coarse) {bytes bytes' : Bytes}
    (hserved : (request.run fine).1 = .ok bytes) (hserved' : (request.run coarse).1 = .ok bytes') :
    Leads (request.run fine).2 (request.run coarse).2 := by
  have hexchange := exchange request fine
  have hexchange' := exchange request coarse
  generalize request.run fine = outcome at hserved hexchange ⊢
  generalize request.run coarse = outcome' at hserved' hexchange' ⊢
  cases hexchange with
  | refused => cases hserved
  | overflowed => cases hserved
  | failed => cases hserved
  | ended => cases hserved
  | served hsupplies _ hbytes hsize hlast _ _ hexhausted hclosed =>
    cases hexchange' with
    | refused => cases hserved'
    | overflowed => cases hserved'
    | failed => cases hserved'
    | ended => cases hserved'
    | served hsupplies' _ hbytes' hsize' _ _ _ hexhausted' hclosed' =>
      exact ⟨⟨hclosed.trans h.opened.1, hclosed'.trans h.opened.2⟩,
        ⟨hexhausted.trans h.live.1, hexhausted'.trans h.live.2⟩,
        h.ahead_served hsupplies hbytes hlast hsupplies' hbytes' (hsize.trans hsize'.symm)⟩

/-- Reads that fail before they have taken anything pass the same failure or the same end. -/
theorem Leads.failed (h : Leads fine coarse) {cause cause' : DecodeError}
    (hfails : (request.run fine).1 = .error (.error cause))
    (hgranted : ¬ request.Refused fine cause) (hdirect : request.straddled? fine = none)
    (hfails' : (request.run coarse).1 = .error (.error cause'))
    (hgranted' : ¬ request.Refused coarse cause') (hdirect' : request.straddled? coarse = none) :
    Leads (request.run fine).2 (request.run coarse).2 ∨
      (request.run fine).2.Drained ∧ (request.run coarse).2.Drained := by
  obtain ⟨hspent, hhalts⟩ := halts_of_fails h.live.1 hdirect hfails hgranted
  obtain ⟨hspent', hmerged⟩ := h.of_halts hspent hhalts
  have hfailed := failedRead hfails
  have hfailed' := failedRead hfails'
  obtain ⟨_, _, hfine⟩ := hfailed.emptyHanded hdirect (hfailed.granted hgranted)
  obtain ⟨_, _, hcoarse⟩ := hfailed'.emptyHanded hdirect' (hfailed'.granted hgranted')
  rcases hfine with ⟨last, _, hnext, hafter⟩ | ⟨last, _, _, hstops, hafter⟩
  · obtain ⟨last', hnext', hlater⟩ := hmerged.failure hnext
    rcases hcoarse with ⟨_, _, hanswer, hafter'⟩ | ⟨_, _, _, hstops', _⟩
    · rw [hnext'] at hanswer
      obtain ⟨_, rfl⟩ := Prod.mk.inj hanswer
      rw [hafter, hafter']
      exact .inl ⟨h.opened, h.live, [], last, .none last, hlater, by simp [hspent, hspent']⟩
    · rw [h.live.2] at hstops'
      simp [Stops, Ends, hnext'] at hstops'
  · rw [h.live.1] at hstops
    have hends := hmerged.ends hstops.1
    rcases hcoarse with ⟨_, _, hanswer, _⟩ | ⟨_, _, _, _, hafter'⟩
    · simp [Ends, hanswer] at hends
    · rw [hafter, hafter']
      exact .inr ⟨⟨h.opened.1, rfl, hspent⟩, ⟨h.opened.2, rfl, hspent'⟩⟩

theorem Abreast.run (h : Abreast fine coarse) (hintact : request.Intact fine)
    (hroom : coarse.capacityFor request.size ≤ maxAllocation) :
    Abreast (request.run fine).2 (request.run coarse).2 := by
  refine ⟨(storage_run request coarse).1.trans
    (h.configured.trans (storage_run request fine).1.symm), ?_⟩
  rcases h.places with hleads | ⟨hdrained, hdrained'⟩
  case inr =>
    rw [hdrained.run, hdrained'.run]
    exact .inr ⟨hdrained, hdrained'⟩
  by_cases hlarge : ∃ size, request = .bytes size ∧ fine.config.maxReadSize < size
  · -- the read is refused by both
    obtain ⟨size, rfl, hlimit⟩ := hlarge
    rw [Request.run, Request.run, readBytes_of_large hleads.opened.1 hlimit,
      readBytes_of_large hleads.opened.2 (h.configured ▸ hlimit)]
    exact .inl hleads
  have hadmitted (size : Nat) (hrequest : request = .bytes size) :
      size ≤ fine.config.maxReadSize := Nat.not_lt.mp fun hlimit => hlarge ⟨size, hrequest, hlimit⟩
  have hfine := served_or_fails request hleads.opened.1 hadmitted fun hover => by
    have hdirect := hintact.direct hover
    rw [(straddled?_of_overflow hover).1] at hdirect
    cases hdirect
  have hcoarse := served_or_fails request hleads.opened.2 (h.configured ▸ hadmitted)
    fun hover => absurd hroom (Nat.not_le.mpr (straddled?_of_overflow hover).2)
  rcases hfine with ⟨bytes, hok⟩ | ⟨cause, hfails, hgranted⟩
  · rcases hcoarse with ⟨bytes', hok'⟩ | ⟨cause', hfails', hgranted'⟩
    · exact .inl (hleads.served hok hok')
    · have hlacks := lacks_of_fails hleads.live.2 hfails' hgranted'
      exact absurd (hleads.lacks hlacks) (not_lacks_of_served hok)
  · have hdirect := hintact.direct hfails
    rcases hcoarse with ⟨bytes', hok'⟩ | ⟨cause', hfails', hgranted'⟩
    · have hlacks := hleads.lacks_of_fails hfails hgranted hdirect
      exact absurd hlacks (not_lacks_of_served hok')
    · exact hleads.failed hfails hgranted hdirect hfails' hgranted' (h.direct hdirect)

/-- The straddling reads over the larger chunks are some of those over the smaller ones. -/
theorem Abreast.straddled (h : Abreast fine coarse) {requests : List Request}
    (hintact : fine.Intact requests) (hscratch : coarse.config.initialScratchCapacity ≤ 2 ^ 62)
    (hcapacity : coarse.scratchCapacity ≤ maxAllocation)
    (hsizes : ∀ request ∈ requests, request.size ≤ 2 ^ 61) :
    (coarse.straddled requests).Sublist (fine.straddled requests) := by
  induction requests generalizing fine coarse with
  | nil => exact List.Sublist.refl _
  | cons request requests ih =>
    rw [List.forall_mem_cons] at hsizes
    obtain ⟨hconfig, hroom⟩ := storage_run request coarse
    have hnext := h.run hintact.1 (capacityFor_le hsizes.1 hscratch hcapacity)
    rw [Cursor.straddled, Cursor.straddled]
    refine List.Sublist.append ?_
      (ih hnext hintact.2 (hconfig ▸ hscratch) (hroom hcapacity) hsizes.2)
    cases hstraddled : request.straddled? coarse with
    | none => exact List.nil_sublist _
    | some size =>
      have hfine := h.straddled? hstraddled
      simp [hfine]

theorem straddled_of_merged {config : DecoderConfig} {source : σ} {source' : τ}
    (hmerged : Merged source source') (hstart : ofConfig config source = .ok fine)
    (hstart' : ofConfig config source' = .ok coarse)
    (hscratch : config.initialScratchCapacity ≤ 2 ^ 62) {requests : List Request}
    (hsizes : ∀ request ∈ requests, request.size ≤ 2 ^ 61) (hintact : fine.Intact requests) :
    (coarse.straddled requests).Sublist (fine.straddled requests) := by
  obtain ⟨_, rfl⟩ := ofConfig_eq_ok_iff.mp hstart
  obtain ⟨_, rfl⟩ := ofConfig_eq_ok_iff.mp hstart'
  have habreast : Abreast ({ source, config } : Cursor σ)
      ({ source := source', config } : Cursor τ) :=
    ⟨rfl, .inl ⟨⟨rfl, rfl⟩, ⟨rfl, rfl⟩, [], source, .none source, hmerged, rfl⟩⟩
  exact habreast.straddled hintact hscratch (Nat.zero_le _) hsizes

end Columnar.Cursor
