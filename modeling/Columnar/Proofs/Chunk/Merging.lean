import Columnar.Proofs.Chunk.Supply

/-!
Sources with larger chunks. One source does what another does, but a chunk of it may be several
chunks in a row of the other. The relation is the largest one that a call keeps, so it also speaks
of sources that fail and go on, and of sources that never end.
-/
namespace Columnar

section Halts

variable [ChunkSource σ] {source last middle : σ} {chunks : List Chunk}

/-- The next answer is no chunk. -/
def Halts (source : σ) : Prop :=
  Ends source ∨ ∃ cause, (ChunkSource.next source).1 = .error cause

theorem Halts.not_chunk {chunk : Chunk} (h : Halts source) :
    ChunkSource.next source ≠ (.ok (some chunk.bytes), last) := by
  intro hnext
  rcases h with (hends | hends) | ⟨cause, hfails⟩
  · rw [hnext] at hends
    cases hends
  · rw [hnext] at hends
    exact chunk.bytes_ne_nil (Option.some.inj (Except.ok.inj hends))
  · rw [hnext] at hfails
    cases hfails

theorem Supplies.eq_nil_of_halts (h : Supplies source chunks last) (hhalts : Halts source) :
    chunks = [] := by
  cases h with
  | none => rfl
  | more hnext => exact absurd hnext hhalts.not_chunk

/-- The chunks up to the next answer that is none begin with any others from there. -/
theorem Supplies.front_of_halts {all : List Chunk} (h : Supplies source chunks last)
    (hall : Supplies source all middle) (hhalts : Halts middle) : ∃ back, all = chunks ++ back := by
  rcases h.front_or hall with ⟨back, hall, _⟩ | ⟨back, hchunks⟩
  · exact ⟨back, hall⟩
  · rcases hall.front_or h with ⟨more, hmore, hback⟩ | ⟨more, hall⟩
    · obtain rfl := hback.eq_nil_of_halts hhalts
      exact ⟨[], by rw [hmore, List.append_nil, List.append_nil]⟩
    · exact ⟨more, hall⟩

end Halts

variable [ChunkSource σ] [ChunkSource τ]

/-- What the next call of the source with the larger chunks is for the other source. -/
inductive MergedStep (R : σ → τ → Prop) (fine : σ) (coarse : τ) : Prop where
  | chunk {pieces : List Chunk} {chunk : Chunk} {fine' : σ} {coarse' : τ}
      (hsupplies : Supplies fine pieces fine')
      (hnext : ChunkSource.next coarse = (.ok (some chunk.bytes), coarse'))
      (hbytes : joined pieces = chunk.bytes) (hlater : R fine' coarse')
  | failure {cause : DecodeError} {fine' : σ} {coarse' : τ}
      (hfine : ChunkSource.next fine = (.error cause, fine'))
      (hcoarse : ChunkSource.next coarse = (.error cause, coarse')) (hlater : R fine' coarse')
  | finish (hfine : Ends fine) (hcoarse : Ends coarse)

/-- The second source is the first with some neighbouring chunks merged. -/
def Merged (fine : σ) (coarse : τ) : Prop :=
  ∃ R : σ → τ → Prop,
    (∀ fine coarse, R fine coarse → MergedStep R fine coarse) ∧ R fine coarse

namespace Merged

variable {fine fine' : σ} {coarse coarse' : τ} {chunks : List Chunk}

theorem step (h : Merged fine coarse) : MergedStep Merged fine coarse := by
  obtain ⟨R, hstep, hrelated⟩ := h
  cases hstep fine coarse hrelated with
  | chunk hsupplies hnext hbytes hlater => exact .chunk hsupplies hnext hbytes ⟨R, hstep, hlater⟩
  | failure hfine hcoarse hlater => exact .failure hfine hcoarse ⟨R, hstep, hlater⟩
  | finish hfine hcoarse => exact .finish hfine hcoarse

/-- A merged chunk is made of a chunk at least. -/
theorem pieces_ne_nil {pieces : List Chunk} {chunk : Chunk} (h : joined pieces = chunk.bytes) :
    pieces ≠ [] := by
  rintro rfl
  exact chunk.bytes_ne_nil h.symm

theorem halts_iff (h : Merged fine coarse) : Halts fine ↔ Halts coarse := by
  cases h.step with
  | chunk hsupplies hnext hbytes =>
    exact ⟨fun hhalts => absurd (hsupplies.eq_nil_of_halts hhalts) (pieces_ne_nil hbytes),
      fun hhalts => absurd hnext hhalts.not_chunk⟩
  | failure hfine hcoarse =>
    exact ⟨fun _ => .inr ⟨_, by rw [hcoarse]⟩, fun _ => .inr ⟨_, by rw [hfine]⟩⟩
  | finish hfine hcoarse => exact ⟨fun _ => .inl hcoarse, fun _ => .inl hfine⟩

/-- Merged chunks are chunks of the other source. -/
theorem supplies (h : Merged fine coarse) (hsupplies : Supplies coarse chunks coarse') :
    ∃ pieces fine', Supplies fine pieces fine' ∧ joined pieces = joined chunks ∧
      Merged fine' coarse' := by
  induction hsupplies generalizing fine with
  | none => exact ⟨[], fine, .none fine, rfl, h⟩
  | @more coarse middle last chunk chunks hnext _ ih =>
    cases h.step with
    | @chunk front first fine' coarse' hfront hfirst hbytes hlater =>
      rw [hnext] at hfirst
      obtain ⟨hsame, rfl⟩ := Prod.mk.inj hfirst
      obtain ⟨back, last', hback, hrest, hmerged⟩ := ih hlater
      refine ⟨front ++ back, last', hfront.append hback, ?_, hmerged⟩
      rw [joined_append, joined_cons, hbytes, hrest, Option.some.inj (Except.ok.inj hsame)]
    | failure _ hcoarse =>
      rw [hnext] at hcoarse
      cases hcoarse
    | finish _ hcoarse =>
      have hhalts : Halts coarse := .inl hcoarse
      exact absurd hnext hhalts.not_chunk

theorem failure (h : Merged fine coarse) {cause : DecodeError}
    (hnext : ChunkSource.next fine = (.error cause, fine')) :
    ∃ coarse', ChunkSource.next coarse = (.error cause, coarse') ∧ Merged fine' coarse' := by
  have hhalts : Halts fine := .inr ⟨cause, by rw [hnext]⟩
  cases h.step with
  | chunk hsupplies _ hbytes =>
    exact absurd (hsupplies.eq_nil_of_halts hhalts) (pieces_ne_nil hbytes)
  | failure hfine hcoarse hlater =>
    rw [hnext] at hfine
    obtain ⟨hsame, rfl⟩ := Prod.mk.inj hfine
    cases hsame
    exact ⟨_, hcoarse, hlater⟩
  | finish hfine =>
    simp [Ends, hnext] at hfine

theorem ends (h : Merged fine coarse) (hends : Ends fine) : Ends coarse := by
  cases h.step with
  | chunk hsupplies _ hbytes =>
    exact absurd (hsupplies.eq_nil_of_halts (.inl hends)) (pieces_ne_nil hbytes)
  | failure hfine => simp [Ends, hfine] at hends
  | finish _ hcoarse => exact hcoarse

end Merged

theorem supplies_list (chunks : List Chunk) (rest : List Bytes) :
    Supplies (chunks.map Chunk.bytes ++ rest) chunks rest := by
  induction chunks with
  | nil => exact .none rest
  | cons chunk chunks ih => exact .more rfl ih

/-- A list of chunks and the list with each group of them as one. -/
theorem merged_groups (groups : List (List Chunk)) (hgroups : ∀ group ∈ groups, group ≠ []) :
    Merged (groups.flatten.map Chunk.bytes) (groups.map joined) := by
  refine ⟨fun fine coarse => ∃ groups : List (List Chunk), (∀ group ∈ groups, group ≠ []) ∧
    fine = groups.flatten.map Chunk.bytes ∧ coarse = groups.map joined, ?_, groups, hgroups, rfl,
    rfl⟩
  rintro _ _ ⟨_ | ⟨_ | ⟨first, group⟩, groups⟩, hgroups, rfl, rfl⟩
  · exact .finish (.inl rfl) (.inl rfl)
  · exact absurd rfl (hgroups [] List.mem_cons_self)
  · have hfine := supplies_list (first :: group) (groups.flatten.map Chunk.bytes)
    rw [← List.map_append, ← List.flatten_cons] at hfine
    have hjoined : joined (first :: group) =
        Chunk.bytes ⟨first.head, first.tail ++ joined group⟩ := rfl
    refine .chunk hfine ?_ hjoined
      ⟨groups, fun group hgroup => hgroups group (List.mem_cons_of_mem _ hgroup), rfl, rfl⟩
    rw [List.map_cons, hjoined]
    rfl

end Columnar
