import Columnar.Proofs.Conversion
import Columnar.Proofs.Failure
import Columnar.Proofs.Nullable

/-!
Columns of instants. Whatever instants are built of, a column of ticks has one for each, in the
order of the ticks, if all their seconds are supported, and otherwise the first that is not is what
the column fails with. Seconds of 32 bits are all supported, and a precision that is too large is
found before anything is read.
-/
namespace Columnar

/-- The ticks of a block. -/
def ticksOf (block : Bytes) : List Int :=
  (Bytes.wholeCells 8 block).map (FixedWidth.signed 8).decode

/-- A column of ticks that was converted, or the reason why it was not. -/
structure Instants (fields : τ → Timestamp) (first last : Int) (scale : TickScale)
    (ticks : List Int) (answer : Except DecodeError (List τ)) : Prop where
  succeeds : (∃ column, answer = .ok column) ↔
    ∀ count ∈ ticks, first ≤ (scale.instant count).seconds ∧ (scale.instant count).seconds ≤ last
  rows : ∀ column, answer = .ok column → column.map fields = ticks.map scale.instant
  ordered : ∀ column, answer = .ok column →
    ∀ (row row' : Nat) (built built' : τ) (count count' : Int),
    column[row]? = some built → column[row']? = some built' →
    ticks[row]? = some count → ticks[row']? = some count' →
      ((fields built).Before (fields built') ↔ count < count') ∧ (built = built' ↔ count = count')
  fails : ∀ cause, answer = .error cause ↔ ∃ front count back, ticks = front ++ count :: back ∧
    (∀ earlier ∈ front,
      first ≤ (scale.instant earlier).seconds ∧ (scale.instant earlier).seconds ≤ last) ∧
    ¬ (first ≤ (scale.instant count).seconds ∧ (scale.instant count).seconds ≤ last) ∧
    cause = .timestampOutOfRange (scale.instant count).seconds

theorem instants {make : Int → Nat → Option τ} {fields : τ → Timestamp} {first last : Int}
    (hbuilds : Builds make fields first last) {scale : TickScale}
    (hexact : Checked.TickScale.IsExact scale) (ticks : List Int) :
    Instants fields first last scale ticks (ticks.mapM (scale.timestampBy make)) := by
  have hconverts := hbuilds.ticks hexact
  have hfields {count : Int} {built : τ} (h : scale.timestampBy make count = .ok built) :
      fields built = scale.instant count := hconverts.keeps count built h
  constructor
  case succeeds =>
    simp only [← hconverts.accepts]
    exact exists_mapM_iff
  case rows =>
    intro column hcolumn
    exact map_of_mapM hcolumn fun _ _ => hfields
  case ordered =>
    intro column hcolumn row row' built built' count count' hbuilt hbuilt' hcount hcount'
    have hrow := convert_getElem hcolumn hcount hbuilt
    have hrow' := convert_getElem hcolumn hcount' hbuilt'
    rw [hfields hrow, hfields hrow']
    refine ⟨TickScale.before_iff hexact, ?_, ?_⟩
    · rintro rfl
      exact (TickScale.instant_inj hexact).mp ((hfields hrow).symm.trans (hfields hrow'))
    · rintro rfl
      exact Except.ok.inj (hrow.symm.trans hrow')
  case fails =>
    intro cause
    simp only [mapM_eq_error_iff, hconverts.rejects, hconverts.accepts]

section Run

variable {τ σ : Type} {make : Int → Nat → Option τ} {fields : τ → Timestamp} {first last : Int}
  {source : ByteSource σ} {before after : σ} {rows : Nat}

/-- A source that has the block of the ticks next. -/
theorem run_dateTime64By {precision : Nat} {scale : TickScale} {block : Bytes}
    (hscale : TickScale.ofPrecision precision = .ok scale) (hblock : block.length = 8 * rows)
    (hsize : block.length ≤ maxSize)
    (hread : source.readBytes (8 * rows) before = (.ok block, after)) :
    (Column.dateTime64By make precision rows).run source before =
      (((ticksOf block).mapM (scale.timestampBy make)).mapError .error, after) := by
  have hexact : mulSat (FixedWidth.signed 8).size rows = 8 * rows :=
    mulSat_eq 8 rows (hblock ▸ hsize)
  rw [Column.dateTime64By, hscale, Decoder.ofExcept, Decoder.bind_eq, Decoder.done_bind,
    Column.run_converted, Column.rawDateTime64, Column.run_array, hexact, hread]
  rfl

/-- Nothing is read if the precision is too large. -/
theorem run_dateTime64By_invalid {precision : Nat} (h : maxPrecision < precision) :
    (Column.dateTime64By make precision rows).run source before =
      (.error (.error (.invalidPrecision precision)), before) := by
  rw [Column.dateTime64By, TickScale.ofPrecision, if_pos h]
  rfl

/-- Seconds that were read are supported. -/
theorem run_dateTimeBy_error {fault : Fault} (hbuilds : Builds make fields first last)
    (hfirst : first ≤ 0) (hlast : 0xffffffff ≤ last)
    (h : (Column.dateTimeBy make rows).run source before = (.error fault, after)) :
    source.readBytes (mulSat 4 rows) before = (.error fault, after) := by
  have hsupported (values : List Nat) (hvalues : ∀ seconds ∈ values, seconds ≤ 0xffffffff) :
      ∃ column, (values.mapM fun seconds : Nat => Timestamp.buildBy make seconds 0) =
        .ok column := by
    apply exists_mapM_iff.mpr
    intro seconds hmem
    have hseconds := hvalues seconds hmem
    have haccepts : (∃ built, Timestamp.buildBy make seconds 0 = .ok built) ↔
        first ≤ (seconds : Int) ∧ (seconds : Int) ≤ last := hbuilds.seconds.accepts seconds
    exact haccepts.mpr (by omega)
  have hbound (cell : Bytes) : (FixedWidth.unsigned 4).decode cell ≤ 0xffffffff :=
    Nat.le_of_lt_succ ((FixedWidth.word 4).decode cell).isLt
  rw [Column.dateTimeBy, Column.run_converted, Column.rawDateTime, Column.run_array] at h
  rw [FixedWidth.size_unsigned] at h
  generalize source.readBytes (mulSat 4 rows) before = outcome at h ⊢
  obtain ⟨result, middle⟩ := outcome
  cases result with
  | error given => simpa [Outcome.andThen] using h
  | ok block =>
    obtain ⟨column, hcolumn⟩ := hsupported
      ((Bytes.wholeCells 4 block).map (FixedWidth.unsigned 4).decode) (by simp [hbound])
    simp [Outcome.andThen, hcolumn, Except.mapError] at h

end Run

theorem Slice.readBytes_in_range {slice : Slice} {size : Nat} {seconds : Int} :
    (slice.readBytes size).1 ≠ .error (.error (.timestampOutOfRange seconds)) := by
  rw [readBytes]
  cases slice.unread.split? size <;> simp

theorem Cursor.readBytes_in_range [ChunkSource σ] {cursor : Cursor σ} {size : Nat} {seconds : Int}
    (hsource : ChunkSource.FailsWith (· ≠ .timestampOutOfRange seconds) cursor.source) :
    (cursor.readBytes size).1 ≠ .error (.error (.timestampOutOfRange seconds)) := by
  intro h
  have hfails : ((Request.bytes size).run cursor).1 =
      .error (.error (.timestampOutOfRange seconds)) := h
  exact kind_of_failures hsource (failures_of_fails hfails rfl) rfl

/-- Ticks are scaled without rounding and their columns keep their order, whatever instants are
built of, if they are built of the seconds of a range that has all seconds of 32 bits. A column of
such seconds fails only as the read of its block does, so no second of it is out of range. -/
theorem ticks_scale_exactly {τ : Type} {make : Int → Nat → Option τ} {fields : τ → Timestamp}
    {first last : Int} (hbuilds : Builds make fields first last) (hfirst : first ≤ 0)
    (hlast : 0xffffffff ≤ last) :
    (∀ precision ≤ maxPrecision, ∃ scale, TickScale.ofPrecision precision = .ok scale ∧
      ExactScale precision scale ∧
      ∀ {σ : Type} (source : ByteSource σ) (before after : σ) (rows : Nat) (block : Bytes),
        block.length = 8 * rows → block.length ≤ maxSize →
        source.readBytes (8 * rows) before = (.ok block, after) →
        ∃ answer, (Column.dateTime64By make precision rows).run source before =
            (answer.mapError .error, after) ∧
          Instants fields first last scale (ticksOf block) answer) ∧
    (∀ precision > maxPrecision, ∀ {σ : Type} (source : ByteSource σ) (state : σ) (rows : Nat),
      (Column.dateTime64By make precision rows).run source state =
        (.error (.error (.invalidPrecision precision)), state)) ∧
    (∀ {σ : Type} (source : ByteSource σ) (before after : σ) (rows : Nat) (fault : Fault),
      (Column.dateTimeBy make rows).run source before = (.error fault, after) →
      source.readBytes (mulSat 4 rows) before = (.error fault, after)) ∧
    (∀ (slice : Slice) (rows : Nat) (seconds : Int),
      ((Column.dateTimeBy make rows).run Slice.byteSource slice).1 ≠
        .error (.error (.timestampOutOfRange seconds))) ∧
    (∀ {σ : Type} [ChunkSource σ] (cursor : Cursor σ) (rows : Nat) (seconds : Int),
      ChunkSource.FailsWith (· ≠ .timestampOutOfRange seconds) cursor.source →
      ((Column.dateTimeBy make rows).run Cursor.byteSource cursor).1 ≠
        .error (.error (.timestampOutOfRange seconds))) ∧
    (∀ precision rows,
      Column.dateTime64By Timestamp.make precision rows = Column.dateTime64 precision rows) ∧
    ∀ rows, Column.dateTimeBy Timestamp.make rows = Column.dateTime rows := by
  have hfailing {σ : Type} (source : ByteSource σ) (before after : σ) (rows : Nat) (fault : Fault)
      (h : (Column.dateTimeBy make rows).run source before = (.error fault, after)) :
      source.readBytes (mulSat 4 rows) before = (.error fault, after) :=
    run_dateTimeBy_error hbuilds hfirst hlast h
  refine ⟨?scaled, ?invalid, hfailing, ?slices, ?cursors,
    fun _ _ => congrFun (Column.dateTime64By_make _) _, Column.dateTimeBy_make⟩
  case scaled =>
    intro precision hprecision
    obtain ⟨scale, hscale⟩ := TickScale.exists_ofPrecision hprecision
    refine ⟨scale, hscale, exactScale hscale, ?_⟩
    intro σ source before after rows block hblock hsize hread
    exact ⟨_, run_dateTime64By hscale hblock hsize hread,
      instants hbuilds (Checked.TickScale.isExact_ofPrecision hscale) (ticksOf block)⟩
  case invalid =>
    intro precision hprecision σ source state rows
    exact run_dateTime64By_invalid hprecision
  case slices =>
    intro slice rows seconds h
    have hread := hfailing Slice.byteSource slice _ rows _ (Prod.ext h rfl)
    exact Slice.readBytes_in_range (congrArg Prod.fst hread)
  case cursors =>
    intro σ _ cursor rows seconds hsource h
    have hread := hfailing Cursor.byteSource cursor _ rows _ (Prod.ext h rfl)
    exact Cursor.readBytes_in_range hsource (congrArg Prod.fst hread)

/-- A tick before the epoch and a tick behind it. -/
def tickBlock : Bytes :=
  [255, 255, 255, 255, 255, 255, 255, 255] ++ [1, 0, 0, 0, 0, 0, 0, 0]

theorem ticks_scale_exactly_epoch :
    Builds Timestamp.make id Timestamp.firstSecond Timestamp.lastSecond ∧
      (Column.dateTime64 3 2).run Slice.byteSource ⟨tickBlock ++ [7], 0, .utf8⟩ =
        (.ok [⟨-1, 999000000⟩, ⟨0, 1000000⟩], ⟨[7], 16, .utf8⟩) := by
  obtain ⟨hscaled, _, _, _, _, hmodel, _⟩ :=
    ticks_scale_exactly Timestamp.builds (by decide) (by decide)
  obtain ⟨scale, hscale, _, hcolumn⟩ := hscaled 3 (by decide)
  obtain rfl := Except.ok.inj hscale
  obtain ⟨answer, hrun, hinstants⟩ := hcolumn Slice.byteSource ⟨tickBlock ++ [7], 0, .utf8⟩
    ⟨[7], 16, .utf8⟩ 2 tickBlock rfl (by decide) rfl
  obtain ⟨column, rfl⟩ := hinstants.succeeds.mpr (by decide +kernel)
  have hrows := hinstants.rows column rfl
  rw [List.map_id] at hrows
  rw [hmodel, hrows] at hrun
  exact ⟨Timestamp.builds, hrun⟩

end Columnar
