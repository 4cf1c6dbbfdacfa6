import Columnar.Proofs.Rows
import Columnar.Proofs.Taking

/-!
Columns have the rows that were asked for. A decoder that succeeds has moved over exactly the bytes
of its rows, whatever it reads from and whatever it is asked for. A product of rows and cell size
that stops at the largest size asks for more than any source serves, so such a column is never
decoded, and a slice says how much it was asked for.
-/
namespace Columnar

/-- How many bytes the rows of a column have. -/
def ColumnType.wireSize (type : ColumnType) (cells : List WireCell) : Nat :=
  match type.cellSize with
  | some size => size * cells.length
  | none => (cells.map fun cell => cell.lead.length + cell.content.length).sum

theorem Layout.wireSize_eq {type : ColumnType} {rows : Nat} {bytes : Bytes}
    {cells : List WireCell} (h : Layout type.cellSize rows bytes cells) :
    bytes.length = type.wireSize cells := by
  rw [ColumnType.wireSize]
  cases hsize : type.cellSize with
  | none => exact h.length_eq_sum
  | some size =>
    rw [hsize] at h
    rw [h.rows]
    exact h.length_eq

/-- Whatever is decoded from a state has its rows in the bytes that are taken. -/
structure DecodesExactly (source : ByteSource σ) (position : σ → Nat)
    (Takes : σ → Bytes → σ → Prop) (before : σ) : Prop where
  column : ∀ (type : ColumnType) (rows : Nat) (column : List Cell) (after : σ),
    (type.read rows).run source before = (.ok column, after) →
    column.length = rows ∧ ∃ bytes cells, Layout type.cellSize rows bytes cells ∧
      List.Forall₂ (fun cell value => type.cell (source.encoding before) cell.content = .ok value)
        cells column ∧
      Takes before bytes after ∧ position after = position before + type.wireSize cells
  nullMask : ∀ (rows : Nat) (mask : NullMask) (after : σ),
    (Column.nullMask rows).run source before = (.ok mask, after) →
    mask.length = rows ∧ Takes before mask.entries after ∧ position after = position before + rows
  nullable : ∀ (type : ColumnType) (rows : Nat), ∀ decoder ∈ type.nullableReads rows,
    ∀ (column : List (Option Cell)) (after : σ),
    decoder.run source before = (.ok column, after) →
    column.length = rows ∧ ∃ entries bytes cells, entries.length = rows ∧
      Layout type.cellSize rows bytes cells ∧
      List.Forall₂
        (fun row value => type.shown (source.encoding before) row.1 row.2.content = .ok value)
        (entries.zip cells) column ∧
      Takes before (entries ++ bytes) after ∧
      position after = position before + (rows + type.wireSize cells)
  unclipped : ∀ (type : ColumnType) (rows size : Nat), type.cellSize = some size →
    maxSize < size * rows →
    (∀ column after, (type.read rows).run source before ≠ (.ok column, after)) ∧
      ∀ decoder ∈ type.nullableReads rows, ∀ column after,
        decoder.run source before ≠ (.ok column, after)

section Source

variable {source : ByteSource σ} {position : σ → Nat} {Live : σ → Prop}
  {Takes : σ → Bytes → σ → Prop} {before : σ}

/-- Every source that serves its reads exactly decodes so. -/
theorem ByteSource.Exact.decodesExactly (h : source.Exact Live Takes)
    (hposition : ∀ {before after : σ} {bytes : Bytes}, Takes before bytes after →
      position after = position before + bytes.length)
    (hlive : Live before) : DecodesExactly source position Takes before := by
  constructor
  case column =>
    intro type rows column after hrun
    obtain ⟨bytes, sizes, hconsumes, hsizes, htakes⟩ := h.run hlive hrun
    obtain ⟨⟨cells, hlayout, hvalues⟩, _⟩ := ColumnType.reads_layout hconsumes hsizes
    have hadvance := hposition htakes
    rw [hlayout.wireSize_eq] at hadvance
    rw [← hvalues.length_eq]
    exact ⟨hlayout.rows, bytes, cells, hlayout, hvalues, htakes, hadvance⟩
  case nullMask =>
    intro rows mask after hrun
    obtain ⟨bytes, sizes, hconsumes, hsizes, htakes⟩ := h.run hlive hrun
    obtain ⟨rfl, hlength, _⟩ := hconsumes.of_nullMask hsizes
    exact ⟨hlength, htakes, hlength ▸ hposition htakes⟩
  case nullable =>
    intro type rows decoder hdecoder column after hrun
    obtain ⟨_, sizes, hconsumes, hsizes, htakes⟩ := h.run hlive hrun
    obtain ⟨entries, bytes, rfl, hmask, ⟨cells, hlayout, hvalues⟩, _⟩ :=
      NullableColumn.of_consumes hdecoder hconsumes hsizes
    have hadvance := hposition htakes
    rw [List.length_append, hmask, hlayout.wireSize_eq] at hadvance
    refine ⟨?_, entries, bytes, cells, hmask, hlayout, hvalues, htakes, hadvance⟩
    rw [← hvalues.length_eq, List.length_zip, hmask, hlayout.rows, Nat.min_self]
  case unclipped =>
    intro type rows size hsize hclipped
    constructor
    · intro column after hrun
      obtain ⟨_, _, hconsumes, hsizes, _⟩ := h.run hlive hrun
      have hsmall := (ColumnType.reads_layout hconsumes hsizes).2 size hsize
      exact Nat.lt_asymm hclipped hsmall
    · intro decoder hdecoder column after hrun
      obtain ⟨_, _, hconsumes, hsizes, _⟩ := h.run hlive hrun
      obtain ⟨_, _, _, hnullable⟩ := NullableColumn.of_consumes hdecoder hconsumes hsizes
      exact Nat.lt_asymm hclipped (hnullable.small size hsize)

end Source

namespace Decoder

variable {source : ByteSource σ} {before after : σ} {fault : Fault}

theorem run_bind_of_fails {first : Decoder α} (h : first.run source before = (.error fault, after))
    (rest : α → Decoder β) : (first.bind rest).run source before = (.error fault, after) := by
  rw [run_bind, h]

theorem run_map_of_fails {decoder : Decoder α} (h : decoder.run source before = (.error fault, after))
    (f : α → β) : (f <$> decoder).run source before = (.error fault, after) :=
  run_bind_of_fails h _

/-- A column of cells of a fixed size begins with the read of its block. -/
theorem run_read_of_fails {type : ColumnType} {size rows : Nat} (hsize : type.cellSize = some size)
    (hpos : 0 < size) (hprecision : ∀ precision, type = .dateTime64 precision →
      precision ≤ maxPrecision)
    (h : source.readBytes (mulSat size rows) before = (.error fault, after)) :
    (type.read rows).run source before = (.error fault, after) := by
  have htake := (run_takeBytes source (mulSat size rows) before).trans h
  cases type with
  | text | rawText => cases hsize
  | fixedText length =>
    obtain rfl := Option.some.inj hsize
    refine run_map_of_fails ?_ _
    rw [Column.fixedText, bind_eq, textEncoding, Decoder.bind, run, done_bind,
      if_neg (Nat.ne_of_gt hpos)]
    exact run_bind_of_fails htake _
  | number type =>
    obtain rfl := Option.some.inj hsize
    exact run_bind_of_fails htake _
  | dateTime64 precision =>
    obtain rfl := Option.some.inj hsize
    have hscale : TickScale.ofPrecision precision = .ok _ :=
      if_neg (Nat.not_lt.mpr (hprecision precision rfl))
    refine run_map_of_fails ?_ _
    rw [Column.dateTime64, hscale]
    exact run_bind_of_fails (run_bind_of_fails htake _) _
  | date | date32 | dateTime =>
    obtain rfl := Option.some.inj hsize
    exact run_map_of_fails (run_bind_of_fails (run_bind_of_fails htake _) _) _
  | bytes | uuid | ipv4 | ip =>
    obtain rfl := Option.some.inj hsize
    exact run_map_of_fails (run_bind_of_fails htake _) _

end Decoder

/-- A precision that there is not is found before anything is read. -/
theorem ColumnType.run_invalid (source : ByteSource σ) (state : σ) {precision : Nat}
    (hprecision : maxPrecision < precision) (rows : Nat) :
    ((ColumnType.dateTime64 precision).read rows).run source state =
      (.error (.error (.invalidPrecision precision)), state) := by
  refine Decoder.run_map_of_fails ?_ _
  rw [Column.dateTime64, TickScale.ofPrecision, if_pos hprecision]
  rfl

/-- What a slice answers when the rows of a column have more than the largest size. Time stamps of a
precision that there is not are refused before their rows are asked for. -/
structure Slice.Clips (slice : Slice) : Prop where
  column : ∀ (type : ColumnType) (rows size : Nat), type.cellSize = some size →
    maxSize < size * rows →
    (∀ precision, type = .dateTime64 precision → precision ≤ maxPrecision) →
    (type.read rows).run byteSource slice =
      (.error (.error (.endOfStream maxSize slice.unread.length)), slice)
  invalid : ∀ precision > maxPrecision, ∀ rows,
    ((ColumnType.dateTime64 precision).read rows).run byteSource slice =
      (.error (.error (.invalidPrecision precision)), slice)

theorem Slice.clips {slice : Slice} (hshort : slice.Short) : slice.Clips := by
  constructor
  case column =>
    intro type rows size hsize hclipped hprecision
    have hpos : 0 < size := by
      refine Nat.pos_of_ne_zero fun hzero => ?_
      rw [hzero, Nat.zero_mul] at hclipped
      exact Nat.not_lt_zero _ hclipped
    have hmax : mulSat size rows = maxSize := Nat.min_eq_right (Nat.le_of_lt hclipped)
    refine Decoder.run_read_of_fails hsize hpos hprecision ?_
    rw [hmax]
    exact readBytes_of_lt maxSize slice (Nat.lt_of_le_of_lt hshort (by decide))
  case invalid =>
    intro precision hprecision rows
    exact ColumnType.run_invalid byteSource slice hprecision rows

/-- Every column that is decoded has its rows, and it takes the bytes of its rows and no others. -/
theorem columns_take_their_rows :
    (∀ slice : Slice, slice.unread.length < 2 ^ 63 →
      DecodesExactly Slice.byteSource Slice.position Slice.Takes slice ∧ slice.Clips) ∧
    ∀ {σ : Type} [ChunkSource σ] (config : DecoderConfig) (source : σ) (start : Cursor σ),
      Cursor.ofConfig config source = .ok start → ShortChunks source → ∀ calls : List Call,
        DecodesExactly Cursor.byteSource Cursor.position Cursor.Takes (Call.after calls start) := by
  constructor
  · intro slice hlength
    have hshort : slice.Short := Nat.le_of_lt_succ hlength
    exact ⟨Slice.exact.decodesExactly (fun htakes => htakes.position) hshort, Slice.clips hshort⟩
  · intro σ _ config source start hstart hchunks calls
    exact Cursor.exact.decodesExactly (fun htakes => htakes.position)
      ((Cursor.short_ofConfig hstart hchunks).calls calls)

/-- A mask and two rows of two bytes, cut in the first of the rows. -/
def maskedChunks : List Bytes := [[0, 1, 5], [0, 6, 0, 9]]

/-- The second row is null and is moved over all the same. As many rows of eight bytes as have one
byte more than the largest size are read neither from these chunks nor from a slice. -/
theorem columns_take_their_rows_clipped : ∃ start,
    Cursor.ofConfig {} maskedChunks = .ok start ∧
    (∃ after, ((ColumnType.number .u16).readNullable 2).run Cursor.byteSource start =
      (.ok [some (.integer 5), none], after) ∧ after.position = 6) ∧
    (∀ column after, ((ColumnType.number .u64).read (2 ^ 61)).run Cursor.byteSource start ≠
      (.ok column, after)) ∧
    ((ColumnType.number .u64).read (2 ^ 61)).run Slice.byteSource ⟨[1, 2, 3], 0, .utf8⟩ =
      (.error (.error (.endOfStream maxSize 3)), ⟨[1, 2, 3], 0, .utf8⟩) := by
  have hstart : Cursor.ofConfig {} maskedChunks = .ok { source := maskedChunks, config := {} } :=
    Cursor.ofConfig_eq_ok_iff.mpr ⟨DecoderConfig.validate_default, rfl⟩
  have hcontent : ContentBelow (2 ^ 56) maskedChunks := contentBelow_list (by decide)
  have hcursor := columns_take_their_rows.2 {} maskedChunks _ hstart
    (hcontent.shortChunks (by decide)) []
  have hslice := columns_take_their_rows.1 ⟨[1, 2, 3], 0, .utf8⟩ (by decide)
  refine ⟨_, hstart, ⟨_, Prod.ext (by decide +kernel) rfl, ?_⟩, ?_, ?_⟩
  · obtain ⟨_, _, _, cells, _, hlayout, _, _, hposition⟩ := hcursor.nullable (.number .u16) 2 _
      List.mem_cons_self [some (.integer 5), none] _ (Prod.ext (by decide +kernel) rfl)
    have hsize : (ColumnType.number .u16).wireSize cells = 2 * 2 :=
      congrArg (2 * ·) hlayout.rows
    rw [hsize] at hposition
    exact hposition
  · exact (hcursor.unclipped (.number .u64) (2 ^ 61) 8 rfl (by decide)).1
  · exact hslice.2.column (.number .u64) (2 ^ 61) 8 rfl (by decide) (fun _ h => nomatch h)

end Columnar
