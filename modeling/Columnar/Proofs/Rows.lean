import Columnar.Proofs.Layout
import Columnar.Proofs.Masking

/-!
The rows of a decoded column. There are as many as were asked for, and the value of each is read
from its own cell, whichever the type. In front of a nullable column lies a byte for each row, and
the cells of the rows that are null are there but are not looked at.
-/
namespace Columnar

/-- A column that is one block, with the values of its rows. -/
structure BlockColumn (read : Bytes → Except DecodeError β) (size rows : Nat) (block : Bytes)
    (values : List β) : Prop where
  length : block.length = size * rows
  small : size * rows < maxSize
  values : List.Forall₂ (fun content value => read content = .ok value)
    (Bytes.cells size rows block) values

namespace BlockColumn

variable {encoding : TextEncoding} {bytes : Bytes} {sizes : List Nat} {rows : Nat}
  {read : Bytes → Except DecodeError β}

/-- Every value is that of its own cell. -/
theorem of_cells {size : Nat} {f : Bytes → β} (hread : ∀ content, read content = .ok (f content))
    (hlength : bytes.length = size * rows) (hsmall : size * rows < maxSize) :
    BlockColumn read size rows bytes ((Bytes.cells size rows bytes).map f) := by
  refine ⟨hlength, hsmall, ?_⟩
  rw [List.forall₂_map_right_iff, List.forall₂_same]
  exact fun content _ => hread content

theorem of_array {format : FixedWidth α} {wrap : α → β} {column : List β}
    (hread : ∀ content, read content = .ok (wrap (format.decode content)))
    (hpos : 0 < format.size)
    (h : Consumes encoding (List.map wrap <$> Column.array format rows) bytes sizes column)
    (hsizes : ∀ size ∈ sizes, size < maxSize) :
    BlockColumn read format.size rows bytes column := by
  obtain ⟨values, hvalues, rfl⟩ := h.of_map
  obtain ⟨hlength, hsmall, rfl⟩ := hvalues.of_array hpos hsizes
  rw [List.map_map]
  exact of_cells hread hlength hsmall

theorem of_converted {format : FixedWidth α} {convert : α → Except DecodeError γ} {wrap : γ → β}
    {column : List β} (hread : ∀ content, read content = wrap <$> convert (format.decode content))
    (hpos : 0 < format.size)
    (h : Consumes encoding
      (List.map wrap <$> Column.converted convert (Column.array format rows)) bytes sizes column)
    (hsizes : ∀ size ∈ sizes, size < maxSize) :
    BlockColumn read format.size rows bytes column := by
  obtain ⟨values, hvalues, rfl⟩ := h.of_map
  obtain ⟨hlength, hsmall, hforall⟩ := hvalues.of_converted hpos hsizes
  refine ⟨hlength, hsmall, ?_⟩
  rw [List.forall₂_map_right_iff]
  exact hforall.imp fun content value hvalue => by rw [hread, hvalue]; rfl

end BlockColumn

namespace ColumnType

variable {encoding : TextEncoding} {bytes : Bytes} {sizes : List Nat} {rows : Nat}

theorem cell_dateTime64 {precision : Nat} {scale : TickScale}
    (hscale : TickScale.ofPrecision precision = .ok scale) (content : Bytes) :
    cell encoding (.dateTime64 precision) content =
      .timestamp <$> scale.timestamp ((FixedWidth.signed 8).decode content) := by
  rw [cell, hscale]
  rfl

/-- Cells of a fixed size are one block, which is read whole. -/
theorem reads_block {type : ColumnType} {size : Nat} {column : List Cell}
    (hsize : type.cellSize = some size)
    (h : Consumes encoding (type.read rows) bytes sizes column)
    (hsizes : ∀ size ∈ sizes, size < maxSize) :
    BlockColumn (type.cell encoding) size rows bytes column := by
  cases type with
  | number type =>
    obtain rfl := Option.some.inj hsize
    have hpos : 0 < type.format.size := by cases type <;> decide
    obtain ⟨hlength, hsmall, rfl⟩ := h.of_array hpos hsizes
    exact .of_cells (fun _ => rfl) hlength hsmall
  | bytes size =>
    obtain rfl := Option.some.inj hsize
    obtain ⟨contents, hcontents, rfl⟩ := h.of_map
    obtain ⟨hlength, hsmall, rfl⟩ := hcontents.of_bytes hsizes
    exact .of_cells (fun _ => rfl) hlength hsmall
  | text | rawText => cases hsize
  | fixedText size =>
    obtain rfl := Option.some.inj hsize
    obtain ⟨texts, htexts, rfl⟩ := h.of_map
    obtain ⟨hlength, hsmall, rfl⟩ := htexts.of_fixedText hsizes
    rw [List.map_map]
    exact .of_cells (fun _ => rfl) hlength hsmall
  | uuid | ipv4 | ip =>
    obtain rfl := Option.some.inj hsize
    exact .of_array (fun _ => rfl) (by decide) h hsizes
  | date | date32 | dateTime =>
    obtain rfl := Option.some.inj hsize
    exact .of_converted (fun _ => rfl) (by decide) h hsizes
  | dateTime64 precision =>
    obtain rfl := Option.some.inj hsize
    obtain ⟨stamps, hstamps, rfl⟩ := h.of_map
    obtain ⟨scale, front, back, sizes₁, sizes₂, hscale, hrows, rfl, rfl⟩ := hstamps.of_bind
    obtain ⟨hvalid, rfl, rfl⟩ := hscale.of_ofExcept
    exact .of_converted (cell_dateTime64 hvalid) (by decide) (hrows.map _) hsizes

/-- Cells that carry their length are read one by one. -/
theorem reads_sized {type : ColumnType} {column : List Cell} (hsize : type.cellSize = none)
    (h : Consumes encoding (type.read rows) bytes sizes column) :
    ∃ cells, Layout none rows bytes cells ∧
      List.Forall₂ (fun cell value => type.cell encoding cell.content = .ok value) cells
        column := by
  cases type with
  | text =>
    obtain ⟨texts, htexts, rfl⟩ := h.of_map
    cases htexts with
    | encoding hnext =>
      obtain ⟨cells, hlayout, hvalues⟩ := (Consumes.of_reserve hnext).of_times
        (P := fun cell text => text = encoding.decode cell.content) fun hcell => by
          obtain ⟨content, hcontent, rfl⟩ := hcell.of_map
          obtain ⟨cell, hbytes, hfits, rfl⟩ := hcontent.of_sizedCell
          exact ⟨cell, hbytes, hfits, rfl⟩
      refine ⟨cells, hlayout, ?_⟩
      rw [List.forall₂_map_right_iff]
      exact hvalues.imp fun cell text htext => by rw [htext]; rfl
  | rawText =>
    obtain ⟨contents, hcontents, rfl⟩ := h.of_map
    obtain ⟨cells, hlayout, hvalues⟩ := (Consumes.of_reserve hcontents).of_times
      Consumes.of_sizedCell
    refine ⟨cells, hlayout, ?_⟩
    rw [List.forall₂_map_right_iff]
    exact hvalues.imp fun cell content hcontent => by rw [← hcontent]; rfl
  | _ => cases hsize

/-- A column that was decoded lies in the bytes that it consumed. -/
theorem reads_layout {type : ColumnType} {column : List Cell}
    (h : Consumes encoding (type.read rows) bytes sizes column)
    (hsizes : ∀ size ∈ sizes, size < maxSize) :
    (∃ cells, Layout type.cellSize rows bytes cells ∧
      List.Forall₂ (fun cell value => type.cell encoding cell.content = .ok value) cells column) ∧
      ∀ size, type.cellSize = some size → size * rows < maxSize := by
  cases hsize : type.cellSize with
  | none => exact ⟨reads_sized hsize h, fun _ hsome => nomatch hsome⟩
  | some size =>
    have hblock := reads_block hsize h hsizes
    refine ⟨⟨blockRows size rows bytes, layout_block hblock.length, ?_⟩, ?_⟩
    · rw [blockRows, List.forall₂_map_left_iff]
      exact hblock.values
    · rintro _ ⟨⟩
      exact hblock.small

end ColumnType

namespace NullMask

/-- Values are hidden where the entry of their row is not zero. -/
theorem apply_rows {read : WireCell → Except DecodeError β} {entries : Bytes}
    {cells : List WireCell} {values : List β} (hlength : entries.length = cells.length)
    (h : List.Forall₂ (fun cell value => read cell = .ok value) cells values) :
    List.Forall₂
      (fun row shown => (if row.1 = 0 then some <$> read row.2 else .ok none) = .ok shown)
      (entries.zip cells) (apply ⟨entries⟩ values) := by
  induction h generalizing entries with
  | nil =>
    obtain rfl := List.eq_nil_of_length_eq_zero hlength
    exact .nil
  | cons hvalue _ ih =>
    cases entries with
    | nil => cases hlength
    | cons entry entries =>
      refine .cons ?_ (ih (Nat.succ.inj hlength))
      by_cases hentry : entry = 0
      · simp only [hentry, if_true, hvalue]
        rfl
      · simp only [hentry, if_false]

/-- Values are converted where the entry of their row is zero. -/
theorem tryMap_rows {read : WireCell → Except DecodeError β} {convert : α → Except DecodeError γ}
    {wrap : γ → β} {raw : WireCell → α} {entries : Bytes} {cells : List WireCell}
    {values : List (Option γ)} (hread : ∀ cell, read cell = wrap <$> convert (raw cell))
    (hlength : entries.length = cells.length)
    (h : tryMap ⟨entries⟩ convert (cells.map raw) = .ok values) :
    List.Forall₂
      (fun row shown => (if row.1 = 0 then some <$> read row.2 else .ok none) = .ok shown)
      (entries.zip cells) (values.map (Option.map wrap)) := by
  induction cells generalizing entries values with
  | nil =>
    obtain rfl := List.eq_nil_of_length_eq_zero hlength
    obtain rfl := Except.ok.inj h
    exact .nil
  | cons cell cells ih =>
    cases entries with
    | nil => cases hlength
    | cons entry entries =>
      rw [List.map_cons] at h
      by_cases hentry : entry = 0
      · subst hentry
        rw [tryMap_shown] at h
        cases hvalue : convert (raw cell) with
        | error cause => simp [hvalue, Except.bind] at h
        | ok value =>
          rw [hvalue] at h
          obtain ⟨later, hlater, rfl⟩ := map_eq_ok_iff.mp h
          refine .cons ?_ (ih (Nat.succ.inj hlength) hlater)
          simp only [if_true, hread, hvalue]
          rfl
      · rw [tryMap_null _ hentry] at h
        obtain ⟨later, hlater, rfl⟩ := map_eq_ok_iff.mp h
        refine .cons ?_ (ih (Nat.succ.inj hlength) hlater)
        simp only [hentry, if_false]
        rfl

end NullMask

/-- The decoders of nullable columns: the type's own, and any column behind a mask. -/
def ColumnType.nullableReads (type : ColumnType) (rows : Nat) :
    List (Decoder (List (Option Cell))) :=
  [type.readNullable rows, Column.nullable type.read rows]

/-- A nullable column that was decoded: an entry for each row, and then the rows, null or not. -/
structure NullableColumn (encoding : TextEncoding) (type : ColumnType) (rows : Nat)
    (entries back : Bytes) (column : List (Option Cell)) : Prop where
  mask : entries.length = rows
  values : ∃ cells, Layout type.cellSize rows back cells ∧
    List.Forall₂ (fun row value => type.shown encoding row.1 row.2.content = .ok value)
      (entries.zip cells) column
  small : ∀ size, type.cellSize = some size → size * rows < maxSize

namespace NullableColumn

variable {encoding : TextEncoding} {bytes : Bytes} {sizes : List Nat} {rows : Nat}
  {type : ColumnType} {column : List (Option Cell)}

theorem of_nullable (h : Consumes encoding (Column.nullable type.read rows) bytes sizes column)
    (hsizes : ∀ size ∈ sizes, size < maxSize) :
    ∃ entries back, bytes = entries ++ back ∧
      NullableColumn encoding type rows entries back column := by
  obtain ⟨mask, entries, rest, sizes₁, sizes₂, hmask, hrest, rfl, rfl⟩ := h.of_bind
  rw [List.forall_mem_append] at hsizes
  obtain ⟨hentries, hlength, _⟩ := hmask.of_nullMask hsizes.1
  obtain ⟨values, hvalues, rfl⟩ := hrest.of_map
  have hrows : mask.length = rows := by rw [NullMask.length, hentries, hlength]
  rw [hrows] at hvalues
  obtain ⟨⟨cells, hlayout, hforall⟩, hsmall⟩ := ColumnType.reads_layout hvalues hsizes.2
  subst hentries
  exact ⟨mask.entries, rest, rfl, hlength, ⟨cells, hlayout,
    NullMask.apply_rows (hlength.trans hlayout.rows.symm) hforall⟩, hsmall⟩

theorem of_converted {format : FixedWidth α} {convert : α → Except DecodeError γ}
    {wrap : γ → Cell} (hsize : type.cellSize = some format.size)
    (hread : ∀ content, type.cell encoding content = wrap <$> convert (format.decode content))
    (hpos : 0 < format.size)
    (h : Consumes encoding (List.map (Option.map wrap) <$>
      Column.nullableConverted convert (Column.array format) rows) bytes sizes column)
    (hsizes : ∀ size ∈ sizes, size < maxSize) :
    ∃ entries back, bytes = entries ++ back ∧
      NullableColumn encoding type rows entries back column := by
  obtain ⟨shown, hshown, rfl⟩ := h.of_map
  obtain ⟨mask, entries, rest, sizes₁, sizes₂, hmask, hrest, rfl, rfl⟩ := hshown.of_bind
  obtain ⟨values, back, tail, sizes₃, sizes₄, harray, hconvert, rfl, rfl⟩ := hrest.of_bind
  obtain ⟨hvalues, rfl, rfl⟩ := hconvert.of_ofExcept
  rw [List.append_nil, List.forall_mem_append] at hsizes
  obtain ⟨hentries, hlength, _⟩ := hmask.of_nullMask hsizes.1
  have hrows : mask.length = rows := by rw [NullMask.length, hentries, hlength]
  rw [hrows] at harray
  obtain ⟨hblock, hsmall, rfl⟩ := harray.of_array hpos hsizes.2
  have hlayout := layout_block hblock
  have hcells : (blockRows format.size rows back).map (fun cell => format.decode cell.content) =
      (Bytes.cells format.size rows back).map format.decode := by
    rw [blockRows, List.map_map]
    rfl
  rw [← hcells] at hvalues
  subst hentries
  rw [List.append_nil]
  refine ⟨mask.entries, back, rfl, hlength, ⟨_, hsize ▸ hlayout, ?_⟩, ?_⟩
  · exact NullMask.tryMap_rows (fun cell => hread cell.content)
      (hlength.trans hlayout.rows.symm) hvalues
  · intro size hsome
    obtain rfl := Option.some.inj (hsize.symm.trans hsome)
    exact hsmall

theorem of_readNullable (h : Consumes encoding (type.readNullable rows) bytes sizes column)
    (hsizes : ∀ size ∈ sizes, size < maxSize) :
    ∃ entries back, bytes = entries ++ back ∧
      NullableColumn encoding type rows entries back column := by
  cases type with
  | date | date32 | dateTime => exact of_converted rfl (fun _ => rfl) (by decide) h hsizes
  | dateTime64 precision =>
    obtain ⟨shown, hshown, rfl⟩ := h.of_map
    obtain ⟨scale, front, back, sizes₁, sizes₂, hscale, hrows, rfl, rfl⟩ := hshown.of_bind
    obtain ⟨hvalid, rfl, rfl⟩ := hscale.of_ofExcept
    exact of_converted rfl (ColumnType.cell_dateTime64 hvalid) (by decide) (hrows.map _) hsizes
  | _ => exact of_nullable h hsizes

/-- Such a column lies in the bytes that it consumed. -/
theorem of_consumes {decoder : Decoder (List (Option Cell))}
    (hdecoder : decoder ∈ type.nullableReads rows)
    (h : Consumes encoding decoder bytes sizes column)
    (hsizes : ∀ size ∈ sizes, size < maxSize) :
    ∃ entries back, bytes = entries ++ back ∧
      NullableColumn encoding type rows entries back column := by
  obtain rfl | rfl := List.mem_pair.mp hdecoder
  · exact of_readNullable h hsizes
  · exact of_nullable h hsizes

end NullableColumn

end Columnar
