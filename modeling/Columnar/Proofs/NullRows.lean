import Columnar.Proofs.Blocks

/-!
Nullable columns of values that are not converted. The mask is read first and then the column behind
it, as if neither knew of the other: what the column does wrong it does wrong in the same place, and
all of its rows are taken, also if none of them shows. What the mask says afterwards is what it said
when it was read.
-/
namespace Columnar

namespace NullMask

/-- The values of a column where the mask shows them. -/
structure Hides (mask : NullMask) (values : List α) (column : List (Option α)) : Prop where
  length : column.length = values.length
  rows : ∀ (row : Nat) (entry : UInt8) (value : α), mask.entries[row]? = some entry →
    values[row]? = some value → column[row]? = some (if entry = 0 then some value else none)
  isNull : ∀ row < values.length, (mask.isNull row = true ↔ column[row]? = some none)
  pastEnd : ∀ row, values.length ≤ row → mask.isNull row = false
  nullCount : column.countP Option.isNone = mask.nullCount

theorem getElem?_apply {entries : Bytes} {values : List α} {row : Nat} {entry : UInt8} {value : α}
    (hentry : entries[row]? = some entry) (hvalue : values[row]? = some value) :
    (apply ⟨entries⟩ values)[row]? = some (if entry = 0 then some value else none) := by
  rw [apply, List.getElem?_zipWith, hentry, hvalue]

theorem countP_apply {entries : Bytes} {values : List α}
    (hlength : entries.length = values.length) :
    (apply ⟨entries⟩ values).countP Option.isNone = nullCount ⟨entries⟩ := by
  induction entries generalizing values with
  | nil => rfl
  | cons entry entries ih =>
    cases values with
    | nil => cases hlength
    | cons value values =>
      have hlater := ih (Nat.succ.inj hlength)
      rw [apply, nullCount] at hlater ⊢
      rw [List.zipWith_cons_cons, List.countP_cons, List.countP_cons, hlater]
      by_cases hentry : entry = 0
      · simp [hentry]
      · simp [hentry]

theorem hides_apply {entries : Bytes} {values : List α} (hlength : entries.length = values.length) :
    Hides ⟨entries⟩ values (apply ⟨entries⟩ values) where
  length := by rw [apply, List.length_zipWith, hlength, Nat.min_self]
  rows _ _ _ := getElem?_apply
  isNull row hrow := by
    have hentry : entries[row]? = some entries[row] := List.getElem?_eq_getElem _
    have hvalue : values[row]? = some values[row] := List.getElem?_eq_getElem hrow
    rw [getElem?_apply hentry hvalue, isNull, hentry]
    by_cases hzero : entries[row] = 0
    · simp [hzero]
    · simp [hzero]
  pastEnd row hrow := by
    have hentry : entries[row]? = none := List.getElem?_eq_none (by omega)
    rw [isNull, hentry]
  nullCount := countP_apply hlength

/-- Rows that are taken one by one are hidden one by one. -/
theorem apply_range {entries : Bytes} {rows : Nat} (hlength : entries.length = rows)
    (value : Nat → α) :
    apply ⟨entries⟩ ((List.range rows).map value) =
      (List.range rows).map fun row =>
        if entries[row]? = some 0 then some (value row) else none := by
  refine List.ext_getElem (by simp [apply, hlength]) fun row hrow _ => ?_
  have hentry : row < entries.length := by
    rw [apply, List.length_zipWith] at hrow
    exact (Nat.lt_min.mp hrow).1
  simp [apply, List.getElem?_eq_getElem hentry]

end NullMask

/-- The mask is read, and then as many rows of the column as the mask has. -/
theorem Column.run_nullable (source : ByteSource σ) (state : σ)
    (column : (rows : Nat) → Decoder (List α)) {rows : Nat} (hrows : rows ≤ maxSize) :
    (nullable column rows).run source state =
      (source.readBytes rows state).andThen fun entries middle =>
        ((column entries.length).run source middle).andThen fun values after =>
          (.ok (NullMask.apply ⟨entries⟩ values), after) := by
  have hsize : mulSat NullMask.entrySize rows = rows := by
    rw [mulSat_eq _ _ (by rw [NullMask.entrySize, Nat.one_mul]; exact hrows), NullMask.entrySize,
      Nat.one_mul]
  rw [nullable, nullMask, hsize, Decoder.takeBytes, Decoder.bind_eq, Decoder.bind_eq,
    Decoder.bind, Decoder.bind, Decoder.run_bytes]
  congr 1
  funext entries middle
  exact Decoder.run_bind_andThen source (column entries.length) _ middle

/-- The rows of a block as a mask shows them. -/
def ColumnType.shownRows (encoding : TextEncoding) (type : ColumnType) (size rows : Nat)
    (entries block : Bytes) : List (Option Cell) :=
  (List.range rows).map fun row =>
    if entries[row]? = some 0 then
      (type.cell encoding ((block.drop (size * row)).take size)).toOption
    else none

/-- What a nullable column makes of the two reads that it consists of. -/
structure ReadsMasked (source : ByteSource σ) (position : σ → Nat) (Takes : σ → Bytes → σ → Prop)
    (type : ColumnType) (rows : Nat) (decoder : Decoder (List (Option Cell))) (before : σ) :
    Prop where
  maskFails : ∀ (fault : Fault) (after : σ), source.readBytes rows before = (.error fault, after) →
    decoder.run source before = (.error fault, after)
  valuesFail : ∀ (entries : Bytes) (middle : σ) (fault : Fault) (after : σ),
    source.readBytes rows before = (.ok entries, middle) →
    (type.read rows).run source middle = (.error fault, after) →
    decoder.run source before = (.error fault, after)
  succeeds : ∀ (entries : Bytes) (middle : σ) (values : List Cell) (after : σ),
    source.readBytes rows before = (.ok entries, middle) →
    (type.read rows).run source middle = (.ok values, after) →
    ∃ column bytes cells, decoder.run source before = (.ok column, after) ∧
      column.length = rows ∧ NullMask.Hides ⟨entries⟩ values column ∧
      Takes before entries middle ∧ Takes middle bytes after ∧
      Layout type.cellSize rows bytes cells ∧
      position after = position before + (rows + type.wireSize cells)
  fixedWidth : ∀ (size : Nat) (entries block : Bytes) (middle after : σ),
    type.cellSize = some size → type.room * rows ≤ maxAllocation →
    source.readBytes rows before = (.ok entries, middle) →
    source.readBytes (size * rows) middle = (.ok block, after) →
    decoder.run source before =
        (.ok (type.shownRows (source.encoding before) size rows entries block), after) ∧
      position after = position before + (rows + size * rows)

namespace ColumnType

/-- Rows that do not show have no influence. -/
theorem shownRows_congr {encoding : TextEncoding} {type : ColumnType} {size rows : Nat}
    {entries entries' block block' : Bytes}
    (hnull : ∀ row < rows, (entries[row]? = some 0 ↔ entries'[row]? = some 0))
    (hslot : ∀ row < rows, entries[row]? = some 0 →
      (block.drop (size * row)).take size = (block'.drop (size * row)).take size) :
    type.shownRows encoding size rows entries block =
      type.shownRows encoding size rows entries' block' := by
  refine List.map_congr_left fun row hrow => ?_
  rw [List.mem_range] at hrow
  by_cases hshown : entries[row]? = some 0
  · rw [if_pos hshown, if_pos ((hnull row hrow).mp hshown), hslot row hrow hshown]
  · rw [if_neg hshown, if_neg fun hother => hshown ((hnull row hrow).mpr hother)]

/-- Hiding the values of a block is the same as not looking at the rows that are null. -/
theorem apply_cells {encoding : TextEncoding} {type : ColumnType} {size rows : Nat}
    {entries block : Bytes} {value : Bytes → Cell} (hlength : entries.length = rows)
    (hvalue : ∀ content, type.cell encoding content = .ok (value content)) :
    NullMask.apply ⟨entries⟩ ((Bytes.cells size rows block).map value) =
      type.shownRows encoding size rows entries block := by
  rw [Bytes.cells_eq, List.map_map, NullMask.apply_range hlength, shownRows]
  simp only [hvalue, Except.toOption, Function.comp_apply]

end ColumnType

section Source

variable {source : ByteSource σ} {position : σ → Nat} {Live : σ → Prop}
  {Takes : σ → Bytes → σ → Prop} {type : ColumnType} {rows : Nat} {before : σ}

/-- Every source that serves its reads exactly reads a nullable column so. -/
theorem ByteSource.Exact.readsMasked (h : source.Exact Live Takes)
    (hposition : ∀ {before after : σ} {bytes : Bytes}, Takes before bytes after →
      position after = position before + bytes.length)
    (hempty : ∀ {before after : σ} {block : Bytes},
      source.readBytes 0 before = (.ok block, after) → after = before)
    (hlive : Live before) (hplain : type.converts = false) (hrows : rows ≤ maxSize) :
    ReadsMasked source position Takes type rows (Column.nullable type.read rows) before := by
  have hrun := Column.run_nullable source before type.read hrows
  constructor
  case maskFails =>
    intro fault after hmask
    rw [hrun, hmask]
    rfl
  case valuesFail =>
    intro entries middle fault after hmask hvalues
    obtain ⟨_, _, hlength, _⟩ := h.bytes hlive hmask
    rw [hrun, hmask, Outcome.andThen, hlength, hvalues]
    rfl
  case succeeds =>
    intro entries middle values after hmask hvalues
    obtain ⟨hmiddle, htakes, hlength, _⟩ := h.bytes hlive hmask
    obtain ⟨bytes, sizes, hconsumes, hsizes, hlater⟩ := h.run hmiddle hvalues
    obtain ⟨⟨cells, hlayout, hforall⟩, _⟩ := ColumnType.reads_layout hconsumes hsizes
    have hcount : values.length = rows := hforall.length_eq.symm.trans hlayout.rows
    have hhides := NullMask.hides_apply (hlength.trans hcount.symm)
    refine ⟨_, bytes, cells, ?_, hhides.length.trans hcount, hhides, htakes, hlater, hlayout, ?_⟩
    · rw [hrun, hmask, Outcome.andThen, hlength, hvalues]
      rfl
    · rw [hposition hlater, hposition htakes, hlength, hlayout.wireSize_eq, Nat.add_assoc]
  case fixedWidth =>
    intro size entries block middle after hsize hroom hmask hblock
    obtain ⟨hmiddle, htakes, hlength, _⟩ := h.bytes hlive hmask
    obtain ⟨_, hlater, hexact, hsmall⟩ := h.bytes hmiddle hblock
    obtain ⟨value, hvalue⟩ := ColumnType.exists_value (source.encoding before) hplain
    have hencoding := h.encoding htakes
    have hnothing : type = .fixedText 0 → after = middle := by
      rintro rfl
      obtain rfl := Option.some.inj hsize
      rw [Nat.zero_mul] at hblock
      exact hempty hblock
    have hhas : ColumnType.HasBlock source size rows block middle after :=
      ⟨hblock, hexact, Nat.le_of_lt hsmall⟩
    have hvalues := hhas.run_plain hplain hsize hroom (by rw [hencoding]; exact hvalue) hnothing
    constructor
    · rw [hrun, hmask, Outcome.andThen, hlength, hvalues, ← ColumnType.apply_cells hlength hvalue]
      rfl
    · rw [hposition hlater, hposition htakes, hlength, hexact, Nat.add_assoc]

end Source

theorem Slice.eq_of_readBytes_zero {slice after : Slice} {block : Bytes}
    (h : byteSource.readBytes 0 slice = (.ok block, after)) : after = slice := by
  cases h
  rfl

theorem Cursor.eq_of_readBytes_zero [ChunkSource σ] {cursor after : Cursor σ} {block : Bytes}
    (h : byteSource.readBytes 0 cursor = (.ok block, after)) : after = cursor := by
  simp only [byteSource, readBytes, if_true] at h
  split at h
  · cases h
  · cases h
    rfl

/-- The nullable columns of a type that needs no conversion are one. -/
theorem ColumnType.nullableReads_eq {type : ColumnType} (hplain : type.converts = false)
    {rows : Nat} {decoder : Decoder (List (Option Cell))}
    (h : decoder ∈ type.nullableReads rows) :
    decoder = Column.nullable type.read rows := by
  obtain rfl | rfl := List.mem_pair.mp h
  · cases type with
    | date | date32 | dateTime | dateTime64 => cases hplain
    | _ => rfl
  · rfl

/-- A nullable column of values that are not converted is its mask and its column, read one after
the other. The rows that are null are those that the mask marks, and what lies in them does not
matter. -/
theorem nullable_columns_hide_rows :
    (∀ type : ColumnType, type.converts = false → ∀ rows ≤ maxSize,
      ∀ decoder ∈ type.nullableReads rows,
      (∀ slice : Slice, slice.unread.length < 2 ^ 63 →
        ReadsMasked Slice.byteSource Slice.position Slice.Takes type rows decoder slice) ∧
      ∀ {σ : Type} [ChunkSource σ] (config : DecoderConfig) (source : σ) (start : Cursor σ),
        Cursor.ofConfig config source = .ok start → ShortChunks source → ∀ calls : List Call,
          ReadsMasked Cursor.byteSource Cursor.position Cursor.Takes type rows decoder
            (Call.after calls start)) ∧
    ∀ (encoding : TextEncoding) (type : ColumnType) (size rows : Nat)
      (entries entries' block block' : Bytes),
      (∀ row < rows, (entries[row]? = some 0 ↔ entries'[row]? = some 0)) →
      (∀ row < rows, entries[row]? = some 0 →
        (block.drop (size * row)).take size = (block'.drop (size * row)).take size) →
      type.shownRows encoding size rows entries block =
        type.shownRows encoding size rows entries' block' := by
  constructor
  · intro type hplain rows hrows decoder hdecoder
    rw [ColumnType.nullableReads_eq hplain hdecoder]
    constructor
    · intro slice hlength
      exact Slice.exact.readsMasked (fun htakes => htakes.position) Slice.eq_of_readBytes_zero
        (Nat.le_of_lt_succ hlength) hplain hrows
    · intro σ _ config source start hstart hchunks calls
      exact Cursor.exact.readsMasked (fun htakes => htakes.position) Cursor.eq_of_readBytes_zero
        ((Cursor.short_ofConfig hstart hchunks).calls calls) hplain hrows
  · intro encoding type size rows entries entries' block block' hnull hslot
    exact ColumnType.shownRows_congr hnull hslot

/-- A mask of three rows and three numbers of two bytes, with one byte behind them. The mask is cut,
and so are the numbers. -/
def hiddenChunks : List Bytes := [[0, 7], [0, 1, 0], [2, 0, 9], [0, 5]]

/-- The numbers are assembled where the mask was. A column of texts is taken though no row shows,
and a text that is cut off is missed though its row would not show. -/
theorem nullable_columns_hide_rows_reassembled : ∃ start,
    Cursor.ofConfig {} hiddenChunks = .ok start ∧
    (∃ after, ((ColumnType.number .u16).readNullable 3).run Cursor.byteSource start =
      (.ok [some (.integer 1), none, some (.integer 9)], after) ∧ after.position = 9) ∧
    (∃ column, (ColumnType.text.readNullable 2).run Slice.byteSource
        ⟨[1, 255, 1, 97, 0, 8], 0, .utf8⟩ = (.ok column, ⟨[8], 5, .utf8⟩) ∧
      column[0]? = some none ∧ column[1]? = some none) ∧
    (ColumnType.text.readNullable 1).run Slice.byteSource ⟨[1, 5, 97], 0, .utf8⟩ =
      (.error (.error (.endOfStream 5 1)), ⟨[97], 2, .utf8⟩) := by
  have hstart : Cursor.ofConfig {} hiddenChunks = .ok { source := hiddenChunks, config := {} } :=
    Cursor.ofConfig_eq_ok_iff.mpr ⟨DecoderConfig.validate_default, rfl⟩
  have hcontent : ContentBelow (2 ^ 56) hiddenChunks := contentBelow_list (by decide)
  have hnumbers := (nullable_columns_hide_rows.1 (.number .u16) rfl 3 (by decide) _
    List.mem_cons_self).2 {} hiddenChunks _ hstart (hcontent.shortChunks (by decide)) []
  have htexts := (nullable_columns_hide_rows.1 .text rfl 2 (by decide) _ List.mem_cons_self).1
    ⟨[1, 255, 1, 97, 0, 8], 0, .utf8⟩ (by decide)
  have hcut := (nullable_columns_hide_rows.1 .text rfl 1 (by decide) _ List.mem_cons_self).1
    ⟨[1, 5, 97], 0, .utf8⟩ (by decide)
  refine ⟨_, hstart, ?_, ?_, ?_⟩
  · obtain ⟨hrun, hposition⟩ :=
      hnumbers.fixedWidth 2 [0, 7, 0] [1, 0, 2, 0, 9, 0] _ _ rfl (by decide)
        (Prod.ext (by decide +kernel) rfl) (Prod.ext (by decide +kernel) rfl)
    have hrows : (ColumnType.number .u16).shownRows .utf8 2 3 [0, 7, 0] [1, 0, 2, 0, 9, 0] =
        [some (.integer 1), none, some (.integer 9)] := by decide +kernel
    rw [← hrows]
    exact ⟨_, hrun, hposition⟩
  · obtain ⟨column, _, _, hrun, _, hhides, _⟩ := htexts.succeeds [1, 255]
      ⟨[1, 97, 0, 8], 2, .utf8⟩ [.text "a", .text ""] ⟨[8], 5, .utf8⟩ rfl (by decide +kernel)
    exact ⟨column, hrun, hhides.rows 0 1 _ rfl rfl, hhides.rows 1 255 _ rfl rfl⟩
  · exact hcut.valuesFail [1] ⟨[5, 97], 1, .utf8⟩ _ _ rfl (by decide +kernel)

end Columnar
