import Columnar.Proofs.ExactRows

/-!
Columns of cells of a fixed size as one read. Whatever the type, the block is read whole, and then
its cells are taken one by one, up to the first that has no value.
-/
namespace Columnar

theorem mapM_map_values [Monad m] [LawfulMonad m] (f : β → γ) (convert : α → m β)
    (values : List α) :
    List.map f <$> values.mapM convert = values.mapM fun value => f <$> convert value := by
  induction values with
  | nil => simp
  | cons value values ih => simp [← ih]

namespace Column

variable (source : ByteSource σ) (state : σ) {size rows : Nat}

/-- The room for the rows is asked for when the block has been read. -/
theorem run_bytes_reserved :
    (bytes size rows).run source state =
      (source.readBytes (mulSat size rows) state).andThen fun block after =>
        if maxAllocation < bytesRoom * rows then (.error .capacityOverflow, after)
        else (.ok (Bytes.cells size rows block), after) := by
  rw [bytes, Decoder.bind_eq, Decoder.run_bind_andThen, Decoder.run_takeBytes]
  congr 1
  funext block after
  exact Decoder.run_reserve source _ _ after

theorem run_bytes (hroom : bytesRoom * rows ≤ maxAllocation) :
    (bytes size rows).run source state =
      (source.readBytes (mulSat size rows) state).andThen fun block after =>
        (.ok (Bytes.cells size rows block), after) := by
  rw [run_bytes_reserved]
  simp only [if_neg (Nat.not_lt.mpr hroom)]

theorem run_fixedText (hpos : 0 < size) :
    (fixedText size rows).run source state =
      (source.readBytes (mulSat size rows) state).andThen fun block after =>
        (.ok ((Bytes.wholeCells size block).map (source.encoding state).decode), after) := by
  rw [fixedText, Decoder.bind_eq, Decoder.textEncoding, Decoder.bind, Decoder.run,
    Decoder.done_bind, if_neg (Nat.ne_of_gt hpos)]
  exact Decoder.run_bytes source _ _ state

end Column

namespace ColumnType

/-- How much room the rows of a decoded column take each, as far as it is asked for in advance. -/
def room : ColumnType → Nat
  | .text | .fixedText _ => Column.textRoom
  | .rawText | .bytes _ => Column.bytesRoom
  | _ => 0

/-- The precision of a type is one that time stamps can have. -/
def Valid (type : ColumnType) : Prop :=
  ∀ precision, type = .dateTime64 precision → precision ≤ maxPrecision

/-- The values of the rows of a block. -/
def cells (encoding : TextEncoding) (type : ColumnType) (size rows : Nat) (block : Bytes) :
    Except DecodeError (List Cell) :=
  (Bytes.cells size rows block).mapM (type.cell encoding)

variable {source : ByteSource σ} {state : σ} {type : ColumnType} {size rows : Nat}

theorem cells_map {encoding : TextEncoding} {block : Bytes} {f : Bytes → Cell}
    (hcell : ∀ content, type.cell encoding content = .ok (f content)) :
    cells encoding type size rows block = .ok ((Bytes.cells size rows block).map f) := by
  rw [cells, funext hcell]
  exact List.mapM_pure

/-- The read of a block, and then of its cells. -/
def runBlock (source : ByteSource σ) (type : ColumnType) (size rows : Nat) (state : σ) :
    Outcome σ (List Cell) :=
  (source.readBytes (mulSat size rows) state).andThen fun block after =>
    ((type.cells (source.encoding state) size rows block).mapError .error, after)

theorem runBlock_eq_ok_iff {column : List Cell} {after : σ} :
    type.runBlock source size rows state = (.ok column, after) ↔
      ∃ block, source.readBytes (mulSat size rows) state = (.ok block, after) ∧
        type.cells (source.encoding state) size rows block = .ok column := by
  have hcells (block : Bytes) (last : σ) :
      ((type.cells (source.encoding state) size rows block).mapError .error, last) =
          ((.ok column, after) : Outcome σ (List Cell)) ↔
        last = after ∧ type.cells (source.encoding state) size rows block = .ok column := by
    cases type.cells (source.encoding state) size rows block <;> simp [Except.mapError, and_comm]
  simp only [runBlock, Outcome.andThen_eq_ok_iff, hcells]
  constructor
  · rintro ⟨block, last, hread, rfl, hvalues⟩
    exact ⟨block, hread, hvalues⟩
  · rintro ⟨block, hread, hvalues⟩
    exact ⟨block, after, hread, rfl, hvalues⟩

/-- The source serves whole blocks. -/
def ServesBlock (source : ByteSource σ) (size rows : Nat) (state : σ) : Prop :=
  ∀ block after, source.readBytes (mulSat size rows) state = (.ok block, after) →
    block.length = size * rows

theorem servesBlock_of_exact {Live : σ → Prop} {Takes : σ → Bytes → σ → Prop}
    (h : source.Exact Live Takes) (hlive : Live state) : ServesBlock source size rows state := by
  intro block after hread
  obtain ⟨_, _, hlength, hsmall⟩ := h.bytes hlive hread
  rw [hlength, (mulSat_exact hsmall).1]

theorem run_array {format : FixedWidth α} {wrap : α → Cell} (hpos : 0 < format.size)
    (hblock : ServesBlock source format.size rows state)
    (hcell : ∀ content,
      type.cell (source.encoding state) content = .ok (wrap (format.decode content))) :
    (List.map wrap <$> Column.array format rows).run source state =
      type.runBlock source format.size rows state := by
  rw [Decoder.run_map, Column.run_array, runBlock]
  cases hread : source.readBytes (mulSat format.size rows) state with
  | mk result after =>
    cases result with
    | error fault => rfl
    | ok block =>
      simp only [Outcome.andThen, Bytes.wholeCells_block hpos (hblock block after hread),
        cells_map hcell, Prod.map_apply, Except.map, List.map_map, id_eq]
      rfl

theorem run_converted {format : FixedWidth α} {convert : α → Except DecodeError β}
    {wrap : β → Cell} (hpos : 0 < format.size)
    (hblock : ServesBlock source format.size rows state)
    (hcell : ∀ content, type.cell (source.encoding state) content =
      wrap <$> convert (format.decode content)) :
    (List.map wrap <$> Column.converted convert (Column.array format rows)).run source state =
      type.runBlock source format.size rows state := by
  rw [Decoder.run_map, Column.run_converted, Column.run_array, runBlock]
  cases hread : source.readBytes (mulSat format.size rows) state with
  | mk result after =>
    cases result with
    | error fault => rfl
    | ok block =>
      have hvalues : type.cells (source.encoding state) format.size rows block = List.map wrap <$>
          ((Bytes.cells format.size rows block).map format.decode).mapM convert := by
        rw [cells, funext hcell, List.mapM_map, mapM_map_values]
        rfl
      simp only [Outcome.andThen, Bytes.wholeCells_block hpos (hblock block after hread), hvalues]
      cases ((Bytes.cells format.size rows block).map format.decode).mapM convert with
      | error cause => rfl
      | ok values => rfl

theorem run_bytes (hroom : Column.bytesRoom * rows ≤ maxAllocation) :
    ((ColumnType.bytes size).read rows).run source state =
      (ColumnType.bytes size).runBlock source size rows state := by
  rw [read, Decoder.run_map, Column.run_bytes source state hroom, runBlock]
  cases source.readBytes (mulSat size rows) state with
  | mk result after =>
    cases result with
    | error fault => rfl
    | ok block =>
      have hvalues : cells (source.encoding state) (.bytes size) size rows block =
          .ok ((Bytes.cells size rows block).map .bytes) := cells_map fun _ => rfl
      simp only [Outcome.andThen, hvalues]
      rfl

theorem run_fixedText (hpos : 0 < size) (hblock : ServesBlock source size rows state) :
    ((ColumnType.fixedText size).read rows).run source state =
      (ColumnType.fixedText size).runBlock source size rows state := by
  rw [read, Decoder.run_map, Column.run_fixedText source state hpos, runBlock]
  cases hread : source.readBytes (mulSat size rows) state with
  | mk result after =>
    cases result with
    | error fault => rfl
    | ok block =>
      have hvalues : cells (source.encoding state) (.fixedText size) size rows block =
          .ok ((Bytes.cells size rows block).map fun content =>
            .text ((source.encoding state).decode content)) := cells_map fun _ => rfl
      simp only [Outcome.andThen, Bytes.wholeCells_block hpos (hblock block after hread), hvalues,
        Prod.map_apply, Except.map, List.map_map, id_eq]
      rfl

/-- A column of cells of a fixed size is its block, read whole. -/
theorem run_read (hsize : type.cellSize = some size) (hread : type ≠ .fixedText 0)
    (hvalid : type.Valid) (hroom : type.room * rows ≤ maxAllocation)
    (hblock : ServesBlock source size rows state) :
    (type.read rows).run source state = type.runBlock source size rows state := by
  cases type with
  | text | rawText => cases hsize
  | number type =>
    obtain rfl := Option.some.inj hsize
    have hpos : 0 < type.format.size := by cases type <;> decide
    have hrun : (List.map id <$> Column.array type.format rows).run source state =
        (ColumnType.number type).runBlock source type.format.size rows state :=
      run_array hpos hblock fun _ => rfl
    rw [List.map_id_fun, id_map] at hrun
    exact hrun
  | bytes length =>
    obtain rfl := Option.some.inj hsize
    exact run_bytes hroom
  | fixedText length =>
    obtain rfl := Option.some.inj hsize
    have hpos : 0 < length := Nat.pos_of_ne_zero fun hzero => hread (by rw [hzero])
    exact run_fixedText hpos hblock
  | uuid | ipv4 | ip =>
    obtain rfl := Option.some.inj hsize
    exact run_array (by decide) hblock fun _ => rfl
  | date | date32 | dateTime =>
    obtain rfl := Option.some.inj hsize
    exact run_converted (by decide) hblock fun _ => rfl
  | dateTime64 precision =>
    obtain rfl := Option.some.inj hsize
    obtain ⟨scale, hscale⟩ : ∃ scale, TickScale.ofPrecision precision = .ok scale :=
      ⟨_, if_neg (Nat.not_lt.mpr (hvalid precision rfl))⟩
    rw [read, Column.dateTime64, hscale]
    exact run_converted (by decide) hblock (cell_dateTime64 hscale)

/-- Texts of no bytes are the only cells of a fixed size that are not read. -/
theorem run_emptyText (hroom : Column.textRoom * rows ≤ maxAllocation) :
    ((ColumnType.fixedText 0).read rows).run source state =
      (.ok (List.replicate rows (.text "")), state) := by
  rw [read, Decoder.run_map, Column.run_fixedText_zero, if_neg (Nat.not_lt.mpr hroom)]
  simp [Except.map]

/-- The conversion of a value of the type may fail. -/
def converts : ColumnType → Bool
  | .date | .date32 | .dateTime | .dateTime64 _ => true
  | _ => false

theorem exists_value (encoding : TextEncoding) (hplain : type.converts = false) :
    ∃ value : Bytes → Cell, ∀ content, type.cell encoding content = .ok (value content) := by
  cases type with
  | date | date32 | dateTime | dateTime64 => cases hplain
  | _ => exact ⟨_, fun _ => rfl⟩

/-- The next read of the source is a block of so many rows. -/
structure HasBlock (source : ByteSource σ) (size rows : Nat) (block : Bytes) (state after : σ) :
    Prop where
  read : source.readBytes (size * rows) state = (.ok block, after)
  length : block.length = size * rows
  small : size * rows ≤ maxSize

section HasBlock

variable {block : Bytes} {after : σ}

theorem HasBlock.serves (h : HasBlock source size rows block state after) :
    source.readBytes (mulSat size rows) state = (.ok block, after) ∧
      ServesBlock source size rows state := by
  have hread := h.read
  rw [← mulSat_eq _ _ h.small] at hread
  refine ⟨hread, fun other last hother => ?_⟩
  rw [hread] at hother
  rw [← Except.ok.inj (Prod.mk.inj hother).1, h.length]

/-- Every block makes a column of values that are not converted. -/
theorem HasBlock.run_plain {value : Bytes → Cell}
    (h : HasBlock source size rows block state after) (hplain : type.converts = false)
    (hsize : type.cellSize = some size) (hroom : type.room * rows ≤ maxAllocation)
    (hvalue : ∀ content, type.cell (source.encoding state) content = .ok (value content))
    (hempty : type = .fixedText 0 → after = state) :
    (type.read rows).run source state = (.ok ((Bytes.cells size rows block).map value), after) := by
  by_cases hzero : type = .fixedText 0
  · obtain rfl := hempty hzero
    subst hzero
    obtain rfl := Option.some.inj hsize
    have hlength := h.length
    rw [Nat.zero_mul] at hlength
    obtain rfl := List.eq_nil_of_length_eq_zero hlength
    have htext : value [] = .text "" := by
      rw [← Except.ok.inj (hvalue []), TextEncoding.decode_nil]
    rw [Bytes.cells_nil, List.map_replicate, htext]
    exact run_emptyText hroom
  · have hvalid : type.Valid := by
      rintro precision rfl
      cases hplain
    obtain ⟨hread, hserves⟩ := h.serves
    rw [run_read hsize hzero hvalid hroom hserves, runBlock, hread, Outcome.andThen,
      cells_map hvalue]
    rfl

end HasBlock

theorem hasBlock_slice {block rest : Bytes} {position : Nat} {encoding : TextEncoding}
    (hlength : block.length = size * rows) (hsmall : size * rows ≤ maxSize) :
    HasBlock Slice.byteSource size rows block ⟨block ++ rest, position, encoding⟩
      ⟨rest, position + block.length, encoding⟩ := by
  have hread := Slice.readBytes_append block rest position encoding
  rw [hlength] at hread ⊢
  exact ⟨hread, hlength, hsmall⟩

end ColumnType

end Columnar
