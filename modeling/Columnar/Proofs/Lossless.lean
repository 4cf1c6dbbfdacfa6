import Columnar.Proofs.Blocks
import Columnar.Proofs.Calendar
import Columnar.Proofs.Item

/-!
Columns that lose nothing. A block of numbers, byte strings, identifiers, addresses or dates can be
written again from the rows that were decoded, and what was written is decoded to the same rows.
Every cell goes both ways on its own, so the block does. Dates are written as the day numbers that
they have in the calendar.
-/
namespace Columnar

/-- The numbers of a type. Booleans are none: all bytes but zero are true. -/
def NumberType.Holds (type : NumberType) : Cell → Prop
  | .integer value =>
    match type with
    | .u8 | .u16 | .u32 | .u64 | .u128 => 0 ≤ value ∧ value < (2 ^ (8 * type.size) : Nat)
    | .i8 | .i16 | .i32 | .i64 | .i128 =>
      -((2 ^ (8 * type.size) : Nat) : Int) ≤ 2 * value ∧ 2 * value < (2 ^ (8 * type.size) : Nat)
    | _ => False
  | .float32 _ => type = .f32
  | .float64 _ => type = .f64
  | _ => False

namespace ColumnType

/-- The types whose cells can be written back. -/
def lossless : ColumnType → Bool
  | .number type => type ≠ .bool
  | .bytes _ | .uuid | .ipv4 | .ip | .date | .date32 => true
  | _ => false

/-- The values of a type. -/
def Holds : ColumnType → Cell → Prop
  | .number type, value => type.Holds value
  | .bytes size, .bytes content => content.length = size
  | .uuid, .uuid _ | .ipv4, .ipv4 _ => True
  | .ip, .ip address => address.Short
  | .date, .date day => 0 ≤ day.dayNumber ∧ day.dayNumber < (2 ^ 16 : Nat)
  | .date32, .date day => EpochDay.first ≤ day.dayNumber ∧ day.dayNumber ≤ EpochDay.last
  | _, _ => False

/-- The bytes of a value as cells of the type have them. -/
def encode : ColumnType → Cell → Bytes
  | .number type, value => value.encodeNumber type
  | .bytes _, .bytes content => content
  | .uuid, .uuid id => Uuid.format.encode id
  | .ipv4, .ipv4 address => Ipv4.format.encode address
  | .ip, .ip address => Ip.format.encode address
  | .date, .date day => (FixedWidth.natural 2).encode day.dayNumber
  | .date32, .date day => (FixedWidth.signed 4).encode day.dayNumber
  | _, _ => []

/-- Cells and values belong together one to one. -/
structure LosslessCells (type : ColumnType) (size : Nat) : Prop where
  decoded : ∀ encoding content value, content.length = size →
    type.cell encoding content = .ok value → type.Holds value ∧ type.encode value = content
  encoded : ∀ encoding value, type.Holds value →
    (type.encode value).length = size ∧ type.cell encoding (type.encode value) = .ok value

theorem losslessCells_of_format {format : FixedWidth α} {Good : α → Prop} {type : ColumnType}
    (h : format.Lossless Good) (wrap : α → Cell)
    (hcell : ∀ encoding content, type.cell encoding content = .ok (wrap (format.decode content)))
    (hencode : ∀ value, type.encode (wrap value) = format.encode value)
    (hholds : ∀ value, type.Holds value ↔ ∃ inner, Good inner ∧ value = wrap inner) :
    type.LosslessCells format.size := by
  constructor
  case decoded =>
    intro encoding content value hlength hvalue
    rw [hcell] at hvalue
    obtain rfl := Except.ok.inj hvalue
    rw [hencode, hholds]
    exact ⟨⟨_, h.good_decode content hlength, rfl⟩, h.encode_decode content hlength⟩
  case encoded =>
    intro encoding value hvalue
    obtain ⟨inner, hinner, rfl⟩ := (hholds value).mp hvalue
    rw [hcell, hencode, h.decode_encode inner hinner]
    exact ⟨h.length_encode inner hinner, rfl⟩

theorem losslessCells_number {type : NumberType} (hbool : type ≠ .bool) :
    (ColumnType.number type).LosslessCells type.size := by
  cases type with
  | bool => exact absurd rfl hbool
  | u8 | u16 | u32 | u64 | u128 =>
    refine losslessCells_of_format (FixedWidth.lossless_natural _) .integer (fun _ _ => rfl)
      (fun _ => rfl) fun value => ?_
    cases value <;> simp [Holds, NumberType.Holds, NumberType.size]
  | i8 | i16 | i32 | i64 | i128 =>
    refine losslessCells_of_format (FixedWidth.lossless_signed _) .integer (fun _ _ => rfl)
      (fun _ => rfl) fun value => ?_
    cases value <;> simp [Holds, NumberType.Holds, NumberType.size]
  | f32 =>
    refine losslessCells_of_format (FixedWidth.lossless_word 4) .float32 (fun _ _ => rfl)
      (fun _ => rfl) fun value => ?_
    cases value <;> simp [Holds, NumberType.Holds]
  | f64 =>
    refine losslessCells_of_format (FixedWidth.lossless_word 8) .float64 (fun _ _ => rfl)
      (fun _ => rfl) fun value => ?_
    cases value <;> simp [Holds, NumberType.Holds]

/-- A date belongs to its day number, if the format has that number. -/
theorem losslessCells_date {format : FixedWidth Int} {Good : Int → Prop} {type : ColumnType}
    (h : format.Lossless Good)
    (hcell : ∀ encoding content,
      type.cell encoding content = .date <$> EpochDay.date (format.decode content))
    (hencode : ∀ day, type.encode (.date day) = format.encode day.dayNumber)
    (hholds : ∀ value, type.Holds value ↔ ∃ day : Date, value = .date day ∧
      Good day.dayNumber ∧ EpochDay.first ≤ day.dayNumber ∧ day.dayNumber ≤ EpochDay.last) :
    type.LosslessCells format.size := by
  constructor
  case decoded =>
    intro encoding content value hlength hvalue
    rw [hcell] at hvalue
    cases hday : EpochDay.date (format.decode content) with
    | error cause =>
      rw [hday] at hvalue
      cases hvalue
    | ok day =>
      rw [hday] at hvalue
      obtain rfl := Except.ok.inj hvalue
      obtain ⟨hrange, hnumber⟩ := EpochDay.date_eq_ok_iff.mp hday
      rw [hencode, hholds, hnumber, h.encode_decode content hlength]
      refine ⟨⟨day, rfl, ?_, ?_⟩, rfl⟩ <;> rw [hnumber]
      · exact h.good_decode content hlength
      · exact hrange
  case encoded =>
    intro encoding value hvalue
    obtain ⟨day, rfl, hgood, hrange⟩ := (hholds value).mp hvalue
    rw [hcell, hencode, h.decode_encode _ hgood, EpochDay.date_eq_ok_iff.mpr ⟨hrange, rfl⟩]
    exact ⟨h.length_encode _ hgood, rfl⟩

theorem losslessCells {type : ColumnType} {size : Nat} (hlossless : type.lossless = true)
    (hsize : type.cellSize = some size) : type.LosslessCells size := by
  cases type with
  | text | rawText | fixedText | dateTime | dateTime64 => cases hlossless
  | number type =>
    obtain rfl := Option.some.inj hsize
    exact losslessCells_number (by simpa [lossless] using hlossless)
  | bytes length =>
    obtain rfl := Option.some.inj hsize
    constructor
    case decoded =>
      intro encoding content value hlength hvalue
      obtain rfl := Except.ok.inj hvalue
      exact ⟨hlength, rfl⟩
    case encoded =>
      intro encoding value hvalue
      cases value with
      | bytes content => exact ⟨hvalue, rfl⟩
      | _ => cases hvalue
  | uuid =>
    obtain rfl := Option.some.inj hsize
    refine losslessCells_of_format Uuid.lossless .uuid (fun _ _ => rfl) (fun _ => rfl)
      fun value => ?_
    cases value <;> simp [Holds]
  | ipv4 =>
    obtain rfl := Option.some.inj hsize
    refine losslessCells_of_format Ipv4.lossless .ipv4 (fun _ _ => rfl) (fun _ => rfl)
      fun value => ?_
    cases value <;> simp [Holds]
  | ip =>
    obtain rfl := Option.some.inj hsize
    refine losslessCells_of_format Ip.lossless .ip (fun _ _ => rfl) (fun _ => rfl)
      fun value => ?_
    cases value <;> simp [Holds]
  | date =>
    obtain rfl := Option.some.inj hsize
    refine losslessCells_date (FixedWidth.lossless_natural 2) (fun _ _ => rfl) (fun _ => rfl)
      fun value => ?_
    cases value <;> simp [Holds, EpochDay.first, EpochDay.last]
    omega
  | date32 =>
    obtain rfl := Option.some.inj hsize
    refine losslessCells_date (FixedWidth.lossless_signed 4) (fun _ _ => rfl) (fun _ => rfl)
      fun value => ?_
    cases value <;> simp [Holds, EpochDay.first, EpochDay.last]
    omega

end ColumnType

/-- Contents of one length can be told apart when they lie one behind the other. -/
theorem Bytes.cells_flatten {size : Nat} {contents : List Bytes}
    (h : ∀ content ∈ contents, content.length = size) :
    cells size contents.length contents.flatten = contents := by
  induction contents with
  | nil => rfl
  | cons content contents ih =>
    obtain ⟨hcontent, hlater⟩ := List.forall_mem_cons.mp h
    rw [List.length_cons, cells_succ, List.flatten_cons, List.take_left' hcontent,
      List.drop_left' hcontent, ih hlater]

namespace ColumnType

section LosslessCells

variable {encoding : TextEncoding} {type : ColumnType} {size rows : Nat}

theorem LosslessCells.decoded_all (h : type.LosslessCells size) {contents : List Bytes}
    {column : List Cell} (hlength : ∀ content ∈ contents, content.length = size)
    (hvalues : List.Forall₂ (fun content value => type.cell encoding content = .ok value)
      contents column) :
    (∀ value ∈ column, type.Holds value) ∧ column.map type.encode = contents := by
  induction hvalues with
  | nil => exact ⟨by simp, rfl⟩
  | cons hvalue _ ih =>
    obtain ⟨hcontent, hlater⟩ := List.forall_mem_cons.mp hlength
    obtain ⟨hholds, hencode⟩ := h.decoded encoding _ _ hcontent hvalue
    obtain ⟨hholds', hencode'⟩ := ih hlater
    exact ⟨List.forall_mem_cons.mpr ⟨hholds, hholds'⟩, by rw [List.map_cons, hencode, hencode']⟩

/-- The rows of a block are written as the block was. -/
theorem LosslessCells.decoded_block (h : type.LosslessCells size) {block : Bytes}
    {column : List Cell} (hlength : block.length = size * rows)
    (hcolumn : type.cells encoding size rows block = .ok column) :
    column.length = rows ∧ (∀ value ∈ column, type.Holds value) ∧
      column.flatMap type.encode = block := by
  obtain ⟨hflatten, hcells⟩ := Bytes.cut_block hlength
  have hvalues := mapM_eq_ok_iff.mp hcolumn
  obtain ⟨hholds, hwritten⟩ := h.decoded_all hcells hvalues
  rw [List.flatMap_def, hwritten, hflatten, ← hvalues.length_eq, Bytes.length_cells]
  exact ⟨rfl, hholds, rfl⟩

/-- Rows that were written are those of the block. -/
theorem LosslessCells.encoded_block (h : type.LosslessCells size) {column : List Cell}
    (hholds : ∀ value ∈ column, type.Holds value) :
    type.cells encoding size column.length (column.flatMap type.encode) = .ok column := by
  have hlength : ∀ content ∈ column.map type.encode, content.length = size := by
    intro content hcontent
    obtain ⟨value, hvalue, rfl⟩ := List.mem_map.mp hcontent
    exact (h.encoded encoding value (hholds value hvalue)).1
  have hcells := Bytes.cells_flatten hlength
  rw [List.length_map, ← List.flatMap_def] at hcells
  rw [cells, hcells, mapM_eq_ok_iff, List.forall₂_map_left_iff, List.forall₂_same]
  exact fun value hvalue => (h.encoded encoding value (hholds value hvalue)).2

end LosslessCells

/-- Blocks that are read as the same rows are the same, wherever they are read from. -/
def InjectiveColumn (size : Nat) (read : (rows : Nat) → Decoder (List α)) : Prop :=
  ∀ {σ τ : Type} {source : ByteSource σ} {source' : ByteSource τ} {rows rows' : Nat}
    {block block' : Bytes} {state after last : σ} {state' after' last' : τ} {column : List α},
    HasBlock source size rows block state after → HasBlock source' size rows' block' state' after' →
    (read rows).run source state = (.ok column, last) →
    (read rows').run source' state' = (.ok column, last') → rows = rows' ∧ block = block'

/-- Blocks and the columns of their rows belong together one to one. -/
structure LosslessColumn (type : ColumnType) (size : Nat) : Prop where
  /-- Every block is decoded whose rows find room, unless it has days that are not in the
  calendar. -/
  decodes : ∀ {σ : Type} {source : ByteSource σ} {rows : Nat} {block : Bytes} {state after : σ},
    HasBlock source size rows block state after → type.converts = false →
      ((∃ column, (type.read rows).run source state = (.ok column, after)) ↔
        type.room * rows ≤ maxAllocation)
  /-- What was decoded is written as it was. -/
  rewrites : ∀ {σ : Type} {source : ByteSource σ} {rows : Nat} {block : Bytes}
    {state after last : σ} {column : List Cell}, HasBlock source size rows block state after →
      (type.read rows).run source state = (.ok column, last) →
        last = after ∧ column.length = rows ∧ (∀ value ∈ column, type.Holds value) ∧
          column.flatMap type.encode = block
  /-- What was written is decoded as it was. -/
  rereads : ∀ {σ : Type} {source : ByteSource σ} {state after : σ} {column : List Cell},
    (∀ value ∈ column, type.Holds value) → type.room * column.length ≤ maxAllocation →
      HasBlock source size column.length (column.flatMap type.encode) state after →
        (type.read column.length).run source state = (.ok column, after)
  injective : InjectiveColumn size type.read

section LosslessColumn

variable {source : ByteSource σ} {type : ColumnType} {size rows : Nat} {block : Bytes}
  {state after last : σ} {column : List Cell}

/-- Only byte strings ask for room, and then nothing is decoded without it. -/
theorem room_of_run (hlossless : type.lossless = true)
    (hrun : (type.read rows).run source state = (.ok column, after)) :
    type.room * rows ≤ maxAllocation := by
  cases type with
  | text | rawText | fixedText | dateTime | dateTime64 => cases hlossless
  | bytes size =>
    rw [read, Decoder.run_map, Column.run_bytes_reserved] at hrun
    generalize source.readBytes (mulSat size rows) state = outcome at hrun
    rcases outcome with ⟨fault | block, last⟩
    · cases hrun
    · by_cases hroom : maxAllocation < Column.bytesRoom * rows
      · rw [Outcome.andThen, if_pos hroom] at hrun
        cases hrun
      · exact Nat.not_lt.mp hroom
  | _ => simp [room]

/-- The rows of a block are decoded as they are from a block that was read whole. -/
theorem HasBlock.run_lossless (h : HasBlock source size rows block state after)
    (hlossless : type.lossless = true) (hsize : type.cellSize = some size)
    (hroom : type.room * rows ≤ maxAllocation) :
    (type.read rows).run source state = type.runBlock source size rows state := by
  have hread : type ≠ .fixedText 0 := by
    rintro rfl
    cases hlossless
  have hvalid : type.Valid := by
    rintro precision rfl
    cases hlossless
  exact run_read hsize hread hvalid hroom h.serves.2

theorem LosslessCells.rewritten (hcells : type.LosslessCells size)
    (hlossless : type.lossless = true) (hsize : type.cellSize = some size)
    (hblock : HasBlock source size rows block state after)
    (hrun : (type.read rows).run source state = (.ok column, last)) :
    last = after ∧ column.length = rows ∧ (∀ value ∈ column, type.Holds value) ∧
      column.flatMap type.encode = block := by
  have hroom := room_of_run hlossless hrun
  rw [hblock.run_lossless hlossless hsize hroom, runBlock_eq_ok_iff] at hrun
  obtain ⟨found, hfound, hcolumn⟩ := hrun
  rw [hblock.serves.1] at hfound
  obtain ⟨⟨⟩, rfl⟩ := Prod.mk.inj hfound
  exact ⟨rfl, hcells.decoded_block hblock.length hcolumn⟩

end LosslessColumn

theorem losslessColumn {type : ColumnType} {size : Nat} (hlossless : type.lossless = true)
    (hsize : type.cellSize = some size) : type.LosslessColumn size := by
  have hcells := losslessCells hlossless hsize
  constructor
  case decodes =>
    intro σ source rows block state after hblock hplain
    constructor
    · rintro ⟨column, hrun⟩
      exact room_of_run hlossless hrun
    · intro hroom
      obtain ⟨value, hvalue⟩ := exists_value (source.encoding state) hplain
      have hnothing : type = .fixedText 0 → after = state := by
        rintro rfl
        cases hlossless
      exact ⟨_, hblock.run_plain hplain hsize hroom hvalue hnothing⟩
  case rewrites =>
    intro σ source rows block state after last column hblock hrun
    exact hcells.rewritten hlossless hsize hblock hrun
  case rereads =>
    intro σ source state after column hholds hroom hblock
    rw [hblock.run_lossless hlossless hsize hroom, runBlock_eq_ok_iff]
    exact ⟨_, hblock.serves.1, hcells.encoded_block hholds⟩
  case injective =>
    intro σ τ source source' rows rows' block block' state after last state' after' last' column
      hblock hblock' hrun hrun'
    obtain ⟨_, hrows, _, hwritten⟩ := hcells.rewritten hlossless hsize hblock hrun
    obtain ⟨_, hrows', _, hwritten'⟩ := hcells.rewritten hlossless hsize hblock' hrun'
    exact ⟨hrows.symm.trans hrows', hwritten.symm.trans hwritten'⟩

/-- Values that were converted are written as they were before. -/
theorem HasBlock.run_converted {source : ByteSource σ} {format : FixedWidth α} {Good : α → Prop}
    {convert : α → Except DecodeError β} {rows : Nat} {block : Bytes} {state after last : σ}
    {column : List β} (h : HasBlock source format.size rows block state after)
    (hformat : format.Lossless Good) (hpos : 0 < format.size)
    (hrun : (Column.converted convert (Column.array format rows)).run source state =
      (.ok column, last)) :
    ∃ values, List.Forall₂ (fun value result => convert value = .ok result) values column ∧
      values.length = rows ∧ values.flatMap format.encode = block := by
  obtain ⟨hflatten, hcells⟩ := Bytes.cut_block h.length
  rw [Column.run_converted, Column.run_array, h.serves.1] at hrun
  simp only [Outcome.andThen, Bytes.wholeCells_block hpos h.length] at hrun
  refine ⟨(Bytes.cells format.size rows block).map format.decode, ?_, ?_, ?_⟩
  · cases hvalues : ((Bytes.cells format.size rows block).map format.decode).mapM convert with
    | error cause =>
      rw [hvalues] at hrun
      cases hrun
    | ok converted =>
      rw [hvalues] at hrun
      obtain ⟨⟨⟩, _⟩ := Prod.mk.inj hrun
      exact mapM_eq_ok_iff.mp hvalues
  · rw [List.length_map, Bytes.length_cells]
  · have hwritten : (Bytes.cells format.size rows block).map (format.encode ∘ format.decode) =
        (Bytes.cells format.size rows block).map id :=
      List.map_congr_left fun cell hcell => hformat.encode_decode cell (hcells cell hcell)
    rw [List.flatMap_def, List.map_map, hwritten, List.map_id, hflatten]

theorem injectiveColumn_converted {format : FixedWidth α} {Good : α → Prop}
    {convert : α → Except DecodeError β} (hformat : format.Lossless Good) (hpos : 0 < format.size)
    (hconvert : ∀ value value' result, convert value = .ok result →
      convert value' = .ok result → value = value') :
    InjectiveColumn format.size fun rows => Column.converted convert (Column.array format rows) := by
  intro σ τ source source' rows rows' block block' state after last state' after' last' column
    hblock hblock' hrun hrun'
  obtain ⟨values, hvalues, rfl, rfl⟩ := hblock.run_converted hformat hpos hrun
  obtain ⟨values', hvalues', rfl, rfl⟩ := hblock'.run_converted hformat hpos hrun'
  obtain rfl : values = values' := List.left_unique_forall₂' hconvert hvalues hvalues'
  exact ⟨rfl, rfl⟩

end ColumnType

/-- How the values are written, and identifiers read. Numbers lie in two's complement, their lowest
byte first; single items of a payload are columns of one row. -/
structure WireFormats : Prop where
  integer : ∀ type value, (ColumnType.number type).encode (.integer value) =
    Bytes.ofLittleEndian type.size (value % (2 ^ (8 * type.size) : Nat)).toNat
  float32 : ∀ bits,
    (ColumnType.number .f32).encode (.float32 bits) = Bytes.ofLittleEndian 4 bits.toNat
  float64 : ∀ bits,
    (ColumnType.number .f64).encode (.float64 bits) = Bytes.ofLittleEndian 8 bits.toNat
  bytes : ∀ size content, (ColumnType.bytes size).encode (.bytes content) = content
  uuid : ∀ id, ColumnType.uuid.encode (.uuid id) = id.octets.drop 8 ++ id.octets.take 8
  swapped : ∀ cell : Bytes, cell.length = 16 →
    (Uuid.format.decode cell).octets = cell.drop 8 ++ cell.take 8 ∧
      Uuid.swapHalves (Uuid.swapHalves cell) = cell
  ipv4 : ∀ address,
    ColumnType.ipv4.encode (.ipv4 address) = Bytes.ofLittleEndian 4 address.octets.bigEndian
  ipv6 : ∀ address, ColumnType.ip.encode (.ip (.v6 address)) = address.octets
  mapped : ∀ address, ColumnType.ip.encode (.ip (.v4 address)) =
    List.replicate 10 0 ++ [0xff, 0xff] ++ address.octets
  items : ∀ item : WireItem, ∀ type value, item.step = .column type 1 →
    item.value = .column [value] → type.lossless = true → item.encode = type.encode value

/-- Natural numbers are written alike, whether their words have signs or not. -/
theorem FixedWidth.encode_unsigned (size value : Nat) :
    (unsigned size).encode value = (signed size).encode (value : Int) := by
  simp only [unsigned, signed, map, BitVec.ofInt_natCast]

theorem WireItem.encode_eq {item : WireItem} {type : ColumnType} {value : Cell}
    (hstep : item.step = .column type 1) (hvalue : item.value = .column [value])
    (hlossless : type.lossless = true) : item.encode = type.encode value := by
  cases item with
  | varint | text | raw | nullMask => cases hstep
  | sized data =>
    cases hstep
    cases hlossless
  | u16 number | u32 number | u64 number =>
    cases hstep
    cases hvalue
    exact FixedWidth.encode_unsigned _ _
  | i32 number | i64 number | f64 number | uuid id =>
    cases hstep
    cases hvalue
    rfl

theorem wireFormats : WireFormats where
  integer type value := by
    have hword : (ColumnType.number type).encode (.integer value) =
      Bytes.ofLittleEndian type.size (BitVec.ofInt (8 * type.size) value).toNat := rfl
    rw [hword, BitVec.toNat_ofInt]
  float32 _ := rfl
  float64 _ := rfl
  bytes _ _ := rfl
  uuid _ := rfl
  swapped cell hcell := by
    have hhalves : (cell.drop 8 ++ cell.take 8).length = 16 := by
      rw [List.length_append, List.length_drop, List.length_take]
      omega
    exact ⟨Bytes.ofBigEndian_ofNat 16 hhalves, Uuid.swapHalves_swapHalves hcell⟩
  ipv4 address := by
    rw [Ipv4.bigEndian_octets]
    rfl
  ipv6 _ := rfl
  mapped := Ipv6.octets_ofMapped
  items _ _ _ := WireItem.encode_eq

/-- Addresses are IPv4 exactly in the rows that have one in IPv6 form. -/
structure AddressRows (rows : Nat) (block : Bytes) (column : List Cell) : Prop where
  short : ∀ row < rows, (∃ address, column[row]? = some (.ip (.v4 address))) ↔
    (block.drop (16 * row)).take 12 = List.replicate 10 0 ++ [0xff, 0xff]
  long : ∀ address, .ip (.v6 address) ∈ column →
    address.octets.take 12 ≠ List.replicate 10 0 ++ [0xff, 0xff]

theorem addressRows {source : ByteSource σ} {rows : Nat} {block : Bytes} {state after last : σ}
    {column : List Cell} (hblock : ColumnType.HasBlock source 16 rows block state after)
    (hrun : (ColumnType.ip.read rows).run source state = (.ok column, last)) :
    AddressRows rows block column := by
  have hcells : column =
      (Bytes.cells 16 rows block).map fun content => .ip (Ip.format.decode content) := by
    have hroom := ColumnType.room_of_run (by rfl) hrun
    have hplain := hblock.run_plain rfl rfl hroom (fun _ => rfl) fun hempty => nomatch hempty
    rw [hrun] at hplain
    exact Except.ok.inj (Prod.mk.inj hplain).1
  constructor
  case short =>
    intro row hrow
    have hlength : ((block.drop (16 * row)).take 16).length = 16 := by
      rw [List.length_take, List.length_drop, hblock.length]
      omega
    have hvalue : column[row]? =
        some (.ip (Ip.format.decode ((block.drop (16 * row)).take 16))) := by
      rw [hcells, Bytes.cells_eq, List.map_map, List.getElem?_map, List.getElem?_range hrow]
      rfl
    rw [hvalue, Ip.decode_eq hlength, List.take_take]
    show _ ↔ (block.drop (16 * row)).take 12 = Ipv6.mappedPrefix
    by_cases hmapped : (block.drop (16 * row)).take 12 = Ipv6.mappedPrefix
    · simp [hmapped]
    · simp [hmapped]
  case long =>
    intro address haddress
    have hlossless : ColumnType.ip.LosslessColumn 16 := ColumnType.losslessColumn rfl rfl
    exact (hlossless.rewrites hblock hrun).2.2.1 _ haddress

/-- Days are told from their dates, whatever dates `make` builds. -/
structure InjectiveDates (make : YearMonthDay → Option δ) : Prop where
  date : ColumnType.InjectiveColumn 2 fun rows =>
    Column.converted (fun days : Nat => EpochDay.dateBy make days) (Column.rawDate rows)
  date32 : ColumnType.InjectiveColumn 4 fun rows =>
    Column.converted (EpochDay.dateBy make) (Column.rawDate32 rows)

theorem injectiveDates {make : YearMonthDay → Option δ} {fields : δ → YearMonthDay}
    (hfields : ∀ d date, make d = some date → fields date = d) : InjectiveDates make where
  date := ColumnType.injectiveColumn_converted (FixedWidth.lossless_unsigned 2) (by decide)
    fun _ _ _ h h' => Int.ofNat.inj (EpochDay.dateBy_inj hfields h h')
  date32 := ColumnType.injectiveColumn_converted (FixedWidth.lossless_signed 4) (by decide)
    fun _ _ _ h h' => EpochDay.dateBy_inj hfields h h'

/-- Columns of fixed width lose nothing, wherever their blocks are read from; slices are such
sources. -/
theorem fixed_width_columns_lossless :
    (∀ (type : ColumnType) (size : Nat), type.lossless = true → type.cellSize = some size →
      type.LosslessColumn size) ∧
    (∀ (size rows : Nat) (block rest : Bytes) (position : Nat) (encoding : TextEncoding),
      block.length = size * rows → size * rows ≤ maxSize →
      ColumnType.HasBlock Slice.byteSource size rows block ⟨block ++ rest, position, encoding⟩
        ⟨rest, position + block.length, encoding⟩) ∧
    WireFormats ∧
    (∀ {σ : Type} (source : ByteSource σ) (rows : Nat) (block : Bytes) (state after last : σ)
      (column : List Cell), ColumnType.HasBlock source 16 rows block state after →
      (ColumnType.ip.read rows).run source state = (.ok column, last) →
      AddressRows rows block column) ∧
    ∀ {δ : Type} (make : YearMonthDay → Option δ) (fields : δ → YearMonthDay),
      (∀ d date, make d = some date → fields date = d) → InjectiveDates make := by
  refine ⟨?_, ?_, wireFormats, ?_, ?_⟩
  · intro type size hlossless hsize
    exact ColumnType.losslessColumn hlossless hsize
  · intro size rows block rest position encoding hlength hsmall
    exact ColumnType.hasBlock_slice hlength hsmall
  · intro σ source rows block state after last column hblock hrun
    exact addressRows hblock hrun
  · intro δ make fields hfields
    exact injectiveDates hfields

/-- An IPv4 address in IPv6 form, and one that only looks like it. -/
def mixedAddresses : Bytes :=
  [0, 0, 0, 0, 0, 0, 0, 0, 0, 0, 255, 255, 1, 2, 3, 4,
    0, 0, 0, 0, 0, 0, 0, 0, 0, 1, 255, 255, 1, 2, 3, 4]

/-- Only the first of the addresses is IPv4, and both are written back. Numbers with signs are
decoded as they were written, and a day is written as its number. Days that exist are dates. -/
theorem fixed_width_columns_lossless_mixed :
    (∃ column after, (ColumnType.ip.read 2).run Slice.byteSource ⟨mixedAddresses, 0, .utf8⟩ =
        (.ok column, after) ∧ column.flatMap ColumnType.ip.encode = mixedAddresses ∧
      (∃ address, column[0]? = some (.ip (.v4 address))) ∧
      ¬∃ address, column[1]? = some (.ip (.v4 address))) ∧
    ((ColumnType.number .i16).read 2).run Slice.byteSource ⟨[255, 255, 2, 1, 7], 0, .utf8⟩ =
      (.ok [.integer (-1), .integer 258], ⟨[7], 4, .utf8⟩) ∧
    ColumnType.date.encode (.date ⟨⟨2020, 1, 1⟩, by decide⟩) = [86, 71] ∧
    InjectiveDates Date.ofYearMonthDay? := by
  obtain ⟨hcolumns, hslices, _, haddresses, hdates⟩ := fixed_width_columns_lossless
  refine ⟨?_, ?_, ?_, ?_⟩
  · have hblock := hslices 16 2 mixedAddresses [] 0 .utf8 rfl (by decide)
    have hlossless := hcolumns .ip 16 rfl rfl
    obtain ⟨column, hrun⟩ := (hlossless.decodes hblock rfl).mpr (by decide)
    have hrows := haddresses _ _ _ _ _ _ _ hblock hrun
    refine ⟨column, _, hrun, (hlossless.rewrites hblock hrun).2.2.2, ?_, ?_⟩
    · exact (hrows.short 0 (by decide)).mpr (by decide)
    · rw [hrows.short 1 (by decide)]
      decide
  · have hblock := hslices 2 2 [255, 255, 2, 1] [7] 0 .utf8 rfl (by decide)
    have hholds : ∀ value ∈ [.integer (-1), .integer 258],
        (ColumnType.number .i16).Holds value := by
      simp [ColumnType.Holds, NumberType.Holds, NumberType.size]
    exact (hcolumns (.number .i16) 2 rfl rfl).rereads hholds (by decide) hblock
  · have hblock := hslices 2 1 [86, 71] [] 0 .utf8 rfl (by decide)
    have hrun : (ColumnType.date.read 1).run Slice.byteSource ⟨[86, 71], 0, .utf8⟩ =
        (.ok [.date ⟨⟨2020, 1, 1⟩, by decide⟩], ⟨[], 2, .utf8⟩) := by decide +kernel
    have hwritten := ((hcolumns .date 2 rfl rfl).rewrites hblock hrun).2.2.2
    rw [List.flatMap_singleton] at hwritten
    exact hwritten
  · exact hdates _ _ fun d date => (Date.ofYearMonthDay?_eq_some_iff d date).mp

end Columnar
