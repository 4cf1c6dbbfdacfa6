import Columnar.Proofs.Consumption
import Columnar.Proofs.Conversion
import Columnar.Proofs.Varint.Grammar

/-!
How columns lie in a stream. Each row is a cell: its content, and in front of it the spelling of its
length if the type does not tell how long a cell is. A block of cells of a fixed size is cut without
remainder, and rows that are decoded one by one lie one behind the other.
-/
namespace Columnar

/-- A row as it lies in the stream. -/
structure WireCell where
  /-- What tells the length of the content, if anything does. -/
  lead : Bytes
  content : Bytes

namespace WireCell

def bytes (cell : WireCell) : Bytes := cell.lead ++ cell.content

/-- The cell is as long as all cells of its type are, or as its lead says. -/
def Fits (size? : Option Nat) (cell : WireCell) : Prop :=
  match size? with
  | some size => cell.lead = [] ∧ cell.content.length = size
  | none => Varint.Spelling cell.lead ∧ Varint.number cell.lead = cell.content.length

end WireCell

namespace ColumnType

/-- How many bytes a cell of the type has, unless it says so itself. -/
def cellSize : ColumnType → Option Nat
  | .number type => some type.size
  | .bytes size | .fixedText size => some size
  | .text | .rawText => none
  | .uuid | .ip => some 16
  | .ipv4 | .date32 | .dateTime => some 4
  | .date => some 2
  | .dateTime64 _ => some 8

/-- The value of one cell. -/
def cell (encoding : TextEncoding) (type : ColumnType) (content : Bytes) :
    Except DecodeError Cell :=
  match type with
  | .number type => .ok (type.decode content)
  | .bytes _ | .rawText => .ok (.bytes content)
  | .text | .fixedText _ => .ok (.text (encoding.decode content))
  | .uuid => .ok (.uuid (Uuid.format.decode content))
  | .ipv4 => .ok (.ipv4 (Ipv4.format.decode content))
  | .ip => .ok (.ip (Ip.format.decode content))
  | .date => .date <$> Column.convertDate ((FixedWidth.unsigned 2).decode content)
  | .date32 => .date <$> EpochDay.date ((FixedWidth.signed 4).decode content)
  | .dateTime => .timestamp <$> Column.convertDateTime ((FixedWidth.unsigned 4).decode content)
  | .dateTime64 precision => do
    let scale ← TickScale.ofPrecision precision
    .timestamp <$> scale.timestamp ((FixedWidth.signed 8).decode content)

/-- The value of one cell next to its entry in the null mask. That of a null row is not decoded. -/
def shown (encoding : TextEncoding) (type : ColumnType) (entry : UInt8) (content : Bytes) :
    Except DecodeError (Option Cell) :=
  if entry = 0 then some <$> type.cell encoding content else .ok none

end ColumnType

/-- The bytes of a column, cut into its rows. The sizes are exact, whatever a product of sizes that
stops at the largest one would be. -/
structure Layout (size? : Option Nat) (rows : Nat) (bytes : Bytes) (cells : List WireCell) :
    Prop where
  rows : cells.length = rows
  bytes : bytes = cells.flatMap WireCell.bytes
  fits : ∀ cell ∈ cells, cell.Fits size?

theorem Layout.length_eq_sum {size? : Option Nat} {rows : Nat} {bytes : Bytes}
    {cells : List WireCell} (h : Layout size? rows bytes cells) :
    bytes.length = (cells.map fun cell => cell.lead.length + cell.content.length).sum := by
  rw [h.bytes, List.length_flatMap]
  simp [WireCell.bytes]

theorem Layout.length_eq {size rows : Nat} {bytes : Bytes} {cells : List WireCell}
    (h : Layout (some size) rows bytes cells) : bytes.length = size * rows := by
  have hcells : (cells.map fun cell => cell.lead.length + cell.content.length) =
      List.replicate rows size := by
    rw [List.eq_replicate_iff, List.length_map]
    refine ⟨h.rows, ?_⟩
    intro length hlength
    obtain ⟨cell, hcell, rfl⟩ := List.mem_map.mp hlength
    obtain ⟨hlead, hcontent⟩ := h.fits cell hcell
    rw [hlead, hcontent, List.length_nil, Nat.zero_add]
  rw [h.length_eq_sum, hcells, List.sum_replicate_nat, Nat.mul_comm]

/-- A block is cut without remainder. -/
theorem Bytes.cut_block {size rows : Nat} {block : Bytes} (h : block.length = size * rows) :
    (cells size rows block).flatten = block ∧ ∀ cell ∈ cells size rows block, cell.length = size := by
  induction rows generalizing block with
  | zero =>
    obtain rfl := List.eq_nil_of_length_eq_zero h
    simp
  | succ rows ih =>
    rw [Nat.mul_succ] at h
    have hrest : (block.drop size).length = size * rows := by
      rw [List.length_drop]
      omega
    obtain ⟨hflatten, hcells⟩ := ih hrest
    rw [cells_succ, List.flatten_cons, hflatten, List.take_append_drop]
    refine ⟨rfl, List.forall_mem_cons.mpr ⟨?_, hcells⟩⟩
    rw [List.length_take]
    omega

/-- Cells of no bytes are all empty. -/
theorem Bytes.cells_nil (rows : Nat) : cells 0 rows [] = List.replicate rows [] := by
  rw [List.eq_replicate_iff]
  exact ⟨length_cells 0 rows [], fun cell hcell =>
    List.eq_nil_of_length_eq_zero ((cut_block (by simp)).2 cell hcell)⟩

theorem TextEncoding.decode_nil (encoding : TextEncoding) : encoding.decode [] = "" := by
  cases encoding <;> decide +kernel

/-- The rows of a block. -/
def blockRows (size rows : Nat) (block : Bytes) : List WireCell :=
  (Bytes.cells size rows block).map (WireCell.mk [])

theorem layout_block {size rows : Nat} {block : Bytes} (h : block.length = size * rows) :
    Layout (some size) rows block (blockRows size rows block) := by
  obtain ⟨hflatten, hcells⟩ := Bytes.cut_block h
  constructor
  case rows => rw [blockRows, List.length_map, Bytes.length_cells]
  case bytes =>
    rw [blockRows, List.flatMap_map]
    simp only [WireCell.bytes, List.nil_append]
    rw [List.flatMap_id', hflatten]
  case fits =>
    intro cell hcell
    obtain ⟨content, hcontent, rfl⟩ := List.mem_map.mp hcell
    exact ⟨rfl, hcells content hcontent⟩

namespace Consumes

variable {encoding : TextEncoding} {bytes : Bytes} {sizes : List Nat} {rows : Nat}

/-- No part of a block is left over, and its size was not cut. -/
theorem of_array {format : FixedWidth α} {values : List α} (hpos : 0 < format.size)
    (h : Consumes encoding (Column.array format rows) bytes sizes values)
    (hsizes : ∀ size ∈ sizes, size < maxSize) :
    bytes.length = format.size * rows ∧ format.size * rows < maxSize ∧
      values = (Bytes.cells format.size rows bytes).map format.decode := by
  obtain ⟨block, htake, rfl⟩ := of_map h
  obtain ⟨rfl, hlength, rfl⟩ := of_takeBytes htake
  obtain ⟨hexact, hsmall⟩ := mulSat_exact (hsizes _ List.mem_cons_self)
  rw [hexact] at hlength
  rw [Bytes.wholeCells_block hpos hlength]
  exact ⟨hlength, hsmall, rfl⟩

theorem of_converted {format : FixedWidth α} {convert : α → Except DecodeError β}
    {values : List β} (hpos : 0 < format.size)
    (h : Consumes encoding (Column.converted convert (Column.array format rows)) bytes sizes values)
    (hsizes : ∀ size ∈ sizes, size < maxSize) :
    bytes.length = format.size * rows ∧ format.size * rows < maxSize ∧
      List.Forall₂ (fun cell value => convert (format.decode cell) = .ok value)
        (Bytes.cells format.size rows bytes) values := by
  obtain ⟨raw, front, back, sizes₁, sizes₂, hraw, hconvert, rfl, rfl⟩ := of_bind h
  obtain ⟨hvalues, rfl, rfl⟩ := of_ofExcept hconvert
  rw [List.append_nil] at hsizes ⊢
  obtain ⟨hlength, hsmall, rfl⟩ := of_array hpos hraw hsizes
  exact ⟨hlength, hsmall, List.forall₂_map_left_iff.mp (mapM_eq_ok_iff.mp hvalues)⟩

theorem of_bytes {size : Nat} {values : List Bytes}
    (h : Consumes encoding (Column.bytes size rows) bytes sizes values)
    (hsizes : ∀ size ∈ sizes, size < maxSize) :
    bytes.length = size * rows ∧ size * rows < maxSize ∧ values = Bytes.cells size rows bytes := by
  obtain ⟨block, front, back, sizes₁, sizes₂, htake, hreserve, rfl, rfl⟩ := of_bind h
  obtain ⟨rfl, hlength, rfl⟩ := of_takeBytes htake
  obtain ⟨rfl, rfl, rfl⟩ := of_done (of_reserve hreserve)
  obtain ⟨hexact, hsmall⟩ := mulSat_exact (hsizes _ List.mem_cons_self)
  rw [List.append_nil]
  exact ⟨hlength.trans hexact, hsmall, rfl⟩

theorem of_fixedText {size : Nat} {values : List String}
    (h : Consumes encoding (Column.fixedText size rows) bytes sizes values)
    (hsizes : ∀ size ∈ sizes, size < maxSize) :
    bytes.length = size * rows ∧ size * rows < maxSize ∧
      values = (Bytes.cells size rows bytes).map encoding.decode := by
  cases h with
  | encoding hnext =>
    by_cases hzero : size = 0
    · subst hzero
      obtain ⟨rfl, rfl, rfl⟩ := of_done (of_reserve hnext)
      rw [Nat.zero_mul, Bytes.cells_nil, List.map_replicate, encoding.decode_nil]
      exact ⟨rfl, by decide, rfl⟩
    · simp only [Decoder.done_bind, if_neg hzero] at hnext
      obtain ⟨block, htake, rfl⟩ := of_map hnext
      obtain ⟨rfl, hlength, rfl⟩ := of_takeBytes htake
      obtain ⟨hexact, hsmall⟩ := mulSat_exact (hsizes _ List.mem_cons_self)
      rw [hexact] at hlength
      rw [Bytes.wholeCells_block (Nat.pos_of_ne_zero hzero) hlength]
      exact ⟨hlength, hsmall, rfl⟩

/-- A cell that carries its length begins with a spelling of it. -/
theorem of_sizedCell {content : Bytes} (h : Consumes encoding Column.sizedCell bytes sizes content) :
    ∃ cell : WireCell, bytes = cell.bytes ∧ cell.Fits none ∧ cell.content = content := by
  obtain ⟨size, front, back, sizes₁, sizes₂, hlead, htake, rfl, rfl⟩ := of_bind h
  obtain ⟨rfl, hlength, rfl⟩ := of_takeBytes htake
  obtain ⟨spelled, rest, hfront, hspelling, hsize, hafter⟩ :=
    Varint.spelled_of_run (hlead.run [] 0)
  obtain rfl : rest = [] := (congrArg Slice.unread hafter).symm
  rw [List.append_nil, List.append_nil] at hfront
  subst hfront
  exact ⟨⟨front, content⟩, rfl, ⟨hspelling, hsize.symm.trans hlength.symm⟩, rfl⟩

/-- Rows that are decoded one by one lie one behind the other. -/
theorem of_times {decoder : Decoder α} {P : WireCell → α → Prop} {values : List α}
    (hcell : ∀ {bytes sizes value}, Consumes encoding decoder bytes sizes value →
      ∃ cell : WireCell, bytes = cell.bytes ∧ cell.Fits none ∧ P cell value)
    (h : Consumes encoding (Decoder.times rows decoder) bytes sizes values) :
    ∃ cells, Layout none rows bytes cells ∧ List.Forall₂ P cells values := by
  induction rows generalizing bytes sizes values with
  | zero =>
    obtain ⟨rfl, rfl, rfl⟩ := of_done h
    exact ⟨[], ⟨rfl, rfl, by simp⟩, .nil⟩
  | succ rows ih =>
    rw [Decoder.times_succ] at h
    obtain ⟨value, front, back, sizes₁, sizes₂, hfirst, hrest, rfl, rfl⟩ := of_bind h
    obtain ⟨later, htimes, rfl⟩ := of_map hrest
    obtain ⟨cell, rfl, hfits, hvalue⟩ := hcell hfirst
    obtain ⟨cells, hlayout, hvalues⟩ := ih htimes
    refine ⟨cell :: cells, ⟨?_, ?_, ?_⟩, .cons hvalue hvalues⟩
    · rw [List.length_cons, hlayout.rows]
    · rw [List.flatMap_cons, ← hlayout.bytes]
    · exact List.forall_mem_cons.mpr ⟨hfits, hlayout.fits⟩

theorem of_nullMask {mask : NullMask}
    (h : Consumes encoding (Column.nullMask rows) bytes sizes mask)
    (hsizes : ∀ size ∈ sizes, size < maxSize) :
    mask.entries = bytes ∧ bytes.length = rows ∧ rows < maxSize := by
  obtain ⟨entries, htake, rfl⟩ := of_map h
  obtain ⟨rfl, hlength, rfl⟩ := of_takeBytes htake
  obtain ⟨hexact, hsmall⟩ := mulSat_exact (hsizes _ List.mem_cons_self)
  rw [NullMask.entrySize, Nat.one_mul] at hexact hsmall
  exact ⟨rfl, hlength.trans hexact, hsmall⟩

end Consumes

end Columnar
