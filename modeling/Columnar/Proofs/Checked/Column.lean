import Columnar.Column
import Columnar.Proofs.Checked.Calendar

/-!
Columns in checked operations. Each column of cells of a fixed size is decoded here once more with
every product, index, slice, copy, assertion and list of results checked, and it comes to the same:
nothing in it stops the program as long as the blocks that it reads are shorter than `2 ^ 56` bytes.
-/
namespace Columnar.Checked

/-- The result of a checked operation in a decoder. -/
def demand (result : Option α) : OptionT Decoder α := OptionT.mk (.done result)

/-- Reads `size` bytes. -/
def take (size : Nat) : OptionT Decoder Bytes := OptionT.lift (Decoder.takeBytes size)

def textEncoding : OptionT Decoder TextEncoding := OptionT.lift Decoder.textEncoding

/-- Fails with the error of an answer. -/
def answer (result : Except DecodeError α) : OptionT Decoder α :=
  OptionT.lift (Decoder.ofExcept result)

/-- A checked conversion, which may also fail with an error. -/
def attempt (convert : α → Option (Except ε β)) (value : α) : ExceptT ε Option β :=
  ExceptT.mk (convert value)

/-- The room that a list takes at most for a value without bytes of its own. -/
def valueRoom : Nat := 32

namespace Column

/-- Rows of cells that are decoded one by one. -/
def array (size : Nat) (decode : Bytes → Option α) (rows : Nat) : OptionT Decoder (List α) := do
  let block ← take (mulSat size rows)
  let cells ← demand (wholeCells size block)
  let values ← demand (cells.mapM decode)
  demand (collected valueRoom values)

/-- A cell that is copied before it is decoded. -/
def cell (format : FixedWidth α) (cell : Bytes) : Option α := do
  let copy ← copied format.size cell
  return format.decode copy

/-- A cell of a number. That of a truth value is looked at in place. -/
def number (type : NumberType) (cell : Bytes) : Option Cell :=
  match type with
  | .bool => do
    let byte ← cell[0]?
    return .boolean (byte ≠ 0)
  | type => Column.cell type.format cell

/-- A cell of an identifier. Its halves are copied one by one. -/
def uuid (cell : Bytes) : Option Uuid := do
  let back ← slice Uuid.halfSize cell.length cell
  let first ← copied Uuid.halfSize back
  let front ← slice 0 Uuid.halfSize cell
  let second ← copied Uuid.halfSize front
  return .ofOctets (first ++ second)

/-- The cell of a row, cut out of the block. -/
def window (size : Nat) (block : Bytes) (row : Nat) : Option Bytes := do
  let start ← word (row * size)
  let next ← word (row + 1)
  let stop ← word (next * size)
  slice start stop block

def bytes (size rows : Nat) : OptionT Decoder (List Bytes) := do
  let block ← take (mulSat size rows)
  let cells ← demand ((List.range rows).mapM (window size block))
  demand (collected Column.bytesRoom cells)

/-- A text is at most twice as long as its cell. -/
def text (encoding : TextEncoding) (cell : Bytes) : Option String := do
  let cell ← collected 2 cell
  return encoding.decode cell

def fixedText (size rows : Nat) : OptionT Decoder (List String) := do
  let encoding ← textEncoding
  if size = 0 then demand (collected Column.textRoom (List.replicate rows ""))
  else
    let block ← take (mulSat size rows)
    let cells ← demand (wholeCells size block)
    let texts ← demand (cells.mapM (text encoding))
    demand (collected Column.textRoom texts)

/-- A column whose values are converted after they were read. -/
def converted (convert : α → Option (Except DecodeError β)) (raw : OptionT Decoder (List α)) :
    OptionT Decoder (List β) := do
  let values ← raw
  let result ← demand (values.mapM (attempt convert)).run
  let converted ← answer result
  demand (collected valueRoom converted)

def nullMask (rows : Nat) : OptionT Decoder NullMask := do
  let block ← take (mulSat NullMask.entrySize rows)
  let entries ← demand (collected 1 block)
  return ⟨entries⟩

/-- A column of values next to a null mask. Values and mask are asserted to be equally many. -/
def nullable (column : (rows : Nat) → OptionT Decoder (List α)) (rows : Nat) :
    OptionT Decoder (List (Option α)) := do
  let mask ← nullMask rows
  let values ← column mask.length
  demand (guard (values.length = mask.length))
  let shown ← demand (collected valueRoom (mask.apply values))
  demand (guard (shown.length = rows))
  return shown

def nullableConverted (convert : α → Option (Except DecodeError β))
    (raw : (rows : Nat) → OptionT Decoder (List α)) (rows : Nat) :
    OptionT Decoder (List (Option β)) := do
  let mask ← nullMask rows
  let values ← raw mask.length
  demand (guard (values.length = mask.length))
  let result ← demand (mask.mapM (attempt convert) values).run
  let shown ← answer result
  let shown ← demand (collected valueRoom shown)
  demand (guard (shown.length = rows))
  return shown

/-- The precision is checked before anything is read. -/
def scaled (column : TickScale → OptionT Decoder α) (precision : Nat) : OptionT Decoder α := do
  let result ← demand (TickScale.ofPrecision precision)
  let scale ← answer result
  column scale

def rawDate (rows : Nat) : OptionT Decoder (List Nat) := array 2 (cell (.unsigned 2)) rows

def rawDate32 (rows : Nat) : OptionT Decoder (List Int) := array 4 (cell (.signed 4)) rows

def rawDateTime (rows : Nat) : OptionT Decoder (List Nat) := array 4 (cell (.unsigned 4)) rows

def rawDateTime64 (rows : Nat) : OptionT Decoder (List Int) := array 8 (cell (.signed 8)) rows

def convertDate (days : Nat) : Option (Except DecodeError Date) := EpochDay.date days

def convertDateTime (seconds : Nat) : Option (Except DecodeError Timestamp) :=
  some (Timestamp.of seconds 0)

end Column

/-- The columns whose cells have a fixed size that is not zero. -/
def Bulk : ColumnType → Prop
  | .text | .rawText => False
  | .bytes size | .fixedText size => 0 < size
  | _ => True

/-- Decodes `rows` cells. A column of cells that carry their own length is left as it is. -/
def read (type : ColumnType) (rows : Nat) : OptionT Decoder (List Cell) :=
  match type with
  | .number type => Column.array type.size (Column.number type) rows
  | .bytes size => List.map .bytes <$> Column.bytes size rows
  | .text | .rawText => OptionT.lift (type.read rows)
  | .fixedText size => List.map .text <$> Column.fixedText size rows
  | .uuid => List.map .uuid <$> Column.array 16 Column.uuid rows
  | .ipv4 => List.map .ipv4 <$> Column.array 4 (Column.cell Ipv4.format) rows
  | .ip => List.map .ip <$> Column.array 16 (Column.cell Ip.format) rows
  | .date => List.map .date <$> Column.converted Column.convertDate (Column.rawDate rows)
  | .date32 => List.map .date <$> Column.converted EpochDay.date (Column.rawDate32 rows)
  | .dateTime =>
    List.map .timestamp <$> Column.converted Column.convertDateTime (Column.rawDateTime rows)
  | .dateTime64 precision =>
    List.map .timestamp <$>
      Column.scaled (fun scale => Column.converted (TickScale.timestamp scale)
        (Column.rawDateTime64 rows)) precision

/-- Decodes a null mask and `rows` cells. -/
def readNullable (type : ColumnType) (rows : Nat) : OptionT Decoder (List (Option Cell)) :=
  match type with
  | .date =>
    List.map (Option.map .date) <$>
      Column.nullableConverted Column.convertDate Column.rawDate rows
  | .date32 =>
    List.map (Option.map .date) <$> Column.nullableConverted EpochDay.date Column.rawDate32 rows
  | .dateTime =>
    List.map (Option.map .timestamp) <$>
      Column.nullableConverted Column.convertDateTime Column.rawDateTime rows
  | .dateTime64 precision =>
    List.map (Option.map .timestamp) <$>
      Column.scaled (fun scale => Column.nullableConverted (TickScale.timestamp scale)
        Column.rawDateTime64 rows) precision
  | type => Column.nullable (read type) rows

end Columnar.Checked
