import Columnar.Calendar
import Columnar.Wire

/-!
Columns and how they are decoded.

Where all cells have the same length, the whole column is one block and one read, so either every
row is there or nothing is. A product of rows and cell size that no word can hold is asked for as
the largest size, which no stream satisfies. Dates and timestamps are such blocks of integers, read
whole and then converted row by row up to the first that is out of range. Other cells carry their
own length: a varint, then that many bytes. Room for their rows is taken before the first is read.

A nullable column has a null mask in front: one byte a row, and every byte but zero marks its row as
null. A null row still has a value next to the mask, which may be anything. It is read like all
others, and a conversion that can fail is never applied to it.

The type of a column may be known only when it is read. A column type says how the cells are
decoded; a cell is a value of any of these types.
-/
namespace Columnar

namespace Column

/-- Rows of one fixed-width format. -/
def array (format : FixedWidth α) (rows : Nat) : Decoder (List α) := do
  let block ← Decoder.takeBytes (mulSat format.size rows)
  return (Bytes.wholeCells format.size block).map format.decode

/-- How much room a list of byte strings takes for each. -/
def bytesRoom : Nat := 32

/-- How much room a list of texts takes for each. -/
def textRoom : Nat := 24

/-- Rows of `size` bytes. The room for the rows is taken after they were read. -/
def bytes (size rows : Nat) : Decoder (List Bytes) := do
  let block ← Decoder.takeBytes (mulSat size rows)
  Decoder.reserve (bytesRoom * rows)
  return Bytes.cells size rows block

/-- Texts of `size` bytes. Padding is part of the text. Texts of no bytes are not read at all. -/
def fixedText (size rows : Nat) : Decoder (List String) := do
  let encoding ← Decoder.textEncoding
  if size = 0 then
    Decoder.reserve (textRoom * rows)
    return List.replicate rows ""
  else
    let block ← Decoder.takeBytes (mulSat size rows)
    return (Bytes.wholeCells size block).map encoding.decode

def uuid (rows : Nat) : Decoder (List Uuid) := array Uuid.format rows

def ipv4 (rows : Nat) : Decoder (List Ipv4) := array Ipv4.format rows

/-- Addresses of both kinds. An IPv4 address in IPv6 form is read as what it is. -/
def ip (rows : Nat) : Decoder (List Ip) := array Ip.format rows

/-- One cell with its length in front. -/
def sizedCell : Decoder Bytes := do
  let size ← Varint.readLength
  Decoder.takeBytes size

/-- One text with its length in front. -/
def sizedText : Decoder String := do
  let encoding ← Decoder.textEncoding
  let cell ← sizedCell
  return encoding.decode cell

def rawText (rows : Nat) : Decoder (List Bytes) := do
  Decoder.reserve (bytesRoom * rows)
  Decoder.times rows sizedCell

def text (rows : Nat) : Decoder (List String) := do
  let encoding ← Decoder.textEncoding
  Decoder.reserve (textRoom * rows)
  Decoder.times rows do
    let cell ← sizedCell
    return encoding.decode cell

/-- A column whose values are converted after they were read. -/
def converted (convert : α → Except DecodeError β) (raw : Decoder (List α)) :
    Decoder (List β) := do
  let values ← raw
  Decoder.ofExcept (values.mapM convert)

/-- Day numbers of 16 bits. -/
def rawDate (rows : Nat) : Decoder (List Nat) := array (.unsigned 2) rows

/-- Signed day numbers of 32 bits. -/
def rawDate32 (rows : Nat) : Decoder (List Int) := array (.signed 4) rows

/-- Seconds of 32 bits. -/
def rawDateTime (rows : Nat) : Decoder (List Nat) := array (.unsigned 4) rows

/-- Signed ticks of 64 bits. -/
def rawDateTime64 (rows : Nat) : Decoder (List Int) := array (.signed 8) rows

def convertDate (days : Nat) : Except DecodeError Date := EpochDay.date days

def convertDateTime (seconds : Nat) : Except DecodeError Timestamp := Timestamp.of seconds 0

def date (rows : Nat) : Decoder (List Date) := converted convertDate (rawDate rows)

def date32 (rows : Nat) : Decoder (List Date) := converted EpochDay.date (rawDate32 rows)

def dateTime (rows : Nat) : Decoder (List Timestamp) := converted convertDateTime (rawDateTime rows)

/-- The precision is checked before anything is read. -/
def dateTime64 (precision rows : Nat) : Decoder (List Timestamp) := do
  let scale ← Decoder.ofExcept (TickScale.ofPrecision precision)
  converted scale.timestamp (rawDateTime64 rows)

end Column

/-- One byte a row. Rows with any byte but zero are null. -/
structure NullMask where
  entries : Bytes
  deriving DecidableEq, Repr

namespace NullMask

/-- How many bytes a mask has for each row. -/
def entrySize : Nat := 1

def length (mask : NullMask) : Nat := mask.entries.length

def isEmpty (mask : NullMask) : Bool := mask.entries.isEmpty

/-- Rows past the end of the mask are not null. -/
def isNull (mask : NullMask) (row : Nat) : Bool :=
  match mask.entries[row]? with
  | some entry => entry ≠ 0
  | none => false

def nullCount (mask : NullMask) : Nat := mask.entries.countP fun entry => entry ≠ 0

/-- Hides the values of the null rows. -/
def apply (mask : NullMask) (values : List α) : List (Option α) :=
  List.zipWith (fun entry value => if entry = 0 then some value else none) mask.entries values

/-- Converts the values of the rows that are not null, behind those in `earlier`, the latest
first. -/
@[specialize] def convertAfter [Monad m] (convert : α → m β) :
    (entries : Bytes) → (values : List α) → (earlier : List (Option β)) → m (List (Option β))
  | entry :: entries, value :: values, earlier =>
    if entry = 0 then do
      let converted ← convert value
      convertAfter convert entries values (some converted :: earlier)
    else convertAfter convert entries values (none :: earlier)
  | [], _, earlier => pure earlier.reverse
  | _, [], earlier => pure earlier.reverse

/-- Converts the values of the rows that are not null, in order. -/
@[specialize] def mapM [Monad m] (mask : NullMask) (convert : α → m β) (values : List α) :
    m (List (Option β)) :=
  convertAfter convert mask.entries values []

/-- Converts the values of the rows that are not null, up to the first that fails. -/
def tryMap (mask : NullMask) (convert : α → Except ε β) (values : List α) :
    Except ε (List (Option β)) :=
  mask.mapM convert values

/-- A conversion that keeps the values it was applied to, the latest first. -/
def recording (convert : α → Except ε β) (value : α) : ExceptT ε (StateM (List α)) β := do
  modify (value :: ·)
  MonadExcept.ofExcept (convert value)

/-- What `tryMap` gives, with the values that were converted or found to be wrong, in order. -/
def tryMapRecorded (mask : NullMask) (convert : α → Except ε β) (values : List α) :
    Except ε (List (Option β)) × List α :=
  let (result, converted) := (mask.mapM (recording convert) values).run.run []
  (result, converted.reverse)

end NullMask

namespace Column

def nullMask (rows : Nat) : Decoder NullMask := do
  let entries ← Decoder.takeBytes (mulSat NullMask.entrySize rows)
  return ⟨entries⟩

/-- A column of values that any bytes make sense for. -/
def nullable (column : (rows : Nat) → Decoder (List α)) (rows : Nat) :
    Decoder (List (Option α)) := do
  let mask ← nullMask rows
  let values ← column mask.length
  return mask.apply values

/-- A column of values that are converted. -/
def nullableConverted (convert : α → Except DecodeError β)
    (raw : (rows : Nat) → Decoder (List α)) (rows : Nat) : Decoder (List (Option β)) := do
  let mask ← nullMask rows
  let values ← raw mask.length
  Decoder.ofExcept (mask.tryMap convert values)

def nullableDate : (rows : Nat) → Decoder (List (Option Date)) :=
  nullableConverted convertDate rawDate

def nullableDate32 : (rows : Nat) → Decoder (List (Option Date)) :=
  nullableConverted EpochDay.date rawDate32

def nullableDateTime : (rows : Nat) → Decoder (List (Option Timestamp)) :=
  nullableConverted convertDateTime rawDateTime

/-- The precision is checked before the mask is read. -/
def nullableDateTime64 (precision rows : Nat) : Decoder (List (Option Timestamp)) := do
  let scale ← Decoder.ofExcept (TickScale.ofPrecision precision)
  nullableConverted scale.timestamp rawDateTime64 rows

end Column

inductive NumberType where
  | u8 | u16 | u32 | u64 | u128 | i8 | i16 | i32 | i64 | i128 | f32 | f64 | bool
  deriving DecidableEq, Repr

inductive ColumnType where
  | number (type : NumberType)
  | bytes (size : Nat)
  | text
  | rawText
  | fixedText (size : Nat)
  | uuid
  | ipv4
  | ip
  | date
  | date32
  | dateTime
  | dateTime64 (precision : Nat)
  deriving DecidableEq, Repr

/-- Floating-point numbers are kept as their bits. -/
inductive Cell where
  | integer (value : Int)
  | float32 (bits : BitVec 32)
  | float64 (bits : BitVec 64)
  | boolean (value : Bool)
  | bytes (value : Bytes)
  | text (value : String)
  | uuid (value : Uuid)
  | ipv4 (value : Ipv4)
  | ip (value : Ip)
  | date (value : Date)
  | timestamp (value : Timestamp)
  deriving DecidableEq, Repr

namespace NumberType

/-- How many bytes a number of the type has. -/
def size : NumberType → Nat
  | .u8 | .i8 | .bool => 1
  | .u16 | .i16 => 2
  | .u32 | .i32 | .f32 => 4
  | .u64 | .i64 | .f64 => 8
  | .u128 | .i128 => 16

/-- The value of a cell of `size` bytes. -/
def decode (type : NumberType) (cell : Bytes) : Cell :=
  match type with
  | .f32 => .float32 ((FixedWidth.word 4).decode cell)
  | .f64 => .float64 ((FixedWidth.word 8).decode cell)
  | .bool => .boolean (FixedWidth.boolean.decode cell)
  | .u8 | .u16 | .u32 | .u64 | .u128 => .integer ((FixedWidth.unsigned type.size).decode cell)
  | .i8 | .i16 | .i32 | .i64 | .i128 => .integer ((FixedWidth.signed type.size).decode cell)

end NumberType

namespace Cell

/-- The bytes of a number as the given type has them; nothing for other cells. -/
def encodeNumber (type : NumberType) : Cell → Bytes
  | .integer value => (FixedWidth.signed type.size).encode value
  | .float32 bits => (FixedWidth.word 4).encode bits
  | .float64 bits => (FixedWidth.word 8).encode bits
  | .boolean value => FixedWidth.boolean.encode value
  | _ => []

end Cell

def NumberType.format (type : NumberType) : FixedWidth Cell where
  size := type.size
  decode := type.decode
  encode := Cell.encodeNumber type

namespace ColumnType

/-- Decodes `rows` cells. -/
def read (type : ColumnType) (rows : Nat) : Decoder (List Cell) :=
  match type with
  | .number type => Column.array type.format rows
  | .bytes size => List.map .bytes <$> Column.bytes size rows
  | .text => List.map .text <$> Column.text rows
  | .rawText => List.map .bytes <$> Column.rawText rows
  | .fixedText size => List.map .text <$> Column.fixedText size rows
  | .uuid => List.map .uuid <$> Column.uuid rows
  | .ipv4 => List.map .ipv4 <$> Column.ipv4 rows
  | .ip => List.map .ip <$> Column.ip rows
  | .date => List.map .date <$> Column.date rows
  | .date32 => List.map .date <$> Column.date32 rows
  | .dateTime => List.map .timestamp <$> Column.dateTime rows
  | .dateTime64 precision => List.map .timestamp <$> Column.dateTime64 precision rows

/-- Decodes a null mask and `rows` cells. -/
def readNullable (type : ColumnType) (rows : Nat) : Decoder (List (Option Cell)) :=
  match type with
  | .date => List.map (Option.map .date) <$> Column.nullableDate rows
  | .date32 => List.map (Option.map .date) <$> Column.nullableDate32 rows
  | .dateTime => List.map (Option.map .timestamp) <$> Column.nullableDateTime rows
  | .dateTime64 precision =>
    List.map (Option.map .timestamp) <$> Column.nullableDateTime64 precision rows
  | type => Column.nullable type.read rows

end ColumnType

end Columnar
