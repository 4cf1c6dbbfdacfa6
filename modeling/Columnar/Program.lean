import Columnar.Column

/-!
Programs of read steps. A step is one request that a client of a byte source can make, from a
single byte to a whole column; a program makes one after another and goes on after a fault.
-/
namespace Columnar

inductive ReadStep where
  | byte
  | bytes (size : Nat)
  | varint
  | length
  | word
  | sizedText
  | encoding
  | column (type : ColumnType) (rows : Nat)
  | nullMask (rows : Nat)
  | nullable (type : ColumnType) (rows : Nat)
  deriving DecidableEq, Repr

/-- What a step answers. -/
inductive Value where
  | byte (value : UInt8)
  | bytes (value : Bytes)
  | natural (value : Nat)
  | text (value : String)
  | encoding (value : TextEncoding)
  | column (cells : List Cell)
  | mask (value : NullMask)
  | nullable (cells : List (Option Cell))
  deriving DecidableEq, Repr

namespace ReadStep

def decoder : ReadStep → Decoder Value
  | .byte => .byte <$> Decoder.nextByte
  | .bytes size => .bytes <$> Decoder.takeBytes size
  | .varint => .natural <$> Varint.read
  | .length => .natural <$> Varint.readLength
  | .word => (.natural ∘ Bytes.littleEndian) <$> Decoder.takeBytes 8
  | .sizedText => .text <$> Column.sizedText
  | .encoding => .encoding <$> Decoder.textEncoding
  | .column type rows => .column <$> type.read rows
  | .nullMask rows => .mask <$> Column.nullMask rows
  | .nullable type rows => .nullable <$> type.readNullable rows

/-- Makes one request. A source may have its own way to read a word. -/
def run (source : ByteSource σ) (step : ReadStep) (state : σ) : Outcome σ Value :=
  match step with
  | .word =>
    match source.readWord state with
    | (.ok value, state) => (.ok (.natural value), state)
    | (.error fault, state) => (.error fault, state)
  | step => step.decoder.run source state

/-- The outcomes of the steps of a program, each with the state after it. -/
def trace (source : ByteSource σ) : List ReadStep → σ → List (Outcome σ Value)
  | [], _ => []
  | step :: steps, state =>
    let outcome := step.run source state
    outcome :: trace source steps outcome.2

end ReadStep

end Columnar
