import Columnar.Decoder
import Columnar.FixedWidth

/-!
What is written on the wire: natural numbers of variable length, and payloads, item by item in the
formats that the decoders read.

A natural number of up to 64 bits is written in groups of seven bits, the least significant group
first, one group a byte; every byte but the last has 128 added. Nine groups leave one bit of the 64,
so a tenth byte is zero or one. A decoder accepts groups of zeros at the end, an encoder never
writes them.
-/
namespace Columnar

/-- The most bytes that a varint has. -/
def maxVarintLength : Nat := 10

namespace Varint

/-- Reads the rest of a varint. `groups` more full groups may come, the next one counts `weight`,
and the groups read so far add up to `value`. -/
def readFrom : (groups weight value : Nat) → Decoder Nat
  | 0, weight, value => .byte fun b =>
    if 1 < b.toNat then .fail (.error .varintOverflow) else .done (value + b.toNat * weight)
  | groups + 1, weight, value => .byte fun b =>
    if b.toNat < 128 then .done (value + b.toNat * weight)
    else readFrom groups (128 * weight) (value + (b.toNat - 128) * weight)

def read : Decoder Nat := readFrom (maxVarintLength - 1) 1 0

/-- A varint that counts bytes or elements. Sizes have 64 bits, so none is too large. -/
def readLength : Decoder Nat := read

def encode (value : Nat) : Bytes :=
  if value < 128 then [UInt8.ofNat value]
  else UInt8.ofNat (value % 128 + 128) :: encode (value / 128)
termination_by value
decreasing_by omega

/-- How many bits a number has; zero has none. -/
def bitLength (value : Nat) : Nat := if value = 0 then 0 else value.log2 + 1

/-- The length of the encoding, from the number of bits alone. -/
def encodedLength (value : Nat) : Nat := (max (bitLength value) 1 + 6) / 7

end Varint

/-- One item of a payload. -/
inductive WireItem where
  | varint (value : UInt64)
  | u16 (value : UInt16)
  | u32 (value : UInt32)
  | i32 (value : Int32)
  | u64 (value : UInt64)
  | i64 (value : Int64)
  /-- A floating-point number, given by its bits. -/
  | f64 (bits : UInt64)
  /-- A text with its length in front. -/
  | text (value : String)
  /-- Bytes with their length in front. -/
  | sized (data : Bytes)
  | raw (data : Bytes)
  | uuid (id : Uuid)
  | nullMask (nulls : List Bool)
  deriving DecidableEq, Repr

namespace WireItem

def encodeSized (data : Bytes) : Bytes := Varint.encode data.length ++ data

def encode : WireItem → Bytes
  | .varint value => Varint.encode value.toNat
  | .u16 value => (FixedWidth.unsigned 2).encode value.toNat
  | .u32 value => (FixedWidth.unsigned 4).encode value.toNat
  | .i32 value => (FixedWidth.signed 4).encode value.toInt
  | .u64 value => (FixedWidth.unsigned 8).encode value.toNat
  | .i64 value => (FixedWidth.signed 8).encode value.toInt
  | .f64 bits => (FixedWidth.word 8).encode bits.toBitVec
  | .text value => encodeSized value.toUTF8.toList
  | .sized data => encodeSized data
  | .raw data => data
  | .uuid id => Uuid.format.encode id
  | .nullMask nulls => nulls.flatMap FixedWidth.boolean.encode

/-- The items one after another, with nothing between them. -/
def payload (items : List WireItem) : Bytes := items.flatMap encode

end WireItem

end Columnar
