import Columnar.Proofs.Consumption
import Columnar.Proofs.Formats
import Columnar.Proofs.Text

/-!
Every item of a payload has a read step that takes the item and nothing else, and gives back what
was written. Its contiguous reads are the blocks of the item: a length in front of a block is read
byte by byte. Of a varint that is read so, any number below the range of the groups that may still
come is read back.
-/
namespace Columnar

namespace Varint

variable {encoding : TextEncoding}

/-- The weight and the value stand for the groups in front, which are read already. -/
theorem consumes_readFrom (groups weight value number : Nat)
    (hnumber : number < 2 ^ (7 * groups + 1)) :
    Consumes encoding (readFrom groups weight value) (encode number) []
      (value + number * weight) := by
  induction groups generalizing weight value number with
  | zero =>
    have hbit : number < 2 := hnumber
    have htoNat : (UInt8.ofNat number).toNat = number := by
      rw [UInt8.toNat_ofNat']; omega
    rw [encode, if_pos (by omega)]
    refine .byte ?_
    rw [if_neg (by omega), htoNat]
    exact .done _
  | succ groups ih =>
    rw [encode]
    by_cases hlast : number < 128
    · have htoNat : (UInt8.ofNat number).toNat = number := by
        rw [UInt8.toNat_ofNat']; omega
      rw [if_pos hlast]
      refine .byte ?_
      rw [if_pos (by omega), htoNat]
      exact .done _
    · have htoNat : (UInt8.ofNat (number % 128 + 128)).toNat = number % 128 + 128 := by
        rw [UInt8.toNat_ofNat']; omega
      have hrest : number / 128 < 2 ^ (7 * groups + 1) := by
        have hpow : 2 ^ (7 * (groups + 1) + 1) = 128 * 2 ^ (7 * groups + 1) := by
          rw [show 7 * (groups + 1) + 1 = 7 + (7 * groups + 1) by omega, Nat.pow_add]
        rw [hpow] at hnumber
        omega
      have hvalue : value + number % 128 * weight + number / 128 * (128 * weight) =
          value + number * weight := by
        have hsplit : number * weight = (number % 128 + 128 * (number / 128)) * weight := by
          rw [Nat.mod_add_div]
        rw [hsplit, Nat.add_mul, Nat.add_assoc, Nat.mul_comm 128 (number / 128), Nat.mul_assoc]
      have hnext := ih (128 * weight) (value + number % 128 * weight) (number / 128) hrest
      rw [hvalue] at hnext
      rw [if_neg hlast]
      refine .byte ?_
      rw [if_neg (by omega), htoNat, Nat.add_sub_cancel]
      exact hnext

/-- Every number of 64 bits is read back. -/
theorem consumes_read {number : Nat} (hnumber : number < 2 ^ 64) :
    Consumes encoding read (encode number) [] number := by
  have hread : Consumes encoding read (encode number) [] (0 + number * 1) :=
    consumes_readFrom 9 1 0 number hnumber
  rw [Nat.mul_one, Nat.zero_add] at hread
  exact hread

end Varint

namespace Column

variable {encoding : TextEncoding}

theorem consumes_takeBytes {size : Nat} {block : Bytes} (hblock : block.length = size) :
    Consumes encoding (Decoder.takeBytes size) block [size] block := by
  subst hblock
  have htake : Consumes encoding (Decoder.takeBytes block.length) (block ++ [])
      (block.length :: []) block := .bytes (.done block)
  rw [List.append_nil] at htake
  exact htake

/-- A column of one row is its cell. -/
theorem consumes_cell {format : FixedWidth α} {cell : Bytes} (hcell : cell.length = format.size)
    (hpos : 0 < format.size) (hmax : format.size ≤ maxSize) :
    Consumes encoding (array format 1) cell [format.size] [format.decode cell] := by
  have hsize : mulSat format.size 1 = format.size := by
    rw [mulSat_eq _ _ (by omega), Nat.mul_one]
  have hcells : Bytes.wholeCells format.size cell = [cell] := by
    have hrows : cell.length / format.size = 1 := by rw [hcell, Nat.div_self hpos]
    rw [Bytes.wholeCells, hrows, Bytes.cells_succ, Bytes.cells_zero, ← hcell, List.take_length]
  have htake : Consumes encoding (array format 1) cell [format.size]
      ((Bytes.wholeCells format.size cell).map format.decode) := by
    rw [array, hsize]
    exact (consumes_takeBytes hcell).map _
  rw [hcells] at htake
  exact htake

theorem consumes_sizedCell {data : Bytes} (hdata : data.length < 2 ^ 64) :
    Consumes encoding sizedCell (WireItem.encodeSized data) [data.length] data :=
  (Varint.consumes_read hdata).bind (consumes_takeBytes rfl)

theorem consumes_sizedText {text : String} (htext : text.toUTF8.toList.length < 2 ^ 64) :
    Consumes .utf8 sizedText (WireItem.encodeSized text.toUTF8.toList)
      [text.toUTF8.toList.length] text := by
  have hcell := Consumes.map TextEncoding.utf8.decode
    (consumes_sizedCell htext : Consumes .utf8 _ _ _ _)
  rw [TextEncoding.decode_toUTF8] at hcell
  exact .encoding hcell

theorem consumes_rawText {data : Bytes} (hdata : data.length < 2 ^ 64) :
    Consumes encoding (rawText 1) (WireItem.encodeSized data) [data.length] [data] :=
  (consumes_sizedCell hdata).map fun cell => [cell]

theorem consumes_nullMask {rows : Nat} {entries : Bytes} (hentries : entries.length = rows)
    (hmax : rows ≤ maxSize) : Consumes encoding (nullMask rows) entries [rows] ⟨entries⟩ := by
  have hsize : mulSat NullMask.entrySize rows = rows := by
    rw [mulSat_eq] <;> rw [NullMask.entrySize, Nat.one_mul]
    exact hmax
  rw [nullMask, hsize]
  exact (consumes_takeBytes hentries).map NullMask.mk

end Column

namespace WireItem

/-- The step that reads an item back. -/
def step : WireItem → ReadStep
  | .varint _ => .varint
  | .u16 _ => .column (.number .u16) 1
  | .u32 _ => .column (.number .u32) 1
  | .i32 _ => .column (.number .i32) 1
  | .u64 _ => .column (.number .u64) 1
  | .i64 _ => .column (.number .i64) 1
  | .f64 _ => .column (.number .f64) 1
  | .text _ => .sizedText
  | .sized _ => .column .rawText 1
  | .raw data => .bytes data.length
  | .uuid _ => .column .uuid 1
  | .nullMask nulls => .nullMask nulls.length

/-- What was written, as the step gives it back. -/
def value : WireItem → Value
  | .varint value => .natural value.toNat
  | .u16 value => .column [.integer value.toNat]
  | .u32 value => .column [.integer value.toNat]
  | .i32 value => .column [.integer value.toInt]
  | .u64 value => .column [.integer value.toNat]
  | .i64 value => .column [.integer value.toInt]
  | .f64 bits => .column [.float64 bits.toBitVec]
  | .text value => .text value
  | .sized data => .column [.bytes data]
  | .raw data => .bytes data
  | .uuid id => .column [.uuid id]
  | .nullMask nulls => .mask ⟨nulls.map fun null => if null then 1 else 0⟩

/-- The lengths of the parts of an item that are read at once. -/
def blocks : WireItem → List Nat
  | .varint _ => []
  | .u16 _ => [2]
  | .u32 _ | .i32 _ => [4]
  | .u64 _ | .i64 _ | .f64 _ => [8]
  | .text value => [value.toUTF8.toList.length]
  | .sized data | .raw data => [data.length]
  | .uuid _ => [16]
  | .nullMask nulls => [nulls.length]

theorem encode_nullMask (nulls : List Bool) :
    (nullMask nulls).encode = nulls.map fun null => if null then 1 else 0 := by
  have hbyte (null : Bool) : FixedWidth.boolean.encode null = [if null then 1 else 0] := by
    cases null <;> rfl
  rw [encode]
  induction nulls with
  | nil => rfl
  | cons null nulls ih => rw [List.flatMap_cons, ih, hbyte, List.map_cons, List.singleton_append]

/-- A number is read back from its cell. -/
theorem consumes_number {encoding : TextEncoding} {cell : Bytes} {value : Cell} (type : NumberType)
    (hcell : cell.length = type.size) (hvalue : type.decode cell = value) :
    Consumes encoding (ReadStep.column (.number type) 1).decoder cell [type.size]
      (.column [value]) := by
  have hsize : 0 < type.size ∧ type.size ≤ maxSize := by cases type <;> decide
  have harray : Consumes encoding (Column.array type.format 1) cell [type.size] [type.decode cell] :=
    Column.consumes_cell hcell hsize.1 hsize.2
  rw [hvalue] at harray
  exact harray.map Value.column

theorem consumes_unsigned {encoding : TextEncoding} (type : NumberType)
    (bits : BitVec (8 * type.size))
    (hdecode : ∀ cell, type.decode cell = .integer ((FixedWidth.unsigned type.size).decode cell)) :
    Consumes encoding (ReadStep.column (.number type) 1).decoder
      ((FixedWidth.unsigned type.size).encode bits.toNat) [type.size]
      (.column [.integer bits.toNat]) := by
  refine consumes_number type (FixedWidth.length_encode_word _ _) ?_
  rw [hdecode, FixedWidth.decode_encode_unsigned]

theorem consumes_signed {encoding : TextEncoding} (type : NumberType)
    (bits : BitVec (8 * type.size))
    (hdecode : ∀ cell, type.decode cell = .integer ((FixedWidth.signed type.size).decode cell)) :
    Consumes encoding (ReadStep.column (.number type) 1).decoder
      ((FixedWidth.signed type.size).encode bits.toInt) [type.size]
      (.column [.integer bits.toInt]) := by
  refine consumes_number type (FixedWidth.length_encode_word _ _) ?_
  rw [hdecode, FixedWidth.decode_encode_signed]

theorem consumes_item (item : WireItem) (hblocks : ∀ size ∈ item.blocks, size ≤ 2 ^ 61) :
    Consumes .utf8 item.step.decoder item.encode item.blocks item.value := by
  cases item with
  | varint value => exact (Varint.consumes_read value.toNat_lt).map Value.natural
  | u16 value => exact consumes_unsigned .u16 value.toBitVec fun _ => rfl
  | u32 value => exact consumes_unsigned .u32 value.toBitVec fun _ => rfl
  | i32 value => exact consumes_signed .i32 value.toBitVec fun _ => rfl
  | u64 value => exact consumes_unsigned .u64 value.toBitVec fun _ => rfl
  | i64 value => exact consumes_signed .i64 value.toBitVec fun _ => rfl
  | f64 bits =>
    have hdecode := FixedWidth.decode_encode_word 8 bits.toBitVec
    exact consumes_number .f64 (FixedWidth.length_encode_word 8 _) (congrArg Cell.float64 hdecode)
  | text value =>
    have hsize : value.toUTF8.toList.length ≤ 2 ^ 61 := hblocks _ List.mem_cons_self
    exact (Column.consumes_sizedText (by omega)).map Value.text
  | sized data =>
    have hsize : data.length ≤ 2 ^ 61 := hblocks _ List.mem_cons_self
    have hcells : data.length < 2 ^ 64 := by omega
    exact ((Column.consumes_rawText hcells).map (List.map Cell.bytes)).map Value.column
  | raw data => exact (Column.consumes_takeBytes rfl).map Value.bytes
  | uuid id =>
    have hlength : (Uuid.format.encode id).length = Uuid.format.size := Uuid.length_encode id
    have harray : Consumes .utf8 (Column.uuid 1) (Uuid.format.encode id) [Uuid.format.size]
        [Uuid.format.decode (Uuid.format.encode id)] :=
      Column.consumes_cell hlength (by decide) (by decide)
    rw [Uuid.decode_encode] at harray
    exact (harray.map (List.map Cell.uuid)).map Value.column
  | nullMask nulls =>
    have hsize : nulls.length ≤ 2 ^ 61 := hblocks _ List.mem_cons_self
    have hmax : nulls.length ≤ maxSize := by rw [maxSize]; omega
    rw [encode_nullMask]
    exact (Column.consumes_nullMask (List.length_map _) hmax).map Value.mask

end WireItem

end Columnar
