/-!
Byte strings, the two ways in which a decoder cuts one, and how they are numbers and texts. A front
of a given length is cut off, and so is a block of cells that all have the same length.

Lengths, row counts and capacities are natural numbers throughout. Only two facts about the machine
show in what a decoder answers: a product of sizes stops at the largest machine word instead of
wrapping around, and no buffer can be larger than half the address space.

In the little-endian order the least significant byte stands first, in the big-endian order it
stands last. Writing keeps the number modulo the range of the length, so reading what was written
returns a number that fits. Hexadecimal text has two lowercase digits a byte, high half first.
-/
namespace Columnar

/-- The largest size that fits a machine word. -/
def maxSize : Nat := 0xffffffffffffffff

/-- The largest number of bytes that one buffer can hold. -/
def maxAllocation : Nat := 0x7fffffffffffffff

/-- Product of sizes that stops at `maxSize`. -/
def mulSat (a b : Nat) : Nat := min (a * b) maxSize

theorem mulSat_le (a b : Nat) : mulSat a b ≤ maxSize := Nat.min_le_right _ _

theorem mulSat_eq (a b : Nat) (h : a * b ≤ maxSize) : mulSat a b = a * b := Nat.min_eq_left h

/-- A product that did not stop is exact. -/
theorem mulSat_exact {a b : Nat} (h : mulSat a b < maxSize) :
    mulSat a b = a * b ∧ a * b < maxSize := by
  rw [mulSat] at h ⊢
  omega

@[simp] theorem mulSat_zero (a : Nat) : mulSat a 0 = 0 := by simp [mulSat]

@[simp] theorem zero_mulSat (a : Nat) : mulSat 0 a = 0 := by simp [mulSat]

abbrev Bytes := List UInt8

namespace Bytes

/-- The first `size` bytes and the rest; nothing if there are fewer. -/
def split? (size : Nat) (bytes : Bytes) : Option (Bytes × Bytes) :=
  let front := bytes.take size
  if front.length = size then some (front, bytes.drop size) else none

theorem split?_append (front rest : Bytes) :
    split? front.length (front ++ rest) = some (front, rest) := by
  simp [split?]

theorem split?_eq_some_iff {size : Nat} {bytes front rest : Bytes} :
    split? size bytes = some (front, rest) ↔ bytes = front ++ rest ∧ front.length = size := by
  constructor
  · intro h
    simp only [split?] at h
    split at h
    · next hlength =>
      cases h
      exact ⟨(List.take_append_drop size bytes).symm, hlength⟩
    · cases h
  · rintro ⟨rfl, rfl⟩
    exact split?_append front rest

theorem split?_eq_none_iff {size : Nat} {bytes : Bytes} :
    split? size bytes = none ↔ bytes.length < size := by
  simp only [split?, List.length_take]
  split
  · simp only [reduceCtorEq, false_iff]
    omega
  · simp only [true_iff]
    omega

/-- Cuts `count` cells of `size` bytes off `bytes` and puts them behind those in `earlier`, the
latest first. -/
def cellsAfter (size : Nat) : (count : Nat) → (bytes : Bytes) → (earlier : List Bytes) → List Bytes
  | 0, _, earlier => earlier.reverse
  | count + 1, bytes, earlier =>
    cellsAfter size count (bytes.drop size) (bytes.take size :: earlier)

/-- The first `count` cells of `size` bytes each, in order. -/
def cells (size count : Nat) (bytes : Bytes) : List Bytes := cellsAfter size count bytes []

/-- All whole cells of a block. A shorter piece at its end is no cell. -/
def wholeCells (size : Nat) (block : Bytes) : List Bytes := cells size (block.length / size) block

theorem cellsAfter_eq (size count : Nat) (bytes : Bytes) (earlier : List Bytes) :
    cellsAfter size count bytes earlier = earlier.reverse ++ cells size count bytes := by
  induction count generalizing bytes earlier with
  | zero => simp [cells, cellsAfter]
  | succ count ih => simp [cells, cellsAfter, ih _ (_ :: earlier), ih _ [_]]

@[simp] theorem cells_zero (size : Nat) (bytes : Bytes) : cells size 0 bytes = [] := rfl

@[simp] theorem cells_succ (size count : Nat) (bytes : Bytes) :
    cells size (count + 1) bytes = bytes.take size :: cells size count (bytes.drop size) := by
  simp [cells, cellsAfter, cellsAfter_eq size count _ [_]]

@[simp] theorem length_cells (size count : Nat) (bytes : Bytes) :
    (cells size count bytes).length = count := by
  induction count generalizing bytes with
  | zero => rfl
  | succ count ih => simp [ih]

theorem wholeCells_block {size rows : Nat} {block : Bytes} (hpos : 0 < size)
    (h : block.length = size * rows) : wholeCells size block = cells size rows block := by
  rw [wholeCells, h, Nat.mul_div_cancel_left rows hpos]

def littleEndian (bytes : Bytes) : Nat :=
  bytes.foldr (fun byte rest => byte.toNat + 256 * rest) 0

def bigEndian (bytes : Bytes) : Nat := littleEndian bytes.reverse

def ofLittleEndian : (size : Nat) → (value : Nat) → Bytes
  | 0, _ => []
  | size + 1, value => UInt8.ofNat value :: ofLittleEndian size (value / 256)

def ofBigEndian (size value : Nat) : Bytes := (ofLittleEndian size value).reverse

@[simp] theorem littleEndian_nil : littleEndian [] = 0 := rfl

@[simp] theorem littleEndian_cons (byte : UInt8) (bytes : Bytes) :
    littleEndian (byte :: bytes) = byte.toNat + 256 * littleEndian bytes := rfl

@[simp] theorem length_ofLittleEndian (size value : Nat) :
    (ofLittleEndian size value).length = size := by
  induction size generalizing value with
  | zero => rfl
  | succ size ih => simp [ofLittleEndian, ih]

@[simp] theorem length_ofBigEndian (size value : Nat) :
    (ofBigEndian size value).length = size := by simp [ofBigEndian]

theorem ofLittleEndian_littleEndian (bytes : Bytes) :
    ofLittleEndian bytes.length (littleEndian bytes) = bytes := by
  induction bytes with
  | nil => rfl
  | cons byte bytes ih =>
    have hbyte := byte.toNat_lt
    have hquotient : (byte.toNat + 256 * littleEndian bytes) / 256 = littleEndian bytes := by omega
    have hbyte_eq : UInt8.ofNat (byte.toNat + 256 * littleEndian bytes) = byte := by
      apply UInt8.toNat_inj.mp
      simp only [UInt8.toNat_ofNat']
      omega
    simp only [List.length_cons, ofLittleEndian, littleEndian_cons, hquotient, hbyte_eq, ih]

end Bytes

/-- The lowercase digit of a value below sixteen. -/
def hexDigit (value : Nat) : Char :=
  if value < 10 then Char.ofNat ('0'.toNat + value) else Char.ofNat ('a'.toNat + (value - 10))

/-- The value of a hexadecimal digit of either case. -/
def hexValue? (digit : Char) : Option Nat :=
  if '0' ≤ digit ∧ digit ≤ '9' then some (digit.toNat - '0'.toNat)
  else if 'a' ≤ digit ∧ digit ≤ 'f' then some (digit.toNat - 'a'.toNat + 10)
  else if 'A' ≤ digit ∧ digit ≤ 'F' then some (digit.toNat - 'A'.toNat + 10)
  else none

theorem hexValue?_hexDigit (value : Nat) (h : value < 16) :
    hexValue? (hexDigit value) = some value := by
  have : ∀ v : Fin 16, hexValue? (hexDigit v) = some v.val := by decide
  exact this ⟨value, h⟩

namespace Bytes

/-- The two digits of a byte. -/
def hexPair (byte : UInt8) : List Char :=
  [hexDigit (byte.toNat / 16), hexDigit (byte.toNat % 16)]

def toHex (bytes : Bytes) : String := String.ofList (bytes.flatMap hexPair)

/-- Reads pairs of digits behind the bytes in `earlier`, the latest first. -/
def ofHexAfter (earlier : Bytes) : List Char → Option Bytes
  | [] => some earlier.reverse
  | high :: low :: rest =>
    match hexValue? high, hexValue? low with
    | some h, some l => ofHexAfter (UInt8.ofNat (16 * h + l) :: earlier) rest
    | _, _ => none
  | [_] => none

def ofHex? (text : String) : Option Bytes := ofHexAfter [] text.toList

theorem ofHexAfter_flatMap (earlier bytes : Bytes) :
    ofHexAfter earlier (bytes.flatMap hexPair) = some (earlier.reverse ++ bytes) := by
  induction bytes generalizing earlier with
  | nil => simp [ofHexAfter]
  | cons byte bytes ih =>
    have hbyte := byte.toNat_lt
    have hback : UInt8.ofNat (16 * (byte.toNat / 16) + byte.toNat % 16) = byte := by
      rw [Nat.div_add_mod]
      simp
    simp [hexPair, ofHexAfter, hexValue?_hexDigit _ (Nat.mod_lt _ (by decide : 0 < 16)),
      hexValue?_hexDigit (byte.toNat / 16) (by omega), hback, ih]

theorem ofHex?_toHex (bytes : Bytes) : ofHex? bytes.toHex = some bytes := by
  simp [ofHex?, toHex, ofHexAfter_flatMap]

end Bytes

end Columnar
