import Columnar.Bytes

/-!
Values that take the same number of bytes each. A `FixedWidth α` says how a cell of that many
bytes is read as a value and how a value is written as a cell. Words are the base case: every
string of `size` bytes is exactly one word. The other formats read a word and interpret it, or, for
identifiers and network addresses, read the octets in an order of their own.
-/
namespace Columnar

structure FixedWidth (α : Type) where
  size : Nat
  decode : Bytes → α
  encode : α → Bytes

namespace FixedWidth

/-- Little-endian words of `size` bytes. -/
def word (size : Nat) : FixedWidth (BitVec (8 * size)) where
  size := size
  decode cell := BitVec.ofNat _ cell.littleEndian
  encode bits := Bytes.ofLittleEndian size bits.toNat

/-- The same cells under another reading of their values. -/
def map (read : α → β) (write : β → α) (format : FixedWidth α) : FixedWidth β where
  size := format.size
  decode cell := read (format.decode cell)
  encode value := format.encode (write value)

/-- Natural numbers below `256 ^ size`. -/
def unsigned (size : Nat) : FixedWidth Nat := (word size).map BitVec.toNat (BitVec.ofNat _)

/-- Integers in two's complement. -/
def signed (size : Nat) : FixedWidth Int := (word size).map BitVec.toInt (BitVec.ofInt _)

/-- One byte that is zero for false. Every other byte is true; true is written as one. -/
def boolean : FixedWidth Bool :=
  (word 1).map (fun bits => decide (bits ≠ 0)) (fun value => if value then 1 else 0)

@[simp] theorem size_word (size : Nat) : (word size).size = size := rfl
@[simp] theorem size_map (read : α → β) (write : β → α) (format : FixedWidth α) :
    (format.map read write).size = format.size := rfl
@[simp] theorem size_unsigned (size : Nat) : (unsigned size).size = size := rfl
@[simp] theorem size_signed (size : Nat) : (signed size).size = size := rfl
@[simp] theorem size_boolean : boolean.size = 1 := rfl

@[simp] theorem length_encode_word (size : Nat) (bits : BitVec (8 * size)) :
    ((word size).encode bits).length = size := by simp [word]

end FixedWidth

/-- A 128-bit identifier as one number, the first octet the most significant. -/
structure Uuid where
  bits : BitVec 128
  deriving DecidableEq, Repr

structure Ipv4 where
  bits : BitVec 32
  deriving DecidableEq, Repr

structure Ipv6 where
  bits : BitVec 128
  deriving DecidableEq, Repr

inductive Ip where
  | v4 (address : Ipv4)
  | v6 (address : Ipv6)
  deriving DecidableEq, Repr

namespace Uuid

def octets (id : Uuid) : Bytes := Bytes.ofBigEndian 16 id.bits.toNat

def ofOctets (octets : Bytes) : Uuid := ⟨BitVec.ofNat 128 octets.bigEndian⟩

/-- The number of octets in half an identifier. -/
def halfSize : Nat := 8

/-- Exchanges the two halves of sixteen octets. -/
def swapHalves (octets : Bytes) : Bytes := octets.drop halfSize ++ octets.take halfSize

/-- Octets with hyphens after the fourth, sixth, eighth and tenth. -/
def text (id : Uuid) : String :=
  let part (start size : Nat) := Bytes.toHex ((id.octets.drop start).take size)
  String.intercalate "-" [part 0 4, part 4 2, part 6 2, part 8 2, part 10 6]

/-- On the wire the second half of an identifier comes first. -/
def format : FixedWidth Uuid where
  size := 16
  decode cell := ofOctets (swapHalves cell)
  encode id := swapHalves id.octets

end Uuid

namespace Ipv4

def octets (address : Ipv4) : Bytes := Bytes.ofBigEndian 4 address.bits.toNat

/-- Four decimal octets with dots. -/
def text (address : Ipv4) : String :=
  String.intercalate "." (address.octets.map fun octet => toString octet.toNat)

/-- On the wire an address is a little-endian number. -/
def format : FixedWidth Ipv4 := (FixedWidth.word 4).map (fun bits => ⟨bits⟩) (fun a => a.bits)

end Ipv4

namespace Ipv6

def octets (address : Ipv6) : Bytes := Bytes.ofBigEndian 16 address.bits.toNat

def ofOctets (octets : Bytes) : Ipv6 := ⟨BitVec.ofNat 128 octets.bigEndian⟩

def text (address : Ipv6) : String := address.octets.toHex

/-- The IPv4 address inside one that begins with 80 zero bits and 16 one bits. -/
def mapped? (address : Ipv6) : Option Ipv4 :=
  if address.bits >>> 32 = 0xffff then some ⟨address.bits.setWidth 32⟩ else none

/-- The IPv6 form of an IPv4 address. -/
def ofMapped (address : Ipv4) : Ipv6 := ⟨0xffff#96 ++ address.bits⟩

end Ipv6

namespace Ip

/-- An address in its shortest kind: IPv4 if it is one in IPv6 form. -/
def ofIpv6 (address : Ipv6) : Ip :=
  match address.mapped? with
  | some inner => .v4 inner
  | none => .v6 address

def toIpv6 : Ip → Ipv6
  | .v4 address => .ofMapped address
  | .v6 address => address

/-- On the wire all addresses have sixteen octets in network order. -/
def format : FixedWidth Ip where
  size := 16
  decode cell := ofIpv6 (Ipv6.ofOctets cell)
  encode address := address.toIpv6.octets

end Ip

end Columnar
