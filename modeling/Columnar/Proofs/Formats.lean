import Mathlib.Algebra.Group.Nat.Defs
import Columnar.Column

/-!
Formats that lose nothing. Words do not: a number below the range of its length is read back as it
was written, and a byte string is written back as it was read. Each format is a word, seen as
something else: what was decoded is written as it was, and what was written is decoded as it was.
Addresses are words too, read from their octets in one order or another.
-/
namespace Columnar

namespace Bytes

theorem littleEndian_lt (bytes : Bytes) : littleEndian bytes < 256 ^ bytes.length := by
  induction bytes with
  | nil => simp
  | cons byte bytes ih =>
    have hbyte := byte.toNat_lt
    simp only [littleEndian_cons, List.length_cons, Nat.pow_succ]
    omega

theorem littleEndian_ofLittleEndian (size value : Nat) :
    littleEndian (ofLittleEndian size value) = value % 256 ^ size := by
  induction size generalizing value with
  | zero => simp [ofLittleEndian, Nat.mod_one]
  | succ size ih =>
    have hsplit : value % 256 ^ (size + 1) = value % 256 + 256 * (value / 256 % 256 ^ size) := by
      rw [Nat.pow_succ, Nat.mul_comm, Nat.mod_mul]
    simp only [ofLittleEndian, littleEndian_cons, ih, UInt8.toNat_ofNat', hsplit]

theorem bigEndian_ofBigEndian (size value : Nat) :
    bigEndian (ofBigEndian size value) = value % 256 ^ size := by
  rw [bigEndian, ofBigEndian, List.reverse_reverse, littleEndian_ofLittleEndian]

end Bytes

namespace FixedWidth

theorem decode_encode_word (size : Nat) (bits : BitVec (8 * size)) :
    (word size).decode ((word size).encode bits) = bits := by
  have hpow : 256 ^ size = 2 ^ (8 * size) := by rw [Nat.pow_mul]
  simp only [word, Bytes.littleEndian_ofLittleEndian, hpow, BitVec.ofNat_toNat,
    Nat.mod_eq_of_lt bits.isLt, BitVec.setWidth_eq]

theorem encode_decode_word (size : Nat) (cell : Bytes) (h : cell.length = size) :
    (word size).encode ((word size).decode cell) = cell := by
  subst h
  have hpow : 256 ^ cell.length = 2 ^ (8 * cell.length) := by rw [Nat.pow_mul]
  have hlt := Bytes.littleEndian_lt cell
  rw [hpow] at hlt
  simp only [word, BitVec.toNat_ofNat, Nat.mod_eq_of_lt hlt, Bytes.ofLittleEndian_littleEndian]

theorem decode_encode_unsigned (size : Nat) (bits : BitVec (8 * size)) :
    (unsigned size).decode ((unsigned size).encode bits.toNat) = bits.toNat := by
  simp only [unsigned, map, BitVec.ofNat_toNat, BitVec.setWidth_eq, decode_encode_word]

theorem decode_encode_signed (size : Nat) (bits : BitVec (8 * size)) :
    (signed size).decode ((signed size).encode bits.toInt) = bits.toInt := by
  simp only [signed, map, BitVec.ofInt_toInt, decode_encode_word]

end FixedWidth

namespace Uuid

theorem swapHalves_swapHalves {octets : Bytes} (hlength : octets.length = 16) :
    swapHalves (swapHalves octets) = octets := by
  have hback : (octets.drop 8).length = 8 := by rw [List.length_drop]; omega
  have hdrop : (octets.drop 8 ++ octets.take 8).drop 8 = octets.take 8 := List.drop_left' hback
  have htake : (octets.drop 8 ++ octets.take 8).take 8 = octets.drop 8 := List.take_left' hback
  simp only [swapHalves, halfSize]
  rw [hdrop, htake, List.take_append_drop]

theorem length_encode (id : Uuid) : (format.encode id).length = 16 := by
  have hlength : id.octets.length = 16 := Bytes.length_ofBigEndian 16 _
  simp only [format, swapHalves, halfSize, List.length_append, List.length_drop, List.length_take,
    hlength]
  omega

theorem decode_encode (id : Uuid) : format.decode (format.encode id) = id := by
  have hoctets : swapHalves (swapHalves id.octets) = id.octets :=
    swapHalves_swapHalves (Bytes.length_ofBigEndian 16 _)
  have hlt : id.bits.toNat < 256 ^ 16 := by
    have hbits := id.bits.isLt
    omega
  have hbits : id.octets.bigEndian = id.bits.toNat := by
    rw [octets, Bytes.bigEndian_ofBigEndian, Nat.mod_eq_of_lt hlt]
  simp only [format, hoctets, ofOctets, hbits, BitVec.ofNat_toNat, BitVec.setWidth_eq]

end Uuid

/-- Cells of the size of the format and the values that they have belong together one to one. -/
structure FixedWidth.Lossless (format : FixedWidth α) (Good : α → Prop) : Prop where
  good_decode : ∀ cell, cell.length = format.size → Good (format.decode cell)
  encode_decode : ∀ cell, cell.length = format.size → format.encode (format.decode cell) = cell
  length_encode : ∀ value, Good value → (format.encode value).length = format.size
  decode_encode : ∀ value, Good value → format.decode (format.encode value) = value

namespace Bytes

theorem littleEndian_append (front back : Bytes) :
    littleEndian (front ++ back) = littleEndian front + 256 ^ front.length * littleEndian back := by
  induction front with
  | nil => simp
  | cons byte front ih =>
    rw [List.cons_append, littleEndian_cons, littleEndian_cons, ih, List.length_cons, Nat.pow_succ',
      Nat.mul_add, Nat.mul_assoc, Nat.add_assoc]

/-- The bytes in front weigh more. -/
theorem bigEndian_append (front back : Bytes) :
    bigEndian (front ++ back) = 256 ^ back.length * bigEndian front + bigEndian back := by
  rw [bigEndian, List.reverse_append, littleEndian_append, List.length_reverse, Nat.add_comm]
  rfl

theorem bigEndian_lt (bytes : Bytes) : bigEndian bytes < 256 ^ bytes.length := by
  have hlt := littleEndian_lt bytes.reverse
  rw [List.length_reverse] at hlt
  exact hlt

theorem ofBigEndian_bigEndian (bytes : Bytes) :
    ofBigEndian bytes.length bytes.bigEndian = bytes := by
  have hback := ofLittleEndian_littleEndian bytes.reverse
  rw [List.length_reverse] at hback
  rw [ofBigEndian, bigEndian, hback, List.reverse_reverse]

theorem bigEndian_inj {bytes bytes' : Bytes} (hlength : bytes.length = bytes'.length)
    (h : bigEndian bytes = bigEndian bytes') : bytes = bytes' := by
  rw [← ofBigEndian_bigEndian bytes, h, hlength, ofBigEndian_bigEndian]

/-- The octets of a word in network order. -/
theorem ofBigEndian_ofNat (size : Nat) {bytes : Bytes} (h : bytes.length = size) :
    ofBigEndian size (BitVec.ofNat (8 * size) bytes.bigEndian).toNat = bytes := by
  subst h
  have hlt := bigEndian_lt bytes
  rw [show 256 = 2 ^ 8 from rfl, ← Nat.pow_mul] at hlt
  rw [BitVec.toNat_ofNat, Nat.mod_eq_of_lt hlt, ofBigEndian_bigEndian]

theorem ofNat_ofBigEndian (size : Nat) (bits : BitVec (8 * size)) :
    BitVec.ofNat (8 * size) (ofBigEndian size bits.toNat).bigEndian = bits := by
  have hlt := bits.isLt
  rw [Nat.pow_mul] at hlt
  rw [bigEndian_ofBigEndian, Nat.mod_eq_of_lt hlt, BitVec.ofNat_toNat, BitVec.setWidth_eq]

end Bytes

namespace FixedWidth

theorem lossless_word (size : Nat) : (word size).Lossless fun _ => True where
  good_decode _ _ := trivial
  encode_decode := encode_decode_word size
  length_encode bits _ := length_encode_word size bits
  decode_encode bits _ := decode_encode_word size bits

/-- Values that words can be read as, if they can be read back. -/
theorem Lossless.map {format : FixedWidth α} {Good : α → Prop} {Good' : β → Prop} {read : α → β}
    {write : β → α} (h : format.Lossless Good) (hread : ∀ value, Good value → Good' (read value))
    (hwrite : ∀ value, Good' value → Good (write value))
    (hback : ∀ value, Good value → write (read value) = value)
    (hforth : ∀ value, Good' value → read (write value) = value) :
    (format.map read write).Lossless Good' where
  good_decode cell hcell := hread _ (h.good_decode cell hcell)
  encode_decode cell hcell := by
    show format.encode (write (read (format.decode cell))) = cell
    rw [hback _ (h.good_decode cell hcell), h.encode_decode cell hcell]
  length_encode value hvalue := h.length_encode _ (hwrite value hvalue)
  decode_encode value hvalue := by
    show read (format.decode (format.encode (write value))) = value
    rw [h.decode_encode _ (hwrite value hvalue), hforth value hvalue]

theorem lossless_unsigned (size : Nat) :
    (unsigned size).Lossless fun value => value < 2 ^ (8 * size) := by
  refine (lossless_word size).map (fun bits _ => bits.isLt) (fun _ _ => trivial) (fun bits _ => ?_)
    fun value hvalue => ?_
  · rw [BitVec.ofNat_toNat, BitVec.setWidth_eq]
  · rw [BitVec.toNat_ofNat, Nat.mod_eq_of_lt hvalue]

/-- Words as natural numbers. -/
def natural (size : Nat) : FixedWidth Int :=
  (word size).map (fun bits => (bits.toNat : Int)) (BitVec.ofInt _)

theorem lossless_natural (size : Nat) :
    (natural size).Lossless fun value => 0 ≤ value ∧ value < (2 ^ (8 * size) : Nat) := by
  refine (lossless_word size).map (fun bits _ => ?_) (fun _ _ => trivial) (fun bits _ => ?_)
    fun value hvalue => ?_
  · exact ⟨Int.natCast_nonneg _, Int.ofNat_lt.mpr bits.isLt⟩
  · rw [BitVec.ofInt_natCast, BitVec.ofNat_toNat, BitVec.setWidth_eq]
  · rw [BitVec.toNat_ofInt, Int.emod_eq_of_lt hvalue.1 hvalue.2, Int.toNat_of_nonneg hvalue.1]

theorem lossless_signed (size : Nat) :
    (signed size).Lossless fun value =>
      -((2 ^ (8 * size) : Nat) : Int) ≤ 2 * value ∧ 2 * value < (2 ^ (8 * size) : Nat) := by
  refine (lossless_word size).map (fun bits _ => ?_) (fun _ _ => trivial) (fun bits _ => ?_)
    fun value hvalue => ?_
  · have hlower := bits.le_two_mul_toInt
    have hupper := bits.two_mul_toInt_lt
    push_cast
    exact ⟨hlower, hupper⟩
  · exact BitVec.ofInt_toInt
  · rw [BitVec.toInt_ofInt]
    exact Int.bmod_eq_of_le_mul_two (by omega) (by omega)

end FixedWidth

theorem Uuid.lossless : format.Lossless fun _ => True where
  good_decode _ _ := trivial
  encode_decode cell hcell := by
    have hswapped : (swapHalves cell).length = 16 := by
      replace hcell : cell.length = 16 := hcell
      simp only [swapHalves, halfSize, List.length_append, List.length_drop, List.length_take]
      omega
    have hoctets : (ofOctets (swapHalves cell)).octets = swapHalves cell :=
      Bytes.ofBigEndian_ofNat 16 hswapped
    show swapHalves (ofOctets (swapHalves cell)).octets = cell
    rw [hoctets, swapHalves_swapHalves hcell]
  length_encode id _ := length_encode id
  decode_encode id _ := decode_encode id

namespace Ipv4

def ofOctets (octets : Bytes) : Ipv4 := ⟨BitVec.ofNat 32 octets.bigEndian⟩

theorem octets_ofOctets {content : Bytes} (h : content.length = 4) :
    (ofOctets content).octets = content :=
  Bytes.ofBigEndian_ofNat 4 h

theorem ofOctets_octets (address : Ipv4) : ofOctets address.octets = address :=
  congrArg Ipv4.mk (Bytes.ofNat_ofBigEndian 4 address.bits)

theorem bigEndian_octets (address : Ipv4) : address.octets.bigEndian = address.bits.toNat := by
  rw [octets, Bytes.bigEndian_ofBigEndian]
  exact Nat.mod_eq_of_lt address.bits.isLt

theorem lossless : format.Lossless fun _ => True :=
  (FixedWidth.lossless_word 4).map (fun _ _ => trivial) (fun _ _ => trivial) (fun _ _ => rfl)
    fun _ _ => rfl

end Ipv4

namespace Ipv6

/-- The octets in front of an IPv4 address in IPv6 form. -/
def mappedPrefix : Bytes := List.replicate 10 0 ++ [0xff, 0xff]

theorem octets_ofOctets {content : Bytes} (h : content.length = 16) :
    (ofOctets content).octets = content :=
  Bytes.ofBigEndian_ofNat 16 h

theorem ofOctets_octets (address : Ipv6) : ofOctets address.octets = address :=
  congrArg Ipv6.mk (Bytes.ofNat_ofBigEndian 16 address.bits)

/-- The first twelve octets count as the number above the last 32 bits. -/
theorem bigEndian_mapped {front back : Bytes} (hfront : front.length = 12)
    (hback : back.length = 4) :
    (ofOctets (front ++ back)).bits.toNat = 2 ^ 32 * front.bigEndian + back.bigEndian ∧
      back.bigEndian < 2 ^ 32 := by
  have hlt := Bytes.bigEndian_lt (front ++ back)
  have hlow := Bytes.bigEndian_lt back
  rw [List.length_append, hfront, hback] at hlt
  rw [hback] at hlow
  replace hlt : (front ++ back).bigEndian < 2 ^ 128 := hlt
  rw [ofOctets, BitVec.toNat_ofNat, Nat.mod_eq_of_lt hlt, Bytes.bigEndian_append, hback]
  exact ⟨rfl, hlow⟩

theorem mapped?_append {front back : Bytes} (hfront : front.length = 12) (hback : back.length = 4) :
    (ofOctets (front ++ back)).mapped? =
      if front = mappedPrefix then some (Ipv4.ofOctets back) else none := by
  obtain ⟨hbits, hlow⟩ := bigEndian_mapped hfront hback
  have hshift : (ofOctets (front ++ back)).bits >>> 32 = 0xffff ↔ front = mappedPrefix := by
    have hnumber : Bytes.bigEndian mappedPrefix = 0xffff := by decide
    have hhigh : ((ofOctets (front ++ back)).bits >>> 32).toNat = front.bigEndian := by
      rw [BitVec.toNat_ushiftRight, Nat.shiftRight_eq_div_pow, hbits]
      omega
    constructor
    · intro h
      refine Bytes.bigEndian_inj hfront ?_
      rw [← hhigh, h, hnumber]
      rfl
    · rintro rfl
      refine BitVec.eq_of_toNat_eq ?_
      rw [hhigh, hnumber]
      rfl
  have hwidth : (ofOctets (front ++ back)).bits.setWidth 32 = BitVec.ofNat 32 back.bigEndian := by
    refine BitVec.eq_of_toNat_eq ?_
    rw [BitVec.toNat_setWidth, BitVec.toNat_ofNat, hbits]
    omega
  rw [mapped?, hwidth]
  by_cases hmapped : front = mappedPrefix
  · rw [if_pos hmapped, if_pos (hshift.mpr hmapped)]
    rfl
  · rw [if_neg hmapped, if_neg fun h => hmapped (hshift.mp h)]

/-- The octets of an IPv4 address stand behind ten zeros and two full octets. -/
theorem octets_ofMapped (address : Ipv4) :
    (ofMapped address).octets = mappedPrefix ++ address.octets := by
  have hback : address.octets.length = 4 := Bytes.length_ofBigEndian 4 _
  have hsame : ofMapped address = ofOctets (mappedPrefix ++ address.octets) := by
    refine congrArg Ipv6.mk (BitVec.eq_of_toNat_eq ?_)
    have hnumber : Bytes.bigEndian mappedPrefix = 0xffff := by decide
    have hbits : (BitVec.ofNat 128 (mappedPrefix ++ address.octets).bigEndian).toNat =
        2 ^ 32 * Bytes.bigEndian mappedPrefix + address.octets.bigEndian :=
      (bigEndian_mapped rfl hback).1
    rw [hbits, hnumber, Ipv4.bigEndian_octets, BitVec.toNat_append,
      ← Nat.shiftLeft_add_eq_or_of_lt address.bits.isLt, Nat.shiftLeft_eq]
    rfl
  have hlength : (mappedPrefix ++ address.octets).length = 16 := by
    rw [List.length_append, hback]
    rfl
  rw [hsame, octets_ofOctets hlength]

end Ipv6

namespace Ip

/-- The address is not an IPv4 address in IPv6 form. -/
def Short : Ip → Prop
  | .v4 _ => True
  | .v6 address => address.octets.take 12 ≠ Ipv6.mappedPrefix

theorem decode_eq {content : Bytes} (h : content.length = 16) :
    format.decode content =
      if content.take 12 = Ipv6.mappedPrefix then .v4 (Ipv4.ofOctets (content.drop 12))
      else .v6 (Ipv6.ofOctets content) := by
  have hfront : (content.take 12).length = 12 := by simp [h]
  have hback : (content.drop 12).length = 4 := by simp [h]
  have hinner := Ipv6.mapped?_append hfront hback
  rw [List.take_append_drop] at hinner
  show ofIpv6 (Ipv6.ofOctets content) = _
  rw [ofIpv6, hinner]
  by_cases hmapped : content.take 12 = Ipv6.mappedPrefix
  · simp only [if_pos hmapped]
  · simp only [if_neg hmapped]

theorem length_encode (address : Ip) : (format.encode address).length = 16 :=
  Bytes.length_ofBigEndian 16 _

theorem lossless : format.Lossless Short where
  good_decode cell hcell := by
    rw [decode_eq hcell]
    by_cases hmapped : cell.take 12 = Ipv6.mappedPrefix
    · rw [if_pos hmapped]
      trivial
    · rw [if_neg hmapped, Short, Ipv6.octets_ofOctets hcell]
      exact hmapped
  encode_decode cell hcell := by
    rw [decode_eq hcell]
    by_cases hmapped : cell.take 12 = Ipv6.mappedPrefix
    · have hback : (cell.drop 12).length = 4 := by
        replace hcell : cell.length = 16 := hcell
        rw [List.length_drop, hcell]
      rw [if_pos hmapped]
      show (Ipv6.ofMapped _).octets = cell
      rw [Ipv6.octets_ofMapped, Ipv4.octets_ofOctets hback, ← hmapped, List.take_append_drop]
    · rw [if_neg hmapped]
      exact Ipv6.octets_ofOctets hcell
  length_encode address _ := length_encode address
  decode_encode address haddress := by
    rw [decode_eq (length_encode address)]
    cases address with
    | v4 address =>
      have hoctets : format.encode (.v4 address) = Ipv6.mappedPrefix ++ address.octets :=
        Ipv6.octets_ofMapped address
      have hfront : (Ipv6.mappedPrefix ++ address.octets).take 12 = Ipv6.mappedPrefix :=
        List.take_left' rfl
      have hback : (Ipv6.mappedPrefix ++ address.octets).drop 12 = address.octets :=
        List.drop_left' rfl
      rw [hoctets, if_pos hfront, hback, Ipv4.ofOctets_octets]
    | v6 address =>
      have hoctets : format.encode (.v6 address) = address.octets := rfl
      rw [hoctets, if_neg haddress]
      exact congrArg Ip.v6 (Ipv6.ofOctets_octets address)

end Ip

end Columnar
