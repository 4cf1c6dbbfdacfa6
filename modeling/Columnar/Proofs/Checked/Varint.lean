import Columnar.Proofs.Checked.Machine
import Columnar.Proofs.Observation
import Columnar.Proofs.Varint.Spelling

/-!
Varints in words. The groups of a number are shifted to their places and put together bit by bit,
in a word of 64 bits, and they are written to a buffer by index. No shift is too far or loses a
bit, no byte is written outside of the buffer, and all of it comes to what `Varint` says in plain
numbers.
-/
namespace Columnar.Checked

/-- A word moved up by `amount` bits. Nothing if it is moved by its length or more, or if a bit is
lost. -/
def shifted (amount : Nat) (bits : BitVec 64) : Option (BitVec 64) :=
  if amount < 64 ∧ bits.toNat * 2 ^ amount < 2 ^ 64 then some (bits <<< amount) else none

/-- A buffer with one byte written to it. Nothing if it has no such place. -/
def stored (index : Nat) (byte : UInt8) (buffer : Bytes) : Option Bytes :=
  if index < buffer.length then some (buffer.set index byte) else none

theorem shifted_eq {amount : Nat} (bits : BitVec 64) (hamount : amount < 64)
    (hbits : bits.toNat * 2 ^ amount < 2 ^ 64) :
    shifted amount bits = some (bits <<< amount) ∧
      (bits <<< amount).toNat = bits.toNat * 2 ^ amount := by
  refine ⟨if_pos ⟨hamount, hbits⟩, ?_⟩
  rw [BitVec.toNat_shiftLeft, Nat.shiftLeft_eq, Nat.mod_eq_of_lt hbits]

/-- A word and a number above its bits have none in common. -/
theorem toNat_or_of_lt {low high : BitVec 64} {count group : Nat} (hlow : low.toNat < 2 ^ count)
    (hhigh : high.toNat = group * 2 ^ count) :
    (low ||| high).toNat = low.toNat + group * 2 ^ count := by
  have hsum := Nat.two_pow_add_eq_or_of_lt hlow group
  rw [BitVec.toNat_or, hhigh, Nat.or_comm, Nat.mul_comm group, ← hsum, Nat.add_comm]

theorem stored_middle (front : Bytes) (byte old : UInt8) (back : Bytes) :
    stored front.length byte (front ++ old :: back) = some (front ++ byte :: back) := by
  rw [stored, if_pos (by simp)]
  simp

namespace Varint

/-- Reads the groups from bit `shift` on and puts them to those in `result`. -/
def readFrom (shift : Nat) (result : BitVec 64) : Decoder (Option Nat) :=
  .byte fun b =>
    if shift = 63 ∧ 1 < b.toNat then .fail (.error .varintOverflow)
    else
      match shifted shift ((b &&& 0x7f).toBitVec.setWidth 64) with
      | none => .done none
      | some group =>
        if b &&& 0x80 = 0 then .done (some (result ||| group).toNat)
        else if 64 ≤ shift + 7 then .fail (.error .varintOverflow)
        else readFrom (shift + 7) (result ||| group)
termination_by 64 - shift

def read : Decoder (Option Nat) := readFrom 0 0

/-- A length has to fit a size. -/
def readLength : Decoder (Option Nat) :=
  read.bind fun value =>
    match value with
    | none => .done none
    | some value => if value ≤ maxSize then .done (some value) else .fail (.error .varintOverflow)

/-- Writes the groups of a number from an index on. The index behind the last is given too. -/
def encodeFrom (index : Nat) (bits : BitVec 64) (buffer : Bytes) : Option (Bytes × Nat) :=
  if 0x80 ≤ bits.toNat then
    match stored index (UInt8.ofBitVec (bits.setWidth 8) ||| 0x80) buffer with
    | none => none
    | some buffer => encodeFrom (index + 1) (bits >>> 7) buffer
  else (stored index (UInt8.ofBitVec (bits.setWidth 8)) buffer).map fun buffer => (buffer, index + 1)
termination_by bits.toNat
decreasing_by
  rw [BitVec.toNat_ushiftRight, Nat.shiftRight_eq_div_pow]
  omega

def encode (bits : BitVec 64) (buffer : Bytes) : Option (Bytes × Nat) := encodeFrom 0 bits buffer

/-- The length of the encoding, from the zeros in front of the number. -/
def encodedLength (bits : BitVec 64) : Option Nat := do
  let used ← difference 64 bits.clz.toNat
  let rounded ← word (max used 1 + 6)
  return rounded / 7

/-- Appends the encoding, which is written to a buffer of its own first. -/
def put (bits : BitVec 64) (earlier : Bytes) : Option Bytes := do
  let (buffer, length) ← encode bits (List.replicate maxVarintLength 0)
  let front ← slice 0 length buffer
  return earlier ++ front

section Byte

variable (b : UInt8)

theorem toNat_group : ((b &&& 0x7f).toBitVec.setWidth 64).toNat = b.toNat % 128 := by
  have hmask : b.toNat &&& 0x7f = b.toNat % 128 := Nat.and_two_pow_sub_one_eq_mod b.toNat 7
  have hbyte : (b &&& 0x7f).toBitVec.toNat = b.toNat % 128 := (UInt8.toNat_and b 0x7f).trans hmask
  rw [BitVec.toNat_setWidth, hbyte]
  omega

theorem flag_eq_zero_iff : b &&& 0x80 = 0 ↔ b.toNat < 128 := by
  have hall : ∀ bits : BitVec 8, UInt8.ofBitVec bits &&& 0x80 = 0 ↔ bits.toNat < 128 := by
    decide +kernel
  exact hall b.toBitVec

/-- A group that is shifted to its place loses no bit and meets none of those below it. -/
theorem added_group {shift : Nat} {result : BitVec 64} (hshift : shift < 64)
    (hgroup : b.toNat % 128 * 2 ^ shift < 2 ^ 64) (hresult : result.toNat < 2 ^ shift) :
    shifted shift ((b &&& 0x7f).toBitVec.setWidth 64) =
        some ((b &&& 0x7f).toBitVec.setWidth 64 <<< shift) ∧
      (result ||| (b &&& 0x7f).toBitVec.setWidth 64 <<< shift).toNat =
        result.toNat + b.toNat % 128 * 2 ^ shift := by
  rw [← toNat_group b] at hgroup
  obtain ⟨hshifted, htoNat⟩ := shifted_eq _ hshift hgroup
  rw [toNat_group] at htoNat
  exact ⟨hshifted, toNat_or_of_lt hresult htoNat⟩

end Byte

/-- The bits in `result` are those of the groups that were read, the others are zero. -/
theorem readFrom_eq (groups : Nat) {shift : Nat} {result : BitVec 64}
    (hshift : shift + 7 * groups = 63) (hresult : result.toNat < 2 ^ shift) :
    readFrom shift result =
      some <$> Columnar.Varint.readFrom groups (2 ^ shift) result.toNat := by
  induction groups generalizing shift result with
  | zero =>
    obtain rfl : shift = 63 := by omega
    rw [readFrom, Columnar.Varint.readFrom, Decoder.map_eq, Decoder.bind]
    congr 1
    funext b
    by_cases hlarge : 1 < b.toNat
    · rw [if_pos ⟨rfl, hlarge⟩, if_pos hlarge]
      rfl
    · obtain ⟨hshifted, hsum⟩ := added_group b (by decide) (by omega) hresult
      rw [Nat.mod_eq_of_lt (by omega)] at hsum
      rw [if_neg (fun h => hlarge h.2), if_neg hlarge, hshifted]
      simp only [(flag_eq_zero_iff b).mpr (by omega), if_true, hsum]
      rfl
  | succ groups ih =>
    rw [readFrom, Columnar.Varint.readFrom, Decoder.map_eq, Decoder.bind]
    congr 1
    funext b
    have hlast : ¬ shift = 63 := by omega
    have hpow : 128 * 2 ^ shift = 2 ^ (shift + 7) := by rw [Nat.pow_add, Nat.mul_comm]
    have hsmall : b.toNat % 128 * 2 ^ shift + 2 ^ shift ≤ 2 ^ (shift + 7) := by
      rw [← hpow, ← Nat.succ_mul]
      exact Nat.mul_le_mul_right _ (by omega)
    have hroom : 2 ^ (shift + 7) ≤ 2 ^ 63 := Nat.pow_le_pow_right (by decide) (by omega)
    obtain ⟨hshifted, hsum⟩ := added_group b (by omega) (by omega) hresult
    rw [if_neg (fun h => hlast h.1), hshifted]
    by_cases hend : b.toNat < 128
    · simp only [(flag_eq_zero_iff b).mpr hend, hend, if_true, hsum, Nat.mod_eq_of_lt hend]
      rfl
    · have hrest : b.toNat % 128 = b.toNat - 128 := by
        have hbyte := b.toNat_lt
        omega
      have hbits : (result ||| (b &&& 0x7f).toBitVec.setWidth 64 <<< shift).toNat <
          2 ^ (shift + 7) := by
        rw [hsum]
        omega
      have hlater := ih (by omega) hbits
      have hnext : ¬ 64 ≤ shift + 7 := by omega
      simp only [mt (flag_eq_zero_iff b).mp hend, hend, if_false, if_neg hnext]
      rw [hlater, hsum, hpow, hrest]
      rfl

/-- No shift is too far and no bit is lost. -/
theorem read_eq : read = some <$> Columnar.Varint.read :=
  readFrom_eq 9 (by decide) (by decide)

/-- What comes behind the groups of a number depends on numbers of 64 bits only. -/
theorem bind_readFrom {groups weight value : Nat} {first second : Nat → Decoder α}
    (hvalue : value < weight) (hweight : weight * 2 ^ (7 * groups + 1) ≤ 2 ^ 64)
    (heq : ∀ number < 2 ^ 64, first number = second number) :
    (Columnar.Varint.readFrom groups weight value).bind first =
      (Columnar.Varint.readFrom groups weight value).bind second := by
  induction groups generalizing weight value with
  | zero =>
    simp only [Columnar.Varint.readFrom, Decoder.bind]
    congr 1
    funext b
    by_cases hlarge : 1 < b.toNat
    · simp [hlarge]
    · have hbit : b.toNat * weight ≤ 1 * weight := Nat.mul_le_mul_right weight (by omega)
      simp only [hlarge, if_false, Decoder.done_bind]
      exact heq _ (by omega)
  | succ groups ih =>
    have hpow : weight * 2 ^ (7 * (groups + 1) + 1) = 128 * weight * 2 ^ (7 * groups + 1) := by
      rw [show 7 * (groups + 1) + 1 = 7 + (7 * groups + 1) by omega, Nat.pow_add,
        ← Nat.mul_assoc, Nat.mul_comm weight]
    rw [hpow] at hweight
    have hroom : 128 * weight ≤ 128 * weight * 2 ^ (7 * groups + 1) :=
      Nat.le_mul_of_pos_right _ (Nat.two_pow_pos _)
    have hgroup {group : Nat} (h : group < 128) : group * weight ≤ 127 * weight :=
      Nat.mul_le_mul_right weight (by omega)
    simp only [Columnar.Varint.readFrom, Decoder.bind]
    congr 1
    funext b
    by_cases hlast : b.toNat < 128
    · have hsmall := hgroup hlast
      simp only [hlast, if_true, Decoder.done_bind]
      exact heq _ (by omega)
    · have hbyte := b.toNat_lt
      have hsmall := hgroup (by omega : b.toNat - 128 < 128)
      simp only [hlast, if_false]
      exact ih (by omega) hweight

/-- Every number fits a size. -/
theorem readLength_eq : readLength = some <$> Columnar.Varint.readLength := by
  rw [readLength, read_eq, Decoder.map_eq, Decoder.bind_assoc]
  refine bind_readFrom (by decide) (by decide) ?_
  intro number hnumber
  rw [Decoder.done_bind]
  exact if_pos (Nat.le_of_lt_succ hnumber)

section Writing

variable (bits : BitVec 64)

theorem lowByte_eq : UInt8.ofBitVec (bits.setWidth 8) = UInt8.ofNat bits.toNat := rfl

theorem flagged_eq :
    UInt8.ofBitVec (bits.setWidth 8) ||| 0x80 = UInt8.ofNat (bits.toNat % 128 + 128) := by
  have hall : ∀ low : BitVec 8, UInt8.ofBitVec low ||| 0x80 = UInt8.ofNat (low.toNat % 128 + 128) := by
    decide +kernel
  have hlow : (bits.setWidth 8).toNat % 128 = bits.toNat % 128 := by
    rw [BitVec.toNat_setWidth]
    omega
  rw [hall, hlow]

/-- The encoding is written over what stands in the buffer from the index on. -/
theorem encodeFrom_eq (front back : Bytes)
    (hroom : (Columnar.Varint.encode bits.toNat).length ≤ back.length) :
    encodeFrom front.length bits (front ++ back) =
      some (front ++ Columnar.Varint.encode bits.toNat ++
          back.drop (Columnar.Varint.encode bits.toNat).length,
        front.length + (Columnar.Varint.encode bits.toNat).length) := by
  generalize hvalue : bits.toNat = value at hroom ⊢
  -- a byte that was stored joins the front, and the index is always the length of the front
  induction value using Columnar.Varint.encode.induct generalizing bits front back with
  | case1 value hlast =>
    rw [Columnar.Varint.encode, if_pos hlast] at hroom ⊢
    cases back with
    | nil => simp at hroom
    | cons old back =>
      rw [encodeFrom, hvalue, if_neg (by omega), lowByte_eq, stored_middle, hvalue]
      simp
  | case2 value hmore ih =>
    rw [Columnar.Varint.encode, if_neg hmore] at hroom ⊢
    have hshift : (bits >>> 7).toNat = value / 128 := by
      rw [BitVec.toNat_ushiftRight, hvalue, Nat.shiftRight_eq_div_pow]
    cases back with
    | nil => simp at hroom
    | cons old back =>
      have hlater := ih (bits >>> 7) (front ++ [UInt8.ofNat (value % 128 + 128)]) back hshift
        (Nat.le_of_succ_le_succ hroom)
      rw [List.length_append, List.length_singleton] at hlater
      rw [encodeFrom, hvalue, if_pos (by omega), flagged_eq, stored_middle, hvalue]
      simp only [List.append_assoc, List.singleton_append] at hlater ⊢
      rw [hlater]
      simp [Nat.add_assoc, Nat.add_comm 1]

/-- No byte is written behind the tenth. -/
theorem encode_eq {buffer : Bytes} (hbuffer : buffer.length = maxVarintLength) :
    encode bits buffer =
      some (Columnar.Varint.encode bits.toNat ++
          buffer.drop (Columnar.Varint.encode bits.toNat).length,
        (Columnar.Varint.encode bits.toNat).length) := by
  have hroom := Columnar.Varint.length_encode_le bits.isLt
  have hwritten := encodeFrom_eq bits [] buffer (hbuffer ▸ hroom)
  simpa [encode] using hwritten

theorem put_eq (earlier : Bytes) :
    put bits earlier = some (earlier ++ Columnar.Varint.encode bits.toNat) := by
  rw [put, encode_eq bits List.length_replicate]
  simp [slice]

theorem clz_le : bits.clz.toNat ≤ 64 := BitVec.le_def.mp BitVec.clz_le

/-- The bits of a number are those behind the zeros in front of it. -/
theorem bitLength_eq : Columnar.Varint.bitLength bits.toNat = 64 - bits.clz.toNat := by
  apply Nat.le_antisymm
  · exact Columnar.Varint.bitLength_le_iff.mpr BitVec.toNat_lt_two_pow_sub_clz
  · by_cases hzero : bits = 0#64
    · simp [BitVec.clz_eq_iff_eq_zero.mpr hzero]
    · have hpow := BitVec.two_pow_sub_clz_le_toNat_of_ne_zero (by decide) hzero
      have hbits := mt Columnar.Varint.bitLength_le_iff.mp (Nat.not_lt.mpr hpow)
      omega

theorem encodedLength_eq :
    encodedLength bits = some (Columnar.Varint.encodedLength bits.toNat) := by
  have hzeros := clz_le bits
  rw [encodedLength, difference_eq hzeros, Columnar.Varint.encodedLength, bitLength_eq]
  have hsum : max (64 - bits.clz.toNat) 1 + 6 ≤ maxSize := by
    rw [maxSize]
    omega
  exact andThen rfl (andThen (word_eq rfl hsum) rfl)

end Writing

end Varint

end Columnar.Checked
