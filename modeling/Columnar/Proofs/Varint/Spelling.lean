import Mathlib.Algebra.GroupWithZero.Nat
import Columnar.Wire

/-!
How numbers are spelled. A spelling is a front of bytes that all say that another follows, and one
byte that ends it; the tenth byte has one bit. The number that is spelled is the sum of the groups,
each at its place, so groups of zeros at the end change nothing. The encoding of a number is one of
its spellings, the only one that has no such groups, and so no other is shorter.
-/
namespace Columnar.Varint

/-- The sum of the groups of seven bits, each at its place. -/
def number (bytes : Bytes) : Nat :=
  (bytes.mapIdx fun place b => b.toNat % 128 * 2 ^ (7 * place)).sum

/-- Bytes that leave the number open: each says that another follows, and another may. -/
structure Unfinished (bytes : Bytes) : Prop where
  short : bytes.length < maxVarintLength
  continues : ∀ b ∈ bytes, 128 ≤ b.toNat

/-- The bytes that spell a number. -/
inductive Spelling : Bytes → Prop where
  | mk {front : Bytes} {last : UInt8} (hfront : Unfinished front) (hlast : last.toNat < 128)
      (hbit : front.length = 9 → last.toNat ≤ 1) : Spelling (front ++ [last])

/-- Ten bytes that have more than 64 bits or say that an eleventh follows. -/
inductive Excessive : Bytes → Prop where
  | mk {front : Bytes} {last : UInt8} (hfront : Unfinished front) (hlength : front.length = 9)
      (hlast : 1 < last.toNat) : Excessive (front ++ [last])

theorem unfinished_nil : Unfinished [] := ⟨by decide, fun _ hb => nomatch hb⟩

/-- Another byte leaves the number open if it says so and is not the tenth. -/
theorem Unfinished.concat {bytes : Bytes} {b : UInt8} (h : Unfinished bytes)
    (hlength : bytes.length ≠ 9) (hb : 128 ≤ b.toNat) : Unfinished (bytes ++ [b]) := by
  obtain ⟨hshort, hcontinues⟩ := h
  rw [maxVarintLength] at hshort
  constructor
  · rw [List.length_append, List.length_singleton, maxVarintLength]
    omega
  · intro c hc
    rcases List.mem_append.mp hc with hc | hc
    · exact hcontinues c hc
    · rw [List.mem_singleton.mp hc]
      exact hb

@[simp] theorem number_nil : number [] = 0 := rfl

@[simp] theorem number_cons (b : UInt8) (bytes : Bytes) :
    number (b :: bytes) = b.toNat % 128 + 128 * number bytes := by
  have hplace (place : Nat) (c : UInt8) :
      c.toNat % 128 * 2 ^ (7 * (place + 1)) = 128 * (c.toNat % 128 * 2 ^ (7 * place)) := by
    rw [Nat.mul_succ, Nat.pow_add, ← Nat.mul_assoc, Nat.mul_comm]
  have hmap : (bytes.mapIdx fun place c => 128 * (c.toNat % 128 * 2 ^ (7 * place))) =
      (bytes.mapIdx fun place c => c.toNat % 128 * 2 ^ (7 * place)).map (128 * ·) := by
    rw [List.mapIdx_eq_iff]
    intro place
    simp [Function.comp_def]
  have hsum (terms : List Nat) : (terms.map (128 * ·)).sum = 128 * terms.sum := by
    induction terms with
    | nil => rfl
    | cons term terms ih => rw [List.map_cons, List.sum_cons, List.sum_cons, ih, Nat.mul_add]
  simp only [number, List.mapIdx_cons, List.sum_cons, Nat.mul_zero, Nat.pow_zero, Nat.mul_one,
    hplace, hmap, hsum]

theorem number_append (front back : Bytes) :
    number (front ++ back) = number front + 2 ^ (7 * front.length) * number back := by
  induction front with
  | nil => simp
  | cons b front ih =>
    have hpow : 2 ^ (7 * (b :: front).length) = 128 * 2 ^ (7 * front.length) := by
      rw [List.length_cons, Nat.mul_succ, Nat.pow_add, Nat.mul_comm]
    rw [List.cons_append, number_cons, number_cons, ih, hpow, Nat.mul_add, Nat.mul_assoc,
      Nat.add_assoc]

theorem number_concat (front : Bytes) {last : UInt8} (hlast : last.toNat < 128) :
    number (front ++ [last]) = number front + 2 ^ (7 * front.length) * last.toNat := by
  rw [number_append, number_cons, number_nil, Nat.mod_eq_of_lt hlast]
  rfl

/-- Each byte adds seven bits. -/
theorem number_lt (bytes : Bytes) : number bytes < 2 ^ (7 * bytes.length) := by
  induction bytes with
  | nil => decide
  | cons b bytes ih =>
    rw [number_cons, List.length_cons, Nat.mul_succ, Nat.pow_add]
    omega

/-- Ten bytes spell at most 64 bits. -/
theorem Spelling.number_lt {bytes : Bytes} (h : Spelling bytes) : number bytes < 2 ^ 64 := by
  cases h with
  | @mk front last hfront hlast hbit =>
  obtain ⟨hshort, _⟩ := hfront
  rw [number_concat front hlast]
  have hfront := Varint.number_lt front
  rw [maxVarintLength] at hshort
  by_cases hlength : front.length = 9
  · have hlast := hbit hlength
    rw [hlength] at hfront ⊢
    omega
  · have hpow : 2 ^ (7 * front.length) ≤ 2 ^ 56 := Nat.pow_le_pow_right (by decide) (by omega)
    have hmul : 2 ^ (7 * front.length) * last.toNat ≤ 2 ^ 56 * 127 :=
      Nat.mul_le_mul hpow (by omega)
    omega

/-- Groups of zeros at the end spell nothing. -/
theorem Spelling.pad {front : Bytes} {last : UInt8} {padding : Nat}
    (h : Spelling (front ++ [last])) (hroom : front.length + padding + 1 < maxVarintLength) :
    Spelling (front ++ [last ||| 0x80] ++ List.replicate padding 0x80 ++ [0]) ∧
      number (front ++ [last ||| 0x80] ++ List.replicate padding 0x80 ++ [0]) =
        number (front ++ [last]) := by
  obtain ⟨hfront, hlast⟩ : Unfinished front ∧ last.toNat < 128 := by
    generalize hbytes : front ++ [last] = bytes at h
    obtain ⟨hfront, hlast, _⟩ := h
    obtain ⟨rfl, hsingle⟩ := List.append_inj' hbytes rfl
    obtain rfl := List.head_eq_of_cons_eq hsingle
    exact ⟨hfront, hlast⟩
  have hflag : (last ||| 0x80).toNat = last.toNat + 128 := by
    have hall : ∀ bits : BitVec 8, bits.toNat < 128 →
        (UInt8.ofBitVec bits ||| 0x80).toNat = bits.toNat + 128 := by decide +kernel
    exact hall last.toBitVec hlast
  have hzeros : number (List.replicate padding 0x80 ++ [0]) = 0 := by
    induction padding with
    | zero => rfl
    | succ padding ih =>
      rw [List.replicate_succ, List.cons_append, number_cons, ih (by omega)]
      rfl
  have hunfinished : Unfinished (front ++ [last ||| 0x80] ++ List.replicate padding 0x80) := by
    constructor
    · simp only [List.length_append, List.length_singleton, List.length_replicate]
      omega
    · intro b hb
      rcases List.mem_append.mp hb with hb | hb
      · rcases List.mem_append.mp hb with hb | hb
        · exact hfront.continues b hb
        · rw [List.mem_singleton.mp hb, hflag]
          omega
      · rw [List.eq_of_mem_replicate hb]
        decide
  refine ⟨.mk hunfinished (by decide) (fun _ => by decide), ?_⟩
  rw [List.append_assoc, number_append, hzeros, Nat.mul_zero, Nat.add_zero, number_append,
    number_cons, hflag, number_nil, number_concat front hlast]
  rw [Nat.add_mod_right, Nat.mod_eq_of_lt hlast]
  rfl

/-- Every byte of an encoding but the last says that another follows, and a group of zeros does not
end a longer one. -/
theorem encode_shape (value : Nat) :
    ∃ front last, encode value = front ++ [last] ∧ (∀ b ∈ front, 128 ≤ b.toNat) ∧
      last.toNat < 128 ∧ (last = 0 → value = 0) := by
  induction value using encode.induct with
  | case1 value hlast =>
    have htoNat : (UInt8.ofNat value).toNat = value := by
      rw [UInt8.toNat_ofNat']
      omega
    refine ⟨[], UInt8.ofNat value, by rw [encode, if_pos hlast]; rfl, by simp, by omega, ?_⟩
    intro hzero
    rw [hzero] at htoNat
    exact htoNat.symm
  | case2 value hmore ih =>
    obtain ⟨front, last, hencode, hfront, hlast, hzero⟩ := ih
    have htoNat : (UInt8.ofNat (value % 128 + 128)).toNat = value % 128 + 128 := by
      rw [UInt8.toNat_ofNat']
      omega
    refine ⟨UInt8.ofNat (value % 128 + 128) :: front, last, ?_, ?_, hlast, ?_⟩
    · rw [encode, if_neg hmore, hencode]
      rfl
    · intro b hb
      rcases List.mem_cons.mp hb with rfl | hb
      · omega
      · exact hfront b hb
    · intro hnone
      have hquotient := hzero hnone
      omega

@[simp] theorem number_encode (value : Nat) : number (encode value) = value := by
  induction value using encode.induct with
  | case1 value hlast =>
    rw [encode, if_pos hlast, number_cons, number_nil, UInt8.toNat_ofNat']
    omega
  | case2 value hmore ih =>
    rw [encode, if_neg hmore, number_cons, ih, UInt8.toNat_ofNat']
    omega

theorem length_encode_pos (value : Nat) : 0 < (encode value).length := by
  obtain ⟨front, last, hencode, _⟩ := encode_shape value
  simp [hencode]

/-- Each byte makes room for seven bits. -/
theorem length_encode_le_iff {value count : Nat} (hcount : 0 < count) :
    (encode value).length ≤ count ↔ value < 2 ^ (7 * count) := by
  induction count generalizing value with
  | zero => exact absurd hcount (Nat.lt_irrefl 0)
  | succ count ih =>
    have hpow : 2 ^ (7 * (count + 1)) = 128 * 2 ^ (7 * count) := by
      rw [Nat.mul_succ, Nat.pow_add, Nat.mul_comm]
    rw [encode, hpow]
    by_cases hlast : value < 128
    · have hroom : 1 ≤ 2 ^ (7 * count) := Nat.one_le_two_pow
      simp only [hlast, if_true, List.length_singleton]
      omega
    · rw [if_neg hlast, List.length_cons, Nat.succ_le_succ_iff]
      by_cases hcount : 0 < count
      · rw [ih hcount]
        omega
      · have hrest := length_encode_pos (value / 128)
        obtain rfl : count = 0 := by omega
        omega

theorem bitLength_le_iff {value bits : Nat} : bitLength value ≤ bits ↔ value < 2 ^ bits := by
  rw [bitLength]
  by_cases hzero : value = 0
  · rw [if_pos hzero, hzero]
    exact iff_of_true (Nat.zero_le bits) (Nat.two_pow_pos bits)
  · rw [if_neg hzero, Nat.succ_le_iff, Nat.log2_lt hzero]

/-- The number of bits tells the length of the encoding. -/
theorem length_encode (value : Nat) : (encode value).length = encodedLength value := by
  have hbound {count : Nat} (hcount : 0 < count) :
      encodedLength value ≤ count ↔ value < 2 ^ (7 * count) := by
    rw [← bitLength_le_iff, encodedLength]
    omega
  have hpos : 0 < encodedLength value := by
    rw [encodedLength]
    omega
  apply Nat.le_antisymm
  · exact (length_encode_le_iff hpos).mpr ((hbound hpos).mp (Nat.le_refl _))
  · have hencode := length_encode_pos value
    exact (hbound hencode).mpr ((length_encode_le_iff hencode).mp (Nat.le_refl _))

theorem length_encode_le {value : Nat} (h : value < 2 ^ 64) :
    (encode value).length ≤ maxVarintLength :=
  (length_encode_le_iff (by decide)).mpr (Nat.lt_trans h (by decide))

theorem spelling_encode {value : Nat} (h : value < 2 ^ 64) : Spelling (encode value) := by
  obtain ⟨front, last, hencode, hfront, hlast, _⟩ := encode_shape value
  have hlength := length_encode_le h
  have hnumber := number_encode value
  rw [hencode, number_concat front hlast] at hnumber
  rw [hencode, List.length_append, List.length_singleton] at hlength
  rw [hencode]
  refine .mk ⟨hlength, hfront⟩ hlast ?_
  intro hnine
  rw [hnine] at hnumber
  omega

/-- A spelling without groups of zeros at its end is the encoding. -/
theorem encode_number {front : Bytes} {last : UInt8} (hfront : ∀ b ∈ front, 128 ≤ b.toNat)
    (hlast : last.toNat < 128) (hend : front = [] ∨ last ≠ 0) :
    encode (number (front ++ [last])) = front ++ [last] := by
  induction front with
  | nil =>
    rw [List.nil_append, number_cons, number_nil, Nat.mul_zero, Nat.add_zero,
      Nat.mod_eq_of_lt hlast, encode, if_pos hlast, UInt8.ofNat_toNat]
  | cons b front ih =>
    have hnonzero : last ≠ 0 := hend.resolve_left (List.cons_ne_nil b front)
    have hrest := ih (fun c hc => hfront c (List.mem_cons_of_mem b hc)) (.inr hnonzero)
    have hb := hfront b List.mem_cons_self
    have hbyte := b.toNat_lt
    have hpositive : number (front ++ [last]) ≠ 0 := by
      intro hzero
      have hone : last.toNat ≠ 0 := fun h => hnonzero (UInt8.toNat_inj.mp h)
      rw [number_concat front hlast, Nat.add_eq_zero_iff, Nat.mul_eq_zero] at hzero
      rcases hzero.2 with hpow | hlast
      · exact absurd hpow (Nat.ne_of_gt (Nat.two_pow_pos _))
      · exact hone hlast
    rw [List.cons_append, number_cons, encode, if_neg (by omega), Nat.add_mul_mod_self_left,
      Nat.mod_mod, Nat.add_mul_div_left _ _ (by decide : 0 < 128),
      Nat.div_eq_of_lt (Nat.mod_lt _ (by decide)), Nat.zero_add, hrest]
    have hflag : b.toNat % 128 + 128 = b.toNat := by omega
    rw [hflag, UInt8.ofNat_toNat]

end Columnar.Varint
