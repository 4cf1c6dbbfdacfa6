import Mathlib.Algebra.Group.Nat.Defs
import Columnar.Config

/-!
Text in cells. A string is the text of its own UTF-8 form, and of no other bytes, so a cell that
holds one is decoded to it. Of other cells the digits of their bytes are shown, which say what the
bytes were. The form is taken here as a list of bytes, in the order of the array.
-/
namespace Columnar

theorem toList_loop (bytes : ByteArray) (start : Nat) (earlier : Bytes) :
    ByteArray.toList.loop bytes start earlier = earlier.reverse ++ bytes.data.toList.drop start := by
  fun_induction ByteArray.toList.loop bytes start earlier with
  | case1 start earlier hstart ih =>
    have hlt : start < bytes.data.toList.length := by simpa using hstart
    have hget : bytes.get! start = bytes.data.toList[start] := by
      rw [Array.getElem_toList]
      exact getElem!_pos bytes.data start hstart
    rw [ih, List.drop_eq_getElem_cons hlt, hget, List.reverse_cons, List.append_assoc,
      List.singleton_append]
  | case2 start earlier hstart =>
    have hle : bytes.data.toList.length ≤ start := by simpa using hstart
    rw [List.drop_eq_nil_of_le hle, List.append_nil]

theorem toList_eq (bytes : ByteArray) : bytes.toList = bytes.data.toList := by
  rw [ByteArray.toList, toList_loop]
  simp

theorem toByteArray_toList (bytes : ByteArray) : bytes.toList.toByteArray = bytes := by
  rw [toList_eq]
  ext1
  simp

theorem toList_toByteArray (bytes : Bytes) : bytes.toByteArray.toList = bytes := by
  rw [toList_eq]
  simp

theorem mem_hexDigits {value : Nat} (h : value < 16) :
    hexDigit value ∈ "0123456789abcdef".toList := by
  have : ∀ v : Fin 16, hexDigit v ∈ "0123456789abcdef".toList := by decide
  exact this ⟨value, h⟩

namespace Bytes

theorem toList_toHex (bytes : Bytes) : bytes.toHex.toList = bytes.flatMap hexPair :=
  String.toList_ofList

/-- Two digits a byte. -/
theorem length_toHex (bytes : Bytes) : bytes.toHex.toList.length = 2 * bytes.length := by
  rw [toList_toHex]
  induction bytes with
  | nil => rfl
  | cons byte bytes ih =>
    rw [List.flatMap_cons, List.length_append, ih, List.length_cons, Nat.mul_succ, Nat.add_comm]
    rfl

theorem mem_toHex {bytes : Bytes} {digit : Char} (h : digit ∈ bytes.toHex.toList) :
    digit ∈ "0123456789abcdef".toList := by
  rw [toList_toHex] at h
  obtain ⟨byte, _, hpair⟩ := List.mem_flatMap.mp h
  have hbyte := byte.toNat_lt
  rw [hexPair, List.mem_cons, List.mem_singleton] at hpair
  obtain rfl | rfl := hpair
  · exact mem_hexDigits (by omega)
  · exact mem_hexDigits (by omega)

end Bytes

namespace TextEncoding

theorem utf8?_toUTF8 (text : String) : utf8? text.toUTF8.toList = some text := by
  rw [utf8?, toByteArray_toList, String.fromUTF8?, String.toUTF8_eq_toByteArray,
    dif_pos text.isValidUTF8]
  rfl

/-- No other bytes have this text. -/
theorem toUTF8_of_utf8? {bytes : Bytes} {text : String} (h : utf8? bytes = some text) :
    text.toUTF8.toList = bytes := by
  rw [utf8?, String.fromUTF8?] at h
  split at h
  · obtain rfl := Option.some.inj h
    exact toList_toByteArray bytes
  · cases h

theorem decode_toUTF8 (text : String) : utf8.decode text.toUTF8.toList = text := by
  rw [decode, utf8?_toUTF8, Option.getD_some]

/-- A cell that no text encodes to is shown by its digits. -/
theorem decode_of_malformed {bytes : Bytes} (h : ∀ text : String, text.toUTF8.toList ≠ bytes) :
    utf8.decode bytes = bytes.toHex := by
  cases hutf8 : utf8? bytes with
  | none => rw [decode, hutf8, Option.getD_none]
  | some text => exact absurd (toUTF8_of_utf8? hutf8) (h text)

/-- What a cell becomes as text. In UTF-8 it is the text that encodes to it, if there is one, and
otherwise the digits of its bytes, from which the cell can be had again. In Latin-1 it is one
character for each byte. -/
structure Faithful (bytes : Bytes) : Prop where
  wellFormed : ∀ text : String, text.toUTF8.toList = bytes → utf8.decode bytes = text
  malformed : (∀ text : String, text.toUTF8.toList ≠ bytes) →
    (utf8.decode bytes).toList = bytes.flatMap Bytes.hexPair ∧
    (utf8.decode bytes).toList.length = 2 * bytes.length ∧
    (∀ digit ∈ (utf8.decode bytes).toList, digit ∈ "0123456789abcdef".toList) ∧
    Bytes.ofHex? (utf8.decode bytes) = some bytes
  singleByte : (latin1.decode bytes).toList.map Char.toNat = bytes.map UInt8.toNat

theorem faithful (bytes : Bytes) : Faithful bytes where
  wellFormed text htext := by rw [← htext, decode_toUTF8]
  malformed hmalformed := by
    rw [decode_of_malformed hmalformed]
    exact ⟨bytes.toList_toHex, bytes.length_toHex, fun _ => Bytes.mem_toHex, bytes.ofHex?_toHex⟩
  singleByte := by
    rw [decode, latin1Text, String.toList_ofList, List.map_map]
    rfl

end TextEncoding

end Columnar
