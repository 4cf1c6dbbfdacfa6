import Columnar.Proofs.Varint.Grammar

/-!
Encodings are read back, and no spelling is shorter. A number of 64 bits is written in as many
bytes as its bits need, and these bytes give it back from a slice and from a cursor whatever stands
behind them. Numbers written one after another are therefore read one after another.
-/
namespace Columnar.Varint

/-- The encodings of numbers, one after another. -/
def written (values : List (BitVec 64)) : Bytes := values.flatMap fun bits => encode bits.toNat

@[simp] theorem written_nil : written [] = [] := rfl

@[simp] theorem written_cons (bits : BitVec 64) (values : List (BitVec 64)) :
    written (bits :: values) = encode bits.toNat ++ written values := rfl

section Source

variable {source : ByteSource σ} {before after : σ}

theorem run_encode {value : Nat} (hvalue : value < 2 ^ 64)
    (hgives : source.Gives before (encode value) after) :
    read.run source before = (.ok value, after) := by
  have hrun := run_spelling hgives (spelling_encode hvalue)
  rwa [number_encode] at hrun

theorem run_written {values : List (BitVec 64)}
    (hgives : source.Gives before (written values) after) :
    (Decoder.times values.length read).run source before =
      (.ok (values.map BitVec.toNat), after) := by
  induction values generalizing before with
  | nil =>
    cases hgives
    rfl
  | cons bits values ih =>
    obtain ⟨middle, hfirst, hrest⟩ := hgives.of_append
    rw [List.length_cons, Decoder.times_succ, Decoder.run_bind, run_encode bits.isLt hfirst]
    simp only [Decoder.run_bind, ih hrest]
    rfl

end Source

/-- A spelling has room for all the bits of its number. -/
theorem Spelling.length_encode_le {bytes : Bytes} (h : Spelling bytes) :
    (encode (number bytes)).length ≤ bytes.length := by
  have hlength : 0 < bytes.length := by
    cases h with
    | mk => simp
  exact (length_encode_le_iff hlength).mpr (Varint.number_lt bytes)

/-- Only groups of zeros at the end make a spelling different from the encoding. -/
theorem Spelling.encode_eq_iff {bytes : Bytes} (h : Spelling bytes) :
    encode (number bytes) = bytes ↔ bytes.length = 1 ∨ bytes.getLast? ≠ some 0 := by
  cases h with
  | @mk front last hfront hlast hbit =>
    rw [List.getLast?_concat, List.length_append, List.length_singleton]
    constructor
    · intro hencode
      by_cases hzero : last = 0
      -- an encoding that ends in zero is that of zero
      · obtain ⟨front', last', hshape, _, _, hend⟩ := encode_shape (number (front ++ [last]))
        obtain ⟨_, hsame⟩ := List.append_inj' (hencode.symm.trans hshape) rfl
        have hnumber := hend ((List.head_eq_of_cons_eq hsame).symm.trans hzero)
        rw [hnumber, encode, if_pos (by decide)] at hencode
        have hlength := congrArg List.length hencode
        rw [List.length_append, List.length_singleton] at hlength
        exact .inl hlength.symm
      · exact .inr fun hlast => hzero (Option.some.inj hlast)
    · intro hend
      refine encode_number hfront.continues hlast (hend.imp ?_ ?_)
      · intro hlength
        exact List.eq_nil_of_length_eq_zero (by omega)
      · intro hlast hzero
        exact hlast (congrArg some hzero)

/-- The front of a content decides which encoding it begins with. -/
theorem encode_append_inj {first second : BitVec 64} {rest rest' : Bytes}
    (h : encode first.toNat ++ rest = encode second.toNat ++ rest') :
    first = second ∧ rest = rest' := by
  have hfirst := run_encode first.isLt (Slice.gives (encode first.toNat) rest 0 .utf8)
  rw [h] at hfirst
  have hsecond := run_encode second.isLt (Slice.gives (encode second.toNat) rest' 0 .utf8)
  obtain ⟨hvalue, hafter⟩ := Prod.mk.inj (hfirst.symm.trans hsecond)
  exact ⟨BitVec.toNat_inj.mp (Except.ok.inj hvalue), congrArg Slice.unread hafter⟩

theorem written_inj {values values' : List (BitVec 64)} (h : written values = written values') :
    values = values' := by
  have hnonempty (bits : BitVec 64) (bytes : Bytes) : encode bits.toNat ++ bytes ≠ [] := by
    have hlength := length_encode_pos bits.toNat
    simp [List.ne_nil_of_length_pos hlength]
  induction values generalizing values' with
  | nil =>
    cases values' with
    | nil => rfl
    | cons bits values' => exact absurd h.symm (hnonempty bits _)
  | cons bits values ih =>
    cases values' with
    | nil => exact absurd h (hnonempty bits _)
    | cons bits' values' =>
      obtain ⟨hbits, hrest⟩ := encode_append_inj h
      rw [hbits, ih hrest]

theorem put_written (values : List (BitVec 64)) (earlier : Bytes) :
    values.foldlM (fun buffer bits => Checked.Varint.put bits buffer) earlier =
      some (earlier ++ written values) := by
  induction values generalizing earlier with
  | nil => simp
  | cons bits values ih =>
    rw [List.foldlM_cons, Checked.Varint.put_eq, Option.bind_eq_bind, Option.bind_some, ih,
      written_cons, List.append_assoc]

/-- A number of 64 bits in its shortest spelling. -/
structure WrittenShort (bits : BitVec 64) : Prop where
  /-- The buffer has ten bytes, and those behind the encoding stay as they are. -/
  buffered : ∀ {buffer : Bytes}, buffer.length = maxVarintLength →
    Checked.Varint.encode bits buffer =
      some (encode bits.toNat ++ buffer.drop (encode bits.toNat).length,
        (encode bits.toNat).length)
  told : Checked.Varint.encodedLength bits = some (encode bits.toNat).length
  length : (encode bits.toNat).length = max 1 ((bitLength bits.toNat + 6) / 7)
  slice : ∀ rest position encoding,
    read.run Slice.byteSource ⟨encode bits.toNat ++ rest, position, encoding⟩ =
      (.ok bits.toNat, ⟨rest, position + (encode bits.toNat).length, encoding⟩)
  cursor : ∀ {σ : Type} [ChunkSource σ] {cursor : Cursor σ} {ends : Prop} {rest : Bytes},
    cursor.Faces (encode bits.toNat ++ rest) ends →
      ∃ after, read.run Cursor.byteSource cursor = (.ok bits.toNat, after) ∧
        after.Faces rest ends ∧ after.position = cursor.position + (encode bits.toNat).length
  shortest : ∀ {content position encoding after},
    read.run Slice.byteSource ⟨content, position, encoding⟩ = (.ok bits.toNat, after) →
      position + (encode bits.toNat).length ≤ after.position

theorem writtenShort (bits : BitVec 64) : WrittenShort bits where
  buffered := Checked.Varint.encode_eq bits
  told := by rw [Checked.Varint.encodedLength_eq, length_encode]
  length := by
    rw [length_encode, encodedLength]
    omega
  slice rest position encoding := run_encode bits.isLt (Slice.gives _ rest position encoding)
  cursor := by
    intro σ _ cursor ends rest hfaces
    obtain ⟨after, hgives, hafter, hposition⟩ := hfaces.gives
    exact ⟨after, run_encode bits.isLt hgives, hafter, hposition⟩
  shortest := by
    intro content position encoding after hrun
    obtain ⟨bytes, rest, _, hspelling, hnumber, rfl⟩ := spelled_of_run hrun
    rw [hnumber]
    exact Nat.add_le_add_left hspelling.length_encode_le position

/-- Numbers of 64 bits that are appended to a buffer and read back one after another. -/
structure ReadBack (values : List (BitVec 64)) : Prop where
  appended : ∀ earlier,
    values.foldlM (fun buffer bits => Checked.Varint.put bits buffer) earlier =
      some (earlier ++ written values)
  slice : ∀ rest position encoding,
    (Decoder.times values.length read).run Slice.byteSource
        ⟨written values ++ rest, position, encoding⟩ =
      (.ok (values.map BitVec.toNat), ⟨rest, position + (written values).length, encoding⟩)
  cursor : ∀ {σ : Type} [ChunkSource σ] {cursor : Cursor σ} {ends : Prop} {rest : Bytes},
    cursor.Faces (written values ++ rest) ends →
      ∃ after,
        (Decoder.times values.length read).run Cursor.byteSource cursor =
          (.ok (values.map BitVec.toNat), after) ∧
        after.Faces rest ends ∧ after.position = cursor.position + (written values).length

theorem readBack (values : List (BitVec 64)) : ReadBack values where
  appended := put_written values
  slice rest position encoding := run_written (Slice.gives _ rest position encoding)
  cursor := by
    intro σ _ cursor ends rest hfaces
    obtain ⟨after, hgives, hafter, hposition⟩ := hfaces.gives
    exact ⟨after, run_written hgives, hafter, hposition⟩

/-- Numbers of 64 bits are written as shortly as they can be and read back, and only groups of zeros
at the end keep a spelling from being what is written. -/
theorem encode_inverts_read :
    (∀ bits, WrittenShort bits) ∧
      (∀ bytes position encoding value after,
        read.run Slice.byteSource ⟨bytes, position, encoding⟩ = (.ok value, after) →
        after.unread = [] →
        (encode value = bytes ↔ bytes.length = 1 ∨ bytes.getLast? ≠ some 0)) ∧
      (∀ values, ReadBack values) ∧
      ∀ values values', written values = written values' → values = values' := by
  refine ⟨writtenShort, ?_, readBack, fun _ _ => written_inj⟩
  intro bytes position encoding value after hrun hcomplete
  obtain ⟨spelled, rest, rfl, hspelling, rfl, rfl⟩ := spelled_of_run hrun
  obtain rfl : rest = [] := hcomplete
  rw [List.append_nil]
  exact hspelling.encode_eq_iff

/-- Twice the same number, the second time with a group of zeros at its end. -/
theorem encode_inverts_read_padded :
    read.run Slice.byteSource ⟨[0xac, 0x02], 0, .utf8⟩ = (.ok 300, ⟨[], 2, .utf8⟩) ∧
      encode 300 = [0xac, 0x02] ∧
      read.run Slice.byteSource ⟨[0xac, 0x82, 0x00], 0, .utf8⟩ = (.ok 300, ⟨[], 3, .utf8⟩) ∧
      encode 300 ≠ [0xac, 0x82, 0x00] := by
  have hshort : read.run Slice.byteSource ⟨[0xac, 0x02], 0, .utf8⟩ = (.ok 300, ⟨[], 2, .utf8⟩) :=
    rfl
  have hlong : read.run Slice.byteSource ⟨[0xac, 0x82, 0x00], 0, .utf8⟩ =
      (.ok 300, ⟨[], 3, .utf8⟩) := rfl
  have hshortest := (encode_inverts_read.2.1 _ _ _ _ _ hshort rfl).mpr (.inr (by decide))
  have hpadded := mt (encode_inverts_read.2.1 _ _ _ _ _ hlong rfl).mp (by decide)
  exact ⟨hshort, hshortest, hlong, hpadded⟩

end Columnar.Varint
