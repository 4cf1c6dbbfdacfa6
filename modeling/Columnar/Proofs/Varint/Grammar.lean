import Mathlib.Logic.ExistsUnique
import Columnar.Proofs.Bytewise
import Columnar.Proofs.Checked.Varint

/-!
What a varint reads. A content begins with a spelling, or ten of its bytes are no spelling, or it
ends before the one or the other shows. It is exactly one of the three, and it decides the result
and the number of bytes taken, in a slice and in a cursor over any chunks.
-/
namespace Columnar

namespace ByteSource

variable {source : ByteSource σ} {before after : σ}

theorem Gives.of_append {front back : Bytes} (h : source.Gives before (front ++ back) after) :
    ∃ middle, source.Gives before front middle ∧ source.Gives middle back after := by
  induction front generalizing before with
  | nil => exact ⟨before, .none before, h⟩
  | cons b front ih =>
    cases h with
    | more hread hrest =>
      obtain ⟨middle, hfront, hback⟩ := ih hrest
      exact ⟨middle, .more hread hfront, hback⟩

theorem Gives.readByte {b : UInt8} (h : source.Gives before [b] after) :
    source.readByte before = (.ok b, after) := by
  cases h with
  | more hread hrest =>
    cases hrest
    exact hread

end ByteSource

namespace Varint

/-- The result of a varint that begins a content, and the number of bytes that it takes. -/
inductive Reading : (content : Bytes) → Except Fault Nat → (count : Nat) → Prop where
  | number {bytes : Bytes} (h : Spelling bytes) (rest : Bytes) :
    Reading (bytes ++ rest) (.ok (number bytes)) bytes.length
  | overflow {bytes : Bytes} (h : Excessive bytes) (rest : Bytes) :
    Reading (bytes ++ rest) (.error (.error .varintOverflow)) bytes.length
  | ended {content : Bytes} (h : Unfinished content) :
    Reading content (.error (.error (.endOfStream 1 0))) content.length

/-- One of the three happens: each byte either decides or leaves the number open. -/
theorem exists_reading (content : Bytes) : ∃ result count, Reading content result count := by
  suffices hopen : ∀ front : Bytes, Unfinished front →
      ∃ result count, Reading (front ++ content) result count from hopen [] unfinished_nil
  induction content with
  | nil =>
    intro front hfront
    rw [List.append_nil]
    exact ⟨_, _, .ended hfront⟩
  | cons b content ih =>
    intro front hfront
    rw [List.append_cons]
    by_cases hlast : b.toNat < 128
    · by_cases hexcess : front.length = 9 ∧ 1 < b.toNat
      · exact ⟨_, _, .overflow (.mk hfront hexcess.1 hexcess.2) content⟩
      · have hbit : front.length = 9 → b.toNat ≤ 1 := fun hlength =>
          Nat.not_lt.mp fun hlarge => hexcess ⟨hlength, hlarge⟩
        exact ⟨_, _, .number (.mk hfront hlast hbit) content⟩
    · by_cases hlength : front.length = 9
      · exact ⟨_, _, .overflow (.mk hfront hlength (by omega)) content⟩
      · exact ih _ (hfront.concat hlength (by omega))

section Run

variable {source : ByteSource σ} {before middle after : σ} {front bytes : Bytes}

/-- Bytes that leave the number open add their groups and move the weight to their end. -/
theorem run_front (groups weight value : Nat) (hgives : source.Gives before front after)
    (hfront : ∀ b ∈ front, 128 ≤ b.toNat) :
    (readFrom (groups + front.length) weight value).run source before =
      (readFrom groups (2 ^ (7 * front.length) * weight) (value + number front * weight)).run
        source after := by
  -- each byte multiplies the weight, so the statement is about any weight and not about the first
  induction hgives generalizing weight value with
  | none state => simp
  | @more before middle after b front hread hrest ih =>
    have hb := hfront b List.mem_cons_self
    have hbyte := b.toNat_lt
    have hgroup : b.toNat - 128 = b.toNat % 128 := by omega
    have hpow : 2 ^ (7 * (front.length + 1)) * weight = 2 ^ (7 * front.length) * (128 * weight) := by
      rw [Nat.mul_succ, Nat.pow_add, Nat.mul_assoc]
    have hlater := ih (128 * weight) (value + b.toNat % 128 * weight)
      fun c hc => hfront c (List.mem_cons_of_mem b hc)
    rw [List.length_cons, ← Nat.add_assoc, readFrom, Decoder.run_byte, hread, Outcome.andThen,
      if_neg (by omega), hgroup, hlater, hpow, number_cons, Nat.add_mul, Nat.mul_right_comm 128,
      Nat.mul_comm (128 * weight), Nat.add_assoc]

theorem run_unfinished_front (hgives : source.Gives before front after) (hfront : Unfinished front) :
    read.run source before =
      (readFrom (9 - front.length) (2 ^ (7 * front.length)) (number front)).run source after := by
  have hshort := hfront.short
  rw [maxVarintLength] at hshort
  have hread := run_front (9 - front.length) 1 0 hgives hfront.continues
  rw [Nat.sub_add_cancel (by omega), Nat.mul_one, Nat.mul_one, Nat.zero_add] at hread
  exact hread

theorem run_spelling (hgives : source.Gives before bytes after) (h : Spelling bytes) :
    read.run source before = (.ok (number bytes), after) := by
  cases h with
  | @mk front last hfront hlast hbit =>
    obtain ⟨middle, hfirst, hend⟩ := hgives.of_append
    rw [run_unfinished_front hfirst hfront, number_concat front hlast,
      Nat.mul_comm (2 ^ (7 * front.length))]
    cases hgroups : 9 - front.length with
    | zero =>
      have hshort := hfront.short
      rw [maxVarintLength] at hshort
      rw [readFrom, Decoder.run_byte, hend.readByte, Outcome.andThen,
        if_neg (Nat.not_lt.mpr (hbit (by omega)))]
      rfl
    | succ groups =>
      rw [readFrom, Decoder.run_byte, hend.readByte, Outcome.andThen, if_pos hlast]
      rfl

theorem run_excessive (hgives : source.Gives before bytes after) (h : Excessive bytes) :
    read.run source before = (.error (.error .varintOverflow), after) := by
  cases h with
  | @mk front last hfront hlength hlast =>
    obtain ⟨middle, hfirst, hend⟩ := hgives.of_append
    rw [run_unfinished_front hfirst hfront, hlength, readFrom, Decoder.run_byte, hend.readByte,
      Outcome.andThen, if_pos hlast]
    rfl

theorem run_unfinished {fault : Fault} (hgives : source.Gives before bytes middle)
    (h : Unfinished bytes) (hread : source.readByte middle = (.error fault, after)) :
    read.run source before = (.error fault, after) := by
  rw [run_unfinished_front hgives h]
  cases 9 - bytes.length with
  | zero => rw [readFrom, Decoder.run_byte, hread, Outcome.andThen]
  | succ groups => rw [readFrom, Decoder.run_byte, hread, Outcome.andThen]

end Run

variable {content : Bytes} {result : Except Fault Nat} {count : Nat}

theorem Reading.run_slice (h : Reading content result count) (position : Nat)
    (encoding : TextEncoding) :
    read.run Slice.byteSource ⟨content, position, encoding⟩ =
      (result, ⟨content.drop count, position + count, encoding⟩) := by
  cases h with
  | number hbytes rest =>
    rw [List.drop_left]
    exact run_spelling (Slice.gives _ rest position encoding) hbytes
  | overflow hbytes rest =>
    rw [List.drop_left]
    exact run_excessive (Slice.gives _ rest position encoding) hbytes
  | ended hcontent =>
    have hgives := Slice.gives content [] position encoding
    rw [List.append_nil] at hgives
    rw [List.drop_length]
    exact run_unfinished hgives hcontent rfl

/-- No content can be read in two ways. -/
theorem Reading.unique {result' : Except Fault Nat} {count' : Nat}
    (h : Reading content result count) (h' : Reading content result' count') :
    result = result' ∧ count = count' := by
  have hrun := (h.run_slice 0 .utf8).symm.trans (h'.run_slice 0 .utf8)
  obtain ⟨hresult, hafter⟩ := Prod.mk.inj hrun
  have hposition := congrArg Slice.position hafter
  simp only [Nat.zero_add] at hposition
  exact ⟨hresult, hposition⟩

/-- What a slice read is a spelling that its content begins with. -/
theorem spelled_of_run {content : Bytes} {position value : Nat} {encoding : TextEncoding}
    {after : Slice}
    (hrun : read.run Slice.byteSource ⟨content, position, encoding⟩ = (.ok value, after)) :
    ∃ bytes rest, content = bytes ++ rest ∧ Spelling bytes ∧ value = number bytes ∧
      after = ⟨rest, position + bytes.length, encoding⟩ := by
  obtain ⟨result, count, hreading⟩ := exists_reading content
  obtain ⟨hresult, hafter⟩ := Prod.mk.inj (hrun.symm.trans (hreading.run_slice position encoding))
  cases hreading with
  | number hbytes rest =>
    rw [List.drop_left] at hafter
    exact ⟨_, rest, rfl, hbytes, Except.ok.inj hresult, hafter⟩
  | overflow => cases hresult
  | ended => cases hresult

theorem Reading.run_cursor [ChunkSource σ] {cursor : Cursor σ} {ends : Prop}
    (h : Reading content result count) (hfaces : cursor.Faces content ends)
    (hends : Unfinished content → ends) :
    ∃ after, read.run Cursor.byteSource cursor = (result, after) ∧
      after.position = cursor.position + count ∧
      (¬ Unfinished content → after.Faces (content.drop count) ends) := by
  cases h with
  | number hbytes rest =>
    obtain ⟨after, hgives, hafter, hposition⟩ := hfaces.gives
    rw [List.drop_left]
    exact ⟨after, run_spelling hgives hbytes, hposition, fun _ => hafter⟩
  | overflow hbytes rest =>
    obtain ⟨after, hgives, hafter, hposition⟩ := hfaces.gives
    rw [List.drop_left]
    exact ⟨after, run_excessive hgives hbytes, hposition, fun _ => hafter⟩
  | ended hcontent =>
    rw [← List.append_nil content] at hfaces
    obtain ⟨middle, hgives, hmiddle, hposition⟩ := hfaces.gives
    obtain ⟨after, hread, hafter⟩ := hmiddle.readByte_nil (hends hcontent)
    exact ⟨after, run_unfinished hgives hcontent hread, hafter.trans hposition, absurd hcontent⟩

/-- A decoder that reads whatever is spelled and nothing else. -/
structure ReadsSpellings (decoder : Decoder Nat) : Prop where
  slice : ∀ {content : Bytes} {result : Except Fault Nat} {count : Nat},
    Reading content result count → ∀ position encoding,
      decoder.run Slice.byteSource ⟨content, position, encoding⟩ =
        (result, ⟨content.drop count, position + count, encoding⟩)
  cursor : ∀ {σ : Type} [ChunkSource σ] {cursor : Cursor σ} {ends : Prop} {content : Bytes}
    {result : Except Fault Nat} {count : Nat}, Reading content result count →
      cursor.Faces content ends → (Unfinished content → ends) →
      ∃ after, decoder.run Cursor.byteSource cursor = (result, after) ∧
        after.position = cursor.position + count ∧
        (¬ Unfinished content → after.Faces (content.drop count) ends)

/-- Varints and lengths are read by one grammar, and every content has exactly one reading. Groups
of zeros at the end leave the number as it is. -/
theorem reads_spellings :
    Checked.Varint.read = some <$> read ∧ Checked.Varint.readLength = some <$> readLength ∧
      ReadsSpellings read ∧ ReadsSpellings readLength ∧
      (∀ {σ : Type} (source : ByteSource σ) (state : σ),
        ReadStep.length.run source state = ReadStep.varint.run source state) ∧
      (∀ content, ∃! reading : Except Fault Nat × Nat, Reading content reading.1 reading.2) ∧
      (∀ bytes, Spelling bytes → number bytes < 2 ^ 64) ∧
      ∀ front last padding, Spelling (front ++ [last]) →
        front.length + padding + 1 < maxVarintLength →
        Spelling (front ++ [last ||| 0x80] ++ List.replicate padding 0x80 ++ [0]) ∧
          number (front ++ [last ||| 0x80] ++ List.replicate padding 0x80 ++ [0]) =
            number (front ++ [last]) := by
  have hreads : ReadsSpellings read := ⟨Reading.run_slice, Reading.run_cursor⟩
  refine ⟨Checked.Varint.read_eq, Checked.Varint.readLength_eq, hreads, hreads, fun _ _ => rfl,
    ?_, fun _ => Spelling.number_lt, fun _ _ _ => Spelling.pad⟩
  intro content
  obtain ⟨result, count, hreading⟩ := exists_reading content
  refine ⟨(result, count), hreading, ?_⟩
  intro other hother
  obtain ⟨hresult, hcount⟩ := hother.unique hreading
  exact Prod.ext hresult hcount

/-- Zero in three bytes, cut behind the first of them, with one byte behind it. -/
def paddedChunks : List Chunk := [⟨0x80, []⟩, ⟨0x80, [0]⟩, ⟨7, []⟩]

theorem reads_spellings_padded :
    Spelling ([] ++ [0]) ∧ Spelling [0x80, 0x80, 0] ∧ number [0x80, 0x80, 0] = number [0] ∧
      Cursor.Faces { source := paddedChunks.map Chunk.bytes, config := {} } [0x80, 0x80, 0, 7] True ∧
      ∃ after, read.run Cursor.byteSource
          ({ source := paddedChunks.map Chunk.bytes, config := {} } : Cursor (List Bytes)) =
          (.ok 0, after) ∧ after.position = 3 ∧ after.Faces [7] True := by
  have hzero : Spelling ([] ++ [0]) := .mk unfinished_nil (by decide) (by decide)
  obtain ⟨hspelling, hnumber⟩ := reads_spellings.2.2.2.2.2.2.2 [] 0 1 hzero (by decide)
  have hdelivers : Delivers (paddedChunks.map Chunk.bytes ++ []) paddedChunks :=
    delivers_list paddedChunks rfl
  have hfaces : Cursor.Faces { source := paddedChunks.map Chunk.bytes, config := {} }
      [0x80, 0x80, 0, 7] True :=
    Cursor.faces_ofConfig (Cursor.ofConfig_eq_ok_iff.mpr ⟨DecoderConfig.validate_default, rfl⟩)
      hdelivers
  obtain ⟨after, hrun, hposition, hafter⟩ :=
    reads_spellings.2.2.1.cursor (.number hspelling [7]) hfaces (fun _ => trivial)
  have hopen : ¬ Unfinished [0x80, 0x80, 0, 7] := fun h =>
    absurd (h.continues 7 (by decide)) (by decide)
  exact ⟨hzero, hspelling, hnumber, hfaces, after, hrun, hposition, hafter hopen⟩

end Varint

end Columnar
