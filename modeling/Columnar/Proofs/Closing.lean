import Columnar.Proofs.Cursor.Exchange
import Columnar.Proofs.Cursor.Offers

/-!
Closed cursors. Closing gives up the region and scratch storage, and nothing changes a cursor
after that. Every read is refused, also one of no bytes, so a decoder fails as soon as it reads.
The few that answer before they read, or without it, are told apart in `ReadStep.onClosed`.
-/
namespace Columnar

/-- What a client does with a cursor. -/
inductive Call where
  | read (step : ReadStep)
  | close
  deriving DecidableEq, Repr

namespace ReadStep

/-- An answer that comes after room was taken for it. -/
def withRoom (size : Nat) (answer : Except Fault Value) : Except Fault Value :=
  if maxAllocation < size then .error .capacityOverflow else answer

/-- What a step answers on a closed cursor. -/
def onClosed (encoding : TextEncoding) : ReadStep → Except Fault Value
  | .encoding => .ok (.encoding encoding)
  | .column .text rows =>
    withRoom (Column.textRoom * rows) (if rows = 0 then .ok (.column []) else .error (.error .closed))
  | .column .rawText rows =>
    withRoom (Column.bytesRoom * rows) (if rows = 0 then .ok (.column []) else .error (.error .closed))
  | .column (.fixedText 0) rows =>
    withRoom (Column.textRoom * rows) (.ok (.column (List.replicate rows (.text ""))))
  | .column (.dateTime64 precision) _ | .nullable (.dateTime64 precision) _ =>
    if maxPrecision < precision then .error (.error (.invalidPrecision precision))
    else .error (.error .closed)
  | _ => .error (.error .closed)

end ReadStep

/-- Texts of no bytes are not read. -/
theorem Column.run_fixedText_zero (source : ByteSource σ) (rows : Nat) (state : σ) :
    (fixedText 0 rows).run source state =
      (if maxAllocation < textRoom * rows then .error .capacityOverflow
        else .ok (List.replicate rows ""), state) := by
  rw [fixedText, Decoder.bind_eq, Decoder.textEncoding, Decoder.bind, Decoder.run]
  simp only [Decoder.done_bind, Decoder.bind_eq, Decoder.pure_eq, Decoder.run_reserve, if_true]
  split <;> rfl

variable [ChunkSource σ]

namespace Call

def run : Call → Cursor σ → Cursor σ
  | .read step, cursor => (step.run Cursor.byteSource cursor).2
  | .close, cursor => cursor.close

/-- The cursor after some calls. -/
def after : List Call → Cursor σ → Cursor σ
  | [], cursor => cursor
  | call :: calls, cursor => after calls (call.run cursor)

end Call

namespace Cursor

/-- The decoder is refused: it fails for the cursor being closed, and changes nothing. -/
def Refuses (cursor : Cursor σ) (decoder : Decoder α) : Prop :=
  decoder.run byteSource cursor = (.error (.error .closed), cursor)

variable {cursor : Cursor σ}

theorem readByte_of_closed (h : cursor.closed = true) :
    cursor.readByte = (.error (.error .closed), cursor) := by
  rw [readByte, if_pos h]

theorem readBytes_of_closed (h : cursor.closed = true) (size : Nat) :
    cursor.readBytes size = (.error (.error .closed), cursor) := by
  rw [readBytes, if_pos h]

theorem run_request_of_closed (h : cursor.closed = true) (request : Request) :
    request.run cursor = (.error (.error .closed), cursor) := by
  cases request with
  | byte =>
    rw [Request.run, readByte_of_closed h]
    rfl
  | bytes size => rw [Request.run, readBytes_of_closed h]

namespace Refuses

theorem bind {first : Decoder α} (h : cursor.Refuses first) (rest : α → Decoder β) :
    cursor.Refuses (first.bind rest) := by
  rw [Refuses] at h
  rw [Refuses, Decoder.run_bind, h]

theorem map {decoder : Decoder α} (h : cursor.Refuses decoder) (f : α → β) :
    cursor.Refuses (f <$> decoder) := by
  rw [Decoder.map_eq]
  exact h.bind _

theorem byte (h : cursor.closed = true) (next : UInt8 → Decoder α) :
    cursor.Refuses (.byte next) := by
  rw [Refuses, Decoder.run]
  simp only [byteSource, readByte_of_closed h]

theorem bytes (h : cursor.closed = true) (size : Nat) (next : Bytes → Decoder α) :
    cursor.Refuses (.bytes size next) := by
  rw [Refuses, Decoder.run]
  simp only [byteSource, readBytes_of_closed h]

theorem takeBytes (h : cursor.closed = true) (size : Nat) :
    cursor.Refuses (Decoder.takeBytes size) :=
  bytes h size _

theorem array (h : cursor.closed = true) (format : FixedWidth α) (rows : Nat) :
    cursor.Refuses (Column.array format rows) :=
  (takeBytes h _).bind _

theorem converted (h : cursor.closed = true) (convert : α → Except DecodeError β)
    (format : FixedWidth α) (rows : Nat) :
    cursor.Refuses (Column.converted convert (Column.array format rows)) :=
  (array h format rows).bind _

theorem nullMask (h : cursor.closed = true) (rows : Nat) : cursor.Refuses (Column.nullMask rows) :=
  (takeBytes h _).bind _

theorem nullable (h : cursor.closed = true) (column : Nat → Decoder (List α)) (rows : Nat) :
    cursor.Refuses (Column.nullable column rows) :=
  (nullMask h rows).bind _

theorem readLength (h : cursor.closed = true) : cursor.Refuses Varint.readLength :=
  byte h _

theorem sizedCell (h : cursor.closed = true) : cursor.Refuses Column.sizedCell :=
  (readLength h).bind _

theorem sizedText (h : cursor.closed = true) : cursor.Refuses Column.sizedText := by
  rw [Refuses, Column.sizedText, Decoder.bind_eq, Decoder.textEncoding, Decoder.bind, Decoder.run]
  exact (sizedCell h).bind _

theorem fixedText (h : cursor.closed = true) (size rows : Nat) :
    cursor.Refuses (Column.fixedText (size + 1) rows) := by
  rw [Refuses, Column.fixedText, Decoder.bind_eq, Decoder.textEncoding, Decoder.bind, Decoder.run]
  exact (takeBytes h _).bind _

theorem nullableConverted (h : cursor.closed = true) (convert : α → Except DecodeError β)
    (raw : Nat → Decoder (List α)) (rows : Nat) :
    cursor.Refuses (Column.nullableConverted convert raw rows) :=
  (nullMask h rows).bind _

end Refuses

/-- Rows that carry their own length are refused if there are any. -/
theorem run_times_of_closed {cell : Decoder α} (h : cursor.Refuses cell) (rows : Nat) :
    (Decoder.times rows cell).run byteSource cursor =
      (if rows = 0 then .ok [] else .error (.error .closed), cursor) := by
  cases rows with
  | zero => rfl
  | succ rows =>
    rw [Decoder.times_succ]
    exact h.bind _

theorem run_text_of_closed (h : cursor.closed = true) (rows : Nat) :
    (Column.text rows).run byteSource cursor =
      (if maxAllocation < Column.textRoom * rows then .error .capacityOverflow
        else if rows = 0 then .ok [] else .error (.error .closed), cursor) := by
  have hrows := run_times_of_closed ((Refuses.sizedCell h).bind fun cell =>
    .done (cursor.config.encoding.decode cell)) rows
  rw [Column.text, Decoder.bind_eq, Decoder.textEncoding, Decoder.bind, Decoder.run]
  simp only [Decoder.done_bind, Decoder.bind_eq, Decoder.pure_eq, Decoder.run_reserve]
  split
  · rfl
  · exact hrows

theorem run_rawText_of_closed (h : cursor.closed = true) (rows : Nat) :
    (Column.rawText rows).run byteSource cursor =
      (if maxAllocation < Column.bytesRoom * rows then .error .capacityOverflow
        else if rows = 0 then .ok [] else .error (.error .closed), cursor) := by
  have hrows := run_times_of_closed (Refuses.sizedCell h) rows
  simp only [Column.rawText, Decoder.bind_eq, Decoder.run_reserve]
  split
  · rfl
  · exact hrows

/-- The precision of timestamps is checked before they are read. -/
theorem run_scaled_of_closed {column : TickScale → Decoder α}
    (h : ∀ scale, cursor.Refuses (column scale)) (precision : Nat) :
    ((Decoder.ofExcept (TickScale.ofPrecision precision)).bind column).run byteSource cursor =
      (if maxPrecision < precision then .error (.error (.invalidPrecision precision))
        else .error (.error .closed), cursor) := by
  rw [TickScale.ofPrecision]
  split
  · rfl
  · exact h _

/-- A closed cursor answers every step as `ReadStep.onClosed` says, and does not change. -/
theorem run_of_closed (h : cursor.closed = true) (step : ReadStep) :
    step.run byteSource cursor = (step.onClosed cursor.config.encoding, cursor) := by
  rw [ReadStep.run_eq readsWords]
  cases step with
  | byte => exact (Refuses.byte h _).map _
  | bytes size => exact (Refuses.takeBytes h size).map _
  | varint => exact (Refuses.readLength h).map _
  | length => exact (Refuses.readLength h).map _
  | word => exact (Refuses.takeBytes h 8).map _
  | sizedText => exact (Refuses.sizedText h).map _
  | encoding => rfl
  | nullMask rows => exact (Refuses.nullMask h rows).map _
  | column type rows =>
    cases type with
    | number type => exact (Refuses.array h _ rows).map _
    | bytes size => exact (((Refuses.takeBytes h _).bind _).map _).map _
    | text =>
      simp only [ReadStep.decoder, ColumnType.read, Decoder.run_map, run_text_of_closed h,
        ReadStep.onClosed, ReadStep.withRoom]
      split
      · rfl
      · split <;> rfl
    | rawText =>
      simp only [ReadStep.decoder, ColumnType.read, Decoder.run_map, run_rawText_of_closed h,
        ReadStep.onClosed, ReadStep.withRoom]
      split
      · rfl
      · split <;> rfl
    | fixedText size =>
      cases size with
      | zero =>
        simp only [ReadStep.decoder, ColumnType.read, Decoder.run_map, Column.run_fixedText_zero,
          ReadStep.onClosed, ReadStep.withRoom]
        split
        · rfl
        · simp [Except.map]
      | succ size => exact ((Refuses.fixedText h size rows).map _).map _
    | uuid => exact ((Refuses.array h _ rows).map _).map _
    | ipv4 => exact ((Refuses.array h _ rows).map _).map _
    | ip => exact ((Refuses.array h _ rows).map _).map _
    | date => exact ((Refuses.converted h _ _ rows).map _).map _
    | date32 => exact ((Refuses.converted h _ _ rows).map _).map _
    | dateTime => exact ((Refuses.converted h _ _ rows).map _).map _
    | dateTime64 precision =>
      have hrows (scale : TickScale) :
          cursor.Refuses (Column.converted scale.timestamp (Column.rawDateTime64 rows)) :=
        Refuses.converted h _ _ rows
      simp only [ReadStep.decoder, ColumnType.read, Decoder.run_map, Column.dateTime64,
        Decoder.bind_eq, ReadStep.onClosed, run_scaled_of_closed hrows]
      split <;> rfl
  | nullable type rows =>
    cases type with
    | date => exact ((Refuses.nullableConverted h _ _ rows).map _).map _
    | date32 => exact ((Refuses.nullableConverted h _ _ rows).map _).map _
    | dateTime => exact ((Refuses.nullableConverted h _ _ rows).map _).map _
    | dateTime64 precision =>
      simp only [ReadStep.decoder, ColumnType.readNullable, Decoder.run_map,
        Column.nullableDateTime64, Decoder.bind_eq, ReadStep.onClosed,
        run_scaled_of_closed fun scale => Refuses.nullableConverted h scale.timestamp _ rows]
      split <;> rfl
    | _ => exact (Refuses.nullable h _ rows).map _

theorem decoder_of_closed (h : cursor.closed = true) (decoder : Decoder α) :
    (decoder.run byteSource cursor).2 = cursor := by
  induction decoder with
  | done => rfl
  | fail => rfl
  | byte next => rw [Refuses.byte h]
  | bytes size next => rw [Refuses.bytes h]
  | encoding next ih => exact ih _

omit [ChunkSource σ] in
theorem close_of_closed (h : cursor.closed = true) : cursor.close = cursor := by
  rw [close, if_pos h]

omit [ChunkSource σ] in
theorem closed_close (cursor : Cursor σ) : cursor.close.closed = true := by
  rw [close]
  split
  · next h => exact h
  · rfl

/-- No call changes a closed cursor. -/
theorem calls_of_closed (h : cursor.closed = true) (calls : List Call) :
    Call.after calls cursor = cursor := by
  induction calls with
  | nil => rfl
  | cons call calls ih =>
    cases call with
    | read step => rw [Call.after, Call.run, run_of_closed h, ih]
    | close => rw [Call.after, Call.run, close_of_closed h, ih]

theorem closed_run (request : Request) (cursor : Cursor σ) :
    (request.run cursor).2.closed = cursor.closed := by
  have hexchange := exchange request cursor
  generalize request.run cursor = outcome at hexchange ⊢
  cases hexchange with
  | served _ _ _ _ _ _ _ _ hclosed => exact hclosed
  | refused => rfl
  | overflowed _ hstraddles =>
    obtain ⟨_, _, _, _, _, _, hrefilled⟩ := refilled_eq (straddles_iff.mp hstraddles).2.2.1
    rw [hrefilled]
    rfl
  | failed _ _ _ _ _ hclosed => exact hclosed
  | ended _ _ _ _ hclosed => exact hclosed

/-- A cursor that was closed has given up all its bytes and all its storage. -/
theorem Reached.shut {config : DecoderConfig} (h : Reached config cursor)
    (hclosed : cursor.closed = true) :
    cursor = { cursor with region := .chunk [] [], scratch := [], scratchCapacity := 0 } := by
  induction h with
  | start hstart =>
    obtain ⟨_, rfl⟩ := ofConfig_eq_ok_iff.mp hstart
    cases hclosed
  | @read cursor request _ ih =>
    rw [closed_run] at hclosed
    rw [run_request_of_closed hclosed]
    exact ih hclosed
  | @close cursor _ ih =>
    rw [Cursor.close]
    split
    · next hshut => exact ih hshut
    · rfl

theorem Reached.close_eq {config : DecoderConfig} (h : Reached config cursor) :
    cursor.close = { cursor with
      region := .chunk [] []
      scratch := []
      scratchCapacity := 0
      closed := true } := by
  by_cases hclosed : cursor.closed = true
  · rw [close_of_closed hclosed, ← hclosed]
    exact h.shut hclosed
  · rw [Cursor.close, if_neg hclosed]

/-- All that a closed cursor still does. -/
structure Shut (cursor : Cursor σ) : Prop where
  byte : cursor.readByte = (.error (.error .closed), cursor)
  bytes : ∀ size, cursor.readBytes size = (.error (.error .closed), cursor)
  step : ∀ step : ReadStep,
    step.run byteSource cursor = (step.onClosed cursor.config.encoding, cursor)
  nullable : ∀ {α : Type} (column : Nat → Decoder (List α)) (rows : Nat),
    cursor.Refuses (Column.nullable column rows)
  nullableConverted : ∀ {α β : Type} (convert : α → Except DecodeError β)
    (raw : Nat → Decoder (List α)) (rows : Nat),
    cursor.Refuses (Column.nullableConverted convert raw rows)
  decoder : ∀ {α : Type} (decoder : Decoder α), (decoder.run byteSource cursor).2 = cursor

theorem shut_of_closed (h : cursor.closed = true) : cursor.Shut where
  byte := readByte_of_closed h
  bytes := readBytes_of_closed h
  step := run_of_closed h
  nullable := Refuses.nullable h
  nullableConverted := Refuses.nullableConverted h
  decoder := decoder_of_closed h

end Cursor

/-- Closing takes the unread bytes and the storage from a cursor, whatever has been done with it,
and leaves the rest of it alone. It is final: no call changes a closed cursor or asks its source,
and the only steps that do not fail for it are those that `ReadStep.onClosed` names. -/
theorem close_is_final {config : DecoderConfig} {cursor : Cursor σ} (h : cursor.Reached config) :
    cursor.close = { cursor with
      region := .chunk [] []
      scratch := []
      scratchCapacity := 0
      closed := true } ∧
    cursor.close.buffered = 0 ∧ cursor.close.Shut ∧
    ∀ calls : List Call, Call.after calls cursor.close = cursor.close ∧
      (Call.after calls cursor.close.recorded).source.answers = [] := by
  have hclosed := cursor.closed_close
  refine ⟨h.close_eq, ?_, Cursor.shut_of_closed hclosed, fun calls => ⟨?_, ?_⟩⟩
  · rw [Cursor.buffered, h.close_eq]
    rfl
  · exact Cursor.calls_of_closed hclosed calls
  · have hrecorded : cursor.close.recorded.closed = true := hclosed
    rw [Cursor.calls_of_closed hrecorded]
    rfl

def closingChunks : List Bytes := [[1, 2], [3, 4], [5]]

/-- Three bytes, the last two of them assembled. -/
def closingReads : List Request := [.byte, .bytes 2]

/-- A column of no texts and one with no rows but a null mask, and another attempt to close. -/
def callsOnClosed : List Call :=
  [.read (.column .text 0), .read (.nullable .text 0), .close, .read (.bytes 0)]

/-- The byte that is left of the second chunk is given up, and the third chunk stays with the
source. -/
theorem close_is_final_assembled :
    ((Cursor.ofSource closingChunks).after closingReads).buffered = 1 ∧
    (Call.after callsOnClosed ((Cursor.ofSource closingChunks).after closingReads).close).source =
      [[5]] ∧
    ((ReadStep.column .text 0).run Cursor.byteSource
      ((Cursor.ofSource closingChunks).after closingReads).close).1 = .ok (.column []) ∧
    ((ReadStep.nullable .text 0).run Cursor.byteSource
      ((Cursor.ofSource closingChunks).after closingReads).close).1 = .error (.error .closed) := by
  have hstart : Cursor.ofConfig {} closingChunks = .ok (Cursor.ofSource closingChunks) := by rfl
  have hlaw := close_is_final ((Cursor.Reached.start hstart).after closingReads)
  obtain ⟨_, _, hshut, hcalls⟩ := hlaw
  refine ⟨by decide +kernel, ?_, ?_, ?_⟩
  · rw [(hcalls callsOnClosed).1]
    decide +kernel
  · rw [hshut.step]
    rfl
  · rw [hshut.step]
    rfl

end Columnar
