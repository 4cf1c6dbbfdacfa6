import Columnar.Proofs.Cursor.Offers
import Columnar.Proofs.Masking
import Columnar.Proofs.Ticks

/-!
Nullable columns of dates and timestamps. They are read before they are converted: the mask and the
whole block are taken, null rows and all, so the next column begins where it should even if a value
is out of range. What stands in a null row never shows.
-/
namespace Columnar

namespace Bytes

/-- A cell is a window of its block. -/
theorem cells_eq (size count : Nat) (block : Bytes) :
    cells size count block =
      (List.range count).map fun row => (block.drop (size * row)).take size := by
  induction count generalizing block with
  | zero => rfl
  | succ count ih =>
    rw [cells_succ, ih, List.range_succ_eq_map, List.map_cons, List.map_map]
    simp [Function.comp_def, Nat.mul_succ, Nat.add_comm]

end Bytes

namespace Decoder

theorem run_ofExcept (source : ByteSource σ) (answer : Except DecodeError α) (state : σ) :
    (ofExcept answer).run source state = (answer.mapError .error, state) := by
  cases answer with
  | error cause => rfl
  | ok value => rfl

end Decoder

namespace Column

variable (source : ByteSource σ) (state : σ)

theorem run_array (format : FixedWidth α) (rows : Nat) :
    (array format rows).run source state =
      (source.readBytes (mulSat format.size rows) state).andThen fun block after =>
        (.ok ((Bytes.wholeCells format.size block).map format.decode), after) :=
  Decoder.run_bytes source _ _ state

theorem run_converted (convert : α → Except DecodeError β) (raw : Decoder (List α)) :
    (converted convert raw).run source state =
      (raw.run source state).andThen fun values after =>
        ((values.mapM convert).mapError .error, after) := by
  rw [converted, Decoder.bind_eq, Decoder.run_bind]
  rcases raw.run source state with ⟨result, after⟩
  cases result with
  | error fault => rfl
  | ok values => exact Decoder.run_ofExcept source _ after

end Column

/-- A null mask and the block of values behind it, as many as the mask has rows. The length of
each fits a machine word. -/
structure MaskedBlock (format : FixedWidth α) where
  mask : NullMask
  block : Bytes
  length_block : block.length = format.size * mask.length
  mask_le : mask.length ≤ maxSize
  block_le : block.length ≤ maxSize

namespace MaskedBlock

variable {format : FixedWidth α}

def rows (payload : MaskedBlock format) : Nat := payload.mask.length

def bytes (payload : MaskedBlock format) : Bytes := payload.mask.entries ++ payload.block

/-- The bytes of one row, null or not. -/
def slot (payload : MaskedBlock format) (row : Nat) : Bytes :=
  (payload.block.drop (format.size * row)).take format.size

def value (payload : MaskedBlock format) (row : Nat) : α := format.decode (payload.slot row)

def values (payload : MaskedBlock format) : List α := (List.range payload.rows).map payload.value

/-- What the values of the block are converted to. -/
def result (payload : MaskedBlock format) (convert : α → Except DecodeError β) :
    Except DecodeError (List (Option β)) :=
  payload.mask.tryMap convert payload.values

/-- The values that the conversion is applied to, in order. -/
def called (payload : MaskedBlock format) (convert : α → Except DecodeError β) : List α :=
  (payload.mask.tryMapRecorded convert payload.values).2

variable (payload : MaskedBlock format)

theorem wholeCells_eq (hpos : 0 < format.size) :
    (Bytes.wholeCells format.size payload.block).map format.decode = payload.values := by
  rw [Bytes.wholeCells_block hpos payload.length_block, Bytes.cells_eq, List.map_map]
  rfl

theorem tryMapRecorded_eq (convert : α → Except DecodeError β) :
    payload.mask.tryMapRecorded convert payload.values =
      (payload.result convert, payload.called convert) := by
  rw [result, ← NullMask.tryMapRecorded_fst]
  rfl

variable {σ : Type} {source : ByteSource σ} {before middle after : σ}

/-- A source that has the mask next. -/
theorem run_nullMask
    (hmask : source.readBytes payload.rows before = (.ok payload.mask.entries, middle)) :
    (Column.nullMask payload.rows).run source before = (.ok payload.mask, middle) := by
  have hsize : mulSat NullMask.entrySize payload.rows = payload.rows := by
    have hone : NullMask.entrySize * payload.rows = payload.rows := Nat.one_mul _
    rw [mulSat_eq _ _ (by rw [hone]; exact payload.mask_le), hone]
  rw [Column.nullMask, hsize, Decoder.bind_eq, Decoder.run_bind, Decoder.run_takeBytes,
    hmask]
  rfl

/-- A source that has the block next. -/
theorem run_array (hpos : 0 < format.size)
    (hblock : source.readBytes payload.block.length before = (.ok payload.block, after)) :
    (Column.array format payload.rows).run source before = (.ok payload.values, after) := by
  have hsize : mulSat format.size payload.rows = payload.block.length := by
    have hle : format.size * payload.rows ≤ maxSize := by
      rw [rows, ← payload.length_block]
      exact payload.block_le
    rw [mulSat_eq _ _ hle, payload.length_block]
    rfl
  rw [Column.run_array, hsize, hblock, ← payload.wholeCells_eq hpos]
  rfl

theorem run_nullableConverted (hpos : 0 < format.size) (convert : α → Except DecodeError β)
    (hmask : source.readBytes payload.rows before = (.ok payload.mask.entries, middle))
    (hblock : source.readBytes payload.block.length middle = (.ok payload.block, after)) :
    (Column.nullableConverted convert (Column.array format) payload.rows).run source before =
      ((payload.result convert).mapError .error, after) := by
  have harray := payload.run_array hpos hblock
  rw [Column.nullableConverted, Decoder.bind_eq, Decoder.run_bind, payload.run_nullMask hmask]
  simp only [Decoder.bind_eq, Decoder.run_bind]
  rw [← rows, harray]
  exact Decoder.run_ofExcept source _ after

theorem run_converted (hpos : 0 < format.size) (convert : α → Except DecodeError β)
    (hblock : source.readBytes payload.block.length before = (.ok payload.block, after)) :
    (Column.converted convert (Column.array format payload.rows)).run source before =
      ((payload.values.mapM convert).mapError .error, after) := by
  rw [Column.run_converted, payload.run_array hpos hblock]
  rfl

end MaskedBlock

/-- What a nullable column of converted values is. It reads a mask and a block from any source that
has them next, and its values are those of the plain column wherever the mask shows them. -/
structure MaskedColumn (format : FixedWidth α) (convert : α → Except DecodeError β)
    (column : (rows : Nat) → Decoder (List (Option β)))
    (plain : (rows : Nat) → Decoder (List β)) : Prop where
  sources : ∀ (payload : MaskedBlock format) (σ : Type) (source : ByteSource σ)
    (before middle after : σ),
    source.readBytes payload.rows before = (.ok payload.mask.entries, middle) →
    source.readBytes payload.block.length middle = (.ok payload.block, after) →
    (column payload.rows).run source before = ((payload.result convert).mapError .error, after)
  slices : ∀ (payload : MaskedBlock format) (rest : Bytes) (position : Nat)
    (encoding : TextEncoding),
    (column payload.rows).run Slice.byteSource ⟨payload.bytes ++ rest, position, encoding⟩ =
      ((payload.result convert).mapError .error,
        ⟨rest, position + (payload.rows + format.size * payload.rows), encoding⟩)
  cursors : ∀ (payload : MaskedBlock format) (σ : Type) [ChunkSource σ] (config : DecoderConfig)
    (cursor : Cursor σ) (rest : Bytes), cursor.Reached config →
    config.initialScratchCapacity ≤ 2 ^ 62 →
    payload.rows ≤ min config.maxReadSize (2 ^ 61) →
    payload.block.length ≤ min config.maxReadSize (2 ^ 61) →
    cursor.Offers (payload.bytes ++ rest) →
    ∃ after, (column payload.rows).run Cursor.byteSource cursor =
        ((payload.result convert).mapError .error, after) ∧
      after.position = cursor.position + (payload.rows + format.size * payload.rows) ∧
      after.Offers rest
  rowWise : ∀ payload : MaskedBlock format,
    payload.mask.tryMapRecorded convert payload.values =
      (payload.result convert, payload.called convert) ∧
    NullMask.RowWise payload.mask convert payload.value (payload.result convert)
      (payload.called convert)
  hidden : ∀ payload payload' : MaskedBlock format, payload.rows = payload'.rows →
    (∀ row : Nat, payload.mask.entries[row]? = some 0 ↔ payload'.mask.entries[row]? = some 0) →
    (∀ row : Nat, payload.mask.entries[row]? = some 0 → payload.slot row = payload'.slot row) →
    payload.result convert = payload'.result convert ∧
      payload.called convert = payload'.called convert
  plain : ∀ (payload : MaskedBlock format) (σ : Type) (source : ByteSource σ) (before after : σ),
    source.readBytes payload.block.length before = (.ok payload.block, after) →
    ∃ answer : Except DecodeError (List β),
      (plain payload.rows).run source before = (answer.mapError .error, after) ∧
      (∀ values, answer = .ok values →
        payload.result convert = .ok (payload.mask.apply values)) ∧
      ((∀ entry ∈ payload.mask.entries, entry = 0) →
        payload.result convert = answer.map (List.map some))

namespace MaskedBlock

variable {format : FixedWidth α} (payload : MaskedBlock format)

/-- A cursor that has mask and block on their way. -/
theorem reads_of_offers {σ : Type} [ChunkSource σ] {config : DecoderConfig} {cursor : Cursor σ}
    {rest : Bytes} (hreached : cursor.Reached config)
    (hscratch : config.initialScratchCapacity ≤ 2 ^ 62)
    (hmask : payload.rows ≤ min config.maxReadSize (2 ^ 61))
    (hblock : payload.block.length ≤ min config.maxReadSize (2 ^ 61))
    (hoffers : cursor.Offers (payload.bytes ++ rest)) :
    ∃ middle after, cursor.readBytes payload.rows = (.ok payload.mask.entries, middle) ∧
      middle.readBytes payload.block.length = (.ok payload.block, after) ∧
      after.position = cursor.position + (payload.rows + format.size * payload.rows) ∧
      after.Offers rest := by
  rw [bytes, List.append_assoc] at hoffers
  obtain ⟨middle, hfirst, hlater, hkept, hmiddle⟩ := hoffers.readBytes hreached hscratch hmask
  obtain ⟨after, hsecond, hrest, _, hafter⟩ := hlater.readBytes hkept hscratch hblock
  refine ⟨middle, after, hfirst, hsecond, ?_, hrest⟩
  rw [hafter, hmiddle, payload.length_block, Nat.add_assoc]
  rfl

theorem hidden_congr (convert : α → Except DecodeError β) {payload payload' : MaskedBlock format}
    (hrows : payload.rows = payload'.rows)
    (hnull : ∀ row : Nat,
      payload.mask.entries[row]? = some 0 ↔ payload'.mask.entries[row]? = some 0)
    (hslot : ∀ row : Nat, payload.mask.entries[row]? = some 0 →
      payload.slot row = payload'.slot row) :
    (payload.result convert, payload.called convert) =
      (payload'.result convert, payload'.called convert) := by
  rw [← tryMapRecorded_eq, ← tryMapRecorded_eq]
  refine NullMask.tryMapRecorded_congr convert hrows hnull fun row hrow => ?_
  rw [value, value, hslot row hrow]

end MaskedBlock

/-- Every conversion of fixed-width values makes a masked column. -/
theorem maskedColumn {format : FixedWidth α} (hpos : 0 < format.size)
    {convert : α → Except DecodeError β} {column : (rows : Nat) → Decoder (List (Option β))}
    {plain : (rows : Nat) → Decoder (List β)}
    (hcolumn : ∀ rows, column rows =
      Column.nullableConverted convert (Column.array format) rows)
    (hplain : ∀ rows, plain rows = Column.converted convert (Column.array format rows)) :
    MaskedColumn format convert column plain := by
  constructor
  case sources =>
    intro payload σ source before middle after hmask hblock
    rw [hcolumn]
    exact payload.run_nullableConverted hpos convert hmask hblock
  case slices =>
    intro payload rest position encoding
    rw [hcolumn, MaskedBlock.bytes, List.append_assoc]
    have hlength : position + payload.mask.entries.length + payload.block.length =
        position + (payload.rows + format.size * payload.rows) := by
      rw [payload.length_block, Nat.add_assoc]
      rfl
    rw [← hlength]
    exact payload.run_nullableConverted hpos convert
      (Slice.readBytes_append payload.mask.entries _ position encoding)
      (Slice.readBytes_append payload.block rest _ encoding)
  case cursors =>
    intro payload σ _ config cursor rest hreached hscratch hmask hblock hoffers
    obtain ⟨middle, after, hfirst, hsecond, hposition, hrest⟩ :=
      payload.reads_of_offers hreached hscratch hmask hblock hoffers
    refine ⟨after, ?_, hposition, hrest⟩
    rw [hcolumn]
    exact payload.run_nullableConverted hpos convert hfirst hsecond
  case rowWise =>
    intro payload
    refine ⟨payload.tryMapRecorded_eq convert, ?_⟩
    have hrows := NullMask.rowWise payload.mask convert payload.value
    rw [NullMask.tryMapRecorded_fst] at hrows
    exact hrows
  case hidden =>
    intro payload payload' hrows hnull hslot
    exact Prod.mk.inj (MaskedBlock.hidden_congr convert hrows hnull hslot)
  case plain =>
    intro payload σ source before after hblock
    refine ⟨payload.values.mapM convert, ?_, ?_, ?_⟩
    · rw [hplain]
      exact payload.run_converted hpos convert hblock
    · intro values hvalues
      exact NullMask.tryMap_eq_apply hvalues payload.mask
    · intro hnone
      refine NullMask.tryMap_eq_mapM convert hnone ?_
      rw [MaskedBlock.values, List.length_map, List.length_range]
      rfl

/-- Ticks make a masked column once their precision is known to have a scale. -/
theorem maskedDateTime64By (make : Int → Nat → Option τ) {precision : Nat} {scale : TickScale}
    (hscale : TickScale.ofPrecision precision = .ok scale) :
    MaskedColumn (.signed 8) (scale.timestampBy make)
      (Column.nullableDateTime64By make precision) (Column.dateTime64By make precision) := by
  refine maskedColumn (by decide) (fun rows => ?_) fun rows => ?_
  · rw [Column.nullableDateTime64By, hscale]
    rfl
  · rw [Column.dateTime64By, hscale]
    rfl

/-- The nullable columns of dates and timestamps are converted row by row behind their masks. They
take the same bytes whether or not a value is out of range, and what stands in a null row has no
influence. This holds whatever instants are built of, and those that are shown are rejected if and
only if their seconds are not in the range that instants are built for. -/
theorem nullable_columns_row_wise :
    MaskedColumn (.unsigned 2) Column.convertDate Column.nullableDate Column.date ∧
    MaskedColumn (.signed 4) EpochDay.date Column.nullableDate32 Column.date32 ∧
    (∀ {τ : Type} {make : Int → Nat → Option τ} {fields : τ → Timestamp} {first last : Int},
      Builds make fields first last →
      MaskedColumn (.unsigned 4) (fun seconds : Nat => Timestamp.buildBy make seconds 0)
        (Column.nullableDateTimeBy make) (Column.dateTimeBy make) ∧
      ConvertsTo (fun seconds : Nat => ⟨seconds, 0⟩) fields first last
        (fun seconds : Nat => Timestamp.buildBy make seconds 0) ∧
      ∀ precision ≤ maxPrecision, ∃ scale, TickScale.ofPrecision precision = .ok scale ∧
        MaskedColumn (.signed 8) (scale.timestampBy make)
          (Column.nullableDateTime64By make precision) (Column.dateTime64By make precision) ∧
        ConvertsTo scale.instant fields first last (scale.timestampBy make)) ∧
    MaskedColumn (.unsigned 4) Column.convertDateTime Column.nullableDateTime Column.dateTime ∧
    ∀ precision ≤ maxPrecision, ∃ scale, TickScale.ofPrecision precision = .ok scale ∧
      MaskedColumn (.signed 8) scale.timestamp (Column.nullableDateTime64 precision)
        (Column.dateTime64 precision) := by
  refine ⟨?date, ?date32, ?built, ?dateTime, ?dateTime64⟩
  case date => exact maskedColumn (by decide) (fun _ => rfl) fun _ => rfl
  case date32 => exact maskedColumn (by decide) (fun _ => rfl) fun _ => rfl
  case built =>
    intro τ make fields first last hbuilds
    refine ⟨maskedColumn (by decide) (fun _ => rfl) fun _ => rfl, hbuilds.seconds, ?_⟩
    intro precision hprecision
    obtain ⟨scale, hscale⟩ := TickScale.exists_ofPrecision hprecision
    exact ⟨scale, hscale, maskedDateTime64By make hscale,
      hbuilds.ticks (Checked.TickScale.isExact_ofPrecision hscale)⟩
  case dateTime => exact maskedColumn (by decide) (fun _ => rfl) fun _ => rfl
  case dateTime64 =>
    intro precision hprecision
    obtain ⟨scale, hscale⟩ := TickScale.exists_ofPrecision hprecision
    have hmasked := maskedDateTime64By Timestamp.make hscale
    rw [scale.timestampBy_make, Column.nullableDateTime64By_make,
      Column.dateTime64By_make] at hmasked
    exact ⟨scale, hscale, hmasked⟩

/-- Three dates of which only the second is one. -/
def garbageDates : MaskedBlock (.signed 4) where
  mask := ⟨[1, 0, 2]⟩
  block := [255, 255, 255, 127, 86, 71, 0, 0, 0, 0, 0, 128]
  length_block := by decide
  mask_le := by decide
  block_le := by decide

/-- Two counts of microseconds, the first of them too large for an instant. -/
def lateStamps : MaskedBlock (.signed 8) where
  mask := ⟨[0, 255]⟩
  block := [255, 255, 255, 255, 255, 255, 255, 127, 0, 0, 0, 0, 0, 0, 0, 128]
  length_block := by decide
  mask_le := by decide
  block_le := by decide

/-- The dates in chunks that cut the mask and a value, and a failure behind them. -/
def garbageScript : List SourceEvent :=
  [.chunk [1, 0], .chunk [2, 255, 255, 255, 127, 86, 71], .chunk [0, 0, 0, 0, 0, 128, 9],
    .failure { kind := .timedOut }]

theorem nullable_columns_row_wise_garbage :
    (∃ after : Cursor (List SourceEvent),
      (Column.nullableDate32 3).run Cursor.byteSource (Cursor.ofSource garbageScript) =
        (.ok [none, some ⟨⟨2020, 1, 1⟩, by decide⟩, none], after) ∧
      after.position = 15 ∧ after.Offers [9]) ∧
    (Column.nullableDateTime64 6 2).run Slice.byteSource ⟨lateStamps.bytes ++ [9], 0, .utf8⟩ =
      (.error (.error (.timestampOutOfRange 9223372036854)), ⟨[9], 18, .utf8⟩) := by
  obtain ⟨_, hdate32, hbuilt, _⟩ := nullable_columns_row_wise
  constructor
  · have hreached : (Cursor.ofSource garbageScript).Reached {} := .start rfl
    have hoffers : (Cursor.ofSource garbageScript).Offers (garbageDates.bytes ++ [9]) :=
      ⟨rfl, [⟨1, [0]⟩, ⟨2, [255, 255, 255, 127, 86, 71]⟩, ⟨0, [0, 0, 0, 0, 128, 9]⟩], _,
        .more rfl (.more rfl (.more rfl (.none _))), fun _ => rfl, List.prefix_rfl⟩
    exact hdate32.cursors garbageDates (List SourceEvent) {} _ [9] hreached (by decide)
      (by decide) (by decide) hoffers
  · obtain ⟨_, _, hticks⟩ := hbuilt Timestamp.builds
    obtain ⟨scale, hscale, hcolumn, _⟩ := hticks 6 (by decide)
    obtain rfl := Except.ok.inj hscale
    have hrun := hcolumn.slices lateStamps [9] 0 .utf8
    rw [Column.nullableDateTime64By_make] at hrun
    exact hrun

end Columnar
