import Columnar.Proofs.Checked.Column
import Columnar.Proofs.Conversion
import Columnar.Proofs.Nullable

/-!
Checked columns come to the same as the columns themselves. A checked decoder and a plain one are
compared as trees of requests: they ask for the same, and on every block that is shorter than the
limit they go on alike, until the checked one has the result of the plain one.
-/
namespace Columnar.Checked

/-- The checked decoder follows the plain one to a result that `Q` holds of. No fault of either is
its own. -/
inductive Untrapped (limit : Nat) (Q : α → Prop) : Decoder (Option α) → Decoder α → Prop where
  | done {value : α} (hvalue : Q value) : Untrapped limit Q (.done (some value)) (.done value)
  | fail (cause : DecodeError) : Untrapped limit Q (.fail (.error cause)) (.fail (.error cause))
  | byte {checked : UInt8 → Decoder (Option α)} {plain : UInt8 → Decoder α}
      (hnext : ∀ b, Untrapped limit Q (checked b) (plain b)) :
      Untrapped limit Q (.byte checked) (.byte plain)
  | bytes {size : Nat} {checked : Bytes → Decoder (Option α)} {plain : Bytes → Decoder α}
      (hnext : ∀ block : Bytes, block.length = size → size < limit →
        Untrapped limit Q (checked block) (plain block)) :
      Untrapped limit Q (.bytes size checked) (.bytes size plain)
  | encoding {checked : TextEncoding → Decoder (Option α)} {plain : TextEncoding → Decoder α}
      (hnext : ∀ e, Untrapped limit Q (checked e) (plain e)) :
      Untrapped limit Q (.encoding checked) (.encoding plain)

namespace Untrapped

variable {limit : Nat} {Q : α → Prop} {R : β → Prop}

theorem weaken {Q' : α → Prop} {checked : Decoder (Option α)} {plain : Decoder α}
    (h : Untrapped limit Q checked plain) (hweaker : ∀ value, Q value → Q' value) :
    Untrapped limit Q' checked plain := by
  induction h with
  | done hvalue => exact .done (hweaker _ hvalue)
  | fail cause => exact .fail cause
  | byte _ ih => exact .byte ih
  | bytes _ ih => exact .bytes ih
  | encoding _ ih => exact .encoding ih

theorem bind {checked : OptionT Decoder α} {plain : Decoder α}
    {next : α → OptionT Decoder β} {rest : α → Decoder β} (h : Untrapped limit Q checked plain)
    (hrest : ∀ value, Q value → Untrapped limit R (next value) (rest value)) :
    Untrapped limit R (checked >>= next : OptionT Decoder β) (plain.bind rest) := by
  induction h with
  | done hvalue => exact hrest _ hvalue
  | fail cause => exact .fail cause
  | byte _ ih => exact .byte ih
  | bytes _ ih => exact .bytes ih
  | encoding _ ih => exact .encoding ih

theorem map {checked : OptionT Decoder α} {plain : Decoder α} {f : α → β}
    (h : Untrapped limit Q checked plain) (hmap : ∀ value, Q value → R (f value)) :
    Untrapped limit R (f <$> checked : OptionT Decoder β) (f <$> plain) :=
  h.bind fun value hvalue => .done (hmap value hvalue)

/-- A checked operation that has a result goes on with it. -/
theorem demand {result : Option α} {value : α} {next : α → OptionT Decoder β} {plain : Decoder β}
    (hresult : result = some value) (hnext : Untrapped limit R (next value) plain) :
    Untrapped limit R (Checked.demand result >>= next : OptionT Decoder β) plain := by
  rw [hresult]
  exact hnext

theorem take {size : Nat} {next : Bytes → OptionT Decoder β} {plain : Bytes → Decoder β}
    (hnext : ∀ block : Bytes, block.length = size → size < limit →
      Untrapped limit R (next block) (plain block)) :
    Untrapped limit R (Checked.take size >>= next : OptionT Decoder β)
      ((Decoder.takeBytes size).bind plain) :=
  .bytes hnext

theorem answer {result : Except DecodeError α} {next : α → OptionT Decoder β}
    {rest : α → Decoder β}
    (hnext : ∀ value, result = .ok value → Untrapped limit R (next value) (rest value)) :
    Untrapped limit R (Checked.answer result >>= next : OptionT Decoder β)
      ((Decoder.ofExcept result).bind rest) := by
  cases result with
  | error cause => exact .fail cause
  | ok value => exact hnext value rfl

end Untrapped

/-- Contents are shorter than this. -/
def contentLimit : Nat := 2 ^ 56

/-- A list of a value for each row, with fewer rows than the limit has bytes. -/
structure Whole (rows : Nat) (values : List α) : Prop where
  length : values.length = rows
  small : rows < contentLimit

/-- There is room for a value of each row. -/
theorem Whole.room {rows room : Nat} {values : List α} (h : Whole rows values)
    (hroom : room ≤ valueRoom) : room * values.length ≤ maxAllocation := by
  have hsmall := h.small
  have hrows : room * values.length ≤ valueRoom * rows :=
    Nat.mul_le_mul hroom (Nat.le_of_eq h.length)
  rw [contentLimit] at hsmall
  rw [valueRoom] at hrows
  rw [maxAllocation]
  omega

/-- A block below the limit has the rows that were asked for. -/
theorem length_of_block {size rows : Nat} {block : Bytes} (hpos : 0 < size)
    (hlength : block.length = mulSat size rows) (hlimit : mulSat size rows < contentLimit) :
    block.length = size * rows ∧ block.length < contentLimit ∧ rows < contentLimit := by
  obtain ⟨hexact, _⟩ := mulSat_exact (Nat.lt_trans hlimit (by decide))
  rw [hexact] at hlength hlimit
  have hrows : rows ≤ size * rows := Nat.le_mul_of_pos_left rows hpos
  exact ⟨hlength, hlength ▸ hlimit, Nat.lt_of_le_of_lt hrows hlimit⟩

theorem length_wholeCells {size rows : Nat} {block : Bytes} (hpos : 0 < size)
    (hblock : block.length = size * rows) : (Bytes.wholeCells size block).length = rows := by
  rw [Bytes.wholeCells_block hpos hblock, Bytes.length_cells]

theorem length_of_mem_wholeCells {size : Nat} {block cell : Bytes} (hpos : 0 < size)
    (h : cell ∈ Bytes.wholeCells size block) : cell.length = size ∧ size ≤ block.length := by
  rw [Bytes.wholeCells, Bytes.cells_eq, List.mem_map] at h
  obtain ⟨row, hrow, rfl⟩ := h
  have hend : (row + 1) * size ≤ block.length :=
    (Nat.le_div_iff_mul_le hpos).mp (List.mem_range.mp hrow)
  rw [Nat.succ_mul, Nat.mul_comm] at hend
  rw [List.length_take, List.length_drop]
  omega

theorem mapM_eq {f : α → Option β} {g : α → β} {values : List α}
    (h : ∀ value ∈ values, f value = some (g value)) : values.mapM f = some (values.map g) := by
  induction values with
  | nil => rfl
  | cons value values ih =>
    rw [List.forall_mem_cons] at h
    rw [List.mapM_cons, h.1, ih h.2]
    rfl

section Conversion

variable {α β ε : Type} {convert : α → Option (Except ε β)} {plain : α → Except ε β}
  {values : List α}

/-- Values are converted one after another up to the first that fails. -/
theorem run_mapM_eq (h : ∀ value ∈ values, convert value = some (plain value)) :
    (values.mapM (attempt convert)).run = some (values.mapM plain) := by
  induction values with
  | nil => rfl
  | cons value values ih =>
    rw [List.forall_mem_cons] at h
    have hvalue : (attempt convert value).run = some (plain value) := h.1
    rw [List.mapM_cons, List.mapM_cons, ExceptT.run_bind, hvalue]
    cases plain value with
    | error cause => rfl
    | ok converted =>
      refine andThen rfl ?_
      dsimp only
      rw [ExceptT.run_bind, ih h.2]
      cases values.mapM plain <;> rfl

theorem run_maskM_eq (h : ∀ value ∈ values, convert value = some (plain value))
    (mask : NullMask) :
    (mask.mapM (attempt convert) values).run = some (mask.tryMap plain values) := by
  obtain ⟨entries⟩ := mask
  induction entries generalizing values with
  | nil => rfl
  | cons entry entries ih =>
    cases values with
    | nil => rfl
    | cons value values =>
      rw [List.forall_mem_cons] at h
      by_cases hentry : entry = 0
      · subst hentry
        have hvalue : (attempt convert value).run = some (plain value) := h.1
        rw [NullMask.mapM_shown, NullMask.tryMap_shown, ExceptT.run_bind, hvalue]
        cases plain value with
        | error cause => rfl
        | ok converted =>
          refine andThen rfl ?_
          dsimp only
          rw [ExceptT.run_map, ih h.2]
          rfl
      · rw [NullMask.mapM_null _ hentry, NullMask.tryMap_null _ hentry, ExceptT.run_map, ih h.2]
        rfl

theorem length_of_tryMap {mask : NullMask} {shown : List (Option β)}
    (hlength : values.length = mask.length) (h : mask.tryMap plain values = .ok shown) :
    shown.length = mask.length := by
  obtain ⟨entries⟩ := mask
  induction entries generalizing values shown with
  | nil =>
    cases h
    rfl
  | cons entry entries ih =>
    cases values with
    | nil => cases hlength
    | cons value values =>
      replace hlength : values.length = entries.length := Nat.succ.inj hlength
      by_cases hentry : entry = 0
      · subst hentry
        rw [NullMask.tryMap_shown] at h
        cases hvalue : plain value with
        | error cause =>
          rw [hvalue] at h
          cases h
        | ok first =>
          rw [hvalue] at h
          obtain ⟨later, hlater, rfl⟩ := NullMask.map_eq_ok_iff.mp h
          exact congrArg Nat.succ (ih hlength hlater)
      · rw [NullMask.tryMap_null _ hentry] at h
        obtain ⟨later, hlater, rfl⟩ := NullMask.map_eq_ok_iff.mp h
        exact congrArg Nat.succ (ih hlength hlater)

end Conversion

namespace Untrapped

/-- A list that fits is the last thing that a decoder gives. -/
theorem collected {rows room : Nat} {values : List α} {Q : List α → Prop} (h : Whole rows values)
    (hroom : room ≤ valueRoom) (hvalues : Q values) :
    Untrapped limit Q (Checked.demand (Checked.collected room values)) (.done values) := by
  rw [collected_eq (h.room hroom)]
  exact .done hvalues

end Untrapped

namespace Column

theorem untrapped_array {format : FixedWidth α} {decode : Bytes → Option α}
    (hpos : 0 < format.size)
    (hdecode : ∀ cell, cell.length = format.size → decode cell = some (format.decode cell))
    (rows : Nat) :
    Untrapped contentLimit
      (fun values => Whole rows values ∧ ∀ value ∈ values, ∃ cell, value = format.decode cell)
      (array format.size decode rows) (Columnar.Column.array format rows) := by
  refine .take fun block hlength hlimit => ?_
  obtain ⟨hblock, _, hsmall⟩ := length_of_block hpos hlength hlimit
  have hwhole : Whole rows ((Bytes.wholeCells format.size block).map format.decode) :=
    ⟨by rw [List.length_map, length_wholeCells hpos hblock], hsmall⟩
  have hcells : wholeCells format.size block = some (Bytes.wholeCells format.size block) :=
    if_neg (Nat.ne_of_gt hpos)
  have hvalues : (Bytes.wholeCells format.size block).mapM decode =
      some ((Bytes.wholeCells format.size block).map format.decode) :=
    mapM_eq fun cell hcell => hdecode cell (length_of_mem_wholeCells hpos hcell).1
  refine .demand hcells (.demand hvalues (.collected hwhole (Nat.le_refl _) ⟨hwhole, ?_⟩))
  intro value hvalue
  obtain ⟨cell, _, rfl⟩ := List.mem_map.mp hvalue
  exact ⟨cell, rfl⟩

theorem untrapped_bytes {size : Nat} (hpos : 0 < size) (rows : Nat) :
    Untrapped contentLimit (Whole rows) (bytes size rows) (Columnar.Column.bytes size rows) := by
  refine .take fun block hlength hlimit => ?_
  obtain ⟨hblock, hlow, hsmall⟩ := length_of_block hpos hlength hlimit
  have hwhole : Whole rows (Bytes.cells size rows block) := ⟨Bytes.length_cells .., hsmall⟩
  have hcells : (List.range rows).mapM (window size block) =
      some (Bytes.cells size rows block) := by
    -- both ends of a row lie in the block, so they fit a word
    rw [contentLimit] at hlow hsmall
    rw [Bytes.cells_eq]
    refine mapM_eq fun row hrow => ?_
    have hless := List.mem_range.mp hrow
    have hend : (row + 1) * size ≤ block.length := by
      rw [hblock, Nat.mul_comm]
      exact Nat.mul_le_mul_left size hless
    have hbegin : row * size ≤ block.length :=
      Nat.le_trans (Nat.mul_le_mul_right size (Nat.le_succ row)) hend
    have hstart : word (row * size) = some (row * size) :=
      word_eq (by simp) (by rw [maxSize]; omega)
    have hnext : word (row + 1) = some (row + 1) := word_eq rfl (by rw [maxSize]; omega)
    have hstop : word ((row + 1 : Nat) * size) = some ((row + 1) * size) :=
      word_eq (by simp) (by rw [maxSize]; omega)
    rw [Nat.mul_comm size row, ← slice_cell hend]
    exact andThen hstart (andThen hnext (andThen hstop rfl))
  have hreserve : Decoder.reserve (Columnar.Column.bytesRoom * rows) = .done () := by
    have hroom := hwhole.room (Nat.le_refl valueRoom)
    rw [Bytes.length_cells] at hroom
    exact if_neg (Nat.not_lt.mpr hroom)
  simp only [hreserve, Decoder.bind_eq, Decoder.done_bind]
  exact .demand hcells (.collected hwhole (Nat.le_refl _) hwhole)

theorem untrapped_fixedText {size : Nat} (hpos : 0 < size) (rows : Nat) :
    Untrapped contentLimit (Whole rows) (fixedText size rows)
      (Columnar.Column.fixedText size rows) := by
  refine .encoding fun encoding => ?_
  simp only [Decoder.done_bind, Decoder.bind_eq, if_neg (Nat.ne_of_gt hpos)]
  refine .take fun block hlength hlimit => ?_
  obtain ⟨hblock, hlow, hsmall⟩ := length_of_block hpos hlength hlimit
  have hwhole : Whole rows ((Bytes.wholeCells size block).map encoding.decode) :=
    ⟨by rw [List.length_map, length_wholeCells hpos hblock], hsmall⟩
  have hcells : wholeCells size block = some (Bytes.wholeCells size block) :=
    if_neg (Nat.ne_of_gt hpos)
  have htexts : (Bytes.wholeCells size block).mapM (text encoding) =
      some ((Bytes.wholeCells size block).map encoding.decode) := by
    refine mapM_eq fun cell hcell => ?_
    obtain ⟨hlength, hfits⟩ := length_of_mem_wholeCells hpos hcell
    have hcell : Whole size cell := ⟨hlength, Nat.lt_of_le_of_lt hfits hlow⟩
    exact andThen (collected_eq (hcell.room (by decide))) rfl
  exact .demand hcells (.demand htexts (.collected hwhole (by decide) hwhole))

theorem untrapped_nullMask (rows : Nat) :
    Untrapped contentLimit (fun mask => Whole rows mask.entries) (nullMask rows)
      (Columnar.Column.nullMask rows) := by
  refine .take fun block hlength hlimit => ?_
  obtain ⟨hblock, _, hsmall⟩ := length_of_block (by decide) hlength hlimit
  have hwhole : Whole rows block := ⟨by rw [hblock, NullMask.entrySize, Nat.one_mul], hsmall⟩
  exact .demand (collected_eq (hwhole.room (by decide))) (.done hwhole)

theorem untrapped_converted {convert : α → Option (Except DecodeError β)}
    {plain : α → Except DecodeError β} {checked : OptionT Decoder (List α)}
    {raw : Decoder (List α)} {rows : Nat}
    (hraw : Untrapped contentLimit (fun values => Whole rows values ∧
      ∀ value ∈ values, convert value = some (plain value)) checked raw) :
    Untrapped contentLimit (Whole rows) (converted convert checked)
      (Columnar.Column.converted plain raw) := by
  refine hraw.bind fun values hvalues => ?_
  refine .demand (run_mapM_eq hvalues.2) ?_
  rw [← Decoder.bind_done (Decoder.ofExcept _)]
  refine .answer fun converted hconverted => ?_
  have hwhole : Whole rows converted :=
    ⟨(mapM_eq_ok_iff.mp hconverted).length_eq.symm.trans hvalues.1.length, hvalues.1.small⟩
  exact .collected hwhole (Nat.le_refl _) hwhole

theorem guard_eq {p : Prop} [Decidable p] (h : p) : (guard p : Option Unit) = some () := if_pos h

theorem untrapped_nullable {checked : (rows : Nat) → OptionT Decoder (List α)}
    {column : (rows : Nat) → Decoder (List α)}
    (h : ∀ rows, Untrapped contentLimit (Whole rows) (checked rows) (column rows)) (rows : Nat) :
    Untrapped contentLimit (Whole rows) (nullable checked rows)
      (Columnar.Column.nullable column rows) := by
  refine (untrapped_nullMask rows).bind fun mask hmask => ?_
  refine (h mask.length).bind fun values hvalues => ?_
  have hlength : mask.length = rows := hmask.length
  have hshown : Whole rows (mask.apply values) :=
    ⟨by rw [NullMask.apply, List.length_zipWith, hvalues.length, ← hlength]; exact Nat.min_self _,
      hmask.small⟩
  exact .demand (guard_eq hvalues.length) (.demand (collected_eq (hshown.room (Nat.le_refl _)))
    (.demand (guard_eq hshown.length) (.done hshown)))

theorem untrapped_nullableConverted {convert : α → Option (Except DecodeError β)}
    {plain : α → Except DecodeError β} {checked : (rows : Nat) → OptionT Decoder (List α)}
    {raw : (rows : Nat) → Decoder (List α)}
    (hraw : ∀ rows, Untrapped contentLimit (fun values => Whole rows values ∧
      ∀ value ∈ values, convert value = some (plain value)) (checked rows) (raw rows))
    (rows : Nat) :
    Untrapped contentLimit (Whole rows) (nullableConverted convert checked rows)
      (Columnar.Column.nullableConverted plain raw rows) := by
  refine (untrapped_nullMask rows).bind fun mask hmask => ?_
  refine (hraw mask.length).bind fun values hvalues => ?_
  refine .demand (guard_eq hvalues.1.length) (.demand (run_maskM_eq hvalues.2 mask) ?_)
  rw [← Decoder.bind_done (Decoder.ofExcept _)]
  refine .answer fun shown hresult => ?_
  have hshown : Whole rows shown :=
    ⟨(length_of_tryMap hvalues.1.length hresult).trans hmask.length, hmask.small⟩
  exact .demand (collected_eq (hshown.room (Nat.le_refl _)))
    (.demand (guard_eq hshown.length) (.done hshown))

theorem untrapped_scaled {checked : TickScale → OptionT Decoder α}
    {column : TickScale → Decoder α} {Q : α → Prop}
    (h : ∀ scale, TickScale.IsExact scale → Untrapped contentLimit Q (checked scale) (column scale))
    (precision : Nat) :
    Untrapped contentLimit Q (scaled checked precision)
      ((Decoder.ofExcept (Columnar.TickScale.ofPrecision precision)).bind column) :=
  .demand (TickScale.ofPrecision_eq precision)
    (.answer fun scale hscale => h scale (TickScale.isExact_ofPrecision hscale))

theorem cell_eq {format : FixedWidth α} {bytes : Bytes} (h : bytes.length = format.size) :
    cell format bytes = some (format.decode bytes) :=
  andThen (if_pos h) rfl

theorem number_eq {type : NumberType} {cell : Bytes} (h : cell.length = type.size) :
    number type cell = some (type.decode cell) := by
  cases type with
  | bool =>
    obtain ⟨byte, rfl⟩ := List.length_eq_one_iff.mp h
    have hbits : BitVec.ofNat 8 (byte.toNat + 256 * 0) = byte.toBitVec := by
      rw [Nat.mul_zero, Nat.add_zero, UInt8.toNat, BitVec.ofNat_toNat, BitVec.setWidth_eq]
    have hbyte : (BitVec.ofNat 8 (byte.toNat + 256 * 0) ≠ 0) ↔ byte ≠ 0 := by
      rw [hbits]
      exact not_congr (UInt8.toBitVec_inj (b := 0))
    exact congrArg (some ∘ Cell.boolean) (decide_eq_decide.mpr hbyte.symm)
  | _ => exact cell_eq h

theorem uuid_eq {cell : Bytes} (h : cell.length = 16) :
    uuid cell = some (Uuid.format.decode cell) := by
  have hback : slice Uuid.halfSize cell.length cell = some (cell.drop Uuid.halfSize) := by
    rw [slice, if_pos ⟨by rw [h]; decide, Nat.le_refl _⟩, List.take_length]
  have hfront : slice 0 Uuid.halfSize cell = some (cell.take Uuid.halfSize) :=
    if_pos ⟨Nat.zero_le _, by rw [h]; decide⟩
  have hfirst : copied Uuid.halfSize (cell.drop Uuid.halfSize) = some (cell.drop Uuid.halfSize) :=
    if_pos (by rw [List.length_drop, h]; rfl)
  have hsecond : copied Uuid.halfSize (cell.take Uuid.halfSize) = some (cell.take Uuid.halfSize) :=
    if_pos (by rw [List.length_take, h]; rfl)
  exact andThen hback (andThen hfirst (andThen hfront (andThen hsecond rfl)))

/-- Raw values that a conversion is safe for. -/
theorem untrapped_raw {format : FixedWidth α} {convert : α → Option (Except DecodeError β)}
    {plain : α → Except DecodeError β} (hpos : 0 < format.size)
    (h : ∀ cell, convert (format.decode cell) = some (plain (format.decode cell))) (rows : Nat) :
    Untrapped contentLimit
      (fun values => Whole rows values ∧ ∀ value ∈ values, convert value = some (plain value))
      (array format.size (cell format) rows) (Columnar.Column.array format rows) := by
  refine (untrapped_array hpos (fun _ => cell_eq) rows).weaken fun values hvalues => ⟨hvalues.1, ?_⟩
  intro value hvalue
  obtain ⟨cell, rfl⟩ := hvalues.2 value hvalue
  exact h cell

theorem timestamp_signed {scale : TickScale} (hexact : TickScale.IsExact scale) (cell : Bytes) :
    TickScale.timestamp scale ((FixedWidth.signed 8).decode cell) =
      some (scale.timestamp ((FixedWidth.signed 8).decode cell)) := by
  have hlow := BitVec.le_toInt ((FixedWidth.word 8).decode cell)
  have hhigh := BitVec.toInt_le (x := (FixedWidth.word 8).decode cell)
  exact TickScale.timestamp_eq hexact hlow hhigh

section Raw

variable (rows : Nat)

theorem untrapped_rawDate :
    Untrapped contentLimit (fun values => Whole rows values ∧
      ∀ value ∈ values, convertDate value = some (Columnar.Column.convertDate value))
      (rawDate rows) (Columnar.Column.rawDate rows) :=
  untrapped_raw (by decide : 0 < (FixedWidth.unsigned 2).size) (fun _ => EpochDay.date_eq _) rows

theorem untrapped_rawDate32 :
    Untrapped contentLimit (fun values => Whole rows values ∧
      ∀ value ∈ values, EpochDay.date value = some (Columnar.EpochDay.date value))
      (rawDate32 rows) (Columnar.Column.rawDate32 rows) :=
  untrapped_raw (by decide : 0 < (FixedWidth.signed 4).size) (fun _ => EpochDay.date_eq _) rows

theorem untrapped_rawDateTime :
    Untrapped contentLimit (fun values => Whole rows values ∧
      ∀ value ∈ values, convertDateTime value = some (Columnar.Column.convertDateTime value))
      (rawDateTime rows) (Columnar.Column.rawDateTime rows) :=
  untrapped_raw (by decide : 0 < (FixedWidth.unsigned 4).size) (fun _ => rfl) rows

theorem untrapped_rawDateTime64 {scale : TickScale} (hexact : TickScale.IsExact scale) :
    Untrapped contentLimit (fun values => Whole rows values ∧
      ∀ value ∈ values, TickScale.timestamp scale value = some (scale.timestamp value))
      (rawDateTime64 rows) (Columnar.Column.rawDateTime64 rows) :=
  untrapped_raw (by decide : 0 < (FixedWidth.signed 8).size) (timestamp_signed hexact) rows

end Raw

end Column

theorem Untrapped.whole {checked : OptionT Decoder (List α)} {plain : Decoder (List α)} {f : α → β}
    {rows : Nat} (h : Untrapped contentLimit (Whole rows) checked plain) :
    Untrapped contentLimit (Whole rows) (List.map f <$> checked : OptionT Decoder (List β))
      (List.map f <$> plain) :=
  h.map fun values hvalues => ⟨by rw [List.length_map, hvalues.length], hvalues.small⟩

/-- Every column of cells of a fixed size comes to the same in checked operations. -/
theorem untrapped_read {type : ColumnType} (hbulk : Bulk type) (rows : Nat) :
    Untrapped contentLimit (Whole rows) (read type rows) (type.read rows) := by
  have harray {α : Type} {format : FixedWidth α} {decode : Bytes → Option α}
      (hpos : 0 < format.size)
      (hdecode : ∀ cell, cell.length = format.size → decode cell = some (format.decode cell)) :
      Untrapped contentLimit (Whole rows) (Column.array format.size decode rows)
        (Columnar.Column.array format rows) :=
    (Column.untrapped_array hpos hdecode rows).weaken fun _ hvalues => hvalues.1
  cases type with
  | number type =>
    have hpos : 0 < type.format.size := by cases type <;> decide
    exact harray hpos fun _ => Column.number_eq
  | bytes size => exact (Column.untrapped_bytes hbulk rows).whole
  | text => cases hbulk
  | rawText => cases hbulk
  | fixedText size => exact (Column.untrapped_fixedText hbulk rows).whole
  | uuid =>
    exact (harray (by decide : 0 < Uuid.format.size) fun _ => Column.uuid_eq).whole
  | ipv4 =>
    exact (harray (by decide : 0 < Ipv4.format.size) fun _ => Column.cell_eq).whole
  | ip => exact (harray (by decide : 0 < Ip.format.size) fun _ => Column.cell_eq).whole
  | date => exact (Column.untrapped_converted (Column.untrapped_rawDate rows)).whole
  | date32 => exact (Column.untrapped_converted (Column.untrapped_rawDate32 rows)).whole
  | dateTime => exact (Column.untrapped_converted (Column.untrapped_rawDateTime rows)).whole
  | dateTime64 precision =>
    refine (Column.untrapped_scaled (fun scale hexact => ?_) precision).whole
    exact Column.untrapped_converted (Column.untrapped_rawDateTime64 rows hexact)

theorem untrapped_readNullable {type : ColumnType} (hbulk : Bulk type) (rows : Nat) :
    Untrapped contentLimit (Whole rows) (readNullable type rows) (type.readNullable rows) := by
  cases type with
  | date =>
    exact (Column.untrapped_nullableConverted Column.untrapped_rawDate rows).whole
  | date32 =>
    exact (Column.untrapped_nullableConverted Column.untrapped_rawDate32 rows).whole
  | dateTime =>
    exact (Column.untrapped_nullableConverted Column.untrapped_rawDateTime rows).whole
  | dateTime64 precision =>
    refine (Column.untrapped_scaled (fun scale hexact => ?_) precision).whole
    exact Column.untrapped_nullableConverted
      (fun rows => Column.untrapped_rawDateTime64 rows hexact) rows
  | _ => exact Column.untrapped_nullable (untrapped_read hbulk) rows

end Columnar.Checked
