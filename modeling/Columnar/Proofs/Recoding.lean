import Columnar.Proofs.Layout

/-!
The same requests under two encodings. A decoder may be told one encoding or another, but all that
a step does with it is to make text of bytes that were read before. So two runs of it ask for the
same bytes, whatever they are told, fail alike, and give values that differ in their texts only.
-/
namespace Columnar

/-- The decoders make the same requests and go on alike with every answer. Where they ask for the
encoding, each is told its own. -/
inductive Decoder.Parallel (encoding encoding' : TextEncoding) (Related : α → β → Prop) :
    Decoder α → Decoder β → Prop where
  | done {value : α} {value' : β} (h : Related value value') :
      Parallel encoding encoding' Related (.done value) (.done value')
  | fail (fault : Fault) : Parallel encoding encoding' Related (.fail fault) (.fail fault)
  | byte {next : UInt8 → Decoder α} {next' : UInt8 → Decoder β}
      (h : ∀ b, Parallel encoding encoding' Related (next b) (next' b)) :
      Parallel encoding encoding' Related (.byte next) (.byte next')
  | bytes (size : Nat) {next : Bytes → Decoder α} {next' : Bytes → Decoder β}
      (h : ∀ block, Parallel encoding encoding' Related (next block) (next' block)) :
      Parallel encoding encoding' Related (.bytes size next) (.bytes size next')
  | encoding {next : TextEncoding → Decoder α} {next' : TextEncoding → Decoder β}
      (h : Parallel encoding encoding' Related (next encoding) (next' encoding')) :
      Parallel encoding encoding' Related (.encoding next) (.encoding next')

namespace Decoder

namespace Parallel

variable {encoding encoding' : TextEncoding} {Related : α → β → Prop} {Related' : γ → δ → Prop}

theorem bind {first : Decoder α} {first' : Decoder β} {rest : α → Decoder γ}
    {rest' : β → Decoder δ} (h : Parallel encoding encoding' Related first first')
    (hrest : ∀ value value', Related value value' →
      Parallel encoding encoding' Related' (rest value) (rest' value')) :
    Parallel encoding encoding' Related' (first.bind rest) (first'.bind rest') := by
  induction h with
  | done hvalue => exact hrest _ _ hvalue
  | fail fault => exact .fail fault
  | byte _ ih => exact .byte ih
  | bytes size _ ih => exact .bytes size ih
  | encoding _ ih => exact .encoding ih

theorem map {first : Decoder α} {first' : Decoder β} {f : α → γ} {f' : β → δ}
    (h : Parallel encoding encoding' Related first first')
    (hf : ∀ value value', Related value value' → Related' (f value) (f' value')) :
    Parallel encoding encoding' Related' (f <$> first) (f' <$> first') :=
  h.bind fun value value' hvalue => .done (hf value value' hvalue)

theorem times {cell : Decoder α} {cell' : Decoder β}
    (h : Parallel encoding encoding' Related cell cell') (count : Nat) :
    Parallel encoding encoding' (List.Forall₂ Related) (times count cell) (times count cell') := by
  induction count with
  | zero => exact .done .nil
  | succ count ih =>
    rw [times_succ, times_succ]
    exact h.bind fun _ _ hvalue => ih.bind fun _ _ hvalues => .done (.cons hvalue hvalues)

end Parallel

/-- The decoder does not ask for the encoding. -/
def Unlabelled (decoder : Decoder α) : Prop :=
  ∀ encoding encoding', Parallel encoding encoding' Eq decoder decoder

namespace Unlabelled

theorem done (value : α) : Unlabelled (.done value) := fun _ _ => .done rfl

theorem bind {first : Decoder α} {rest : α → Decoder β} (h : first.Unlabelled)
    (hrest : ∀ value, (rest value).Unlabelled) : (first.bind rest).Unlabelled := by
  intro encoding encoding'
  refine (h encoding encoding').bind ?_
  rintro value _ rfl
  exact hrest value encoding encoding'

theorem map {decoder : Decoder α} (h : decoder.Unlabelled) (f : α → β) :
    (f <$> decoder).Unlabelled :=
  h.bind fun value => done (f value)

theorem times {cell : Decoder α} (h : cell.Unlabelled) (count : Nat) :
    (Decoder.times count cell).Unlabelled := by
  induction count with
  | zero => exact done []
  | succ count ih =>
    rw [times_succ]
    exact h.bind fun value => ih.map (value :: ·)

theorem takeBytes (size : Nat) : (takeBytes size).Unlabelled :=
  fun _ _ => .bytes size fun _ => .done rfl

theorem ofExcept (result : Except DecodeError α) : (ofExcept result).Unlabelled := by
  intro encoding encoding'
  cases result with
  | ok value => exact .done rfl
  | error cause => exact .fail (.error cause)

theorem reserve (size : Nat) : (reserve size).Unlabelled := by
  intro encoding encoding'
  rw [Decoder.reserve]
  split
  · exact .fail .capacityOverflow
  · exact .done rfl

end Unlabelled

end Decoder

namespace Varint

open Decoder

theorem unlabelled_readFrom (groups weight value : Nat) :
    (readFrom groups weight value).Unlabelled := by
  intro encoding encoding'
  induction groups generalizing weight value with
  | zero =>
    refine .byte fun b => ?_
    split
    · exact .fail (.error .varintOverflow)
    · exact .done rfl
  | succ groups ih =>
    refine .byte fun b => ?_
    split
    · exact .done rfl
    · exact ih _ _

end Varint

namespace Column

open Decoder

theorem unlabelled_sizedCell : sizedCell.Unlabelled :=
  (Varint.unlabelled_readFrom _ _ _).bind Unlabelled.takeBytes

theorem unlabelled_array (format : FixedWidth α) (rows : Nat) : (array format rows).Unlabelled :=
  (Unlabelled.takeBytes _).bind fun _ => .done _

theorem unlabelled_bytes (size rows : Nat) : (bytes size rows).Unlabelled :=
  (Unlabelled.takeBytes _).bind fun _ => (Unlabelled.reserve _).bind fun _ => .done _

theorem unlabelled_rawText (rows : Nat) : (rawText rows).Unlabelled :=
  (Unlabelled.reserve _).bind fun _ => unlabelled_sizedCell.times rows

theorem unlabelled_nullMask (rows : Nat) : (nullMask rows).Unlabelled :=
  (Unlabelled.takeBytes _).bind fun _ => .done _

theorem unlabelled_converted (convert : α → Except DecodeError β) {raw : Decoder (List α)}
    (h : raw.Unlabelled) : (converted convert raw).Unlabelled :=
  h.bind fun _ => .ofExcept _

theorem unlabelled_nullableConverted (convert : α → Except DecodeError β)
    {raw : Nat → Decoder (List α)} (h : ∀ rows, (raw rows).Unlabelled) (rows : Nat) :
    (nullableConverted convert raw rows).Unlabelled :=
  (unlabelled_nullMask rows).bind fun mask => (h mask.length).bind fun _ => .ofExcept _

theorem unlabelled_dateTime64 (precision rows : Nat) : (dateTime64 precision rows).Unlabelled :=
  (Unlabelled.ofExcept _).bind fun _ => unlabelled_converted _ (unlabelled_array _ rows)

theorem unlabelled_nullableDateTime64 (precision rows : Nat) :
    (nullableDateTime64 precision rows).Unlabelled :=
  (Unlabelled.ofExcept _).bind fun _ =>
    unlabelled_nullableConverted _ (unlabelled_array _) rows

end Column

/-- The texts of the same bytes. -/
def Retold (encoding encoding' : TextEncoding) (text text' : String) : Prop :=
  ∃ bytes, text = encoding.decode bytes ∧ text' = encoding'.decode bytes

def Cell.isText : Cell → Bool
  | .text _ => true
  | _ => false

/-- The cells are texts of the same bytes, or they are no texts, and the same. -/
inductive Cell.Recoded (encoding encoding' : TextEncoding) : Cell → Cell → Prop where
  | text {text text' : String} (h : Retold encoding encoding' text text') :
      Recoded encoding encoding' (.text text) (.text text')
  | same {cell : Cell} (h : cell.isText = false) : Recoded encoding encoding' cell cell

/-- The values are the same but for their texts, which are those of the same bytes, and the
encoding itself. -/
inductive Value.Recoded (encoding encoding' : TextEncoding) : Value → Value → Prop where
  | byte (value : UInt8) : Recoded encoding encoding' (.byte value) (.byte value)
  | bytes (value : Bytes) : Recoded encoding encoding' (.bytes value) (.bytes value)
  | natural (value : Nat) : Recoded encoding encoding' (.natural value) (.natural value)
  | mask (value : NullMask) : Recoded encoding encoding' (.mask value) (.mask value)
  | text {text text' : String} (h : Retold encoding encoding' text text') :
      Recoded encoding encoding' (.text text) (.text text')
  | encoding : Recoded encoding encoding' (.encoding encoding) (.encoding encoding')
  | column {cells cells' : List Cell}
      (h : List.Forall₂ (Cell.Recoded encoding encoding') cells cells') :
      Recoded encoding encoding' (.column cells) (.column cells')
  | nullable {cells cells' : List (Option Cell)}
      (h : List.Forall₂ (Option.Rel (Cell.Recoded encoding encoding')) cells cells') :
      Recoded encoding encoding' (.nullable cells) (.nullable cells')

section Recoding

variable {encoding encoding' : TextEncoding}

theorem Retold.eq {text text' : String} (h : Retold encoding encoding text text') :
    text = text' := by
  obtain ⟨bytes, rfl, rfl⟩ := h
  rfl

theorem Cell.Recoded.eq {cell cell' : Cell} (h : Recoded encoding encoding cell cell') :
    cell = cell' := by
  cases h with
  | text h => rw [h.eq]
  | same => rfl

/-- Under one encoding there is only one value. -/
theorem Value.Recoded.eq {value value' : Value} (h : Recoded encoding encoding value value') :
    value = value' := by
  cases h with
  | text h => rw [h.eq]
  | column h =>
    have hcells := h.imp fun _ _ => Cell.Recoded.eq
    rw [List.forall₂_eq_eq_eq] at hcells
    rw [hcells]
  | nullable h =>
    have hcells : List.Forall₂ Eq _ _ := h.imp fun cell cell' hcell => by
      cases hcell with
      | some h => rw [h.eq]
      | none => rfl
    rw [List.forall₂_eq_eq_eq] at hcells
    rw [hcells]
  | _ => rfl

/-- Values that are no texts make cells that are the same. -/
theorem Cell.recoded_map {f : α → Cell} (hf : ∀ value, (f value).isText = false)
    (values : List α) :
    List.Forall₂ (Recoded encoding encoding') (values.map f) (values.map f) := by
  induction values with
  | nil => exact .nil
  | cons value values ih => exact .cons (.same (hf value)) ih

theorem Cell.recoded_texts {texts texts' : List String}
    (h : List.Forall₂ (Retold encoding encoding') texts texts') :
    List.Forall₂ (Recoded encoding encoding') (texts.map .text) (texts'.map .text) := by
  induction h with
  | nil => exact .nil
  | cons htext _ ih => exact .cons (.text htext) ih

/-- A mask hides the same rows of both. -/
theorem Cell.recoded_apply (mask : NullMask) {cells cells' : List Cell}
    (h : List.Forall₂ (Recoded encoding encoding') cells cells') :
    List.Forall₂ (Option.Rel (Recoded encoding encoding')) (mask.apply cells)
      (mask.apply cells') := by
  obtain ⟨entries⟩ := mask
  simp only [NullMask.apply]
  induction h generalizing entries with
  | nil => cases entries <;> exact .nil
  | cons hcell _ ih =>
    cases entries with
    | nil => exact .nil
    | cons entry entries =>
      refine .cons ?_ (ih entries)
      beta_reduce
      split
      · exact .some hcell
      · exact .none

namespace Column

open Decoder

theorem parallel_sizedText :
    Parallel encoding encoding' (Retold encoding encoding') sizedText sizedText :=
  .encoding ((unlabelled_sizedCell _ _).map fun cell _ hcell => ⟨cell, rfl, hcell ▸ rfl⟩)

theorem parallel_text (rows : Nat) :
    Parallel encoding encoding' (List.Forall₂ (Retold encoding encoding')) (text rows)
      (text rows) := by
  refine .encoding ((Unlabelled.reserve _ _ _).bind fun _ _ _ => Parallel.times ?_ rows)
  exact (unlabelled_sizedCell _ _).map fun cell _ hcell => ⟨cell, rfl, hcell ▸ rfl⟩

theorem parallel_fixedText (size rows : Nat) :
    Parallel encoding encoding' (List.Forall₂ (Retold encoding encoding')) (fixedText size rows)
      (fixedText size rows) := by
  refine .encoding ?_
  by_cases hzero : size = 0
  · -- a text of no bytes is empty under every encoding
    have hempty : Retold encoding encoding' "" "" :=
      ⟨[], (TextEncoding.decode_nil encoding).symm, (TextEncoding.decode_nil encoding').symm⟩
    simp only [if_pos hzero]
    exact (Unlabelled.reserve _ _ _).bind fun _ _ _ =>
      .done (List.forall₂_same.mpr fun text htext => List.eq_of_mem_replicate htext ▸ hempty)
  · simp only [if_neg hzero]
    refine (Unlabelled.takeBytes _ _ _).bind ?_
    rintro block _ rfl
    exact .done (List.forall₂_map_left_iff.mpr (List.forall₂_map_right_iff.mpr
      (List.forall₂_same.mpr fun cell _ => ⟨cell, rfl, rfl⟩)))

end Column

namespace ColumnType

open Decoder

/-- Cells that are made of values without text. -/
theorem parallel_cells {decoder : Decoder (List α)} (h : decoder.Unlabelled) {f : α → Cell}
    (hf : ∀ value, (f value).isText = false) :
    Parallel encoding encoding' (List.Forall₂ (Cell.Recoded encoding encoding'))
      (List.map f <$> decoder) (List.map f <$> decoder) := by
  refine (h _ _).map ?_
  rintro values _ rfl
  exact Cell.recoded_map hf values

theorem isText_decode (type : NumberType) (cell : Bytes) : (type.decode cell).isText = false := by
  cases type <;> rfl

/-- A column asks for the same bytes under every encoding. -/
theorem parallel_read (type : ColumnType) (rows : Nat) :
    Parallel encoding encoding' (List.Forall₂ (Cell.Recoded encoding encoding')) (type.read rows)
      (type.read rows) := by
  cases type with
  | number type =>
    refine (Unlabelled.takeBytes _ _ _).bind ?_
    rintro block _ rfl
    exact .done (Cell.recoded_map (isText_decode type) _)
  | bytes size => exact parallel_cells (Column.unlabelled_bytes size rows) fun _ => rfl
  | text => exact (Column.parallel_text rows).map fun _ _ => Cell.recoded_texts
  | rawText => exact parallel_cells (Column.unlabelled_rawText rows) fun _ => rfl
  | fixedText size => exact (Column.parallel_fixedText size rows).map fun _ _ => Cell.recoded_texts
  | uuid => exact parallel_cells (Column.unlabelled_array _ rows) fun _ => rfl
  | ipv4 => exact parallel_cells (Column.unlabelled_array _ rows) fun _ => rfl
  | ip => exact parallel_cells (Column.unlabelled_array _ rows) fun _ => rfl
  | date =>
    exact parallel_cells (Column.unlabelled_converted _ (Column.unlabelled_array _ rows)) fun _ => rfl
  | date32 =>
    exact parallel_cells (Column.unlabelled_converted _ (Column.unlabelled_array _ rows)) fun _ => rfl
  | dateTime =>
    exact parallel_cells (Column.unlabelled_converted _ (Column.unlabelled_array _ rows)) fun _ => rfl
  | dateTime64 precision =>
    exact parallel_cells (Column.unlabelled_dateTime64 precision rows) fun _ => rfl

theorem parallel_nullable (type : ColumnType) (rows : Nat) :
    Parallel encoding encoding' (List.Forall₂ (Option.Rel (Cell.Recoded encoding encoding')))
      (Column.nullable type.read rows) (Column.nullable type.read rows) := by
  refine (Column.unlabelled_nullMask rows _ _).bind ?_
  rintro mask _ rfl
  exact (parallel_read type mask.length).map fun _ _ hcells => Cell.recoded_apply mask hcells

/-- Rows of values without text, some of them null. -/
theorem parallel_nullableCells {decoder : Decoder (List (Option α))} (h : decoder.Unlabelled)
    {f : α → Cell} (hf : ∀ value, (f value).isText = false) :
    Parallel encoding encoding' (List.Forall₂ (Option.Rel (Cell.Recoded encoding encoding')))
      (List.map (Option.map f) <$> decoder) (List.map (Option.map f) <$> decoder) := by
  refine (h _ _).map ?_
  rintro values _ rfl
  refine List.forall₂_map_left_iff.mpr (List.forall₂_map_right_iff.mpr
    (List.forall₂_same.mpr fun value _ => ?_))
  cases value with
  | none => exact .none
  | some value => exact .some (.same (hf value))

theorem parallel_readNullable (type : ColumnType) (rows : Nat) :
    Parallel encoding encoding' (List.Forall₂ (Option.Rel (Cell.Recoded encoding encoding')))
      (type.readNullable rows) (type.readNullable rows) := by
  cases type with
  | date =>
    exact parallel_nullableCells
      (Column.unlabelled_nullableConverted _ (Column.unlabelled_array _) rows) fun _ => rfl
  | date32 =>
    exact parallel_nullableCells
      (Column.unlabelled_nullableConverted _ (Column.unlabelled_array _) rows) fun _ => rfl
  | dateTime =>
    exact parallel_nullableCells
      (Column.unlabelled_nullableConverted _ (Column.unlabelled_array _) rows) fun _ => rfl
  | dateTime64 precision =>
    exact parallel_nullableCells (Column.unlabelled_nullableDateTime64 precision rows) fun _ => rfl
  | _ => exact parallel_nullable _ rows

end ColumnType

open Decoder in
/-- Every step asks for the same bytes under every encoding. -/
theorem ReadStep.parallel_decoder (step : ReadStep) :
    Parallel encoding encoding' (Value.Recoded encoding encoding') step.decoder step.decoder := by
  cases step with
  | byte => exact .byte fun b => .done (.byte b)
  | bytes size => exact .bytes size fun block => .done (.bytes block)
  | varint => exact (Varint.unlabelled_readFrom _ _ _ _ _).map fun value _ h => h ▸ .natural value
  | length => exact (Varint.unlabelled_readFrom _ _ _ _ _).map fun value _ h => h ▸ .natural value
  | word => exact .bytes 8 fun block => .done (.natural block.littleEndian)
  | sizedText => exact Column.parallel_sizedText.map fun _ _ h => .text h
  | encoding => exact .encoding (.done .encoding)
  | column type rows => exact (type.parallel_read rows).map fun _ _ h => .column h
  | nullMask rows => exact (Column.unlabelled_nullMask rows _ _).map fun mask _ h => h ▸ .mask mask
  | nullable type rows => exact (type.parallel_readNullable rows).map fun _ _ h => .nullable h

end Recoding

end Columnar
