import Mathlib.Logic.Function.Iterate
import Columnar.Proofs.Batching

/-!
Different ways to read the same bytes. A word is a column of one number, a column of texts is one
text after another up to the first that fails, and a source that is only lent out, however often,
reads as it does itself. This holds in every state of a slice and of a cursor, whatever becomes of
the read.
-/
namespace Columnar

namespace ReadStep

/-- Makes requests one after another, up to the first that fails. -/
def attempt (source : ByteSource σ) : List ReadStep → σ → Outcome σ (List Value)
  | [], state => (.ok [], state)
  | step :: steps, state =>
    (step.run source state).andThen fun value after =>
      (attempt source steps after).map (Except.map (value :: ·)) id

end ReadStep

/-- From this state each of several ways to read comes to the same value or fault, and leaves the
same state. -/
structure ReadsAlike (source : ByteSource σ) (state : σ) : Prop where
  word : source.borrowed.readWord state = source.readWord state
  number : (Column.array (.unsigned 8) 1).run source state =
    (source.readWord state).map (Except.map fun value => [value]) id
  /-- The encoding may be asked for once or again for every row. -/
  label : ∀ rows, Column.textRoom * rows < 2 ^ 63 →
    (Column.text rows).run source state = (Decoder.times rows Column.sizedText).run source state
  texts : ∀ rows, Column.textRoom * rows < 2 ^ 63 →
    ((Column.text rows).run source state).map (Except.map (List.map .text)) id =
      ReadStep.attempt source (List.replicate rows .sizedText) state
  lent : ∀ (depth : Nat) (steps : List ReadStep),
    ReadStep.trace (ByteSource.borrowed^[depth] source) steps state =
      ReadStep.trace source steps state

theorem FixedWidth.decode_unsigned {size : Nat} {block : Bytes} (h : block.length = size) :
    (unsigned size).decode block = block.littleEndian := by
  subst h
  have hpow : 256 ^ block.length = 2 ^ (8 * block.length) := by rw [Nat.pow_mul]
  have hlt := Bytes.littleEndian_lt block
  rw [hpow] at hlt
  simp only [unsigned, map, word, BitVec.toNat_ofNat, Nat.mod_eq_of_lt hlt]

section Source

variable {source : ByteSource σ}

theorem ByteSource.borrowed_readWord (hwords : source.ReadsWords) (state : σ) :
    source.borrowed.readWord state = source.readWord state := by
  rw [hwords]
  simp only [borrowed]
  rcases source.readBytes 8 state with ⟨fault | block, after⟩ <;> rfl

/-- A block of eight bytes is one cell, and its number fits. -/
theorem Column.run_word (hwords : source.ReadsWords) {state : σ}
    (hserves : ColumnType.ServesBlock source 8 1 state) :
    (array (.unsigned 8) 1).run source state =
      (source.readWord state).map (Except.map fun value => [value]) id := by
  rw [run_array, hwords]
  have hsize : mulSat (FixedWidth.unsigned 8).size 1 = 8 := rfl
  rw [ColumnType.ServesBlock, show mulSat 8 1 = 8 from rfl] at hserves
  rw [hsize]
  rcases hread : source.readBytes 8 state with ⟨fault | block, after⟩
  · rfl
  · have hlength : block.length = 8 := hserves block after hread
    have hrows : block.length = 8 * 1 := hlength
    have hcells : Bytes.wholeCells 8 block = [block] := by
      rw [Bytes.wholeCells_block (by decide) hrows, Bytes.cells_succ, Bytes.cells_zero,
        List.take_of_length_le (Nat.le_of_eq hlength)]
    have hvalue := FixedWidth.decode_unsigned hlength
    simp only [Outcome.andThen, FixedWidth.size_unsigned, hcells, List.map_singleton, hvalue]
    rfl

theorem Column.run_sizedText (source : ByteSource σ) (state : σ) :
    sizedText.run source state = ((source.encoding state).decode <$> sizedCell).run source state :=
  rfl

/-- Rows do not change the encoding that the next row asks for. -/
theorem ByteSource.KeepsEncoding.run_times_sizedText (h : source.KeepsEncoding) (rows : Nat)
    (state : σ) :
    (Decoder.times rows Column.sizedText).run source state =
      (Decoder.times rows ((source.encoding state).decode <$> Column.sizedCell)).run source state := by
  induction rows generalizing state with
  | zero => rfl
  | succ rows ih =>
    rw [Decoder.times_succ, Decoder.times_succ, Decoder.run_bind_andThen, Decoder.run_bind_andThen,
      ← Column.run_sizedText source state]
    refine Outcome.andThen_congr fun text after htext => ?_
    have hencoding := h.run Column.sizedText state
    rw [htext] at hencoding
    rw [Decoder.run_bind_andThen, Decoder.run_bind_andThen, ih after, hencoding]

theorem ByteSource.KeepsEncoding.run_text (h : source.KeepsEncoding) {rows : Nat}
    (hroom : Column.textRoom * rows < 2 ^ 63) (state : σ) :
    (Column.text rows).run source state =
      (Decoder.times rows Column.sizedText).run source state := by
  rw [h.run_times_sizedText, Column.run_text_times source state (Nat.le_of_lt_succ hroom)]

theorem ReadStep.attempt_sizedText (source : ByteSource σ) (rows : Nat) (state : σ) :
    attempt source (List.replicate rows .sizedText) state =
      ((Decoder.times rows Column.sizedText).run source state).map
        (Except.map (List.map .text)) id := by
  induction rows generalizing state with
  | zero => rfl
  | succ rows ih =>
    have hstep : ReadStep.sizedText.run source state =
        (Column.sizedText.run source state).map (Except.map .text) id :=
      Decoder.run_map source Value.text Column.sizedText state
    rw [List.replicate_succ, attempt, hstep, Decoder.times_succ, Decoder.run_bind_andThen]
    rcases Column.sizedText.run source state with ⟨fault | text, after⟩
    · rfl
    · simp only [Outcome.andThen, Prod.map_apply, Except.map, id_eq, ih after,
        Decoder.run_bind_andThen]
      rcases (Decoder.times rows Column.sizedText).run source after with ⟨fault | texts, last⟩ <;> rfl

/-- A step makes the same requests of a source that is lent. -/
theorem ReadStep.run_borrowed (hwords : source.ReadsWords) (step : ReadStep) (state : σ) :
    step.run source.borrowed state = step.run source state := by
  cases step with
  | word => simp only [run, ByteSource.borrowed_readWord hwords]
  | _ => exact Decoder.run_borrowed source _ state

theorem ReadStep.trace_borrowed (hwords : source.ReadsWords) (steps : List ReadStep) (state : σ) :
    trace source.borrowed steps state = trace source steps state := by
  induction steps generalizing state with
  | nil => rfl
  | cons step steps ih => rw [trace, trace, run_borrowed hwords, ih]

theorem ByteSource.borrowed_readsWords (source : ByteSource σ) : source.borrowed.ReadsWords := by
  intro state
  simp only [borrowed]
  rcases source.readBytes 8 state with ⟨fault | block, after⟩ <;> rfl

theorem ReadStep.trace_lent (hwords : source.ReadsWords) (depth : Nat) (steps : List ReadStep)
    (state : σ) :
    trace (ByteSource.borrowed^[depth] source) steps state = trace source steps state := by
  induction depth generalizing source with
  | zero => rfl
  | succ depth ih =>
    rw [Function.iterate_succ_apply, ih source.borrowed_readsWords, trace_borrowed hwords]

theorem readsAlike (hwords : source.ReadsWords) (hkeeps : source.KeepsEncoding) {state : σ}
    (hserves : ColumnType.ServesBlock source 8 1 state) : ReadsAlike source state where
  word := source.borrowed_readWord hwords state
  number := Column.run_word hwords hserves
  label _ hroom := hkeeps.run_text hroom state
  texts rows hroom := by rw [hkeeps.run_text hroom, ReadStep.attempt_sizedText]
  lent depth steps := ReadStep.trace_lent hwords depth steps state

end Source

theorem Slice.servesBlock {slice : Slice} {size rows : Nat} (hfits : size * rows ≤ maxSize) :
    ColumnType.ServesBlock byteSource size rows slice := by
  intro block after hread
  rw [(readBytes_eq_ok_iff.mp hread).2, mulSat_eq _ _ hfits]

/-- Whatever state a slice or a cursor is in, be it closed, at its end or in the middle of bytes
that make no sense, the ways to read a word, a column of texts or a whole program agree. -/
theorem ways_of_reading_agree :
    (∀ slice : Slice, ReadsAlike Slice.byteSource slice) ∧
    ∀ {σ : Type} [ChunkSource σ] (cursor : Cursor σ), ReadsAlike Cursor.byteSource cursor := by
  refine ⟨?slices, ?cursors⟩
  case slices =>
    intro slice
    exact readsAlike Slice.readsWords Slice.keepsEncoding (Slice.servesBlock (by decide))
  case cursors =>
    intro σ _ cursor
    exact readsAlike Cursor.readsWords Cursor.keepsEncoding (Cursor.servesBlock (by decide))

/-- Two texts, the second of which is cut off, and a chunk that comes too late. -/
def cutTexts : List Bytes := [[1], [97, 3, 98], [99], [], [100]]

/-- A column of two texts fails where the second text does, and lent twice the source reads the same
as ever: a byte, and then no word any more. -/
theorem ways_of_reading_agree_cut :
    Column.textRoom * 2 < 2 ^ 63 ∧
    (((Column.text 2).run Cursor.byteSource (Cursor.ofSource cutTexts)).map
        (Except.map (List.map Value.text)) id).1 = .error (.error (.endOfStream 3 2)) ∧
    (ReadStep.attempt Cursor.byteSource [.sizedText, .sizedText] (Cursor.ofSource cutTexts)).1 =
      .error (.error (.endOfStream 3 2)) ∧
    (ReadStep.trace (ByteSource.borrowed^[2] Cursor.byteSource) [.byte, .word]
        (Cursor.ofSource cutTexts)).map Prod.fst =
      [.ok (.byte 1), .error (.error (.endOfStream 8 4))] := by
  have hagree := ways_of_reading_agree.2 (Cursor.ofSource cutTexts)
  have htexts := hagree.texts 2 (by decide)
  refine ⟨by decide, by decide +kernel, ?_, ?_⟩
  · have hcolumn : (ReadStep.attempt Cursor.byteSource (List.replicate 2 .sizedText)
        (Cursor.ofSource cutTexts)).1 = .error (.error (.endOfStream 3 2)) := by
      rw [← htexts]
      decide +kernel
    exact hcolumn
  · rw [hagree.lent]
    decide +kernel

end Columnar
