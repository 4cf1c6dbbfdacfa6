import Columnar.Proofs.Blocks
import Columnar.Proofs.Item
import Columnar.Proofs.Yielding

/-!
String columns. A cell that carries its length is framed by it and by nothing else: whatever the
content is, and however the length is spelled, the next cell is found behind it. Whether contents
are kept as bytes or decoded as text makes no difference to what is read, so the two columns answer
alike wherever they read from.
-/
namespace Columnar

namespace Varint

/-- A varint is read byte by byte. -/
theorem sizes_eq_nil {encoding : TextEncoding} {groups weight value result : Nat} {bytes : Bytes}
    {sizes : List Nat}
    (h : Consumes encoding (readFrom groups weight value) bytes sizes result) : sizes = [] := by
  induction groups generalizing weight value bytes with
  | zero =>
    cases h with
    | byte hnext =>
      beta_reduce at hnext
      split at hnext
      · cases hnext
      · exact hnext.of_done.2.1
  | succ groups ih =>
    cases h with
    | byte hnext =>
      beta_reduce at hnext
      split at hnext
      · exact hnext.of_done.2.1
      · exact ih hnext

/-- Every spelling of a number is read, minimal or not. -/
theorem Spelling.consumes {encoding : TextEncoding} {bytes : Bytes} (h : Spelling bytes) :
    Consumes encoding read bytes [] (number bytes) := by
  have hgives := Slice.gives bytes [] 0 encoding
  rw [List.append_nil] at hgives
  have hrun := run_spelling hgives h
  obtain ⟨front, sizes, rest, hconsumes, hbytes⟩ := consumes_of_run hrun
  obtain rfl := sizes_eq_nil hconsumes
  replace hbytes : bytes = front ++ rest := hbytes
  have hfront := hconsumes.run rest 0
  rw [← hbytes, hrun] at hfront
  obtain rfl : rest = [] := (congrArg Slice.unread (Prod.mk.inj hfront).2).symm
  rw [List.append_nil] at hbytes
  rw [← hbytes] at hconsumes
  exact hconsumes

end Varint

namespace Decoder

theorem times_map (f : α → β) (count : Nat) (cell : Decoder α) :
    times count (f <$> cell) = List.map f <$> times count cell := by
  induction count with
  | zero => rfl
  | succ count ih =>
    rw [times_succ, times_succ, ih]
    simp only [map_eq, bind_assoc, done_bind, List.map_cons]

end Decoder

section Cells

variable {encoding : TextEncoding} {cells : List WireCell}

theorem WireCell.consumes {cell : WireCell} (h : cell.Fits none) :
    Consumes encoding Column.sizedCell cell.bytes [cell.content.length] cell.content := by
  obtain ⟨hspelling, hnumber⟩ := h
  have hlength : Consumes encoding Varint.readLength cell.lead [] cell.content.length :=
    hnumber ▸ hspelling.consumes
  exact hlength.bind (Column.consumes_takeBytes rfl)

theorem consumes_times {decoder : Decoder α} {value : Bytes → α}
    (hcells : ∀ cell ∈ cells,
      Consumes encoding decoder cell.bytes [cell.content.length] (value cell.content)) :
    Consumes encoding (Decoder.times cells.length decoder) (cells.flatMap WireCell.bytes)
      ((cells.map WireCell.content).map List.length) ((cells.map WireCell.content).map value) := by
  induction cells with
  | nil => exact .done []
  | cons cell cells ih =>
    obtain ⟨hcell, hlater⟩ := List.forall_mem_cons.mp hcells
    rw [List.length_cons, Decoder.times_succ]
    exact hcell.bind ((ih hlater).map (value cell.content :: ·))

end Cells

theorem Column.rawText_eq {rows : Nat} (hroom : bytesRoom * rows ≤ maxAllocation) :
    rawText rows = Decoder.times rows sizedCell := by
  rw [rawText, Decoder.reserve_of_le hroom]
  rfl

/-- Both columns of cells that carry their length read these bytes to their end. The one gives the
contents of the cells, the other their texts. -/
structure FramedColumns (encoding : TextEncoding) (bytes : Bytes) (contents : List Bytes) :
    Prop where
  rawText : Yields encoding (Column.rawText contents.length) bytes (contents.map List.length)
    contents
  text : Yields encoding (Column.text contents.length) bytes (contents.map List.length)
    (contents.map encoding.decode)

/-- Cells are framed by their lengths, whatever they contain. -/
theorem framedColumns {encoding : TextEncoding} {cells : List WireCell}
    (hfits : ∀ cell ∈ cells, cell.Fits none)
    (hroom : Column.bytesRoom * cells.length ≤ maxAllocation) :
    FramedColumns encoding (cells.flatMap WireCell.bytes) (cells.map WireCell.content) := by
  have hless : Column.textRoom * cells.length ≤ maxAllocation := by
    rw [Column.bytesRoom] at hroom
    rw [Column.textRoom]
    omega
  constructor
  case rawText =>
    rw [List.length_map, Column.rawText_eq hroom]
    have hcells : Consumes encoding (Decoder.times cells.length Column.sizedCell)
        (cells.flatMap WireCell.bytes) ((cells.map WireCell.content).map List.length)
        ((cells.map WireCell.content).map id) :=
      consumes_times fun cell hcell => WireCell.consumes (hfits cell hcell)
    rw [List.map_id] at hcells
    exact hcells.yields
  case text =>
    rw [List.length_map, Column.text, Decoder.reserve_of_le hless]
    refine Consumes.yields (.encoding ?_)
    exact consumes_times fun cell hcell => (WireCell.consumes (hfits cell hcell)).map _

/-- The texts of cells. -/
def Outcome.decoded (encoding : TextEncoding) (outcome : Outcome σ (List Bytes)) :
    Outcome σ (List String) :=
  outcome.map (Except.map (List.map encoding.decode)) id

theorem Column.run_text_times (source : ByteSource σ) (state : σ) {rows : Nat}
    (hroom : textRoom * rows ≤ maxAllocation) :
    (text rows).run source state =
      (Decoder.times rows ((source.encoding state).decode <$> sizedCell)).run source state := by
  rw [text, Decoder.reserve_of_le hroom]
  rfl

/-- Texts are found where their bytes are. -/
theorem Column.run_text (source : ByteSource σ) (state : σ) {rows : Nat}
    (hroom : bytesRoom * rows ≤ maxAllocation) :
    (text rows).run source state =
      ((rawText rows).run source state).decoded (source.encoding state) := by
  have hless : textRoom * rows ≤ maxAllocation := by
    rw [bytesRoom] at hroom
    rw [textRoom]
    omega
  rw [run_text_times source state hless, rawText_eq hroom, Decoder.times_map, Decoder.run_map]
  rfl

/-- Texts of a fixed size are cells of that size, decoded. -/
def FixedTextsFollow (source : ByteSource σ) (state : σ) : Prop :=
  ∀ size rows, 0 < size → Column.bytesRoom * rows ≤ maxAllocation →
    (Column.fixedText size rows).run source state =
      ((Column.bytes size rows).run source state).decoded (source.encoding state)

/-- The block that is served has as many bytes as its rows. -/
theorem ByteSource.Exact.fixedTextsFollow {source : ByteSource σ} {Live : σ → Prop}
    {Takes : σ → Bytes → σ → Prop} {state : σ} (h : source.Exact Live Takes) (hlive : Live state) :
    FixedTextsFollow source state := by
  intro size rows hpos hroom
  rw [Column.run_fixedText source state hpos, Column.run_bytes source state hroom]
  cases hread : source.readBytes (mulSat size rows) state with
  | mk result after =>
    cases result with
    | error fault => rfl
    | ok block =>
      have hlength := ColumnType.servesBlock_of_exact h hlive block after hread
      simp only [Outcome.andThen, Bytes.wholeCells_block hpos hlength]
      rfl

/-- A cell as it is written: its length in the fewest bytes, then the content. -/
def WireCell.ofContent (content : Bytes) : WireCell where
  lead := Varint.encode content.length
  content := content

theorem WireCell.fits_ofContent {content : Bytes} (h : content.length < 2 ^ 64) :
    (ofContent content).Fits none :=
  ⟨Varint.spelling_encode h, Varint.number_encode _⟩

theorem WireCell.bytes_ofContent (contents : List Bytes) :
    (contents.map ofContent).flatMap bytes = contents.flatMap WireItem.encodeSized := by
  rw [List.flatMap_map]
  rfl

theorem framedColumns_written {encoding : TextEncoding} {contents : List Bytes}
    (hcontents : ∀ content ∈ contents, content.length < 2 ^ 64)
    (hroom : Column.bytesRoom * contents.length ≤ maxAllocation) :
    FramedColumns encoding (contents.flatMap WireItem.encodeSized) contents := by
  have hfits : ∀ cell ∈ contents.map WireCell.ofContent, cell.Fits none := by
    intro cell hcell
    obtain ⟨content, hcontent, rfl⟩ := List.mem_map.mp hcell
    exact WireCell.fits_ofContent (hcontents content hcontent)
  have hcells : (contents.map WireCell.ofContent).map WireCell.content = contents := by
    rw [List.map_map]
    exact List.map_id contents
  have hframed : FramedColumns encoding
      ((contents.map WireCell.ofContent).flatMap WireCell.bytes)
      ((contents.map WireCell.ofContent).map WireCell.content) :=
    framedColumns hfits (by rwa [List.length_map])
  rw [WireCell.bytes_ofContent, hcells] at hframed
  exact hframed

/-- Another cell in one row changes that row and no other. -/
theorem framedColumns_set {encoding : TextEncoding} {cells : List WireCell} {cell : WireCell}
    (hfits : ∀ cell ∈ cells, cell.Fits none) (hcell : cell.Fits none)
    (hroom : Column.bytesRoom * cells.length ≤ maxAllocation) (row : Nat) :
    FramedColumns encoding ((cells.set row cell).flatMap WireCell.bytes)
      ((cells.map WireCell.content).set row cell.content) := by
  rw [← List.map_set]
  refine framedColumns (fun other hother => ?_) (by rwa [List.length_set])
  obtain hmem | rfl := List.mem_or_eq_of_mem_set hother
  · exact hfits other hmem
  · exact hcell

/-- String columns find every cell behind the one before, whatever the cells contain. What their
texts are is a matter of each cell alone, and nothing that is read depends on it. -/
theorem string_columns_keep_framing :
    (∀ (encoding : TextEncoding) (cells : List WireCell), (∀ cell ∈ cells, cell.Fits none) →
      Column.bytesRoom * cells.length ≤ maxAllocation →
      FramedColumns encoding (cells.flatMap WireCell.bytes) (cells.map WireCell.content) ∧
      ∀ (row : Nat) (cell : WireCell), cell.Fits none →
        FramedColumns encoding ((cells.set row cell).flatMap WireCell.bytes)
          ((cells.map WireCell.content).set row cell.content)) ∧
    (∀ (encoding : TextEncoding) (contents : List Bytes),
      (∀ content ∈ contents, content.length < 2 ^ 64) →
      Column.bytesRoom * contents.length ≤ maxAllocation →
      FramedColumns encoding (contents.flatMap WireItem.encodeSized) contents) ∧
    (∀ {σ : Type} (source : ByteSource σ) (state : σ) (rows : Nat),
      Column.bytesRoom * rows ≤ maxAllocation →
      (Column.text rows).run source state =
        ((Column.rawText rows).run source state).decoded (source.encoding state)) ∧
    (∀ slice : Slice, slice.unread.length < 2 ^ 63 → FixedTextsFollow Slice.byteSource slice) ∧
    (∀ {σ : Type} [ChunkSource σ] (config : DecoderConfig) (source : σ) (start : Cursor σ),
      Cursor.ofConfig config source = .ok start → ShortChunks source → ∀ calls : List Call,
        FixedTextsFollow Cursor.byteSource (Call.after calls start)) ∧
    ∀ bytes, TextEncoding.Faithful bytes := by
  refine ⟨?cells, ?written, ?text, ?slices, ?cursors, TextEncoding.faithful⟩
  case cells =>
    intro encoding cells hfits hroom
    exact ⟨framedColumns hfits hroom,
      fun row cell hcell => framedColumns_set hfits hcell hroom row⟩
  case written =>
    intro encoding contents hcontents hroom
    exact framedColumns_written hcontents hroom
  case text =>
    intro σ source state rows hroom
    exact Column.run_text source state hroom
  case slices =>
    intro slice hlength
    exact Slice.exact.fixedTextsFollow (Nat.le_of_lt_succ hlength)
  case cursors =>
    intro σ _ config source start hstart hchunks calls
    exact Cursor.exact.fixedTextsFollow ((Cursor.short_ofConfig hstart hchunks).calls calls)

/-- Two bytes that are no text behind a length of two bytes, an empty cell, and a letter. -/
def strayCells : List WireCell := [⟨[0x82, 0], [0xff, 0x80]⟩, ⟨[0], []⟩, ⟨[2], [0xc3, 0xa9]⟩]

/-- The cells and one byte more, cut in the length of the first and in the contents. -/
def strayChunks : List Bytes := [[0x82], [0, 0xff], [0x80, 0, 2, 0xc3], [0xa9, 7]]

/-- The digits of the first cell stand for it, and the letter is found all the same. -/
theorem string_columns_keep_framing_stray :
    (∃ after : Cursor (List Bytes),
      (Column.text 3).run Cursor.byteSource (Cursor.ofSource strayChunks) =
        (.ok ["ff80", "", "é"], after) ∧ after.Offers [7] ∧ after.position = 8) ∧
    (Column.text 3).run Slice.byteSource ⟨[1, 97, 0, 2, 0xc3, 0xa9] ++ [7], 0, .utf8⟩ =
      (.ok ["a", "", "é"], ⟨[7], 6, .utf8⟩) ∧
    (Column.fixedText 2 2).run Slice.byteSource ⟨[0xff, 0x80, 97, 98], 0, .utf8⟩ =
      (.ok ["ff80", "ab"], ⟨[], 4, .utf8⟩) := by
  have hspelling : Varint.Spelling ([] ++ [0x82] ++ [0]) :=
    .mk (Varint.unfinished_nil.concat (by decide) (by decide)) (by decide) (by decide)
  have hfits : ∀ cell ∈ strayCells, cell.Fits none := by
    have hempty : Varint.Spelling ([] ++ [0]) := .mk Varint.unfinished_nil (by decide) (by decide)
    have htwo : Varint.Spelling ([] ++ [2]) := .mk Varint.unfinished_nil (by decide) (by decide)
    simp only [strayCells, List.forall_mem_cons]
    exact ⟨⟨hspelling, by decide⟩, ⟨hempty, by decide⟩, ⟨htwo, by decide⟩, by simp⟩
  have hone : (WireCell.mk ([] ++ [1]) [97]).Fits none :=
    ⟨.mk Varint.unfinished_nil (by decide) (by decide), by decide⟩
  have hcells := string_columns_keep_framing.1 .utf8 strayCells hfits (by decide)
  have hfixed := string_columns_keep_framing.2.2.2.1 ⟨[0xff, 0x80, 97, 98], 0, .utf8⟩ (by decide)
  refine ⟨?_, ?_, ?_⟩
  · have hoffers : (Cursor.ofSource strayChunks).Offers
        (strayCells.flatMap WireCell.bytes ++ [7]) :=
      ⟨rfl, [⟨0x82, []⟩, ⟨0, [0xff]⟩, ⟨0x80, [0, 2, 0xc3]⟩, ⟨0xa9, [7]⟩], _,
        .more rfl (.more rfl (.more rfl (.more rfl (.none _)))), fun _ => rfl, List.prefix_rfl⟩
    have hreached : (Cursor.ofSource strayChunks).Reached {} := .start rfl
    have hyielded := hcells.1.text.cursor hreached rfl (by decide) hoffers
    obtain ⟨after, hrun, hafter, _, hposition⟩ := hyielded.of_room (by decide)
    have htexts : (strayCells.map WireCell.content).map TextEncoding.utf8.decode =
        ["ff80", "", "é"] := by decide +kernel
    rw [htexts] at hrun
    exact ⟨after, hrun, hafter, hposition⟩
  · have htexts : ((strayCells.map WireCell.content).set 0 [97]).map TextEncoding.utf8.decode =
        ["a", "", "é"] := by decide +kernel
    have hrun := (hcells.2 0 _ hone).text.slice [7] 0
    rw [htexts] at hrun
    exact hrun
  · rw [hfixed 2 2 (by decide) (by decide)]
    decide +kernel

/-- Scratch storage that begins with more than any buffer can hold. -/
def hugeScratch : DecoderConfig := { initialScratchCapacity := 2 ^ 63 }

/-- A cell of two bytes, cut between them. -/
def cutCell : List Bytes := [[2, 97], [98]]

/-- Without scratch storage a cell that is cut is not found, however small it is. -/
theorem string_columns_need_scratch :
    ∃ start : Cursor (List Bytes), Cursor.ofConfig hugeScratch cutCell = .ok start ∧
      start.Offers (WireItem.encodeSized [97, 98]) ∧
      [97, 98].length ≤ min hugeScratch.maxReadSize (2 ^ 61) ∧
      ((Column.rawText 1).run Cursor.byteSource start).1 = .error .capacityOverflow ∧
      ((Column.text 1).run Cursor.byteSource start).1 = .error .capacityOverflow := by
  have hvalid : hugeScratch.validate = .ok () := by decide
  have hbytes : WireItem.encodeSized [97, 98] = [2, 97, 98] := by decide +kernel
  refine ⟨_, Cursor.ofConfig_eq_ok_iff.mpr ⟨hvalid, rfl⟩, ?_, by decide, by decide +kernel,
    by decide +kernel⟩
  rw [hbytes]
  exact ⟨rfl, [⟨2, [97]⟩, ⟨98, []⟩], _, .more rfl (.more rfl (.none _)), fun _ => rfl,
    List.prefix_rfl⟩

end Columnar
