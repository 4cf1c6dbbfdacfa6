import Columnar.Proofs.Framing
import Columnar.Proofs.Lockstep

/-!
What the settings of a cursor have a say in. The encoding decides what texts are made of the bytes,
the limit which read is refused, and the initial capacity how large scratch storage becomes. None of
them decides where a value ends: up to a read that one limit refuses and the other does not, two
cursors with different settings ask for the same bytes, in the same places.
-/
namespace Columnar

namespace Decoder

theorem run_times_succ (source : ByteSource σ) (cell : Decoder α) (count : Nat) (state : σ) :
    (times (count + 1) cell).run source state =
      (cell.run source state).andThen fun value next =>
        ((times count cell).run source next).map (Except.map (value :: ·)) id := by
  rw [times_succ, run_bind_andThen]
  refine Outcome.andThen_congr fun value next _ => ?_
  rw [← run_map, map_eq]

/-- A repeated decoder fails where one of its runs does, and nowhere else. -/
theorem run_times_eq_error_iff {source : ByteSource σ} {cell : Decoder α} {count : Nat}
    {state after : σ} {fault : Fault} :
    (times count cell).run source state = (.error fault, after) ↔
      ∃ values middle, values.length < count ∧
        (times values.length cell).run source state = (.ok values, middle) ∧
        cell.run source middle = (.error fault, after) := by
  induction count generalizing state with
  | zero => simp
  | succ count ih =>
    rw [run_times_succ]
    constructor
    · intro hfails
      rcases hfirst : cell.run source state with ⟨fault' | value, next⟩
      · rw [hfirst] at hfails
        cases hfails
        exact ⟨[], state, Nat.succ_pos _, rfl, hfirst⟩
      · rcases hlater : (times count cell).run source next with ⟨fault' | values, last⟩
        · rw [hfirst, Outcome.andThen, hlater] at hfails
          cases hfails
          obtain ⟨values, middle, hless, hvalues, hcell⟩ := ih.mp hlater
          refine ⟨value :: values, middle, Nat.succ_lt_succ hless, ?_, hcell⟩
          rw [List.length_cons, run_times_succ, hfirst, Outcome.andThen, hvalues]
          rfl
        · rw [hfirst, Outcome.andThen, hlater] at hfails
          cases hfails
    · rintro ⟨_ | ⟨value, values⟩, middle, hless, hvalues, hcell⟩
      · cases hvalues
        rw [hcell]
        rfl
      · rw [List.length_cons, run_times_succ] at hvalues
        obtain ⟨first, next, hfirst, hrest⟩ := Outcome.andThen_eq_ok_iff.mp hvalues
        rcases hlater : (times values.length cell).run source next with ⟨fault' | others, last⟩
        · rw [hlater] at hrest
          cases hrest
        · rw [hlater] at hrest
          cases hrest
          have hfails := ih.mpr ⟨values, last, Nat.lt_of_succ_lt_succ hless, hlater, hcell⟩
          rw [hfirst, Outcome.andThen, hfails]
          rfl

end Decoder

namespace Cursor

variable [ChunkSource σ] {cursor : Cursor σ}

/-- The decoder comes to a read that is too large. It fails there and leaves the cursor that its
reads before left. -/
structure Refused (cursor : Cursor σ) (decoder : Decoder α) (front : List Request) (size : Nat) :
    Prop where
  reads : decoder.reads byteSource cursor = front ++ [.bytes size]
  admitted : ∀ earlier, .bytes earlier ∈ front → earlier ≤ cursor.config.maxReadSize
  large : cursor.config.maxReadSize < size
  run : decoder.run byteSource cursor =
    (.error (.error (.readTooLarge size cursor.config.maxReadSize)), cursor.after front)

theorem kept_run (request : Request) (cursor : Cursor σ) :
    (request.run cursor).2.config = cursor.config ∧
      (request.run cursor).2.closed = cursor.closed :=
  ⟨(storage_run request cursor).1, closed_run request cursor⟩

/-- Either all reads of the decoder are admitted, or it is refused the last. -/
def Limited (cursor : Cursor σ) (decoder : Decoder α) : Prop :=
  (∀ size, .bytes size ∈ decoder.reads byteSource cursor → size ≤ cursor.config.maxReadSize) ∨
    ∃ front size, cursor.Refused decoder front size

/-- A read that is admitted stands in front of those that follow. -/
theorem Limited.later {decoder : Decoder α} (request : Request) (next : Decoder α)
    (hreads : decoder.reads byteSource cursor =
      request :: next.reads byteSource (request.run cursor).2)
    (hrun : decoder.run byteSource cursor = next.run byteSource (request.run cursor).2)
    (hadmitted : ∀ size, request = .bytes size → size ≤ cursor.config.maxReadSize)
    (h : (request.run cursor).2.Limited next) : cursor.Limited decoder := by
  obtain ⟨hconfig, _⟩ := kept_run request cursor
  rcases h with hall | ⟨front, size, hrefused⟩
  · refine .inl fun size hsize => ?_
    rw [hreads] at hsize
    rcases List.mem_cons.mp hsize with hfirst | hlater
    · exact hadmitted size hfirst.symm
    · rw [← hconfig]
      exact hall size hlater
  · refine .inr ⟨request :: front, size, ?_, fun earlier hearlier => ?_, ?_, ?_⟩
    · rw [hreads, hrefused.reads]
      rfl
    · rcases List.mem_cons.mp hearlier with hfirst | hlater
      · exact hadmitted earlier hfirst.symm
      · rw [← hconfig]
        exact hrefused.admitted earlier hlater
    · rw [← hconfig]
      exact hrefused.large
    · rw [hrun, hrefused.run, hconfig]
      rfl

theorem limited (decoder : Decoder α) (hopen : cursor.closed = false) :
    cursor.Limited decoder := by
  induction decoder generalizing cursor with
  | done => exact .inl fun _ hsize => absurd hsize List.not_mem_nil
  | fail => exact .inl fun _ hsize => absurd hsize List.not_mem_nil
  | byte next ih =>
    have hclosed := (kept_run .byte cursor).2.trans hopen
    rcases hread : cursor.readByte with ⟨fault | b, after⟩
    · refine .inl fun size hsize => ?_
      simp [Decoder.reads, byteSource, hread, Outcome.listNext] at hsize
    · have hafter : (Request.byte.run cursor).2 = after := by
        rw [Request.run, hread]
        rfl
      have hnext := ih b hclosed
      refine .later .byte (next b) ?_ ?_ (fun _ hsize => by cases hsize) hnext
      · rw [hafter]
        simp only [Decoder.reads, byteSource, hread, Outcome.listNext]
      · rw [hafter, Decoder.run_byte]
        simp only [byteSource, hread, Outcome.andThen]
  | bytes size next ih =>
    have hclosed := (kept_run (.bytes size) cursor).2.trans hopen
    by_cases hlarge : cursor.config.maxReadSize < size
    · have hread := readBytes_of_large hopen hlarge
      refine .inr ⟨[], size, ?_, fun _ hsize => absurd hsize List.not_mem_nil, hlarge, ?_⟩
      · simp only [Decoder.reads, byteSource, hread, Outcome.listNext, List.nil_append]
      · rw [Decoder.run_bytes]
        simp only [byteSource, hread, Outcome.andThen, after]
    · rcases hread : cursor.readBytes size with ⟨fault | block, after⟩
      · refine .inl fun other hother => ?_
        simp only [Decoder.reads, byteSource, hread, Outcome.listNext, List.mem_singleton] at hother
        cases hother
        exact Nat.not_lt.mp hlarge
      · have hafter : (Request.run (.bytes size) cursor).2 = after := congrArg Prod.snd hread
        have hnext := ih block hclosed
        refine .later (.bytes size) (next block) ?_ ?_ ?_ hnext
        · rw [hafter]
          simp only [Decoder.reads, byteSource, hread, Outcome.listNext]
        · rw [hafter, Decoder.run_bytes]
          simp only [byteSource, hread, Outcome.andThen]
        · rintro other ⟨⟩
          exact Nat.not_lt.mp hlarge
  | encoding next ih =>
    obtain hall | ⟨front, size, h⟩ := ih cursor.config.encoding hopen
    · exact .inl hall
    · exact .inr ⟨front, size, h.reads, h.admitted, h.large, h.run⟩

theorem kept_after (requests : List Request) (cursor : Cursor σ) :
    (cursor.after requests).config = cursor.config ∧
      (cursor.after requests).closed = cursor.closed := by
  induction requests generalizing cursor with
  | nil => exact ⟨rfl, rfl⟩
  | cons request requests ih =>
    obtain ⟨hconfig, hclosed⟩ := kept_run request cursor
    exact ⟨(ih _).1.trans hconfig, (ih _).2.trans hclosed⟩

/-- Either all reads of a program are admitted, or one of its steps is the first that is refused
one. -/
theorem limited_program (steps : List ReadStep) (hopen : cursor.closed = false) :
    (∀ size, .bytes size ∈ ReadStep.reads byteSource steps cursor →
      size ≤ cursor.config.maxReadSize) ∨
    ∃ before step later front size, steps = before ++ step :: later ∧
      (∀ size, .bytes size ∈ ReadStep.reads byteSource before cursor →
        size ≤ cursor.config.maxReadSize) ∧
      (ReadStep.finish byteSource before cursor).Refused step.decoder front size := by
  induction steps generalizing cursor with
  | nil => exact .inl nofun
  | cons step steps ih =>
    rcases limited step.decoder hopen with hall | ⟨front, size, hrefused⟩
    · have hstep : (step.run byteSource cursor).2 =
          cursor.after (step.decoder.reads byteSource cursor) := by
        rw [ReadStep.run_eq readsWords, run_decoder]
      obtain ⟨hconfig, hclosed⟩ := kept_after (step.decoder.reads byteSource cursor) cursor
      rw [← hstep] at hconfig hclosed
      have hboth (later : List ReadStep) (hlater : ∀ size,
          .bytes size ∈ ReadStep.reads byteSource later (step.run byteSource cursor).2 →
          size ≤ (step.run byteSource cursor).2.config.maxReadSize) :
          ∀ size, .bytes size ∈ ReadStep.reads byteSource (step :: later) cursor →
            size ≤ cursor.config.maxReadSize := by
        intro size hsize
        rcases List.mem_append.mp hsize with hfirst | hrest
        · exact hall size hfirst
        · rw [← hconfig]
          exact hlater size hrest
      rcases ih (hclosed.trans hopen) with
        hrest | ⟨before, last, later, front, size, rfl, hbefore, hrefused⟩
      · exact .inl (hboth steps hrest)
      · exact .inr ⟨step :: before, last, later, front, size, rfl, hboth before hbefore, hrefused⟩
    · exact .inr ⟨[], step, steps, front, size, rfl, nofun, hrefused⟩

/-- The first configuration refuses a read in the middle of the step. The other cursor makes the
same reads before it, with the same answers, and comes to this read in the same place. -/
structure CutShort (config config' : DecoderConfig) (cursor cursor' : Cursor σ) (step : ReadStep)
    (front : List Request) (size : Nat) : Prop where
  reads : step.decoder.reads byteSource cursor = front ++ [.bytes size]
  reads' : ∃ back, step.decoder.reads byteSource cursor' = front ++ .bytes size :: back
  admitted : ∀ earlier, .bytes earlier ∈ front → earlier ≤ config.maxReadSize
  answers : ∀ earlier request later, front = earlier ++ request :: later →
    request.run (cursor'.after earlier) =
      (request.run (cursor.after earlier)).map id (under config')
  place : cursor'.after front = (cursor.after front).under config'
  large : config.maxReadSize < size
  fails : step.run byteSource cursor =
    (.error (.error (.readTooLarge size config.maxReadSize)), cursor.after front)

/-- The runs are the same, or they are up to a step that the first configuration cuts short. -/
def SameOrCut (config config' : DecoderConfig) (steps : List ReadStep) (cursor cursor' : Cursor σ) :
    Prop :=
  ReadStep.trace byteSource steps cursor' =
      (ReadStep.trace byteSource steps cursor).map (Prod.map id (under config')) ∨
    ∃ before step later front size, steps = before ++ step :: later ∧
      ReadStep.trace byteSource before cursor' =
        (ReadStep.trace byteSource before cursor).map (Prod.map id (under config')) ∧
      CutShort config config' (ReadStep.finish byteSource before cursor)
        (ReadStep.finish byteSource before cursor') step front size

section Raised

variable {config : DecoderConfig} {limit : Nat} {cursor' : Cursor σ}

theorem alikeFor_raised (hlimit : config.maxReadSize ≤ limit) {size : Nat}
    (hsize : size ≤ config.maxReadSize) :
    config.AlikeFor { config with maxReadSize := limit } size :=
  ⟨.inr ⟨hsize, Nat.le_trans hsize hlimit⟩, .inl rfl⟩

omit [ChunkSource σ] in
theorem InStep.eq_of_limit {outcome outcome' : Outcome (Cursor σ) Value}
    (h : InStep config { config with maxReadSize := limit }
      (Value.Recoded config.encoding config.encoding) outcome outcome') :
    outcome' = outcome.map id (under { config with maxReadSize := limit }) :=
  Prod.ext (h.result.mono Value.Recoded.eq).eq.symm (h.state.eq_of_initial rfl)

theorem Refitted.trace_raised
    (h : Refitted config { config with maxReadSize := limit } cursor cursor')
    (hlimit : config.maxReadSize ≤ limit) (steps : List ReadStep)
    (hsizes : ∀ size, .bytes size ∈ ReadStep.reads byteSource steps cursor →
      size ≤ config.maxReadSize) :
    ReadStep.trace byteSource steps cursor' = (ReadStep.trace byteSource steps cursor).map
      (Prod.map id (under { config with maxReadSize := limit })) := by
  have htrace := h.trace steps fun size hsize => alikeFor_raised hlimit (hsizes size hsize)
  generalize ReadStep.trace byteSource steps cursor = outcomes at htrace ⊢
  generalize ReadStep.trace byteSource steps cursor' = outcomes' at htrace ⊢
  induction htrace with
  | nil => rfl
  | cons houtcome _ ih => rw [ih, houtcome.eq_of_limit, List.map_cons]

theorem Refitted.cutShort
    (h : Refitted config { config with maxReadSize := limit } cursor cursor')
    (hlimit : config.maxReadSize ≤ limit) {step : ReadStep} {front : List Request} {size : Nat}
    (hrefused : cursor.Refused step.decoder front size) :
    CutShort config { config with maxReadSize := limit } cursor cursor' step front size := by
  have halike : ∀ earlier, .bytes earlier ∈ front →
      config.AlikeFor { config with maxReadSize := limit } earlier := by
    intro earlier hearlier
    have hadmitted := hrefused.admitted earlier hearlier
    rw [h.configured] at hadmitted
    exact alikeFor_raised hlimit hadmitted
  refine ⟨hrefused.reads, ?_, h.configured ▸ hrefused.admitted, ?_, ?_,
    h.configured ▸ hrefused.large, ?_⟩
  · exact h.reads_decoder step.parallel_decoder hrefused.reads halike
  · rintro earlier request later rfl
    have hbefore := h.after earlier fun size hsize => halike size (List.mem_append_left _ hsize)
    have hanswer := hbefore.run request fun size hsize =>
      halike size (List.mem_append_right _ (hsize ▸ List.mem_cons_self))
    exact Prod.ext hanswer.result.eq.symm (hanswer.state.eq_of_initial rfl)
  · exact (h.after front halike).eq_of_initial rfl
  · rw [ReadStep.run_eq readsWords, ← h.configured]
    exact hrefused.run

end Raised

/-- A cell behind others has a length that the cursor does not admit. The cursor has read the
length, and no byte of the cell. -/
def HostileCell (rows size limit : Nat) (cursor after : Cursor σ) : Prop :=
  ∃ cells middle, cells.length < rows ∧
    (Decoder.times cells.length Column.sizedCell).run byteSource cursor = (.ok cells, middle) ∧
    Varint.readLength.run byteSource middle = (.ok size, after) ∧
    after.closed = false ∧ after.config.maxReadSize = limit ∧ limit < size

/-- The source never fails with an error by which a cursor refuses a read. -/
def NeverRefused (cursor : Cursor σ) : Prop :=
  ChunkSource.FailsWith (fun cause => cause.origin ≠ .refusal) cursor.source

/-- No limit refuses a byte. -/
theorem NeverRefused.readByte {cursor : Cursor σ} (h : cursor.NeverRefused) {size limit : Nat} :
    cursor.readByte.1 ≠ .error (.error (.readTooLarge size limit)) := by
  intro hfails
  have hrun : (Request.byte.run cursor).1 = .error (.error (.readTooLarge size limit)) := by
    rw [Request.run, Prod.map_fst, hfails]
    rfl
  cases ((run_tooLarge_iff (origin_eq_refusal h rfl)).mp hrun).1

/-- A varint is read byte by byte. -/
theorem NeverRefused.run_varint {cursor after : Cursor σ} (h : cursor.NeverRefused)
    {groups weight value size limit : Nat} :
    (Varint.readFrom groups weight value).run byteSource cursor ≠
      (.error (.error (.readTooLarge size limit)), after) := by
  induction groups generalizing weight value cursor with
  | zero =>
    rw [Varint.readFrom, Decoder.run_byte]
    simp only [byteSource]
    rcases hread : cursor.readByte with ⟨fault | b, next⟩
    · rintro ⟨⟩
      exact h.readByte (congrArg Prod.fst hread)
    · rw [Outcome.andThen]
      split
      · rintro ⟨⟩
      · rintro ⟨⟩
  | succ groups ih =>
    have hlater : (Request.byte.run cursor).2.NeverRefused := failsWith_after h [.byte]
    rw [Varint.readFrom, Decoder.run_byte]
    simp only [byteSource]
    rcases hread : cursor.readByte with ⟨fault | b, next⟩
    · rintro ⟨⟩
      exact h.readByte (congrArg Prod.fst hread)
    · rw [Request.run, hread] at hlater
      rw [Outcome.andThen]
      split
      · rintro ⟨⟩
      · exact ih hlater

theorem NeverRefused.run_sizedCell_iff {cursor after : Cursor σ} (h : cursor.NeverRefused)
    {size limit : Nat} :
    Column.sizedCell.run byteSource cursor = (.error (.error (.readTooLarge size limit)), after) ↔
      Varint.readLength.run byteSource cursor = (.ok size, after) ∧
        after.closed = false ∧ after.config.maxReadSize = limit ∧ limit < size := by
  have hlater : (Varint.readLength.run byteSource cursor).2.NeverRefused :=
    failsWith_decoder h Varint.readLength
  rw [Column.sizedCell, Decoder.bind_eq, Decoder.run_bind_andThen]
  rcases hlength : Varint.readLength.run byteSource cursor with ⟨fault | asked, middle⟩
  · constructor
    · rintro ⟨⟩
      exact absurd hlength h.run_varint
    · rintro ⟨⟨⟩, _⟩
  · rw [hlength] at hlater
    rw [Outcome.andThen, Decoder.run_takeBytes]
    constructor
    · intro hfails
      replace hfails : Request.run (.bytes asked) middle = _ := hfails
      obtain ⟨hsize, rfl, hopen, hlarge⟩ :=
        (run_tooLarge_iff (origin_eq_refusal hlater rfl)).mp (congrArg Prod.fst hfails)
      obtain rfl := Request.bytes.inj hsize
      replace hfails : middle.readBytes asked = _ := hfails
      rw [readBytes_of_large hopen hlarge] at hfails
      obtain rfl := (Prod.mk.inj hfails).2
      exact ⟨rfl, hopen, rfl, hlarge⟩
    · rintro ⟨hasked, hopen, rfl, hlarge⟩
      cases hasked
      exact readBytes_of_large hopen hlarge

/-- Cells of their own length are read up to the first that is too long. -/
theorem NeverRefused.run_cells_iff {cursor after : Cursor σ} (h : cursor.NeverRefused)
    {rows size limit : Nat} :
    (Decoder.times rows Column.sizedCell).run byteSource cursor =
        (.error (.error (.readTooLarge size limit)), after) ↔
      HostileCell rows size limit cursor after := by
  rw [Decoder.run_times_eq_error_iff, HostileCell]
  refine exists_congr fun cells => exists_congr fun middle => and_congr_right fun _ =>
    and_congr_right fun hcells => ?_
  have hmiddle : middle.NeverRefused := by
    have hlater := failsWith_decoder h (Decoder.times cells.length Column.sizedCell)
    rw [hcells] at hlater
    exact hlater
  exact hmiddle.run_sizedCell_iff

/-- Where columns of strings are refused a cell. -/
structure FailsAtLength (rows : Nat) (cursor : Cursor σ) : Prop where
  rawText : Column.bytesRoom * rows ≤ maxAllocation → ∀ size limit after,
    (Column.rawText rows).run byteSource cursor =
      (.error (.error (.readTooLarge size limit)), after) ↔
        HostileCell rows size limit cursor after
  text : Column.textRoom * rows ≤ maxAllocation → ∀ size limit after,
    (Column.text rows).run byteSource cursor =
      (.error (.error (.readTooLarge size limit)), after) ↔
        HostileCell rows size limit cursor after

theorem NeverRefused.failsAtLength {cursor : Cursor σ} (h : cursor.NeverRefused) (rows : Nat) :
    FailsAtLength rows cursor where
  rawText hroom size limit after := by
    rw [Column.rawText_eq hroom]
    exact h.run_cells_iff
  text hroom size limit after := by
    rw [Column.run_text_times byteSource cursor hroom, Decoder.times_map, Decoder.run_map,
      ← h.run_cells_iff]
    rcases (Decoder.times rows Column.sizedCell).run byteSource cursor with ⟨fault | cells, last⟩
    · simp [Except.map]
    · simp [Except.map]

/-- In a stream of cells a length that is not admitted is the last thing that is read. -/
theorem hostileCell_of_offers {config : DecoderConfig} {cursor : Cursor σ} {cells : List WireCell}
    {lead rest : Bytes} {rows : Nat} (hreached : cursor.Reached config)
    (hscratch : config.initialScratchCapacity ≤ 2 ^ 62) (hfits : ∀ cell ∈ cells, cell.Fits none)
    (hsizes : ∀ cell ∈ cells, cell.content.length ≤ min config.maxReadSize (2 ^ 61))
    (hlead : Varint.Spelling lead) (hlarge : config.maxReadSize < Varint.number lead)
    (hrows : cells.length < rows)
    (hoffers : cursor.Offers (cells.flatMap WireCell.bytes ++ lead ++ rest)) :
    ∃ after, HostileCell rows (Varint.number lead) config.maxReadSize cursor after ∧
      after.Offers rest ∧
      after.position = cursor.position + (cells.flatMap WireCell.bytes ++ lead).length := by
  have hcells : Consumes config.encoding (Decoder.times cells.length Column.sizedCell)
      (cells.flatMap WireCell.bytes) ((cells.map WireCell.content).map List.length)
      ((cells.map WireCell.content).map id) :=
    consumes_times fun cell hcell => WireCell.consumes (hfits cell hcell)
  rw [List.append_assoc] at hoffers
  obtain ⟨middle, hmiddle, hoffered, hkept, hfirst⟩ :=
    (hcells.run_offers hreached rfl (by simpa using hsizes) hoffers).of_room hscratch
  obtain ⟨after, hafter, hrest, hlast, hposition⟩ :=
    (hlead.consumes.run_offers hkept rfl nofun hoffered).of_room hscratch
  rw [List.map_id] at hmiddle
  refine ⟨after, ⟨cells.map WireCell.content, middle, ?_, ?_, hafter, hrest.opened, ?_, hlarge⟩,
    hrest, ?_⟩
  · rw [List.length_map]
    exact hrows
  · rw [List.length_map]
    exact hmiddle
  · rw [hlast.storage.1]
  · rw [hposition, hfirst, List.length_append, Nat.add_assoc]

/-- Two runs under two limits are the same, or they are up to a step that the lower one cuts
short. -/
theorem Refitted.same_or_cut {config : DecoderConfig} {limit : Nat} {cursor' : Cursor σ}
    (h : Refitted config { config with maxReadSize := limit } cursor cursor')
    (hopen : cursor.closed = false) (hlimit : config.maxReadSize ≤ limit)
    (steps : List ReadStep) :
    SameOrCut config { config with maxReadSize := limit } steps cursor cursor' := by
  rcases limited_program steps hopen with
    hall | ⟨before, step, later, front, size, rfl, hbefore, hrefused⟩
  · rw [h.configured] at hall
    exact .inl (h.trace_raised hlimit steps hall)
  · rw [h.configured] at hbefore
    have hplace := h.finish before fun size hsize => alikeFor_raised hlimit (hbefore size hsize)
    exact .inr ⟨before, step, later, front, size, rfl, h.trace_raised hlimit before hbefore,
      hplace.cutShort hlimit hrefused⟩

end Cursor

/-- The result says that a read was refused for its size. -/
def exceedsLimit : Except Fault α → Bool
  | .error (.error (.readTooLarge _ _)) => true
  | _ => false

theorem ReadStep.mem_trace (source : ByteSource σ) (before : List ReadStep) (step : ReadStep)
    (later : List ReadStep) (state : σ) :
    step.run source (finish source before state) ∈
      trace source (before ++ step :: later) state := by
  induction before generalizing state with
  | nil => exact List.mem_cons_self
  | cons first before ih => exact List.mem_cons_of_mem _ (ih _)

/-- No setting of a cursor moves a place in the stream. Another encoding changes the texts, another
initial capacity the size of scratch storage, and a lower limit refuses a read that the higher one
admits, before it has taken anything. That a column of strings failed at a length is told by its
error if the source does not fail with that error itself. -/
theorem settings_keep_framing [ChunkSource σ] {config : DecoderConfig} {source : σ}
    {start : Cursor σ} (hstart : Cursor.ofConfig config source = .ok start)
    (steps : List ReadStep) :
    (∀ encoding, ∃ start', Cursor.ofConfig { config with encoding } source = .ok start' ∧
      List.Forall₂
        (fun outcome outcome' =>
          Paired (Value.Recoded config.encoding encoding) outcome.1 outcome'.1 ∧
            outcome'.2 = outcome.2.under { config with encoding })
        (ReadStep.trace Cursor.byteSource steps start)
        (ReadStep.trace Cursor.byteSource steps start')) ∧
    (∀ limit, config.maxReadSize ≤ limit →
      ∃ start', Cursor.ofConfig { config with maxReadSize := limit } source = .ok start' ∧
        Cursor.SameOrCut config { config with maxReadSize := limit } steps start start' ∧
        ((∀ outcome ∈ ReadStep.trace Cursor.byteSource steps start,
            exceedsLimit outcome.1 = false) →
          ReadStep.trace Cursor.byteSource steps start' =
            (ReadStep.trace Cursor.byteSource steps start).map
              (Prod.map id (Cursor.under { config with maxReadSize := limit })))) ∧
    (ChunkSource.FailsWith (fun cause => cause.origin ≠ .refusal) source →
      ∀ rows, Cursor.FailsAtLength rows (ReadStep.finish Cursor.byteSource steps start)) ∧
    (∀ (cells : List WireCell) (lead rest : Bytes) (rows : Nat),
      config.initialScratchCapacity ≤ 2 ^ 62 → (∀ cell ∈ cells, cell.Fits none) →
      (∀ cell ∈ cells, cell.content.length ≤ min config.maxReadSize (2 ^ 61)) →
      Varint.Spelling lead → config.maxReadSize < Varint.number lead → cells.length < rows →
      (ReadStep.finish Cursor.byteSource steps start).Offers
        (cells.flatMap WireCell.bytes ++ lead ++ rest) →
      ∃ after,
        Cursor.HostileCell rows (Varint.number lead) config.maxReadSize
          (ReadStep.finish Cursor.byteSource steps start) after ∧
        after.Offers rest ∧
        after.position = (ReadStep.finish Cursor.byteSource steps start).position +
          (cells.flatMap WireCell.bytes ++ lead).length) ∧
    ∀ capacity start',
      Cursor.ofConfig { config with initialScratchCapacity := capacity } source = .ok start' →
      config.initialScratchCapacity ≤ 2 ^ 62 → capacity ≤ 2 ^ 62 →
      (∀ request ∈ ReadStep.reads Cursor.byteSource steps start, request.size ≤ 2 ^ 61) →
      List.Forall₂
        (fun outcome outcome' => outcome'.1 = outcome.1 ∧
          outcome'.2 = outcome.2.refit { config with initialScratchCapacity := capacity }
            outcome'.2.scratchCapacity)
        (ReadStep.trace Cursor.byteSource steps start)
        (ReadStep.trace Cursor.byteSource steps start') := by
  obtain ⟨hvalid, hnew⟩ := Cursor.ofConfig_eq_ok_iff.mp hstart
  have hopen : start.closed = false := by rw [hnew]
  refine ⟨?encoding, ?limit, ?columns, ?streams, ?capacity⟩
  case encoding =>
    intro encoding
    have hvalid' : { config with encoding }.validate = .ok () := hvalid
    have hstart' : Cursor.ofConfig { config with encoding } source = .ok _ :=
      Cursor.ofConfig_eq_ok_iff.mpr ⟨hvalid', rfl⟩
    have htrace := (Cursor.refitted_ofConfig hstart hstart').trace steps fun _ _ =>
      ⟨.inl rfl, .inl rfl⟩
    exact ⟨_, hstart', htrace.imp fun _ _ hstep => ⟨hstep.result, hstep.state.eq_of_initial rfl⟩⟩
  case limit =>
    intro limit hlimit
    obtain ⟨hscratch, hpositive, hreader⟩ := (DecoderConfig.validate_eq_ok_iff config).mp hvalid
    have hvalid' : { config with maxReadSize := limit }.validate = .ok () :=
      (DecoderConfig.validate_eq_ok_iff _).mpr
        ⟨hscratch, Nat.lt_of_lt_of_le hpositive hlimit, hreader⟩
    have hstart' : Cursor.ofConfig { config with maxReadSize := limit } source = .ok _ :=
      Cursor.ofConfig_eq_ok_iff.mpr ⟨hvalid', rfl⟩
    have hsame := (Cursor.refitted_ofConfig hstart hstart').same_or_cut hopen hlimit steps
    refine ⟨_, hstart', hsame, fun hadmitted => ?_⟩
    rcases hsame with hsame | ⟨before, step, later, front, size, rfl, _, hcut⟩
    · exact hsame
    · have hmem := ReadStep.mem_trace Cursor.byteSource before step later start
      have hfits := hadmitted _ hmem
      rw [hcut.fails] at hfits
      cases hfits
  case columns =>
    intro hsource rows
    have hnever : start.NeverRefused := by
      rw [hnew]
      exact hsource
    have hlater : (ReadStep.finish Cursor.byteSource steps start).NeverRefused := by
      rw [Cursor.finish_eq]
      exact Cursor.failsWith_after hnever _
    exact hlater.failsAtLength rows
  case streams =>
    intro cells lead rest rows hscratch hfits hsizes hlead hlarge hrows hoffers
    have hreached : (ReadStep.finish Cursor.byteSource steps start).Reached config := by
      rw [Cursor.finish_eq]
      exact (Cursor.Reached.start hstart).after _
    exact Cursor.hostileCell_of_offers hreached hscratch hfits hsizes hlead hlarge hrows hoffers
  case capacity =>
    intro capacity start' hstart' hscratch hscratch' hsizes
    have hrefitted := Cursor.refitted_ofConfig hstart hstart'
    have htrace := hrefitted.trace steps fun size hsize =>
      ⟨.inl rfl, .inr ⟨hscratch, hscratch', hsizes (.bytes size) hsize⟩⟩
    exact htrace.imp fun _ _ hstep =>
      ⟨(hstep.result.mono Value.Recoded.eq).eq.symm, hstep.state.same⟩

/-- No read of more than four bytes. -/
def lowLimit : DecoderConfig := { maxReadSize := 4 }

/-- A cell of two bytes, a length of 128 and one byte more, cut in the cell and in the length. -/
def longCellChunks : List Bytes := [[2, 97], [0xff, 0x80], [1, 7]]

def longCellStart : Cursor (List Bytes) where
  source := longCellChunks
  config := lowLimit

/-- The cursor stops behind the length of 128, and the byte there is still to be read. The cell
before is read under a higher limit, in another encoding and with less scratch storage. -/
theorem settings_keep_framing_hostile :
    (∃ after, (Column.text 2).run Cursor.byteSource longCellStart =
        (.error (.error (.readTooLarge 128 4)), after) ∧ after.Offers [7] ∧ after.position = 5) ∧
    (∃ start, Cursor.ofConfig { lowLimit with maxReadSize := 128 } longCellChunks = .ok start ∧
      Cursor.SameOrCut lowLimit { lowLimit with maxReadSize := 128 } [.column .text 2] longCellStart
        start ∧
      (ReadStep.trace Cursor.byteSource [.column .text 1] start).map Prod.fst =
        [.ok (.column [.text "61ff"])]) ∧
    (∃ start, Cursor.ofConfig { lowLimit with encoding := .latin1 } longCellChunks = .ok start ∧
      (ReadStep.run Cursor.byteSource (.column .text 1) start).2.position = 3) ∧
    ∃ start, Cursor.ofConfig { lowLimit with initialScratchCapacity := 64 } longCellChunks =
        .ok start ∧
      (ReadStep.run Cursor.byteSource (.column .text 1) start).1 =
        .ok (.column [.text "61ff"]) := by
  have hstart : Cursor.ofConfig lowLimit longCellChunks = .ok longCellStart := by rfl
  have hnone := settings_keep_framing hstart []
  have hone := settings_keep_framing hstart [.column .text 1]
  have htwo := settings_keep_framing hstart [.column .text 2]
  refine ⟨?_, ?_, ?_, ?_⟩
  · have hfits : ∀ cell ∈ [WireCell.mk ([] ++ [2]) [97, 0xff]], cell.Fits none := by
      intro cell hcell
      obtain rfl := List.mem_singleton.mp hcell
      exact ⟨.mk Varint.unfinished_nil (by decide) (by decide), by decide⟩
    have hlead : Varint.Spelling ([] ++ [0x80] ++ [1]) :=
      .mk (Varint.unfinished_nil.concat (by decide) (by decide)) (by decide) (by decide)
    have hoffers : longCellStart.Offers
        ([WireCell.mk ([] ++ [2]) [97, 0xff]].flatMap WireCell.bytes ++ ([] ++ [0x80] ++ [1]) ++
          [7]) :=
      ⟨rfl, [⟨2, [97]⟩, ⟨0xff, [0x80]⟩, ⟨1, [7]⟩], _, .more rfl (.more rfl (.more rfl (.none _))),
        fun _ => rfl, List.prefix_rfl⟩
    obtain ⟨after, hcell, hrest, hposition⟩ :=
      hnone.2.2.2.1 _ _ [7] 2 (by decide) hfits (by decide) hlead (by decide) (by decide) hoffers
    exact ⟨after, ((hnone.2.2.1 (failsWith_list _) 2).text (by decide) _ _ _).mpr hcell, hrest,
      hposition⟩
  · obtain ⟨start, hraised, hsame, _⟩ := htwo.2.1 128 (by decide)
    obtain ⟨start', hraised', _, hagree⟩ := hone.2.1 128 (by decide)
    obtain rfl : start = start' := Except.ok.inj (hraised.symm.trans hraised')
    refine ⟨start, hraised, hsame, ?_⟩
    rw [hagree (by decide +kernel)]
    decide +kernel
  · obtain ⟨start, hlatin, htrace⟩ := hone.1 .latin1
    obtain ⟨⟨_, hstate⟩, _⟩ := List.forall₂_cons.mp htrace
    refine ⟨start, hlatin, ?_⟩
    rw [hstate]
    decide +kernel
  · have hless : Cursor.ofConfig { lowLimit with initialScratchCapacity := 64 } longCellChunks =
        .ok { source := longCellChunks,
              config := { lowLimit with initialScratchCapacity := 64 } } := by
      rfl
    have htrace := hone.2.2.2.2 64 _ hless (by decide) (by decide) (by decide +kernel)
    obtain ⟨⟨hresult, _⟩, _⟩ := List.forall₂_cons.mp htrace
    refine ⟨_, hless, ?_⟩
    rw [hresult]
    decide +kernel

end Columnar
