import Columnar.Proofs.Chunk.Cutting
import Columnar.Proofs.Chunk.Relay

/-!
Reading from a reader. A source over a reader answers like a script with the pieces of the data and
the failures that are not interruptions, up to the end. So a cursor over it is a cursor over that
script, and if the reader is only slow, one over the data.
-/
namespace Columnar

/-- The script that a reader makes for a source with room for so many bytes: its data in pieces and
its failures, up to the end. -/
def ReadEvent.script (room : Nat) : List ReadEvent → List SourceEvent
  | [] => []
  | .finish :: _ => []
  | .failure cause :: rest =>
    if cause.kind = .interrupted then script room rest else .failure cause :: script room rest
  | .data bytes :: rest =>
    if (bytes.take room).isEmpty then []
    else (Bytes.splitEvery room bytes).map .chunk ++ script room rest

/-- The script of a source that is left alone once it has found the end. -/
def ChunkedReader.script (source : ChunkedReader) : List SourceEvent :=
  if source.finished then [] else ReadEvent.script source.chunkSize source.events

namespace ChunkedReader

/-- What does not fit one read is cut by the next in the same way. -/
theorem script_data {room : Nat} {bytes : Bytes} (rest : List ReadEvent)
    (hsome : bytes.take room ≠ []) :
    ReadEvent.script room (.data bytes :: rest) =
      .chunk (bytes.take room) ::
        ReadEvent.script room (ReadEvent.read room (.data bytes :: rest)).2 := by
  have hroom : 0 < room := Nat.pos_of_ne_zero fun hzero => hsome (by rw [hzero, List.take_zero])
  have hbytes : bytes ≠ [] := fun hnone => hsome (by rw [hnone, List.take_nil])
  rw [ReadEvent.script, if_neg (by simpa using hsome), Bytes.splitEvery_of_ne_nil hroom hbytes,
    List.map_cons, List.cons_append, ReadEvent.read]
  split
  · next hleft =>
    rw [hleft, Bytes.splitEvery_nil]
    rfl
  · next hleft =>
    have hpiece : ((bytes.drop room).take room).isEmpty = false := by
      rw [List.isEmpty_eq_false_iff, Ne, List.take_eq_nil_iff, not_or]
      exact ⟨Nat.ne_of_gt hroom, hleft⟩
    rw [ReadEvent.script, if_neg (by simp [hpiece])]

theorem next_interrupted {cause : IoError} (hkind : cause.kind = .interrupted)
    (rest : List ReadEvent) (room : Nat) :
    ChunkSource.next (⟨.failure cause :: rest, room, false⟩ : ChunkedReader) =
      ChunkSource.next (⟨rest, room, false⟩ : ChunkedReader) := by
  have hread : readOn room (.failure cause :: rest) = readOn room rest := if_pos hkind
  simp only [ChunkSource.next, next, hread]
  rfl

/-- The source gives the answers of its script. -/
theorem follows_script : Follows script := by
  rintro ⟨events, room, finished⟩
  cases finished with
  | true => rfl
  | false =>
    induction events with
    | nil => rfl
    | cons event rest ih =>
      cases event with
      | finish => rfl
      | failure cause =>
        by_cases hkind : cause.kind = .interrupted
        · have hscript : script ⟨.failure cause :: rest, room, false⟩ =
              script ⟨rest, room, false⟩ := if_pos hkind
          rw [next_interrupted hkind, hscript, ih]
        · have hscript : script ⟨.failure cause :: rest, room, false⟩ =
              .failure cause :: script ⟨rest, room, false⟩ := if_neg hkind
          have hnext : ChunkSource.next (⟨.failure cause :: rest, room, false⟩ : ChunkedReader) =
              (.error (.source cause), ⟨rest, room, false⟩) := by
            simp only [ChunkSource.next, next, readOn, if_neg hkind]
            rfl
          rw [hscript, hnext]
          rfl
      | data bytes =>
        have hread : readOn room (.data bytes :: rest) =
            (.ok (bytes.take room), (ReadEvent.read room (.data bytes :: rest)).2) :=
          Prod.ext (ReadEvent.read_data room bytes rest) rfl
        cases hpiece : bytes.take room with
        | nil =>
          have hscript : script ⟨.data bytes :: rest, room, false⟩ = [] := by
            simp [script, ReadEvent.script, hpiece]
          rw [hpiece] at hread
          rw [hscript]
          simp only [ChunkSource.next, next, hread]
          rfl
        | cons head tail =>
          have hscript : script ⟨.data bytes :: rest, room, false⟩ = .chunk (bytes.take room) ::
              ReadEvent.script room (ReadEvent.read room (.data bytes :: rest)).2 :=
            script_data rest (by simp [hpiece])
          rw [hpiece] at hread hscript
          rw [hscript]
          simp only [ChunkSource.next, next, hread]
          rfl

end ChunkedReader

section Follows

variable [ChunkSource σ] [ChunkSource τ] {f : σ → τ} (hf : Follows f)

include hf

theorem Follows.supplies {source : σ} {last : τ} {chunks : List Chunk}
    (h : Supplies (f source) chunks last) : ∃ rest, Supplies source chunks rest ∧ f rest = last := by
  generalize hstart : f source = start at h
  induction h generalizing source with
  | none => exact ⟨source, .none source, hstart⟩
  | more hnext _ ih =>
    subst hstart
    rw [hf source] at hnext
    obtain ⟨hanswer, hmiddle⟩ := Prod.mk.inj hnext
    obtain ⟨rest, hrest, hlast⟩ := ih hmiddle
    exact ⟨rest, .more (Prod.ext hanswer rfl) hrest, hlast⟩

theorem Follows.ends_iff (source : σ) : Ends (f source) ↔ Ends source := by
  rw [Ends, Ends, hf source]
  rfl

/-- What a source delivers, one that is followed by it delivers too. -/
theorem Follows.delivers {source : σ} {chunks : List Chunk} (h : Delivers (f source) chunks) :
    Delivers source chunks := by
  obtain ⟨last, hsupplies, hends⟩ := h
  obtain ⟨rest, hrest, rfl⟩ := hf.supplies hsupplies
  exact ⟨rest, hrest, (hf.ends_iff rest).mp hends⟩

namespace Cursor

theorem run_decoder_mapSource (decoder : Decoder α) (cursor : Cursor σ) :
    decoder.run byteSource (cursor.mapSource f) =
      (decoder.run byteSource cursor).map id (mapSource f) := by
  induction decoder generalizing cursor with
  | done => rfl
  | fail => rfl
  | byte next ih =>
    rw [Decoder.run_byte, Decoder.run_byte]
    simp only [byteSource, readByte_mapSource hf]
    rcases cursor.readByte with ⟨fault | b, after⟩
    · rfl
    · exact ih b after
  | bytes size next ih =>
    rw [Decoder.run_bytes, Decoder.run_bytes]
    simp only [byteSource, readBytes_mapSource hf]
    rcases cursor.readBytes size with ⟨fault | block, after⟩
    · rfl
    · exact ih block after
  | encoding next ih => exact ih _ cursor

/-- A program does the same over a source that follows another. -/
theorem trace_mapSource (steps : List ReadStep) (cursor : Cursor σ) :
    ReadStep.trace byteSource steps (cursor.mapSource f) =
      (ReadStep.trace byteSource steps cursor).map (Prod.map id (mapSource f)) := by
  induction steps generalizing cursor with
  | nil => rfl
  | cons step steps ih =>
    simp only [ReadStep.trace, ReadStep.run_eq readsWords, run_decoder_mapSource hf, ih,
      Prod.map_snd, List.map_cons]

end Cursor

end Follows

/-- The reader yields the data in pieces, now and then interrupted, and then it ends. What it would
do behind its end does not matter. -/
inductive Trickles : List ReadEvent → Bytes → Prop where
  | ended {events : List ReadEvent} (hend : ∀ room, (ReadEvent.read room events).1 = .ok []) :
      Trickles events []
  | piece {events : List ReadEvent} {bytes data : Bytes} (hsome : bytes ≠ [])
      (hrest : Trickles events data) : Trickles (.data bytes :: events) (bytes ++ data)
  | interrupted {events : List ReadEvent} {cause : IoError} {data : Bytes}
      (hkind : cause.kind = .interrupted) (hrest : Trickles events data) :
      Trickles (.failure cause :: events) data

/-- The script of a reader that is only slow has chunks and nothing else. -/
theorem Trickles.script {events : List ReadEvent} {data : Bytes} (h : Trickles events data)
    {room : Nat} (hroom : 0 < room) : ∃ chunks : List Chunk,
      ReadEvent.script room events = chunks.map (fun chunk => .chunk chunk.bytes) ∧
        joined chunks = data := by
  induction h with
  | @ended events hend =>
    refine ⟨[], ?_, rfl⟩
    have hread := hend room
    rcases events with _ | ⟨_ | _ | cause, rest⟩
    · rfl
    · rw [ReadEvent.read_data] at hread
      rw [ReadEvent.script, if_pos (by simp [Except.ok.inj hread])]
      rfl
    · rfl
    · cases hread
  | @piece events bytes data hsome _ ih =>
    obtain ⟨later, hlater, rfl⟩ := ih
    obtain ⟨chunks, hchunks, rfl⟩ := (Bytes.evenlyCut_splitEvery hroom bytes).exists_chunks
    have hpiece : ¬ ((joined chunks).take room).isEmpty := by
      rw [List.isEmpty_iff, List.take_eq_nil_iff, not_or]
      exact ⟨Nat.ne_of_gt hroom, hsome⟩
    refine ⟨chunks ++ later, ?_, joined_append chunks later⟩
    rw [ReadEvent.script, if_neg hpiece, hchunks, hlater, List.map_append, List.map_map]
    rfl
  | interrupted hkind _ ih =>
    obtain ⟨chunks, hchunks, hdata⟩ := ih
    exact ⟨chunks, by rw [ReadEvent.script, if_pos hkind, hchunks], hdata⟩

/-- A script of chunks delivers them. -/
theorem delivers_script (chunks : List Chunk) :
    Delivers (chunks.map fun chunk => SourceEvent.chunk chunk.bytes) chunks := by
  induction chunks with
  | nil => exact ⟨[], .none _, .inl rfl⟩
  | cons chunk chunks ih => exact ih.cons rfl

/-- What a source makes of its reader, in any number of calls. -/
structure RelaysOnce (size : Nat) (events : List ReadEvent) : Prop where
  /-- Every call is told by the reads that were made, and the chunks are the bytes that they
  brought. -/
  relayed : ∀ calls, ∃ reads idle, ChunkedReader.Relayed size events calls reads idle ∧
    joined (ChunkSource.handed calls (ChunkedReader.ofEvents size events)) =
      (ReadEvent.answers (max size 1) reads events).flatMap ReadEvent.delivered
  chunk : ∀ calls bytes,
    .ok (some bytes) ∈ ChunkSource.answers calls (ChunkedReader.ofEvents size events) →
    bytes ≠ [] ∧ bytes.length ≤ max size 1
  failure : ChunkSource.FailsWith
    (fun cause => ∃ failure, cause = .source failure ∧ failure.kind ≠ .interrupted)
    (ChunkedReader.ofEvents size events)
  ended : ∀ calls,
    (ChunkSource.next (ChunkSource.later calls (ChunkedReader.ofEvents size events))).1 = .ok none ↔
      (ChunkSource.later (calls + 1) (ChunkedReader.ofEvents size events)).finished = true

theorem relaysOnce (size : Nat) (events : List ReadEvent) : RelaysOnce size events where
  relayed calls := by
    obtain ⟨reads, idle, h⟩ := ChunkedReader.relayed size events calls
    exact ⟨reads, idle, h, h.bytes⟩
  chunk calls _ hmem := by
    obtain ⟨_, _, h⟩ := ChunkedReader.relayed size events calls
    exact h.chunk hmem
  failure calls _ hmem := by
    obtain ⟨_, _, h⟩ := ChunkedReader.relayed size events calls
    exact h.failure hmem
  ended calls := by
    rw [(ChunkedReader.answers_succ calls _).2]
    exact ChunkedReader.next_eq_none_iff _

/-- Over a reader that is only slow a cursor reads the data. -/
theorem Trickles.observe_eq {events : List ReadEvent} {data : Bytes} (h : Trickles events data)
    {size : Nat} {config : DecoderConfig} {start : Cursor ChunkedReader}
    (hstart : Cursor.ofConfig config (ChunkedReader.ofEvents size events) = .ok start)
    (hscratch : config.initialScratchCapacity ≤ 2 ^ 62) (steps : List ReadStep)
    (hrequests : ∀ size ∈ ReadStep.requests Slice.byteSource steps (.ofBytes data config.encoding),
      size ≤ min config.maxReadSize (2 ^ 61)) :
    untilEnd (ReadStep.observe Cursor.byteSource Cursor.position steps start) =
      untilEnd (ReadStep.observe Slice.byteSource Slice.position steps
        (.ofBytes data config.encoding)) := by
  have hroom : 0 < max size 1 := by omega
  obtain ⟨chunks, hscript, rfl⟩ := h.script hroom
  have hdelivers : Delivers (ChunkedReader.ofEvents size events).script chunks := by
    have hchunks := delivers_script chunks
    rw [← hscript] at hchunks
    exact hchunks
  have hreader := ChunkedReader.follows_script.delivers hdelivers
  exact (Cursor.represents_ofConfig hstart hreader).observe_eq hscratch steps hrequests

/-- A source over a reader hands out what the reader brings, once and in order, whatever the reader
does and however little it is asked for, and it takes nothing for the end but a read without bytes.
So a cursor over it does what it would over the script of the reader, and over a reader that is only
slow it reads the data. -/
theorem reader_relayed_once (size : Nat) (events : List ReadEvent) :
    RelaysOnce size events ∧
    (∀ source : ChunkedReader, source.finished = true →
      ChunkSource.next source = (.ok none, source)) ∧
    (∀ (config : DecoderConfig) (start : Cursor ChunkedReader),
      Cursor.ofConfig config (ChunkedReader.ofEvents size events) = .ok start →
      ∃ scripted, Cursor.ofConfig config (ReadEvent.script (max size 1) events) = .ok scripted ∧
        ∀ steps, ReadStep.trace Cursor.byteSource steps scripted =
          (ReadStep.trace Cursor.byteSource steps start).map
            (Prod.map id (Cursor.mapSource ChunkedReader.script))) ∧
    ∀ data, Trickles events data →
      (∃ chunks : List Chunk, joined chunks = data ∧
        ReadEvent.script (max size 1) events = chunks.map fun chunk => .chunk chunk.bytes) ∧
      ∀ (config : DecoderConfig) (start : Cursor ChunkedReader) (steps : List ReadStep),
        Cursor.ofConfig config (ChunkedReader.ofEvents size events) = .ok start →
        config.initialScratchCapacity ≤ 2 ^ 62 →
        (∀ size ∈ ReadStep.requests Slice.byteSource steps (.ofBytes data config.encoding),
          size ≤ min config.maxReadSize (2 ^ 61)) →
        untilEnd (ReadStep.observe Cursor.byteSource Cursor.position steps start) =
          untilEnd (ReadStep.observe Slice.byteSource Slice.position steps
            (.ofBytes data config.encoding)) := by
  refine ⟨relaysOnce size events, fun _ => ChunkedReader.next_of_finished, ?script, ?data⟩
  case script =>
    intro config start hstart
    obtain ⟨hvalid, rfl⟩ := Cursor.ofConfig_eq_ok_iff.mp hstart
    refine ⟨_, Cursor.ofConfig_eq_ok_iff.mpr ⟨hvalid, rfl⟩, fun steps => ?_⟩
    exact Cursor.trace_mapSource ChunkedReader.follows_script steps
      { source := ChunkedReader.ofEvents size events, config }
  case data =>
    intro data hdata
    have hroom : 0 < max size 1 := by omega
    obtain ⟨chunks, hscript, hjoined⟩ := hdata.script hroom
    exact ⟨⟨chunks, hjoined, hscript⟩,
      fun _ _ steps hstart hscratch hrequests => hdata.observe_eq hstart hscratch steps hrequests⟩

def interruption : IoError where
  kind := .interrupted

/-- Two texts in pieces, with interruptions before and between, and more behind the end. -/
def slowReader : List ReadEvent :=
  [.failure interruption, .data [3, 97, 98], .failure interruption, .failure interruption,
    .data [99, 1], .data [100], .finish, .data [7]]

/-- Asked for two bytes at a time, the reader gives four chunks, and then nothing more. The texts
that are cut are put together. -/
theorem reader_relayed_once_slow :
    ChunkSource.handed 6 (ChunkedReader.ofEvents 2 slowReader) =
      [⟨3, [97]⟩, ⟨98, []⟩, ⟨99, [1]⟩, ⟨100, []⟩] ∧
    (∃ reads idle, ChunkedReader.Relayed 2 slowReader 6 reads idle) ∧
    untilEnd (ReadStep.observe Cursor.byteSource Cursor.position [.column .text 2, .byte]
        (Cursor.ofSource (ChunkedReader.ofEvents 2 slowReader))) =
      [(.ok (.column [.text "abc", .text "d"]), 6), (.error (.error (.endOfStream 1 0)), 6)] := by
  have hlaw := reader_relayed_once 2 slowReader
  have htrickles : Trickles slowReader ([3, 97, 98] ++ ([99, 1] ++ ([100] ++ []))) :=
    .interrupted rfl (.piece (by decide) (.interrupted rfl (.interrupted rfl
      (.piece (by decide) (.piece (by decide) (.ended fun _ => rfl))))))
  have hstart : Cursor.ofConfig {} (ChunkedReader.ofEvents 2 slowReader) =
      .ok (Cursor.ofSource (ChunkedReader.ofEvents 2 slowReader)) := by rfl
  obtain ⟨reads, idle, hrelayed, _⟩ := hlaw.1.relayed 6
  refine ⟨by decide, ⟨reads, idle, hrelayed⟩, ?_⟩
  rw [(hlaw.2.2.2 _ htrickles).2 {} _ [.column .text 2, .byte] hstart (by decide) (by decide +kernel)]
  rfl

end Columnar
