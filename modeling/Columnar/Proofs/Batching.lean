import Columnar.Proofs.Cursor.Splitting
import Columnar.Proofs.Framing

/-!
Columns in batches. It makes no difference whether rows are decoded at once or in several batches,
one after another: the same rows are decoded, or none of the two ways succeeds, and the same is left
to be read. For cells that carry their length this is how they are decoded anyway. A block is read
whole or in parts with the same bytes, and its parts are cut into the same cells.
-/
namespace Columnar

theorem mulSat_add {size a b : Nat} (h : size * (a + b) ≤ maxSize) :
    mulSat size (a + b) = mulSat size a + mulSat size b := by
  rw [Nat.mul_add] at h
  rw [mulSat_eq _ _ (by rw [Nat.mul_add]; exact h), mulSat_eq _ _ (by omega),
    mulSat_eq _ _ (by omega), Nat.mul_add]

theorem Bytes.exists_append {block : Bytes} {m n : Nat} (h : block.length = m + n) :
    ∃ front back, block = front ++ back ∧ front.length = m ∧ back.length = n :=
  ⟨block.take m, block.drop m, (List.take_append_drop m block).symm, by simp [h], by simp [h]⟩

theorem Bytes.cells_append {size a b : Nat} {front back : Bytes} (h : front.length = size * a) :
    cells size (a + b) (front ++ back) = cells size a front ++ cells size b back := by
  induction a generalizing front with
  | zero =>
    obtain rfl := List.eq_nil_of_length_eq_zero h
    simp
  | succ a ih =>
    rw [Nat.mul_succ] at h
    have hrest : (front.drop size).length = size * a := by
      rw [List.length_drop]
      omega
    rw [Nat.add_right_comm, cells_succ, cells_succ, List.take_append_of_le_length (by omega),
      List.drop_append_of_le_length (by omega), ih hrest, List.cons_append]

theorem ColumnType.cells_append_eq_ok_iff {encoding : TextEncoding} {type : ColumnType}
    {size a b : Nat} {front back : Bytes} {column : List Cell} (h : front.length = size * a) :
    type.cells encoding size (a + b) (front ++ back) = .ok column ↔
      ∃ values later, type.cells encoding size a front = .ok values ∧
        type.cells encoding size b back = .ok later ∧ column = values ++ later := by
  rw [cells, Bytes.cells_append h, List.mapM_append, ← cells, ← cells]
  cases type.cells encoding size a front with
  | error cause => simp [bind, Except.bind]
  | ok values =>
    cases type.cells encoding size b back with
    | error cause => simp [bind, Except.bind]
    | ok later => simp [bind, Except.bind, pure, Except.pure, eq_comm]

theorem Decoder.times_add (a b : Nat) (cell : Decoder α) :
    times (a + b) cell = both (times a cell) (times b cell) := by
  induction a with
  | zero => simp [both, bind_done]
  | succ a ih =>
    rw [Nat.add_right_comm, times_succ, both, times_succ, ih]
    simp only [both, bind_eq, pure_eq, bind_assoc, done_bind, List.cons_append]

theorem Decoder.map_both (f : α → β) (first second : Decoder (List α)) :
    both (List.map f <$> first) (List.map f <$> second) = List.map f <$> both first second := by
  simp only [both, map_eq, bind_eq, pure_eq, bind_assoc, done_bind, List.map_append]

/-- Reading does not change how text is decoded. -/
structure ByteSource.KeepsEncoding (source : ByteSource σ) : Prop where
  byte : ∀ state, source.encoding (source.readByte state).2 = source.encoding state
  bytes : ∀ size state, source.encoding (source.readBytes size state).2 = source.encoding state

theorem ByteSource.KeepsEncoding.run {source : ByteSource σ} (h : source.KeepsEncoding)
    (decoder : Decoder α) (state : σ) :
    source.encoding (decoder.run source state).2 = source.encoding state := by
  induction decoder generalizing state with
  | done => rfl
  | fail => rfl
  | byte next ih =>
    rw [Decoder.run_byte, ← h.byte state]
    generalize source.readByte state = outcome
    rcases outcome with ⟨fault | b, after⟩
    · rfl
    · exact ih b after
  | bytes size next ih =>
    rw [Decoder.run_bytes, ← h.bytes size state]
    generalize source.readBytes size state = outcome
    rcases outcome with ⟨fault | block, after⟩
    · rfl
    · exact ih block after
  | encoding next ih => exact ih _ state

/-- Where there is room for the rows of two batches there is room for each of them. -/
theorem ColumnType.room_add {type : ColumnType} {a b : Nat}
    (h : type.room * (a + b) ≤ maxAllocation) :
    type.room * a ≤ maxAllocation ∧ type.room * b ≤ maxAllocation := by
  rw [Nat.mul_add] at h
  omega

/-- Decodes rows in batches, one after another. -/
def ColumnType.readBatches (type : ColumnType) : List Nat → Decoder (List Cell)
  | [] => .done []
  | rows :: batches => .both (type.read rows) (type.readBatches batches)

section Source

variable {source : ByteSource σ} {Same : σ → σ → Prop} {state : σ} {type : ColumnType}
  {size a b : Nat}

/-- The source serves a block of rows where it serves the blocks of two batches. -/
structure ServesBatches (source : ByteSource σ) (Same : σ → σ → Prop) (size a b : Nat) (state : σ) :
    Prop where
  split : Alike Same (source.readBytes (mulSat size (a + b)) state)
    ((Decoder.takeBoth (mulSat size a) (mulSat size b)).run source state)
  whole : ColumnType.ServesBlock source size (a + b) state
  front : ColumnType.ServesBlock source size a state
  back : ∀ front middle, source.readBytes (mulSat size a) state = (.ok front, middle) →
    ColumnType.ServesBlock source size b middle ∧ source.encoding middle = source.encoding state

/-- Rows that are one block can be read in two batches. -/
theorem ServesBatches.alike (h : ServesBatches source Same size a b state)
    (hsize : type.cellSize = some size) (hread : type ≠ .fixedText 0) (hvalid : type.Valid)
    (hroom : type.room * (a + b) ≤ maxAllocation) :
    Alike Same ((type.read (a + b)).run source state)
      ((Decoder.both (type.read a) (type.read b)).run source state) := by
  have hless := ColumnType.room_add hroom
  have hwhole := ColumnType.run_read hsize hread hvalid hroom h.whole
  have hfirst := ColumnType.run_read hsize hread hvalid hless.1 h.front
  constructor
  case forth =>
    intro column after hrun
    obtain ⟨block, hblock, hcells⟩ := ColumnType.runBlock_eq_ok_iff.mp (hwhole ▸ hrun)
    obtain ⟨last, htwice, hsame⟩ := h.split.forth block after hblock
    obtain ⟨front, middle, back, hfront, hback, rfl⟩ := Decoder.run_takeBoth_eq_ok_iff.mp htwice
    obtain ⟨hserves, hencoding⟩ := h.back front middle hfront
    have hsecond := ColumnType.run_read hsize hread hvalid hless.2 hserves
    obtain ⟨values, later, hvalues, hlater, rfl⟩ :=
      (ColumnType.cells_append_eq_ok_iff (h.front front middle hfront)).mp hcells
    rw [← hencoding] at hlater
    refine ⟨last, Decoder.run_both_eq_ok_iff.mpr ⟨values, middle, later, ?_, ?_, rfl⟩, hsame⟩
    · rw [hfirst]
      exact ColumnType.runBlock_eq_ok_iff.mpr ⟨front, hfront, hvalues⟩
    · rw [hsecond]
      exact ColumnType.runBlock_eq_ok_iff.mpr ⟨back, hback, hlater⟩
  case back =>
    intro column last hrun
    obtain ⟨values, middle, later, hrun₁, hrun₂, rfl⟩ := Decoder.run_both_eq_ok_iff.mp hrun
    obtain ⟨front, hfront, hvalues⟩ := ColumnType.runBlock_eq_ok_iff.mp (hfirst ▸ hrun₁)
    obtain ⟨hserves, hencoding⟩ := h.back front middle hfront
    have hsecond := ColumnType.run_read hsize hread hvalid hless.2 hserves
    obtain ⟨back, hback, hlater⟩ := ColumnType.runBlock_eq_ok_iff.mp (hsecond ▸ hrun₂)
    rw [hencoding] at hlater
    obtain ⟨after, hblock, hsame⟩ := h.split.back (front ++ back) last
      (Decoder.run_takeBoth_eq_ok_iff.mpr ⟨front, middle, back, hfront, hback, rfl⟩)
    have hcells := (ColumnType.cells_append_eq_ok_iff (h.front front middle hfront)).mpr
      ⟨values, later, hvalues, hlater, rfl⟩
    refine ⟨after, ?_, hsame⟩
    rw [hwhole]
    exact ColumnType.runBlock_eq_ok_iff.mpr ⟨_, hblock, hcells⟩

/-- Cells that carry their length are decoded one by one, so every batch begins as the rows go
on. -/
theorem ByteSource.KeepsEncoding.run_sized (h : source.KeepsEncoding) (hsize : type.cellSize = none)
    (hroom : type.room * (a + b) ≤ maxAllocation) :
    (type.read (a + b)).run source state =
      (Decoder.both (type.read a) (type.read b)).run source state := by
  have hless := ColumnType.room_add hroom
  cases type with
  | rawText =>
    have hrows : Column.rawText (a + b) = .both (Column.rawText a) (Column.rawText b) := by
      rw [Column.rawText_eq hroom, Column.rawText_eq hless.1, Column.rawText_eq hless.2]
      exact Decoder.times_add a b Column.sizedCell
    rw [ColumnType.read, ColumnType.read, ColumnType.read, hrows, Decoder.map_both]
  | text =>
    have hrows : (Column.text (a + b)).run source state =
        (Decoder.both (Column.text a) (Column.text b)).run source state := by
      rw [Column.run_text_times source state hroom, Decoder.times_add, Decoder.both, Decoder.both,
        Decoder.bind_eq, Decoder.bind_eq, Decoder.run_bind_andThen, Decoder.run_bind_andThen,
        ← Column.run_text_times source state hless.1]
      refine Outcome.andThen_congr fun front middle hfront => ?_
      have hencoding := h.run (Column.text a) state
      rw [hfront] at hencoding
      rw [Decoder.bind_eq, Decoder.bind_eq, Decoder.run_bind_andThen, Decoder.run_bind_andThen,
        Column.run_text_times source middle hless.2, hencoding]
    rw [ColumnType.read, ColumnType.read, ColumnType.read, Decoder.run_map, hrows,
      ← Decoder.run_map, Decoder.map_both]
  | _ => cases hsize

/-- Rows of any type can be decoded in two batches. -/
theorem alike_batches (hrefl : ∀ state, Same state state) (hkeeps : source.KeepsEncoding)
    (hserves : ∀ size, type.cellSize = some size → ServesBatches source Same size a b state)
    (hroom : type.room * (a + b) ≤ maxAllocation) :
    Alike Same ((type.read (a + b)).run source state)
      ((Decoder.both (type.read a) (type.read b)).run source state) := by
  cases hsize : type.cellSize with
  | none => exact .of_eq hrefl (hkeeps.run_sized hsize hroom)
  | some size =>
    by_cases hempty : type = .fixedText 0
    · subst hempty
      have hless := ColumnType.room_add hroom
      have hfront : ((ColumnType.fixedText 0).read a).run source state =
        (.ok (List.replicate a (.text "")), state) := ColumnType.run_emptyText hless.1
      have hback : ((ColumnType.fixedText 0).read b).run source state =
        (.ok (List.replicate b (.text "")), state) := ColumnType.run_emptyText hless.2
      have hboth := Decoder.run_both_eq_ok_iff.mpr ⟨_, state, _, hfront, hback, rfl⟩
      refine .of_eq hrefl ?_
      rw [hboth, List.replicate_append_replicate]
      exact ColumnType.run_emptyText hroom
    · by_cases hvalid : type.Valid
      · exact (hserves size hsize).alike hsize hempty hvalid hroom
      · -- no rows of this type are ever decoded
        simp only [ColumnType.Valid, not_forall, Nat.not_le] at hvalid
        obtain ⟨precision, rfl, hprecision⟩ := hvalid
        refine .of_fails (fun column after hrun => ?_) fun column after hrun => ?_
        · rw [ColumnType.run_invalid source state hprecision] at hrun
          cases hrun
        · obtain ⟨_, _, _, hfirst, _⟩ := Decoder.run_both_eq_ok_iff.mp hrun
          rw [ColumnType.run_invalid source state hprecision] at hfirst
          cases hfirst

/-- What follows a first batch may be decoded in any way that comes to the same. -/
theorem alike_both {first second second' : Decoder (List α)}
    (h : ∀ front middle, first.run source state = (.ok front, middle) →
      Alike Same (second.run source middle) (second'.run source middle)) :
    Alike Same ((Decoder.both first second).run source state)
      ((Decoder.both first second').run source state) := by
  constructor
  case forth =>
    intro values after hrun
    obtain ⟨front, middle, back, hfront, hback, rfl⟩ := Decoder.run_both_eq_ok_iff.mp hrun
    obtain ⟨last, hlast, hsame⟩ := (h front middle hfront).forth back after hback
    exact ⟨last, Decoder.run_both_eq_ok_iff.mpr ⟨front, middle, back, hfront, hlast, rfl⟩, hsame⟩
  case back =>
    intro values last hrun
    obtain ⟨front, middle, back, hfront, hlast, rfl⟩ := Decoder.run_both_eq_ok_iff.mp hrun
    obtain ⟨after, hback, hsame⟩ := (h front middle hfront).back back last hlast
    exact ⟨after, Decoder.run_both_eq_ok_iff.mpr ⟨front, middle, back, hfront, hback, rfl⟩, hsame⟩

/-- If rows can be decoded in two batches from wherever a batch may begin, they can be decoded in
any number of batches. `Good` says that so many rows may still be asked for. -/
theorem alike_readBatches {Good : Nat → σ → Prop} (hrefl : ∀ state, Same state state)
    (htrans : ∀ {s t u}, Same s t → Same t u → Same s u)
    (htwo : ∀ a b state, Good (a + b) state → Alike Same ((type.read (a + b)).run source state)
      ((Decoder.both (type.read a) (type.read b)).run source state))
    (hgood : ∀ a b state column after, Good (a + b) state →
      (type.read a).run source state = (.ok column, after) → Good b after)
    {batches : List Nat} (hsome : batches ≠ []) (h : Good batches.sum state) :
    Alike Same ((type.read batches.sum).run source state)
      ((type.readBatches batches).run source state) := by
  induction batches generalizing state with
  | nil => exact absurd rfl hsome
  | cons rows batches ih =>
    rw [List.sum_cons] at h ⊢
    cases batches with
    | nil =>
      refine .of_eq hrefl ?_
      rw [ColumnType.readBatches, ColumnType.readBatches, List.sum_nil, Nat.add_zero, Decoder.both]
      simp only [Decoder.bind_eq, Decoder.pure_eq, Decoder.done_bind, List.append_nil,
        Decoder.bind_done]
    | cons next batches =>
      refine (htwo rows _ state h).trans htrans ?_
      rw [ColumnType.readBatches]
      refine alike_both fun front middle hfront => ?_
      exact ih (List.cons_ne_nil _ _) (hgood rows _ state front middle h hfront)

/-- What decoding in batches comes to, for so many rows from a state. -/
structure Batched (source : ByteSource σ) (Same : σ → σ → Prop) (type : ColumnType) (rows : Nat)
    (state : σ) : Prop where
  two : ∀ a b, a + b = rows → Alike Same ((type.read rows).run source state)
    ((Decoder.both (type.read a) (type.read b)).run source state)
  many : ∀ batches : List Nat, batches ≠ [] → batches.sum = rows →
    Alike Same ((type.read rows).run source state) ((type.readBatches batches).run source state)

theorem batched {Good : Nat → σ → Prop} (hrefl : ∀ state, Same state state)
    (htrans : ∀ {s t u}, Same s t → Same t u → Same s u)
    (htwo : ∀ a b state, Good (a + b) state → Alike Same ((type.read (a + b)).run source state)
      ((Decoder.both (type.read a) (type.read b)).run source state))
    (hgood : ∀ a b state column after, Good (a + b) state →
      (type.read a).run source state = (.ok column, after) → Good b after)
    {rows : Nat} (h : Good rows state) : Batched source Same type rows state := by
  constructor
  case two =>
    rintro a b rfl
    exact htwo a b state h
  case many =>
    rintro batches hsome rfl
    exact alike_readBatches hrefl htrans htwo hgood hsome h

end Source

namespace Slice

variable {slice after : Slice} {block front back : Bytes} {size a b : Nat} {type : ColumnType}

theorem readBytes_eq_ok_iff :
    slice.readBytes size = (.ok block, after) ↔ slice.Takes block after ∧ block.length = size := by
  obtain ⟨unread, position, encoding⟩ := slice
  obtain ⟨rest, place, label⟩ := after
  constructor
  · intro hread
    rw [readBytes] at hread
    split at hread
    · cases hread
    · next front rest hsplit =>
      obtain ⟨hunread, rfl⟩ := Bytes.split?_eq_some_iff.mp hsplit
      cases hread
      exact ⟨⟨hunread, rfl, rfl⟩, rfl⟩
  · rintro ⟨⟨hunread, hposition, hencoding⟩, rfl⟩
    obtain rfl : unread = block ++ rest := hunread
    obtain rfl : place = position + block.length := hposition
    obtain rfl : label = encoding := hencoding
    exact readBytes_append block rest position label

theorem Takes.split (h : slice.Takes (front ++ back) after) :
    ∃ middle, slice.Takes front middle ∧ middle.Takes back after := by
  obtain ⟨hunread, hposition, hencoding⟩ := h
  refine ⟨⟨back ++ after.unread, slice.position + front.length, slice.encoding⟩, ⟨?_, rfl, rfl⟩,
    rfl, ?_, hencoding⟩
  · rw [hunread, List.append_assoc]
  · rw [hposition, List.length_append, Nat.add_assoc]

/-- One read succeeds where two in a row do, and leaves the same slice. -/
theorem readBytes_add (m n : Nat) (slice : Slice) :
    Alike Eq (slice.readBytes (m + n)) ((Decoder.takeBoth m n).run byteSource slice) := by
  constructor
  case forth =>
    intro block after hread
    obtain ⟨htakes, hlength⟩ := readBytes_eq_ok_iff.mp hread
    obtain ⟨front, back, rfl, rfl, rfl⟩ := Bytes.exists_append hlength
    obtain ⟨middle, hfront, hback⟩ := htakes.split
    exact ⟨after, Decoder.run_takeBoth_eq_ok_iff.mpr ⟨front, middle, back,
      readBytes_eq_ok_iff.mpr ⟨hfront, rfl⟩, readBytes_eq_ok_iff.mpr ⟨hback, rfl⟩, rfl⟩, rfl⟩
  case back =>
    intro block after hboth
    obtain ⟨front, middle, back, hfirst, hsecond, rfl⟩ := Decoder.run_takeBoth_eq_ok_iff.mp hboth
    obtain ⟨hfront, rfl⟩ := readBytes_eq_ok_iff.mp hfirst
    obtain ⟨hback, rfl⟩ := readBytes_eq_ok_iff.mp hsecond
    exact ⟨after, readBytes_eq_ok_iff.mpr ⟨exact.trans hfront hback, List.length_append⟩, rfl⟩

theorem keepsEncoding : byteSource.KeepsEncoding where
  byte slice := by
    obtain ⟨unread, position, encoding⟩ := slice
    cases unread <;> rfl
  bytes size slice := by
    simp only [byteSource, readBytes]
    split <;> rfl

/-- A product of sizes that does not fit is too much for a slice, and so are its parts. -/
theorem servesBatches (hshort : slice.Short) : ServesBatches byteSource Eq size a b slice := by
  constructor
  case split =>
    by_cases hfits : size * (a + b) ≤ maxSize
    · rw [mulSat_add hfits]
      exact readBytes_add _ _ slice
    · refine .of_fails (fun block after hread => ?_) fun block after hboth => ?_
      · obtain ⟨_, _, _, hsmall⟩ := exact.bytes hshort hread
        exact hfits (Nat.le_of_lt (mulSat_exact hsmall).2)
      · obtain ⟨front, middle, back, hfront, hback, rfl⟩ := Decoder.run_takeBoth_eq_ok_iff.mp hboth
        obtain ⟨hmiddle, htakes, hlength, hsmall⟩ := exact.bytes hshort hfront
        obtain ⟨_, hlater, hlength', hsmall'⟩ := exact.bytes hmiddle hback
        rw [(mulSat_exact hsmall).1] at hlength
        rw [(mulSat_exact hsmall').1] at hlength'
        have hunread := congrArg List.length (exact.trans htakes hlater).unread
        rw [List.length_append, List.length_append, hlength, hlength', ← Nat.mul_add] at hunread
        rw [Short, hunread, maxAllocation] at hshort
        rw [maxSize] at hfits
        omega
  case whole => exact ColumnType.servesBlock_of_exact exact hshort
  case front => exact ColumnType.servesBlock_of_exact exact hshort
  case back =>
    intro front middle hfront
    obtain ⟨hmiddle, htakes, _⟩ := exact.bytes hshort hfront
    exact ⟨ColumnType.servesBlock_of_exact exact hmiddle, htakes.encoding⟩

end Slice

namespace Cursor

variable [ChunkSource σ] {config : DecoderConfig} {cursor : Cursor σ} {size a b : Nat}

theorem keepsEncoding : (byteSource (σ := σ)).KeepsEncoding where
  byte cursor := by
    obtain ⟨hconfig, _⟩ := storage_run .byte cursor
    exact congrArg DecoderConfig.encoding hconfig
  bytes size cursor := by
    obtain ⟨hconfig, _⟩ := storage_run (.bytes size) cursor
    exact congrArg DecoderConfig.encoding hconfig

theorem servesBlock (hfits : size * a ≤ maxSize) :
    ColumnType.ServesBlock byteSource size a cursor := by
  intro block after hread
  rw [(moves_of_readBytes hread).2, mulSat_eq _ _ hfits]

/-- A cursor serves what it admits as one read or as two. -/
theorem servesBatches (hreached : cursor.Reached config)
    (hscratch : config.initialScratchCapacity ≤ 2 ^ 62)
    (hsize : size * (a + b) ≤ min config.maxReadSize (2 ^ 61)) :
    ServesBatches byteSource SameRest size a b cursor := by
  have hfits : size * (a + b) ≤ maxSize := by
    rw [maxSize]
    omega
  have hparts : size * a ≤ maxSize ∧ size * b ≤ maxSize := by
    rw [Nat.mul_add] at hfits
    omega
  constructor
  case split =>
    rw [← mulSat_eq _ _ hfits, mulSat_add hfits] at hsize
    rw [mulSat_add hfits]
    exact readBytes_add hreached hscratch hsize
  case whole => exact servesBlock hfits
  case front => exact servesBlock hparts.1
  case back =>
    intro front middle hfront
    have hencoding := keepsEncoding.bytes (mulSat size a) cursor
    rw [hfront] at hencoding
    exact ⟨servesBlock hparts.2, hencoding⟩

theorem Reached.run (h : cursor.Reached config) (decoder : Decoder α) :
    (decoder.run byteSource cursor).2.Reached config := by
  rw [run_decoder]
  exact h.after _

end Cursor

/-- The slice can exist, and so can the result. -/
structure Slice.Admits (type : ColumnType) (rows : Nat) (slice : Slice) : Prop where
  short : slice.Short
  room : type.room * rows ≤ maxAllocation

theorem Slice.Admits.batched {slice : Slice} {type : ColumnType} {rows : Nat}
    (h : slice.Admits type rows) : Batched byteSource Eq type rows slice := by
  refine Columnar.batched (fun _ => rfl) Eq.trans (fun a b slice hslice => ?_)
    (fun a b slice column after hslice hrun => ?_) h
  · exact alike_batches (fun _ => rfl) keepsEncoding (fun _ _ => servesBatches hslice.short)
      hslice.room
  · obtain ⟨bytes, _, _, _, htakes⟩ := exact.run hslice.short hrun
    have hless := hslice.short
    rw [Short, htakes.unread, List.length_append] at hless
    exact ⟨Nat.le_of_add_left_le hless, (ColumnType.room_add hslice.room).2⟩

/-- The cursor has been reached and admits a block of so many rows. -/
structure Cursor.Admits [ChunkSource σ] (config : DecoderConfig) (type : ColumnType) (rows : Nat)
    (cursor : Cursor σ) : Prop where
  reached : cursor.Reached config
  block : ∀ size, type.cellSize = some size → size * rows ≤ min config.maxReadSize (2 ^ 61)
  room : type.room * rows ≤ maxAllocation

theorem Cursor.Admits.batched [ChunkSource σ] {config : DecoderConfig} {type : ColumnType}
    {rows : Nat} {cursor : Cursor σ} (h : cursor.Admits config type rows)
    (hscratch : config.initialScratchCapacity ≤ 2 ^ 62) :
    Batched byteSource SameRest type rows cursor := by
  refine Columnar.batched SameRest.refl SameRest.trans (fun a b cursor hcursor => ?_)
    (fun a b cursor column after hcursor hrun => ?_) h
  · have hserves (size : Nat) (hsize : type.cellSize = some size) :
        ServesBatches byteSource SameRest size a b cursor :=
      servesBatches hcursor.reached hscratch (hcursor.block size hsize)
    exact alike_batches SameRest.refl keepsEncoding hserves hcursor.room
  · have hreached := hcursor.reached.run (type.read a)
    rw [hrun] at hreached
    refine ⟨hreached, fun size hsize => ?_, (ColumnType.room_add hcursor.room).2⟩
    have hblock := hcursor.block size hsize
    rw [Nat.mul_add] at hblock
    omega

/-- Rows can be decoded at once or in batches of any sizes, one by one if need be. -/
theorem columns_decode_in_batches :
    (∀ (slice : Slice) (type : ColumnType) (rows : Nat), slice.unread.length < 2 ^ 63 →
      type.room * rows ≤ maxAllocation → Batched Slice.byteSource Eq type rows slice) ∧
    ∀ {σ : Type} [ChunkSource σ] (config : DecoderConfig) (cursor : Cursor σ) (type : ColumnType)
      (rows : Nat), config.initialScratchCapacity ≤ 2 ^ 62 → cursor.Admits config type rows →
      Batched Cursor.byteSource Cursor.SameRest type rows cursor := by
  constructor
  · intro slice type rows hlength hroom
    exact Slice.Admits.batched ⟨Nat.le_of_lt_succ hlength, hroom⟩
  · intro σ _ config cursor type rows hscratch hadmits
    exact hadmits.batched hscratch

/-- Three numbers of two bytes and one byte more, cut in the first number and before the last. -/
def batchedChunks : List Bytes := [[1], [0, 2, 0], [3, 0, 9]]

/-- The numbers are assembled at once, or one batch is and the other is not. Texts that are read in
two batches from a slice leave the same byte behind. -/
theorem columns_decode_in_batches_cut :
    (∃ after last : Cursor (List Bytes),
      ((ColumnType.number .u16).read 3).run Cursor.byteSource (Cursor.ofSource batchedChunks) =
        (.ok [.integer 1, .integer 2, .integer 3], after) ∧
      ((ColumnType.number .u16).readBatches [1, 0, 2]).run Cursor.byteSource
        (Cursor.ofSource batchedChunks) = (.ok [.integer 1, .integer 2, .integer 3], last) ∧
      Cursor.SameRest after last) ∧
    (Decoder.both (ColumnType.text.read 1) (ColumnType.text.read 2)).run Slice.byteSource
        ⟨[1, 97, 0, 2, 98, 99, 7], 0, .utf8⟩ =
      (.ok [.text "a", .text "", .text "bc"], ⟨[7], 6, .utf8⟩) := by
  constructor
  · have hadmits : (Cursor.ofSource batchedChunks).Admits {} (.number .u16) 3 := by
      refine ⟨.start rfl, ?_, by decide⟩
      rintro _ ⟨⟩
      decide
    have hbatched := columns_decode_in_batches.2 {} _ (.number .u16) 3 (by decide) hadmits
    obtain ⟨last, hlast, hsame⟩ := (hbatched.many [1, 0, 2] (by decide) rfl).forth
      [.integer 1, .integer 2, .integer 3] _ (Prod.ext (by decide +kernel) rfl)
    exact ⟨_, last, Prod.ext (by decide +kernel) rfl, hlast, hsame⟩
  · have hbatched := columns_decode_in_batches.1 ⟨[1, 97, 0, 2, 98, 99, 7], 0, .utf8⟩ .text 3
      (by decide) (by decide)
    obtain ⟨_, hrun, rfl⟩ := (hbatched.two 1 2 rfl).forth [.text "a", .text "", .text "bc"]
      ⟨[7], 6, .utf8⟩ (by decide +kernel)
    exact hrun

end Columnar
