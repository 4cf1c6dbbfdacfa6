import Columnar.Proofs.Checked.Safety

/-!
Sources that are checked themselves. The answer to a request may then come to nothing, like every
other checked operation. A checked source that mirrors a plain one answers all requests as that
does, and then every decoder comes to the same on both.
-/
namespace Columnar.Checked

/-- How requests are answered in checked operations. -/
structure Source (σ : Type) where
  readByte : σ → Option (Outcome σ UInt8)
  readBytes : (size : Nat) → σ → Option (Outcome σ Bytes)
  encoding : σ → TextEncoding

/-- Goes on from the value of a checked outcome, if there is one. -/
def proceed (outcome : Option (Outcome σ α)) (next : α → σ → Option (Outcome σ β)) :
    Option (Outcome σ β) :=
  match outcome with
  | none => none
  | some (.ok value, state) => next value state
  | some (.error fault, state) => some (.error fault, state)

/-- Runs a checked decoder up to its value or its first fault. -/
def Source.run (source : Source σ) : Decoder (Option α) → σ → Option (Outcome σ α)
  | .done result, state => result.map fun value => (.ok value, state)
  | .fail fault, state => some (.error fault, state)
  | .byte next, state => proceed (source.readByte state) fun b => source.run (next b)
  | .bytes size next, state =>
    proceed (source.readBytes size state) fun block => source.run (next block)
  | .encoding next, state => source.run (next (source.encoding state)) state

/-- The checked outcome is there, and it is the plain one in a related state. -/
def Completes (related : τ → σ → Prop) (checked : Option (Outcome τ α)) (plain : Outcome σ α) :
    Prop :=
  ∃ after, checked = some (plain.1, after) ∧ related after plain.2

namespace Completes

variable {related : τ → σ → Prop}

theorem intro {result : Except Fault α} {t : τ} {s : σ} (h : related t s) :
    Completes related (some (result, t)) (result, s) :=
  ⟨t, rfl, h⟩

theorem proceed {checked : Option (Outcome τ α)} {plain : Outcome σ α}
    {next : α → τ → Option (Outcome τ β)} {rest : α → σ → Outcome σ β}
    (h : Completes related checked plain)
    (hnext : ∀ value t s, plain = (.ok value, s) → related t s →
      Completes related (next value t) (rest value s)) :
    Completes related (Checked.proceed checked next) (plain.andThen rest) := by
  obtain ⟨result, s⟩ := plain
  obtain ⟨t, rfl, hrelated⟩ := h
  cases result with
  | error fault => exact .intro hrelated
  | ok value => exact hnext value t s rfl hrelated

end Completes

/-- A checked source answers like a plain one in related states, and all blocks are shorter than
the limit. -/
structure Mirrors (limit : Nat) (related : τ → σ → Prop) (checked : Source τ)
    (plain : ByteSource σ) : Prop where
  encoding : ∀ {t s}, related t s → checked.encoding t = plain.encoding s
  byte : ∀ {t s}, related t s → Completes related (checked.readByte t) (plain.readByte s)
  bytes : ∀ {t s} size, related t s →
    Completes related (checked.readBytes size t) (plain.readBytes size s)
  whole : ∀ {t s after size} {block : Bytes}, related t s →
    plain.readBytes size s = (.ok block, after) → block.length = size ∧ size < limit

/-- A checked decoder comes to what the plain one comes to. -/
theorem Untrapped.run {limit : Nat} {Q : α → Prop} {related : τ → σ → Prop}
    {checked : Decoder (Option α)} {plain : Decoder α} {source : Source τ}
    {plainSource : ByteSource σ} (h : Untrapped limit Q checked plain)
    (hmirrors : Mirrors limit related source plainSource) {t : τ} {s : σ} (hstate : related t s) :
    Completes related (source.run checked t) (plain.run plainSource s) := by
  induction h generalizing t s with
  | done => exact .intro hstate
  | fail => exact .intro hstate
  | byte _ ih =>
    rw [Decoder.run_byte]
    exact (hmirrors.byte hstate).proceed fun b _ _ _ hafter => ih b hafter
  | bytes _ ih =>
    rw [Decoder.run_bytes]
    refine (hmirrors.bytes _ hstate).proceed fun block _ _ houtcome hafter => ?_
    obtain ⟨hlength, hlimit⟩ := hmirrors.whole hstate houtcome
    exact ih block hlength hlimit hafter
  | encoding _ ih =>
    rw [Source.run, Decoder.run, hmirrors.encoding hstate]
    exact ih _ hstate

/-- A slice with the place of the next byte in its data. -/
structure Buffer where
  data : Bytes
  place : Nat := 0
  encoding : TextEncoding := .utf8

namespace Buffer

def remaining (buffer : Buffer) : Option Nat := difference buffer.data.length buffer.place

def readByte (buffer : Buffer) : Option (Outcome Buffer UInt8) :=
  match buffer.data[buffer.place]? with
  | none => some (.error (.error (.endOfStream 1 0)), buffer)
  | some byte => do
    let next ← word (buffer.place + 1)
    return (.ok byte, { buffer with place := next })

def readBytes (size : Nat) (buffer : Buffer) : Option (Outcome Buffer Bytes) := do
  let available ← buffer.remaining
  if available < size then return (.error (.error (.endOfStream size available)), buffer)
  else
    let stop ← word (buffer.place + size)
    let block ← slice buffer.place stop buffer.data
    return (.ok block, { buffer with place := stop })

def byteSource : Source Buffer where
  readByte := readByte
  readBytes := readBytes
  encoding := encoding

/-- The slice that stands where the buffer stands. -/
def view (buffer : Buffer) : Slice where
  unread := buffer.data.drop buffer.place
  position := buffer.place
  encoding := buffer.encoding

/-- The buffer stands where the slice stands, and its data are not too long. -/
structure At (limit : Nat) (buffer : Buffer) (slice : Slice) : Prop where
  view_eq : buffer.view = slice
  place_le : buffer.place ≤ buffer.data.length
  short : buffer.data.length < limit

variable {limit : Nat} {buffer : Buffer} {slice : Slice}

theorem completes_readByte (hlimit : limit ≤ maxSize) (h : At limit buffer slice) :
    Completes (At limit) buffer.readByte slice.readByte := by
  obtain ⟨rfl, hplace, hshort⟩ := h
  have hfirst : buffer.data[buffer.place]? = buffer.view.unread.head? := (List.head?_drop ..).symm
  rw [readByte, Slice.readByte, hfirst]
  cases hunread : buffer.view.unread with
  | nil => exact .intro ⟨rfl, hplace, hshort⟩
  | cons byte rest =>
    have hleft := congrArg List.length hunread
    rw [view, List.length_drop, List.length_cons] at hleft
    have hrest : buffer.data.drop (buffer.place + 1) = rest := by
      rw [← List.drop_drop]
      exact congrArg (List.drop 1) hunread
    have hnext : word (buffer.place + 1) = some (buffer.place + 1) := word_eq rfl (by omega)
    refine ⟨_, andThen hnext rfl, ?_, by dsimp only; omega, hshort⟩
    rw [view, hrest]
    rfl

theorem completes_readBytes (hlimit : limit ≤ maxSize) (size : Nat) (h : At limit buffer slice) :
    Completes (At limit) (buffer.readBytes size) (slice.readBytes size) := by
  obtain ⟨rfl, hplace, hshort⟩ := h
  have hleft : buffer.remaining = some (buffer.view.unread.length) := by
    rw [view, List.length_drop]
    exact difference_eq hplace
  rw [Slice.readBytes]
  cases hview : buffer.view.unread.split? size with
  | none =>
    have hless := Bytes.split?_eq_none_iff.mp hview
    exact ⟨_, andThen hleft (if_pos hless), rfl, hplace, hshort⟩
  | some taken =>
    obtain ⟨front, rest⟩ := taken
    obtain ⟨hunread, hsize⟩ := Bytes.split?_eq_some_iff.mp hview
    have hfits : ¬ buffer.view.unread.length < size := by
      rw [hunread, List.length_append]
      omega
    obtain ⟨hblock, hrest, hend⟩ := slice_front hplace hunread hsize
    have hstop : word (buffer.place + size) = some (buffer.place + size) :=
      word_eq rfl (by omega)
    have hchecked : buffer.readBytes size =
        some (.ok front, { buffer with place := buffer.place + size }) := by
      refine andThen hleft ?_
      rw [if_neg hfits]
      exact andThen hstop (andThen hblock rfl)
    refine ⟨_, hchecked, ?_, hend, hshort⟩
    rw [view, hrest]
    rfl

theorem mirrors (hlimit : limit ≤ maxSize) :
    Mirrors limit (At limit) byteSource Slice.byteSource where
  encoding h := h.view_eq ▸ rfl
  byte h := completes_readByte hlimit h
  bytes size h := completes_readBytes hlimit size h
  whole := by
    intro buffer slice after size block h hread
    obtain ⟨rfl, hplace, hshort⟩ := h
    replace hread : buffer.view.readBytes size = (.ok block, after) := hread
    rw [Slice.readBytes] at hread
    cases hview : buffer.view.unread.split? size with
    | none => simp [hview] at hread
    | some taken =>
      obtain ⟨front, rest⟩ := taken
      obtain ⟨hunread, hsize⟩ := Bytes.split?_eq_some_iff.mp hview
      obtain rfl : front = block := by simpa [hview] using congrArg Prod.fst hread
      have hlength := congrArg List.length hunread
      rw [view, List.length_drop, List.length_append] at hlength
      exact ⟨hsize, by omega⟩

end Buffer

end Columnar.Checked
