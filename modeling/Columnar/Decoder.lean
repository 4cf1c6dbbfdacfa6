import Columnar.Fault

/-!
Decoders and the sources that they read from. A decoder is a tree of requests: it asks for one
byte, for a number of contiguous bytes, or for the text encoding in use, and goes on with the
answer until it is done or fails. It knows nothing about where bytes come from, so whatever two
sources agree on for single requests, they agree on for every decoder.

The simplest source is a slice, a buffer that is already complete. It never reads past the end and
never moves when a read fails.
-/
namespace Columnar

inductive Decoder (α : Type) where
  | done (value : α)
  | fail (fault : Fault)
  | byte (next : UInt8 → Decoder α)
  | bytes (size : Nat) (next : Bytes → Decoder α)
  | encoding (next : TextEncoding → Decoder α)

namespace Decoder

def bind : Decoder α → (α → Decoder β) → Decoder β
  | .done value, rest => rest value
  | .fail fault, _ => .fail fault
  | .byte next, rest => .byte fun b => (next b).bind rest
  | .bytes size next, rest => .bytes size fun block => (next block).bind rest
  | .encoding next, rest => .encoding fun e => (next e).bind rest

instance : Monad Decoder where
  pure := .done
  bind := bind

def nextByte : Decoder UInt8 := .byte .done

def takeBytes (size : Nat) : Decoder Bytes := .bytes size .done

def textEncoding : Decoder TextEncoding := .encoding .done

def ofExcept : Except DecodeError α → Decoder α
  | .ok value => .done value
  | .error cause => .fail (.error cause)

/-- Fails without an answer if a buffer of `size` bytes cannot exist. -/
def reserve (size : Nat) : Decoder Unit :=
  if maxAllocation < size then .fail .capacityOverflow else .done ()

/-- Runs `cell` for `count` more values, behind those in `earlier`, the latest first. -/
def repeatAfter (cell : Decoder α) : (count : Nat) → (earlier : List α) → Decoder (List α)
  | 0, earlier => .done earlier.reverse
  | count + 1, earlier => cell.bind fun value => repeatAfter cell count (value :: earlier)

/-- The values of `count` runs of `cell`, one after another. -/
def times (count : Nat) (cell : Decoder α) : Decoder (List α) := repeatAfter cell count []

@[simp] theorem pure_eq (value : α) : (pure value : Decoder α) = .done value := rfl
@[simp] theorem bind_eq (first : Decoder α) (rest : α → Decoder β) :
    first >>= rest = first.bind rest := rfl
@[simp] theorem done_bind (value : α) (rest : α → Decoder β) :
    (Decoder.done value).bind rest = rest value := rfl
@[simp] theorem fail_bind (fault : Fault) (rest : α → Decoder β) :
    (Decoder.fail fault).bind rest = .fail fault := rfl

theorem bind_done (first : Decoder α) : first.bind .done = first := by
  induction first with
  | done => rfl
  | fail => rfl
  | byte _ ih => simp [bind, ih]
  | bytes _ _ ih => simp [bind, ih]
  | encoding _ ih => simp [bind, ih]

theorem bind_assoc (first : Decoder α) (second : α → Decoder β) (third : β → Decoder γ) :
    (first.bind second).bind third = first.bind fun value => (second value).bind third := by
  induction first with
  | done => rfl
  | fail => rfl
  | byte _ ih => simp [bind, ih]
  | bytes _ _ ih => simp [bind, ih]
  | encoding _ ih => simp [bind, ih]

instance : LawfulMonad Decoder :=
  LawfulMonad.mk' Decoder bind_done (fun _ _ => rfl) bind_assoc

theorem repeatAfter_eq (cell : Decoder α) (count : Nat) (earlier : List α) :
    repeatAfter cell count earlier =
      (times count cell).bind fun values => .done (earlier.reverse ++ values) := by
  induction count generalizing earlier with
  | zero => simp [times, repeatAfter]
  | succ count ih =>
    simp only [times, repeatAfter, ih (_ :: earlier), ih [_], bind_assoc, done_bind]
    simp

@[simp] theorem times_zero (cell : Decoder α) : times 0 cell = .done [] := rfl

theorem times_succ (count : Nat) (cell : Decoder α) :
    times (count + 1) cell =
      cell.bind fun value => (times count cell).bind fun values => .done (value :: values) := by
  simp [times, repeatAfter, repeatAfter_eq cell count [_]]

end Decoder

/-- The outcome of one request, with the state that it leaves behind. -/
abbrev Outcome (σ α : Type) := Except Fault α × σ

/-- How requests are answered from states of type `σ`. Text is UTF-8 unless a source says
otherwise, and a 64-bit number is read as eight bytes unless it has another way. -/
structure ByteSource (σ : Type) where
  readByte : σ → Outcome σ UInt8
  readBytes : (size : Nat) → σ → Outcome σ Bytes
  encoding : σ → TextEncoding := fun _ => .utf8
  readWord : σ → Outcome σ Nat := fun state =>
    match readBytes 8 state with
    | (.ok block, state) => (.ok block.littleEndian, state)
    | (.error fault, state) => (.error fault, state)

namespace ByteSource

/-- The same source seen through its byte requests and its encoding only. -/
def borrowed (source : ByteSource σ) : ByteSource σ where
  readByte := source.readByte
  readBytes := source.readBytes
  encoding := source.encoding

/-- The same source seen through its byte requests only. -/
def unlabelled (source : ByteSource σ) : ByteSource σ where
  readByte := source.readByte
  readBytes := source.readBytes

end ByteSource

/-- Runs a decoder up to its value or its first fault. -/
def Decoder.run (source : ByteSource σ) : Decoder α → σ → Outcome σ α
  | .done value, state => (.ok value, state)
  | .fail fault, state => (.error fault, state)
  | .byte next, state =>
    match source.readByte state with
    | (.ok b, state) => (next b).run source state
    | (.error fault, state) => (.error fault, state)
  | .bytes size next, state =>
    match source.readBytes size state with
    | (.ok block, state) => (next block).run source state
    | (.error fault, state) => (.error fault, state)
  | .encoding next, state => (next (source.encoding state)).run source state

namespace Decoder

@[simp] theorem run_done (source : ByteSource σ) (value : α) (state : σ) :
    (Decoder.done value).run source state = (.ok value, state) := rfl
@[simp] theorem run_fail (source : ByteSource σ) (fault : Fault) (state : σ) :
    (Decoder.fail fault : Decoder α).run source state = (.error fault, state) := rfl

theorem run_bind (source : ByteSource σ) (first : Decoder α) (rest : α → Decoder β) (state : σ) :
    (first.bind rest).run source state =
      match first.run source state with
      | (.ok value, state) => (rest value).run source state
      | (.error fault, state) => (.error fault, state) := by
  induction first generalizing state with
  | done => rfl
  | fail => rfl
  | byte next ih =>
    simp only [bind, run]
    split <;> simp [ih]
  | bytes size next ih =>
    simp only [bind, run]
    split <;> simp [ih]
  | encoding next ih => simp [bind, run, ih]

theorem run_borrowed (source : ByteSource σ) (decoder : Decoder α) (state : σ) :
    decoder.run source.borrowed state = decoder.run source state := by
  induction decoder generalizing state with
  | done => rfl
  | fail => rfl
  | byte next ih =>
    simp only [run, ByteSource.borrowed] at ih ⊢
    split <;> simp [ih]
  | bytes size next ih =>
    simp only [run, ByteSource.borrowed] at ih ⊢
    split <;> simp [ih]
  | encoding next ih => exact ih _ _

end Decoder

/-- A buffer that is already complete, with what is still to be read of it. -/
structure Slice where
  unread : Bytes
  /-- The number of bytes read so far. -/
  position : Nat := 0
  encoding : TextEncoding := .utf8
  deriving DecidableEq, Repr

namespace Slice

/-- A slice with all of `data` still to be read. -/
def ofBytes (data : Bytes) (encoding : TextEncoding) : Slice where
  unread := data
  encoding := encoding

def remaining (slice : Slice) : Nat := slice.unread.length

def isEmpty (slice : Slice) : Bool := slice.unread.isEmpty

def readByte (slice : Slice) : Outcome Slice UInt8 :=
  match slice.unread with
  | [] => (.error (.error (.endOfStream 1 0)), slice)
  | byte :: rest => (.ok byte, { slice with unread := rest, position := slice.position + 1 })

def readBytes (size : Nat) (slice : Slice) : Outcome Slice Bytes :=
  match slice.unread.split? size with
  | none => (.error (.error (.endOfStream size slice.remaining)), slice)
  | some (front, rest) =>
    (.ok front, { slice with unread := rest, position := slice.position + size })

def byteSource : ByteSource Slice where
  readByte := readByte
  readBytes := readBytes
  encoding := encoding

theorem readBytes_append (front rest : Bytes) (position : Nat) (encoding : TextEncoding) :
    readBytes front.length ⟨front ++ rest, position, encoding⟩ =
      (.ok front, ⟨rest, position + front.length, encoding⟩) := by
  simp [readBytes, Bytes.split?_append]

theorem readBytes_of_lt (size : Nat) (slice : Slice) (h : slice.unread.length < size) :
    readBytes size slice =
      (.error (.error (.endOfStream size slice.unread.length)), slice) := by
  simp [readBytes, Bytes.split?_eq_none_iff.mpr h, remaining]

end Slice

end Columnar
