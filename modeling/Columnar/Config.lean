import Columnar.Bytes

/-!
Settings of a cursor and of the decoders that read from it, their defaults, and the check that
a cursor makes before it accepts them.

One of them is the text encoding of string cells. Decoding a cell never fails: bytes that are not
well-formed UTF-8 become the hexadecimal text of the cell, so that one bad cell leaves the rest of
its column alone.
-/
namespace Columnar

inductive TextEncoding where
  | utf8 | latin1
  deriving DecidableEq, Repr

namespace TextEncoding

/-- The canonical name, which is also how an encoding is displayed. -/
def name : TextEncoding → String
  | .utf8 => "utf-8"
  | .latin1 => "latin-1"

/-- The name that stands for the encoding in a stored configuration. -/
def key : TextEncoding → String
  | .utf8 => "utf8"
  | .latin1 => "latin1"

def ofKey? (text : String) : Option TextEncoding :=
  if text = "utf8" then some .utf8 else if text = "latin1" then some .latin1 else none

@[simp] theorem ofKey?_key (encoding : TextEncoding) : ofKey? encoding.key = some encoding := by
  cases encoding <;> decide

/-- A name that no encoding goes by, in the lowercase form in which it was looked up. -/
structure Unsupported where
  name : String
  deriving DecidableEq, Repr

def Unsupported.message (fault : Unsupported) : String :=
  "unsupported text encoding: " ++ fault.name

/-- Looks a name up. The case of ASCII letters does not matter, that of others does. -/
def ofName (name : String) : Except Unsupported TextEncoding :=
  let lower := name.map Char.toLower
  if lower ∈ ["utf8", "utf-8"] then .ok .utf8
  else if lower ∈ ["latin1", "latin-1", "iso-8859-1"] then .ok .latin1
  else .error ⟨lower⟩

/-- The text with the given UTF-8 form, if there is one. -/
def utf8? (bytes : Bytes) : Option String := String.fromUTF8? bytes.toByteArray

/-- Every byte is the code point of the same number. -/
def latin1Text (bytes : Bytes) : String := String.ofList (bytes.map fun byte => Char.ofUInt8 byte)

def decode (encoding : TextEncoding) (bytes : Bytes) : String :=
  match encoding with
  | .utf8 => (utf8? bytes).getD bytes.toHex
  | .latin1 => latin1Text bytes

end TextEncoding

/-- Scratch storage starts at 4 KiB unless set otherwise. -/
def defaultScratchCapacity : Nat := 4 * 1024

/-- The smallest capacity that scratch storage may start from. -/
def minScratchCapacity : Nat := 64

/-- One read may ask for up to 1 GiB unless set otherwise. -/
def defaultMaxReadSize : Nat := 1024 * 1024 * 1024

/-- A reader is asked for 64 KiB at a time unless set otherwise. -/
def defaultReaderChunkSize : Nat := 64 * 1024

structure DecoderConfig where
  /-- How string cells are decoded. -/
  encoding : TextEncoding := .utf8
  /-- The capacity that scratch storage grows from on the first read that needs it. -/
  initialScratchCapacity : Nat := defaultScratchCapacity
  /-- The largest number of bytes that one read may ask for. -/
  maxReadSize : Nat := defaultMaxReadSize
  /-- The size of the pieces in which a reader is asked for bytes. -/
  readerChunkSize : Nat := defaultReaderChunkSize
  deriving DecidableEq, Repr

/-- The first setting that is wrong. -/
inductive ConfigFault where
  | scratchTooSmall
  | scratchNotPowerOfTwo
  | maxReadSizeZero
  | readerChunkSizeZero
  deriving DecidableEq, Repr

def ConfigFault.message : ConfigFault → String
  | .scratchTooSmall =>
    "Initial scratch capacity must be at least " ++ toString minScratchCapacity ++ " bytes"
  | .scratchNotPowerOfTwo => "Initial scratch capacity must be a power of two"
  | .maxReadSizeZero => "Max read size must be positive"
  | .readerChunkSizeZero => "Reader chunk size must be positive"

namespace DecoderConfig

/-- Checks the scratch capacity first, then the two other sizes. -/
def validate (config : DecoderConfig) : Except ConfigFault Unit :=
  if config.initialScratchCapacity < minScratchCapacity then .error .scratchTooSmall
  else if ¬ config.initialScratchCapacity.isPowerOfTwo then .error .scratchNotPowerOfTwo
  else if config.maxReadSize = 0 then .error .maxReadSizeZero
  else if config.readerChunkSize = 0 then .error .readerChunkSizeZero
  else .ok ()

theorem validate_eq_ok_iff (config : DecoderConfig) : config.validate = .ok () ↔
    (minScratchCapacity ≤ config.initialScratchCapacity ∧
      config.initialScratchCapacity.isPowerOfTwo) ∧
    0 < config.maxReadSize ∧ 0 < config.readerChunkSize := by
  simp only [validate]
  grind

theorem validate_default : ({} : DecoderConfig).validate = .ok () :=
  (validate_eq_ok_iff _).mpr (by decide)

end DecoderConfig

end Columnar
