import Columnar.Config
import Columnar.Json

/-!
The stored form of a configuration: a JSON object with a member for each setting. Settings that
are left out take their defaults, members with other names are passed over, and a setting that is
given twice is an error. The settings may also be given without names, as an array in their
order. Sizes are natural number literals that fit a machine word. An encoding is given by its
key, or by an object whose only member has that name and no value.
-/
namespace Columnar.DecoderConfig

/-- The stored form, without blanks and with the settings in their order. -/
def toJsonText (config : DecoderConfig) : String :=
  "\x7b\"encoding\":\"" ++ config.encoding.key ++
    "\",\"initial_scratch_capacity\":" ++ toString config.initialScratchCapacity ++
    ",\"max_read_size\":" ++ toString config.maxReadSize ++
    ",\"reader_chunk_size\":" ++ toString config.readerChunkSize ++ "\x7d"

/-- The settings that were given. -/
structure Given where
  encoding : Option TextEncoding := none
  initialScratchCapacity : Option Nat := none
  maxReadSize : Option Nat := none
  readerChunkSize : Option Nat := none
  deriving DecidableEq, Repr

/-- The given settings over the defaults. -/
def ofGiven (given : Given) : DecoderConfig where
  encoding := given.encoding.getD .utf8
  initialScratchCapacity := given.initialScratchCapacity.getD defaultScratchCapacity
  maxReadSize := given.maxReadSize.getD defaultMaxReadSize
  readerChunkSize := given.readerChunkSize.getD defaultReaderChunkSize

def size? : Json → Option Nat
  | .number literal => (Json.natural? literal).filter (· ≤ maxSize)
  | _ => none

def encoding? : Json → Option TextEncoding
  | .string (some text) => TextEncoding.ofKey? text
  | .object [(some text, .null)] => TextEncoding.ofKey? text
  | _ => none

/-- Sets what is not set yet. -/
def setOnce (current : Option α) (value : Option α) : Option (Option α) :=
  match current, value with
  | none, some value => some (some value)
  | _, _ => none

namespace Given

/-- Adds one member of an object. A name without a text is an error, an unknown one is not. -/
def addMember (given : Given) : Option String × Json → Option Given
  | (none, _) => none
  | (some name, value) =>
    if name = "encoding" then
      (setOnce given.encoding (encoding? value)).map ({ given with encoding := · })
    else if name = "initial_scratch_capacity" then
      (setOnce given.initialScratchCapacity (size? value)).map
        ({ given with initialScratchCapacity := · })
    else if name = "max_read_size" then
      (setOnce given.maxReadSize (size? value)).map ({ given with maxReadSize := · })
    else if name = "reader_chunk_size" then
      (setOnce given.readerChunkSize (size? value)).map ({ given with readerChunkSize := · })
    else some given

def ofMembers? (members : List (Option String × Json)) : Option Given :=
  members.foldlM addMember {}

/-- The names of the settings, in their order. -/
def names : List String :=
  ["encoding", "initial_scratch_capacity", "max_read_size", "reader_chunk_size"]

/-- The elements of an array are the first settings, without their names. -/
def ofElements? (elements : List Json) : Option Given :=
  if names.length < elements.length then none
  else ofMembers? ((names.map some).zip elements)

end Given

def ofJson? : Json → Option DecoderConfig
  | .object members => (Given.ofMembers? members).map ofGiven
  | .array elements => (Given.ofElements? elements).map ofGiven
  | _ => none

def ofJsonText? (text : String) : Option DecoderConfig := (Json.parse? text).bind ofJson?

end Columnar.DecoderConfig
