import Columnar.Config

/-!
What can go wrong while a stream is decoded, with the text of each cause. A decoding error is
an answer about the stream. Running out of address space is not: it ends the read at hand
without one, and so has a constructor of its own in `Fault`.
-/
namespace Columnar

inductive IoErrorKind where
  | connectionReset | connectionAborted | unexpectedEof | timedOut | brokenPipe | interrupted
  | other
  deriving DecidableEq, Repr

def IoErrorKind.text : IoErrorKind → String
  | .connectionReset => "connection reset"
  | .connectionAborted => "connection aborted"
  | .unexpectedEof => "unexpected end of file"
  | .timedOut => "timed out"
  | .brokenPipe => "broken pipe"
  | .interrupted => "operation interrupted"
  | .other => "other error"

/-- A failure of the input below the stream, with a message of its own or that of its kind. -/
structure IoError where
  kind : IoErrorKind
  detail : Option String := none
  deriving DecidableEq, Repr

def IoError.text (error : IoError) : String := error.detail.getD error.kind.text

inductive DecodeError where
  /-- The stream ended before a read was complete. -/
  | endOfStream (requested available : Nat)
  /-- The chunk source failed. -/
  | source (cause : IoError)
  /-- A read asked for more than the configuration allows. -/
  | readTooLarge (size limit : Nat)
  /-- A varint does not fit 64 bits. -/
  | varintOverflow
  | dateOutOfRange (days : Int)
  | timestampOutOfRange (seconds : Int)
  /-- More sub-second digits than nanoseconds have. -/
  | invalidPrecision (precision : Nat)
  /-- The cursor was closed before the read. -/
  | closed
  | config (cause : ConfigFault)
  deriving DecidableEq, Repr

namespace DecodeError

def message : DecodeError → String
  | .endOfStream requested available =>
    s!"stream ended unexpectedly: needed {requested} bytes, {available} available"
  | .source cause => "chunk source error: " ++ cause.text
  | .readTooLarge size limit => s!"read too large: {size} bytes exceeds maximum {limit} bytes"
  | .varintOverflow => "varint exceeds 64 bits"
  | .dateOutOfRange days => s!"day offset {days} is outside the supported date range"
  | .timestampOutOfRange seconds => s!"timestamp {seconds}s is outside the supported range"
  | .invalidPrecision precision => s!"unsupported DateTime64 precision {precision} (max 9)"
  | .closed => "stream cursor is closed"
  | .config cause => "decoder configuration error: " ++ cause.message

/-- The stream ended before the data that it promised. -/
def isEndOfStream : DecodeError → Bool
  | .endOfStream .. => true
  | _ => false

/-- The same request may succeed when it is made again. -/
def isRecoverable : DecodeError → Bool
  | .endOfStream .. | .source _ => true
  | _ => false

/-- The bytes themselves make no sense. -/
def isMalformed : DecodeError → Bool
  | .varintOverflow | .dateOutOfRange _ | .timestampOutOfRange _ | .readTooLarge .. => true
  | _ => false

end DecodeError

/-- Why a read gave no value. -/
inductive Fault where
  | error (cause : DecodeError)
  /-- A buffer larger than half the address space was needed. -/
  | capacityOverflow
  deriving DecidableEq, Repr

def Fault.message : Fault → String
  | .error cause => cause.message
  | .capacityOverflow => "capacity overflow"

end Columnar
