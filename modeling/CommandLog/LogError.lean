import CommandLog.IoError
import CommandLog.Span

/-! # Failures of the log

Everything that an operation on the log can report, by cause. Only a lock that was not obtained in
time is worth a second attempt; none of the failures leaves a store half changed.
-/

namespace CommandLog

inductive Exhaustion where
  | recordTooLong (length limit : Nat)
  | bufferTooLarge
  | reported (text : String)
  deriving DecidableEq, Repr

inductive LockFailure where
  | timedOut (after : Span)
  | reported (text : String)
  deriving DecidableEq, Repr

inductive SeekFailure where
  | outside (position : Int) (size : Nat)
  | reported (text : String)
  deriving DecidableEq, Repr

inductive LogError where
  | exhausted (cause : Exhaustion)
  | outOfRange (index offset : Nat)
  | io (cause : IoError)
  | lockUnavailable (cause : LockFailure)
  | zeroCapacity
  | invalidSeek (cause : SeekFailure)
  deriving DecidableEq, Repr

def Exhaustion.message : Exhaustion → String
  | .recordTooLong length limit => s!"record of {length} bytes exceeds the {limit} byte limit"
  | .bufferTooLarge =>
    "memory allocation failed because the computed capacity exceeded the collection's maximum"
  | .reported text => text

def LockFailure.message : LockFailure → String
  | .timedOut after => s!"store lock not acquired within {after.text}"
  | .reported text => text

def SeekFailure.message : SeekFailure → String
  | .outside position size => s!"position {position} outside 0..={size}"
  | .reported text => text

namespace LogError

def message : LogError → String
  | .exhausted cause => s!"Resource exhaustion: {cause.message}"
  | .outOfRange index offset => s!"Seek out of range: record {index}, offset {offset}"
  | .io cause => s!"I/O error: {cause.message}"
  | .lockUnavailable cause => s!"Lock acquisition failed: {cause.message}"
  | .zeroCapacity => "Store capacity must be at least one record"
  | .invalidSeek cause => s!"Invalid seek: {cause.message}"

/-- Whether the same request may succeed later. -/
def isRetryable : LogError → Bool
  | .lockUnavailable _ => true
  | _ => false

end LogError

end CommandLog
