import CommandLog.IoError.Errno

/-! # Failures of streams and files

A failure comes from the operating system with its number, or it is one of a few general kinds
with a fixed description, or it carries a description of its own.
-/

namespace CommandLog

inductive IoError.Kind where
  | connectionReset | connectionAborted | connectionRefused | notConnected
  | brokenPipe | timedOut | interrupted | unexpectedEof | wouldBlock | writeZero
  | notFound | permissionDenied | alreadyExists | invalidInput | invalidData
  | addressInUse | addressNotAvailable | outOfMemory | unsupported | other
  deriving DecidableEq, Repr

inductive IoError where
  | os (number : Int)
  | kind (k : IoError.Kind)
  | described (text : String)
  deriving DecidableEq, Repr

namespace IoError

def Kind.text : Kind → String
  | .connectionReset => "connection reset"
  | .connectionAborted => "connection aborted"
  | .connectionRefused => "connection refused"
  | .notConnected => "not connected"
  | .brokenPipe => "broken pipe"
  | .timedOut => "timed out"
  | .interrupted => "operation interrupted"
  | .unexpectedEof => "unexpected end of file"
  | .wouldBlock => "operation would block"
  | .writeZero => "write zero"
  | .notFound => "entity not found"
  | .permissionDenied => "permission denied"
  | .alreadyExists => "entity already exists"
  | .invalidInput => "invalid input parameter"
  | .invalidData => "invalid data"
  | .addressInUse => "address in use"
  | .addressNotAvailable => "address not available"
  | .outOfMemory => "out of memory"
  | .unsupported => "unsupported"
  | .other => "other error"

def message : IoError → String
  | .os n => s!"{Errno.text n} (os error {n})"
  | .kind k => k.text
  | .described text => text

end IoError

end CommandLog
