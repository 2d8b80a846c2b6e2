import CommandLog.LineReader
import CommandLog.ServiceError
import CommandLog.SocketAddress.Parser
import CommandLog.Store.Basic

/-! # Settings of the service

The settings with their defaults, the values derived from them, and the check that they can be used.
-/

namespace CommandLog

structure Reporting where
  level : String := "info"
  json : Bool := false
  ansi : Bool := true
  deriving DecidableEq, Repr

structure Settings where
  bindAddress : String := "0.0.0.0:9000"
  capacity : Nat := Store.defaultCapacity
  /-- Seconds between two time records; 0 turns them off. -/
  timestampSeconds : Nat := 10
  /-- The file that receives every record served. -/
  backingFile : Option String := none
  lockTimeoutMilliseconds : UInt64 := 30000
  shutdownGraceMilliseconds : UInt64 := 5000
  /-- The least capacity of a growing line buffer. -/
  initialBufferSize : Nat := LineReader.defaultInitial
  recordLimit : Option Nat := none
  reporting : Reporting := {}
  deriving DecidableEq, Repr

namespace Settings

def socketAddress (s : Settings) : Except ServiceError SocketAddress :=
  match SocketAddress.ofText? s.bindAddress with
  | some a => .ok a
  | none => .error (.settings (.invalidAddress s.bindAddress))

/-- Whether the settings can be used: some capacity, a proper address, and no record limit of 0,
looked at in this order. -/
def validate (s : Settings) : Except ServiceError Unit := do
  if s.capacity = 0 then throw (.settings .zeroCapacity)
  let _ ← s.socketAddress
  if s.recordLimit = some 0 then throw (.settings .zeroRecordLimit)

def timestampInterval (s : Settings) : Option Span :=
  if s.timestampSeconds = 0 then none else some (.ofSeconds s.timestampSeconds)

def lockTimeout (s : Settings) : Span :=
  .ofMilliseconds s.lockTimeoutMilliseconds.toNat

def shutdownGrace (s : Settings) : Span :=
  .ofMilliseconds s.shutdownGraceMilliseconds.toNat

def lineReader (s : Settings) : LineReader :=
  .ofInitial s.initialBufferSize s.recordLimit

def withLockTimeout (s : Settings) (t : Span) : Settings :=
  { s with lockTimeoutMilliseconds := t.toMilliseconds }

def withShutdownGrace (s : Settings) (t : Span) : Settings :=
  { s with shutdownGraceMilliseconds := t.toMilliseconds }

end Settings

end CommandLog
