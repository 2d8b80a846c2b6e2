import CommandLog.LogError

/-! # Failures of the service

What can go wrong while the service is configured, bound or run. Failures of the log itself keep
their own type.
-/

namespace CommandLog

inductive SettingsFault where
  | zeroCapacity
  | zeroRecordLimit
  | invalidAddress (text : String)
  | unreadable (path : String) (cause : IoError)
  /-- The file is no document, or a value in it has the wrong type. -/
  | malformed
  | reported (text : String)
  deriving DecidableEq, Repr

inductive ServiceError where
  | log (cause : LogError)
  | settings (cause : SettingsFault)
  | bind (address reason : String)
  /-- A failure on a stream or file; the path is told if opening it failed. -/
  | io (path : Option String) (cause : IoError)
  deriving DecidableEq, Repr

def SettingsFault.message : SettingsFault → String
  | .zeroCapacity => "capacity must be at least 1"
  | .zeroRecordLimit => "max_record_len must be at least 1"
  | .invalidAddress text => s!"invalid bind address {text}: invalid socket address syntax"
  | .unreadable path cause => s!"{path}: {cause.message}"
  | .malformed => "malformed document"
  | .reported text => text

namespace ServiceError

def message : ServiceError → String
  | .log cause => s!"Log error: {cause.message}"
  | .settings cause => s!"Configuration error: {cause.message}"
  | .bind address reason => s!"Failed to bind {address}: {reason}"
  | .io none cause => s!"IO error: {cause.message}"
  | .io (some path) cause => s!"IO error: {path}: {cause.message}"

/-- What a program that ends because of a failure says. -/
def complaint (e : ServiceError) : String :=
  s!"Error: {e.message}"

end ServiceError

end CommandLog
