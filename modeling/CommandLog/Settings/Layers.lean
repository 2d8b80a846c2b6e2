import CommandLog.CommandLine
import CommandLog.Settings.Document
import CommandLog.SocketAddress.Printer

/-! # Layers of settings

The effective settings come from three layers: the defaults, the file that the command line names,
and the other options of the command line. The result is checked as a whole, so that an option can
make good what is wrong in the file.
-/

namespace CommandLog

namespace CommandLine

/-- The settings below the options: those of the file, or the defaults. -/
def base (c : CommandLine) (t : FileTree) : Except ServiceError Settings :=
  match c.config with
  | some path => Settings.load t ⟨path⟩
  | none => .ok {}

/-- Replaces the endpoint number of the address, which has to be a proper one. -/
def rebind (c : CommandLine) (s : Settings) : Except ServiceError Settings :=
  match c.portNumber with
  | some n => do
    let a ← s.socketAddress
    .ok { s with bindAddress := (a.withPortNumber n).text }
  | none => .ok s

def overrideAddress (c : CommandLine) (s : Settings) : Except ServiceError Settings :=
  c.rebind { s with bindAddress := c.bind.getD s.bindAddress }

def overrideRest (c : CommandLine) (s : Settings) : Settings :=
  { s with
    capacity := c.capacity.getD s.capacity
    timestampSeconds := c.timestampSeconds.getD s.timestampSeconds
    backingFile := c.backingFile <|> s.backingFile
    reporting := { s.reporting with
      level := c.logLevel.getD s.reporting.level
      json := c.jsonLogs || s.reporting.json } }

def settings (c : CommandLine) (t : FileTree) : Except ServiceError Settings := do
  let s ← c.base t
  let s ← c.overrideAddress s
  let s := c.overrideRest s
  s.validate
  .ok s

end CommandLine

end CommandLog
