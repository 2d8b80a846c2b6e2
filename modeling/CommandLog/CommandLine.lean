import CommandLog.Decimal

/-! # The command line

Options are given by a long name, some of them by a letter; values follow directly, after an equals
sign or as the next argument. The value of an option that was given as the next argument is looked
at when the next known option comes or the arguments end, so that an unknown argument is reported
first. Every option may be given once.
-/

namespace CommandLog

namespace CommandLine

/-- Why the arguments cannot be used; asking for help counts as such. -/
inductive Fault where
  | displayHelp
  | invalidValue
  | valueValidation
  | unknownArgument
  | argumentConflict
  | tooManyValues
  deriving DecidableEq, Repr

def Fault.exitCode : Fault → Nat
  | displayHelp => 0
  | _ => 2

inductive Switch where
  | config | bind | portNumber | capacity | timestampInterval | backingFile | logLevel
  | jsonLogs | help
  deriving DecidableEq, Repr

namespace Switch

def ofName? : String → Option Switch
  | "config" => some config
  | "bind" => some bind
  | "port" => some portNumber
  | "capacity" => some capacity
  | "timestamp-interval" => some timestampInterval
  | "backing-file" => some backingFile
  | "log-level" => some logLevel
  | "json-logs" => some jsonLogs
  | "help" => some help
  | _ => none

def ofLetter? : Char → Option Switch
  | 'c' => some config
  | 'p' => some portNumber
  | 'h' => some help
  | _ => none

def takesValue : Switch → Bool
  | jsonLogs | help => false
  | _ => true

end Switch

end CommandLine

structure CommandLine where
  config : Option String := none
  bind : Option String := none
  portNumber : Option UInt16 := none
  capacity : Option Nat := none
  timestampSeconds : Option Nat := none
  backingFile : Option String := none
  logLevel : Option String := none
  jsonLogs : Bool := false
  deriving DecidableEq, Repr

namespace CommandLine

/-- A number that fits in 64 bits, in decimal digits, after an optional plus sign. -/
def unsigned? (s : String) : Option Nat :=
  let digits := match s.toList with
    | '+' :: rest => rest
    | cs => cs
  match Decimal.ofChars? digits with
  | some n => if n < UInt64.size then some n else none
  | none => none

/-- An endpoint number, read as a decimal number with an optional sign. -/
def portNumber? (s : String) : Option UInt16 :=
  match s.toList with
  | '-' :: rest => if Decimal.ofChars? rest = some 0 then some 0 else none
  | _ =>
    match unsigned? s with
    | some n => if n < 65536 then some (UInt16.ofNat n) else none
    | none => none

/-- A path, which must not be empty. -/
def path? (s : String) : Except Fault String :=
  if s.isEmpty then .error .invalidValue else .ok s

/-- The result of reading a value, or the fault of one that cannot be read. -/
def valid (a : Option α) : Except Fault α :=
  match a with
  | some a => .ok a
  | none => .error .valueValidation

def assign (c : CommandLine) (s : Switch) (v : String) : Except Fault CommandLine :=
  match s with
  | .config => (path? v).map fun v => { c with config := some v }
  | .bind => .ok { c with bind := some v }
  | .portNumber => (valid (portNumber? v)).map fun n => { c with portNumber := some n }
  | .capacity => (valid (unsigned? v)).map fun n => { c with capacity := some n }
  | .timestampInterval => (valid (unsigned? v)).map fun n => { c with timestampSeconds := some n }
  | .backingFile => (path? v).map fun v => { c with backingFile := some v }
  | .logLevel => .ok { c with logLevel := some v }
  | .jsonLogs => .ok { c with jsonLogs := true }
  | .help => .error .displayHelp

/-- A switch at which the reading of the arguments has arrived. -/
inductive Pending where
  | none
  /-- The next argument may be its value. -/
  | awaiting (s : Switch)
  /-- Its value is there, but was not looked at. -/
  | given (s : Switch) (v : String)
  deriving DecidableEq, Repr

structure Reader where
  result : CommandLine := {}
  seen : List Switch := []
  pending : Pending := .none
  deriving DecidableEq, Repr

namespace Reader

/-- Sets a switch, which must not have been set before. -/
def set (r : Reader) (s : Switch) (v : String) : Except Fault Reader :=
  if s ∈ r.seen then .error .argumentConflict
  else (r.result.assign s v).map fun c => { r with result := c, seen := s :: r.seen }

/-- Looks at the value of the pending switch. -/
def resolve (r : Reader) : Except Fault Reader :=
  let done := { r with pending := .none }
  match r.pending with
  | .none => .ok done
  | .awaiting _ => .error .invalidValue
  | .given s v => done.set s v

/-- A switch with a value of its own, if one is attached. -/
def switch (r : Reader) (s : Switch) (attached : Option String) : Except Fault Reader :=
  if s.takesValue then do
    let r ← r.resolve
    match attached with
    | some v => r.set s v
    | none => .ok { r with pending := .awaiting s }
  else
    match attached with
    | some _ => .error .tooManyValues
    | none => do (← r.resolve).set s ""

def cutAtEquals (cs : List Char) : String × Option String :=
  match cs.span (· ≠ '=') with
  | (name, _ :: v) => (String.ofList name, some (String.ofList v))
  | (name, []) => (String.ofList name, none)

/-- What follows a letter in the same argument; an equals sign may part them. -/
def attachment : List Char → Option String
  | [] => none
  | '=' :: v => some (String.ofList v)
  | v => some (String.ofList v)

/-- An argument that is no switch: the awaited value, or one too many. -/
def word (r : Reader) (a : String) : Except Fault Reader :=
  match r.pending with
  | .awaiting s => .ok { r with pending := .given s a }
  | _ => .error .unknownArgument

def argument (r : Reader) (a : String) : Except Fault Reader :=
  match a.toList with
  | '-' :: '-' :: cs =>
    let (name, attached) := cutAtEquals cs
    match Switch.ofName? name with
    | some s => r.switch s attached
    | none => .error .unknownArgument
  | '-' :: c :: cs =>
    match Switch.ofLetter? c with
    | some s => if s.takesValue then r.switch s (attachment cs) else r.switch s none
    | none => .error .unknownArgument
  | _ => r.word a

/-- All arguments. After `--` there must be none. -/
def arguments (r : Reader) : List String → Except Fault Reader
  | [] => r.resolve
  | "--" :: rest => if rest = [] then r.resolve else .error .unknownArgument
  | a :: rest => do (← r.argument a).arguments rest

end Reader

def parse (args : List String) : Except Fault CommandLine :=
  (({} : Reader).arguments args).map (·.result)

end CommandLine

end CommandLog
