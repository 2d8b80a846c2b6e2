import CommandLog.Device
import CommandLog.Timestamp
import CommandLog.Transcript

/-! # What tasks share

The store under its lock, the transcript, the devices with their handles, and the time. Time is
counted in milliseconds; a wait for the lock that may last a span ends at the first whole
millisecond at which the span has passed.
-/

namespace CommandLog

/-- Everything that the tasks of a hub share. -/
structure Resources where
  store : Store
  lock : FairLock := {}
  /-- How long a task waits for the lock. -/
  timeout : Span
  tree : FileTree := .standard
  transcript : Option Transcript := none
  devices : List Device := []
  handles : List Handle := []
  /-- Milliseconds since the start. -/
  now : Nat := 0
  /-- What a clock shows at each millisecond. -/
  dial : Nat → ZonedTime

namespace Resources

/-- The time at which a wait for the lock that begins now is given up. -/
def deadline (r : Resources) : Nat :=
  r.now + r.timeout.ceilMilliseconds

def request (r : Resources) (id : TaskId) : Resources :=
  { r with lock := r.lock.request id }

def release (r : Resources) : Resources :=
  { r with lock := r.lock.release }

def withdraw (r : Resources) (id : TaskId) : Resources :=
  { r with lock := r.lock.withdraw id }

def lockTimeout (r : Resources) : LogError :=
  .lockUnavailable (.timedOut r.timeout)

/-- Appends a record to the store and tells whether the oldest was dropped. -/
def append (r : Resources) (record : Record) : Resources × Bool :=
  let (store, evicted) := r.store.append record
  ({ r with store := store }, evicted)

/-- Writes a record to the transcript. A transcript that cannot be written changes nothing else. -/
def transcribe (r : Resources) (record : Record) : Resources :=
  match r.transcript with
  | none => r
  | some tr =>
    match tr.append r.tree record with
    | .ok (tr, tree) => { r with transcript := some tr, tree := tree }
    | .error _ => r

/-- The bytes in the file of the transcript, if it is there. -/
def transcriptBytes (r : Resources) : Option Bytes :=
  match r.transcript with
  | some tr => (r.tree.read tr.path).toOption
  | none => none

def hasTranscript (r : Resources) : Bool :=
  r.transcript.any fun tr => (r.tree.entry tr.path).isOk

/-- The handle with a number; a number that was never given stands for a closed one. -/
def handle (r : Resources) (h : Nat) : Handle :=
  r.handles.getD h ⟨0, 0⟩

def setCursor (r : Resources) (h cursor : Nat) : Resources :=
  { r with handles := r.handles.modify h fun x => { x with cursor := cursor } }

def device (r : Resources) (d : Nat) : Device :=
  r.devices.getD d {}

def modifyDevice (r : Resources) (d : Nat) (f : Device → Device) : Resources :=
  { r with devices := r.devices.modify d f }

end Resources

end CommandLog
