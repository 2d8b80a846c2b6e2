import CommandLog.Hub.Resources
import CommandLog.LineReader

/-! # Sessions

A session serves one exchange: it reads one record, asks for the lock, stores the record or finds
the place that a directive names, sends content back and closes the stream. The record is read
before the lock is asked for; from then until the reply is sent the lock is held, so that the reply
shows the store as the session left it. A stream that ends before a newline gets the whole content
and changes nothing.
-/

namespace CommandLog

namespace Session

/-- What a session did, with the number of bytes it sent. -/
inductive Outcome where
  | appended (evicted : Bool) (sent : Nat)
  | sought (offset sent : Nat)
  | replayed (sent : Nat)
  deriving DecidableEq, Repr

inductive Stage where
  | reading
  /-- Asked for the lock, with the command read, if there was a complete record. -/
  | queued (request : Option Command) (deadline : Nat)
  /-- Holds the lock; the record appended goes into the transcript next. -/
  | copying (record : Record) (evicted : Bool)
  /-- Holds the lock; the rest of the reply is to be sent. -/
  | replying (outcome : Outcome) (rest : Bytes)
  /-- Holds the lock; the reply is sent but not flushed. -/
  | flushing (outcome : Outcome)
  /-- Has given the lock back; the stream is to be closed. -/
  | closing (result : Except ServiceError Outcome)
  | closed (result : Except ServiceError Outcome)
  | killed

end Session

/-- One exchange over a stream. -/
structure Session where
  wire : Wire
  reader : LineReader
  stage : Session.Stage := .reading

namespace Session

def enqueue (s : Session) (request : Option Command) (id : TaskId) (r : Resources) :
    Session × Resources :=
  ({ s with stage := .queued request r.deadline }, r.request id)

/-- What a frame asks for; the rest of a stream that ended asks for nothing. -/
def request (f : Frame) : Option Command :=
  if f.complete then some (.ofRecord ⟨f.bytes⟩) else none

def receive? (s : Session) (id : TaskId) (r : Resources) : Option (Session × Resources) :=
  match s.reader.poll with
  | .frame f next => some ({ s with reader := next }.enqueue (request f) id r)
  | .failure cause => some ({ s with stage := .closing (.error (.log cause)) }, r)
  | .bytes room next =>
    match s.wire.read room with
    | (.bytes [], w) =>
      let (f, next) := next.close
      some ({ s with wire := w, reader := next }.enqueue (request f) id r)
    | (.bytes bs, w) => some ({ s with wire := w, reader := next.take bs }, r)
    | (.failure cause, w) =>
      some ({ s with wire := w, reader := next, stage := .closing (.error (.log (.io cause))) }, r)
    | (.pause, w) => some ({ s with wire := w, reader := next }, r)
    | (.wait, _) => none

def reply (outcome : Nat → Outcome) (body : Bytes) : Stage :=
  .replying (outcome body.length) body

def enter (s : Session) (request : Option Command) (r : Resources) : Session × Resources :=
  match request with
  | some (.append record) =>
    let (r, evicted) := r.append record
    ({ s with stage := .copying record evicted }, r)
  | some (.seek directive) =>
    match r.store.locate directive with
    | .ok offset => ({ s with stage := reply (.sought offset) (r.store.readFrom offset) }, r)
    | .error cause => ({ s with stage := .closing (.error (.log cause)) }, r.release)
  | none => ({ s with stage := reply .replayed (r.store.readFrom 0) }, r)

/-- Sends some of the reply. A stream that takes nothing ends the session. -/
def send? (s : Session) (outcome : Outcome) (rest : Bytes) (r : Resources) :
    Option (Session × Resources) :=
  if rest = [] then some ({ s with stage := .flushing outcome }, r)
  else
    match s.wire.write rest with
    | (.taken 0, w) =>
      let result := .error (.io none (.kind .writeZero))
      some ({ s with wire := w, stage := .closing result }, r.release)
    | (.taken n, w) => some ({ s with wire := w, stage := .replying outcome (rest.drop n) }, r)
    | (.failure cause, w) =>
      some ({ s with wire := w, stage := .closing (.error (.io none cause)) }, r.release)
    | (.wait, _) => none

def step? (s : Session) (id : TaskId) (r : Resources) : Option (Session × Resources) :=
  match s.stage with
  | .reading => s.receive? id r
  | .queued request deadline =>
    if r.lock.holder = some id then some (s.enter request r)
    else if deadline ≤ r.now then
      some ({ s with stage := .closing (.error (.log r.lockTimeout)) }, r.withdraw id)
    else none
  | .copying record evicted =>
    let r := r.transcribe record
    some ({ s with stage := reply (.appended evicted) (r.store.readFrom 0) }, r)
  | .replying outcome rest => s.send? outcome rest r
  | .flushing outcome =>
    match s.wire.flush with
    | (.ok (), w) => some ({ s with wire := w, stage := .closing (.ok outcome) }, r.release)
    | (.error cause, w) =>
      some ({ s with wire := w, stage := .closing (.error (.io none cause)) }, r.release)
  | .closing result =>
    let (_, w) := s.wire.shutdown
    some ({ s with wire := w, stage := .closed result }, r)
  | .closed _ | .killed => none

/-- Ends a session wherever it is; what it holds or waits for is given up and the stream is not
closed in good order. -/
def kill (s : Session) (id : TaskId) (r : Resources) : Session × Resources :=
  match s.stage with
  | .closed _ | .killed => (s, r)
  | _ => ({ s with stage := .killed }, r.withdraw id)

def wakes? (s : Session) : Option Nat :=
  match s.stage with
  | .queued _ deadline => some deadline
  | _ => none

def result? (s : Session) : Option (Except ServiceError Outcome) :=
  match s.stage with
  | .closed result => some result
  | _ => none

end Session

end CommandLog
