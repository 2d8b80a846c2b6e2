import CommandLog.Server.Schedule

/-! # Trials of a server

A trial plays clients on the host of a server. Some connect, send something and stay; some make an
exchange each; some do so while the lock of the store is held against them. When the server is told
to stop, the clients that stayed may send the rest. A trial can be confined to the loop that takes
connections, and a server can be told to stop before it starts.
-/

namespace CommandLog

inductive Trial.Scope where
  | whole
  /-- Only the loop that takes connections, up to the end of the drain. -/
  | loop
  deriving DecidableEq, Repr

/-- What the clients of a trial do. -/
structure Trial where
  scope : Trial.Scope := .whole
  /-- What the clients send that stay connected. -/
  stalled : List Bytes := []
  exchanges : List Bytes := []
  /-- The exchanges that are tried while the lock is held. -/
  locked : List Bytes := []
  /-- What the clients that stayed send in the end; the others stay silent. -/
  endings : List (Option Bytes) := []
  /-- Whether the transcript is removed behind the server's back. -/
  losesTranscript : Bool := false

structure Trial.Report where
  responses : List Bytes
  locked : List Bytes
  /-- The content of the log and of the transcript before the server is told to stop. -/
  store : Bytes
  transcript : Option Bytes
  stalled : List Bytes

namespace Server

/-- The stream of a client that sends bytes, and nothing after them if it is `done`. -/
def clientWire (bs : Bytes) (done : Bool) : Wire :=
  { arrivals := if bs = [] then [] else [.chunk bs], ends := done }

def rest (s : Server) : Server :=
  { s with hub := s.hub.settle }

def connect (s : Server) (bs : Bytes) (done : Bool) : Except IoError (Server × TaskId) :=
  match s.host.connect s.address with
  | .error e => .error e
  | .ok () => .ok (((s.accept? (clientWire bs done)).getD s).rest, s.hub.tasks.length)

def response (s : Server) (id : TaskId) : Bytes :=
  match s.hub.tasks[id]? with
  | some (.session x) => x.wire.sent
  | _ => []

/-- Connects a client that sends bytes and waits for the whole response, which may take as long as
a session waits for the lock. -/
def exchange (s : Server) (bs : Bytes) : Except IoError (Server × Bytes) := do
  let (s, id) ← s.connect bs true
  let last := s.hub.resources.deadline
  let h := Hub.elapseWithin (·.isOver id) last (last - s.hub.resources.now) s.hub
  let s := { s with hub := h }
  .ok (s, s.response id)

def lockedExchange (s : Server) (bs : Bytes) : Except IoError (Server × Bytes) := do
  let keeper := s.hub.tasks.length
  let s := { s with hub := s.hub.next (.spawn (.errand { operation := .hold })) }
  let (s, answer) ← s.rest.exchange bs
  let s := { s with hub := s.hub.next (.letGo keeper) }
  .ok (s.rest, answer)

def each (f : Server → Bytes → Except IoError (Server × β)) :
    Server → List Bytes → Except IoError (Server × List β)
  | s, [] => .ok (s, [])
  | s, bs :: rest => do
    let (s, b) ← f s bs
    let (s, bs) ← each f s rest
    .ok (s, b :: bs)

def loseTranscript (s : Server) : Server :=
  match s.hub.resources.transcript with
  | none => s
  | some tr =>
    match s.hub.resources.tree.remove tr.path with
    | .ok t => { s with hub := { s.hub with resources := { s.hub.resources with tree := t } } }
    | .error _ => s

def sendEndings (s : Server) (stalled : List TaskId) (endings : List (Option Bytes)) : Server :=
  (stalled.zip endings).foldl (fun s (id, ending) =>
    match ending with
    | some bs => { s with hub := s.hub.next (.feed id (clientWire bs true).arrivals (some true)) }
    | none => s) s

end Server

namespace Trial

def begin (t : Trial) (s : Server) : Server :=
  match t.scope with
  | .whole => s.start
  | .loop => s.serve

def await (t : Trial) (s : Server) : Server :=
  match t.scope with
  | .whole => s.awaitStop
  | .loop => s.awaitDrain

/-- Starts a server, plays the clients and stops it. -/
def run (t : Trial) (s : Server) : Except IoError (Server × Report) := do
  let s := (t.begin s).rest
  let (s, stalled) ← Server.each (fun s bs => s.connect bs false) s t.stalled
  let (s, responses) ← Server.each Server.exchange s t.exchanges
  let (s, locked) ← Server.each Server.lockedExchange s t.locked
  let store := s.hub.resources.store.readFrom 0
  let transcript := s.hub.resources.transcriptBytes
  let s := if t.losesTranscript then s.loseTranscript else s
  let s := t.await (s.trigger.sendEndings stalled t.endings)
  .ok (s, {
    responses := responses, locked := locked, store := store, transcript := transcript
    stalled := stalled.map s.response })

/-- A server that already has a record is told to stop before it starts. -/
def runStopped (t : Trial) (s : Server) (record : Record) : Server :=
  let (r, _) := s.hub.resources.append record
  t.await (t.begin { s with hub := { s.hub with resources := r } }.trigger)

end Trial

end CommandLog
