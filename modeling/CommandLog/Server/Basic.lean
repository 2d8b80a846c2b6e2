import CommandLog.Drain
import CommandLog.Host
import CommandLog.Hub.Basic
import CommandLog.Notice
import CommandLog.Settings.Basic
import CommandLog.SocketAddress.Printer

/-! # Servers

A server listens on an address of a host and runs a session for each connection, with a ticker
beside them if time records are wanted. Once it is told to stop it takes itself down in order: it
stops listening, drains its sessions, stops the ticker, clears the store and removes the transcript.
-/

namespace CommandLog

inductive Server.Phase where
  | bound
  | serving
  /-- Pauses up to a time, since a connection could not be taken. -/
  | pausing (last : Nat)
  /-- No longer listens; the sessions still to be waited for get until the deadline. -/
  | draining (sessions : List TaskId) (deadline : Nat)
  | stopping
  | clearing (errand : TaskId)
  | removing
  | stopped
  deriving DecidableEq, Repr

/-- A server with its host and everything that its tasks share. -/
structure Server where
  settings : Settings
  host : Host
  address : SocketAddress
  hub : Hub
  board : NoticeBoard := {}
  reader : NoticeReader
  phase : Server.Phase := .bound
  /-- The sessions that were running when the last connection was taken, in order of arrival. -/
  sessions : List TaskId := []
  accepted : Nat := 0
  ticker : Option (TaskId × NoticeReader) := none

namespace Server

def openTranscript (s : Settings) (t : FileTree) :
    Except ServiceError (Option Transcript) × FileTree :=
  match s.backingFile with
  | none => (.ok none, t)
  | some path =>
    match Transcript.create t ⟨path⟩ with
    | (.ok tr, t) => (.ok (some tr), t)
    | (.error e, t) => (.error e, t)

def resources (s : Settings) (store : Store) (transcript : Option Transcript) (t : FileTree)
    (dial : Nat → ZonedTime) : Resources :=
  { store := store, timeout := s.lockTimeout, tree := t, transcript := transcript, dial := dial }

def ofListener (s : Settings) (h : Host) (a : SocketAddress) (r : Resources) : Server :=
  let board : NoticeBoard := {}
  { settings := s, host := h, address := a, hub := { resources := r }, board := board
    reader := board.subscribe }

def listen (s : Settings) (h : Host) (a : SocketAddress) (r : Resources) :
    Except ServiceError Server :=
  match h.listen a with
  | .error e => .error (.bind a.text e.message)
  | .ok (a, h) => .ok (ofListener s h a r)

def plan (s : Settings) : Except ServiceError (SocketAddress × Store) := do
  s.validate
  let a ← s.socketAddress
  match Store.ofCapacity s.capacity with
  | .error e => .error (.log e)
  | .ok store => .ok (a, store)

/-- Binds a server: the settings are checked, the store is made, the transcript is opened, and then
the address is taken. What was done to the files stays if a later step fails. -/
def bind (s : Settings) (h : Host) (t : FileTree) (dial : Nat → ZonedTime) :
    Except ServiceError Server × FileTree :=
  match plan s with
  | .error e => (.error e, t)
  | .ok (a, store) =>
    match openTranscript s t with
    | (.error e, t) => (.error e, t)
    | (.ok transcript, t) => (listen s h a (resources s store transcript t dial), t)

/-- How long the loop that takes connections pauses after a failure, in milliseconds. -/
def pause : Nat := 50

def isListening (s : Server) : Bool :=
  s.host.listening.contains s.address

def tickerIsOver (s : Server) : Bool :=
  s.ticker.all fun (id, _) => s.hub.isOver id

def drainDeadline (s : Server) : Nat :=
  s.hub.resources.now + s.settings.shutdownGrace.ceilMilliseconds

/-- Begins to take connections, without a ticker. -/
def serve (s : Server) : Server :=
  match s.phase with
  | .bound => { s with phase := .serving }
  | _ => s

/-- Adds the ticker that the settings ask for. It does not see what was on the board before. -/
def addTicker (s : Server) : Server :=
  match s.settings.timestampInterval with
  | none => s
  | some interval =>
    let ticker := Ticker.start interval (.ofMilliseconds s.hub.resources.now) true
    { s with
      hub := s.hub.next (.spawn (.ticker ticker))
      ticker := some (s.hub.tasks.length, s.board.subscribe) }

def start (s : Server) : Server :=
  match s.phase with
  | .bound => s.addTicker.serve
  | _ => s

/-- Tells the server to stop, which may be done more than once. -/
def trigger (s : Server) : Server :=
  { s with board := s.board.post }

def accept? (s : Server) (w : Wire) : Option Server :=
  match s.phase with
  | .serving =>
    some { s with
      hub := s.hub.next (.spawn (.session { wire := w, reader := s.settings.lineReader }))
      sessions := s.sessions.filter (!s.hub.isOver ·) ++ [s.hub.tasks.length]
      accepted := s.accepted + 1 }
  | _ => none

/-- Fails to take a connection, and pauses, so that a failure that lasts is not met at once
again. -/
def falter? (s : Server) : Option Server :=
  match s.phase with
  | .serving => some { s with phase := .pausing (s.hub.resources.now + pause) }
  | _ => none

def resume? (s : Server) : Option Server :=
  match s.phase with
  | .pausing last => if last ≤ s.hub.resources.now then some { s with phase := .serving } else none
  | _ => none

/-- Stops listening upon a notice; the sessions begin to be drained. -/
def leave? (s : Server) : Option Server :=
  match s.phase, s.board.read? s.reader with
  | .serving, some (_, reader) =>
    some { s with
      host := s.host.close s.address
      reader := reader
      phase := .draining s.sessions s.drainDeadline }
  | _, _ => none

/-- Stops the ticker upon a notice, unless it is busy with a tick. -/
def heed? (s : Server) : Option Server :=
  match s.ticker with
  | none => none
  | some (id, reader) =>
    match s.hub.tasks[id]?, s.board.read? reader with
    | some (.ticker t), some (_, reader) =>
      match t.stage with
      | .waiting =>
        some { s with
          hub := (s.hub.next (.stop id)).next (.step id)
          ticker := some (id, reader) }
      | _ => none
    | _, _ => none

def removeTranscript (r : Resources) : Resources :=
  match r.transcript with
  | none => r
  | some tr =>
    match tr.remove r.tree with
    | .ok t => { r with tree := t }
    | .error _ => r

/-- Goes on with the teardown, if nothing has to be waited for. A notice is posted for the ticker,
which does not see one from before the start. -/
def proceed? (s : Server) : Option Server :=
  match s.phase with
  | .bound | .serving | .pausing _ | .stopped => none
  | .draining [] _ => some { s with board := s.board.post, phase := .stopping }
  | .draining (id :: rest) deadline =>
    match Drain.verdict deadline s.hub.resources.now (s.hub.isOver id) with
    | .finished => some { s with phase := .draining rest deadline }
    | .aborted => some { s with hub := s.hub.next (.kill id), phase := .draining rest deadline }
    | .waiting => none
  | .stopping =>
    if s.tickerIsOver then
      some { s with
        hub := s.hub.next (.spawn (.errand { operation := .clear }))
        phase := .clearing s.hub.tasks.length }
    else none
  | .clearing id => if s.hub.isOver id then some { s with phase := .removing } else none
  | .removing =>
    some { s with
      hub := { s.hub with resources := removeTranscript s.hub.resources }
      phase := .stopped }

/-- What a server that has stopped gives back: nothing in its teardown makes it fail. -/
def result? (s : Server) : Option (Except ServiceError Unit) :=
  match s.phase with
  | .stopped => some (.ok ())
  | _ => none

inductive Event where
  | start
  | trigger
  | accept (wire : Wire)
  /-- A client connects and cannot be taken. -/
  | falter
  /-- A pause after such a failure ends. -/
  | resume
  /-- The loop that takes connections reads the board. -/
  | leave
  /-- The ticker reads the board. -/
  | heed
  | proceed
  | hub (event : Hub.Event)

/-- The server after an event; an event that cannot happen changes nothing. -/
def next (s : Server) : Event → Server
  | .start => s.start
  | .trigger => s.trigger
  | .accept w => (s.accept? w).getD s
  | .falter => s.falter?.getD s
  | .resume => s.resume?.getD s
  | .leave => s.leave?.getD s
  | .heed => s.heed?.getD s
  | .proceed => s.proceed?.getD s
  | .hub e => { s with hub := s.hub.next e }

def run (s : Server) (events : List Event) : Server :=
  events.foldl next s

end Server

end CommandLog
