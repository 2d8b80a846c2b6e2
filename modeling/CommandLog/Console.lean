import CommandLog.Hub.Schedule
import CommandLog.Store.Request

/-! # The operator's console

A console drives a hub by instructions, one after another, and waits after each until the hub is at
rest. The operator can use the log directly, keep its lock, open devices and handles, run sessions
to their end or leave them connected, run tickers, and let time pass. A device can also have a log
of its own.
-/

namespace CommandLog

namespace Console

inductive HandleOperation where
  | write (data : Bytes)
  | read (limit : Nat)
  | readAt (offset limit : Nat)
  | seekTo (directive : Directive)
  | seek (target : SeekTarget)
  | position
  deriving DecidableEq, Repr

/-- What the operator asks for. Devices, handles, connections and tickers are numbered from 0 in the
order in which they were made. -/
inductive Instruction where
  | append (record : Record)
  | snapshot
  | count
  | size
  | lockTimeout
  | hold
  | release
  /-- A request to the store under the lock that is held, or under one taken just for it. -/
  | locked (request : Store.Request)
  | newDevice
  | ownDevice (capacity : Nat)
  | cloneDevice (device : Nat)
  | openHandle (device : Nat)
  | pending (device : Nat)
  | deviceSnapshot (device : Nat)
  | handle (handle : Nat) (operation : HandleOperation)
  | session (wire : Wire) (reader : LineReader)
  | connect (wire : Wire) (reader : LineReader)
  | feed (connection : Nat) (arrivals : List Arrival) (ends : Option Bool)
  | allow (connection : Nat) (more : Option Nat)
  | abort (connection : Nat)
  | connection (connection : Nat)
  | advance (milliseconds : Nat)
  | tick
  | startTicker (milliseconds : Nat)
  | stopTicker (ticker : Nat)
  | transcript
  | transcriptPath

structure Connection where
  response : Bytes
  unread : Nat
  flushes : Nat
  isShut : Bool

structure Closing where
  number : Nat
  outcome : Except ServiceError Session.Outcome
  connection : Connection

inductive Answer where
  | nothing
  | reply (result : Except LogError Reply)
  | ticked (result : Except ServiceError Reply)
  | cursor (result : Option (Except LogError Reply)) (position : Nat)
  | number (n : Nat)
  | refused (cause : LogError)
  | held (granted : Bool)
  | released (wasHeld : Bool)
  | store (answer : Option Store.Answer)
  | session (outcome : Except ServiceError Session.Outcome) (connection : Connection)
  | connection (connection : Connection)
  | finished (flag : Bool)
  | bytes (bs : Option Bytes)
  | text (s : Option String)
  /-- The hub came to rest before the answer was there. -/
  | unanswered

/-- What can be seen of the store: its record count and size, unless a task holds the lock. -/
inductive StoreView where
  | locked
  | contents (count size : Nat)

structure Report where
  answer : Answer
  milliseconds : Nat
  store : StoreView
  closings : List Closing

end Console

/-- A hub with what the operator has made on it. Devices and handles are known by the number of
their hub, 0 being the main one, and their number there. -/
structure Console where
  hub : Hub
  /-- The hubs of devices with a log of their own. -/
  others : List Hub := []
  devices : List (Nat × Nat) := [(0, 0)]
  handles : List (Nat × Nat) := []
  connections : List TaskId := []
  /-- The tickers; nothing is kept of one that was told to stop. -/
  tickers : List (Option TaskId) := []
  /-- The task that keeps the lock for the operator. -/
  keeper : Option TaskId := none
  /-- The connections whose end has been told, or that were aborted. -/
  settled : List Nat := []

namespace Console

open Hub (Event)

def start (capacity : Nat) (timeout : Span) (tree : FileTree) (transcript : Option Transcript)
    (dial : Nat → ZonedTime) : Except LogError Console :=
  match Store.ofCapacity capacity with
  | .error e => .error e
  | .ok store =>
    .ok { hub := { resources := {
      store := store, timeout := timeout, tree := tree, transcript := transcript
      devices := [{}], dial := dial } } }

def hubAt (c : Console) (n : Nat) : Hub :=
  match n with
  | 0 => c.hub
  | n + 1 => c.others.getD n c.hub

def setHub (c : Console) (n : Nat) (h : Hub) : Console :=
  match n with
  | 0 => { c with hub := h }
  | n + 1 => { c with others := c.others.set n h }

def event (c : Console) (e : Event) : Console :=
  { c with hub := c.hub.next e }

/-- Carries out an operation on a hub and waits for its result. -/
def carryOut (c : Console) (n : Nat) (op : Operation) :
    Console × Option (Except LogError Reply) :=
  let (h, id) := (c.hubAt n).await (.errand { operation := op })
  let result := match h.tasks[id]? with
    | some (.errand e) => match e.stage with
      | .finished result => some result
      | _ => none
    | _ => none
  (c.setHub n h, result)

def direct (c : Console) (op : Operation) : Console × Answer :=
  let (c, result) := c.carryOut 0 op
  (c, result.elim .unanswered .reply)

def connectionOf (s : Session) : Connection :=
  { response := s.wire.sent, unread := s.wire.unread, flushes := s.wire.flushes
    isShut := s.wire.isShut }

def sessionAt? (c : Console) (n : Nat) : Option Session :=
  match c.connections[n]? with
  | some id => match c.hub.tasks[id]? with
    | some (.session s) => some s
    | _ => none
  | none => none

def onConnection (c : Console) (n : Nat) (e : TaskId → Event) : Console :=
  match c.connections[n]? with
  | some id => c.event (e id)
  | none => c

/-- Takes the lock for the operator if it is free. -/
def hold (c : Console) : Console × Answer :=
  if c.hub.resources.lock.isFree then
    let h := (c.hub.next (.spawn (.errand { operation := .hold }))).settle
    ({ c with hub := h, keeper := some c.hub.tasks.length }, .held true)
  else (c, .held false)

def release (c : Console) : Console × Answer :=
  match c.keeper with
  | some id => ({ c.event (.letGo id) with keeper := none }, .released true)
  | none => (c, .released false)

/-- Carries out a request to the store, unless a task holds the lock. -/
def locked (c : Console) (q : Store.Request) : Console × Answer :=
  if c.keeper.isSome ∨ c.hub.resources.lock.isFree then
    let (store, answer) := c.hub.resources.store.perform q
    ({ c with hub := { c.hub with resources := { c.hub.resources with store := store } } },
      .store (some answer))
  else (c, .store none)

def addDevice (c : Console) (n device : Nat) : Console × Answer :=
  ({ c with devices := c.devices ++ [(n, device)] }, .number c.devices.length)

def newDevice (h : Hub) : Hub :=
  { h with resources := { h.resources with devices := h.resources.devices ++ [{}] } }

/-- Makes a device with a log of its own. -/
def ownDevice (c : Console) (capacity : Nat) : Console × Answer :=
  match Store.ofCapacity capacity with
  | .error e => (c, .refused e)
  | .ok store =>
    let h : Hub := { resources := {
      store := store, timeout := .ofSeconds 30, devices := [{}], dial := c.hub.resources.dial } }
    { c with others := c.others ++ [h] }.addDevice (c.others.length + 1) 0

def deviceAt (c : Console) (d : Nat) : Nat × Nat :=
  c.devices.getD d (0, 0)

def openHandle (c : Console) (d : Nat) : Console × Answer :=
  let (n, device) := c.deviceAt d
  let h := c.hubAt n
  let handles := h.resources.handles
  let c := c.setHub n
    { h with resources := { h.resources with handles := handles ++ [⟨device, 0⟩] } }
  ({ c with handles := c.handles ++ [(n, handles.length)] }, .number c.handles.length)

/-- The operation on the log that an operation on a handle amounts to. -/
def HandleOperation.onLog? (op : HandleOperation) (h : Nat) : Option Operation :=
  match op with
  | write data => some (.write h data)
  | read limit => some (.read h limit)
  | readAt offset limit => some (.readAt h offset limit)
  | seekTo directive => some (.seekTo h directive)
  | seek target => some (.seek h target)
  | position => none

def onHandle (c : Console) (x : Nat) (op : HandleOperation) : Console × Answer :=
  let (n, h) := c.handles.getD x (0, 0)
  let (c, result) := match op.onLog? h with
    | some op => c.carryOut n op
    | none => (c, none)
  (c, .cursor result ((c.hubAt n).resources.handle h).cursor)

def runSession (c : Console) (w : Wire) (r : LineReader) : Console × Answer :=
  let (h, id) := c.hub.await (.session { wire := w, reader := r })
  let c := { c with hub := h }
  match h.tasks[id]? with
  | some (.session s) => (c, s.result?.elim .unanswered fun o => .session o (connectionOf s))
  | _ => (c, .unanswered)

/-- Begins a session and leaves it to itself. -/
def connect (c : Console) (w : Wire) (r : LineReader) : Console × Answer :=
  ({ c.event (.spawn (.session { wire := w, reader := r })) with
      connections := c.connections ++ [c.hub.tasks.length] }, .number c.connections.length)

/-- Ends a connection, whose end is then not told. -/
def abort (c : Console) (n : Nat) : Console × Answer :=
  ({ c.onConnection n .kill with settled := n :: c.settled }, .nothing)

def tick (c : Console) : Console × Answer :=
  let r := c.hub.resources
  let (c, result) := c.carryOut 0 (.tick (Timestamp.record (r.dial r.now)))
  (c, result.elim .unanswered fun
    | .ok reply => .ticked (.ok reply)
    | .error e => .ticked (.error (.log e)))

/-- Starts a ticker whose records do not go into the transcript. -/
def startTicker (c : Console) (milliseconds : Nat) : Console × Answer :=
  let start := Span.ofMilliseconds c.hub.resources.now
  let ticker := Ticker.start (.ofMilliseconds milliseconds) start false
  ({ c.event (.spawn (.ticker ticker)) with
      tickers := c.tickers ++ [some c.hub.tasks.length] }, .number c.tickers.length)

/-- Tells a ticker to stop, which is done once, and whether it has. -/
def stopTicker (c : Console) (n : Nat) : Console × Answer :=
  match c.tickers[n]? with
  | some (some id) =>
    let h := (c.hub.next (.stop id)).settle
    ({ c with hub := h, tickers := c.tickers.set n none }, .finished (h.isOver id))
  | _ => (c, .nothing)

/-- Carries out an instruction, without waiting for the other tasks. -/
def perform (c : Console) : Instruction → Console × Answer
  | .append r => c.direct (.append r)
  | .snapshot => c.direct .snapshot
  | .count => c.direct .count
  | .size => c.direct .size
  | .lockTimeout => (c, .number c.hub.resources.timeout.nanoseconds)
  | .hold => c.hold
  | .release => c.release
  | .locked q => c.locked q
  | .newDevice =>
    { c with hub := newDevice c.hub }.addDevice 0 c.hub.resources.devices.length
  | .ownDevice capacity => c.ownDevice capacity
  | .cloneDevice d => let (n, device) := c.deviceAt d; c.addDevice n device
  | .openHandle d => c.openHandle d
  | .pending d =>
    let (n, device) := c.deviceAt d
    (c, .number ((c.hubAt n).resources.device device).pending.length)
  | .deviceSnapshot d =>
    let (c, result) := c.carryOut (c.deviceAt d).1 .snapshot
    (c, result.elim .unanswered .reply)
  | .handle x op => c.onHandle x op
  | .session w r => c.runSession w r
  | .connect w r => c.connect w r
  | .feed n arrivals ends => (c.onConnection n (.feed · arrivals ends), .nothing)
  | .allow n more => (c.onConnection n (.allow · more), .nothing)
  | .abort n => c.abort n
  | .connection n => (c, (c.sessionAt? n).elim .nothing fun s => .connection (connectionOf s))
  | .advance ms => ({ c with hub := c.hub.elapse ms }, .nothing)
  | .tick => c.tick
  | .startTicker ms => c.startTicker ms
  | .stopTicker n => c.stopTicker n
  | .transcript => (c, .bytes c.hub.resources.transcriptBytes)
  | .transcriptPath => (c, .text (c.hub.resources.transcript.map fun tr => tr.path.text))

/-- What can be seen of the store. The operator's own hold does not hide it. -/
def storeView (c : Console) : StoreView :=
  let r := c.hub.resources
  if r.lock.isFree ∨ c.keeper.isSome then .contents r.store.count r.store.size else .locked

/-- The connections that have come to their end and were not told yet. -/
def closings (c : Console) : List Closing :=
  (List.range c.connections.length).filterMap fun n =>
    if n ∈ c.settled then none
    else match c.sessionAt? n with
      | some s => s.result?.map fun o => ⟨n, o, connectionOf s⟩
      | none => none

/-- Carries out an instruction, waits until the hub is at rest and reports. -/
def instruct (c : Console) (i : Instruction) : Console × Report :=
  let (c, answer) := c.perform i
  let c := { c with hub := c.hub.settle }
  let ended := c.closings
  ({ c with settled := ended.map (·.number) ++ c.settled },
    { answer := answer, milliseconds := c.hub.resources.now, store := c.storeView
      closings := ended })

end Console

end CommandLog
