import CommandLog.Server.Schedule
import CommandLog.Settings.Layers
import Std.Async.Signal
import Std.Async.TCP
import Std.Async.Timer
import Std.Sync.Mutex

/-! # The program

Carries bytes between the network, the files and a server, and lets time pass for it. What happens
to the bytes is up to the server.
-/

namespace CommandLog.Main

open Std.Async

/-- The error number behind a code, which is negative if it comes from the event loop. -/
def errorNumber (code : UInt32) : Nat :=
  code.toInt32.toInt.natAbs

def failureOf : IO.Error → IoError
  | .alreadyExists _ code _ | .otherError code _ | .resourceBusy code _ | .resourceVanished code _
  | .unsupportedOperation code _ | .hardwareFault code _ | .unsatisfiedConstraints code _
  | .illegalOperation code _ | .protocolError code _ | .timeExpired code _
  | .interrupted _ code _ | .noFileOrDirectory _ code _ | .invalidArgument _ code _
  | .permissionDenied _ code _ | .resourceExhausted _ code _ | .inappropriateType _ code _
  | .noSuchThing _ code _ => .os (errorNumber code)
  | e => .described (toString e)

def attempt (tell : IoError → ServiceError) (action : IO α) : ExceptT ServiceError IO α := do
  match ← (action.toBaseIO : BaseIO _) with
  | .ok a => pure a
  | .error e => throw (tell (failureOf e))

def ofExcept (result : Except ServiceError α) : ExceptT ServiceError IO α :=
  ExceptT.mk (pure result)

def treeFor (c : CommandLine) : ExceptT ServiceError IO FileTree :=
  match c.config with
  | none => pure .standard
  | some name => do
    let path : Path := ⟨name⟩
    let bytes ← attempt (fun e => .settings (.unreadable name e)) (IO.FS.readBinFile name)
    let above := (path.parent?.map (FileTree.standard.makeDirectories · |>.2)).getD .standard
    match above.writeFile path bytes.toList with
    | .ok t => pure t
    | .error e => throw (.settings (.unreadable name e))

/-- A server together with the file behind its transcript. -/
structure Live where
  server : Server
  file : Option IO.FS.Handle
  copied : Nat := 0
  /-- The clock of the machine when the server was bound. -/
  origin : Nat

def openFile (name : String) : ExceptT ServiceError IO IO.FS.Handle := do
  if let some above := (Path.mk name).parent? then
    if !above.text.isEmpty then attempt (.io none) (IO.FS.createDirAll above.text)
  attempt (.io (some name)) (IO.FS.Handle.mk name .write)

def netAddress : SocketAddress → Std.Net.SocketAddress
  | .v4 ip n => .v4 ⟨⟨#v[ip.a, ip.b, ip.c, ip.d]⟩, n⟩
  | .v6 ip _ n => .v6 ⟨⟨ip.groups⟩, n⟩

def addressOfNet : Std.Net.SocketAddress → SocketAddress
  | .v4 ⟨⟨bs⟩, n⟩ => .v4 ⟨bs[0], bs[1], bs[2], bs[3]⟩ n
  | .v6 ⟨⟨gs⟩, n⟩ => .v6 ⟨gs⟩ 0 n

def listen (a : SocketAddress) : IO TCP.Socket.Server := do
  let listener ← TCP.Socket.Server.mk
  listener.bind (netAddress a)
  listener.listen 1024
  return listener

/-- What the clock of the machine shows at each millisecond of a server's life. -/
def readClock : IO (Nat → ZonedTime) := do
  let time ← Std.Time.DateTime.now
  let start := time.toTimestamp.toSecondsSinceUnixEpoch.val
  return fun ms => ⟨start + ms / 1000, 0, time.timezone.offset.second.val⟩

def bind (s : Settings) : ExceptT ServiceError IO (Live × TCP.Socket.Server) := do
  let (address, store) ← ofExcept (Server.plan s)
  let file ← s.backingFile.mapM openFile
  let (transcript, tree) := Server.openTranscript { s with backingFile := file.map fun _ => "log" }
    .standard
  let transcript ← ofExcept transcript
  let listener ← attempt (fun e => .bind address.text e.message) (listen address)
  let address ← attempt (.io none) (addressOfNet <$> listener.getSockName)
  let resources := Server.resources s store transcript tree (← attempt (.io none) readClock)
  let host : Host := { Host.looped with listening := [address] }
  let origin ← (IO.monoMsNow : BaseIO Nat)
  return ({ server := .ofListener s host address resources, file := file, origin := origin },
    listener)

/-- Copies to the file what is new in the transcript. A file that cannot be written is left alone.
-/
def copyTranscript (l : Live) : IO Live := do
  match l.file, l.server.hub.resources.transcriptBytes with
  | some file, some bytes =>
    try
      file.write ⟨(bytes.drop l.copied).toArray⟩
      file.flush
    catch _ => pure ()
    return { l with copied := bytes.length }
  | _, _ => return l

/-- Lets time pass up to now, does something to the server and brings it to rest. -/
def act (live : Std.Mutex Live) (f : Server → Server) : IO Server :=
  live.atomically do
    let l ← get
    let passed := (← IO.monoMsNow) - l.origin - l.server.hub.resources.now
    let server := { l.server with hub := l.server.hub.elapse passed }
    let server := (f server).settle Server.act?
    let l ← copyTranscript { l with server := server }
    set l
    return server

def act.event (live : Std.Mutex Live) (e : Hub.Event) : IO Server :=
  act live (·.next (.hub e))

def sessionOf? (s : Server) (id : TaskId) : Option Session :=
  match s.hub.tasks[id]? with
  | some (.session x) => some x
  | _ => none

/-- What a client sends next, or how its stream ends. -/
def receive (client : TCP.Socket.Client) (id : TaskId) : Async Hub.Event := do
  try
    match ← client.recv? 65536 with
    | some bytes => return .feed id [.chunk bytes.toList] none
    | none => return .feed id [] (some true)
  catch e => return .feed id [.failure (failureOf e)] none

/-- Feeds a session with what its client sends, and sends back what the session has written, of
which `sent` bytes are on their way. -/
partial def serve (live : Std.Mutex Live) (client : TCP.Socket.Client) (id : TaskId)
    (sent : Nat) : Async Unit := do
  let server ← act.event live (← receive client id)
  match sessionOf? server id with
  | none => return
  | some session =>
    let rest := session.wire.sent.drop sent
    if rest ≠ [] then client.send ⟨rest.toArray⟩
    if server.hub.isOver id then client.shutdown
    else serve live client id session.wire.sent.length

/-- Takes connections until a signal comes. -/
partial def takeConnections (live : Std.Mutex Live) (listener : TCP.Socket.Server)
    (signals : List Signal.Waiter) : Async Unit := do
  let signalled := signals.map fun s => Selectable.case s.selector fun _ => return none
  let client ← Selectable.one
    (Selectable.case listener.acceptSelector (fun c => return some c) :: signalled).toArray
  match client with
  | none => return
  | some client =>
    let id ← live.atomically do
      let l ← get
      let id := l.server.hub.tasks.length
      set { l with server := (l.server.accept? { ends := false }).getD l.server }
      return id
    background (serve live client id 0)
    takeConnections live listener signals

partial def tend (live : Std.Mutex Live) : Async Unit := do
  let server ← act live id
  if server.result?.isNone then
    sleep 20
    tend live

def run (live : Live) (listener : TCP.Socket.Server) : Async Unit := do
  let interrupt ← Signal.Waiter.mk .sigint false
  let terminate ← Signal.Waiter.mk .sigterm false
  let shared ← Std.Mutex.new { live with server := live.server.start }
  let clock ← async (t := AsyncTask) (tend shared)
  takeConnections shared listener [interrupt, terminate]
  let _ ← act shared Server.trigger
  await clock
  if let some path := live.server.settings.backingFile then
    try IO.FS.removeFile path catch _ => pure ()

def usage : String :=
  "Usage: command-log [-c|--config PATH] [--bind ADDRESS] [-p|--port NUMBER]\n" ++
  "    [--capacity RECORDS] [--timestamp-interval SECONDS] [--backing-file PATH]\n" ++
  "    [--log-level LEVEL] [--json-logs]"

def start (c : CommandLine) : ExceptT ServiceError IO Unit := do
  let settings ← ofExcept (c.settings (← treeFor c))
  let (live, listener) ← bind settings
  IO.println s!"Listening on {live.server.address.text}"
  (← IO.getStdout).flush
  attempt (.io none) (run live listener).block

end CommandLog.Main

def main (arguments : List String) : IO UInt32 := do
  match CommandLog.CommandLine.parse arguments with
  | .error .displayHelp =>
    IO.println CommandLog.Main.usage
    return 0
  | .error fault =>
    IO.eprintln CommandLog.Main.usage
    return .ofNat fault.exitCode
  | .ok c =>
    match ← (CommandLog.Main.start c).run with
    | .ok () => return 0
    | .error e =>
      IO.eprintln e.complaint
      return 1
