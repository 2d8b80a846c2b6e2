import CommandLog.Hub.Schedule
import CommandLog.Server.Basic

/-! # Running a server on a clock

Once a server is told to stop, it and its tasks act until they are at rest; the clock then moves to
the next time at which a task or the server itself has something to do. The loop that takes
connections can also be run alone, up to the end of its drain.
-/

namespace CommandLog.Server

def actInLoop? (s : Server) : Option Server :=
  match s.phase with
  | .serving => s.leave?
  | .pausing _ => s.resume?
  | .draining (_ :: _) _ => s.proceed?
  | _ => none

def act? (s : Server) : Option Server :=
  s.resume? <|> s.leave? <|> s.heed? <|> s.proceed?

def settleWithin (act? : Server → Option Server) : Nat → Server → Server
  | 0, s => s
  | n + 1, s =>
    let s := { s with hub := s.hub.settle }
    match act? s with
    | some s => settleWithin act? n s
    | none => s

/-- Lets the server act in one way, and its tasks, until they are at rest. -/
def settle (act? : Server → Option Server) (s : Server) : Server :=
  settleWithin act? (2 * s.board.posted + s.hub.tasks.length + 16) s

def wakes? (s : Server) : Option Nat :=
  let own := match s.phase with
    | .draining (_ :: _) time | .pausing time => [time].filter (s.hub.resources.now < ·)
    | _ => []
  (s.hub.wakes?.toList ++ own).min?

/-- Lets time pass until the server satisfies `enough`, coming to rest at each time at which there
is something to do, in at most `fuel` of them. -/
def elapseUntil (act? : Server → Option Server) (enough : Server → Bool) : Nat → Server → Server
  | 0, s => s
  | fuel + 1, s =>
    if enough s then s
    else match s.wakes? with
      | some time =>
        elapseUntil act? enough fuel (settle act? { s with hub := s.hub.setClock time })
      | none => s

def isDrained (s : Server) : Bool :=
  match s.phase with
  | .bound | .serving | .pausing _ | .draining (_ :: _) _ => false
  | _ => true

/-- No less than the milliseconds that a pause and a drain last, and after them the wait for a
lock. -/
def patience (s : Server) : Nat :=
  pause + s.settings.shutdownGrace.ceilMilliseconds + s.hub.resources.timeout.ceilMilliseconds + 2

/-- Runs the loop of a server that was told to stop, up to the end of its drain. -/
def awaitDrain (s : Server) : Server :=
  elapseUntil actInLoop? isDrained s.patience (s.settle actInLoop?)

def awaitStop (s : Server) : Server :=
  elapseUntil act? (·.result?.isSome) s.patience (s.settle act?)

end CommandLog.Server
