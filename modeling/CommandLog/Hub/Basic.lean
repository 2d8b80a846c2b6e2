import CommandLog.Hub.Ticker
import CommandLog.Session

/-! # Hubs

A hub is a log with all the tasks that use it. Tasks take steps one at a time, in any order that the
events of a run prescribe; between two steps of a task anything may happen to the others.
-/

namespace CommandLog

inductive Task where
  | session (s : Session)
  | errand (e : Errand)
  | ticker (t : Ticker)

/-- A log and its tasks; a task is known by its place in the list. -/
structure Hub where
  resources : Resources
  tasks : List Task := []

namespace Task

def step? (t : Task) (id : TaskId) (r : Resources) : Option (Task × Resources) :=
  match t with
  | session s => (s.step? id r).map fun (s, r) => (session s, r)
  | errand e => (e.step? id r).map fun (e, r) => (errand e, r)
  | ticker t => (t.step? id r).map fun (t, r) => (ticker t, r)

/-- Ends a task wherever it is. -/
def kill (t : Task) (id : TaskId) (r : Resources) : Task × Resources :=
  match t with
  | session s => let (s, r) := s.kill id r; (session s, r)
  | errand e => let (e, r) := e.kill id r; (errand e, r)
  | ticker t => let (t, r) := t.kill id r; (ticker t, r)

def wakes? : Task → Option Nat
  | session s => s.wakes?
  | errand e => e.wakes?
  | ticker t => t.wakes?

def isOver : Task → Bool
  | session s => match s.stage with
    | .closed _ | .killed => true
    | _ => false
  | errand e => match e.stage with
    | .finished _ | .killed => true
    | _ => false
  | ticker t => match t.stage with
    | .stopped | .killed => true
    | _ => false

end Task

namespace Hub

inductive Event where
  | step (id : TaskId)
  /-- A ticker takes a tick that is due, even if it has been told to stop. -/
  | fire (id : TaskId)
  | spawn (task : Task)
  | kill (id : TaskId)
  | elapse (milliseconds : Nat)
  | feed (id : TaskId) (arrivals : List Arrival) (ends : Option Bool)
  /-- The peer of a session takes more. -/
  | allow (id : TaskId) (more : Option Nat)
  /-- A lock that is held on purpose is let go. -/
  | letGo (id : TaskId)
  | stop (id : TaskId)

/-- Puts a task and the shared state back after a step. -/
def put (h : Hub) (id : TaskId) (next : Task × Resources) : Hub :=
  { resources := next.2, tasks := h.tasks.set id next.1 }

def step? (h : Hub) (id : TaskId) : Option Hub :=
  match h.tasks[id]? with
  | some t => (t.step? id h.resources).map (h.put id)
  | none => none

def modifyWire (h : Hub) (id : TaskId) (f : Wire → Wire) : Hub :=
  { h with tasks := h.tasks.modify id fun
    | .session s => .session { s with wire := f s.wire }
    | t => t }

/-- The hub after an event; an event that cannot happen changes nothing. -/
def next (h : Hub) : Event → Hub
  | .step id => (h.step? id).getD h
  | .fire id =>
    match h.tasks[id]? with
    | some (.ticker t) =>
      match t.fire? h.resources with
      | some t => h.put id (.ticker t, h.resources)
      | none => h
    | _ => h
  | .spawn task => { h with tasks := h.tasks ++ [task] }
  | .kill id =>
    match h.tasks[id]? with
    | some t => h.put id (t.kill id h.resources)
    | none => h
  | .elapse ms => { h with resources := { h.resources with now := h.resources.now + ms } }
  | .feed id arrivals ends => h.modifyWire id fun w => w.feed arrivals ends
  | .allow id more => h.modifyWire id fun w => w.allow more
  | .letGo id =>
    match h.tasks[id]? with
    | some (.errand e) =>
      let (e, r) := e.letGo h.resources
      h.put id (.errand e, r)
    | _ => h
  | .stop id =>
    { h with tasks := h.tasks.modify id fun
      | .ticker t => .ticker { t with stopping := true }
      | t => t }

def run (h : Hub) (events : List Event) : Hub :=
  events.foldl next h

/-- Whether a task has come to its end; so has one that never began. -/
def isOver (h : Hub) (id : TaskId) : Bool :=
  match h.tasks[id]? with
  | some t => t.isOver
  | none => true

end Hub

end CommandLog
