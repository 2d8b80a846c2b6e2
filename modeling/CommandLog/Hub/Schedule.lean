import CommandLog.Hub.Basic

/-! # Running a hub on a clock

A hub comes to rest when no task can take a step. The clock then moves to the next time at which a
task has something to do. Tasks that can take a step at the same time take turns by their numbers.
-/

namespace CommandLog.Hub

/-- The hub after a step of the first task that can take one. -/
def stepFirst? (h : Hub) : Option Hub :=
  (List.range h.tasks.length).findSome? h.step?

def settleWithin : Nat → Hub → Hub
  | 0, h => h
  | n + 1, h =>
    match h.stepFirst? with
    | some h => settleWithin n h
    | none => h

/-- No fewer bytes than a task has still to read or write, or is about to store. -/
def taskBytes : Task → Nat
  | .session s =>
    s.wire.unread + s.wire.arrivals.length + s.reader.buffered + (match s.stage with
      | .replying _ rest => rest.length
      | .queued (some (.append r)) _ => r.length
      | _ => 0)
  | .errand e =>
    match e.operation with
    | .append r | .tick r => r.length
    | .write _ data => data.length
    | _ => 0
  | .ticker _ => 64

def bytesAhead (h : Hub) : Nat :=
  h.tasks.foldr (fun t n => taskBytes t + n) h.resources.store.size

/-- Lets tasks take steps until the hub is at rest. -/
def settle (h : Hub) : Hub :=
  settleWithin ((h.tasks.length + 1) * (2 * h.bytesAhead + 64)) h

def wakes? (h : Hub) : Option Nat :=
  ((h.tasks.filterMap Task.wakes?).filter (h.resources.now < ·)).min?

def setClock (h : Hub) (now : Nat) : Hub :=
  { h with resources := { h.resources with now := now } }

/-- Lets time pass up to `last`, coming to rest at each time at which a task wakes, in at most
`fuel` of them, and stops early once the hub satisfies `enough`. -/
def elapseWithin (enough : Hub → Bool) (last : Nat) : Nat → Hub → Hub
  | 0, h => h
  | fuel + 1, h =>
    if enough h then h
    else match h.wakes? with
      | some time =>
        if time ≤ last then elapseWithin enough last fuel (h.setClock time).settle else h
      | none => h

def elapse (h : Hub) (milliseconds : Nat) : Hub :=
  let last := h.resources.now + milliseconds
  ((elapseWithin (fun _ => false) last milliseconds h.settle).setClock last).settle

/-- Begins a task and waits for its end, as long as its wait for the lock can last. -/
def await (h : Hub) (task : Task) : Hub × TaskId :=
  let id := h.tasks.length
  let h := (h.next (.spawn task)).settle
  let last := h.resources.deadline
  (elapseWithin (·.isOver id) last (last - h.resources.now) h, id)

end CommandLog.Hub
