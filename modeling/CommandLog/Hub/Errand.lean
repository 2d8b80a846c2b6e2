import CommandLog.Hub.Resources

/-! # Errands

An errand is one operation that a task carries out under the lock of the store: it asks for the
lock, waits for a bounded time, acts in one go and gives the lock back. A device write first takes
what is pending on its device, without a bound on the wait, and needs the store only if it completes
a record. A time record is also written to the transcript before the lock is given back. To clear
the store an errand waits for the lock as long as it takes. `Operation.act` is what the operation
does when nothing interferes.
-/

namespace CommandLog

inductive Operation where
  | append (record : Record)
  | snapshot
  | count
  | size
  /-- Appends a time record, which goes into the transcript as well. -/
  | tick (record : Record)
  | write (handle : Nat) (data : Bytes)
  | read (handle limit : Nat)
  | readAt (handle offset limit : Nat)
  | seekTo (handle : Nat) (directive : Directive)
  | seek (handle : Nat) (target : SeekTarget)
  /-- Keeps the lock until told to let go. -/
  | hold
  | clear
  deriving DecidableEq, Repr

inductive Reply where
  | evicted (flag : Bool)
  | bytes (bs : Bytes)
  | number (n : Nat)
  | held
  | cleared
  deriving DecidableEq, Repr

namespace Operation

/-- The effect of an operation on what is shared, the transcript apart. -/
def act (op : Operation) (r : Resources) : Except LogError Reply × Resources :=
  match op with
  | append record | tick record =>
    let (r, evicted) := r.append record
    (.ok (.evicted evicted), r)
  | snapshot => (.ok (.bytes (r.store.readFrom 0)), r)
  | count => (.ok (.number r.store.count), r)
  | size => (.ok (.number r.store.size), r)
  | write h data =>
    let x := r.handle h
    let (records, pending) := Device.assemble (r.device x.device).pending data
    (.ok (.number data.length),
      ({ r with store := r.store.appendAll records }.modifyDevice x.device
        fun d => { d with pending := pending }).setCursor h (x.cursor + data.length))
  | read h limit =>
    let bs := r.store.readAt (r.handle h).cursor limit
    (.ok (.bytes bs), r.setCursor h ((r.handle h).cursor + bs.length))
  | readAt _ offset limit => (.ok (.bytes (r.store.readAt offset limit)), r)
  | seekTo h directive =>
    match r.store.locate directive with
    | .ok n => (.ok (.number n), r.setCursor h n)
    | .error e => (.error e, r)
  | seek h target =>
    match r.store.seek (r.handle h).cursor target with
    | .ok n => (.ok (.number n), r.setCursor h n)
    | .error e => (.error e, r)
  | hold => (.ok .held, r)
  | clear => (.ok .cleared, { r with store := r.store.clear })

/-- The device whose pending bytes the operation takes. -/
def device? (op : Operation) (r : Resources) : Option Nat :=
  match op with
  | write h _ => some (r.handle h).device
  | _ => none

def needsStore : Operation → Bool
  | write _ data => data.contains newline
  | _ => true

/-- When the operation gives up its wait for the lock of the store. -/
def deadline? (op : Operation) (r : Resources) : Option Nat :=
  match op with
  | clear => none
  | _ => some r.deadline

end Operation

inductive Errand.Stage where
  | fresh
  /-- Asked for what is pending on the device. -/
  | gathering
  /-- Asked for the lock of the store, and waits for it until the deadline, if there is one. -/
  | queued (deadline : Option Nat)
  /-- Holds the lock; the record appended goes into the transcript next. -/
  | copying (record : Record) (result : Reply)
  /-- Holds the lock until told to let go. -/
  | holding
  | finished (result : Except LogError Reply)
  | killed

structure Errand where
  operation : Operation
  stage : Errand.Stage := .fresh

namespace Errand

/-- Gives back what the errand has of its device. -/
def leaveDevice (e : Errand) (id : TaskId) (r : Resources) : Resources :=
  match e.operation.device? r with
  | some d => r.modifyDevice d fun x => { x with lock := x.lock.withdraw id }
  | none => r

def enter (e : Errand) (id : TaskId) (r : Resources) : Errand × Resources :=
  let (result, after) := e.operation.act r
  match e.operation, result with
  | .hold, _ => ({ e with stage := .holding }, r)
  | .tick record, .ok reply => ({ e with stage := .copying record reply }, after)
  | _, _ => ({ e with stage := .finished result }, e.leaveDevice id after.release)

def step? (e : Errand) (id : TaskId) (r : Resources) : Option (Errand × Resources) :=
  match e.stage with
  | .fresh =>
    match e.operation.device? r with
    | some d =>
      some ({ e with stage := .gathering },
        r.modifyDevice d fun x => { x with lock := x.lock.request id })
    | none => some ({ e with stage := .queued (e.operation.deadline? r) }, r.request id)
  | .gathering =>
    match e.operation.device? r with
    | some d =>
      if (r.device d).lock.holder = some id then
        if e.operation.needsStore then
          some ({ e with stage := .queued (e.operation.deadline? r) }, r.request id)
        else
          let (result, after) := e.operation.act r
          some ({ e with stage := .finished result }, e.leaveDevice id after)
      else none
    | none => none
  | .queued deadline =>
    if r.lock.holder = some id then some (e.enter id r)
    else if deadline.any (· ≤ r.now) then
      some ({ e with stage := .finished (.error r.lockTimeout) },
        e.leaveDevice id (r.withdraw id))
    else none
  | .copying record reply =>
    some ({ e with stage := .finished (.ok reply) }, (r.transcribe record).release)
  | .holding | .finished _ | .killed => none

def letGo (e : Errand) (r : Resources) : Errand × Resources :=
  match e.stage with
  | .holding => ({ e with stage := .finished (.ok .held) }, r.release)
  | _ => (e, r)

/-- Ends an errand wherever it is; what it holds or waits for is given up. -/
def kill (e : Errand) (id : TaskId) (r : Resources) : Errand × Resources :=
  match e.stage with
  | .finished _ | .killed => (e, r)
  | _ => ({ e with stage := .killed }, e.leaveDevice id (r.withdraw id))

def wakes? (e : Errand) : Option Nat :=
  match e.stage with
  | .queued deadline => deadline
  | _ => none

end Errand

end CommandLog
