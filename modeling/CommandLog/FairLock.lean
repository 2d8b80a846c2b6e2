/-! # Fair locks

A lock has at most one holder, and those who wait for it get it in the order in which they asked. A
release hands the lock to the first waiter at once, so a lock with waiters is never free.
-/

namespace CommandLog

abbrev TaskId := Nat

structure FairLock where
  holder : Option TaskId := none
  waiters : List TaskId := []
  deriving DecidableEq, Repr

namespace FairLock

def isFree (l : FairLock) : Bool :=
  l.holder.isNone

/-- Takes a free lock, or joins the end of the queue. -/
def request (l : FairLock) (id : TaskId) : FairLock :=
  match l.holder with
  | none => { l with holder := some id }
  | some _ => { l with waiters := l.waiters ++ [id] }

/-- Gives the lock to the first waiter, or frees it. -/
def release (l : FairLock) : FairLock :=
  match l.waiters with
  | [] => { l with holder := none }
  | id :: rest => { holder := some id, waiters := rest }

/-- Gives up whatever a task has of the lock: holding it or a place in the queue. -/
def withdraw (l : FairLock) (id : TaskId) : FairLock :=
  if l.holder = some id then l.release
  else { l with waiters := l.waiters.filter (· ≠ id) }

end FairLock

end CommandLog
