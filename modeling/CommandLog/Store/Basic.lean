import CommandLog.LogError
import CommandLog.Record

/-! # The record store

A ring of a fixed number of slots. The records in use stand in consecutive slots from `head` on,
oldest first; appending to a full ring drops the oldest record in the same step. The list of the
records held, oldest first, is `Store.toList`.
-/

namespace CommandLog

/-- A bounded first-in first-out collection of records. -/
structure Store where
  /-- The ring; an unused slot is empty. -/
  slots : Array (Option Record)
  /-- The slot of the oldest record. -/
  head : Nat
  count : Nat
  /-- The sum of their lengths. -/
  size : Nat
  deriving DecidableEq, Repr

namespace Store

def defaultCapacity : Nat := 10

def empty (capacity : Nat) : Store :=
  { slots := Array.replicate capacity none, head := 0, count := 0, size := 0 }

/-- An empty store with room for at least one record. -/
def ofCapacity (capacity : Nat) : Except LogError Store :=
  if capacity = 0 then .error .zeroCapacity else .ok (empty capacity)

def capacity (s : Store) : Nat :=
  s.slots.size

def isEmpty (s : Store) : Bool :=
  s.count == 0

def isFull (s : Store) : Bool :=
  s.count == s.capacity

/-- The slot of the record with the given index, 0 being the oldest. -/
def slot (s : Store) (index : Nat) : Nat :=
  (s.head + index) % s.capacity

def inSlot? (s : Store) (i : Nat) : Option Record :=
  s.slots[i]?.join

def get? (s : Store) (index : Nat) : Option Record :=
  if s.count ≤ index then none else s.inSlot? (s.slot index)

/-- The records held, oldest first. -/
def toList (s : Store) : List Record :=
  (List.range s.count).filterMap fun i => s.inSlot? (s.slot i)

def dropOldest (s : Store) : Store :=
  let freed := (s.inSlot? s.head).elim 0 Record.length
  { slots := s.slots.setIfInBounds s.head none
    head := (s.head + 1) % s.capacity
    count := s.count - 1
    size := s.size - freed }

/-- The store with a record in the first unused slot. -/
def push (s : Store) (r : Record) : Store :=
  { s with
    slots := s.slots.setIfInBounds (s.slot s.count) (some r)
    count := s.count + 1
    size := s.size + r.length }

/-- Appends the newest record; a full store drops its oldest first, which the flag tells. -/
def append (s : Store) (r : Record) : Store × Bool :=
  if s.isFull then (s.dropOldest.push r, true) else (s.push r, false)

def clear (s : Store) : Store :=
  empty s.capacity

end Store

end CommandLog
