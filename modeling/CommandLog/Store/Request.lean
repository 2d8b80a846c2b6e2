import CommandLog.Store.Place

/-! # Requests to a store

The operations that a holder of a store can ask for, as data, with their answers.
-/

namespace CommandLog.Store

inductive Request where
  | append (record : Record)
  | readFrom (offset : Nat)
  | readFromPlace (index offset : Nat)
  | readAt (offset limit : Nat)
  | resolve (index offset : Nat)
  | find (offset : Nat)
  | get (index : Nat)
  | list
  | state
  /-- The places of all offsets up to and including the size. -/
  | places
  | clear
  deriving DecidableEq, Repr

inductive Answer where
  | evicted (flag : Bool)
  | bytes (bs : Bytes)
  | offset (n : Nat)
  | place (p : Option Place)
  | record (r : Option Record)
  | records (rs : List Record)
  | state (isEmpty isFull : Bool) (capacity : Nat)
  | places (ps : List (Option Place))
  | failure (cause : LogError)
  | done
  deriving DecidableEq, Repr

def perform (s : Store) : Request → Store × Answer
  | .append r => let (s, flag) := s.append r; (s, .evicted flag)
  | .readFrom offset => (s, .bytes (s.readFrom offset))
  | .readFromPlace index offset =>
    (s, match s.readFromPlace index offset with
      | .ok bs => .bytes bs
      | .error cause => .failure cause)
  | .readAt offset limit => (s, .bytes (s.readAt offset limit))
  | .resolve index offset =>
    (s, match s.resolve index offset with
      | .ok n => .offset n
      | .error cause => .failure cause)
  | .find offset => (s, .place (s.find? offset))
  | .get index => (s, .record (s.get? index))
  | .list => (s, .records s.toList)
  | .state => (s, .state s.isEmpty s.isFull s.capacity)
  | .places => (s, .places ((List.range (s.size + 1)).map s.find?))
  | .clear => (s.clear, .done)

end CommandLog.Store
