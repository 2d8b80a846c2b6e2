import CommandLog.Store.Basic

/-! # Places in a store

The content of a store is the concatenation of its records, oldest first. A byte of it is named
either by its offset in the content or by its place: the index of a record and an offset inside
that record. `Store.find?` and `Store.resolve` convert between the two, and `Store.readAt` cuts a
piece out of the content.
-/

namespace CommandLog

/-- A byte of a store, by record and offset inside the record. -/
structure Place where
  index : Nat
  offset : Nat
  deriving DecidableEq, Repr

namespace Store

/-- All bytes of the store, oldest record first. -/
def content (s : Store) : Bytes :=
  (s.toList.map Record.bytes).flatten

/-- The place of an offset among records of which the first has the given index. -/
def findFrom? : List Record → Nat → Nat → Option Place
  | [], _, _ => none
  | r :: rs, index, offset =>
    if offset < r.length then some ⟨index, offset⟩
    else findFrom? rs (index + 1) (offset - r.length)

def find? (s : Store) (offset : Nat) : Option Place :=
  findFrom? s.toList 0 offset

def sizeBefore (s : Store) (index : Nat) : Nat :=
  Record.totalLength (s.toList.take index)

/-- The offset in the content of a place, which has to lie inside a record held. -/
def resolve (s : Store) (index offset : Nat) : Except LogError Nat :=
  match s.get? index with
  | some r =>
    if offset < r.length then .ok (s.sizeBefore index + offset)
    else .error (.outOfRange index offset)
  | none => .error (.outOfRange index offset)

/-- Copies bytes out of consecutive records, leaving out some at the front. -/
def gather : List Record → Nat → Nat → Bytes
  | [], _, _ => []
  | r :: rs, skipped, wanted =>
    if wanted = 0 then []
    else
      let chunk := (r.bytes.drop skipped).take wanted
      chunk ++ gather rs 0 (wanted - chunk.length)

/-- At most `limit` bytes of the content from an offset on. A piece inside one record is cut from
that record alone. -/
def readAt (s : Store) (offset limit : Nat) : Bytes :=
  match s.find? offset with
  | none => []
  | some start =>
    match s.get? start.index with
    | none => []
    | some first =>
      let wanted := min (s.size - offset) limit
      if wanted ≤ first.length - start.offset then
        (first.bytes.drop start.offset).take wanted
      else gather (s.toList.drop start.index) start.offset wanted

def readFrom (s : Store) (offset : Nat) : Bytes :=
  s.readAt offset s.size

def readFromPlace (s : Store) (index offset : Nat) : Except LogError Bytes :=
  (s.resolve index offset).map s.readFrom

end Store

end CommandLog
