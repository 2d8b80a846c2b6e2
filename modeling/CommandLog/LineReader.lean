import CommandLog.LogError
import CommandLog.Wire

/-! # Cutting a stream into records

A line reader keeps the bytes that came in and are not yet part of a returned record. Its buffer
starts empty and doubles whenever it is full without a newline; after a record the rest stays in a
buffer that just fits. `LineReader.poll` tells what the reader needs next, so that the reader itself
never touches a stream; `LineReader.readRecord` runs it over a wire.
-/

namespace CommandLog

/-- What the reader returns: a line with its newline, or the rest of a stream that ended. -/
structure Frame where
  bytes : Bytes
  complete : Bool
  deriving DecidableEq, Repr

namespace Frame

def isEmpty (f : Frame) : Bool :=
  f.bytes.isEmpty

end Frame

/-- A buffer that collects bytes until a line is complete. -/
structure LineReader where
  buffer : Bytes
  capacity : Nat
  /-- The least capacity that a growing buffer takes. -/
  initial : Nat
  limit : Option Nat
  deriving DecidableEq, Repr

namespace LineReader

def defaultInitial : Nat := 1024

/-- The largest buffer that memory can be asked for. -/
def greatestCapacity : Nat := 9223372036854775807

/-- A reader with an empty buffer; the initial capacity is at least one byte. -/
def ofInitial (initial : Nat) (limit : Option Nat) : LineReader :=
  { buffer := [], capacity := 0, initial := max initial 1, limit := limit }

def buffered (r : LineReader) : Nat :=
  r.buffer.length

/-- The failure for a record of the given length, if it passes the limit. -/
def excess? (r : LineReader) (length : Nat) : Option LogError :=
  match r.limit with
  | some limit =>
    if limit < length then some (.exhausted (.recordTooLong length limit)) else none
  | none => none

/-- Doubles the capacity, from the initial one on. -/
def grow (r : LineReader) : Except LogError LineReader :=
  let target := max (2 * r.capacity) r.initial
  if greatestCapacity < target then .error (.exhausted .bufferTooLarge)
  else .ok { r with capacity := target }

inductive Demand where
  | frame (f : Frame) (next : LineReader)
  | failure (cause : LogError)
  /-- At most `room` more bytes, for the given reader. -/
  | bytes (room : Nat) (next : LineReader)
  deriving DecidableEq, Repr

/-- A complete line is returned at once; without one the reader asks for bytes. Since the record
will be at least one byte longer than the buffer, the limit is checked before that. -/
def poll (r : LineReader) : Demand :=
  match r.buffer.firstLine? with
  | some (line, rest) =>
    match r.excess? line.length with
    | some cause => .failure cause
    | none => .frame ⟨line, true⟩ { r with buffer := rest, capacity := rest.length }
  | none =>
    match r.excess? (r.buffered + 1) with
    | some cause => .failure cause
    | none =>
      if r.buffered = r.capacity then
        match r.grow with
        | .ok next => .bytes (next.capacity - next.buffered) next
        | .error cause => .failure cause
      else .bytes (r.capacity - r.buffered) r

def take (r : LineReader) (bs : Bytes) : LineReader :=
  { r with buffer := r.buffer ++ bs }

def close (r : LineReader) : Frame × LineReader :=
  (⟨r.buffer, false⟩, { r with buffer := [], capacity := 0 })

structure Reading where
  /-- The frame or the failure; nothing if the stream left the reader waiting. -/
  result : Option (Except LogError Frame)
  reader : LineReader
  wire : Wire
  reads : List Nat

/-- Reads until a frame, a failure or a wait, in at most `fuel` reads. -/
def readWithin : Nat → LineReader → Wire → Reading
  | 0, r, w => ⟨none, r, w, []⟩
  | fuel + 1, r, w =>
    match r.poll with
    | .frame f next => ⟨some (.ok f), next, w, []⟩
    | .failure cause => ⟨some (.error cause), r, w, []⟩
    | .bytes room next =>
      match w.read room with
      | (.bytes [], w) => ⟨some (.ok next.close.1), next.close.2, w, [0]⟩
      | (.bytes bs, w) =>
        let after := readWithin fuel (next.take bs) w
        { after with reads := bs.length :: after.reads }
      | (.failure cause, w) => ⟨some (.error (.io cause)), next, w, []⟩
      | (.pause, w) => readWithin fuel next w
      | (.wait, w) => ⟨none, next, w, []⟩

/-- Reads one record. Every read but the last takes an arrival or at least one of its bytes. -/
def readRecord (r : LineReader) (w : Wire) : Reading :=
  readWithin (w.arrivals.length + w.unread + 2) r w

end LineReader

end CommandLog
