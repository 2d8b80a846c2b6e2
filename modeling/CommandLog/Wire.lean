import CommandLog.Bytes
import CommandLog.IoError

/-! # Wires

One end of a duplex byte stream whose other end follows a script: what arrives, how much of what is
sent is taken, and which operations fail. A read takes no more than the reader has room for, and at
most one scripted arrival.
-/

namespace CommandLog

inductive Arrival where
  /-- Bytes come in; an empty chunk reads as the end of the stream. -/
  | chunk (bytes : Bytes)
  | failure (cause : IoError)
  /-- Nothing is there yet, once. -/
  | pause
  deriving DecidableEq, Repr

def Arrival.length : Arrival → Nat
  | chunk bs => bs.length
  | _ => 0

/-- What meets a writer once the peer has taken all it is going to take. -/
inductive Refusal where
  | wait
  | takeNothing
  | failure (cause : IoError)
  deriving DecidableEq, Repr

/-- What the peer takes: `limit` bytes in all, at most `chunk` bytes at a time; the next few writes
have bounds of their own. -/
structure Intake where
  pieces : List Nat := []
  chunk : Option Nat := none
  limit : Option Nat := none
  refusal : Refusal := .wait
  deriving DecidableEq, Repr

/-- A scripted duplex stream. -/
structure Wire where
  arrivals : List Arrival := []
  /-- Whether the stream ends when nothing more is scripted to arrive; if not, reads wait. -/
  ends : Bool := true
  intake : Intake := {}
  flushFailure : Option IoError := none
  shutdownFailure : Option IoError := none
  sent : Bytes := []
  flushes : Nat := 0
  shutdowns : Nat := 0
  deriving DecidableEq, Repr

namespace Wire

inductive Reading where
  | bytes (chunk : Bytes)
  | failure (cause : IoError)
  | pause
  | wait
  deriving DecidableEq, Repr

inductive Writing where
  | taken (count : Nat)
  | failure (cause : IoError)
  | wait
  deriving DecidableEq, Repr

def read (w : Wire) (room : Nat) : Reading × Wire :=
  match w.arrivals with
  | .chunk bs :: rest =>
    if bs.length ≤ room then (.bytes bs, { w with arrivals := rest })
    else (.bytes (bs.take room), { w with arrivals := .chunk (bs.drop room) :: rest })
  | .failure cause :: rest => (.failure cause, { w with arrivals := rest })
  | .pause :: rest => (.pause, { w with arrivals := rest })
  | [] => (if w.ends then .bytes [] else .wait, w)

/-- How many of `offered` bytes the peer takes now. -/
def allowance (w : Wire) (offered : Nat) : Nat :=
  let byChunk := (w.intake.pieces.head?.or w.intake.chunk).elim offered (min offered)
  w.intake.limit.elim byChunk fun limit => min byChunk (limit - w.sent.length)

def isExhausted (w : Wire) : Bool :=
  w.intake.limit.any (· ≤ w.sent.length)

/-- Offers bytes, of which the peer takes a first part. -/
def write (w : Wire) (bs : Bytes) : Writing × Wire :=
  if w.isExhausted then
    match w.intake.refusal with
    | .wait => (.wait, w)
    | .takeNothing => (.taken 0, w)
    | .failure cause => (.failure cause, w)
  else
    let n := w.allowance bs.length
    let intake := { w.intake with pieces := w.intake.pieces.tail }
    (.taken n, { w with sent := w.sent ++ bs.take n, intake := intake })

def flush (w : Wire) : Except IoError Unit × Wire :=
  (match w.flushFailure with
    | some cause => .error cause
    | none => .ok (),
    { w with flushes := w.flushes + 1 })

def shutdown (w : Wire) : Except IoError Unit × Wire :=
  (match w.shutdownFailure with
    | some cause => .error cause
    | none => .ok (),
    { w with shutdowns := w.shutdowns + 1 })

def isShut (w : Wire) : Bool :=
  0 < w.shutdowns

def unread (w : Wire) : Nat :=
  w.arrivals.foldr (fun a n => a.length + n) 0

/-- Schedules further arrivals, and says anew, if at all, whether the stream ends after them. -/
def feed (w : Wire) (arrivals : List Arrival) (ends : Option Bool) : Wire :=
  { w with arrivals := w.arrivals ++ arrivals, ends := ends.getD w.ends }

/-- Raises the number of bytes that the peer takes in all, or lifts the limit. -/
def allow (w : Wire) (more : Option Nat) : Wire :=
  let limit := match more, w.intake.limit with
    | some n, some limit => some (limit + n)
    | _, _ => none
  { w with intake := { w.intake with limit := limit } }

end Wire

end CommandLog
