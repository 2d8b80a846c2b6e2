import CommandLog.Bytes

/-! # Records

A record is one entry of the log: normally a single line with its newline.
-/

namespace CommandLog

structure Record where
  bytes : Bytes
  deriving DecidableEq, Repr

namespace Record

/-- The number of bytes, the newline included. -/
def length (r : Record) : Nat :=
  r.bytes.length

def isEmpty (r : Record) : Bool :=
  r.bytes.isEmpty

def isTerminated (r : Record) : Bool :=
  r.bytes.getLast? == some newline

def totalLength (rs : List Record) : Nat :=
  rs.foldr (fun r n => r.length + n) 0

end Record

end CommandLog
