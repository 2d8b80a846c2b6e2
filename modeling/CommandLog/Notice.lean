/-! # Notices

A notice board has room for one notice, and a later notice takes the place of an earlier one. Each
reader sees the notices posted after it began to read. A reader that comes too late for a notice
learns how many it missed; the last one posted is then still there for it.
-/

namespace CommandLog

/-- A board for notices, as the number of notices posted so far. -/
structure NoticeBoard where
  posted : Nat := 0
  deriving DecidableEq, Repr

/-- One who reads a board, as the number of notices that are behind it. -/
structure NoticeReader where
  behind : Nat
  deriving DecidableEq, Repr

inductive Notice where
  | present
  | missed (count : Nat)
  deriving DecidableEq, Repr

namespace NoticeBoard

def post (b : NoticeBoard) : NoticeBoard :=
  { posted := b.posted + 1 }

/-- Begins to read; what was posted before is not seen. -/
def subscribe (b : NoticeBoard) : NoticeReader :=
  { behind := b.posted }

def isReady (b : NoticeBoard) (r : NoticeReader) : Bool :=
  r.behind < b.posted

def read? (b : NoticeBoard) (r : NoticeReader) : Option (Notice × NoticeReader) :=
  if b.posted ≤ r.behind then none
  else if r.behind + 1 = b.posted then some (.present, { behind := b.posted })
  else some (.missed (b.posted - 1 - r.behind), { behind := b.posted - 1 })

end NoticeBoard

end CommandLog
