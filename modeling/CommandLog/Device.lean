import CommandLog.Directive
import CommandLog.FairLock
import CommandLog.Store.Place

/-! # Devices

A device offers the log like a file. Bytes written to it are collected until a newline completes a
record; what is pending belongs to the device and is not readable. Every open handle has a cursor of
its own, which reads and writes advance and seeks move.
-/

namespace CommandLog

/-- The bytes written since the last newline, with the lock that a write holds. -/
structure Device where
  pending : Bytes := []
  lock : FairLock := {}
  deriving DecidableEq, Repr

structure Handle where
  device : Nat
  cursor : Nat := 0
  deriving DecidableEq, Repr

/-- Where a cursor is to go: relative to the start, to itself or to the end of the content. -/
inductive SeekTarget where
  | start (offset : Nat)
  | current (delta : Int)
  | fromEnd (delta : Int)
  deriving DecidableEq, Repr

namespace Device

/-- The records that written bytes complete, and what is pending after them. -/
def assemble (pending data : Bytes) : List Record × Bytes :=
  match data.splitLines with
  | ([], rest) => ([], pending ++ rest)
  | (l :: ls, rest) => (⟨pending ++ l⟩ :: ls.map Record.mk, rest)

end Device

namespace SeekTarget

/-- The position asked for, which may lie anywhere. -/
def position (target : SeekTarget) (cursor size : Nat) : Int :=
  match target with
  | start offset => offset
  | current delta => cursor + delta
  | fromEnd delta => size + delta

end SeekTarget

namespace Store

def appendAll (s : Store) (rs : List Record) : Store :=
  rs.foldl (fun s r => (s.append r).1) s

def locate (s : Store) (d : Directive) : Except LogError Nat :=
  s.resolve d.index.toNat d.offset.toNat

/-- The position that a cursor takes, which has to lie within the content or at its end. -/
def seek (s : Store) (cursor : Nat) (target : SeekTarget) : Except LogError Nat :=
  let position := target.position cursor s.size
  if 0 ≤ position ∧ position ≤ s.size then .ok position.toNat
  else .error (.invalidSeek (.outside position s.size))

end Store

end CommandLog
