import CommandLog.Calendar
import CommandLog.Decimal
import CommandLog.Record

/-! # Time records

The record `timestamp: Tue, 05 Mar 2024 07:08:09 +0200` shows an instant as local time. The year has
a sign outside 0 to 9999, and the offset is rounded to the nearest minute, a half away from zero. In
a leap second the nanoseconds pass one full second, which is shown as second 60.
-/

namespace CommandLog

/-- An instant, with the offset in seconds east of Greenwich at which it is shown. -/
structure ZonedTime where
  /-- Seconds since the start of 1970. -/
  seconds : Int
  nanoseconds : Nat
  offset : Int
  deriving DecidableEq, Repr

inductive TimeFault where
  | timeOutOfRange
  | offsetOutOfRange
  deriving DecidableEq, Repr

namespace ZonedTime

/-- The first second of the year -262143. -/
def firstSecond : Int := -8334601228800

/-- The last second of the year 262142. -/
def lastSecond : Int := 8210266876799

/-- Whether the instant exists: a leap second only follows second 59 of a minute. -/
def InRange (seconds : Int) (nanoseconds : Nat) : Prop :=
  firstSecond ≤ seconds ∧ seconds ≤ lastSecond ∧
    (nanoseconds < 1000000000 ∨ nanoseconds < 2000000000 ∧ seconds % 60 = 59)

instance (seconds : Int) (nanoseconds : Nat) : Decidable (InRange seconds nanoseconds) := by
  unfold InRange; infer_instance

/-- An existing instant at an offset of less than a day. -/
def make (seconds : Int) (nanoseconds : Nat) (offset : Int) : Except TimeFault ZonedTime :=
  if ¬ InRange seconds nanoseconds then .error .timeOutOfRange
  else if 86400 ≤ offset.natAbs then .error .offsetOutOfRange
  else .ok ⟨seconds, nanoseconds, offset⟩

/-- The local time as if it were that of Greenwich. -/
def localSeconds (t : ZonedTime) : Int :=
  t.seconds + t.offset

def dayNumber (t : ZonedTime) : Int :=
  t.localSeconds / 86400

def date (t : ZonedTime) : Date :=
  .ofDayNumber t.dayNumber

def secondOfDay (t : ZonedTime) : Nat :=
  (t.localSeconds % 86400).toNat

def hour (t : ZonedTime) : Nat :=
  t.secondOfDay / 3600

def minute (t : ZonedTime) : Nat :=
  t.secondOfDay / 60 % 60

/-- The second of the minute, one more in a leap second. -/
def second (t : ZonedTime) : Nat :=
  t.secondOfDay % 60 + t.nanoseconds / 1000000000

end ZonedTime

namespace Timestamp

def header : Bytes :=
  Bytes.ofAscii "timestamp: "

def digits (width n : Nat) : Bytes :=
  (Decimal.padded width n).map Decimal.byte

def sign (negative : Bool) : UInt8 :=
  if negative then 45 else 43

/-- The year in at least four digits, with a sign outside 0 to 9999. -/
def year (y : Int) : Bytes :=
  if 0 ≤ y ∧ y ≤ 9999 then digits 4 y.toNat
  else sign (y < 0) :: digits 4 y.natAbs

/-- The minutes nearest to an offset in seconds, a half going away from zero. -/
def offsetMinutes (offset : Int) : Nat :=
  (offset.natAbs + 30) / 60

/-- The offset as a sign, two digits for the hours and two for the minutes. -/
def zone (offset : Int) : Bytes :=
  let minutes := offsetMinutes offset
  sign (offset < 0) :: digits 2 (minutes / 60) ++ digits 2 (minutes % 60)

def name (names : List String) (i : Nat) : Bytes :=
  Bytes.ofAscii (names.getD i "")

def body (t : ZonedTime) : Bytes :=
  let space : UInt8 := 32
  let colon : UInt8 := 58
  name Calendar.weekdayNames (Calendar.weekday t.dayNumber) ++ Bytes.ofAscii ", "
    ++ digits 2 t.date.day ++ space :: name Calendar.monthNames (t.date.month - 1)
    ++ space :: year t.date.year
    ++ space :: digits 2 t.hour ++ colon :: digits 2 t.minute ++ colon :: digits 2 t.second
    ++ space :: zone t.offset

def record (t : ZonedTime) : Record :=
  ⟨header ++ body t ++ [newline]⟩

end Timestamp

end CommandLog
