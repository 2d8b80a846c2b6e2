/-! # The proleptic Gregorian calendar

Days are numbered from 1 January 1970, forwards and backwards without end. `Date.ofDayNumber` finds
the date of a day and `Date.dayNumber` numbers it again.
-/

namespace CommandLog

/-- A date; months and days of the month count from 1. -/
structure Date where
  year : Int
  month : Nat
  day : Nat
  deriving DecidableEq, Repr

namespace Calendar

/-- Every fourth year is a leap year, except the centuries that 400 does not divide. -/
def isLeap (year : Int) : Bool :=
  year % 4 = 0 && (year % 100 ≠ 0 || year % 400 = 0)

def monthLengths (leap : Bool) : List Nat :=
  [31, if leap then 29 else 28, 31, 30, 31, 30, 31, 31, 30, 31, 30, 31]

/-- The days from 1 January of the year 1 to 1 January of a year. -/
def daysBeforeYear (year : Int) : Int :=
  let y := year - 1
  365 * y + y / 4 - y / 100 + y / 400

def daysBeforeMonth (leap : Bool) (month : Nat) : Nat :=
  ((monthLengths leap).take (month - 1)).foldr (· + ·) 0

/-- The day number of 1 January of the year 1, negated. -/
def epochShift : Int := 719162

/-- Walks over months of the given lengths to the one that holds a day, counting months from
`month` and days from 0. -/
def locate : List Nat → Nat → Nat → Nat × Nat
  | [], month, day => (month, day)
  | l :: ls, month, day => if day < l then (month, day) else locate ls (month + 1) (day - l)

/-- The year of a day counted from 1 January of the year 1, and the day of that year from 0. -/
def yearOf (n : Int) : Int × Nat :=
  let cycle := n / 146097
  let inCycle := (n % 146097).toNat
  let century := min (inCycle / 36524) 3
  let inCentury := inCycle - century * 36524
  let quad := inCentury / 1461
  let inQuad := inCentury % 1461
  let year := min (inQuad / 365) 3
  (400 * cycle + (100 * century + 4 * quad + year + 1 : Nat), inQuad - year * 365)

def weekdayNames : List String := ["Sun", "Mon", "Tue", "Wed", "Thu", "Fri", "Sat"]

def monthNames : List String :=
  ["Jan", "Feb", "Mar", "Apr", "May", "Jun", "Jul", "Aug", "Sep", "Oct", "Nov", "Dec"]

/-- The day of the week of a day number, 0 being Sunday; day 0 is a Thursday. -/
def weekday (dayNumber : Int) : Nat :=
  ((dayNumber + 4) % 7).toNat

end Calendar

namespace Date

open Calendar

def ofDayNumber (n : Int) : Date :=
  let (year, dayOfYear) := yearOf (n + epochShift)
  let (month, day) := locate (monthLengths (isLeap year)) 1 dayOfYear
  ⟨year, month, day + 1⟩

def dayNumber (d : Date) : Int :=
  daysBeforeYear d.year + (daysBeforeMonth (isLeap d.year) d.month + d.day - 1 : Nat) - epochShift

end Date

end CommandLog
