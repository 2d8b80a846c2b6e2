import CommandLog.Decimal

/-! # Spans of time

A span is a whole number of nanoseconds. Settings keep spans in whole milliseconds, counted in a
64-bit word; messages show them in the largest unit that leaves a whole part.
-/

namespace CommandLog

/-- A length of time in nanoseconds. -/
structure Span where
  nanoseconds : Nat
  deriving DecidableEq, Repr

namespace Span

def ofNanoseconds (n : Nat) : Span := ⟨n⟩

def ofMilliseconds (n : Nat) : Span := ⟨n * 1000000⟩

def ofSeconds (n : Nat) : Span := ⟨n * 1000000000⟩

/-- A number of seconds and a number of nanoseconds on top of them. -/
def ofParts (seconds nanoseconds : Nat) : Span :=
  ⟨seconds * 1000000000 + nanoseconds⟩

def add (s t : Span) : Span :=
  ⟨s.nanoseconds + t.nanoseconds⟩

/-- The whole milliseconds of a span, kept in a 64-bit word. -/
def toMilliseconds (s : Span) : UInt64 :=
  UInt64.ofNat (s.nanoseconds / 1000000)

/-- The least number of whole milliseconds that is no shorter than the span. -/
def ceilMilliseconds (s : Span) : Nat :=
  (s.nanoseconds + 999999) / 1000000

/-- The digits after the decimal point of `rest / 10 ^ width`, without trailing zeros. -/
def fraction (width rest : Nat) : List Nat :=
  ((Decimal.padded width rest).reverse.dropWhile (· = 0)).reverse

/-- A quotient by `10 ^ width`, written exactly, followed by its unit. -/
def written (count width : Nat) (unit : String) : String :=
  let whole := Decimal.chars (count / Nat.pow 10 width)
  match fraction width (count % Nat.pow 10 width) with
  | [] => String.ofList whole ++ unit
  | ds => String.ofList (whole ++ '.' :: ds.map Decimal.char) ++ unit

/-- The span in seconds, milliseconds, microseconds or nanoseconds: the largest unit not above it.
-/
def text (s : Span) : String :=
  if 1000000000 ≤ s.nanoseconds then written s.nanoseconds 9 "s"
  else if 1000000 ≤ s.nanoseconds then written s.nanoseconds 6 "ms"
  else if 1000 ≤ s.nanoseconds then written s.nanoseconds 3 "µs"
  else written s.nanoseconds 0 "ns"

end Span

end CommandLog
