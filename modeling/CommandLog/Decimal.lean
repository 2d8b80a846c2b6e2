/-! # Decimal numerals

`Decimal.digits` lists the decimal digits of a number, most significant first, and
`Decimal.ofDigits` reads them back. The functions for bytes and characters spell the digits in
ASCII.
-/

namespace CommandLog.Decimal

/-- The decimal digits of a number, most significant first, with no leading zero except in 0. -/
def digits (n : Nat) : List Nat :=
  if n < 10 then [n] else digits (n / 10) ++ [n % 10]

/-- The number that a digit string denotes. -/
def ofDigits (ds : List Nat) : Nat :=
  ds.foldl (fun n d => 10 * n + d) 0

/-- The digits of a number, filled with zeros on the left to a least width. -/
def padded (width n : Nat) : List Nat :=
  List.replicate (width - (digits n).length) 0 ++ digits n

def byte (d : Nat) : UInt8 :=
  UInt8.ofNat (48 + d)

def ofByte? (b : UInt8) : Option Nat :=
  if 48 ≤ b ∧ b ≤ 57 then some (b.toNat - 48) else none

def char (d : Nat) : Char :=
  Char.ofNat (48 + d)

def ofChar? (c : Char) : Option Nat :=
  if '0' ≤ c ∧ c ≤ '9' then some (c.toNat - 48) else none

def bytes (n : Nat) : List UInt8 :=
  (digits n).map byte

def chars (n : Nat) : List Char :=
  (digits n).map char

/-- The number written by a non-empty string of ASCII digits. -/
def ofBytes? (bs : List UInt8) : Option Nat :=
  if bs = [] then none else (bs.mapM ofByte?).map ofDigits

def ofChars? (cs : List Char) : Option Nat :=
  if cs = [] then none else (cs.mapM ofChar?).map ofDigits

end CommandLog.Decimal
