import CommandLog.Toml.Quoted

/-! # Numbers, dates and times

Integers are decimal with an optional sign, or hexadecimal, octal or binary, and fit in 64 bits with
a sign. Numbers with a fraction or an exponent must not round to infinity from below. Underscores
may stand between digits.
-/

namespace CommandLog.Toml.Number

def fits (n : Int) : Bool :=
  -9223372036854775808 ≤ n && n ≤ 9223372036854775807

/-- Digits of a class with single underscores between them, in at most `fuel` characters. -/
def digitsWithin (p : Char → Bool) : Nat → List Char → List Char × List Char
  | 0, cs => ([], cs)
  | fuel + 1, cs =>
    match cs with
    | '_' :: c :: rest =>
      if p c then let (ds, rest) := digitsWithin p fuel rest; (c :: ds, rest) else ([], cs)
    | c :: rest =>
      if p c then let (ds, rest) := digitsWithin p fuel rest; (c :: ds, rest) else ([], cs)
    | [] => ([], [])

def digits (p : Char → Bool) : Scanner (List Char)
  | c :: rest =>
    if p c then let (ds, rest) := digitsWithin p rest.length rest; some (c :: ds, rest) else none
  | [] => none

def valueOf (base : Nat) (ds : List Char) : Nat :=
  (ds.filterMap Quoted.hexValue?).foldl (fun n d => base * n + d) 0

def isDigitOf (base : Nat) (c : Char) : Bool :=
  (Quoted.hexValue? c).any (· < base)

/-- A sign, if there is one, and whether it is the minus sign. -/
def sign : List Char → Bool × List Char
  | '-' :: rest => (true, rest)
  | '+' :: rest => (false, rest)
  | cs => (false, cs)

/-- Decimal digits without a superfluous leading zero. -/
def plain : Scanner (List Char)
  | '0' :: rest => some (['0'], rest)
  | cs => digits (isDigitOf 10) cs

def based (base : Nat) (cs : List Char) : Option (Int × List Char) := do
  let (ds, rest) ← digits (isDigitOf base) cs
  let n : Int := valueOf base ds
  if fits n then some (n, rest) else none

def integer : Scanner Int
  | '0' :: 'x' :: rest => based 16 rest
  | '0' :: 'o' :: rest => based 8 rest
  | '0' :: 'b' :: rest => based 2 rest
  | cs => do
    let (negative, cs) := sign cs
    let (ds, rest) ← plain cs
    let n : Int := valueOf 10 ds
    let n := if negative then -n else n
    if fits n then some (n, rest) else none

/-- The least number that rounds to infinity in double precision. -/
def infinite : Nat := Nat.pow 2 1024 - Nat.pow 2 970

/-- Whether `digits * 10 ^ exponent` rounds to infinity. Numbers far from the bound are told apart
by their number of digits. -/
def overflows (ds : List Char) (exponent : Int) : Bool :=
  let n := valueOf 10 ds
  let places := (Nat.toDigits 10 n).length + exponent
  if n = 0 ∨ places < 300 then false
  else if 320 < places then true
  else if 0 ≤ exponent then infinite ≤ n * Nat.pow 10 exponent.toNat
  else infinite * Nat.pow 10 (-exponent).toNat ≤ n

def exponent : Scanner Int
  | c :: rest =>
    if c = 'e' || c = 'E' then do
      let (negative, rest) := sign rest
      let (ds, rest) ← digits (isDigitOf 10) rest
      let n : Int := valueOf 10 ds
      some (if negative then -n else n, rest)
    else none
  | [] => none

def fraction : Scanner (List Char)
  | '.' :: rest => digits (isDigitOf 10) rest
  | _ => none

def special (cs : List Char) : Option (List Char) :=
  Scan.text ['i', 'n', 'f'] cs <|> Scan.text ['n', 'a', 'n'] cs

/-- What was taken off the front of a text, of which the rest is given. -/
def taken (cs rest : List Char) : String :=
  String.ofList (cs.take (cs.length - rest.length))

def float : Scanner String := fun cs =>
  let (negative, unsigned) := sign cs
  match special unsigned with
  | some rest => some (taken cs rest, rest)
  | none => do
    let (whole, rest) ← plain unsigned
    let (part, power, rest) ← match fraction rest with
      | some (part, rest) =>
        match exponent rest with
        | some (e, rest) => some (part, e, rest)
        | none => some (part, 0, rest)
      | none => do
        let (e, rest) ← exponent rest
        some ([], e, rest)
    if !negative && overflows (whole ++ part) (power - part.length) then none
    else some (taken cs rest, rest)

def fixed (width least greatest : Nat) : Scanner Nat := fun cs =>
  let ds := cs.take width
  let n := valueOf 10 ds
  if ds.length = width ∧ ds.all (isDigitOf 10) ∧ least ≤ n ∧ n ≤ greatest then
    some (n, cs.drop width)
  else none

def daysOf (year month : Nat) : Nat :=
  if month = 2 then
    if year % 4 = 0 ∧ (year % 100 ≠ 0 ∨ year % 400 = 0) then 29 else 28
  else if month = 4 ∨ month = 6 ∨ month = 9 ∨ month = 11 then 30
  else 31

def date (cs : List Char) : Option (List Char) := do
  let (year, cs) ← fixed 4 0 9999 cs
  let ((), cs) ← Scan.char '-' cs
  let (month, cs) ← fixed 2 1 12 cs
  let ((), cs) ← Scan.char '-' cs
  let (_, cs) ← fixed 2 1 (daysOf year month) cs
  some cs

/-- A time of day; second 60 is a leap second. -/
def time (cs : List Char) : Option (List Char) := do
  let (_, cs) ← fixed 2 0 23 cs
  let ((), cs) ← Scan.char ':' cs
  let (_, cs) ← fixed 2 0 59 cs
  let ((), cs) ← Scan.char ':' cs
  let (_, cs) ← fixed 2 0 60 cs
  match cs with
  | '.' :: rest =>
    let (ds, after) := rest.span (isDigitOf 10)
    some (if ds = [] then cs else after)
  | _ => some cs

def offset (cs : List Char) : Option (List Char) :=
  match cs with
  | 'Z' :: rest | 'z' :: rest => some rest
  | '+' :: rest | '-' :: rest => do
    let (_, rest) ← fixed 2 0 23 rest
    let ((), rest) ← Scan.char ':' rest
    let (_, rest) ← fixed 2 0 59 rest
    some rest
  | _ => none

/-- A time after a date, which a `T` or a space parts from it, with an offset if there is one. -/
def timeOfDate : List Char → Option (List Char)
  | c :: rest =>
    if c = 'T' || c = 't' || c = ' ' then (time rest).map fun rest => (offset rest).getD rest
    else none
  | [] => none

def dateTime : Scanner String := fun cs =>
  match date cs with
  | some rest =>
    let rest := (timeOfDate rest).getD rest
    some (taken cs rest, rest)
  | none => (time cs).map fun rest => (taken cs rest, rest)

end CommandLog.Toml.Number
