import CommandLog.Decimal
import CommandLog.SocketAddress.Basic

/-! # Reading socket addresses

Bytes of a version 4 address have no leading zeros. A version 6 address stands in brackets; its
groups have at most four digits, one `::` stands for at least one zero group, and the last two
groups may be written as a version 4 address. Endpoint numbers and scopes are decimal, with any
number of leading zeros.
-/

namespace CommandLog

namespace SocketAddress

def hexValue? (c : Char) : Option Nat :=
  if '0' ≤ c ∧ c ≤ '9' then some (c.toNat - 48)
  else if 'a' ≤ c ∧ c ≤ 'f' then some (c.toNat - 87)
  else if 'A' ≤ c ∧ c ≤ 'F' then some (c.toNat - 55)
  else none

def numberOf (base : Nat) (ds : List Nat) : Nat :=
  ds.foldl (fun n d => base * n + d) 0

/-- Takes a number below `bound` off the front, in digits of which there are at least one and at
most `widest`. -/
def number? (base bound : Nat) (widest : Option Nat) (value? : Char → Option Nat)
    (cs : List Char) : Option (Nat × List Char) :=
  let digits := cs.takeWhile fun c => (value? c).isSome
  let n := numberOf base (digits.filterMap value?)
  if digits = [] ∨ widest.any (· < digits.length) ∨ bound ≤ n then none
  else some (n, cs.drop digits.length)

def decimal? (bound : Nat) (cs : List Char) : Option (Nat × List Char) :=
  number? 10 bound none Decimal.ofChar? cs

def octet? (cs : List Char) : Option (UInt8 × List Char) :=
  match number? 10 256 (some 3) Decimal.ofChar? cs with
  | some (n, rest) =>
    if cs.head? = some '0' ∧ rest.length + 1 < cs.length then none
    else some (UInt8.ofNat n, rest)
  | none => none

def char? (c : Char) : List Char → Option (List Char)
  | [] => none
  | x :: rest => if x = c then some rest else none

def ipv4? (cs : List Char) : Option (Ipv4 × List Char) := do
  let (a, cs) ← octet? cs
  let (b, cs) ← octet? (← char? '.' cs)
  let (c, cs) ← octet? (← char? '.' cs)
  let (d, cs) ← octet? (← char? '.' cs)
  some (⟨a, b, c, d⟩, cs)

def group? (cs : List Char) : Option (UInt16 × List Char) :=
  (number? 16 65536 (some 4) hexValue? cs).map fun (n, rest) => (UInt16.ofNat n, rest)

/-- Takes groups parted by colons off the front, at most `room` of them; the flag tells whether the
last two were written as a version 4 address. -/
def groups : Nat → Bool → List Char → List UInt16 × Bool × List Char
  | 0, _, cs => ([], false, cs)
  | room + 1, isFirst, cs =>
    let here := if isFirst then some cs else char? ':' cs
    match if 0 < room then here.bind ipv4? else none with
    | some (ip, rest) => (Ipv6.pairOfIpv4 ip, true, rest)
    | none =>
      match here.bind group? with
      | some (g, rest) =>
        let (gs, dotted, rest) := groups room false rest
        (g :: gs, dotted, rest)
      | none => ([], false, cs)

def ipv6? (cs : List Char) : Option (Ipv6 × List Char) :=
  let (front, dotted, rest) := groups 8 true cs
  if front.length = 8 then some (.ofList front, rest)
  else if dotted then none
  else
    match rest with
    | ':' :: ':' :: rest =>
      let (back, _, rest) := groups (7 - front.length) true rest
      let zeros := List.replicate (8 - front.length - back.length) 0
      some (.ofList (front ++ zeros ++ back), rest)
    | _ => none

def portNumber? (cs : List Char) : Option (UInt16 × List Char) := do
  let (n, rest) ← decimal? 65536 (← char? ':' cs)
  some (UInt16.ofNat n, rest)

/-- A percent sign and a scope; without them the scope is 0. -/
def scope (cs : List Char) : UInt32 × List Char :=
  match (char? '%' cs).bind (decimal? UInt32.size) with
  | some (n, rest) => (UInt32.ofNat n, rest)
  | none => (0, cs)

def v4? (cs : List Char) : Option (SocketAddress × List Char) := do
  let (host, cs) ← ipv4? cs
  let (n, cs) ← portNumber? cs
  some (.v4 host n, cs)

def v6? (cs : List Char) : Option (SocketAddress × List Char) := do
  let (host, cs) ← ipv6? (← char? '[' cs)
  let (scope, cs) := scope cs
  let (n, cs) ← portNumber? (← char? ']' cs)
  some (.v6 host scope n, cs)

def parse? (cs : List Char) : Option SocketAddress :=
  match v4? cs <|> v6? cs with
  | some (a, []) => some a
  | _ => none

def ofText? (s : String) : Option SocketAddress :=
  parse? s.toList

end SocketAddress

end CommandLog
