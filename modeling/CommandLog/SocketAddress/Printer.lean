import CommandLog.Decimal
import CommandLog.SocketAddress.Basic

/-! # Writing socket addresses

The one written form of an address: decimal bytes without leading zeros, hexadecimal groups in lower
case without leading zeros, and the longest run of at least two zero groups, the first of equals,
shown as `::`.
-/

namespace CommandLog

namespace Ipv4

def render (ip : Ipv4) : List Char :=
  Decimal.chars ip.a.toNat ++ '.' :: Decimal.chars ip.b.toNat
    ++ '.' :: Decimal.chars ip.c.toNat ++ '.' :: Decimal.chars ip.d.toNat

end Ipv4

namespace Ipv6

def hexDigit (d : Nat) : Char :=
  if d < 10 then Char.ofNat (48 + d) else Char.ofNat (87 + d)

def renderGroup (g : UInt16) : List Char :=
  let n := g.toNat
  let ds := [n / 4096, n / 256 % 16, n / 16 % 16].dropWhile (· = 0) ++ [n % 16]
  ds.map hexDigit

def renderGroups (gs : List UInt16) : List Char :=
  [':'].intercalate (gs.map renderGroup)

/-- Start and length of the longest run of zero groups, the first of equals. The run that ends at
the current place and the longest one so far are carried along. -/
def longestZeros : List UInt16 → Nat → Nat × Nat → Nat × Nat → Nat × Nat
  | [], _, _, best => best
  | g :: gs, i, run, best =>
    if g = 0 then
      let run := if run.2 = 0 then (i, 1) else (run.1, run.2 + 1)
      longestZeros gs (i + 1) run (if best.2 < run.2 then run else best)
    else longestZeros gs (i + 1) (0, 0) best

def render (ip : Ipv6) : List Char :=
  match ip.mapped? with
  | some ip => "::ffff:".toList ++ ip.render
  | none =>
    let gs := ip.groups.toList
    let (start, length) := longestZeros gs 0 (0, 0) (0, 0)
    if 1 < length then
      renderGroups (gs.take start) ++ ':' :: ':' :: renderGroups (gs.drop (start + length))
    else renderGroups gs

end Ipv6

namespace SocketAddress

/-- The host without its endpoint number, scope and brackets. -/
def renderHost : SocketAddress → List Char
  | v4 host _ => host.render
  | v6 host _ _ => host.render

/-- A version 6 host stands in brackets, together with its scope. -/
def render : SocketAddress → List Char
  | v4 host n => host.render ++ ':' :: Decimal.chars n.toNat
  | v6 host scope n =>
    let scope := if scope = 0 then [] else '%' :: Decimal.chars scope.toNat
    '[' :: host.render ++ scope ++ ']' :: ':' :: Decimal.chars n.toNat

def text (a : SocketAddress) : String :=
  String.ofList a.render

end SocketAddress

end CommandLog
