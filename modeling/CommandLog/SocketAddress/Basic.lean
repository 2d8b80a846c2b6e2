/-! # Socket addresses

A host on the network together with the number of one of its TCP endpoints.
-/

namespace CommandLog

structure Ipv4 where
  a : UInt8
  b : UInt8
  c : UInt8
  d : UInt8
  deriving DecidableEq, Repr

structure Ipv6 where
  groups : Vector UInt16 8
  deriving DecidableEq, Repr

/-- A host and an endpoint number; a scope of 0 stands for none. -/
inductive SocketAddress where
  | v4 (host : Ipv4) (portNumber : UInt16)
  | v6 (host : Ipv6) (scope : UInt32) (portNumber : UInt16)
  deriving DecidableEq, Repr

namespace Ipv6

/-- Eight groups from a list, filled up with zeros. -/
def ofList (gs : List UInt16) : Ipv6 :=
  ⟨Vector.ofFn fun i => gs.getD i 0⟩

def pairOfIpv4 (ip : Ipv4) : List UInt16 :=
  [ip.a.toUInt16 * 256 + ip.b.toUInt16, ip.c.toUInt16 * 256 + ip.d.toUInt16]

/-- The four bytes in an address of the form `::ffff:a.b.c.d`. -/
def mapped? (ip : Ipv6) : Option Ipv4 :=
  match ip.groups.toList with
  | [0, 0, 0, 0, 0, 0xffff, x, y] =>
    some ⟨(x / 256).toUInt8, (x % 256).toUInt8, (y / 256).toUInt8, (y % 256).toUInt8⟩
  | _ => none

end Ipv6

namespace SocketAddress

def portNumber : SocketAddress → UInt16
  | v4 _ n => n
  | v6 _ _ n => n

def withPortNumber (n : UInt16) : SocketAddress → SocketAddress
  | v4 host _ => v4 host n
  | v6 host scope _ => v6 host scope n

end SocketAddress

end CommandLog
