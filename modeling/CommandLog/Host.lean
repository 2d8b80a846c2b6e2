import CommandLog.IoError
import CommandLog.SocketAddress.Basic

/-! # Hosts

A host lends its network addresses to those that listen on them. A host on its own, whose loopback
interface is down, has no address and no way to anywhere: it still lets anyone listen on every
version 4 address and on the unspecified version 6 one, but nobody can connect.
-/

namespace CommandLog

namespace Ipv4

def isUnspecified (ip : Ipv4) : Bool :=
  ip == ⟨0, 0, 0, 0⟩

def isLoopback (ip : Ipv4) : Bool :=
  ip.a == 127

def isGroup (ip : Ipv4) : Bool :=
  ip.a &&& 240 == 224 || ip == ⟨255, 255, 255, 255⟩

end Ipv4

namespace Ipv6

def isUnspecified (ip : Ipv6) : Bool :=
  ip.groups.toList.all (· == 0)

def isLoopback (ip : Ipv6) : Bool :=
  ip == .ofList [0, 0, 0, 0, 0, 0, 0, 1]

def isGroup (ip : Ipv6) : Bool :=
  ip.groups[0] &&& 0xff00 == 0xff00

/-- Whether the address has a meaning on one interface only. -/
def isLinkLocal (ip : Ipv6) : Bool :=
  ip.groups[0] &&& 0xffc0 == 0xfe80

end Ipv6

namespace SocketAddress

def isUnspecified : SocketAddress → Bool
  | v4 host _ => host.isUnspecified
  | v6 host _ _ => host.isUnspecified

/-- Whether two who listen would get in each other's way. -/
def clashes (a b : SocketAddress) : Bool :=
  a.portNumber == b.portNumber && (a.isUnspecified || b.isUnspecified || a == b)

end SocketAddress

structure Host where
  /-- Whether the loopback interface is up, so that the host reaches itself. -/
  hasLoopback : Bool
  listening : List SocketAddress := []
  deriving DecidableEq, Repr

namespace Host

/-- A host that reaches nobody, not even itself. -/
def isolated : Host :=
  { hasLoopback := false }

def looped : Host :=
  { hasLoopback := true }

/-- The first endpoint number that is free for all. -/
def firstUnprivileged : Nat := 1024

/-- The endpoint numbers that the host gives to those who ask for no particular one. -/
def ephemeral : List Nat :=
  (List.range 28232).map (· + 32768)

def loopbackScope : UInt32 := 1

def isPrivileged (a : SocketAddress) : Bool :=
  a.portNumber != 0 && a.portNumber.toNat < firstUnprivileged

def ownsIpv4 (h : Host) (ip : Ipv4) : Bool :=
  !h.hasLoopback || ip.isUnspecified || ip.isLoopback || ip.isGroup

/-- Why one may not listen on an address, whoever else listens. -/
def fault? (h : Host) : SocketAddress → Option IoError
  | .v4 ip n =>
    if !h.ownsIpv4 ip then some (.os Errno.addressNotAvailable)
    else if isPrivileged (.v4 ip n) then some (.os Errno.permissionDenied)
    else none
  | .v6 ip scope n =>
    if ip.isGroup then some (.os Errno.invalidArgument)
    else if isPrivileged (.v6 ip scope n) then some (.os Errno.permissionDenied)
    else match ip.mapped? with
      | some ip => if h.ownsIpv4 ip then none else some (.os Errno.addressNotAvailable)
      | none =>
        if ip.isUnspecified || h.hasLoopback && ip.isLoopback then none
        else if ip.isLinkLocal && scope == 0 then some (.os Errno.invalidArgument)
        else if ip.isLinkLocal && scope != loopbackScope then some (.os Errno.noSuchDevice)
        else some (.os Errno.addressNotAvailable)

def isTaken (h : Host) (a : SocketAddress) : Bool :=
  h.listening.any a.clashes

/-- The address to listen on: the one asked for, or one with a free number for the number 0. -/
def assign? (h : Host) (a : SocketAddress) : Option SocketAddress :=
  if a.portNumber = 0 then
    (ephemeral.map fun n => a.withPortNumber (.ofNat n)).find? (!h.isTaken ·)
  else if h.isTaken a then none
  else some a

def listen (h : Host) (a : SocketAddress) : Except IoError (SocketAddress × Host) :=
  match h.fault? a with
  | some e => .error e
  | none =>
    match h.assign? a with
    | some a => .ok (a, { h with listening := a :: h.listening })
    | none => .error (.os Errno.addressInUse)

def close (h : Host) (a : SocketAddress) : Host :=
  { h with listening := h.listening.filter (· ≠ a) }

def connect (h : Host) (a : SocketAddress) : Except IoError Unit :=
  if !h.hasLoopback then .error (.os Errno.networkUnreachable)
  else if h.isTaken a then .ok ()
  else .error (.os Errno.connectionRefused)

end Host

end CommandLog
