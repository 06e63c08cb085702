import Mathlib.Tactic.Common

namespace R2

structure Ipv4Addr where
  a : UInt8
  b : UInt8
  c : UInt8
  d : UInt8
deriving DecidableEq, Repr

def Ipv4Addr.octets (ip : Ipv4Addr) : List UInt8 := [ip.a, ip.b, ip.c, ip.d]

def zeroIp : Ipv4Addr := ⟨0, 0, 0, 0⟩

end R2
