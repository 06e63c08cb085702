import R2.Fwd.Types
import R2.Packet.Particle

namespace R2

def ethTypeArp : Nat := 0x0806
def ethTypeIpv4 : Nat := 0x0800
def arpHwtypeEth : Nat := 0x0001
def arpOpcodeReq : Nat := 0x0001
def arpOpcodeReply : Nat := 0x0002
def ethAlen : Nat := 6
def etherHdrLen : Nat := 14
def bcastMac : List UInt8 := [0xff, 0xff, 0xff, 0xff, 0xff, 0xff]
def zeroMac : List UInt8 := [0, 0, 0, 0, 0, 0]
def iphdrMinLen : Nat := 20
def iphdrDaddrOff : Nat := 16

inductive EthOffsets
  | ethDaddrOff
  | ethSaddrOff
  | ethTypeOff
  | ethHwtypeOff
  | ethProtoOff
  | ethHwSzOff
  | ethProtoSzOff
  | ethOpcodeOff
  | ethSenderMacOff
  | ethSenderIpOff
  | ethTargetMacOff
  | ethTargetIpOff
deriving DecidableEq, Repr

/-- `as usize` -/
def EthOffsets.off : EthOffsets → Nat
  | ethDaddrOff => 0
  | ethSaddrOff => 6
  | ethTypeOff => 12
  | ethHwtypeOff => 14
  | ethProtoOff => 16
  | ethHwSzOff => 18
  | ethProtoSzOff => 19
  | ethOpcodeOff => 20
  | ethSenderMacOff => 22
  | ethSenderIpOff => 28
  | ethTargetMacOff => 32
  | ethTargetIpOff => 38

structure EthMacRaw where
  bytes : List UInt8
deriving DecidableEq, Repr

structure EthMacAddMsg where
  ifindex : Nat
  ip : Ipv4Addr
  mac : EthMacRaw
deriving DecidableEq, Repr

structure Interface where
  ifname : String
  ifindex : Nat
  bandwidth : Nat
  mtu : Nat
  ipv4Addr : Ipv4Addr
  maskLen : Nat
  l2Addr : List UInt8
  headroom : Nat
deriving DecidableEq, Repr

/-- `u16::to_be_bytes` -/
def toBeBytes (n : Nat) : List UInt8 := [UInt8.ofNat (n / 256), UInt8.ofNat n]

/-- `u16::from_be_bytes` -/
def fromBeBytes (hi lo : UInt8) : Nat := hi.toNat * 256 + lo.toNat

theorem fromBeBytes_toBeBytes {n : Nat} (fits : n < 2 ^ 16) :
    fromBeBytes (UInt8.ofNat (n / 256)) (UInt8.ofNat n) = n := by
  simp only [fromBeBytes, UInt8.toNat_ofNat']
  omega

/-- `raw[i]` -/
def index (raw : List UInt8) (i : Nat) : Outcome UInt8 :=
  match raw[i]? with
  | none => .error .bounds
  | some b => .ok b

def readBe16 (raw : List UInt8) (off : Nat) : Outcome Nat := do
  let hi ← index raw off
  let lo ← index raw (off + 1)
  .ok (fromBeBytes hi lo)

/-- `Ipv4Addr::new(raw[off], raw[off + 1], raw[off + 2], raw[off + 3])` -/
def readIp (raw : List UInt8) (off : Nat) : Outcome Ipv4Addr := do
  let a ← index raw off
  let b ← index raw (off + 1)
  let c ← index raw (off + 2)
  let d ← index raw (off + 3)
  .ok ⟨a, b, c, d⟩

section Reading

variable {raw bytes : List UInt8} {off len : Nat}

theorem slice_of_window (read : window raw off (off + len) = bytes) (fits : off + len ≤ raw.length) :
    slice raw off (off + len) = .ok bytes := by
  rw [slice, if_pos ⟨Nat.le_add_right _ _, fits⟩, read]

theorem index_of_window {b : UInt8} {i : Nat} (read : window raw off (off + len) = bytes)
    (at_i : bytes[i]? = some b) :
    index raw (off + i) = .ok b := by
  have same := at_i
  rw [← read, getElem?_window] at same
  split at same
  · rw [index, same]
  · cases same

theorem readBe16_of_window {n : Nat} (read : window raw off (off + 2) = toBeBytes n) (fits : n < 2 ^ 16) :
    readBe16 raw off = .ok n := by
  have hi : index raw (off + 0) = .ok (UInt8.ofNat (n / 256)) := index_of_window read rfl
  have lo : index raw (off + 1) = .ok (UInt8.ofNat n) := index_of_window read rfl
  rw [readBe16, ← Nat.add_zero off, hi, Except.ok_bind, Nat.add_zero, lo, Except.ok_bind, fromBeBytes_toBeBytes fits]

theorem readIp_of_window {ip : Ipv4Addr} (read : window raw off (off + 4) = ip.octets) :
    readIp raw off = .ok ip := by
  have a : index raw (off + 0) = .ok ip.a := index_of_window read rfl
  have b : index raw (off + 1) = .ok ip.b := index_of_window read rfl
  have c : index raw (off + 2) = .ok ip.c := index_of_window read rfl
  have d : index raw (off + 3) = .ok ip.d := index_of_window read rfl
  rw [Nat.add_zero] at a
  rw [readIp, a, Except.ok_bind, b, Except.ok_bind, c, Except.ok_bind, d, Except.ok_bind]

end Reading

end R2
