import R2.Packet.Packet
import R2.Fwd.Msg
import R2.Base.Layout

namespace R2

/-- The sending half of a channel; `send` fails once the receiver is gone. -/
structure Sender where
  connected : Bool
  sent : List R2Msg

def Sender.send (sender : Sender) (msg : R2Msg) : Bool × Sender :=
  if sender.connected then (true, { sender with sent := sender.sent ++ [msg] }) else (false, sender)

abbrev MacTable := Ipv4Addr → Option EthMacRaw

/-- `entry(ip).or_insert(mac)` -/
def MacTable.orInsert (table : MacTable) (ip : Ipv4Addr) (mac : EthMacRaw) : MacTable :=
  match table ip with
  | some _ => table
  | none => fun key => if key = ip then some mac else table key

theorem MacTable.orInsert_vacant {table : MacTable} {ip : Ipv4Addr} {mac : EthMacRaw} (vacant : table ip = none) :
    table.orInsert ip mac ip = some mac := by
  simp only [orInsert, vacant, if_true]

theorem MacTable.orInsert_apply (table : MacTable) (ip : Ipv4Addr) (mac : EthMacRaw) (key : Ipv4Addr) :
    table.orInsert ip mac key = if key = ip then some ((table ip).getD mac) else table key := by
  cases known : table ip with
  | none => simp only [orInsert, known, Option.getD_none]
  | some raw =>
    simp only [orInsert, known, Option.getD_some]
    split
    · rename_i here
      rw [here, known]
    · rfl

/-- Runs the writes of an ARP frame one after the other. -/
def writeFields (raw : List UInt8) : List (Field UInt8) → Outcome (List UInt8)
  | [] => .ok raw
  | f :: rest => do
    let raw ← copyFromSlice raw f.off (f.off + f.len) f.bytes
    writeFields raw rest

/-- The part of an ARP frame that requests and replies fill in alike, up to the
target address. -/
def arpFields (opcode : Nat) (daddr saddr : List UInt8) (senderIp : Ipv4Addr) (targetMac : List UInt8) :
    List (Field UInt8) :=
  [⟨EthOffsets.ethDaddrOff.off, ethAlen, daddr⟩,
    ⟨EthOffsets.ethSaddrOff.off, ethAlen, saddr⟩,
    ⟨EthOffsets.ethTypeOff.off, 2, toBeBytes ethTypeArp⟩,
    ⟨EthOffsets.ethHwtypeOff.off, 2, toBeBytes arpHwtypeEth⟩,
    ⟨EthOffsets.ethProtoOff.off, 2, toBeBytes ethTypeIpv4⟩,
    ⟨EthOffsets.ethHwSzOff.off, 1, [6]⟩,
    ⟨EthOffsets.ethProtoSzOff.off, 1, [4]⟩,
    ⟨EthOffsets.ethOpcodeOff.off, 2, toBeBytes opcode⟩,
    ⟨EthOffsets.ethSenderMacOff.off, ethAlen, saddr⟩,
    ⟨EthOffsets.ethSenderIpOff.off, 4, senderIp.octets⟩,
    ⟨EthOffsets.ethTargetMacOff.off, ethAlen, targetMac⟩]

def targetField (ip : List UInt8) : Field UInt8 := ⟨EthOffsets.ethTargetIpOff.off, 4, ip⟩

def arpBytes : Nat := 2 * ethAlen + 2 + 2 + 2 + 1 + 1 + 2 + ethAlen + 4 + ethAlen + 4

/-- The body of `do_arp_request` and `do_arp_reply`: `target` reads the address
to ask for or to answer. -/
def makeArp {σ : Type} [PacketPool σ] (intf : Interface) (pool : σ) (opcode : Nat) (daddr targetMac : List UInt8)
    (target : Outcome (List UInt8)) : Outcome (Option Packet × σ) :=
  match PacketPool.pkt pool 0 with
  | (none, pool) => .ok (none, pool)
  | (some pkt, pool) => do
    let pkt ← pkt.headMut fun raw => do
      let saddr ← slice intf.l2Addr 0 ethAlen
      let raw ← writeFields raw (arpFields opcode daddr saddr intf.ipv4Addr targetMac)
      let ip ← target
      writeFields raw [targetField ip]
    let (_, pkt) ← pkt.moveTail arpBytes
    .ok (some { pkt with outIfindex := intf.ifindex }, pool)

end R2
