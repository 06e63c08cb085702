import R2.Eth.Node

namespace R2

structure EthDecap.Cnt where
  unknownEthtype : Nat
  unknownArp : Nat
  notMyMac : Nat
  badMac : Nat
  macSendFail : Nat
deriving DecidableEq, Repr

structure EthDecap where
  intf : Interface
  mac : MacTable
  sender : Sender
  cnt : EthDecap.Cnt

namespace EthDecap

inductive Next
  | drop
  | l3Ipv4Parse
  | tx
deriving DecidableEq, Repr

variable {σ : Type} [PacketPool σ]

def unknownArp (node : EthDecap) : EthDecap :=
  { node with cnt := { node.cnt with unknownArp := node.cnt.unknownArp + 1 } }

def doArpReply (node : EthDecap) (pool : σ) (srcIp : Ipv4Addr) (srcMac : List UInt8) :
    Outcome (Option Packet × σ) :=
  makeArp node.intf pool arpOpcodeReply srcMac srcMac (.ok srcIp.octets)

def macLearn (node : EthDecap) (ip : Ipv4Addr) (mac : List UInt8) : EthDecap :=
  match node.mac ip with
  | some _ => node
  | none =>
    let raw : EthMacRaw := ⟨mac⟩
    let node := { node with mac := node.mac.orInsert ip raw }
    let (sent, sender) := node.sender.send (.ethMacAdd ⟨node.intf.ifindex, ip, raw⟩)
    let node := { node with sender := sender }
    if sent then
      node
    else
      { node with cnt := { node.cnt with macSendFail := node.cnt.macSendFail + 1 } }

def processArpReq (node : EthDecap) (pool : σ) (mac : List UInt8) : Outcome (EthDecap × Option Packet × σ) := do
  let off := EthOffsets.ethTargetIpOff.off
  let dstIp ← slice mac off (off + 4)
  if node.intf.ipv4Addr.octets ≠ dstIp then
    .ok (node.unknownArp, none, pool)
  else do
    let srcIp ← readIp mac EthOffsets.ethSenderIpOff.off
    let off := EthOffsets.ethSenderMacOff.off
    let srcMac ← slice mac off (off + ethAlen)
    let node := node.macLearn srcIp srcMac
    let (arp, pool) ← node.doArpReply pool srcIp srcMac
    .ok (node, arp, pool)

def processArpReply (node : EthDecap) (mac : List UInt8) : Outcome EthDecap := do
  let off := EthOffsets.ethTargetIpOff.off
  let dstIp ← slice mac off (off + 4)
  if node.intf.ipv4Addr.octets ≠ dstIp then
    .ok node.unknownArp
  else do
    let off := EthOffsets.ethTargetMacOff.off
    let dstMac ← slice mac off (off + ethAlen)
    let l2Addr ← slice node.intf.l2Addr 0 ethAlen
    if dstMac ≠ l2Addr then
      .ok node.unknownArp
    else do
      let srcIp ← readIp mac EthOffsets.ethSenderIpOff.off
      let off := EthOffsets.ethSenderMacOff.off
      let srcMac ← slice mac off (off + ethAlen)
      .ok (node.macLearn srcIp srcMac)

def processArp (node : EthDecap) (pool : σ) (mac : List UInt8) : Outcome (EthDecap × Option Packet × σ) := do
  let op ← readBe16 mac EthOffsets.ethOpcodeOff.off
  let proto ← readBe16 mac EthOffsets.ethProtoOff.off
  if op = arpOpcodeReply ∧ proto = ethTypeIpv4 then do
    let node ← node.processArpReply mac
    .ok (node, none, pool)
  else if op = arpOpcodeReq ∧ proto = ethTypeIpv4 then
    node.processArpReq pool mac
  else
    .ok (node.unknownArp, none, pool)

def macAdd (node : EthDecap) (ip : Ipv4Addr) (mac : EthMacRaw) : EthDecap :=
  if mac.bytes.length < ethAlen then
    { node with cnt := { node.cnt with badMac := node.cnt.badMac + 1 } }
  else
    { node with mac := node.mac.orInsert ip mac }

/-- One turn of the loop of `dispatch`, with what it pushes. -/
def dispatchOne (node : EthDecap) (pool : σ) (p : Packet) : Outcome (EthDecap × List (Next × Packet) × σ) := do
  let (pulled, p) ← p.pullL2 etherHdrLen
  if pulled ≠ etherHdrLen then
    .error .assertion
  else do
    let (mac, _) ← p.getL2
    let ethtype ← readBe16 mac EthOffsets.ethTypeOff.off
    if ethtype = ethTypeArp then do
      let (node, arp, pool) ← node.processArp pool mac
      .ok (node, arp.toList.map (fun pkt => (.tx, pkt)), pool)
    else do
      let l2Addr ← slice node.intf.l2Addr 0 ethAlen
      let off := EthOffsets.ethDaddrOff.off
      let daddr ← slice mac off (off + ethAlen)
      if l2Addr ≠ daddr then
        .ok ({ node with cnt := { node.cnt with notMyMac := node.cnt.notMyMac + 1 } }, [], pool)
      else if ethtype = ethTypeIpv4 then
        .ok (node, [(.l3Ipv4Parse, p)], pool)
      else
        .ok ({ node with cnt := { node.cnt with unknownEthtype := node.cnt.unknownEthtype + 1 } }, [], pool)

def dispatch (node : EthDecap) (pool : σ) : List Packet → Outcome (EthDecap × List (Next × Packet) × σ)
  | [] => .ok (node, [], pool)
  | p :: queue => do
    let (node, pushed, pool) ← node.dispatchOne pool p
    let (node, more, pool) ← node.dispatch pool queue
    .ok (node, pushed ++ more, pool)

def controlMsg (node : EthDecap) : R2Msg → Outcome EthDecap
  | .modifyInterface intf => .ok { node with intf := intf }
  | .ethMacAdd msg => .ok (node.macAdd msg.ip msg.mac)
  | _ => .error .panicked

end EthDecap

end R2
