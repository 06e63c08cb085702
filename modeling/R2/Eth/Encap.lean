import R2.Eth.Node

namespace R2

structure EthEncap where
  intf : Interface
  mac : MacTable
  badMac : Nat

namespace EthEncap

inductive Next
  | drop
  | tx
deriving DecidableEq, Repr

variable {σ : Type} [PacketPool σ]

/-- A zero next hop stands for a connected adjacency, where the destination
address itself is asked for. -/
def requestTarget (inPkt : Packet) : Outcome (List UInt8) :=
  if inPkt.outL3addr = zeroIp then do
    let (l3, l3len) ← inPkt.getL3
    if iphdrMinLen ≤ l3len then
      slice l3 iphdrDaddrOff (iphdrDaddrOff + 4)
    else
      .error .assertion
  else
    .ok inPkt.outL3addr.octets

def doArpRequest (node : EthEncap) (pool : σ) (inPkt : Packet) : Outcome (Option Packet × σ) :=
  makeArp node.intf pool arpOpcodeReq bcastMac zeroMac (requestTarget inPkt)

def macAdd (node : EthEncap) (ip : Ipv4Addr) (mac : EthMacRaw) : EthEncap :=
  if mac.bytes.length < ethAlen then
    { node with badMac := node.badMac + 1 }
  else
    { node with mac := node.mac.orInsert ip mac }

def addEthHdr (node : EthEncap) (pool : σ) (pkt : Packet) (mac : EthMacRaw) : Outcome (Bool × Packet × σ) := do
  let (done, pkt, pool) ← pkt.prepend pool (toBeBytes ethTypeIpv4)
  if !done then
    .ok (false, pkt, pool)
  else do
    let saddr ← slice node.intf.l2Addr 0 ethAlen
    let (done, pkt, pool) ← pkt.prepend pool saddr
    if !done then
      .ok (false, pkt, pool)
    else do
      let (done, pkt, pool) ← pkt.prepend pool mac.bytes
      if !done then
        .ok (false, pkt, pool)
      else do
        let (_, pkt) ← pkt.setL2 ethAlen
        .ok (true, pkt, pool)

/-- One turn of the loop of `dispatch`, with what it pushes. -/
def dispatchOne (node : EthEncap) (pool : σ) (p : Packet) : Outcome (List (Next × Packet) × σ) :=
  match node.mac p.outL3addr with
  | some mac => do
    let (done, p, pool) ← node.addEthHdr pool p mac
    .ok (if done then [(.tx, p)] else [], pool)
  | none => do
    let (arp, pool) ← node.doArpRequest pool p
    .ok (arp.toList.map (fun pkt => (.tx, pkt)), pool)

def dispatch (node : EthEncap) (pool : σ) : List Packet → Outcome (List (Next × Packet) × σ)
  | [] => .ok ([], pool)
  | p :: queue => do
    let (pushed, pool) ← node.dispatchOne pool p
    let (more, pool) ← node.dispatch pool queue
    .ok (pushed ++ more, pool)

def controlMsg (node : EthEncap) : R2Msg → Outcome EthEncap
  | .modifyInterface intf => .ok { node with intf := intf }
  | .ethMacAdd msg => .ok (node.macAdd msg.ip msg.mac)
  | _ => .error .panicked

end EthEncap

end R2
