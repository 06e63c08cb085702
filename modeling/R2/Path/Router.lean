import R2.Eth.Frame
import R2.Route.Node

namespace R2

/-- The number in the two bytes at an offset. -/
def be16At (raw : List UInt8) (off : Nat) : Nat := fromBeBytes (raw.getD off 0) (raw.getD (off + 1) 0)

/-- The address in the four bytes at an offset. -/
def ipAt (raw : List UInt8) (off : Nat) : Ipv4Addr :=
  ⟨raw.getD off 0, raw.getD (off + 1) 0, raw.getD (off + 2) 0, raw.getD (off + 3) 0⟩

/-- The link address at an offset. -/
def macAt (raw : List UInt8) (off : Nat) : List UInt8 := window raw off (off + ethAlen)

/-- One end of a link. -/
structure Port where
  ifindex : Nat
  mac : List UInt8
  ip : Ipv4Addr
deriving DecidableEq, Repr

/-- Why a router does nothing about a frame. -/
inductive Reason
  | notMyMac
  | unknownEthtype
  | unknownArp
  | badPkt
  | noRoute
deriving DecidableEq, Repr

/-- A frame that leaves a router; it has `built` one that is not passed on. -/
structure Emission where
  ifindex : Nat
  frame : List UInt8
  built : Bool
deriving DecidableEq, Repr

/-- A router in terms of the frames on its links. It hears frames at the port
`own`. -/
structure Router where
  own : Port
  heard : MacTable
  told : List R2Msg
  tally : Reason → Nat
  route : Ipv4Addr → Option (Ipv4Addr × Nat)
  link : Nat → Option (Port × MacTable)

namespace Router

def count (r : Router) (reason : Reason) : Router :=
  { r with tally := Function.update r.tally reason (r.tally reason + 1) }

/-- An address that is heard for the first time is kept and reported. -/
def learn (r : Router) (ip : Ipv4Addr) (mac : List UInt8) : Router :=
  match r.heard ip with
  | some _ => r
  | none => { r with
    heard := Function.update r.heard ip (some ⟨mac⟩)
    told := r.told ++ [.ethMacAdd ⟨r.own.ifindex, ip, ⟨mac⟩⟩] }

/-- An ARP frame is a request to answer, a reply to learn from, or neither. -/
def hear (r : Router) (frame : List UInt8) : Router × Option Emission :=
  let senderIp := ipAt frame EthOffsets.ethSenderIpOff.off
  let senderMac := macAt frame EthOffsets.ethSenderMacOff.off
  if be16At frame EthOffsets.ethProtoOff.off = ethTypeIpv4 ∧ ipAt frame EthOffsets.ethTargetIpOff.off = r.own.ip then
    if be16At frame EthOffsets.ethOpcodeOff.off = arpOpcodeReq then
      (r.learn senderIp senderMac,
        some ⟨r.own.ifindex, arpFrame arpOpcodeReply senderMac r.own.mac r.own.ip senderMac senderIp.octets, true⟩)
    else if be16At frame EthOffsets.ethOpcodeOff.off = arpOpcodeReply ∧
        macAt frame EthOffsets.ethTargetMacOff.off = r.own.mac then
      (r.learn senderIp senderMac, none)
    else (r.count .unknownArp, none)
  else (r.count .unknownArp, none)

/-- A packet leaves for the next hop of its route, or the next hop is asked for. -/
def forward (r : Router) (packet : List UInt8) : Router × Option Emission :=
  if packet.length < iphdrMinLen then (r.count .badPkt, none)
  else
    let dst := ipAt packet iphdrDaddrOff
    match r.route dst with
    | none => (r.count .noRoute, none)
    | some (nhop, ifindex) =>
      let next := if nhop = zeroIp then dst else nhop
      match r.link ifindex with
      | none => (r, none)
      | some (port, neighbours) =>
        match neighbours next with
        | some mac => (r, some ⟨ifindex, mac.bytes ++ port.mac ++ toBeBytes ethTypeIpv4 ++ packet, false⟩)
        | none => (r, some ⟨ifindex, arpFrame arpOpcodeReq bcastMac port.mac port.ip zeroMac next.octets, true⟩)

/-- What a router makes of a frame. -/
def step (r : Router) (frame : List UInt8) : Router × Option Emission :=
  if be16At frame EthOffsets.ethTypeOff.off = ethTypeArp then r.hear frame
  else if macAt frame EthOffsets.ethDaddrOff.off ≠ r.own.mac then (r.count .notMyMac, none)
  else if be16At frame EthOffsets.ethTypeOff.off = ethTypeIpv4 then r.forward (frame.drop etherHdrLen)
  else (r.count .unknownEthtype, none)

/-- What there are buffers for: the frame that arrives, and one to build. -/
structure Supply where
  packet : Bool
  build : Bool
deriving DecidableEq, Repr

/-- Without a buffer the frame is lost, and what was to be built is not sent. -/
def attend (r : Router) (supply : Supply) (frame : List UInt8) : Router × List Emission :=
  if supply.packet then
    ((r.step frame).1, (r.step frame).2.toList.filter fun e => !e.built || supply.build)
  else (r, [])

section Hearing

variable {r : Router} {frame : List UInt8}

/-- An ARP frame for IPv4 that is about the port's own address. -/
def Concerns (r : Router) (frame : List UInt8) : Prop :=
  be16At frame EthOffsets.ethProtoOff.off = ethTypeIpv4 ∧ ipAt frame EthOffsets.ethTargetIpOff.off = r.own.ip

theorem hear_request (concerns : r.Concerns frame) (req : be16At frame EthOffsets.ethOpcodeOff.off = arpOpcodeReq) :
    r.hear frame = (r.learn (ipAt frame EthOffsets.ethSenderIpOff.off) (macAt frame EthOffsets.ethSenderMacOff.off),
      some ⟨r.own.ifindex, arpFrame arpOpcodeReply (macAt frame EthOffsets.ethSenderMacOff.off) r.own.mac r.own.ip
        (macAt frame EthOffsets.ethSenderMacOff.off) (ipAt frame EthOffsets.ethSenderIpOff.off).octets, true⟩) :=
  (if_pos concerns).trans (if_pos req)

theorem hear_reply (concerns : r.Concerns frame) (req : be16At frame EthOffsets.ethOpcodeOff.off ≠ arpOpcodeReq)
    (reply : be16At frame EthOffsets.ethOpcodeOff.off = arpOpcodeReply ∧
      macAt frame EthOffsets.ethTargetMacOff.off = r.own.mac) :
    r.hear frame =
      (r.learn (ipAt frame EthOffsets.ethSenderIpOff.off) (macAt frame EthOffsets.ethSenderMacOff.off), none) :=
  (if_pos concerns).trans ((if_neg req).trans (if_pos reply))

theorem hear_other (other : ¬(r.Concerns frame ∧ (be16At frame EthOffsets.ethOpcodeOff.off = arpOpcodeReq ∨
      be16At frame EthOffsets.ethOpcodeOff.off = arpOpcodeReply ∧
        macAt frame EthOffsets.ethTargetMacOff.off = r.own.mac))) :
    r.hear frame = (r.count .unknownArp, none) := by
  by_cases concerns : r.Concerns frame
  · have neither := not_or.mp fun either => other ⟨concerns, either⟩
    exact (if_pos concerns).trans ((if_neg neither.1).trans (if_neg neither.2))
  · exact if_neg concerns

end Hearing

section Forwarding

variable {r : Router} {packet : List UInt8} {nhop : Ipv4Addr} {ifindex : Nat} {port : Port} {neighbours : MacTable}

/-- The next hop of a route, where a zero one stands for the destination itself. -/
def nextHop (packet : List UInt8) (nhop : Ipv4Addr) : Ipv4Addr :=
  if nhop = zeroIp then ipAt packet iphdrDaddrOff else nhop

theorem forward_short (short : packet.length < iphdrMinLen) : r.forward packet = (r.count .badPkt, none) := if_pos short

theorem forward_lost (whole : ¬packet.length < iphdrMinLen) (lost : r.route (ipAt packet iphdrDaddrOff) = none) :
    r.forward packet = (r.count .noRoute, none) := by
  rw [forward, if_neg whole]
  dsimp only
  rw [lost]

theorem forward_unplugged (whole : ¬packet.length < iphdrMinLen)
    (hit : r.route (ipAt packet iphdrDaddrOff) = some (nhop, ifindex)) (link : r.link ifindex = none) :
    r.forward packet = (r, none) := by
  rw [forward, if_neg whole]
  dsimp only
  rw [hit]
  dsimp only
  rw [link]

theorem forward_known {mac : EthMacRaw} (whole : ¬packet.length < iphdrMinLen)
    (hit : r.route (ipAt packet iphdrDaddrOff) = some (nhop, ifindex)) (link : r.link ifindex = some (port, neighbours))
    (known : neighbours (nextHop packet nhop) = some mac) : r.forward packet =
      (r, some ⟨ifindex, mac.bytes ++ port.mac ++ toBeBytes ethTypeIpv4 ++ packet, false⟩) := by
  rw [nextHop] at known
  rw [forward, if_neg whole]
  dsimp only
  rw [hit]
  dsimp only
  rw [link]
  dsimp only
  rw [known]

theorem forward_unknown (whole : ¬packet.length < iphdrMinLen)
    (hit : r.route (ipAt packet iphdrDaddrOff) = some (nhop, ifindex)) (link : r.link ifindex = some (port, neighbours))
    (unknown : neighbours (nextHop packet nhop) = none) : r.forward packet = (r, some ⟨ifindex,
      arpFrame arpOpcodeReq bcastMac port.mac port.ip zeroMac (nextHop packet nhop).octets, true⟩) := by
  rw [nextHop] at unknown
  rw [forward, if_neg whole]
  dsimp only
  rw [hit]
  dsimp only
  rw [link]
  dsimp only
  rw [unknown]
  rfl

end Forwarding

end Router

section Reading

variable {raw : List UInt8} {off : Nat}

theorem index_getD (inside : off < raw.length) : index raw off = .ok (raw.getD off 0) := by
  rw [index, List.getD_eq_getElem?_getD, List.getElem?_eq_getElem inside, Option.getD_some]

theorem readBe16_eq (inside : off + 2 ≤ raw.length) : readBe16 raw off = .ok (be16At raw off) := by
  rw [readBe16, index_getD (by omega), Except.ok_bind, index_getD (by omega), Except.ok_bind, be16At]

theorem readIp_eq (inside : off + 4 ≤ raw.length) : readIp raw off = .ok (ipAt raw off) := by
  rw [readIp, index_getD (by omega), Except.ok_bind, index_getD (by omega), Except.ok_bind, index_getD (by omega),
    Except.ok_bind, index_getD (by omega), Except.ok_bind, ipAt]

theorem window_octets (inside : off + 4 ≤ raw.length) : window raw off (off + 4) = (ipAt raw off).octets := by
  have byte (i : Nat) (small : i < 4) : (window raw off (off + 4))[i]? = some (raw.getD (off + i) 0) := by
    rw [getElem?_window, if_pos (by omega), List.getD_eq_getElem?_getD, List.getElem?_eq_getElem (by omega),
      Option.getD_some]
  apply List.ext_getElem?
  intro i
  rcases i with _ | _ | _ | _ | n
  · exact byte 0 (by decide)
  · exact byte 1 (by decide)
  · exact byte 2 (by decide)
  · exact byte 3 (by decide)
  · rw [getElem?_window, if_neg (by omega)]
    rfl

theorem Ipv4Addr.octets_inj {ip ip' : Ipv4Addr} : ip.octets = ip'.octets ↔ ip = ip' := by
  refine ⟨fun same => ?_, congrArg Ipv4Addr.octets⟩
  obtain ⟨a, b, c, d⟩ := ip
  obtain ⟨a', b', c', d'⟩ := ip'
  simpa only [Ipv4Addr.octets, List.cons.injEq, and_true, Ipv4Addr.mk.injEq] using same

theorem slice_octets (inside : off + 4 ≤ raw.length) : slice raw off (off + 4) = .ok (ipAt raw off).octets := by
  rw [slice, if_pos ⟨Nat.le_add_right .., inside⟩, window_octets inside]

theorem slice_mac (inside : off + ethAlen ≤ raw.length) : slice raw off (off + ethAlen) = .ok (macAt raw off) :=
  if_pos ⟨Nat.le_add_right .., inside⟩

theorem macAt_length (inside : off + ethAlen ≤ raw.length) : (macAt raw off).length = ethAlen := by
  rw [macAt, window_length inside, Nat.add_sub_cancel_left]

theorem ipAt_append {after : List UInt8} (inside : off + 4 ≤ raw.length) : ipAt (raw ++ after) off = ipAt raw off := by
  have byte (i : Nat) (small : i < raw.length) : (raw ++ after).getD i 0 = raw.getD i 0 := by
    rw [List.getD_eq_getElem?_getD, List.getElem?_append_left small, List.getD_eq_getElem?_getD]
  rw [ipAt, byte _ (by omega), byte _ (by omega), byte _ (by omega), byte _ (by omega), ipAt]

end Reading

end R2
