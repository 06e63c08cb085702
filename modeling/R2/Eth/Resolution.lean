import R2.Eth.Exchange

namespace R2

/-- The pool has a packet in which an ARP frame can be built. -/
def CanBuild {σ : Type} [PacketPool σ] (pool : σ) : Prop :=
  arpBytes ≤ PacketPool.particleSz pool ∧ ∃ pkt pool', PacketPool.pkt pool 0 = (some pkt, pool')

theorem CanBuild.room {σ : Type} [PacketPool σ] {pool : σ} (build : CanBuild pool) (supplies : Packet.Supplies pool)
    (pkt : Packet) : Packet.Room etherHdrLen pkt pool := by
  have small : etherHdrLen ≤ arpBytes := by decide
  exact .inr ⟨supplies, Nat.le_trans small build.1⟩

/-- The nodes of two interfaces on one link, neither of which knows the other. -/
structure Strangers (X Y : Interface) (encapX : EthEncap) (decapX decapY : EthDecap) : Prop where
  encap : encapX.intf = X
  decap : decapX.intf = X
  peer : decapY.intf = Y
  macX : X.l2Addr.length = ethAlen
  macY : Y.l2Addr.length = ethAlen
  addr : Y.ipv4Addr ≠ zeroIp
  connected : decapX.sender.connected = true
  encapUnknown : encapX.mac Y.ipv4Addr = none
  decapUnknown : decapX.mac Y.ipv4Addr = none
  peerUnknown : decapY.mac X.ipv4Addr = none

/-- One ARP exchange, from the packet whose next hop is not known to the
payload of the packets sent after it: request, what Y learns, reply, what X
learns and reports, the frame X then builds and what Y hands on. -/
theorem arp_resolves (σ τ : Type) [PacketPool σ] [SizedPool σ] [PacketPool τ] [SizedPool τ] {X Y : Interface}
    {encapX : EthEncap} {decapX decapY : EthDecap} (strangers : Strangers X Y encapX decapX decapY)
    {poolX : σ} {p : Packet} (nextHop : p.outL3addr = Y.ipv4Addr) (build : CanBuild poolX) :
    ∃ request poolX', encapX.doArpRequest poolX p = .ok (some request, poolX') ∧
      encapX.dispatch poolX [p] = .ok ([(.tx, request)], poolX') ∧
    ∀ (q : Packet) (poolY : τ), q.Delivers request.content → CanBuild poolY →
    ∃ decapY' reply poolY', decapY.dispatch poolY [q] = .ok (decapY', [(.tx, reply)], poolY') ∧
      decapY'.mac X.ipv4Addr = some ⟨X.l2Addr⟩ ∧
    ∀ (r : Packet) (poolX : σ), r.Delivers reply.content →
    ∃ decapX', decapX.dispatch poolX [r] = .ok (decapX', [], poolX) ∧
      decapX'.sender.sent = decapX.sender.sent ++ [.ethMacAdd ⟨X.ifindex, Y.ipv4Addr, ⟨Y.l2Addr⟩⟩] ∧
    ∃ encapX', encapX.controlMsg (.ethMacAdd ⟨X.ifindex, Y.ipv4Addr, ⟨Y.l2Addr⟩⟩) = .ok encapX' ∧
    ∀ (ip : Packet) (poolX : σ), ip.Sound → ip.outL3addr = Y.ipv4Addr → Packet.Room etherHdrLen ip poolX →
      ip.length + etherHdrLen < 2 ^ 64 →
    ∃ frame poolX', encapX'.dispatch poolX [ip] = .ok ([(.tx, frame)], poolX') ∧
      frame.content = Y.l2Addr ++ X.l2Addr ++ [0x08, 0x00] ++ ip.content ∧
    ∀ (s : Packet) (poolY : τ), s.Delivers frame.content →
    ∃ out, decapY'.dispatch poolY [s] = .ok (decapY', [(.l3Ipv4Parse, out)], poolY) ∧ out.content = ip.content := by
  obtain ⟨rfl, decap, rfl, macX, macY, addr, connected, encapUnknown, decapUnknown, peerUnknown⟩ := strangers
  obtain ⟨size, pkt, poolX', allocated⟩ := build
  rw [← nextHop] at encapUnknown addr
  obtain ⟨request, asked, sent, -, content⟩ := EthEncap.dispatch_unknown encapUnknown addr macX allocated size
  rw [nextHop] at encapUnknown content
  refine ⟨request, poolX', asked, sent, fun q poolY delivered build => ?_⟩
  -- the request reaches the peer
  obtain ⟨size, pkt, poolY', allocated⟩ := build
  rw [content] at delivered
  obtain ⟨reply, answered, -, content⟩ := EthDecap.dispatch_request delivered rfl macX rfl macY allocated size
  refine ⟨_, reply, poolY', answered, (EthDecap.macLearn_new _ peerUnknown).1, fun r poolX delivered => ?_⟩
  -- the reply comes back
  rw [content, ← decap] at delivered
  have own : decapX.intf.l2Addr.length = ethAlen := by
    rw [decap]
    exact macX
  have learned : decapX.dispatch poolX [r] =
      .ok (decapX.macLearn decapY.intf.ipv4Addr decapY.intf.l2Addr, [], poolX) :=
    EthDecap.dispatch_reply delivered own macY own
  have told := (EthDecap.macLearn_new decapY.intf.l2Addr decapUnknown).2 connected
  rw [decap] at told
  refine ⟨_, learned, told, _, rfl, fun ip poolX sound nextHop room fits => ?_⟩
  -- the learned address is now used
  obtain ⟨known, same⟩ := @EthEncap.macAdd_new encapX decapY.intf.ipv4Addr ⟨decapY.intf.l2Addr⟩ macY encapUnknown
  rw [← nextHop] at known
  obtain ⟨frame, poolX', sent, -, content⟩ :=
    EthEncap.dispatch_known known macY (by rw [nextHop, same]; exact macX) sound room fits
  rw [nextHop, same] at content
  rw [nextHop] at sent
  refine ⟨frame, poolX', sent, content, fun s poolY delivered => ?_⟩
  rw [content] at delivered
  have unmoved : (decapY.macLearn encapX.intf.ipv4Addr encapX.intf.l2Addr).intf = decapY.intf :=
    EthDecap.macLearn_intf _ _
  rw [← unmoved] at delivered macY
  exact EthDecap.dispatch_ipv4 delivered macY macX

/-- `bytes` as a driver hands them over, in a buffer they fill. -/
def received (bytes : List UInt8) : Packet where
  ptr := 0
  particle := [⟨0, bytes, 0, bytes.length, Nat.zero_le _⟩]
  length := bytes.length
  l2 := 0
  l2Len := 0
  l3 := 0
  l3Len := 0
  inIfindex := 0
  outIfindex := 0
  outL3addr := ⟨10, 0, 0, 2⟩

theorem received_delivers (bytes : List UInt8) : (received bytes).Delivers bytes := by
  have content : (received bytes).content = bytes := by
    simp only [received, Packet.content, chainContent_cons, chainContent_nil, List.append_nil,
      Particle.content, window_whole]
  refine ⟨⟨⟨List.cons_ne_nil _ _, fun p member => ?_⟩, congrArg List.length content.symm⟩, ⟨_, rfl⟩, content⟩
  rw [List.mem_singleton.mp member]
  exact Nat.le_refl _

def hostX : Interface := ⟨"eth0", 1, 0, 1500, ⟨10, 0, 0, 1⟩, 24, [2, 0, 0, 0, 0, 1], 14⟩

def hostY : Interface := ⟨"eth0", 3, 0, 1500, ⟨10, 0, 0, 2⟩, 24, [2, 0, 0, 0, 0, 2], 14⟩

def fullHeap : PktsHeap where
  allocFail := 0
  pkts := [received []]
  particles := List.replicate 2 ⟨0, List.replicate 48 0, 0, 0, Nat.le_refl _⟩
  particleSz := 48
  sized := by decide

/-- Two hosts on one wire resolve each other's address, and a packet from X
arrives at Y as it was sent. -/
theorem arp_resolves_two_hosts : ∃ (decapY : EthDecap) (out : Packet),
    decapY.dispatch fullHeap [received (hostY.l2Addr ++ hostX.l2Addr ++ [0x08, 0x00] ++ [0x45, 7, 7])] =
      .ok (decapY, [(.l3Ipv4Parse, out)], fullHeap) ∧
    decapY.mac ⟨10, 0, 0, 1⟩ = some ⟨[2, 0, 0, 0, 0, 1]⟩ ∧ out.content = [0x45, 7, 7] := by
  have strangers : Strangers hostX hostY ⟨hostX, fun _ => none, 0⟩
      ⟨hostX, fun _ => none, ⟨true, []⟩, 0, 0, 0, 0, 0⟩ ⟨hostY, fun _ => none, ⟨true, []⟩, 0, 0, 0, 0, 0⟩ :=
    ⟨rfl, rfl, rfl, rfl, rfl, by decide, rfl, rfl, rfl, rfl⟩
  have build : CanBuild fullHeap := ⟨by decide, _, _, rfl⟩
  have packet := received_delivers [0x45, 7, 7]
  obtain ⟨request, _, -, -, step⟩ := arp_resolves PktsHeap PktsHeap strangers
    (rfl : (received []).outL3addr = hostY.ipv4Addr) build
  obtain ⟨decapY, reply, _, -, learned, step⟩ := step _ fullHeap (received_delivers request.content) build
  obtain ⟨_, -, -, _, -, step⟩ := step _ fullHeap (received_delivers reply.content)
  obtain ⟨frame, _, -, content, step⟩ := step (received [0x45, 7, 7]) fullHeap packet.sound rfl
    (build.room ⟨_, _, rfl⟩ _) (by decide)
  rw [packet.content] at content
  rw [content, packet.content] at step
  obtain ⟨out, passed, same⟩ := step _ fullHeap (received_delivers _)
  exact ⟨decapY, out, passed, learned, same⟩

end R2
