import R2.Path.Router
import R2.Path.Wire

namespace R2

def Interface.port (intf : Interface) : Port := ⟨intf.ifindex, intf.l2Addr, intf.ipv4Addr⟩

/-- The next hop and the interface of the longest route that matches. -/
def IPv4Table.route {T : Type} [IpLookupTable T] (table : IPv4Table T) (ip : Ipv4Addr) : Option (Ipv4Addr × Nat) :=
  match IpLookupTable.longestMatch table.root ip with
  | some (_, _, ⟨.adjacency nhop ifindex⟩) => some (nhop, ifindex)
  | _ => none

namespace Path

variable {T σ : Type}

def tally (path : Path T σ) : Reason → Nat
  | .notMyMac => path.decap.cnt.notMyMac
  | .unknownEthtype => path.decap.cnt.unknownEthtype
  | .unknownArp => path.decap.cnt.unknownArp
  | .badPkt => path.parse.badPkt
  | .noRoute => path.fwd.noRoute

/-- The router that the nodes of a thread make up. -/
def router [IpLookupTable T] (path : Path T σ) : Router where
  own := path.decap.intf.port
  heard := path.decap.mac
  told := path.decap.sender.sent
  tally := path.tally
  route := path.table.route
  link i := (path.encap i).map fun node => (node.intf.port, node.mac)

theorem tally_count {path path' : Path T σ} (reason : Reason)
    (same : ∀ other, path'.tally other = path.tally other + if other = reason then 1 else 0) :
    path'.tally = Function.update path.tally reason (path.tally reason + 1) := by
  funext other
  rw [same, Function.update_apply]
  split
  · rename_i here
    rw [here]
  · rfl

end Path

section Plenty

variable {σ : Type} [PacketPool σ]

/-- The pool has so many packets without any that come back to it. -/
def Plenty : Nat → σ → Prop
  | 0, _ => True
  | n + 1, pool => ∀ headroom, ∃ pkt pool', PacketPool.pkt pool headroom = (some pkt, pool') ∧ Plenty n pool'

theorem Plenty.pred {n : Nat} {pool : σ} (plenty : Plenty (n + 1) pool) : Plenty n pool := by
  induction n generalizing pool with
  | zero => trivial
  | succ n ih =>
    intro headroom
    obtain ⟨pkt, pool', allocated, more⟩ := plenty headroom
    exact ⟨pkt, pool', allocated, ih more⟩

theorem Plenty.next {n headroom : Nat} {pool : σ} (plenty : Plenty (n + 1) pool) :
    (PacketPool.pkt pool headroom).1.isSome ∧ Plenty n (PacketPool.pkt pool headroom).2 := by
  obtain ⟨pkt, pool', allocated, more⟩ := plenty headroom
  rw [allocated]
  exact ⟨rfl, more⟩

theorem PktsHeap.pkt_next {pool : PktsHeap} {pkt : Packet} {rest : List Packet} {part : Particle}
    {others : List Particle} (pkts : pool.pkts = pkt :: rest) (particles : pool.particles = part :: others)
    (headroom : Nat) : ∃ pkt' pool', pool.pkt headroom = (some pkt', pool') ∧ pool'.pkts = rest ∧
      pool'.particles = others := by
  have taken : ∃ part' pool', ({ pool with pkts := rest } : PktsHeap).particle headroom = (some part', pool') ∧
      pool'.pkts = rest ∧ pool'.particles = others := by
    unfold PktsHeap.particle
    split
    · rename_i empty
      rw [particles] at empty
      cases empty
    · rename_i part' others' cut
      rw [particles] at cut
      obtain ⟨-, rfl⟩ := List.cons.inj cut
      exact ⟨_, _, rfl, rfl, rfl⟩
  obtain ⟨part', pool', run, left, over'⟩ := taken
  refine ⟨pkt.reinit part', pool', ?_, left, over'⟩
  unfold PktsHeap.pkt
  rw [pkts]
  dsimp only
  rw [run]

theorem PktsHeap.plenty {n : Nat} {pool : PktsHeap} (pkts : n ≤ pool.pkts.length)
    (particles : n ≤ pool.particles.length) : Plenty n pool := by
  induction n generalizing pool with
  | zero => trivial
  | succ n ih =>
    intro headroom
    obtain ⟨pkt, rest, more⟩ := List.exists_cons_of_length_pos (Nat.lt_of_lt_of_le (Nat.succ_pos n) pkts)
    obtain ⟨part, others, parts⟩ := List.exists_cons_of_length_pos (Nat.lt_of_lt_of_le (Nat.succ_pos n) particles)
    obtain ⟨pkt', pool', run, left, left'⟩ := PktsHeap.pkt_next more parts headroom
    rw [more] at pkts
    rw [parts] at particles
    exact ⟨pkt', pool', run, ih (left ▸ Nat.le_of_succ_le_succ pkts) (left' ▸ Nat.le_of_succ_le_succ particles)⟩

end Plenty

section Arp

variable {σ : Type} [PacketPool σ] {node : EthDecap} {pool : σ} {m : List UInt8}

/-- What `process_arp` makes of a request for this interface. -/
theorem EthDecap.processArp_request (whole : arpBytes ≤ m.length)
    (proto : be16At m EthOffsets.ethProtoOff.off = ethTypeIpv4)
    (target : ipAt m EthOffsets.ethTargetIpOff.off = node.intf.ipv4Addr)
    (req : be16At m EthOffsets.ethOpcodeOff.off = arpOpcodeReq) :
    node.processArp pool m = (do
      let node := node.macLearn (ipAt m EthOffsets.ethSenderIpOff.off) (macAt m EthOffsets.ethSenderMacOff.off)
      let (arp, pool) ← node.doArpReply pool (ipAt m EthOffsets.ethSenderIpOff.off)
        (macAt m EthOffsets.ethSenderMacOff.off)
      .ok (node, arp, pool)) := by
  have within {n : Nat} (small : n ≤ arpBytes) : n ≤ m.length := Nat.le_trans small whole
  have different : arpOpcodeReq ≠ arpOpcodeReply := by decide
  simp only [EthDecap.processArp, EthDecap.processArpReq,
    @readBe16_eq m EthOffsets.ethOpcodeOff.off (within (by decide)),
    @readBe16_eq m EthOffsets.ethProtoOff.off (within (by decide)),
    @slice_octets m EthOffsets.ethTargetIpOff.off (within (by decide)),
    @readIp_eq m EthOffsets.ethSenderIpOff.off (within (by decide)),
    @slice_mac m EthOffsets.ethSenderMacOff.off (within (by decide)), Except.ok_bind, proto, target, req, different,
    ne_eq, false_and, and_self, if_true, if_false, not_true_eq_false]

/-- What it makes of a reply to this interface. -/
theorem EthDecap.processArp_reply (whole : arpBytes ≤ m.length) (own : node.intf.l2Addr.length = ethAlen)
    (proto : be16At m EthOffsets.ethProtoOff.off = ethTypeIpv4)
    (target : ipAt m EthOffsets.ethTargetIpOff.off = node.intf.ipv4Addr)
    (reply : be16At m EthOffsets.ethOpcodeOff.off = arpOpcodeReply)
    (mac : macAt m EthOffsets.ethTargetMacOff.off = node.intf.l2Addr) :
    node.processArp pool m =
      .ok (node.macLearn (ipAt m EthOffsets.ethSenderIpOff.off) (macAt m EthOffsets.ethSenderMacOff.off), none,
        pool) := by
  have within {n : Nat} (small : n ≤ arpBytes) : n ≤ m.length := Nat.le_trans small whole
  simp only [EthDecap.processArp, EthDecap.processArpReply,
    @readBe16_eq m EthOffsets.ethOpcodeOff.off (within (by decide)),
    @readBe16_eq m EthOffsets.ethProtoOff.off (within (by decide)),
    @slice_octets m EthOffsets.ethTargetIpOff.off (within (by decide)),
    @slice_mac m EthOffsets.ethTargetMacOff.off (within (by decide)),
    @readIp_eq m EthOffsets.ethSenderIpOff.off (within (by decide)),
    @slice_mac m EthOffsets.ethSenderMacOff.off (within (by decide)), slice_whole own, Except.ok_bind, proto, target,
    reply, mac, ne_eq, and_self, if_true, if_false, not_true_eq_false]

end Arp

namespace Path

variable {T σ : Type} [IpLookupTable T] [PacketPool σ]

/-- A thread as the control thread sets it up: its interfaces are where the
routes look for them, and it knows whole link addresses only. -/
structure InService (path : Path T σ) : Prop extends path.Sane where
  bounded : PacketPool.particleSz path.pool < 2 ^ 64
  connected : path.decap.sender.connected = true
  plugged : ∀ i node, path.encap i = some node → node.intf.ifindex = i
  macs : ∀ i node ip mac, path.encap i = some node → node.mac ip = some mac → mac.bytes.length = ethAlen

omit [IpLookupTable T] in
theorem InService.kept [IpLookupTable T] {path path' : Path T σ} (service : path.InService) (kept : path.Kept path')
    (connected : path'.decap.sender.connected = true) : path'.InService where
  toSane := kept.sane service.toSane
  bounded := kept.size ▸ service.bounded
  connected := connected
  plugged i node here := service.plugged i node (kept.encap ▸ here)
  macs i node ip mac here := service.macs i node ip mac (kept.encap ▸ here)

/-- What the pool has for the next frame. -/
def supply (path : Path T σ) : Router.Supply :=
  let (pkt, pool) := PacketPool.pkt path.pool path.ifNode.intf.headroom
  -- one more packet is taken to find that there is no other frame
  let (_, pool) := PacketPool.pkt pool path.ifNode.intf.headroom
  ⟨pkt.isSome, (PacketPool.pkt pool 0).1.isSome⟩

/-- The nodes now make up this router and have sent these frames. -/
structure Became (path path' : Path T σ) (r : Router) (out : List Emission) : Prop where
  router : path'.router = r
  connected : path'.decap.sender.connected = true
  pool : path'.pool = path.pool ∨ path'.pool = (PacketPool.pkt path.pool 0).2
  wire : ∀ sent, path.wire = .ok sent → path'.wire = .ok (sent ++ out.map fun e => (e.ifindex, e.frame))

theorem Became.same {path path' : Path T σ} {r : Router} (router : path'.router = r)
    (connected : path'.decap.sender.connected = true)
    (pool : path'.pool = path.pool ∨ path'.pool = (PacketPool.pkt path.pool 0).2) (tx : path'.tx = path.tx) :
    path.Became path' r [] where
  router := router
  connected := connected
  pool := pool
  wire sent before := by
    rw [List.map_nil, List.append_nil, Path.wire, tx]
    exact before

theorem Became.sent {path path' : Path T σ} {r : Router} {p : Packet} {e : Emission} (router : path'.router = r)
    (connected : path'.decap.sender.connected = true)
    (pool : path'.pool = path.pool ∨ path'.pool = (PacketPool.pkt path.pool 0).2) (tx : path'.tx = path.tx ++ [p])
    (chained : Chained p.particle) (ifindex : p.outIfindex = e.ifindex) (content : p.content = e.frame) :
    path.Became path' r [e] where
  router := router
  connected := connected
  pool := pool
  wire sent before := by
    have after := wire_concat before chained
    rw [ifindex, content] at after
    rw [Path.wire, tx]
    exact after

omit [PacketPool σ] in
theorem router_unknownArp {path path' : Path T σ} (decap : path'.decap = path.decap.unknownArp)
    (parse : path'.parse = path.parse) (fwd : path'.fwd = path.fwd) (table : path'.table = path.table)
    (encap : path'.encap = path.encap) : path'.router = path.router.count .unknownArp := by
  have tally := @tally_count _ _ path path' .unknownArp fun other => by
    cases other <;> simp [Path.tally, decap, parse, fwd, EthDecap.unknownArp]
  simp only [router, Router.count, tally, decap, table, encap, EthDecap.unknownArp]

omit [PacketPool σ] in
theorem router_learn {path path' : Path T σ} {ip : Ipv4Addr} {mac : List UInt8}
    (connected : path.decap.sender.connected = true) (decap : path'.decap = path.decap.macLearn ip mac)
    (parse : path'.parse = path.parse) (fwd : path'.fwd = path.fwd) (table : path'.table = path.table)
    (encap : path'.encap = path.encap) :
    path'.router = path.router.learn ip mac ∧ path'.decap.sender.connected = true := by
  have send (msg : R2Msg) : path.decap.sender.send msg =
      (true, { path.decap.sender with sent := path.decap.sender.sent ++ [msg] }) := if_pos connected
  cases known : path.decap.mac ip with
  | some old =>
    have unchanged : path.decap.macLearn ip mac = path.decap := by simp only [EthDecap.macLearn, known]
    rw [unchanged] at decap
    have tally : path'.tally = path.tally := by
      funext other
      cases other <;> simp [Path.tally, decap, parse, fwd]
    refine ⟨?_, decap ▸ connected⟩
    simp only [router, Router.learn, known, decap, table, encap, tally]
  | none =>
    have learned : path.decap.macLearn ip mac = { path.decap with
        mac := Function.update path.decap.mac ip (some ⟨mac⟩)
        sender := { path.decap.sender with
          sent := path.decap.sender.sent ++ [.ethMacAdd ⟨path.decap.intf.ifindex, ip, ⟨mac⟩⟩] } } := by
      have inserted : path.decap.mac.orInsert ip ⟨mac⟩ = Function.update path.decap.mac ip (some ⟨mac⟩) := by
        funext key
        simp only [MacTable.orInsert, known, Function.update_apply]
      simp only [EthDecap.macLearn, known, send, if_true, inserted]
    rw [learned] at decap
    have tally : path'.tally = path.tally := by
      funext other
      cases other <;> simp [Path.tally, decap, parse, fwd]
    refine ⟨?_, by rw [decap]; exact connected⟩
    simp only [router, Router.learn, known, decap, table, encap, tally, Interface.port]

variable [SteadyPool σ] {path path' : Path T σ} {q : Packet} {ptr : Nat} {before frame after : List UInt8}

omit [PacketPool σ] [SteadyPool σ] in
theorem unknownArp_of_not_known (whole : arpBytes ≤ frame.length) (own : path.decap.intf.l2Addr.length = ethAlen)
    (known : ¬(path.router.Concerns frame ∧ (be16At frame EthOffsets.ethOpcodeOff.off = arpOpcodeReq ∨
      be16At frame EthOffsets.ethOpcodeOff.off = arpOpcodeReply ∧
        macAt frame EthOffsets.ethTargetMacOff.off = path.router.own.mac))) :
    EthDecap.UnknownArp path.decap.intf frame := by
  have within {n : Nat} (small : n ≤ arpBytes) : n ≤ frame.length := Nat.le_trans small whole
  have op := @readBe16_eq frame EthOffsets.ethOpcodeOff.off (within (by decide))
  have proto := @readBe16_eq frame EthOffsets.ethProtoOff.off (within (by decide))
  have target := @window_octets frame EthOffsets.ethTargetIpOff.off (within (by decide))
  have mac : window path.decap.intf.l2Addr 0 ethAlen = path.decap.intf.l2Addr := by rw [← own, window_whole]
  by_cases arp : EthDecap.IsArpIpv4 frame
  · refine Or.inr ⟨whole, ?_⟩
    obtain ⟨isProto, isOp⟩ := arp
    rw [proto] at isProto
    rw [op] at isOp
    unfold EthDecap.NotOurs
    rw [target, op, mac]
    by_cases ours : ipAt frame EthOffsets.ethTargetIpOff.off = path.decap.intf.ipv4Addr
    · have neither := not_or.mp fun kind => known ⟨⟨Except.ok.inj isProto, ours⟩, kind⟩
      have reply := isOp.resolve_left fun req => neither.1 (Except.ok.inj req)
      exact Or.inr ⟨reply, own.ge, fun same => neither.2 ⟨Except.ok.inj reply, same⟩⟩
    · exact Or.inl fun same => ours (Ipv4Addr.octets_inj.mp same)
  · exact Or.inl arp

/-- An ARP frame at `EthDecap`. -/
theorem atDecap_arp (service : path.InService) (arp : be16At frame EthOffsets.ethTypeOff.off = ethTypeArp)
    (whole : arpBytes ≤ frame.length) : ∃ path', path.atDecap (q.framed ptr before frame after) = .ok path' ∧
      path.Became path' (path.router.hear frame).1
        ((path.router.hear frame).2.toList.filter fun e => !e.built || (PacketPool.pkt path.pool 0).1.isSome) := by
  have long : etherHdrLen ≤ frame.length := Nat.le_trans (by decide) whole
  have type : readBe16 frame EthOffsets.ethTypeOff.off = .ok ethTypeArp := (readBe16_eq long).trans (congrArg _ arp)
  have macLength : (macAt frame EthOffsets.ethSenderMacOff.off).length = ethAlen :=
    macAt_length (Nat.le_trans (by decide) whole)
  unfold atDecap
  rw [EthDecap.dispatchOne_framed long, type, Except.ok_bind, if_pos rfl, EthDecap.processArp_append whole]
  by_cases known : path.router.Concerns frame ∧ (be16At frame EthOffsets.ethOpcodeOff.off = arpOpcodeReq ∨
      be16At frame EthOffsets.ethOpcodeOff.off = arpOpcodeReply ∧
        macAt frame EthOffsets.ethTargetMacOff.off = path.router.own.mac)
  · obtain ⟨concerns, kind⟩ := known
    by_cases req : be16At frame EthOffsets.ethOpcodeOff.off = arpOpcodeReq
    · rw [EthDecap.processArp_request whole concerns.1 concerns.2 req, Router.hear_request concerns req]
      dsimp only
      rw [EthDecap.doArpReply, EthDecap.macLearn_intf]
      cases allocated : PacketPool.pkt path.pool 0 with
      | mk pkt pool =>
        cases pkt with
        | none =>
          obtain ⟨router, connected⟩ := @router_learn _ _ _ path
            { path with decap := path.decap.macLearn (ipAt frame EthOffsets.ethSenderIpOff.off)
                          (macAt frame EthOffsets.ethSenderMacOff.off), pool }
            _ _ service.connected rfl rfl rfl rfl rfl
          refine ⟨_, ?_, .same router connected (Or.inr (congrArg Prod.snd allocated).symm) rfl⟩
          rw [makeArp, allocated]
          rfl
        | some pkt =>
          obtain ⟨reply, made, sound, content, ifindex⟩ := makeArp_ok arpOpcodeReply allocated
            (Nat.le_of_add_left_le service.room) service.decap macLength macLength
            (rfl : (ipAt frame EthOffsets.ethSenderIpOff.off).octets.length = 4)
          obtain ⟨router, connected⟩ := @router_learn _ _ _ path
            { path with decap := path.decap.macLearn (ipAt frame EthOffsets.ethSenderIpOff.off)
                          (macAt frame EthOffsets.ethSenderMacOff.off), pool, tx := path.tx ++ [reply] }
            _ _ service.connected rfl rfl rfl rfl rfl
          refine ⟨_, ?_, .sent router connected (Or.inr (congrArg Prod.snd allocated).symm) rfl sound.chained ifindex
            content⟩
          rw [made]
          rfl
    · have reply := kind.resolve_left req
      obtain ⟨router, connected⟩ := @router_learn _ _ _ path
        { path with decap := path.decap.macLearn (ipAt frame EthOffsets.ethSenderIpOff.off)
                      (macAt frame EthOffsets.ethSenderMacOff.off) }
        _ _ service.connected rfl rfl rfl rfl rfl
      rw [EthDecap.processArp_reply whole service.decap concerns.1 concerns.2 reply.1 reply.2,
        Router.hear_reply concerns req reply]
      exact ⟨_, rfl, .same router connected (Or.inl rfl) rfl⟩
  · have within {n : Nat} (small : n ≤ arpBytes) : n ≤ frame.length := Nat.le_trans small whole
    have unknown := unknownArp_of_not_known whole service.decap known
    rw [EthDecap.processArp_unknown (within (by decide)) unknown, Router.hear_other known]
    exact ⟨_, rfl, .same (router_unknownArp rfl rfl rfl rfl rfl) service.connected (Or.inl rfl) rfl⟩

end Path

section Headers

variable {p q : Packet} {ptr : Nat} {before frame after : List UInt8} {long : etherHdrLen ≤ frame.length}

/-- The packet that `IPv4Parse` hands on. -/
def parsedPacket (p : Packet) (ptr : Nat) (before frame after : List UInt8) (long : etherHdrLen ≤ frame.length) :
    Packet :=
  { EthDecap.pulledPacket p ptr before frame after long with l3 := before.length + etherHdrLen, l3Len := iphdrMinLen }

theorem parsedPacket_content : (parsedPacket p ptr before frame after long).content = frame.drop etherHdrLen := by
  change chainContent [_] = _
  rw [chainContent_cons, chainContent_nil, List.append_nil, Particle.content]
  dsimp only
  rw [window, List.append_assoc, ← List.drop_drop, List.take_length_add_append, List.drop_left,
    List.take_append_of_le_length (Nat.le_refl _), List.take_length]

theorem parsedPacket_sound (counted : p.length = frame.length) :
    (parsedPacket p ptr before frame after long).Sound := by
  refine ⟨⟨List.cons_ne_nil _ _, fun part inside => ?_⟩, ?_⟩
  · rw [List.mem_singleton.mp inside, Particle.InBounds]
    simp only [List.length_append]
    omega
  · rw [parsedPacket_content, List.length_drop]
    change ((p.length : Int) - etherHdrLen).toNat = _
    omega

theorem IPv4Parse.dispatchOne_pulled (node : IPv4Parse) :
    node.dispatchOne (EthDecap.pulledPacket p ptr before frame after long) =
      if (frame.drop etherHdrLen).length < iphdrMinLen then .ok ({ node with badPkt := node.badPkt + 1 }, [])
      else .ok (node, [(.l3Ipv4Fwd, parsedPacket p ptr before frame after long)]) := by
  have size : before.length + frame.length - (before.length + etherHdrLen) = (frame.drop etherHdrLen).length := by
    rw [List.length_drop]
    omega
  simp only [IPv4Parse.dispatchOne, Packet.setL3, Packet.first, EthDecap.pulledPacket, Except.ok_bind, Particle.len,
    size]
  by_cases short : (frame.drop etherHdrLen).length < iphdrMinLen
  · rw [if_neg (Nat.not_le_of_lt short), if_pos short]
    rfl
  · rw [if_pos (Nat.le_of_not_lt short), if_neg short]
    rfl

theorem parsedPacket_getL3 (whole : ¬(frame.drop etherHdrLen).length < iphdrMinLen) :
    (parsedPacket p ptr before frame after long).getL3 = .ok (frame.drop etherHdrLen ++ after, iphdrMinLen) := by
  have positive : 0 < iphdrMinLen := by decide
  rw [List.length_drop] at whole
  have inside : ¬(before ++ frame ++ after).length ≤ before.length + etherHdrLen := by
    simp only [List.length_append]
    omega
  have data : (before ++ frame ++ after).drop (before.length + etherHdrLen) = frame.drop etherHdrLen ++ after := by
    rw [List.append_assoc, ← List.drop_drop, List.drop_left, List.drop_append_of_le_length long]
  have covers : ¬(frame.drop etherHdrLen ++ after).length < iphdrMinLen := by
    rw [List.length_append, List.length_drop]
    omega
  simp only [Packet.getL3, parsedPacket, EthDecap.pulledPacket, Packet.first, Except.ok_bind, Particle.dataRaw,
    if_neg (Nat.ne_of_gt positive), if_neg inside, data, if_neg covers]

theorem parsedPacket_readIp (whole : ¬(frame.drop etherHdrLen).length < iphdrMinLen) :
    readIp (frame.drop etherHdrLen ++ after) iphdrDaddrOff =
      .ok (ipAt (frame.drop etherHdrLen) iphdrDaddrOff) := by
  have inside : iphdrDaddrOff + 4 ≤ (frame.drop etherHdrLen).length :=
    Nat.le_trans (by decide) (Nat.le_of_not_lt whole)
  rw [readIp_eq (Nat.le_trans inside (by rw [List.length_append]; omega)), ipAt_append inside]

/-- The address that is asked for is the next hop, also where it is zero. -/
theorem requestTarget_parsed {nhop : Ipv4Addr} {ifindex : Nat}
    (whole : ¬(frame.drop etherHdrLen).length < iphdrMinLen) :
    EthEncap.requestTarget { parsedPacket p ptr before frame after long with
      outIfindex := ifindex
      outL3addr := Router.nextHop (frame.drop etherHdrLen) nhop } =
      .ok (Router.nextHop (frame.drop etherHdrLen) nhop).octets := by
  have inside : iphdrDaddrOff + 4 ≤ (frame.drop etherHdrLen).length :=
    Nat.le_trans (by decide) (Nat.le_of_not_lt whole)
  have header : Packet.getL3 { parsedPacket p ptr before frame after long with
      outIfindex := ifindex
      outL3addr := Router.nextHop (frame.drop etherHdrLen) nhop } =
        .ok (frame.drop etherHdrLen ++ after, iphdrMinLen) :=
    @parsedPacket_getL3 p ptr before frame after long whole
  have read : slice (frame.drop etherHdrLen ++ after) iphdrDaddrOff (iphdrDaddrOff + 4) =
      .ok (ipAt (frame.drop etherHdrLen) iphdrDaddrOff).octets := by
    rw [slice_octets (Nat.le_trans inside (by rw [List.length_append]; omega)), ipAt_append inside]
  rw [EthEncap.requestTarget, header]
  dsimp only
  by_cases zero : Router.nextHop (frame.drop etherHdrLen) nhop = zeroIp
  · have same : ipAt (frame.drop etherHdrLen) iphdrDaddrOff = Router.nextHop (frame.drop etherHdrLen) nhop := by
      unfold Router.nextHop at zero ⊢
      split
      · rfl
      · rename_i named
        rw [if_neg named] at zero
        exact absurd zero named
    rw [if_pos zero, Except.ok_bind]
    dsimp only
    rw [if_pos (Nat.le_refl _), read, same]
  · rw [if_neg zero]

namespace IPv4Fwd

variable {T : Type} [IpLookupTable T] {node : IPv4Fwd} {table : IPv4Table T}

/-- A packet with a route gets its interface and its next hop. -/
theorem dispatchOne_routed {nhop : Ipv4Addr} {ifindex : Nat}
    (whole : ¬(frame.drop etherHdrLen).length < iphdrMinLen)
    (hit : table.route (ipAt (frame.drop etherHdrLen) iphdrDaddrOff) = some (nhop, ifindex)) :
    node.dispatchOne table (parsedPacket p ptr before frame after long) =
      .ok (node, [(.encapMux, { parsedPacket p ptr before frame after long with
          outIfindex := ifindex
          outL3addr := Router.nextHop (frame.drop etherHdrLen) nhop })]) := by
  rw [dispatchOne, parsedPacket_getL3 whole, Except.ok_bind]
  dsimp only
  rw [if_neg (Nat.lt_irrefl _), parsedPacket_readIp whole, Except.ok_bind]
  rw [IPv4Table.route] at hit
  unfold Router.nextHop
  split at hit
  · rename_i found
    cases Option.some.inj hit
    rw [found]
    dsimp only
    by_cases zero : nhop = zeroIp
    · simp only [if_pos zero]
    · simp only [if_neg zero]
  · cases hit

/-- A packet without a route is counted. -/
theorem dispatchOne_lost (whole : ¬(frame.drop etherHdrLen).length < iphdrMinLen)
    (lost : table.route (ipAt (frame.drop etherHdrLen) iphdrDaddrOff) = none) :
    node.dispatchOne table (parsedPacket p ptr before frame after long) =
      .ok ({ node with noRoute := node.noRoute + 1 }, []) := by
  rw [dispatchOne, parsedPacket_getL3 whole, Except.ok_bind]
  dsimp only
  rw [if_neg (Nat.lt_irrefl _), parsedPacket_readIp whole, Except.ok_bind]
  rw [IPv4Table.route] at lost
  cases found : IpLookupTable.longestMatch table.root (ipAt (frame.drop etherHdrLen) iphdrDaddrOff) with
  | none => rfl
  | some hit =>
    obtain ⟨prefix', len, ⟨next⟩⟩ := hit
    rw [found] at lost
    cases next with
    | adjacency nhop ifindex => cases lost
    | ipv4Leaf next => rfl
    | interface intf => rfl

end IPv4Fwd

end Headers

namespace EthEncap

variable {σ : Type} [PacketPool σ] {node : EthEncap} {pool : σ} {p q : Packet}

theorem setL2_outIfindex {done : Bool} {len : Nat} (run : p.setL2 len = .ok (done, q)) :
    q.outIfindex = p.outIfindex := by
  obtain ⟨part, -, run⟩ := Except.bind_ok_iff.mp run
  split at run
  · cases Except.ok.inj run
    rfl
  · cases Except.ok.inj run
    rfl

/-- Bytes that fit in front of a packet take nothing from the pool. -/
theorem prepend_fits {part : Particle} {rest : List Particle} {bytes : List UInt8} (sound : p.Sound)
    (chain : p.particle = part :: rest) (enough : bytes.length ≤ part.head)
    (fits : p.length + bytes.length < 2 ^ 64) : ∃ part', part'.head = part.head - bytes.length ∧
      p.prepend pool bytes =
        .ok (true, { p with particle := part' :: rest, length := p.length + bytes.length }, pool) := by
  have inBounds : part.InBounds := sound.chained.inBounds part (by rw [chain]; exact List.mem_cons_self ..)
  obtain ⟨part', head, loop⟩ := Packet.prependLoop_fits rest pool (2 * bytes.length) inBounds (le_refl bytes.length)
    enough
  refine ⟨part', head, ?_⟩
  rw [Packet.prepend, chain, loop, Except.ok_bind]
  dsimp only
  rw [if_pos rfl, add64_ok.mpr ⟨fits, rfl⟩, Except.ok_bind]

/-- A packet for a known next hop leaves by its interface with a link header. -/
theorem dispatchOne_known [LawfulPool σ] {mac : EthMacRaw} {part : Particle} {rest : List Particle}
    (known : node.mac p.outL3addr = some mac) (dst : mac.bytes.length = ethAlen)
    (src : node.intf.l2Addr.length = ethAlen) (sound : p.Sound) (chain : p.particle = part :: rest)
    (room : etherHdrLen ≤ part.head) (fits : p.length + etherHdrLen < 2 ^ 64) :
    ∃ frame, node.dispatchOne pool p = .ok ([(.tx, frame)], pool) ∧ frame.Sound ∧
      frame.content = mac.bytes ++ node.intf.l2Addr ++ toBeBytes ethTypeIpv4 ++ p.content ∧
      frame.outIfindex = p.outIfindex := by
  unfold etherHdrLen at room fits
  have six : node.intf.l2Addr.length = 6 := src
  have six' : mac.bytes.length = 6 := dst
  have two : (toBeBytes ethTypeIpv4).length = 2 := rfl
  obtain ⟨part₁, head₁, run₁⟩ := @prepend_fits _ _ pool p part rest (toBeBytes ethTypeIpv4) sound chain (by omega)
    (by omega)
  obtain ⟨sound₁, content₁⟩ := sound.prepend run₁
  obtain ⟨part₂, head₂, run₂⟩ := @prepend_fits _ _ pool _ part₁ rest node.intf.l2Addr sound₁ rfl (by omega)
    (by change p.length + 2 + _ < _; omega)
  obtain ⟨sound₂, content₂⟩ := sound₁.prepend run₂
  obtain ⟨part₃, -, run₃⟩ := @prepend_fits _ _ pool _ part₂ rest mac.bytes sound₂ rfl (by omega)
    (by change p.length + 2 + _ + _ < _; omega)
  obtain ⟨sound₃, content₃⟩ := sound₂.prepend run₃
  obtain ⟨done, frame, set, sound₄, content₄⟩ := Packet.setL2_ok sound₃ ethAlen
  refine ⟨frame, ?_, sound₄, ?_, (setL2_outIfindex set).trans rfl⟩
  · simp only [dispatchOne, known, addEthHdr, run₁, run₂, run₃, slice_whole src, set, Except.ok_bind]
    rfl
  · rw [content₄, content₃, content₂, content₁, List.append_assoc, List.append_assoc]

/-- For any other it asks. -/
theorem dispatchOne_unknown [SizedPool σ] {target : List UInt8} (unknown : node.mac p.outL3addr = none)
    (asked : requestTarget p = .ok target) (length : target.length = 4) (src : node.intf.l2Addr.length = ethAlen)
    (size : arpBytes ≤ PacketPool.particleSz pool) : (PacketPool.pkt pool 0).1 = none ∧
        node.dispatchOne pool p = .ok ([], (PacketPool.pkt pool 0).2) ∨
      (PacketPool.pkt pool 0).1.isSome ∧ ∃ request,
        node.dispatchOne pool p = .ok ([(.tx, request)], (PacketPool.pkt pool 0).2) ∧ request.Sound ∧
        request.content = arpFrame arpOpcodeReq bcastMac node.intf.l2Addr node.intf.ipv4Addr zeroMac target ∧
        request.outIfindex = node.intf.ifindex := by
  simp only [dispatchOne, unknown, doArpRequest, asked]
  cases allocated : PacketPool.pkt pool 0 with
  | mk pkt pool' =>
    cases pkt with
    | none =>
      refine Or.inl ⟨rfl, ?_⟩
      rw [makeArp, allocated]
      rfl
    | some pkt =>
      obtain ⟨request, made, sound, content, ifindex⟩ := makeArp_ok arpOpcodeReq allocated size src
        (rfl : bcastMac.length = ethAlen) (rfl : zeroMac.length = ethAlen) length
      refine Or.inr ⟨rfl, request, ?_, sound, content, ifindex⟩
      rw [made]
      rfl

end EthEncap

theorem IPv4Table.route_some {T : Type} [IpLookupTable T] {table : IPv4Table T} {ip nhop : Ipv4Addr} {ifindex : Nat}
    (hit : table.route ip = some (nhop, ifindex)) :
    ∃ found len, IpLookupTable.longestMatch table.root ip = some (found, len, ⟨.adjacency nhop ifindex⟩) := by
  rw [route] at hit
  split at hit
  · rename_i found
    cases Option.some.inj hit
    exact ⟨_, _, found⟩
  · cases hit

namespace Path

variable {T σ : Type} [IpLookupTable T] [PacketPool σ] [SteadyPool σ] {path : Path T σ}
variable {p : Packet} {ptr : Nat} {before frame after : List UInt8} {long : etherHdrLen ≤ frame.length}

omit [PacketPool σ] [SteadyPool σ] in
theorem router_counted {path' : Path T σ} (reason : Reason) (own : path'.decap.intf = path.decap.intf)
    (heard : path'.decap.mac = path.decap.mac) (told : path'.decap.sender = path.decap.sender)
    (table : path'.table = path.table) (encap : path'.encap = path.encap)
    (tally : ∀ other, path'.tally other = path.tally other + if other = reason then 1 else 0) :
    path'.router = path.router.count reason := by
  simp only [router, Router.count, own, heard, told, table, encap, tally_count reason tally]

omit [PacketPool σ] [SteadyPool σ] in
theorem router_kept {path' : Path T σ} (decap : path'.decap = path.decap) (parse : path'.parse = path.parse)
    (fwd : path'.fwd = path.fwd) (table : path'.table = path.table) (encap : path'.encap = path.encap) :
    path'.router = path.router := by
  have tally : path'.tally = path.tally := by
    funext reason
    cases reason <;> simp [Path.tally, decap, parse, fwd]
  simp only [router, decap, table, encap, tally]

/-- The packet with a route at `EncapMux`. -/
theorem atEncap_attends {nhop : Ipv4Addr} {ifindex : Nat} (service : path.InService) (counted : p.length = frame.length)
    (bounded : frame.length < 2 ^ 64) (whole : ¬(frame.drop etherHdrLen).length < iphdrMinLen)
    (hit : path.table.route (ipAt (frame.drop etherHdrLen) iphdrDaddrOff) = some (nhop, ifindex)) :
    ∃ path', path.atEncap { parsedPacket p ptr before frame after long with
          outIfindex := ifindex
          outL3addr := Router.nextHop (frame.drop etherHdrLen) nhop } = .ok path' ∧
      path.Became path' (path.router.forward (frame.drop etherHdrLen)).1
        ((path.router.forward (frame.drop etherHdrLen)).2.toList.filter fun e =>
          !e.built || (PacketPool.pkt path.pool 0).1.isSome) := by
  have small : ifindex < Control.maxInterfaces := by
    obtain ⟨found, len, found_eq⟩ := IPv4Table.route_some hit
    exact service.inRange _ _ _ _ _ found_eq
  have sound : (parsedPacket p ptr before frame after long).Sound := parsedPacket_sound counted
  have content : (parsedPacket p ptr before frame after long).content = frame.drop etherHdrLen := parsedPacket_content
  rw [atEncap, EncapMux.dispatchOne, if_pos small, Except.ok_bind]
  dsimp only
  cases plugged : path.encap ifindex with
  | none =>
    have link : path.router.link ifindex = none := congrArg (Option.map _) plugged
    rw [Router.forward_unplugged whole hit link]
    exact ⟨_, rfl, .same rfl service.connected (Or.inl rfl) rfl⟩
  | some node =>
    have link : path.router.link ifindex = some (node.intf.port, node.mac) := congrArg (Option.map _) plugged
    have src := service.encap ifindex node plugged
    dsimp only
    cases neighbour : node.mac (Router.nextHop (frame.drop etherHdrLen) nhop) with
    | some mac =>
      obtain ⟨q, run, sound', content', ifindex'⟩ := @EthEncap.dispatchOne_known _ _ node path.pool
        { parsedPacket p ptr before frame after long with
          outIfindex := ifindex
          outL3addr := Router.nextHop (frame.drop etherHdrLen) nhop } _ mac _ _ neighbour
        (service.macs ifindex node _ mac plugged neighbour) src ⟨sound.chained, sound.length⟩ rfl
        (Nat.le_add_left ..) (by
          change ((p.length : Int) - etherHdrLen).toNat + etherHdrLen < _
          omega)
      rw [Router.forward_known whole hit link neighbour, run]
      refine ⟨_, rfl, .sent (router_kept rfl rfl rfl rfl rfl) service.connected (Or.inl rfl) rfl sound'.chained
        ifindex' ?_⟩
      rw [content']
      exact congrArg _ content
    | none =>
      have size := Nat.le_of_add_left_le service.room
      obtain ⟨empty, run⟩ | ⟨some, request, run, sound', content', ifindex'⟩ :=
        EthEncap.dispatchOne_unknown neighbour (requestTarget_parsed whole) rfl src size
      · rw [Router.forward_unknown whole hit link neighbour, run, empty]
        exact ⟨_, rfl, .same (router_kept rfl rfl rfl rfl rfl) service.connected (Or.inr rfl) (List.append_nil _)⟩
      · rw [Router.forward_unknown whole hit link neighbour, run, some]
        exact ⟨_, rfl, .sent (router_kept rfl rfl rfl rfl rfl) service.connected (Or.inr rfl) rfl sound'.chained
          (ifindex'.trans (service.plugged ifindex node plugged)) content'⟩

/-- The packet of a frame for this interface at `IPv4Parse`. -/
theorem atParse_attends (service : path.InService) (counted : p.length = frame.length)
    (bounded : frame.length < 2 ^ 64) :
    ∃ path', path.atParse (EthDecap.pulledPacket p ptr before frame after long) = .ok path' ∧
      path.Became path' (path.router.forward (frame.drop etherHdrLen)).1
        ((path.router.forward (frame.drop etherHdrLen)).2.toList.filter fun e =>
          !e.built || (PacketPool.pkt path.pool 0).1.isSome) := by
  rw [atParse, IPv4Parse.dispatchOne_pulled]
  by_cases short : (frame.drop etherHdrLen).length < iphdrMinLen
  · rw [if_pos short, Router.forward_short short]
    refine ⟨_, rfl, .same (router_counted .badPkt rfl rfl rfl rfl rfl fun other => ?_) service.connected (Or.inl rfl)
      rfl⟩
    cases other <;> rfl
  · rw [if_neg short, Except.ok_bind]
    dsimp only
    rw [List.foldlM_cons]
    dsimp only
    rw [atFwd]
    cases hit : path.table.route (ipAt (frame.drop etherHdrLen) iphdrDaddrOff) with
    | none =>
      rw [IPv4Fwd.dispatchOne_lost short hit, Router.forward_lost short hit]
      refine ⟨_, rfl, .same (router_counted .noRoute rfl rfl rfl rfl rfl fun other => ?_) service.connected (Or.inl rfl)
        rfl⟩
      cases other <;> rfl
    | some next =>
      obtain ⟨path', run, became⟩ := @atEncap_attends _ _ _ _ _ path p ptr before frame after long next.1 next.2 service
        counted bounded short hit
      refine ⟨path', ?_, became⟩
      rw [IPv4Fwd.dispatchOne_routed short hit, Except.ok_bind]
      dsimp only
      rw [List.foldlM_cons]
      dsimp only
      rw [run]
      rfl

/-- A frame at `EthDecap`, an ARP frame when it is a whole one. -/
theorem atDecap_attends (service : path.InService) (long : etherHdrLen ≤ frame.length)
    (whole : be16At frame EthOffsets.ethTypeOff.off = ethTypeArp → arpBytes ≤ frame.length)
    (counted : p.length = frame.length) (bounded : frame.length < 2 ^ 64) :
    ∃ path', path.atDecap (p.framed ptr before frame after) = .ok path' ∧
      path.Became path' (path.router.step frame).1
        ((path.router.step frame).2.toList.filter fun e => !e.built || (PacketPool.pkt path.pool 0).1.isSome) := by
  by_cases arp : be16At frame EthOffsets.ethTypeOff.off = ethTypeArp
  · rw [Router.step, if_pos arp]
    exact atDecap_arp service arp (whole arp)
  · have type : readBe16 frame EthOffsets.ethTypeOff.off = .ok (be16At frame EthOffsets.ethTypeOff.off) :=
      readBe16_eq long
    have daddr : slice frame EthOffsets.ethDaddrOff.off (EthOffsets.ethDaddrOff.off + ethAlen) =
        .ok (macAt frame EthOffsets.ethDaddrOff.off) := slice_mac (Nat.le_trans (by decide) long)
    rw [Router.step, if_neg arp, atDecap, EthDecap.dispatchOne_framed long, type, Except.ok_bind, if_neg arp,
      slice_whole service.decap, Except.ok_bind, daddr, Except.ok_bind]
    by_cases mine : path.decap.intf.l2Addr = macAt frame EthOffsets.ethDaddrOff.off
    · have known : ¬macAt frame EthOffsets.ethDaddrOff.off ≠ path.router.own.mac := not_not_intro mine.symm
      rw [if_neg known, if_neg (not_not_intro mine)]
      by_cases ipv4 : be16At frame EthOffsets.ethTypeOff.off = ethTypeIpv4
      · obtain ⟨path', run, became⟩ := @atParse_attends _ _ _ _ _ path p ptr before frame after long service counted
          bounded
        refine ⟨path', ?_, by rw [if_pos ipv4]; exact became⟩
        rw [if_pos ipv4, Except.ok_bind]
        dsimp only
        rw [List.foldlM_cons]
        dsimp only
        rw [run]
        rfl
      · rw [if_neg ipv4, if_neg ipv4]
        refine ⟨_, rfl, .same (router_counted .unknownEthtype rfl rfl rfl rfl rfl fun other => ?_) service.connected (Or.inl rfl)
          rfl⟩
        cases other <;> rfl
    · have other : macAt frame EthOffsets.ethDaddrOff.off ≠ path.router.own.mac := fun same => mine same.symm
      rw [if_pos other, if_pos mine]
      refine ⟨_, rfl, .same (router_counted .notMyMac rfl rfl rfl rfl rfl fun other => ?_) service.connected (Or.inl rfl)
        rfl⟩
      cases other <;> rfl

/-- A frame that the thread can take makes it what it makes the router. -/
theorem receive_attends (service : path.InService) (handled : path.Handled frame)
    (whole : be16At frame EthOffsets.ethTypeOff.off = ethTypeArp → arpBytes ≤ frame.length) :
    ∃ path', path.receive frame = .ok path' ∧ path'.InService ∧ path.Kept path' ∧
      path'.router = (path.router.attend path.supply frame).1 ∧
      (∀ sent, path.wire = .ok sent → path'.wire =
        .ok (sent ++ (path.router.attend path.supply frame).2.map fun e => (e.ifindex, e.frame))) ∧
      ∀ n, Plenty (n + 3) path.pool → Plenty n path'.pool := by
  obtain ⟨long, fits⟩ := handled
  have arrived : 0 < frame.length := Nat.lt_of_lt_of_le (by decide) long
  have safe := receive_noPanic service.toSane arrived (Or.inr ⟨long, fits⟩)
  suffices attends : ∃ path', path.receive frame = .ok path' ∧ path'.decap.sender.connected = true ∧
      path'.router = (path.router.attend path.supply frame).1 ∧
      (∀ sent, path.wire = .ok sent → path'.wire =
        .ok (sent ++ (path.router.attend path.supply frame).2.map fun e => (e.ifindex, e.frame))) ∧
      ∀ n, Plenty (n + 3) path.pool → Plenty n path'.pool by
    obtain ⟨path', run, connected, router, wire, left⟩ := attends
    have kept : path.Kept path' := safe.ok run
    exact ⟨path', run, service.kept kept connected, kept, router, wire, left⟩
  unfold supply
  cases allocated : PacketPool.pkt path.pool path.ifNode.intf.headroom with
  | mk pkt pool =>
    cases pkt with
    | none =>
      refine ⟨{ path with pool }, ?_, service.connected, rfl, fun sent before => ?_, fun n plenty => ?_⟩
      · rw [receive, vecSize, IfNode.rx_empty 255 allocated]
        rfl
      · exact before.trans (congrArg Except.ok (List.append_nil sent).symm)
      · have left := (@plenty.next _ _ _ path.ifNode.intf.headroom _).2.pred.pred
        rwa [allocated] at left
    | some pkt =>
      obtain ⟨q, ptr, before, after, received, counted, size⟩ := IfNode.rx_counts 254 allocated arrived fits
      have steady : PacketPool.particleSz (PacketPool.pkt pool path.ifNode.intf.headroom).2 =
          PacketPool.particleSz path.pool :=
        (SteadyPool.pkt_steady pool _).trans (Packet.pkt_steady allocated)
      have start : path.Kept { path with pool := (PacketPool.pkt pool path.ifNode.intf.headroom).2 } :=
        ⟨rfl, rfl, rfl, rfl, steady⟩
      obtain ⟨path', run, became⟩ := @atDecap_attends _ _ _ _ _ _ q ptr before frame after
        (service.kept start service.connected) long whole counted (Nat.lt_of_le_of_lt (by omega) service.bounded)
      refine ⟨path', ?_, became.connected, became.router, fun sent before => became.wire sent before,
        fun n plenty => ?_⟩
      · rw [receive, vecSize, received, Except.ok_bind]
        dsimp only
        rw [List.foldlM_cons]
        dsimp only
        rw [run]
        rfl
      · obtain ⟨-, two⟩ := @plenty.next _ _ _ path.ifNode.intf.headroom _
        rw [allocated] at two
        obtain ⟨-, one⟩ := @two.next _ _ _ path.ifNode.intf.headroom _
        rcases became.pool with same | taken
        · rw [same]
          exact one.pred
        · rw [taken]
          exact one.next.2

omit [IpLookupTable T] [SteadyPool σ] in
theorem supply_of_plenty {n : Nat} (plenty : Plenty (n + 3) path.pool) : path.supply = ⟨true, true⟩ := by
  obtain ⟨some, plenty⟩ := @plenty.next _ _ _ path.ifNode.intf.headroom _
  obtain ⟨-, plenty⟩ := @plenty.next _ _ _ path.ifNode.intf.headroom _
  simp only [supply, some, plenty.next.1]

end Path

section Example

def pingIntf (i : Bool) : Interface :=
  ⟨"eth0", 3, 0, 1500, ⟨10, 0, 0, if i then 2 else 1⟩, 24, [2, 0, 0, 0, 0, if i then 2 else 1], Control.maxHeadroom⟩

def deepHeap : PktsHeap where
  allocFail := 0
  pkts := List.replicate 6 (received [])
  particles := List.replicate 6 ⟨0, List.replicate 3072 0, 0, 0, Particle.empty_le⟩
  particleSz := 3072
  sized p member := by
    rw [List.eq_of_mem_replicate member]
    exact List.length_replicate

/-- Two routers whose default routes lead to each other. -/
def pingPath (i : Bool) : Path RouteList PktsHeap where
  ifNode := ⟨pingIntf i⟩
  decap := ⟨pingIntf i, fun _ => none, ⟨true, []⟩, 0, 0, 0, 0, 0⟩
  parse := ⟨0⟩
  fwd := ⟨.table1, 0, 0⟩
  table := ⟨⟨[(⟨zeroIp, 0⟩, ⟨.adjacency (pingIntf !i).ipv4Addr 3⟩)]⟩⟩
  encap port := if port = 3 then some ⟨pingIntf i, fun _ => some ⟨(pingIntf !i).l2Addr⟩, 0⟩ else none
  pool := deepHeap
  tx := []

theorem masked_zero (ip : Ipv4Addr) : ip.masked 0 = ⟨zeroIp, 0⟩ := by
  have small : ip.toNat < 2 ^ 32 := by
    have := ip.a.toNat_lt
    have := ip.b.toNat_lt
    have := ip.c.toNat_lt
    have := ip.d.toNat_lt
    unfold Ipv4Addr.toNat
    omega
  rw [Ipv4Addr.masked, Nat.sub_zero, Nat.div_eq_of_lt small, Nat.zero_mul]
  rfl

theorem pingPath_lookup (i : Bool) (key : Prefix) : (pingPath i).table.root.lookup key =
    if key = ⟨zeroIp, 0⟩ then some ⟨.adjacency (pingIntf !i).ipv4Addr 3⟩ else none := by
  change List.lookup key [(⟨zeroIp, 0⟩, _)] = _
  rw [List.lookup_cons, List.lookup_nil]
  by_cases here : key = ⟨zeroIp, 0⟩
  · rw [here, beq_self_eq_true, if_pos rfl]
  · rw [beq_false_of_ne here, if_neg here]

/-- Every address has the default route. -/
theorem pingPath_longestMatch (i : Bool) (ip : Ipv4Addr) :
    IpLookupTable.longestMatch (pingPath i).table.root ip =
      some (zeroIp, 0, ⟨.adjacency (pingIntf !i).ipv4Addr 3⟩) := by
  change Routes.longestMatch (pingPath i).table.root.lookup ip = _
  have lengths : (List.range 33).reverse = (List.range' 1 32).reverse ++ [0] := rfl
  have longer : (List.range' 1 32).reverse.findSome? (fun len =>
      ((pingPath i).table.root.lookup (ip.masked len)).map fun leaf => ((ip.masked len).addr, len, leaf)) = none := by
    refine List.findSome?_eq_none_iff.mpr fun len member => ?_
    have positive : len ≠ 0 := by
      have := List.mem_range'_1.mp (List.mem_reverse.mp member)
      omega
    rw [pingPath_lookup, if_neg fun same => positive (congrArg Prefix.len same), Option.map_none]
  rw [Routes.longestMatch, lengths, List.findSome?_append, longer, Option.none_or, List.findSome?_singleton,
    masked_zero, pingPath_lookup, if_pos rfl, Option.map_some]

theorem pingPath_encap {i : Bool} {port : Nat} {node : EthEncap} (plugged : (pingPath i).encap port = some node) :
    port = 3 ∧ node = ⟨pingIntf i, fun _ => some ⟨(pingIntf !i).l2Addr⟩, 0⟩ := by
  change (if port = 3 then _ else none) = _ at plugged
  split at plugged
  · exact ⟨‹_›, (Option.some.inj plugged).symm⟩
  · cases plugged

theorem pingPath_service (i : Bool) : (pingPath i).InService where
  room := by cases i <;> decide
  decap := by cases i <;> rfl
  encap port node plugged := by
    rw [(pingPath_encap plugged).2]
    cases i <;> rfl
  inRange ip found len nhop ifindex hit := by
    rw [pingPath_longestMatch] at hit
    cases Option.some.inj hit
    decide
  bounded := by cases i <;> decide
  connected := rfl
  plugged port node plugged := by
    obtain ⟨rfl, rfl⟩ := pingPath_encap plugged
    rfl
  macs port node ip mac plugged known := by
    obtain ⟨-, rfl⟩ := pingPath_encap plugged
    cases Option.some.inj known
    cases i <;> rfl

end Example

end R2
