import R2.Eth.Arp

namespace R2

/-- `q` holds `bytes`, received into one particle. -/
structure Packet.Delivers (q : Packet) (bytes : List UInt8) : Prop where
  sound : q.Sound
  single : ∃ p, q.particle = [p]
  content : q.content = bytes

theorem Packet.pullL2_fits {q : Packet} {p : Particle} {rest : List Particle} {n : Nat}
    (chain : q.particle = p :: rest) (short : n < 2 ^ 63) (fits : n ≤ p.len) : ∃ p' length, p'.raw = p.raw ∧
      q.pullL2 n = .ok (n, { q with particle := p' :: rest, length := length, l2 := p.head, l2Len := n }) := by
  obtain ⟨p', moved, same⟩ := Particle.moveHead_fits fits
  have exactly : Particle.toIsize n = n := if_pos short
  refine ⟨p', ((q.length : Int) - n).toNat, same, ?_⟩
  simp only [Packet.pullL2, Packet.first, chain, Except.ok_bind, exactly, Packet.moveHead, moved]
  rw [if_neg (not_not_intro rfl), Except.ok_bind]
  dsimp only
  rw [if_neg (not_not_intro rfl)]

/-- What `dispatch` works with after it has pulled the header: the slice runs
on to the end of the buffer, past the frame. -/
theorem Packet.Delivers.pull {q : Packet} {bytes : List UInt8} (delivers : q.Delivers bytes)
    (long : etherHdrLen ≤ bytes.length) : ∃ q' junk, q.pullL2 etherHdrLen = .ok (etherHdrLen, q') ∧
      q'.getL2 = .ok (bytes ++ junk, etherHdrLen) ∧ q'.content = bytes.drop etherHdrLen := by
  obtain ⟨sound, ⟨p, single⟩, content⟩ := delivers
  have inBounds : p.InBounds := sound.chained.inBounds p (by rw [single]; exact List.mem_singleton_self p)
  have whole : p.content = bytes := by
    rw [← content, Packet.content, single, chainContent_cons, chainContent_nil, List.append_nil]
  have size := Particle.content_length inBounds
  rw [whole] at size
  obtain ⟨p', length, same, pulled⟩ := Packet.pullL2_fits single (by decide) (size ▸ long)
  have pulled' := sound.pull (fun q h => { q with l2 := h, l2Len := etherHdrLen }) (by decide) (fun _ _ => ⟨rfl, rfl⟩)
    pulled
  refine ⟨_, p.raw.drop p.tail, pulled, ?_, by rw [pulled'.2.2, content]⟩
  have inside : ¬p'.raw.length ≤ p.head := by
    have positive : 0 < etherHdrLen := by decide
    unfold Particle.len at size
    unfold Particle.InBounds at inBounds
    rw [same]
    omega
  have raw : p'.dataRaw p.head = bytes ++ p.raw.drop p.tail := by
    rw [Particle.dataRaw, if_neg inside, same, drop_eq_window_append p.head_le_tail inBounds, ← whole,
      Particle.content]
  have covers : ¬(bytes ++ p.raw.drop p.tail).length < etherHdrLen := by
    rw [List.length_append]
    omega
  have present : ¬etherHdrLen = 0 := by decide
  simp only [Packet.getL2, Packet.first, if_neg present, Except.ok_bind, raw, if_neg covers]

theorem Packet.setL2_ok {pkt : Packet} (sound : pkt.Sound) (len : Nat) :
    ∃ done q, pkt.setL2 len = .ok (done, q) ∧ q.Sound ∧ q.content = pkt.content := by
  obtain ⟨p, rest, chain⟩ := List.exists_cons_of_ne_nil sound.chained.nonempty
  have first : pkt.first = .ok p := by rw [Packet.first, chain]
  rw [Packet.setL2, first, Except.ok_bind]
  split
  · exact ⟨_, _, rfl, ⟨sound.chained, sound.length⟩, rfl⟩
  · exact ⟨_, _, rfl, sound, rfl⟩

namespace EthEncap

variable {σ : Type} [PacketPool σ] {node : EthEncap} {pool pool' : σ} {p : Packet}

theorem dispatch_one {pushed : List (Next × Packet)} (one : node.dispatchOne pool p = .ok (pushed, pool')) :
    node.dispatch pool [p] = .ok (pushed, pool') := by
  simp only [dispatch, one, Except.ok_bind, List.append_nil]

theorem macAdd_new {ip : Ipv4Addr} {mac : EthMacRaw} (long : mac.bytes.length = ethAlen)
    (vacant : node.mac ip = none) :
    (node.macAdd ip mac).mac ip = some mac ∧ (node.macAdd ip mac).intf = node.intf := by
  have fits : ¬mac.bytes.length < ethAlen := by omega
  rw [macAdd, if_neg fits]
  exact ⟨MacTable.orInsert_vacant vacant, rfl⟩

/-- A packet for an unknown next hop is answered by a request for it. -/
theorem dispatch_unknown [SizedPool σ] {pkt : Packet} (unknown : node.mac p.outL3addr = none)
    (named : p.outL3addr ≠ zeroIp) (src : node.intf.l2Addr.length = ethAlen)
    (allocated : PacketPool.pkt pool 0 = (some pkt, pool')) (size : arpBytes ≤ PacketPool.particleSz pool) :
    ∃ request, node.doArpRequest pool p = .ok (some request, pool') ∧
      node.dispatch pool [p] = .ok ([(.tx, request)], pool') ∧ request.Sound ∧
      request.content = arpFrame arpOpcodeReq bcastMac node.intf.l2Addr node.intf.ipv4Addr zeroMac
        p.outL3addr.octets := by
  obtain ⟨request, made, sound, content, -⟩ := makeArp_ok arpOpcodeReq allocated size src
    (rfl : bcastMac.length = ethAlen) (rfl : zeroMac.length = ethAlen) (rfl : p.outL3addr.octets.length = 4)
  have asked : node.doArpRequest pool p = .ok (some request, pool') := by
    rw [doArpRequest, requestTarget, if_neg named, made]
  refine ⟨request, asked, dispatch_one ?_, sound, content⟩
  simp only [dispatchOne, unknown, asked, Except.ok_bind]
  rfl

/-- A packet for a known next hop leaves with an Ethernet header. -/
theorem dispatch_known [LawfulPool σ] {mac : EthMacRaw} (known : node.mac p.outL3addr = some mac)
    (dst : mac.bytes.length = ethAlen) (src : node.intf.l2Addr.length = ethAlen) (sound : p.Sound)
    (room : Packet.Room etherHdrLen p pool) (fits : p.length + etherHdrLen < 2 ^ 64) :
    ∃ frame pool', node.dispatch pool [p] = .ok ([(.tx, frame)], pool') ∧ frame.Sound ∧
      frame.content = mac.bytes ++ node.intf.l2Addr ++ toBeBytes ethTypeIpv4 ++ p.content := by
  unfold etherHdrLen at fits
  have six : node.intf.l2Addr.length = 6 := src
  have six' : mac.bytes.length = 6 := dst
  have first : Packet.Room ((toBeBytes ethTypeIpv4).length + 12) p pool := room
  obtain ⟨chain₁, pool₁, room₁, run₁⟩ := first.prepend sound (by change _ + 2 < _; omega)
  obtain ⟨sound₁, content₁⟩ := sound.prepend run₁
  rw [show 12 = node.intf.l2Addr.length + 6 by omega] at room₁
  obtain ⟨chain₂, pool₂, room₂, run₂⟩ := Packet.Room.prepend sound₁ room₁
    (by change p.length + 2 + _ < _; omega)
  obtain ⟨sound₂, content₂⟩ := sound₁.prepend run₂
  rw [show 6 = mac.bytes.length + 0 by omega] at room₂
  obtain ⟨chain₃, pool₃, -, run₃⟩ := Packet.Room.prepend sound₂ room₂
    (by change p.length + 2 + _ + _ < _; omega)
  obtain ⟨sound₃, content₃⟩ := sound₂.prepend run₃
  obtain ⟨done, frame, set, sound₄, content₄⟩ := Packet.setL2_ok sound₃ ethAlen
  refine ⟨frame, pool₃, dispatch_one ?_, sound₄, ?_⟩
  · have header : node.addEthHdr pool p mac = .ok (true, frame, pool₃) := by
      simp only [addEthHdr, run₁, run₂, run₃, slice_whole src, set, Except.ok_bind]
      rfl
    simp only [dispatchOne, known, header, Except.ok_bind]
    rfl
  · rw [content₄, content₃, content₂, content₁, List.append_assoc, List.append_assoc]

end EthEncap

namespace EthDecap

variable {σ : Type} [PacketPool σ] {node : EthDecap} {pool pool' : σ} {q : Packet}
variable {daddr saddr targetMac targetIp : List UInt8} {senderIp : Ipv4Addr}

theorem dispatch_one {node' : EthDecap} {pushed : List (Next × Packet)}
    (one : node.dispatchOne pool q = .ok (node', pushed, pool')) :
    node.dispatch pool [q] = .ok (node', pushed, pool') := by
  simp only [dispatch, one, Except.ok_bind, List.append_nil]

@[simp] theorem macLearn_intf (ip : Ipv4Addr) (mac : List UInt8) : (node.macLearn ip mac).intf = node.intf := by
  unfold macLearn
  split
  · rfl
  · dsimp only
    split <;> rfl

/-- An address heard for the first time is stored and reported. -/
theorem macLearn_new {ip : Ipv4Addr} (mac : List UInt8) (vacant : node.mac ip = none) :
    (node.macLearn ip mac).mac ip = some ⟨mac⟩ ∧ (node.sender.connected = true →
      (node.macLearn ip mac).sender.sent = node.sender.sent ++ [.ethMacAdd ⟨node.intf.ifindex, ip, ⟨mac⟩⟩]) := by
  unfold macLearn
  simp only [vacant, Sender.send]
  refine ⟨?_, fun connected => ?_⟩
  · split <;> exact MacTable.orInsert_vacant vacant
  · simp only [connected, if_true]

/-- An ARP frame is handed to `process_arp` with its fields readable. -/
theorem dispatch_arp {opcode : Nat} {node' : EthDecap} (arp : Option Packet)
    (delivers : q.Delivers (arpFrame opcode daddr saddr senderIp targetMac targetIp)) (op : opcode < 2 ^ 16)
    (dst : daddr.length = ethAlen) (src : saddr.length = ethAlen) (tgt : targetMac.length = ethAlen)
    (ip : targetIp.length = 4)
    (processed : ∀ mac, ReadsArp mac opcode saddr senderIp targetMac targetIp →
      node.processArp pool mac = .ok (node', arp, pool')) :
    node.dispatch pool [q] = .ok (node', arp.toList.map (fun pkt => (.tx, pkt)), pool') := by
  have length := arpFrame_length opcode senderIp dst src tgt ip
  have long : etherHdrLen ≤ arpBytes := by decide
  obtain ⟨q', junk, pulled, header, -⟩ := delivers.pull (length ▸ long)
  have reads := arpFrame_reads senderIp dst src tgt ip op junk
  apply dispatch_one
  simp only [dispatchOne, pulled, header, reads.ethtype, processed _ reads, Except.ok_bind]
  rfl

/-- A request for this interface's address is learned from and answered. -/
theorem dispatch_request [SizedPool σ] {pkt : Packet}
    (delivers : q.Delivers (arpFrame arpOpcodeReq daddr saddr senderIp targetMac node.intf.ipv4Addr.octets))
    (dst : daddr.length = ethAlen) (src : saddr.length = ethAlen) (tgt : targetMac.length = ethAlen)
    (own : node.intf.l2Addr.length = ethAlen) (allocated : PacketPool.pkt pool 0 = (some pkt, pool'))
    (size : arpBytes ≤ PacketPool.particleSz pool) : ∃ reply,
      node.dispatch pool [q] = .ok (node.macLearn senderIp saddr, [(.tx, reply)], pool') ∧ reply.Sound ∧
      reply.content = arpFrame arpOpcodeReply saddr node.intf.l2Addr node.intf.ipv4Addr saddr senderIp.octets := by
  obtain ⟨reply, made, sound, content, -⟩ := makeArp_ok arpOpcodeReply allocated size own src src
    (rfl : senderIp.octets.length = 4)
  refine ⟨reply, dispatch_arp (some reply) delivers (by decide) dst src tgt rfl fun mac reads => ?_, sound, content⟩
  have other : ¬arpOpcodeReq = arpOpcodeReply := by decide
  simp only [processArp, reads.opcode, reads.proto, Except.ok_bind, other, false_and, if_false, and_self, if_true]
  simp only [processArpReq, reads.targetIp, reads.senderIp, reads.senderMac, Except.ok_bind, ne_eq, not_true_eq_false,
    if_false, doArpReply, macLearn_intf, made]

/-- A reply to this interface is learned from. -/
theorem dispatch_reply
    (delivers : q.Delivers (arpFrame arpOpcodeReply daddr saddr senderIp node.intf.l2Addr node.intf.ipv4Addr.octets))
    (dst : daddr.length = ethAlen) (src : saddr.length = ethAlen) (own : node.intf.l2Addr.length = ethAlen) :
    node.dispatch pool [q] = .ok (node.macLearn senderIp saddr, [], pool) := by
  refine dispatch_arp none delivers (by decide) dst src own rfl fun mac reads => ?_
  simp only [processArp, reads.opcode, reads.proto, Except.ok_bind, and_self, if_true]
  simp only [processArpReply, reads.targetIp, reads.targetMac, reads.senderIp, reads.senderMac, slice_whole own,
    Except.ok_bind, ne_eq, not_true_eq_false, if_false]

/-- An IPv4 frame for this interface is passed on without its header. -/
theorem dispatch_ipv4 {payload : List UInt8}
    (delivers : q.Delivers (node.intf.l2Addr ++ saddr ++ toBeBytes ethTypeIpv4 ++ payload))
    (own : node.intf.l2Addr.length = ethAlen) (src : saddr.length = ethAlen) : ∃ out,
      node.dispatch pool [q] = .ok (node, [(.l3Ipv4Parse, out)], pool) ∧ out.content = payload := by
  have six : node.intf.l2Addr.length = 6 := own
  have six' : saddr.length = 6 := src
  have two : (toBeBytes ethTypeIpv4).length = 2 := rfl
  have header : (node.intf.l2Addr ++ saddr ++ toBeBytes ethTypeIpv4).length = etherHdrLen := by
    simp only [List.length_append, six, six', two]
    rfl
  obtain ⟨q', junk, pulled, slice, content⟩ := delivers.pull (by rw [List.length_append]; omega)
  have ethtype : readBe16 (node.intf.l2Addr ++ saddr ++ toBeBytes ethTypeIpv4 ++ payload ++ junk)
      EthOffsets.ethTypeOff.off = .ok ethTypeIpv4 := by
    refine readBe16_of_window ?_ (by decide)
    rw [List.append_assoc _ payload]
    exact window_middle (by rw [List.length_append, six, six']; rfl) rfl
  have daddr : R2.slice (node.intf.l2Addr ++ saddr ++ toBeBytes ethTypeIpv4 ++ payload ++ junk)
      EthOffsets.ethDaddrOff.off (EthOffsets.ethDaddrOff.off + ethAlen) = .ok node.intf.l2Addr := by
    refine slice_of_window ?_ ?_
    · simp only [List.append_assoc]
      change window ([] ++ node.intf.l2Addr ++ _) _ _ = _
      exact window_middle rfl (by rw [own])
    · simp only [List.length_append, six]
      change 0 + 6 ≤ _
      omega
  refine ⟨q', dispatch_one ?_, ?_⟩
  · have other : ¬ethTypeIpv4 = ethTypeArp := by decide
    simp only [dispatchOne, pulled, slice, ethtype, daddr, slice_whole own, Except.ok_bind, ne_eq, not_true_eq_false,
      if_false, if_neg other, if_true]
  · rw [content, ← header, List.drop_left]

end EthDecap

end R2
