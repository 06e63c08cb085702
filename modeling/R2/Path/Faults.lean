import R2.Eth.Framed
import R2.Eth.Exchange
import R2.Packet.Steady
import R2.Path.Nodes

namespace R2

variable {σ : Type} [PacketPool σ] [SteadyPool σ]

theorem readIp_ok {raw : List UInt8} {off : Nat} (inside : off + 4 ≤ raw.length) : ∃ ip, readIp raw off = .ok ip := by
  rw [readIp, index, List.getElem?_eq_getElem (by omega : off < raw.length), index,
    List.getElem?_eq_getElem (by omega : off + 1 < raw.length), index,
    List.getElem?_eq_getElem (by omega : off + 2 < raw.length), index,
    List.getElem?_eq_getElem (by omega : off + 3 < raw.length)]
  exact ⟨_, rfl⟩

/-- The interface has a whole link address and the pool's packets hold an ARP frame. -/
structure CanArp (intf : Interface) (pool : σ) : Prop where
  l2Addr : intf.l2Addr.length = ethAlen
  size : arpBytes ≤ PacketPool.particleSz pool

omit [SteadyPool σ] in
theorem CanArp.slice {intf : Interface} {pool : σ} (can : CanArp intf pool) :
    ∃ l2Addr, R2.slice intf.l2Addr 0 ethAlen = .ok l2Addr :=
  ⟨_, EthDecap.slice_within (Nat.zero_le _) (Nat.le_of_eq can.l2Addr.symm)⟩

theorem makeArp_noPanic {intf : Interface} {pool : σ} {daddr targetMac ip : List UInt8} (opcode : Nat)
    (can : CanArp intf pool) (dst : daddr.length = ethAlen) (tgt : targetMac.length = ethAlen)
    (length : ip.length = 4) :
    NoPanic (makeArp intf pool opcode daddr targetMac (.ok ip)) fun out =>
      PacketPool.particleSz out.2 = PacketPool.particleSz pool := by
  cases allocated : PacketPool.pkt pool 0 with
  | mk pkt pool' =>
    have steady := Packet.pkt_steady allocated
    cases pkt with
    | none =>
      rw [makeArp, allocated]
      exact steady
    | some pkt =>
      obtain ⟨frame, made, -⟩ := makeArp_ok opcode allocated can.size can.l2Addr dst tgt length
      rw [made]
      exact steady

namespace EthDecap

variable {node : EthDecap} {pool : σ}

theorem processArpReq_noPanic {m : List UInt8} (can : CanArp node.intf pool) (whole : arpBytes ≤ m.length) :
    NoPanic (node.processArpReq pool m) fun out =>
      out.1.intf = node.intf ∧ PacketPool.particleSz out.2.2 = PacketPool.particleSz pool := by
  have target := slice_within (by decide : EthOffsets.ethTargetIpOff.off ≤ EthOffsets.ethTargetIpOff.off + 4) whole
  obtain ⟨srcIp, sender⟩ := @readIp_ok m EthOffsets.ethSenderIpOff.off (Nat.le_trans (by decide) whole)
  have inside : EthOffsets.ethSenderMacOff.off + ethAlen ≤ m.length := Nat.le_trans (by decide) whole
  have mac := slice_within (Nat.le_add_right EthOffsets.ethSenderMacOff.off ethAlen) inside
  have length : (window m EthOffsets.ethSenderMacOff.off (EthOffsets.ethSenderMacOff.off + ethAlen)).length =
      ethAlen := by
    rw [window_length inside, Nat.add_sub_cancel_left]
  rw [processArpReq]
  dsimp only
  rw [target, Except.ok_bind]
  split
  · exact ⟨rfl, rfl⟩
  · rw [sender, Except.ok_bind, mac, Except.ok_bind, doArpReply, macLearn_intf]
    exact (makeArp_noPanic arpOpcodeReply can length length rfl).bind fun _ steady => ⟨macLearn_intf _ _, steady⟩

omit [SteadyPool σ] in
theorem processArpReply_noPanic {m : List UInt8} (can : CanArp node.intf pool) (whole : arpBytes ≤ m.length) :
    NoPanic (node.processArpReply m) fun node' => node'.intf = node.intf := by
  have target := slice_within (by decide : EthOffsets.ethTargetIpOff.off ≤ EthOffsets.ethTargetIpOff.off + 4) whole
  have targetMac := @slice_within m EthOffsets.ethTargetMacOff.off (EthOffsets.ethTargetMacOff.off + ethAlen)
    (Nat.le_add_right ..) (Nat.le_trans (by decide) whole)
  have mac := @slice_within m EthOffsets.ethSenderMacOff.off (EthOffsets.ethSenderMacOff.off + ethAlen)
    (Nat.le_add_right ..) (Nat.le_trans (by decide) whole)
  obtain ⟨srcIp, sender⟩ := @readIp_ok m EthOffsets.ethSenderIpOff.off (Nat.le_trans (by decide) whole)
  obtain ⟨l2Addr, own⟩ := can.slice
  rw [processArpReply]
  dsimp only
  rw [target, Except.ok_bind]
  split
  · rfl
  · rw [targetMac, Except.ok_bind, own, Except.ok_bind]
    split
    · rfl
    · rw [sender, Except.ok_bind, mac, Except.ok_bind]
      exact macLearn_intf _ _

/-- With the bytes of a whole ARP frame to look at, nothing is out of range. -/
theorem processArp_noPanic {m : List UInt8} (can : CanArp node.intf pool) (whole : arpBytes ≤ m.length) :
    NoPanic (node.processArp pool m) fun out =>
      out.1.intf = node.intf ∧ PacketPool.particleSz out.2.2 = PacketPool.particleSz pool := by
  obtain ⟨op, hasOp⟩ := @readBe16_ok EthOffsets.ethOpcodeOff.off m (Nat.le_trans (by decide) whole)
  obtain ⟨proto, hasProto⟩ := @readBe16_ok EthOffsets.ethProtoOff.off m (Nat.le_trans (by decide) whole)
  rw [processArp, hasOp, Except.ok_bind, hasProto, Except.ok_bind]
  split
  · exact (processArpReply_noPanic can whole).bind fun _ same => ⟨same, rfl⟩
  · split
    · exact processArpReq_noPanic can whole
    · exact ⟨rfl, rfl⟩

variable {p : Packet} {ptr : Nat} {before frame after : List UInt8}

omit [SteadyPool σ] in
/-- A frame without a whole link header fails the assertion on the pull. -/
theorem dispatchOne_short (short : frame.length < etherHdrLen) :
    node.dispatchOne pool (p.framed ptr before frame after) = .error .assertion := by
  have outside : (before.length : Int) + (etherHdrLen : Nat) < 0 ∨
      (before.length : Int) + (etherHdrLen : Nat) > (before.length + frame.length : Nat) := by omega
  have small : Particle.toIsize etherHdrLen = (etherHdrLen : Nat) := rfl
  have moved : (0 : Int) ≠ (etherHdrLen : Nat) := by decide
  have pulled : ∃ q, (p.framed ptr before frame after).pullL2 etherHdrLen = .ok (0, q) := by
    simp only [Packet.pullL2, Packet.framed, Packet.first, Except.ok_bind, Packet.moveHead, Particle.moveHead, small,
      dif_pos outside, if_pos moved]
    exact ⟨_, rfl⟩
  obtain ⟨q, pulled⟩ := pulled
  rw [dispatchOne, pulled, Except.ok_bind]
  rfl

/-- What a frame that gets through is pushed as. -/
theorem dispatchOne_noPanic (can : CanArp node.intf pool) (long : etherHdrLen ≤ frame.length)
    (room : arpBytes ≤ (frame ++ after).length) :
    NoPanic (node.dispatchOne pool (p.framed ptr before frame after)) fun out =>
      out.1.intf = node.intf ∧ PacketPool.particleSz out.2.2 = PacketPool.particleSz pool ∧
        ∀ q, (.l3Ipv4Parse, q) ∈ out.2.1 → q = pulledPacket p ptr before frame after long := by
  obtain ⟨type, hasType⟩ := @readBe16_ok EthOffsets.ethTypeOff.off frame long
  have daddr :=
    @slice_within frame EthOffsets.ethDaddrOff.off (EthOffsets.ethDaddrOff.off + ethAlen) (Nat.le_add_right ..)
    (Nat.le_trans (by decide) long)
  obtain ⟨l2Addr, own⟩ := can.slice
  rw [dispatchOne_framed long, hasType, Except.ok_bind]
  split
  · refine (processArp_noPanic can room).bind fun out same => ⟨same.1, same.2, fun q member => ?_⟩
    obtain ⟨arp, _, eq⟩ := List.mem_map.mp member
    cases eq
  · rw [own, Except.ok_bind, daddr, Except.ok_bind]
    split
    · exact ⟨rfl, rfl, fun _ member => absurd member List.not_mem_nil⟩
    · split
      · refine ⟨rfl, rfl, fun q member => ?_⟩
        exact (Prod.mk.inj (List.mem_singleton.mp member)).2
      · exact ⟨rfl, rfl, fun _ member => absurd member List.not_mem_nil⟩

end EthDecap

/-- The packet has an IPv4 header in its one particle. -/
structure Packet.Parsed (p : Packet) : Prop where
  chained : Chained p.particle
  l3Len : p.l3Len = iphdrMinLen
  header : ∃ part rest, p.particle = part :: rest ∧ iphdrMinLen ≤ (part.dataRaw p.l3).length

theorem Packet.Parsed.getL3 {p : Packet} (parsed : p.Parsed) :
    ∃ d, p.getL3 = .ok (d, iphdrMinLen) ∧ iphdrMinLen ≤ d.length := by
  obtain ⟨part, rest, chain, long⟩ := parsed.header
  refine ⟨part.dataRaw p.l3, ?_, long⟩
  have present : ¬iphdrMinLen = 0 := by decide
  have whole : ¬(part.dataRaw p.l3).length < iphdrMinLen := Nat.not_lt_of_le long
  simp only [Packet.getL3, parsed.l3Len, if_neg present, Packet.first, chain, Except.ok_bind, if_neg whole]

namespace IPv4Parse

theorem dispatchOne_noPanic {node : IPv4Parse} {p : Packet} (chained : Chained p.particle) :
    NoPanic (node.dispatchOne p) fun out => ∀ q, (.l3Ipv4Fwd, q) ∈ out.2 → q.Parsed := by
  obtain ⟨part, rest, chain⟩ := List.exists_cons_of_ne_nil chained.nonempty
  have inBounds : part.InBounds := chained.inBounds part (by rw [chain]; exact List.mem_cons_self ..)
  rw [dispatchOne, Packet.setL3, Packet.first, chain]
  dsimp only [Except.ok_bind]
  split
  · rename_i long
    intro q member
    cases List.mem_singleton.mp member
    refine ⟨chain ▸ chained, rfl, part, rest, rfl, ?_⟩
    have below := part.head_le_tail
    have positive : 0 < iphdrMinLen := by decide
    unfold Particle.len at long
    unfold Particle.InBounds at inBounds
    rw [Particle.dataRaw, if_neg (by dsimp only; omega), List.length_drop]
    dsimp only
    omega
  · exact fun _ member => absurd member List.not_mem_nil

end IPv4Parse

/-- No route leads beyond the edges of `EncapMux`. -/
def IPv4Table.InRange {T : Type} [IpLookupTable T] (table : IPv4Table T) : Prop :=
  ∀ ip found len nhop ifindex,
    IpLookupTable.longestMatch table.root ip = some (found, len, ⟨.adjacency nhop ifindex⟩) →
      ifindex < Control.maxInterfaces

namespace IPv4Fwd

theorem dispatchOne_noPanic {T : Type} [IpLookupTable T] {node : IPv4Fwd} {table : IPv4Table T} {p : Packet}
    (parsed : p.Parsed) (inRange : table.InRange) : NoPanic (node.dispatchOne table p) fun out =>
      ∀ q, (.encapMux, q) ∈ out.2 → q.Parsed ∧ q.outIfindex < Control.maxInterfaces := by
  obtain ⟨d, header, long⟩ := parsed.getL3
  obtain ⟨daddr, read⟩ := @readIp_ok d iphdrDaddrOff (Nat.le_trans (by decide) long)
  rw [dispatchOne, header, Except.ok_bind]
  dsimp only
  rw [if_neg (Nat.lt_irrefl _), read, Except.ok_bind]
  split
  · rename_i found len leaf hit
    obtain ⟨next⟩ := leaf
    cases next with
    | adjacency nhop ifindex =>
      intro q member
      cases List.mem_singleton.mp member
      have small := inRange daddr found len nhop ifindex hit
      split
      · exact ⟨⟨parsed.chained, parsed.l3Len, parsed.header⟩, small⟩
      · exact ⟨⟨parsed.chained, parsed.l3Len, parsed.header⟩, small⟩
    | ipv4Leaf next => exact fun _ member => absurd member List.not_mem_nil
    | interface intf => exact fun _ member => absurd member List.not_mem_nil
  · exact fun _ member => absurd member List.not_mem_nil

end IPv4Fwd

namespace EthEncap

variable {node : EthEncap} {pool : σ} {p : Packet}

theorem requestTarget_ok (parsed : p.Parsed) : ∃ ip, requestTarget p = .ok ip ∧ ip.length = 4 := by
  obtain ⟨d, header, long⟩ := parsed.getL3
  rw [requestTarget]
  split
  · have inside : iphdrDaddrOff + 4 ≤ d.length := Nat.le_trans (by decide) long
    refine ⟨window d iphdrDaddrOff (iphdrDaddrOff + 4), ?_, ?_⟩
    · rw [header, Except.ok_bind]
      dsimp only
      rw [if_pos (Nat.le_refl _)]
      exact EthDecap.slice_within (Nat.le_add_right ..) inside
    · rw [window_length inside, Nat.add_sub_cancel_left]
  · exact ⟨p.outL3addr.octets, rfl, rfl⟩

/-- Whatever the MAC table has as the link address. -/
theorem addEthHdr_noPanic (can : CanArp node.intf pool) (chained : Chained p.particle) (mac : EthMacRaw) :
    NoPanic (node.addEthHdr pool p mac) fun out => PacketPool.particleSz out.2.2 = PacketPool.particleSz pool := by
  have positive : 0 < PacketPool.particleSz pool := Nat.lt_of_lt_of_le (by decide) can.size
  obtain ⟨saddr, own⟩ := can.slice
  refine (Packet.prepend_noPanic _ chained positive).bind fun (done, p₁, pool₁) ⟨chained₁, steady₁⟩ => ?_
  refine .ite (fun _ => steady₁) fun _ => ?_
  rw [own, Except.ok_bind]
  refine (Packet.prepend_noPanic _ chained₁ (steady₁ ▸ positive)).bind fun (done, p₂, pool₂) ⟨chained₂, steady₂⟩ => ?_
  have steady₂ := steady₂.trans steady₁
  refine .ite (fun _ => steady₂) fun _ => ?_
  refine (Packet.prepend_noPanic _ chained₂ (steady₂ ▸ positive)).bind fun (done, p₃, pool₃) ⟨chained₃, steady₃⟩ => ?_
  have steady₃ := steady₃.trans steady₂
  refine .ite (fun _ => steady₃) fun _ => ?_
  obtain ⟨part, rest, chain⟩ := List.exists_cons_of_ne_nil chained₃.nonempty
  rw [Packet.setL2, Packet.first, chain]
  dsimp only [Except.ok_bind]
  split <;> exact steady₃

theorem dispatchOne_noPanic (can : CanArp node.intf pool) (parsed : p.Parsed) :
    NoPanic (node.dispatchOne pool p) fun out => PacketPool.particleSz out.2 = PacketPool.particleSz pool := by
  rw [dispatchOne]
  split
  · exact (addEthHdr_noPanic can parsed.chained _).bind fun _ steady => steady
  · obtain ⟨ip, target, length⟩ := requestTarget_ok parsed
    rw [doArpRequest, target]
    exact (makeArp_noPanic arpOpcodeReq can rfl rfl length).bind fun _ steady => steady

end EthEncap

end R2
