import R2.Eth.Decap

namespace R2

section Prefix

variable {frame after : List UInt8} {off lo hi : Nat}

theorem index_append (inside : off < frame.length) : index (frame ++ after) off = index frame off := by
  rw [index, index, List.getElem?_append_left inside]

theorem readBe16_append (inside : off + 2 ≤ frame.length) : readBe16 (frame ++ after) off = readBe16 frame off := by
  rw [readBe16, readBe16, index_append (by omega), index_append (by omega)]

theorem readIp_append (inside : off + 4 ≤ frame.length) : readIp (frame ++ after) off = readIp frame off := by
  rw [readIp, readIp, index_append (by omega), index_append (by omega), index_append (by omega),
    index_append (by omega)]

theorem slice_append (inside : hi ≤ frame.length) : slice (frame ++ after) lo hi = slice frame lo hi := by
  have long : hi ≤ (frame ++ after).length := by
    rw [List.length_append]
    omega
  rw [slice, slice, window, window, List.take_append_of_le_length inside]
  simp only [long, inside]

theorem readBe16_ok {raw : List UInt8} (inside : off + 2 ≤ raw.length) : ∃ n, readBe16 raw off = .ok n := by
  rw [readBe16, index, List.getElem?_eq_getElem (by omega : off < raw.length), index,
    List.getElem?_eq_getElem (by omega : off + 1 < raw.length)]
  exact ⟨_, rfl⟩

theorem index_beyond {raw : List UInt8} (outside : raw.length ≤ off) : index raw off = .error .bounds := by
  rw [index, List.getElem?_eq_none outside]

theorem readBe16_beyond {raw : List UInt8} (outside : raw.length < off + 2) : readBe16 raw off = .error .bounds := by
  unfold readBe16
  by_cases first : off < raw.length
  · rw [index, List.getElem?_eq_getElem first, index_beyond (by omega)]
    rfl
  · rw [index_beyond (by omega)]
    rfl

theorem slice_beyond {raw : List UInt8} (outside : raw.length < hi) : slice raw lo hi = .error .bounds :=
  if_neg fun inside => by omega

end Prefix

/-- The packet in a buffer that has its frame in the middle. -/
def Packet.framed (p : Packet) (ptr : Nat) (before frame after : List UInt8) : Packet :=
  { p with
    particle := [⟨ptr, before ++ frame ++ after, before.length, before.length + frame.length, Nat.le_add_right ..⟩] }

namespace EthDecap

variable {σ : Type} [PacketPool σ]

/-- The packet whose link header was pulled. -/
def pulledPacket (p : Packet) (ptr : Nat) (before frame after : List UInt8)
    (long : etherHdrLen ≤ frame.length) : Packet :=
  { p with
    particle := [⟨ptr, before ++ frame ++ after, before.length + etherHdrLen, before.length + frame.length, by omega⟩]
    length := ((p.length : Int) - etherHdrLen).toNat
    l2 := before.length
    l2Len := etherHdrLen }

section Framed

variable {node : EthDecap} {pool : σ} {p : Packet} {ptr : Nat} {before frame after : List UInt8}

theorem pullL2_framed (long : etherHdrLen ≤ frame.length) : (p.framed ptr before frame after).pullL2 etherHdrLen =
    .ok (etherHdrLen, pulledPacket p ptr before frame after long) := by
  have inside : ¬((before.length : Int) + (etherHdrLen : Nat) < 0 ∨
      (before.length : Int) + (etherHdrLen : Nat) > (before.length + frame.length : Nat)) := by omega
  have short : Particle.toIsize etherHdrLen = (etherHdrLen : Nat) := rfl
  simp only [Packet.pullL2, Packet.framed, Packet.first, Except.ok_bind, Packet.moveHead, Particle.moveHead, short,
    dif_neg inside, ne_eq, not_true, if_false]
  rfl

theorem getL2_pulled (long : etherHdrLen ≤ frame.length) :
    (pulledPacket p ptr before frame after long).getL2 = .ok (frame ++ after, etherHdrLen) := by
  have inside : ¬(before ++ frame ++ after).length ≤ before.length := by
    simp only [List.length_append]
    have : 0 < etherHdrLen := by decide
    omega
  have raw : Particle.dataRaw ⟨ptr, before ++ frame ++ after, before.length + etherHdrLen,
      before.length + frame.length,
      by omega⟩ before.length = frame ++ after := by
    rw [Particle.dataRaw, if_neg inside, List.append_assoc, List.drop_left]
  have whole : ¬(frame ++ after).length < etherHdrLen := by
    rw [List.length_append]
    omega
  have present : ¬etherHdrLen = 0 := by decide
  simp only [Packet.getL2, Packet.first, pulledPacket, if_neg present, Except.ok_bind, raw, if_neg whole]

/-- What `dispatch` reads itself lies in the link header, but `process_arp` gets
the buffer to its end. -/
theorem dispatchOne_framed (long : etherHdrLen ≤ frame.length) :
    node.dispatchOne pool (p.framed ptr before frame after) = (do
      let ethtype ← readBe16 frame EthOffsets.ethTypeOff.off
      if ethtype = ethTypeArp then do
        let (node, arp, pool) ← node.processArp pool (frame ++ after)
        .ok (node, arp.toList.map (fun pkt => (.tx, pkt)), pool)
      else do
        let l2Addr ← slice node.intf.l2Addr 0 ethAlen
        let daddr ← slice frame EthOffsets.ethDaddrOff.off (EthOffsets.ethDaddrOff.off + ethAlen)
        if l2Addr ≠ daddr then
          .ok ({ node with cnt := { node.cnt with notMyMac := node.cnt.notMyMac + 1 } }, [], pool)
        else if ethtype = ethTypeIpv4 then
          .ok (node, [(.l3Ipv4Parse, pulledPacket p ptr before frame after long)], pool)
        else
          .ok ({ node with cnt := { node.cnt with unknownEthtype := node.cnt.unknownEthtype + 1 } }, [], pool)) := by
  have type : readBe16 (frame ++ after) EthOffsets.ethTypeOff.off = readBe16 frame EthOffsets.ethTypeOff.off :=
    readBe16_append long
  have daddr : slice (frame ++ after) EthOffsets.ethDaddrOff.off (EthOffsets.ethDaddrOff.off + ethAlen) =
      slice frame EthOffsets.ethDaddrOff.off (EthOffsets.ethDaddrOff.off + ethAlen) :=
    slice_append (Nat.le_trans (by decide) long)
  simp only [dispatchOne, pullL2_framed long, Except.ok_bind, ne_eq, not_true, if_false, getL2_pulled, type, daddr]

end Framed

section Arp

variable {node : EthDecap} {pool : σ} {frame after m : List UInt8}

/-- A request or a reply for IPv4, which `process_arp` looks into. -/
def IsArpIpv4 (m : List UInt8) : Prop :=
  readBe16 m EthOffsets.ethProtoOff.off = .ok ethTypeIpv4 ∧
    (readBe16 m EthOffsets.ethOpcodeOff.off = .ok arpOpcodeReq ∨
      readBe16 m EthOffsets.ethOpcodeOff.off = .ok arpOpcodeReply)

/-- The request or the reply is not for this interface. -/
def NotOurs (intf : Interface) (m : List UInt8) : Prop :=
  window m EthOffsets.ethTargetIpOff.off (EthOffsets.ethTargetIpOff.off + 4) ≠ intf.ipv4Addr.octets ∨
    readBe16 m EthOffsets.ethOpcodeOff.off = .ok arpOpcodeReply ∧ ethAlen ≤ intf.l2Addr.length ∧
      window m EthOffsets.ethTargetMacOff.off (EthOffsets.ethTargetMacOff.off + ethAlen) ≠
        window intf.l2Addr 0 ethAlen

/-- `process_arp` counts these bytes and does no more. -/
def UnknownArp (intf : Interface) (m : List UInt8) : Prop := ¬IsArpIpv4 m ∨ arpBytes ≤ m.length ∧ NotOurs intf m

theorem processArp_append (whole : arpBytes ≤ frame.length) :
    node.processArp pool (frame ++ after) = node.processArp pool frame := by
  have bound : ∀ {n}, n ≤ arpBytes → n ≤ frame.length := fun small => Nat.le_trans small whole
  have op : readBe16 (frame ++ after) EthOffsets.ethOpcodeOff.off = readBe16 frame EthOffsets.ethOpcodeOff.off :=
    readBe16_append (bound (by decide))
  have proto : readBe16 (frame ++ after) EthOffsets.ethProtoOff.off = readBe16 frame EthOffsets.ethProtoOff.off :=
    readBe16_append (bound (by decide))
  have senderIp : readIp (frame ++ after) EthOffsets.ethSenderIpOff.off =
      readIp frame EthOffsets.ethSenderIpOff.off :=
    readIp_append (bound (by decide))
  have part : ∀ {lo hi}, hi ≤ arpBytes → slice (frame ++ after) lo hi = slice frame lo hi :=
    fun small => slice_append (bound small)
  simp only [processArp, processArpReply, processArpReq, op, proto, senderIp,
    part (by decide : EthOffsets.ethTargetIpOff.off + 4 ≤ arpBytes),
    part (by decide : EthOffsets.ethTargetMacOff.off + ethAlen ≤ arpBytes),
    part (by decide : EthOffsets.ethSenderMacOff.off + ethAlen ≤ arpBytes)]

theorem macLearn_unknownArp (ip : Ipv4Addr) (mac : List UInt8) :
    (node.macLearn ip mac).cnt.unknownArp = node.cnt.unknownArp := by
  unfold macLearn
  split
  · rfl
  · dsimp only
    split <;> rfl

theorem slice_within {lo hi : Nat} (below : lo ≤ hi) (inside : hi ≤ m.length) :
    slice m lo hi = .ok (window m lo hi) :=
  if_pos ⟨below, inside⟩

theorem processArp_short (short : m.length < EthOffsets.ethOpcodeOff.off + 2) :
    node.processArp pool m = .error .bounds := by
  rw [processArp, readBe16_beyond short]
  rfl

theorem processArp_beyond (arp : IsArpIpv4 m) (short : m.length < arpBytes) :
    node.processArp pool m = .error .bounds := by
  obtain ⟨proto, op⟩ := arp
  have target : slice m EthOffsets.ethTargetIpOff.off (EthOffsets.ethTargetIpOff.off + 4) = .error .bounds :=
    slice_beyond short
  rcases op with req | reply
  · simp only [processArp, processArpReq, req, proto, target, Except.ok_bind, Except.error_bind]
    rfl
  · simp only [processArp, processArpReply, reply, proto, target, Except.ok_bind, Except.error_bind]
    rfl

theorem processArp_unknown (long : EthOffsets.ethOpcodeOff.off + 2 ≤ m.length) (unknown : UnknownArp node.intf m) :
    node.processArp pool m = .ok (node.unknownArp, none, pool) := by
  obtain ⟨op, hasOp⟩ := readBe16_ok long
  obtain ⟨proto, hasProto⟩ := @readBe16_ok EthOffsets.ethProtoOff.off m (Nat.le_trans (by decide) long)
  by_cases arp : IsArpIpv4 m
  · obtain ⟨whole, other⟩ := unknown.resolve_left (not_not_intro arp)
    have target := slice_within (by decide : EthOffsets.ethTargetIpOff.off ≤ EthOffsets.ethTargetIpOff.off + 4) whole
    have targetMac := @slice_within m EthOffsets.ethTargetMacOff.off (EthOffsets.ethTargetMacOff.off + ethAlen)
      (Nat.le_add_right ..) (Nat.le_trans (by decide) whole)
    by_cases ours : node.intf.ipv4Addr.octets =
      window m EthOffsets.ethTargetIpOff.off (EthOffsets.ethTargetIpOff.off + 4)
    · obtain ⟨reply, l2Long, mac⟩ := other.resolve_left (not_not_intro ours.symm)
      have l2Addr := @slice_within node.intf.l2Addr 0 ethAlen (Nat.zero_le _) l2Long
      simp only [processArp, processArpReply, reply, arp.1, target, targetMac, l2Addr, Except.ok_bind,
        and_self, if_true,
        ours, ne_eq, not_true, if_false, mac, not_false_eq_true]
    · rcases arp.2 with req | reply
      · simp only [processArp, processArpReq, req, arp.1, target, Except.ok_bind, ne_eq, ours,
          not_false_eq_true, if_true,
          and_true]
        rfl
      · simp only [processArp, processArpReply, reply, arp.1, target, Except.ok_bind, ne_eq, ours, not_false_eq_true,
          if_true, and_self]
  · have noReply : ¬(op = arpOpcodeReply ∧ proto = ethTypeIpv4) := fun both =>
      arp ⟨both.2 ▸ hasProto, Or.inr (both.1 ▸ hasOp)⟩
    have noReq : ¬(op = arpOpcodeReq ∧ proto = ethTypeIpv4) := fun both =>
      arp ⟨both.2 ▸ hasProto, Or.inl (both.1 ▸ hasOp)⟩
    rw [processArp, hasOp, Except.ok_bind, hasProto, Except.ok_bind, if_neg noReply, if_neg noReq]

/-- Whatever else `process_arp` does, it does not count. -/
theorem UnknownArp.of_run (run : node.processArp pool m = .ok (node.unknownArp, none, pool)) :
    UnknownArp node.intf m := by
  by_contra known
  unfold UnknownArp at known
  rw [not_or, not_not] at known
  obtain ⟨arp, ours⟩ := known
  by_cases whole : arpBytes ≤ m.length
  · have counted : ∀ ip mac, node.macLearn ip mac ≠ node.unknownArp := by
      intro ip mac same
      have count := congrArg (fun n => n.cnt.unknownArp) same
      dsimp only [unknownArp] at count
      rw [macLearn_unknownArp] at count
      omega
    have ip : node.intf.ipv4Addr.octets =
        window m EthOffsets.ethTargetIpOff.off (EthOffsets.ethTargetIpOff.off + 4) := by
      by_contra other
      exact ours ⟨whole, Or.inl (Ne.symm other)⟩
    have target := slice_within (by decide : EthOffsets.ethTargetIpOff.off ≤ EthOffsets.ethTargetIpOff.off + 4) whole
    rcases arp.2 with req | reply
    · simp only [processArp, processArpReq, req, arp.1, target, ip, Except.ok_bind, ne_eq, not_true,
        if_false, and_true,
        if_true] at run
      rw [if_neg (by decide)] at run
      obtain ⟨srcIp, _, run⟩ := Except.bind_ok_iff.mp run
      obtain ⟨srcMac, _, run⟩ := Except.bind_ok_iff.mp run
      obtain ⟨⟨reply, pool'⟩, _, run⟩ := Except.bind_ok_iff.mp run
      exact counted srcIp srcMac (congrArg Prod.fst (Except.ok.inj run))
    · simp only [processArp, processArpReply, reply, arp.1, target, ip, Except.ok_bind, ne_eq, not_true,
        if_false, and_self,
        if_true] at run
      obtain ⟨node', run, same⟩ := Except.bind_ok_iff.mp run
      obtain ⟨dstMac, mac, run⟩ := Except.bind_ok_iff.mp run
      obtain ⟨l2Addr, l2, run⟩ := Except.bind_ok_iff.mp run
      have l2Long : ethAlen ≤ node.intf.l2Addr.length := by
        by_contra short
        rw [slice_beyond (Nat.lt_of_not_le short)] at l2
        cases l2
      rw [slice_within (Nat.zero_le _) l2Long] at l2
      rw [slice_within (Nat.le_add_right ..) (Nat.le_trans (by decide) whole)] at mac
      cases mac
      cases l2
      split at run
      · rename_i other
        exact ours ⟨whole, Or.inr ⟨reply, l2Long, other⟩⟩
      · obtain ⟨srcIp, _, run⟩ := Except.bind_ok_iff.mp run
        obtain ⟨srcMac, _, run⟩ := Except.bind_ok_iff.mp run
        have learned := Except.ok.inj run
        exact counted srcIp srcMac (learned.trans (congrArg Prod.fst (Except.ok.inj same)))
  · rw [processArp_beyond arp (Nat.lt_of_not_le whole)] at run
    cases run

end Arp

end EthDecap

end R2
