import R2.Eth.Frame
import R2.Eth.Encap
import R2.Eth.Decap

namespace R2

theorem writeFields_append (raw : List UInt8) (xs ys : List (Field UInt8)) :
    writeFields raw (xs ++ ys) = writeFields raw xs >>= fun raw => writeFields raw ys := by
  induction xs generalizing raw with
  | nil => rfl
  | cons f rest ih =>
    rw [List.cons_append, writeFields, writeFields]
    cases copyFromSlice raw f.off (f.off + f.len) f.bytes with
    | error e => rfl
    | ok raw => exact ih raw

theorem slice_whole {bytes : List UInt8} {len : Nat} (size : bytes.length = len) : slice bytes 0 len = .ok bytes := by
  rw [slice, if_pos ⟨Nat.zero_le _, by omega⟩, ← size, window_whole]

namespace Packet

/-- A move within the last particle's buffer succeeds. -/
theorem moveTail_within {pkt : Packet} {p : Particle} {n : Nat} (single : pkt.particle = [p])
    (fits : p.tail + n ≤ p.raw.length) : pkt.moveTail n = .ok (n, { pkt with
      particle := [{ p with tail := p.tail + n, head_le_tail := Nat.le_add_right_of_le p.head_le_tail }]
      length := pkt.length + n }) := by
  have inside : ¬((p.tail : Int) + n < p.head ∨ (p.tail : Int) + n > p.raw.length) := by
    have := p.head_le_tail
    omega
  rw [Packet.moveTail, single, withLast, Particle.moveTail]
  simp only [dif_neg inside, Except.ok_bind]
  rw [if_neg (not_not_intro rfl)]
  rfl

end Packet

section Making

variable {σ : Type} [PacketPool σ] [SizedPool σ]
variable {pool pool' : σ} {intf : Interface} {pkt : Packet} {daddr targetMac targetIp : List UInt8}

/-- With a packet to build it in, the frame is built. -/
theorem makeArp_ok (opcode : Nat) (allocated : PacketPool.pkt pool 0 = (some pkt, pool'))
    (size : arpBytes ≤ PacketPool.particleSz pool) (src : intf.l2Addr.length = ethAlen)
    (dst : daddr.length = ethAlen) (tgt : targetMac.length = ethAlen) (ip : targetIp.length = 4) :
    ∃ frame, makeArp intf pool opcode daddr targetMac (.ok targetIp) = .ok (some frame, pool') ∧ frame.Sound ∧
      frame.content = arpFrame opcode daddr intf.l2Addr intf.ipv4Addr targetMac targetIp ∧
      frame.outIfindex = intf.ifindex := by
  obtain ⟨empty, p, single, head, tail, -⟩ := LawfulPool.pkt_empty allocated (Nat.zero_le _)
  have sized := SizedPool.pkt_sized allocated p (by rw [single]; exact List.mem_singleton_self p)
  have length := arpFrame_length opcode intf.ipv4Addr dst src tgt ip
  have fits : 0 + (arpFrame opcode daddr intf.l2Addr intf.ipv4Addr targetMac targetIp).length ≤ p.raw.length := by
    omega
  obtain ⟨raw, written, kept, whole⟩ := writeFields_ok (arp_laid opcode intf.ipv4Addr dst src tgt ip) fits
  have nothing : ({ p with raw := raw } : Particle).content = [] := Particle.content_empty head tail
  rw [Nat.zero_add, window_self, List.nil_append] at whole
  rw [writeFields_append] at written
  have filled : pkt.headMut (fun raw => do
      let saddr ← slice intf.l2Addr 0 ethAlen
      let raw ← writeFields raw (arpFields opcode daddr saddr intf.ipv4Addr targetMac)
      let ip ← (.ok targetIp : Outcome (List UInt8))
      writeFields raw [targetField ip]) = .ok { pkt with particle := [{ p with raw := raw }] } := by
    simp only [Packet.headMut, single, slice_whole src, Except.ok_bind, written]
  have sound : Packet.Sound { pkt with particle := [{ p with raw := raw }] } := by
    refine ⟨⟨List.cons_ne_nil _ _, fun q member => ?_⟩, ?_⟩
    · rw [List.mem_singleton.mp member, Particle.InBounds]
      change p.tail ≤ raw.length
      omega
    · change pkt.length = (chainContent [{ p with raw := raw }]).length
      rw [empty, chainContent_cons, nothing]
      rfl
  have room : p.tail + arpBytes ≤ raw.length := by omega
  obtain ⟨chain, total, moved⟩ : ∃ chain length, ({ pkt with particle := [{ p with raw := raw }] } : Packet).moveTail
      arpBytes = .ok (arpBytes, { pkt with particle := chain, length := length }) :=
    ⟨_, _, Packet.moveTail_within rfl room⟩
  obtain ⟨sound', exposes, -⟩ := sound.moveTail moved
  obtain ⟨-, content⟩ := exposes (Int.natCast_nonneg _)
  refine ⟨{ pkt with particle := chain, length := total, outIfindex := intf.ifindex }, ?_,
    ⟨sound'.chained, sound'.length⟩,
    ?_, rfl⟩
  · rw [makeArp, allocated]
    dsimp only
    rw [filled, Except.ok_bind, moved, Except.ok_bind]
  · change Packet.content { pkt with particle := chain, length := total } = _
    rw [content]
    change chainContent [{ p with raw := raw }] ++ window raw p.tail (p.tail + (arpBytes : Int).toNat) = _
    rw [chainContent_cons, nothing, chainContent_nil, List.nil_append, List.nil_append, tail, Nat.zero_add,
      Int.toNat_natCast, ← length]
    exact whole

end Making

end R2
