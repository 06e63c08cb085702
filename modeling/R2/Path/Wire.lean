import R2.Path.Survives

namespace R2

namespace RawSock

/-- The bytes that `sendmsg` hands to the kernel, slice by slice, and what it
returns when the kernel returns `rv`. -/
def sendmsg (pkt : Packet) (rv : Int) : Outcome (List UInt8 × Nat) := do
  let slices ← pkt.slices
  .ok (slices.flatMap fun s => s.1.take s.2, if rv < 0 then 0 else rv.toNat)

/-- The kernel gets the content of a packet, however it is spread over particles. -/
theorem sendmsg_ok {pkt : Packet} (chained : Chained pkt.particle) (rv : Int) :
    sendmsg pkt rv = .ok (pkt.content, if rv < 0 then 0 else rv.toNat) := by
  obtain ⟨p, rest, chain⟩ := List.exists_cons_of_ne_nil chained.nonempty
  obtain ⟨slices, run, whole, sizes⟩ := Packet.slicesLoop_ok chained.inBounds
  have taken : (slices.flatMap fun s => s.1.take s.2) = pkt.content := by
    rw [Packet.content, ← whole, List.flatMap_def]
    congr 1
    refine List.map_congr_left fun s member => ?_
    rw [sizes s member, List.take_length]
  rw [chain] at run
  simp only [sendmsg, Packet.slices, Packet.first, chain, Except.ok_bind, run, taken]

end RawSock

namespace IfNode

variable {σ : Type} [PacketPool σ] [SteadyPool σ] {node : IfNode} {pool pool' : σ} {pkt : Packet} {frame : List UInt8}

/-- A received packet counts the bytes of its frame. -/
theorem rx_counts (turns : Nat) (allocated : PacketPool.pkt pool node.intf.headroom = (some pkt, pool'))
    (arrived : 0 < frame.length) (fits : node.intf.headroom + frame.length ≤ PacketPool.particleSz pool) :
    ∃ (q : Packet) (ptr : Nat) (before after : List UInt8),
      node.rx (turns + 2) pool [frame] =
        .ok ([(.l2EthDecap, q.framed ptr before frame after)], (PacketPool.pkt pool' node.intf.headroom).2) ∧
      q.length = frame.length ∧ node.intf.headroom + (frame ++ after).length = PacketPool.particleSz pool := by
  obtain ⟨q, ptr, before, after, received, length, size⟩ := RawSock.recvmsg_fits allocated arrived fits
  have steady := Packet.pkt_steady allocated
  have stop : node.rx (turns + 1) pool' [] = .ok ([], (PacketPool.pkt pool' node.intf.headroom).2) := by
    rw [rx, List.head?_nil, RawSock.recvmsg]
    cases next : PacketPool.pkt pool' node.intf.headroom with
    | mk last pool'' =>
      cases last with
      | none => rfl
      | some last =>
        obtain ⟨empty, part, _, _, _, size', buf, head⟩ := RawSock.fresh next (by omega)
        dsimp only
        rw [buf, Except.ok_bind, head, Except.ok_bind, sub64_ok.mpr ⟨by omega, rfl⟩, Except.ok_bind]
        exact if_pos empty
  have present : ¬(q.framed ptr before frame after).len = 0 := by
    change ¬q.length = 0
    omega
  refine ⟨{ q with inIfindex := node.intf.ifindex }, ptr, before, after, ?_, length, size⟩
  rw [rx, List.head?_cons, received, Except.ok_bind]
  dsimp only
  rw [if_neg present, List.tail_cons, stop]
  rfl

end IfNode

namespace Path

variable {T σ : Type}

/-- What the drivers of the interfaces are handed. -/
def wire (path : Path T σ) : Outcome (List (Nat × List UInt8)) :=
  path.tx.mapM fun p => do
    let (bytes, _) ← RawSock.sendmsg p 0
    .ok (p.outIfindex, bytes)

theorem wire_concat {path : Path T σ} {p : Packet} {sent : List (Nat × List UInt8)} (before : path.wire = .ok sent)
    (chained : Chained p.particle) :
    ({ path with tx := path.tx ++ [p] } : Path T σ).wire = .ok (sent ++ [(p.outIfindex, p.content)]) := by
  have last : ([p].mapM fun p => do
      let (bytes, _) ← RawSock.sendmsg p 0
      .ok (p.outIfindex, bytes)) = (Except.ok [(p.outIfindex, p.content)] : Outcome _) := by
    rw [List.mapM_cons, RawSock.sendmsg_ok chained]
    rfl
  unfold wire at before ⊢
  rw [List.mapM_append, before, last]
  rfl

end Path

end R2
