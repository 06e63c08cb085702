import R2.Eth.Resolution
import R2.Path.Faults
import R2.Route.Linear

namespace R2

variable {σ : Type} [PacketPool σ] [SteadyPool σ]

namespace RawSock

variable {pool pool' : σ} {headroom : Nat} {pkt : Packet} {bytes : List UInt8}

/-- The packet that `recvmsg` gets is empty and has the pool's room behind its head. -/
theorem fresh (allocated : PacketPool.pkt pool headroom = (some pkt, pool'))
    (fits : headroom ≤ PacketPool.particleSz pool) : pkt.length = 0 ∧ ∃ part, pkt.particle = [part] ∧
      part.head = headroom ∧ part.tail = headroom ∧ part.raw.length = PacketPool.particleSz pool ∧
      pkt.head = .ok part.raw ∧ pkt.headroom = .ok headroom := by
  obtain ⟨empty, part, single, head, tail, -⟩ := LawfulPool.pkt_empty allocated fits
  have size := SizedPool.pkt_sized allocated part (by rw [single]; exact List.mem_singleton_self part)
  refine ⟨empty, part, single, head, tail, size, ?_, ?_⟩
  · rw [Packet.head, Packet.first, single, Except.ok_bind, Particle.dataRaw, List.drop_zero]
    split
    · rename_i none
      rw [List.length_eq_zero_iff.mp (Nat.le_zero.mp none)]
    · rfl
  · rw [Packet.headroom, Packet.first, single, Except.ok_bind, head]

theorem recvmsg_none (fits : headroom ≤ PacketPool.particleSz pool) :
    ∃ pkt pool', recvmsg pool headroom none = .ok (pkt, pool') ∧ (∀ q, pkt = some q → q.length = 0) ∧
      PacketPool.particleSz pool' = PacketPool.particleSz pool := by
  cases allocated : PacketPool.pkt pool headroom with
  | mk pkt pool' =>
    have steady := Packet.pkt_steady allocated
    cases pkt with
    | none => exact ⟨none, pool', by rw [recvmsg, allocated], nofun, steady⟩
    | some pkt =>
      obtain ⟨empty, part, _, _, _, size, buf, head⟩ := fresh allocated fits
      refine ⟨some pkt, pool', ?_, fun q same => by rw [← Option.some.inj same, empty], steady⟩
      rw [recvmsg, allocated]
      dsimp only
      rw [buf, Except.ok_bind, head, Except.ok_bind, sub64_ok.mpr ⟨size ▸ fits, rfl⟩, Except.ok_bind]

/-- The kernel fills the room, and the tail moves by the length it returns. -/
theorem recvmsg_some {part : Particle} (allocated : PacketPool.pkt pool headroom = (some pkt, pool'))
    (fits : headroom ≤ PacketPool.particleSz pool) (single : pkt.particle = [part]) (arrived : 0 < bytes.length) :
    recvmsg pool headroom (some bytes) = (do
      let filled := overwrite part.raw headroom (bytes.take (PacketPool.particleSz pool - headroom))
      let (moved, pkt) ← { pkt with particle := [{ part with raw := filled }] }.moveTail bytes.length
      if moved ≠ bytes.length then .error .assertion else .ok (some pkt, pool')) := by
  obtain ⟨_, part', single', _, _, size, buf, top⟩ := fresh allocated fits
  cases single.symm.trans single'
  rw [recvmsg, allocated]
  dsimp only
  rw [buf, Except.ok_bind, top, Except.ok_bind, size, sub64_ok.mpr ⟨fits, rfl⟩, Except.ok_bind,
    Packet.headMut, single]
  dsimp only
  rw [Except.ok_bind, Except.ok_bind, if_pos (by omega)]

/-- A frame that fits is between head and tail afterwards. -/
theorem recvmsg_fits (allocated : PacketPool.pkt pool headroom = (some pkt, pool')) (arrived : 0 < bytes.length)
    (fits : headroom + bytes.length ≤ PacketPool.particleSz pool) :
    ∃ (q : Packet) (ptr : Nat) (before after : List UInt8),
      recvmsg pool headroom (some bytes) = .ok (some (q.framed ptr before bytes after), pool') ∧
      q.length = bytes.length ∧ headroom + (bytes ++ after).length = PacketPool.particleSz pool := by
  obtain ⟨empty, part, single, head, tail, size, _, _⟩ := fresh allocated (by omega)
  have front : (part.raw.take headroom).length = headroom := by
    rw [List.length_take]
    omega
  have room : headroom + (bytes ++ part.raw.drop (headroom + bytes.length)).length = part.raw.length := by
    rw [List.length_append, List.length_drop]
    omega
  refine ⟨{ pkt with length := bytes.length }, part.ptr, part.raw.take headroom,
    part.raw.drop (headroom + bytes.length), ?_,
    rfl, room.trans size⟩
  rw [recvmsg_some allocated (by omega) single arrived, List.take_of_length_le (by omega)]
  have whole : (overwrite part.raw headroom bytes).length = part.raw.length := overwrite_length (by omega)
  dsimp only
  rw [Packet.moveTail_within rfl (by dsimp only; omega), Except.ok_bind]
  dsimp only
  rw [if_neg (not_not_intro rfl)]
  simp only [Packet.framed, overwrite, head, tail, front, empty, Nat.zero_add]

/-- A frame that does not fit fails the assertion on the tail. -/
theorem recvmsg_long (allocated : PacketPool.pkt pool headroom = (some pkt, pool'))
    (fits : headroom ≤ PacketPool.particleSz pool) (long : PacketPool.particleSz pool < headroom + bytes.length) :
    recvmsg pool headroom (some bytes) = .error .assertion := by
  obtain ⟨_, part, single, head, tail, size, _, _⟩ := fresh allocated fits
  rw [recvmsg_some allocated fits single (by omega)]
  have filled : (overwrite part.raw headroom (bytes.take (PacketPool.particleSz pool - headroom))).length =
      part.raw.length := overwrite_length (by rw [List.length_take]; omega)
  have outside : (part.tail : Int) + bytes.length < part.head ∨ (part.tail : Int) + bytes.length >
      (overwrite part.raw headroom (bytes.take (PacketPool.particleSz pool - headroom))).length := by
    rw [filled]
    omega
  have stays : (0 : Int) ≠ bytes.length := by omega
  simp only [Packet.moveTail, Packet.withLast, Particle.moveTail, dif_pos outside, Except.ok_bind, if_pos stays]

end RawSock

namespace IfNode

variable {node : IfNode} {pool pool' : σ} {pkt : Packet} {frame : List UInt8}

omit [SteadyPool σ] in
theorem rx_empty (turns : Nat) (allocated : PacketPool.pkt pool node.intf.headroom = (none, pool')) :
    node.rx (turns + 1) pool [frame] = .ok ([], pool') := by
  rw [rx, RawSock.recvmsg, allocated]
  rfl

theorem rx_long (turns : Nat) (allocated : PacketPool.pkt pool node.intf.headroom = (some pkt, pool'))
    (fits : node.intf.headroom ≤ PacketPool.particleSz pool)
    (long : PacketPool.particleSz pool < node.intf.headroom + frame.length) :
    node.rx (turns + 1) pool [frame] = .error .assertion := by
  rw [rx, List.head?_cons, RawSock.recvmsg_long allocated fits long]
  rfl

/-- The frame is pushed on, and the next turn finds no other. -/
theorem rx_fits (turns : Nat) (allocated : PacketPool.pkt pool node.intf.headroom = (some pkt, pool'))
    (arrived : 0 < frame.length) (fits : node.intf.headroom + frame.length ≤ PacketPool.particleSz pool) :
    ∃ (q : Packet) (ptr : Nat) (before after : List UInt8) (pool'' : σ),
      node.rx (turns + 2) pool [frame] = .ok ([(.l2EthDecap, q.framed ptr before frame after)], pool'') ∧
      PacketPool.particleSz pool'' = PacketPool.particleSz pool ∧
      node.intf.headroom + (frame ++ after).length = PacketPool.particleSz pool := by
  obtain ⟨q, ptr, before, after, received, length, size⟩ := RawSock.recvmsg_fits allocated arrived fits
  have steady := Packet.pkt_steady allocated
  obtain ⟨next, pool'', nothing, empty, steady'⟩ :=
    RawSock.recvmsg_none (by omega : node.intf.headroom ≤ PacketPool.particleSz pool')
  refine ⟨{ q with inIfindex := node.intf.ifindex }, ptr, before, after, pool'', ?_, steady'.trans steady, size⟩
  have stop : node.rx (turns + 1) pool' [] = .ok ([], pool'') := by
    rw [rx, List.head?_nil, nothing, Except.ok_bind]
    cases next with
    | none => rfl
    | some last => exact if_pos (empty last rfl)
  have present : ¬(q.framed ptr before frame after).len = 0 := by
    change ¬q.length = 0
    omega
  rw [rx, List.head?_cons, received, Except.ok_bind]
  dsimp only
  rw [if_neg present, List.tail_cons, stop]
  rfl

end IfNode

namespace Path

variable {T : Type} [IpLookupTable T] {path path' : Path T σ}

/-- The interfaces have whole link addresses, the routes lead to edges of
`EncapMux`, and the buffers have room for the headroom and an ARP frame. -/
structure Sane (path : Path T σ) : Prop where
  room : path.ifNode.intf.headroom + arpBytes ≤ PacketPool.particleSz path.pool
  decap : path.decap.intf.l2Addr.length = ethAlen
  encap : ∀ i node, path.encap i = some node → node.intf.l2Addr.length = ethAlen
  inRange : path.table.InRange

/-- What no frame changes. -/
structure Kept (path path' : Path T σ) : Prop where
  ifNode : path'.ifNode = path.ifNode
  decap : path'.decap.intf = path.decap.intf
  encap : path'.encap = path.encap
  table : path'.table = path.table
  size : PacketPool.particleSz path'.pool = PacketPool.particleSz path.pool

omit [SteadyPool σ] in
theorem Kept.sane (kept : Kept path path') (sane : path.Sane) : path'.Sane where
  room := by
    rw [kept.ifNode, kept.size]
    exact sane.room
  decap := by
    rw [kept.decap]
    exact sane.decap
  encap := by
    rw [kept.encap]
    exact sane.encap
  inRange := by
    rw [kept.table]
    exact sane.inRange

omit [IpLookupTable T] [SteadyPool σ] in
theorem Kept.trans {path'' : Path T σ} (first : Kept path path') (second : Kept path' path'') : Kept path path'' :=
  ⟨second.ifNode.trans first.ifNode, second.decap.trans first.decap, second.encap.trans first.encap,
    second.table.trans first.table, second.size.trans first.size⟩

theorem atEncap_noPanic {p : Packet} (sane : path.Sane) (parsed : p.Parsed)
    (small : p.outIfindex < Control.maxInterfaces) : NoPanic (path.atEncap p) (Kept path) := by
  rw [atEncap, EncapMux.dispatchOne, if_pos small, Except.ok_bind]
  dsimp only
  split
  · exact ⟨rfl, rfl, rfl, rfl, rfl⟩
  · rename_i node here
    have can : CanArp node.intf path.pool := ⟨sane.encap _ node here, Nat.le_of_add_left_le sane.room⟩
    exact (EthEncap.dispatchOne_noPanic can parsed).bind fun _ steady => ⟨rfl, rfl, rfl, rfl, steady⟩

theorem atFwd_noPanic {p : Packet} (sane : path.Sane) (parsed : p.Parsed) : NoPanic (path.atFwd p) (Kept path) := by
  refine (IPv4Fwd.dispatchOne_noPanic parsed sane.inRange).bind fun (fwd, pushed) sound => ?_
  refine Ensures.foldlM ⟨rfl, rfl, rfl, rfl, rfl⟩ fun s (next, q) member kept => ?_
  cases next with
  | drop => exact kept
  | encapMux =>
    exact (atEncap_noPanic (kept.sane sane) (sound q member).1 (sound q member).2).mono fun _ => kept.trans

theorem atParse_noPanic {p : Packet} (sane : path.Sane) (chained : Chained p.particle) :
    NoPanic (path.atParse p) (Kept path) := by
  refine (IPv4Parse.dispatchOne_noPanic chained).bind fun (parse, pushed) sound => ?_
  refine Ensures.foldlM ⟨rfl, rfl, rfl, rfl, rfl⟩ fun s (next, q) member kept => ?_
  cases next with
  | drop => exact kept
  | l3Ipv4Fwd => exact (atFwd_noPanic (kept.sane sane) (sound q member)).mono fun _ => kept.trans

theorem atDecap_noPanic {p : Packet} {ptr : Nat} {before frame after : List UInt8} (sane : path.Sane)
    (long : etherHdrLen ≤ frame.length) (room : arpBytes ≤ (frame ++ after).length) :
    NoPanic (path.atDecap (p.framed ptr before frame after)) (Kept path) := by
  have can : CanArp path.decap.intf path.pool := ⟨sane.decap, Nat.le_of_add_left_le sane.room⟩
  refine (EthDecap.dispatchOne_noPanic can long room).bind fun (decap, pushed, pool) ⟨intf, steady, sound⟩ => ?_
  have start : Kept path { path with decap, pool } := ⟨rfl, intf, rfl, rfl, steady⟩
  refine Ensures.foldlM start fun s (next, q) member kept => ?_
  cases next with
  | drop => exact kept
  | tx => exact kept.trans ⟨rfl, rfl, rfl, rfl, rfl⟩
  | l3Ipv4Parse =>
    have chained : Chained q.particle := by
      rw [sound q member]
      refine ⟨List.cons_ne_nil _ _, fun part inside => ?_⟩
      rw [List.mem_singleton.mp inside, Particle.InBounds]
      simp only [List.length_append]
      omega
    exact (atParse_noPanic (kept.sane sane) chained).mono fun _ => kept.trans

/-- The frame has a whole link header and fits behind the headroom of a buffer. -/
def Handled (path : Path T σ) (frame : List UInt8) : Prop :=
  etherHdrLen ≤ frame.length ∧ path.ifNode.intf.headroom + frame.length ≤ PacketPool.particleSz path.pool

theorem receive_noPanic {frame : List UInt8} (sane : path.Sane) (arrived : 1 ≤ frame.length)
    (handled : (PacketPool.pkt path.pool path.ifNode.intf.headroom).1 = none ∨ path.Handled frame) :
    NoPanic (path.receive frame) (Kept path) := by
  have room := sane.room
  cases allocated : PacketPool.pkt path.pool path.ifNode.intf.headroom with
  | mk pkt pool =>
    have steady := Packet.pkt_steady allocated
    rw [allocated] at handled
    cases pkt with
    | none =>
      rw [receive, vecSize, IfNode.rx_empty 255 allocated, Except.ok_bind]
      exact ⟨rfl, rfl, rfl, rfl, steady⟩
    | some pkt =>
      obtain ⟨long, fits⟩ := handled.resolve_left nofun
      obtain ⟨q, ptr, before, after, pool', received, steady, size⟩ := IfNode.rx_fits 254 allocated arrived fits
      have start : Kept path { path with pool := pool' } := ⟨rfl, rfl, rfl, rfl, steady⟩
      rw [receive, vecSize, received, Except.ok_bind]
      refine Ensures.bind ((atDecap_noPanic (start.sane sane) long (by omega)).mono fun _ => start.trans) ?_
      exact fun _ kept => kept

theorem receive_fails {frame : List UInt8} {pkt : Packet} {pool : σ} (sane : path.Sane) (arrived : 1 ≤ frame.length)
    (allocated : PacketPool.pkt path.pool path.ifNode.intf.headroom = (some pkt, pool)) (bad : ¬path.Handled frame) :
    path.receive frame = .error .assertion := by
  have room := sane.room
  by_cases fits : path.ifNode.intf.headroom + frame.length ≤ PacketPool.particleSz path.pool
  · have short : frame.length < etherHdrLen := Nat.lt_of_not_le fun long => bad ⟨long, fits⟩
    obtain ⟨q, ptr, before, after, pool', received, _⟩ := IfNode.rx_fits 254 allocated arrived fits
    rw [receive, vecSize, received, Except.ok_bind]
    dsimp only
    rw [List.foldlM_cons]
    dsimp only
    rw [atDecap, EthDecap.dispatchOne_short short]
    rfl
  · rw [receive, vecSize, IfNode.rx_long 255 allocated (by omega) (Nat.lt_of_not_le fits)]
    rfl

end Path

/-- A received frame crashes the thread exactly when there is a packet to receive
it in and it has no whole link header or does not fit into a buffer; frames that
fit leave the thread ready for more, however many they are. -/
theorem frame_survives_iff {T : Type} [IpLookupTable T] {path : Path T σ} (sane : path.Sane) {frame : List UInt8}
    (arrived : 1 ≤ frame.length) :
    ((NoPanic (path.receive frame) fun _ => True) ↔
      (PacketPool.pkt path.pool path.ifNode.intf.headroom).1 = none ∨ path.Handled frame) ∧
    ∀ frames : List (List UInt8), (∀ frame ∈ frames, path.Handled frame) →
      NoPanic (frames.foldlM Path.receive path) Path.Sane := by
  refine ⟨⟨fun survives => ?_, fun handled => (Path.receive_noPanic sane arrived handled).mono fun _ _ => trivial⟩,
    fun frames handled => ?_⟩
  · cases allocated : PacketPool.pkt path.pool path.ifNode.intf.headroom with
    | mk pkt pool =>
      cases pkt with
      | none => exact Or.inl rfl
      | some pkt =>
        refine Or.inr ?_
        by_contra bad
        have crash := survives.error (Path.receive_fails sane arrived allocated bad)
        cases crash
  · have run : NoPanic (frames.foldlM Path.receive path) (Path.Kept path) := by
      refine Ensures.foldlM ⟨rfl, rfl, rfl, rfl, rfl⟩ fun s frame member kept => ?_
      obtain ⟨long, fits⟩ := handled frame member
      have here : s.Handled frame := ⟨long, by rw [kept.ifNode, kept.size]; exact fits⟩
      have arrived : 1 ≤ frame.length := Nat.le_trans (by decide) long
      exact (Path.receive_noPanic (kept.sane sane) arrived (Or.inr here)).mono fun _ => kept.trans
    exact run.mono fun _ kept => kept.sane sane

section Example

def bigHeap : PktsHeap where
  allocFail := 0
  pkts := [received []]
  particles := List.replicate 2 ⟨0, List.replicate 3072 0, 0, 0, Particle.empty_le⟩
  particleSz := 3072
  sized p member := by
    rw [List.eq_of_mem_replicate member]
    exact List.length_replicate

def idlePath : Path RouteList PktsHeap where
  ifNode := ⟨{ hostY with headroom := Control.maxHeadroom }⟩
  decap := ⟨hostY, fun _ => none, ⟨true, []⟩, 0, 0, 0, 0, 0⟩
  parse := ⟨0⟩
  fwd := ⟨.table1, 0, 0⟩
  table := .new
  encap _ := none
  pool := bigHeap
  tx := []

theorem idlePath_sane : idlePath.Sane where
  room := by decide
  decap := rfl
  encap _ _ := nofun
  inRange ip found len nhop ifindex hit := by
    obtain ⟨_, _, here⟩ := List.exists_of_findSome?_eq_some hit
    cases here

/-- A frame of one byte and one of 2973 bytes, one more than a buffer of 3072
bytes has behind its headroom, crash the thread. -/
theorem frame_crashes : idlePath.Sane ∧ idlePath.receive [0] = .error .assertion ∧
    idlePath.receive (List.replicate 2973 0) = .error .assertion := by
  have allocated : ∃ pkt pool, PacketPool.pkt idlePath.pool idlePath.ifNode.intf.headroom = (some pkt, pool) :=
    ⟨_, _, rfl⟩
  obtain ⟨pkt, pool, allocated⟩ := allocated
  refine ⟨idlePath_sane, Path.receive_fails idlePath_sane (Nat.le_refl _) allocated fun handled => ?_,
    Path.receive_fails idlePath_sane ?_ allocated fun handled => ?_⟩
  · exact absurd handled.1 (by decide)
  · rw [List.length_replicate]
    decide
  · have fits := handled.2
    rw [List.length_replicate] at fits
    exact absurd fits (by decide)

theorem frame_survives_header : NoPanic (idlePath.receive (List.replicate etherHdrLen 0)) fun _ => True := by
  have length : (List.replicate etherHdrLen (0 : UInt8)).length = etherHdrLen := List.length_replicate
  have handled : idlePath.Handled (List.replicate etherHdrLen 0) := ⟨length.ge, by rw [length]; decide⟩
  have arrived : 1 ≤ (List.replicate etherHdrLen (0 : UInt8)).length := by
    rw [length]
    decide
  rw [(frame_survives_iff idlePath_sane arrived).1]
  exact Or.inr handled

end Example

end R2
