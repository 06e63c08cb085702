import R2.Path.Refines

namespace R2

namespace Router

/-- This router has the link address `mac` for the next hop of a packet, which it
reaches over the interface `ifindex`. -/
def Toward (r : Router) (packet mac : List UInt8) (ifindex : Nat) : Prop :=
  ∃ nhop port neighbours, iphdrMinLen ≤ packet.length ∧
    r.route (ipAt packet iphdrDaddrOff) = some (nhop, ifindex) ∧ r.link ifindex = some (port, neighbours) ∧
    neighbours (nextHop packet nhop) = some ⟨mac⟩

/-- An IPv4 packet between two link addresses. -/
def ipv4Frame (dst src packet : List UInt8) : List UInt8 := dst ++ src ++ toBeBytes ethTypeIpv4 ++ packet

variable {r : Router} {dst src packet mac : List UInt8}

theorem ipv4Frame_length (six : dst.length = ethAlen) (six' : src.length = ethAlen) :
    (ipv4Frame dst src packet).length = etherHdrLen + packet.length := by
  simp only [ipv4Frame, List.length_append, six, six']
  rfl

theorem ipv4Frame_dst (six : dst.length = ethAlen) :
    macAt (ipv4Frame dst src packet) EthOffsets.ethDaddrOff.off = dst := by
  simp only [macAt, ipv4Frame, List.append_assoc]
  change window ([] ++ dst ++ _) _ _ = _
  exact window_middle rfl (by rw [six])

theorem ipv4Frame_type (six : dst.length = ethAlen) (six' : src.length = ethAlen) :
    be16At (ipv4Frame dst src packet) EthOffsets.ethTypeOff.off = ethTypeIpv4 := by
  have inside : EthOffsets.ethTypeOff.off + 2 ≤ (ipv4Frame dst src packet).length := by
    rw [ipv4Frame_length six six']
    exact Nat.le_add_right ..
  have read : readBe16 (ipv4Frame dst src packet) EthOffsets.ethTypeOff.off = .ok ethTypeIpv4 := by
    refine readBe16_of_window ?_ (by decide)
    exact window_middle (by rw [List.length_append, six, six']; rfl) rfl
  exact Except.ok.inj ((readBe16_eq inside).symm.trans read)

theorem ipv4Frame_drop (six : dst.length = ethAlen) (six' : src.length = ethAlen) :
    (ipv4Frame dst src packet).drop etherHdrLen = packet := by
  have header : (dst ++ src ++ toBeBytes ethTypeIpv4).length = etherHdrLen := by
    simp only [List.length_append, six, six']
    rfl
  rw [ipv4Frame, ← header, List.drop_left]

/-- A router forwards a packet that is sent to it. -/
theorem step_ipv4Frame (six : r.own.mac.length = ethAlen) (six' : src.length = ethAlen) :
    r.step (ipv4Frame r.own.mac src packet) = r.forward packet := by
  have type := @ipv4Frame_type r.own.mac src packet six six'
  have other : ¬ethTypeIpv4 = ethTypeArp := by decide
  rw [step, type, if_neg other, if_neg (not_not_intro (ipv4Frame_dst six)), if_pos rfl, ipv4Frame_drop six six']

/-- Where a packet goes depends on the routes and the links alone. -/
theorem forward_congr {r' : Router} (route : r'.route = r.route) (link : r'.link = r.link) (packet : List UInt8) :
    (r'.forward packet).2 = (r.forward packet).2 := by
  unfold forward
  split
  · rfl
  · rw [route]
    dsimp only
    split
    · rfl
    · rw [link]
      split
      · rfl
      · split <;> rfl

/-- A packet that has a next hop is passed on as it is, under new link addresses. -/
theorem step_toward (six : r.own.mac.length = ethAlen) (six' : src.length = ethAlen)
    {ifindex : Nat} (toward : r.Toward packet mac ifindex) :
    ∃ port neighbours, r.link ifindex = some (port, neighbours) ∧
      r.step (ipv4Frame r.own.mac src packet) = (r, some ⟨ifindex, ipv4Frame mac port.mac packet, false⟩) := by
  obtain ⟨nhop, port, neighbours, long, hit, link, known⟩ := toward
  refine ⟨port, neighbours, link, ?_⟩
  rw [step_ipv4Frame six six', forward_known (Nat.not_lt_of_le long) hit link known]
  rfl

end Router

section Network

variable {T σ ι : Type} [IpLookupTable T]

/-- A frame goes from thread to thread: what one sends out of an interface is what the thread at
the other end of the cable receives. -/
inductive Relayed [PacketPool σ] [DecidableEq ι] (cable : ι → Nat → Option ι) :
    (ι → Path T σ) → List ι → List UInt8 → (ι → Path T σ) → List UInt8 → Prop
  | arrived {net frame} : Relayed cable net [] frame net frame
  | hop {net : ι → Path T σ} {i rest frame path sent ifindex out net' last} : (net i).receive frame = .ok path →
      (net i).wire = .ok sent → path.wire = .ok (sent ++ [(ifindex, out)]) →
      (∀ j ∈ rest.head?, cable i ifindex = some j) →
      Relayed cable (Function.update net i path) rest out net' last → Relayed cable net (i :: rest) frame net' last

/-- The link address that a frame for these hops goes to, `mac` after the last one. -/
def hopMac (net : ι → Path T σ) (mac : List UInt8) : List ι → List UInt8
  | [] => mac
  | i :: _ => (net i).decap.intf.l2Addr

/-- Each hop has the next one, over its cable, as its next hop. -/
def Leads (cable : ι → Nat → Option ι) (net : ι → Path T σ) (packet mac : List UInt8) : List ι → Prop
  | [] => True
  | i :: rest =>
    (∃ ifindex, (net i).router.Toward packet (hopMac net mac rest) ifindex ∧
      ∀ j ∈ rest.head?, cable i ifindex = some j) ∧ Leads cable net packet mac rest

/-- A network in which each thread can take `n` frames with this packet. -/
structure Ready [PacketPool σ] (net : ι → Path T σ) (packet : List UInt8) (n : Nat) : Prop where
  service : ∀ i, (net i).InService
  wire : ∀ i, ∃ sent, (net i).wire = .ok sent
  room : ∀ i, (net i).ifNode.intf.headroom + etherHdrLen + packet.length ≤ PacketPool.particleSz (net i).pool
  plenty : ∀ i, Plenty (3 * n) (net i).pool

variable {cable : ι → Nat → Option ι} {net : ι → Path T σ} {packet mac src : List UInt8}

theorem Leads.congr {net' : ι → Path T σ} {hops : List ι} (leads : Leads cable net packet mac hops)
    (own : ∀ i, (net' i).decap.intf = (net i).decap.intf) (router : ∀ i, (net' i).router = (net i).router) :
    Leads cable net' packet mac hops ∧ hopMac net' mac hops = hopMac net mac hops := by
  induction hops with
  | nil => exact ⟨trivial, rfl⟩
  | cons i rest ih =>
    obtain ⟨⟨ifindex, toward, cabled⟩, leads⟩ := leads
    obtain ⟨leads', same⟩ := ih leads
    exact ⟨⟨⟨ifindex, by rw [router i, same]; exact toward, cabled⟩, leads'⟩, congrArg Interface.l2Addr (own i)⟩

variable [PacketPool σ] [SteadyPool σ] [DecidableEq ι]

/-- One hop passes the packet on and is ready for more. -/
theorem Ready.hop {i : ι} {n ifindex : Nat} (ready : Ready net packet (n + 1)) (six : src.length = ethAlen)
    (toward : (net i).router.Toward packet mac ifindex) :
    ∃ path sent src', (net i).receive (Router.ipv4Frame (net i).decap.intf.l2Addr src packet) = .ok path ∧
      (net i).wire = .ok sent ∧ path.wire = .ok (sent ++ [(ifindex, Router.ipv4Frame mac src' packet)]) ∧
      src'.length = ethAlen ∧ path.router = (net i).router ∧ path.decap.intf = (net i).decap.intf ∧
      Ready (Function.update net i path) packet n := by
  have own := (ready.service i).decap
  obtain ⟨sent, wired⟩ := ready.wire i
  obtain ⟨port, neighbours, link, step⟩ := Router.step_toward own six toward
  have length := @Router.ipv4Frame_length (net i).decap.intf.l2Addr src packet own six
  have room := ready.room i
  have type := @Router.ipv4Frame_type (net i).decap.intf.l2Addr src packet own six
  have handled : (net i).Handled (Router.ipv4Frame (net i).decap.intf.l2Addr src packet) :=
    ⟨by omega, by omega⟩
  have other : ¬ethTypeIpv4 = ethTypeArp := by decide
  obtain ⟨path, run, service, kept, router, wire, left⟩ := Path.receive_attends (ready.service i) handled
    fun arp => absurd (type.symm.trans arp) other
  have full : (net i).supply = ⟨true, true⟩ := Path.supply_of_plenty (ready.plenty i)
  have attended : (net i).router.attend (net i).supply (Router.ipv4Frame (net i).decap.intf.l2Addr src packet) =
      ((net i).router, [⟨ifindex, Router.ipv4Frame mac port.mac packet, false⟩]) := by
    have same : (net i).router.step (Router.ipv4Frame (net i).decap.intf.l2Addr src packet) =
      ((net i).router, some ⟨ifindex, Router.ipv4Frame mac port.mac packet, false⟩) := step
    rw [full, Router.attend, if_pos rfl, same]
    rfl
  rw [attended] at router wire
  have out : port.mac.length = ethAlen := by
    obtain ⟨node, plugged, same⟩ := Option.map_eq_some_iff.mp link
    rw [← (Prod.mk.inj same).1]
    exact (ready.service i).encap ifindex node plugged
  refine ⟨path, sent, port.mac, run, wired, wire sent wired, out, router, kept.decap, ?_, ?_, ?_, ?_⟩
  · exact (Function.forall_update_iff net _).mpr ⟨service, fun j _ => ready.service j⟩
  · exact (Function.forall_update_iff net fun _ path => ∃ sent, path.wire = .ok sent).mpr
      ⟨⟨_, wire sent wired⟩, fun j _ => ready.wire j⟩
  · refine (Function.forall_update_iff net fun _ path =>
      path.ifNode.intf.headroom + etherHdrLen + packet.length ≤ PacketPool.particleSz path.pool).mpr
      ⟨?_, fun j _ => ready.room j⟩
    rw [kept.ifNode, kept.size]
    exact room
  · exact (Function.forall_update_iff net fun _ path => Plenty (3 * n) path.pool).mpr
      ⟨left _ (ready.plenty i), fun j _ => (ready.plenty j).pred.pred.pred⟩

/-- An IPv4 packet arrives at the end of any walk over the cables of a network byte for byte as
it was sent, its TTL and its checksum among the bytes. Each router of the walk has the next one as
its next hop, and packets left for each time the walk comes by. -/
theorem packet_relayed_unchanged {hops : List ι} (ready : Ready net packet hops.length) (six : src.length = ethAlen)
    (leads : Leads cable net packet mac hops) : ∃ net' src', src'.length = ethAlen ∧
      Relayed cable net hops (Router.ipv4Frame (hopMac net mac hops) src packet) net'
        (Router.ipv4Frame mac src' packet) := by
  induction hops generalizing net src with
  | nil => exact ⟨net, src, six, .arrived⟩
  | cons i rest ih =>
    obtain ⟨⟨ifindex, toward, cabled⟩, leads⟩ := leads
    obtain ⟨path, sent, between, run, before, after, six', router, own, ready'⟩ := ready.hop six toward
    have routers : ∀ j, (Function.update net i path j).router = (net j).router :=
      (Function.forall_update_iff net fun j path => path.router = (net j).router).mpr ⟨router, fun _ _ => rfl⟩
    have owns : ∀ j, (Function.update net i path j).decap.intf = (net j).decap.intf :=
      (Function.forall_update_iff net fun j path => path.decap.intf = (net j).decap.intf).mpr ⟨own, fun _ _ => rfl⟩
    obtain ⟨leads', same⟩ := leads.congr owns routers
    obtain ⟨net', src', six'', relayed⟩ := ih ready' six' leads'
    rw [same] at relayed
    exact ⟨net', src', six'', .hop run before after cabled relayed⟩

end Network

theorem pingPath_toward (i : Bool) {packet : List UInt8} (long : iphdrMinLen ≤ packet.length) :
    (pingPath i).router.Toward packet (pingIntf !i).l2Addr 3 := by
  refine ⟨(pingIntf !i).ipv4Addr, (pingIntf i).port, fun _ => some ⟨(pingIntf !i).l2Addr⟩, long, ?_, rfl, rfl⟩
  change (pingPath i).table.route (ipAt packet iphdrDaddrOff) = _
  rw [IPv4Table.route, pingPath_longestMatch]

/-- A packet goes there and back between two routers whose default routes lead to
each other. -/
theorem packet_relayed_back : ∃ net' src', Relayed (fun i _ => some !i) pingPath [false, true]
    (Router.ipv4Frame (pingIntf false).l2Addr [2, 0, 0, 0, 0, 9] (List.replicate 20 1)) net'
    (Router.ipv4Frame (pingIntf false).l2Addr src' (List.replicate 20 1)) := by
  have ready : Ready pingPath (List.replicate 20 1) [false, true].length := by
    refine ⟨pingPath_service, fun i => ⟨[], rfl⟩, fun i => ?_, fun i => PktsHeap.plenty ?_ ?_⟩
    · cases i <;> exact Nat.le_of_ble_eq_true rfl
    · cases i <;> exact Nat.le_refl 6
    · cases i <;> exact Nat.le_refl 6
  have leads : Leads (fun i _ => some !i) pingPath (List.replicate 20 1) (pingIntf false).l2Addr [false, true] :=
    ⟨⟨3, pingPath_toward false (by decide), by decide⟩, ⟨3, pingPath_toward true (by decide), nofun⟩, trivial⟩
  have six : [2, 0, 0, 0, 0, (9 : UInt8)].length = ethAlen := rfl
  obtain ⟨net', src', -, relayed⟩ := packet_relayed_unchanged ready six leads
  exact ⟨net', src', relayed⟩

end R2
