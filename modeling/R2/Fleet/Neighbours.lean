import R2.Fleet.Service

namespace R2

/-- An answer to the port teaches it who has the address. -/
theorem Router.step_arpReply {r : Router} {mac : List UInt8} (own : r.own.mac.length = ethAlen)
    (six : mac.length = ethAlen) (ip : Ipv4Addr) :
    r.step (arpFrame arpOpcodeReply r.own.mac mac ip r.own.mac r.own.ip.octets) = (r.learn ip mac, none) := by
  generalize here : arpFrame arpOpcodeReply r.own.mac mac ip r.own.mac r.own.ip.octets = frame
  have four : r.own.ip.octets.length = 4 := rfl
  have reads := @arpFrame_reads _ _ _ _ arpOpcodeReply ip own six own four (by decide) []
  have length := arpFrame_length arpOpcodeReply ip own six own four
  rw [List.append_nil, here] at reads
  rw [here] at length
  have read16 {off value : Nat} (inside : off + 2 ≤ arpBytes) (read : readBe16 frame off = .ok value) :
      be16At frame off = value := Except.ok.inj ((readBe16_eq (by omega)).symm.trans read)
  have readMac {off : Nat} {value : List UInt8} (inside : off + ethAlen ≤ arpBytes)
      (read : slice frame off (off + ethAlen) = .ok value) : macAt frame off = value :=
    Except.ok.inj ((slice_mac (by omega)).symm.trans read)
  have sender : ipAt frame EthOffsets.ethSenderIpOff.off = ip := by
    have inside : EthOffsets.ethSenderIpOff.off + 4 ≤ frame.length := by rw [length]; decide
    exact Except.ok.inj ((readIp_eq inside).symm.trans reads.senderIp)
  have target : ipAt frame EthOffsets.ethTargetIpOff.off = r.own.ip := by
    have inside : EthOffsets.ethTargetIpOff.off + 4 ≤ frame.length := by rw [length]; decide
    exact Ipv4Addr.octets_inj.mp (Except.ok.inj ((slice_octets inside).symm.trans reads.targetIp))
  have opcode := read16 (by decide) reads.opcode
  have concerns : r.Concerns frame := ⟨read16 (by decide) reads.proto, target⟩
  rw [Router.step, if_pos (read16 (by decide) reads.ethtype), Router.hear_reply concerns (by rw [opcode]; decide)
    ⟨opcode, readMac (by decide) reads.targetMac⟩, sender, readMac (by decide) reads.senderMac]

theorem Router.learn_heard (r : Router) (ip : Ipv4Addr) (mac : List UInt8) : ((r.learn ip mac).heard ip).isSome := by
  unfold Router.learn
  cases known : r.heard ip with
  | none =>
    dsimp only
    rw [Function.update_self]
    rfl
  | some raw =>
    dsimp only
    rw [known]
    rfl

namespace Fleet

open Control

variable {n : Nat} {T σ : Type} [IpLookupTable T] [PacketPool σ] [KeepsLeaves T] [SteadyPool σ] {fleet : Fleet n T σ}

/-- An answer that the owner of an interface gets is known to all threads once they are at rest. -/
theorem Reached.hears (reached : Reached fleet) (quiet : Quiet fleet)
    (small : ∀ i, Registered fleet.r2 i → i < maxInterfaces) {t : Fin n} {i k : Nat} {path : Path T σ}
    (owns : (fleet.thread t).Owns i) (found : (fleet.thread t).path i = some path)
    (roomy : Roomy (fleet.thread t).pool) (plenty : Plenty (k + 3) (fleet.thread t).pool) {mac : List UInt8}
    (six : mac.length = ethAlen) (ip : Ipv4Addr) :
    ∃ fleet' path', Reached fleet' ∧ Quiet fleet' ∧ fleet'.r2 = fleet.r2 ∧
      (∃ raw, ∀ u, ∀ r ∈ [Client.ethDecap i, .ethEncap i], (fleet'.thread u).macs r ip = some raw) ∧
      ((fleet'.thread t).pool = path'.pool ∧ (fleet'.thread t).tx = path'.tx) ∧
      (∀ u ≠ t, (fleet'.thread u).pool = (fleet.thread u).pool ∧ (fleet'.thread u).tx = (fleet.thread u).tx) ∧
      path.Kept path' ∧ Plenty k path'.pool ∧ ∀ sent, path.wire = .ok sent → path'.wire = .ok sent := by
  obtain ⟨goal, holds⟩ := reached.holds
  obtain ⟨service, _, headroom⟩ := holds.service quiet reached.equipped small found roomy
  obtain ⟨pool, _⟩ := Forwarder.path_packets found
  have own : path.router.own.mac.length = ethAlen := service.decap
  have step := Router.step_arpReply own six ip
  have length := arpFrame_length arpOpcodeReply ip own six own (show path.router.own.ip.octets.length = 4 from rfl)
  have handled : path.Handled (arpFrame arpOpcodeReply path.router.own.mac mac ip path.router.own.mac
      path.router.own.ip.octets) :=
    ⟨by rw [length]; decide, by rw [length, headroom, pool]; exact roomy.1⟩
  obtain ⟨path', run, _, kept, router, wire, left⟩ := Path.receive_attends service handled fun _ => length.ge
  have full : path.supply = ⟨true, true⟩ := Path.supply_of_plenty (pool ▸ plenty)
  rw [full, Router.attend, if_pos rfl, step] at router wire
  have told : path'.decap.mac = (path.router.learn ip mac).heard := congrArg Router.heard router
  have heard : (path'.decap.mac ip).isSome := told ▸ path.router.learn_heard ip mac
  obtain ⟨raw, known⟩ := Option.isSome_iff_exists.mp heard
  have after := reached.step (.frame owns found run)
  obtain ⟨fleet', reached', quiet', r2, packets, knows⟩ := after.rest fun u msg member => by
    change msg ∈ fleet.inbox u at member
    rw [quiet.inbox] at member
    cases member
  have owner := packets t
  simp only [Function.update_self] at owner
  refine ⟨fleet', path', reached', quiet', r2, ⟨raw, ?_⟩, owner, fun u other => ?_, kept, left k (pool ▸ plenty),
    fun sent before => ?_⟩
  · have met := knows t (.ethDecap i) ip raw (by
      dsimp only
      rw [Function.update_self, Forwarder.put_macs (holds.inv.sound t) found, if_pos rfl]
      exact known)
    obtain ⟨goal', holds'⟩ := reached'.holds
    intro u r member
    rw [holds'.spread.settled quiet' u t member (List.mem_cons_self ..)]
    exact met
  · have same := packets u
    simp only [Function.update_of_ne other] at same
    exact same
  · exact (wire sent before).trans (congrArg Except.ok (List.append_nil sent))

section Example

theorem openedCtx_small (i : Nat) (known : Registered openedCtx i) : i < maxInterfaces := by
  obtain ⟨name, named⟩ := known
  change Function.update (fun _ => none) 1 (some "eth0") i = some name at named
  rw [Function.update_apply] at named
  split at named
  · rename_i one
    rw [one]
    decide
  · cases named

/-- An answer reaches the owner of the interface, and then both threads know who has the address. -/
theorem port_heard : ∃ (fleet : Fleet 2 RouteList PktsHeap) (raw : EthMacRaw), Reached fleet ∧ Quiet fleet ∧
    fleet.r2 = openedCtx ∧
    (∀ u, ∀ r ∈ [Client.ethDecap 1, .ethEncap 1], (fleet.thread u).macs r ⟨10, 0, 0, 1⟩ = some raw) ∧
    ∀ u, Roomy (fleet.thread u).pool ∧ Plenty 3 (fleet.thread u).pool ∧
      PacketPool.particleSz (fleet.thread u).pool = 3072 ∧
      ∀ path : Path RouteList PktsHeap, path.tx = (fleet.thread u).tx → path.wire = .ok [] := by
  obtain ⟨fleet, reached, quiet, r2, packets⟩ := port_open
  obtain ⟨goal, holds⟩ := reached.holds
  obtain ⟨t, owns⟩ := holds.inv.owned quiet.inbox (i := 1) (by rw [r2]; rfl)
  obtain ⟨path, found⟩ := holds.path quiet t (i := 1) ⟨"eth0", by rw [r2]; rfl⟩
  obtain ⟨pool, tx⟩ := Forwarder.path_packets found
  have roomy : Roomy deepHeap := ⟨by decide, by decide⟩
  have plenty : Plenty 6 deepHeap := PktsHeap.plenty (by decide) (by decide)
  obtain ⟨fleet', path', reached', quiet', r2', ⟨raw, known⟩, own, others, kept, left, wire⟩ :=
    reached.hears quiet (r2 ▸ openedCtx_small) owns found ((packets t).1 ▸ roomy) (k := 3) ((packets t).1 ▸ plenty)
      (show [2, 0, 0, 0, 0, 7].length = ethAlen from rfl) ⟨10, 0, 0, 1⟩
  have silent {p q : Path RouteList PktsHeap} (same : p.tx = q.tx) : p.wire = q.wire := by
    rw [Path.wire, Path.wire, same]
  have before (p : Path RouteList PktsHeap) (empty : p.tx = []) : p.wire = .ok [] := by
    rw [Path.wire, empty]
    rfl
  refine ⟨fleet', raw, reached', quiet', r2'.trans r2, known, fun u => ?_⟩
  by_cases same : u = t
  · subst same
    have size : PacketPool.particleSz (fleet'.thread u).pool = 3072 := by
      rw [own.1, kept.size, pool, (packets u).1]
      rfl
    refine ⟨⟨by rw [size]; decide, by rw [size]; decide⟩, own.1 ▸ left, size, fun p there => ?_⟩
    rw [silent (there.trans own.2)]
    exact wire [] (before path (tx.trans (packets u).2))
  · rw [(others u same).1, (others u same).2, (packets u).1, (packets u).2]
    exact ⟨roomy, PktsHeap.plenty (by decide) (by decide), rfl, before⟩

end Example

section Results

omit [KeepsLeaves T] [SteadyPool σ] in
/-- In every reachable state no two addresses that any threads have for one next hop of an interface
differ, in `EthDecap` or `EthEncap`, since neither node ever replaces one. Once the threads are at rest
all have the same addresses. -/
theorem neighbours_agree (reached : Reached fleet) (i : Nat) :
    (∀ t u, ∀ r ∈ [Client.ethDecap i, .ethEncap i], ∀ s ∈ [Client.ethDecap i, .ethEncap i], ∀ ip raw raw',
      (fleet.thread t).macs r ip = some raw → (fleet.thread u).macs s ip = some raw' → raw = raw') ∧
    (Quiet fleet → ∀ t u, ∀ r ∈ [Client.ethDecap i, .ethEncap i], ∀ s ∈ [Client.ethDecap i, .ethEncap i],
      (fleet.thread t).macs r = (fleet.thread u).macs s) := by
  obtain ⟨goal, inv, spread, _, _⟩ := reached.holds
  refine ⟨fun t u r member s member' ip raw raw' known known' => ?_, fun quiet t u r member s member' => ?_⟩
  · exact @Spread.agrees _ _ _ _ _ spread inv ⟨i, ip, raw⟩ ⟨i, ip, raw'⟩ (.known t r member known)
      (.known u s member' known') rfl rfl
  · exact spread.settled quiet t u member member'

/-- The owner has heard an address that both threads now have. -/
theorem neighbours_agree_heard : ∃ (fleet : Fleet 2 RouteList PktsHeap) (raw : EthMacRaw), Reached fleet ∧
    (fleet.thread 0).macs (.ethDecap 1) ⟨10, 0, 0, 1⟩ = some raw ∧
    (fleet.thread 0).macs (.ethDecap 1) = (fleet.thread 1).macs (.ethEncap 1) := by
  obtain ⟨fleet, raw, reached, quiet, _, known, _⟩ := port_heard
  exact ⟨fleet, raw, reached, known 0 _ (List.mem_cons_self ..), (neighbours_agree reached 1).2 quiet 0 1 _
    (List.mem_cons_self ..) _ (List.mem_cons_of_mem _ (List.mem_cons_self ..))⟩

/-- At rest the threads forward as one router, with the routes of the control threads and the neighbours
that every thread has: it does not matter which thread a packet comes to, nor over which interface. All
interfaces have an index that `EncapMux` has an edge for, and the pool of the thread has buffers with room
for the frame, and three packets left. -/
theorem fleet_forwards_as_one (reached : Reached fleet) (quiet : Quiet fleet)
    (small : ∀ i, Registered fleet.r2 i → i < maxInterfaces) :
    (∀ t i, Registered fleet.r2 i → ((fleet.thread t).path i).isSome) ∧
    ∃ r : Router, r.route = (fleet.r2.ipv4.deref fleet.r2.ipv4.which).route ∧ (∀ t, (fleet.thread t).link = r.link) ∧
      ∀ t i path src packet, (fleet.thread t).path i = some path → src.length = ethAlen →
        Roomy (fleet.thread t).pool → Plenty 3 (fleet.thread t).pool →
        maxHeadroom + etherHdrLen + packet.length ≤ PacketPool.particleSz (fleet.thread t).pool →
        ∃ path', path.receive (Router.ipv4Frame path.decap.intf.l2Addr src packet) = .ok path' ∧
          ∀ sent, path.wire = .ok sent → path'.wire =
            .ok (sent ++ (r.forward packet).2.toList.map fun e => (e.ifindex, e.frame)) := by
  obtain ⟨goal, holds⟩ := reached.holds
  have first : 0 < n := Nat.zero_lt_of_lt holds.inv.tidy.lastThread
  refine ⟨fun t i known => Option.isSome_iff_exists.mpr (holds.path quiet t known),
    ⟨⟨0, [], zeroIp⟩, fun _ => none, [], fun _ => 0, (fleet.r2.ipv4.deref fleet.r2.ipv4.which).route,
      (fleet.thread ⟨0, first⟩).link⟩, rfl, fun t => holds.link quiet t _,
    fun t i path src packet found six roomy plenty fits => ?_⟩
  obtain ⟨service, table, headroom⟩ := holds.service quiet reached.equipped small found roomy
  have own := service.decap
  have length := @Router.ipv4Frame_length path.decap.intf.l2Addr src packet own six
  have type := @Router.ipv4Frame_type path.decap.intf.l2Addr src packet own six
  obtain ⟨pool, _⟩ := Forwarder.path_packets found
  have handled : path.Handled (Router.ipv4Frame path.decap.intf.l2Addr src packet) :=
    ⟨by omega, by rw [headroom, pool]; omega⟩
  have other : ¬ethTypeIpv4 = ethTypeArp := by decide
  obtain ⟨path', run, _, _, _, wire, _⟩ := Path.receive_attends service handled
    fun arp => absurd (type.symm.trans arp) other
  have full : path.supply = ⟨true, true⟩ := Path.supply_of_plenty (pool ▸ plenty)
  have link : path.router.link = (fleet.thread ⟨0, first⟩).link :=
    (Forwarder.path_link found).trans (holds.link quiet t _)
  have route : path.router.route = (fleet.r2.ipv4.deref fleet.r2.ipv4.which).route := by
    rw [← table]
    rfl
  refine ⟨path', run, fun sent before => ?_⟩
  rw [wire sent before, full, Router.attend, if_pos rfl]
  have step := @Router.step_ipv4Frame path.router src packet own six
  change path.router.step (Router.ipv4Frame path.decap.intf.l2Addr src packet) = _ at step
  dsimp only
  rw [step, @Router.forward_congr ⟨⟨0, [], zeroIp⟩, fun _ => none, [], fun _ => 0,
    (fleet.r2.ipv4.deref fleet.r2.ipv4.which).route, (fleet.thread ⟨0, first⟩).link⟩ path.router route link packet]
  simp only [Bool.or_true, List.filter_true]

/-- A packet for the next hop of a route leaves both threads alike. -/
theorem fleet_forwards_as_one_ten : ∃ (fleet : Fleet 2 RouteList PktsHeap) (mac : EthMacRaw), Reached fleet ∧
    Quiet fleet ∧ ∀ t, ∃ path path', (fleet.thread t).path 1 = some path ∧ path.wire = .ok [] ∧
      path.receive (Router.ipv4Frame path.decap.intf.l2Addr [2, 0, 0, 0, 0, 9] (List.replicate 16 0 ++ [10, 1, 2, 3])) =
        .ok path' ∧
      path'.wire = .ok [(1, mac.bytes ++ eth0.l2Addr ++ toBeBytes ethTypeIpv4 ++
        (List.replicate 16 0 ++ [10, 1, 2, 3]))] := by
  obtain ⟨before, raw, reached₀, quiet₀, r2₀, known₀, packets₀⟩ := port_heard
  have called := reached₀.step (.call quiet₀.1 quiet₀.2.1 (r2₀ ▸ handle_addTen))
  have calm (u : Fin 2) : ∀ msg ∈ before.channel u ++ sentTo u (tenRouted.2 ++ []), msg.Mild := by
    intro msg member
    have told : tenRouted.2 =
        broadcast (.ipv4TableAdd .table2 (tenRouted.1.ipv4.deref .table2)) ++ [.await .table1] := rfl
    rw [quiet₀.2.2.2 u, told, sentTo_append, sentTo_append, sentTo_broadcast] at member
    rw [List.mem_singleton.mp member]
    trivial
  obtain ⟨fleet, reached, quiet, r2, packets, knows⟩ := called.rest calm
  have known (t : Fin 2) : (fleet.thread t).macs (.ethEncap 1) ⟨10, 0, 0, 1⟩ = some raw :=
    knows t _ _ _ (known₀ t _ (List.mem_cons_of_mem _ (List.mem_cons_self ..)))
  have small : ∀ i, Registered fleet.r2 i → i < maxInterfaces := by
    rw [r2]
    exact openedCtx_small
  obtain ⟨paths, r, route, link, forwards⟩ := fleet_forwards_as_one reached quiet small
  obtain ⟨goal, holds⟩ := reached.holds
  have hit : r.route (ipAt (List.replicate 16 0 ++ [10, 1, 2, 3]) iphdrDaddrOff) = some (⟨10, 0, 0, 1⟩, 1) := by
    rw [route, r2]
    rfl
  have named : fleet.r2.ifd.idx2name 1 = some "eth0" := by
    rw [r2]
    rfl
  obtain ⟨owner, intf, addr, masklen, _, listed, index, port⟩ := holds.inv.matched.known 1 "eth0" named
  have same : intf = eth0 := by
    rw [r2] at listed
    exact (Option.some.inj listed).symm
  subst same
  have plugged (t : Fin 2) :
      r.link 1 = some ((setV4addr eth0 addr masklen).port, (fleet.thread t).macs (.ethEncap 1)) := by
    rw [← link t]
    have shared : (fleet.thread t).shared = goal := holds.inv.heads.settled (quiet.inbox t)
    exact Forwarder.link_known (shared ▸ port.encap)
  refine ⟨fleet, raw, reached, quiet, fun t => ?_⟩
  obtain ⟨path, found⟩ := Option.isSome_iff_exists.mp (paths t 1 ⟨"eth0", named⟩)
  obtain ⟨roomy, plenty, size, silent⟩ := packets₀ t
  have still := packets t
  change (fleet.thread t).pool = (before.thread t).pool ∧ (fleet.thread t).tx = (before.thread t).tx at still
  rw [← still.1] at roomy plenty size
  rw [← still.2] at silent
  have wire := silent path (Forwarder.path_packets found).2
  obtain ⟨path', run, sends⟩ := forwards t 1 path [2, 0, 0, 0, 0, 9] (List.replicate 16 0 ++ [10, 1, 2, 3]) found rfl
    roomy plenty (by rw [size]; decide)
  refine ⟨path, path', found, wire, run, ?_⟩
  rw [sends [] wire, Router.forward_known (by decide) hit (plugged t) (known t)]
  rfl

end Results

end Fleet

end R2
