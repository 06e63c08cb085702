import R2.Control.Routable
import R2.Fleet.Settled
import R2.Path.Hops

namespace R2.Fleet

open Control

variable {n : Nat} {T σ : Type}

section Equipped

variable [IpLookupTable T] [KeepsLeaves T] {r2 r2' : Ctx T} {sections : List (List (Action n T))}

/-- What the control threads know fits the forwarding threads: the interfaces have
whole link addresses, and while their indices have edges of `EncapMux` so have the
routes. -/
structure Equipped (r2 : Ctx T) : Prop where
  interfaces : ∀ name intf, r2.ifd.interfaces name = some intf →
    intf.l2Addr.length = ethAlen ∧ intf.headroom = maxHeadroom
  tables : (∀ i, Registered r2 i → i < maxInterfaces) → ∀ table, Served (Registered r2) (r2.ipv4.deref table)

theorem Equipped.new : Equipped (Ctx.new n : Ctx T) where
  interfaces _ _ found := by cases found
  tables _ table := (new_sound n).tables table

theorem Equipped.route (equipped : Equipped r2) (ip : Ipv4Addr) (masklen : Nat) (nhop : Ipv4Addr) {ifindex : Nat}
    {add : Bool} (known : add = true → Registered r2 ifindex) :
    Equipped (addOrDelRoute (n := n) r2 ip masklen nhop ifindex add).1 where
  interfaces := equipped.interfaces
  tables small table := by
    change Served (Registered r2) ((Control.addOrDelRoute r2 ip masklen nhop ifindex add).1.ipv4.deref table)
    rw [addOrDelRoute_deref]
    exact (equipped.tables small table).run fun added => ⟨small _ (known added), known added⟩

theorem Called.equipped (called : Called r2 r2' sections) (tidy : Tidy n r2) (equipped : Equipped r2) :
    Equipped r2' := by
  have known {ifname : String} {intf : Interface} (found : r2.ifd.interfaces ifname = some intf) :
      Registered r2 intf.ifindex := ⟨ifname, (tidy.interfaces ifname intf found).2⟩
  cases called with
  | @addIf name ifindex l2Addr fd owner last six unused fresh =>
    refine ⟨fun other intf found => ?_, fun small table => ?_⟩
    · change Function.update r2.ifd.interfaces name (some (newInterface name ifindex l2Addr maxHeadroom)) other =
        some intf at found
      rw [Function.update_apply] at found
      split at found
      · cases Option.some.inj found
        exact ⟨six, rfl⟩
      · exact equipped.interfaces other intf found
    · have more (i : Nat) (here : Registered r2 i) : ∃ name',
          Function.update r2.ifd.idx2name ifindex (some name) i = some name' := by
        obtain ⟨name', named⟩ := here
        rw [Function.update_apply]
        split
        · exact ⟨name, rfl⟩
        · exact ⟨name', named⟩
      exact (equipped.tables (fun i here => small i (more i here)) table).mono more
  | addIp found => exact equipped.route _ _ _ fun _ => known found
  | @changeIp ifname intf addr masklen r2₁ deleted found _ run =>
    cases run
    have first := @Equipped.route n T _ _ r2 equipped intf.ipv4Addr intf.maskLen zeroIp intf.ifindex false nofun
    exact first.route _ _ _ fun _ => known found
  | addClass => exact equipped
  | route found => exact equipped.route _ _ _ fun _ => known found

theorem Reached.equipped [PacketPool σ] {fleet : Fleet n T σ} (reached : Reached fleet) : Equipped fleet.r2 := by
  induction reached with
  | start => exact .new
  | step before step ih =>
    obtain ⟨goal, inv, _⟩ := before.holds
    cases step with
    | @call c r2 locked later free idle run =>
      rcases handle_cases (n := n) inv.tidy c with ⟨_, _, _, refused⟩ | ⟨_, sections, done, called⟩
      · rw [refused] at run
        cases run
      · cases (Except.ok.inj (done.symm.trans run) : (_, Except.ok sections) = _)
        exact called.equipped inv.tidy ih
    | @refused c r2 text free idle run =>
      rcases handle_cases (n := n) inv.tidy c with ⟨thread, _, _, refused⟩ | ⟨_, sections, done, _⟩
      · cases (Except.ok.inj (refused.symm.trans run) : (_, Except.error _) = _)
        exact ⟨ih.interfaces, ih.tables⟩
      · rw [done] at run
        cases run
    | frame => exact ih
    | turn turn => cases turn <;> exact ih

end Equipped

section Links

/-- What a thread knows of the link of an interface. -/
def Forwarder.link (f : Forwarder T σ) (i : Nat) : Option (Port × MacTable) :=
  match f.graph.client (Names.l2EthEncap i) with
  | some (.ethEncap node) => some (node.intf.port, node.mac)
  | _ => none

theorem Forwarder.path_link [IpLookupTable T] {f : Forwarder T σ} {i : Nat} {path : Path T σ}
    (found : f.path i = some path) : path.router.link = f.link := by
  unfold Forwarder.path at found
  split at found
  · cases Option.some.inj found
    funext k
    unfold Forwarder.link Path.router
    dsimp only
    cases f.graph.client (Names.l2EthEncap k) with
    | none => rfl
    | some c => cases c <;> rfl
  · cases found

/-- The interface at an end of a link is in what the threads share. -/
theorem Forwarder.link_known {f : Forwarder T σ} {i : Nat} {intf : Interface}
    (shared : f.shared.client (Client.ethEncap i).name = some (.ethEncap (ethEncapNew intf))) :
    f.link i = some (intf.port, f.macs (.ethEncap i)) := by
  rw [Forwarder.client_shared] at shared
  obtain ⟨c, found, same⟩ := Option.map_eq_some_iff.mp shared
  cases c with
  | ethEncap node =>
    have intf : node.intf = intf := congrArg EthEncap.intf (Node.ethEncap.inj same)
    have macs := Forwarder.macs_known found
    change f.graph.client (Names.l2EthEncap i) = _ at found
    rw [Forwarder.link, found, macs, ← intf]
    rfl
  | _ => cases same

theorem Forwarder.link_unknown {f : Forwarder T σ} {i : Nat}
    (shared : f.shared.client (Client.ethEncap i).name = none) : f.link i = none := by
  rw [Forwarder.client_shared, Option.map_eq_none_iff] at shared
  change f.graph.client (Names.l2EthEncap i) = _ at shared
  rw [Forwarder.link, shared]

end Links

section Settled

variable [IpLookupTable T] [PacketPool σ] {fleet : Fleet n T σ} {goal : Graph (Node T) Packet}

omit [PacketPool σ] in
/-- At rest all threads know the same of every link. -/
theorem Holds.link (holds : Holds fleet goal) (quiet : Quiet fleet) (t u : Fin n) :
    (fleet.thread t).link = (fleet.thread u).link := by
  have shared (w : Fin n) : (fleet.thread w).shared = goal := holds.inv.heads.settled (quiet.inbox w)
  funext i
  cases known : fleet.r2.ifd.idx2name i with
  | none =>
    have none (w : Fin n) : (fleet.thread w).shared.client (Client.ethEncap i).name = none := by
      rw [shared]
      exact (holds.inv.matched.unknown i known).2.2
    rw [Forwarder.link_unknown (none t), Forwarder.link_unknown (none u)]
  | some name =>
    obtain ⟨owner, intf, addr, masklen, _, _, index, port⟩ := holds.inv.matched.known i name known
    have there (w : Fin n) : (fleet.thread w).shared.client (Client.ethEncap i).name =
        some (.ethEncap (ethEncapNew (setV4addr intf addr masklen))) := by
      rw [shared, ← index]
      exact port.encap
    have member : Client.ethEncap i ∈ [Client.ethDecap i, .ethEncap i] := List.mem_cons_of_mem _ (List.mem_cons_self ..)
    rw [Forwarder.link_known (there t), Forwarder.link_known (there u), holds.spread.settled quiet t u member member]

omit [PacketPool σ] in
/-- At rest a thread with a node for an interface has the interface as the control
threads know it. -/
theorem Holds.port (holds : Holds fleet goal) (quiet : Quiet fleet) (t : Fin n) {i : Nat}
    (some : ((fleet.thread t).graph.client (Client.ethDecap i).name).isSome ∨
      ((fleet.thread t).graph.client (Client.ethEncap i).name).isSome) :
    ∃ name intf owner addr masklen, fleet.r2.ifd.interfaces name = Option.some intf ∧ intf.ifindex = i ∧
      (fleet.thread t).shared.client (Client.ifNode i).name =
        Option.some (.ifNode (pinned owner (setV4addr intf addr masklen))) ∧
      (fleet.thread t).shared.client (Client.ethDecap i).name =
        Option.some (.ethDecap (ethDecapNew (setV4addr intf addr masklen))) ∧
      (fleet.thread t).shared.client (Client.ethEncap i).name =
        Option.some (.ethEncap (ethEncapNew (setV4addr intf addr masklen))) := by
  have shared : (fleet.thread t).shared = goal := holds.inv.heads.settled (quiet.inbox t)
  cases known : fleet.r2.ifd.idx2name i with
  | none =>
    obtain ⟨_, decap, encap⟩ := holds.inv.matched.unknown i known
    rw [← shared, Forwarder.client_shared, Option.map_eq_none_iff] at decap encap
    rw [decap, encap] at some
    cases some <;> contradiction
  | some name =>
    obtain ⟨owner, intf, addr, masklen, _, listed, index, port⟩ := holds.inv.matched.known i name known
    subst index
    rw [shared]
    exact ⟨name, intf, owner, addr, masklen, listed, rfl, port.rxTx, port.decap, port.encap⟩

omit [IpLookupTable T] [PacketPool σ] in
theorem Forwarder.path_encap {f : Forwarder T σ} {i k : Nat} {path : Path T σ} {node : EthEncap}
    (found : f.path i = some path) (plugged : path.encap k = some node) :
    f.graph.client (Client.ethEncap k).name = some (.ethEncap node) := by
  unfold Forwarder.path at found
  split at found
  · cases Option.some.inj found
    dsimp only at plugged
    split at plugged
    · rename_i here
      cases Option.some.inj plugged
      exact here
    · cases plugged
  · cases found

omit [IpLookupTable T] [PacketPool σ] in
theorem Forwarder.path_packets {f : Forwarder T σ} {i : Nat} {path : Path T σ} (found : f.path i = some path) :
    path.pool = f.pool ∧ path.tx = f.tx := by
  unfold Forwarder.path at found
  split at found
  · cases Option.some.inj found
    exact ⟨rfl, rfl⟩
  · cases found

omit [PacketPool σ] in
/-- At rest every thread has the nodes on the way of a frame from an interface. -/
theorem Holds.path (holds : Holds fleet goal) (quiet : Quiet fleet) (t : Fin n) {i : Nat}
    (known : Registered fleet.r2 i) : ∃ path, (fleet.thread t).path i = some path := by
  have shared : (fleet.thread t).shared = goal := holds.inv.heads.settled (quiet.inbox t)
  obtain ⟨name, named⟩ := known
  obtain ⟨owner, intf, addr, masklen, _, _, index, port⟩ := holds.inv.matched.known i name named
  have here {r : Client} {c : Node T} (there : goal.client r.name = some c) :
      ∃ d, (fleet.thread t).graph.client r.name = some d ∧ d.clone = c := by
    rw [← shared, Forwarder.client_shared] at there
    exact Option.map_eq_some_iff.mp there
  obtain ⟨rxTx, atRxTx, sameRxTx⟩ := here (r := .ifNode i) (index ▸ port.rxTx)
  obtain ⟨decap, atDecap, sameDecap⟩ := here (r := .ethDecap i) (index ▸ port.decap)
  obtain ⟨parse, atParse, sameParse⟩ := here holds.inv.matched.parse
  obtain ⟨fwd, atFwd, sameFwd⟩ := here holds.inv.matched.fwd
  cases rxTx with
  | ifNode rxTx =>
    cases decap with
    | ethDecap decap =>
      cases parse with
      | ipv4Parse parse =>
        cases fwd with
        | ipv4Fwd fwd table =>
          change (fleet.thread t).graph.client (Names.rxTx i) = _ at atRxTx
          change (fleet.thread t).graph.client (Names.l2EthDecap i) = _ at atDecap
          change (fleet.thread t).graph.client Names.l3Ipv4Parse = _ at atParse
          change (fleet.thread t).graph.client Names.l3Ipv4Fwd = _ at atFwd
          unfold Forwarder.path
          rw [atRxTx, atDecap, atParse, atFwd]
          exact ⟨_, rfl⟩
        | _ => cases sameFwd
      | _ => cases sameParse
    | _ => cases sameDecap
  | _ => cases sameRxTx

/-- A buffer has room for the headroom of an interface and an ARP frame. -/
def Roomy (pool : σ) : Prop :=
  maxHeadroom + arpBytes ≤ PacketPool.particleSz pool ∧ PacketPool.particleSz pool < 2 ^ 64

variable [KeepsLeaves T]

/-- At rest the nodes of a thread are in service, with the routes of the control
threads. -/
theorem Holds.service (holds : Holds fleet goal) (quiet : Quiet fleet) (equipped : Equipped fleet.r2)
    (small : ∀ i, Registered fleet.r2 i → i < maxInterfaces) {t : Fin n} {i : Nat} {path : Path T σ}
    (found : (fleet.thread t).path i = some path) (roomy : Roomy (fleet.thread t).pool) :
    path.InService ∧ path.table = fleet.r2.ipv4.deref fleet.r2.ipv4.which ∧
      path.ifNode.intf.headroom = maxHeadroom := by
  obtain ⟨node, atNode, sameNode, atDecap, _, atFwd⟩ := Forwarder.path_some found
  have shared : (fleet.thread t).shared = goal := holds.inv.heads.settled (quiet.inbox t)
  have sound := holds.inv.sound t
  obtain ⟨name, intf, owner, addr, masklen, listed, _, portNode, portDecap, _⟩ := holds.port quiet t (i := i)
    (Or.inl (by rw [atDecap]; rfl))
  obtain ⟨six, headroom⟩ := equipped.interfaces name intf listed
  have cloned {c : Node T} {r : Client} (here : (fleet.thread t).graph.client r.name = some c) :
      (fleet.thread t).shared.client r.name = some c.clone := by
    rw [Forwarder.client_shared, here]
    rfl
  have decap : path.decap.intf = setV4addr intf addr masklen :=
    congrArg EthDecap.intf (Node.ethDecap.inj (Option.some.inj ((cloned atDecap).symm.trans portDecap)))
  have rxTx : path.ifNode.intf = setV4addr intf addr masklen := by
    rw [sameNode]
    exact congrArg (fun node : IfNode => node.intf)
      (Node.ifNode.inj (Option.some.inj ((cloned atNode).symm.trans portNode)))
  have table : path.table = fleet.r2.ipv4.deref fleet.r2.ipv4.which := by
    have fwd := cloned atFwd
    rw [shared, holds.inv.matched.fwd] at fwd
    exact (Node.ipv4Fwd.inj (Option.some.inj fwd)).2.symm
  have connected : path.decap.sender = ⟨true, []⟩ := sound.nodes _ _ atDecap
  have room : path.ifNode.intf.headroom = maxHeadroom := by rw [rxTx]; exact headroom
  have end_ (k : Nat) (node : EthEncap) (plugged : path.encap k = some node) :
      node.intf.ifindex = k ∧ node.intf.l2Addr.length = ethAlen := by
    have here := Forwarder.path_encap found plugged
    obtain ⟨name', intf', owner', addr', masklen', listed', index', _, _, portEncap⟩ := holds.port quiet t (i := k)
      (Or.inr (by rw [here]; rfl))
    have same : node.intf = setV4addr intf' addr' masklen' :=
      congrArg EthEncap.intf (Node.ethEncap.inj (Option.some.inj ((cloned here).symm.trans portEncap)))
    rw [same]
    exact ⟨index', (equipped.interfaces name' intf' listed').1⟩
  refine ⟨⟨⟨?_, ?_, fun k node plugged => (end_ k node plugged).2, ?_⟩, ?_, by rw [connected],
    fun k node plugged => (end_ k node plugged).1, fun k node ip mac plugged known => ?_⟩, table, room⟩
  · rw [room, (Forwarder.path_packets found).1]
    exact roomy.1
  · rw [decap]
    exact six
  · rw [table]
    intro ip found len nhop ifindex hit
    obtain ⟨_, _, same, inside, _⟩ := equipped.tables small _ _ (KeepsLeaves.longestMatch_stored _ _ _ _ _ hit)
    cases same
    exact inside
  · rw [(Forwarder.path_packets found).1]
    exact roomy.2
  · have here := Forwarder.path_encap found plugged
    have macs := Forwarder.macs_known here
    have met : Met fleet ⟨k, ip, mac⟩ := .known t (.ethEncap k) (List.mem_cons_of_mem _ (List.mem_cons_self ..))
      (by rw [macs]; exact known)
    exact (holds.spread.origin _ met).1

end Settled

end R2.Fleet
