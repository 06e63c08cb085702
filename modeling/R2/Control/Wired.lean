import R2.Control.Thread

namespace R2.Control

/-- The nodes that `create_nodes` makes. -/
def firstSpecs : List (NodeSpec Client) :=
  [⟨.drop, dropName, []⟩, ⟨.ipv4Parse, ipv4ParseInit.name, ipv4ParseInit.nextNames⟩,
    ⟨.ipv4Fwd, ipv4FwdInit.name, ipv4FwdInit.nextNames⟩, ⟨.encapMux, encapMuxInit.name, encapMuxInit.nextNames⟩]

/-- The graph was finalized with these nodes, each under the name of its kind. -/
structure Wired (g : Graph Client Packet) (specs : List (NodeSpec Client)) : Prop where
  resolves : g.Resolves ⟨specs, specs⟩
  named : ∀ spec ∈ specs, spec.name = spec.client.name
  first : firstSpecs <+: specs

/-- The graph has the `EthEncap` of this interface. -/
def Knows (g : Graph Client Packet) (ifindex : Nat) : Prop := ∃ node ∈ g.nodes, node.name = Names.l2EthEncap ifindex

theorem placeOf_of_mem {specs : List (NodeSpec Client)} {name : String} (known : ∃ spec ∈ specs, spec.name = name) :
    ∃ k, placeOf specs name = some k := by
  obtain ⟨spec, member, named⟩ := known
  cases place : placeOf specs name with
  | none => exact absurd named (of_decide_eq_false (List.findIdx?_eq_none_iff.mp place spec member))
  | some k => exact ⟨k, rfl⟩

theorem register_fresh {specs : List (NodeSpec Client)} {spec : NodeSpec Client}
    (fresh : ∀ old ∈ specs, old.name ≠ spec.name) : register specs spec = specs ++ [spec] := by
  have free : placeOf specs spec.name = none :=
    List.findIdx?_eq_none_iff.mpr fun old member => decide_eq_false (fresh old member)
  rw [register, free]
  rfl

section Wired

variable {g : Graph Client Packet} {specs : List (NodeSpec Client)} {ifindex : Nat}

theorem Wired.nodes (wired : Wired g specs) : g.nodes.map Gnode.spec = specs := wired.resolves.nodes

theorem Wired.mux (wired : Wired g specs) : specs[3]? = some ⟨.encapMux, encapMuxInit.name, encapMuxInit.nextNames⟩ :=
  getElem?_of_prefix wired.first rfl

theorem Wired.knows_iff (wired : Wired g specs) : Knows g ifindex ↔
    ∃ spec ∈ specs, spec.name = Names.l2EthEncap ifindex := by
  rw [← wired.nodes]
  simp only [Knows, List.mem_map, exists_exists_and_eq_and, Gnode.spec]

/-- `EncapMux` is node 3 and has an edge for each interface index. -/
theorem Wired.mux_node (wired : Wired g specs) :
    ∃ mux, g.nodes[3]? = some mux ∧ mux.client = .encapMux ∧ mux.nextNodes.length = maxInterfaces := by
  have here := wired.mux
  rw [← wired.nodes, List.getElem?_map, Option.map_eq_some_iff] at here
  obtain ⟨mux, found, same⟩ := here
  refine ⟨mux, found, congrArg NodeSpec.client same, ?_⟩
  rw [wired.resolves.next 3 mux found, Edges.next, wired.mux]
  dsimp only
  rw [List.length_map, encapMuxInit, List.length_map, List.length_range]

/-- The edge of `EncapMux` for an interface leads to its `EthEncap`. -/
theorem Wired.delivers (wired : Wired g specs) (small : ifindex < maxInterfaces) (knows : Knows g ifindex) :
    ∃ k node, k ≠ 0 ∧ g.nodes[k]? = some node ∧ node.client = .ethEncap ifindex ∧ g.Delivers 3 ifindex k := by
  obtain ⟨k, place⟩ := placeOf_of_mem (wired.knows_iff.mp knows)
  obtain ⟨spec, here, name⟩ := placeOf_some place
  have client : spec.client = .ethEncap ifindex :=
    Client.name_injective ((wired.named spec (List.mem_of_getElem? here)).symm.trans name)
  have there := here
  rw [← wired.nodes, List.getElem?_map, Option.map_eq_some_iff] at there
  obtain ⟨node, found, same⟩ := there
  refine ⟨k, node, fun zero => ?_, found, ?_, ?_⟩
  · obtain ⟨drop, first, dropped⟩ := placeOf_some wired.resolves.first
    subst zero
    obtain rfl := Option.some.inj (here.symm.trans first)
    have clash : Client.drop.name = (Client.ethEncap ifindex).name := dropped.symm.trans name
    cases Client.name_injective clash
  · rw [← client, ← same]
    rfl
  · refine wired.resolves.shaped.delivers ?_
    rw [wired.resolves.edge_target, Edges.target, Edges.next, wired.mux]
    dsimp only
    rw [List.getElem?_map, encapMuxInit, List.getElem?_map, List.getElem?_range small, Option.map_some,
      Option.map_some,
      Edges.lookup, place]
    rfl

/-- Beyond the last edge of `EncapMux` there is no node to hand a packet to. -/
theorem Wired.push_beyond (wired : Wired g specs) (large : maxInterfaces ≤ ifindex) (pkt : Packet) :
    g.push 3 ifindex pkt = .error .bounds := by
  obtain ⟨mux, here, _, length⟩ := wired.mux_node
  have none : mux.nextNodes[ifindex]? = none := List.getElem?_eq_none_iff.mpr (length.trans_le large)
  rw [Graph.push, Graph.dispatch_eq here]
  simp only [Except.ok_bind, Dispatch.push, none]
  rfl

theorem placeOf_of_prefix {specs specs' : List (NodeSpec Client)} {name : String} {k : Nat} (more : specs <+: specs')
    (place : placeOf specs name = some k) : placeOf specs' name = some k := by
  obtain ⟨rest, rfl⟩ := more
  unfold placeOf at place ⊢
  rw [List.findIdx?_append, place]
  rfl

/-- `IPv4Fwd` is node 2, so a thread always takes a table. -/
theorem Wired.receive_table {T : Type} {f : ForwardThread T} (wired : Wired f.graph specs) (table : IPv4Table T) :
    f.receive (.ipv4TableAdd table) = .ok { f with table } := by
  have place : placeOf specs Names.l3Ipv4Fwd = some 2 := placeOf_of_prefix wired.first (by decide +kernel)
  have index : f.graph.index Names.l3Ipv4Fwd = 2 := by rw [wired.resolves.index_eq, place, Option.getD_some]
  have here : specs[2]? = some ⟨.ipv4Fwd, ipv4FwdInit.name, ipv4FwdInit.nextNames⟩ :=
    getElem?_of_prefix wired.first rfl
  rw [← wired.nodes, List.getElem?_map, Option.map_eq_some_iff] at here
  obtain ⟨node, found, same⟩ := here
  have client : node.client = .ipv4Fwd := congrArg NodeSpec.client same
  simp only [ForwardThread.receive, ForwardThread.controlMsg, index, found, client]
  rfl

theorem register_named {spec : NodeSpec Client} (named : ∀ old ∈ specs, old.name = old.client.name)
    (name : spec.name = spec.client.name) : ∀ old ∈ register specs spec, old.name = old.client.name := by
  intro old member
  unfold register at member
  split at member
  · exact named old member
  · rcases List.mem_append.mp member with before | new
    · exact named old before
    · rw [List.mem_singleton.mp new]
      exact name

/-- A thread that adds a node stays wired. -/
theorem Wired.add (wired : Wired g specs) {client : Client} {init : GnodeInit} (name : init.name = client.name)
    (other : client ≠ .drop) :
    (∃ specs', Wired (g.add client init).finalize specs') ∧
      ∀ i, Knows g i ∨ client = .ethEncap i → Knows (g.add client init).finalize i := by
  have apart : init.name ≠ dropName := fun same => other (Client.name_injective (name.symm.trans same))
  have added : (g.add client init).Resolves _ := wired.resolves.add apart
  have start : specs <+: register specs ⟨client, init.name, init.nextNames⟩ := register_prefix ..
  have wired' : Wired (g.add client init).finalize (register specs ⟨client, init.name, init.nextNames⟩) :=
    ⟨added.finalize, register_named wired.named name, wired.first.trans start⟩
  refine ⟨⟨_, wired'⟩, fun i either => wired'.knows_iff.mpr ?_⟩
  rcases either with knows | same
  · obtain ⟨spec, member, here⟩ := wired.knows_iff.mp knows
    exact ⟨spec, start.subset member, here⟩
  · have named : init.name = Names.l2EthEncap i := by
      rw [name, same]
      rfl
    cases place : placeOf specs init.name with
    | some k =>
      obtain ⟨spec, here, found⟩ := placeOf_some place
      exact ⟨spec, start.subset (List.mem_of_getElem? here), found.trans named⟩
    | none =>
      rw [register, place]
      exact ⟨_, List.mem_append_right _ (List.mem_singleton_self _), named⟩

/-- Traffic leaves a thread wired. -/
theorem Wired.traffic {vectors : List (VecDeque Packet)} {counters : List GnodeCntrs} (wired : Wired g specs)
    (sameVectors : vectors.length = g.vectors.length) (sameCounters : counters.length = g.counters.length)
    (room : ∀ q ∈ vectors, 1 ≤ q.capacity) : Wired { g with vectors, counters } specs :=
  ⟨wired.resolves.traffic sameVectors sameCounters room, wired.named, wired.first⟩

theorem add_fresh {client : Client} {init : GnodeInit} (h : g.Resolves ⟨specs, []⟩)
    (fresh : ∀ old ∈ specs, old.name ≠ init.name) :
    (g.add client init).Resolves ⟨specs ++ [⟨client, init.name, init.nextNames⟩], []⟩ := by
  obtain ⟨drop, first, dropped⟩ := placeOf_some h.first
  have apart : init.name ≠ dropName := fun same =>
    fresh drop (List.mem_of_getElem? first) (dropped.trans same.symm)
  have added : (g.add client init).Resolves ⟨register specs ⟨client, init.name, init.nextNames⟩, []⟩ := h.add apart
  rwa [register_fresh fresh] at added

theorem firstSpecs_named : ∀ spec ∈ firstSpecs, spec.name = spec.client.name := by
  simp only [firstSpecs, List.forall_mem_cons]
  exact ⟨rfl, rfl, rfl, rfl, nofun⟩

/-- The node after the first `n` ones has a name of its own. -/
theorem firstSpecs_fresh {n : Nat} {client : Client} (other : ∀ spec ∈ firstSpecs.take n, spec.client ≠ client) :
    ∀ spec ∈ firstSpecs.take n, spec.name ≠ client.name := by
  intro spec member same
  have named := firstSpecs_named spec (List.mem_of_mem_take member)
  exact other spec member (Client.name_injective (named.symm.trans same))

theorem createNodes_wired : Wired createNodes firstSpecs := by
  have drop : (Graph.new 0 Client.drop : Graph Client Packet).Resolves ⟨firstSpecs.take 1, []⟩ := .new 0 Client.drop
  have parse := @add_fresh _ _ .ipv4Parse ipv4ParseInit drop (@firstSpecs_fresh 1 .ipv4Parse (by simp [firstSpecs]))
  have fwd := @add_fresh _ (firstSpecs.take 2) .ipv4Fwd ipv4FwdInit parse
    (@firstSpecs_fresh 2 .ipv4Fwd (by simp [firstSpecs]))
  have mux := @add_fresh _ (firstSpecs.take 3) .encapMux encapMuxInit fwd
    (@firstSpecs_fresh 3 .encapMux (by simp [firstSpecs]))
  exact ⟨mux.finalize, firstSpecs_named, List.prefix_rfl⟩

/-- Every thread starts wired. -/
theorem launch_wired {T : Type} [IpLookupTable T] (thread : Nat) :
    Wired (launch thread : ForwardThread T).graph firstSpecs := by
  unfold launch
  split
  · exact createNodes_wired
  · have resolves := createNodes_wired.resolves
    have same : (createNodes.clone thread id).nodes = createNodes.nodes := List.map_id'' (fun _ => rfl) _
    refine ⟨⟨(Graph.clone_shaped resolves.shaped thread id).1, ?_, resolves.indices, resolves.first,
      resolves.linked, ?_⟩,
      firstSpecs_named, List.prefix_rfl⟩
    · rw [same]
      exact resolves.nodes
    · rw [same]
      exact resolves.next

end Wired

end R2.Control
