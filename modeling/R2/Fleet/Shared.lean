import R2.Fleet.Called

namespace R2.Fleet

open Control

variable {n : Nat} {T σ : Type}

section Launch

/-- The clients that `create_nodes` makes. -/
theorem createNodes_clients (r2 : Ctx T) : Coherent (createNodes r2) ∧
    ∀ r : Client, (createNodes r2).client r.name =
      if r = .encapMux then some .encapMux
      else if r = .ipv4Fwd then some (.ipv4Fwd ⟨.table1, 0, 0⟩ (r2.ipv4.deref .table1))
      else if r = .ipv4Parse then some (.ipv4Parse ⟨0⟩) else none := by
  have indexed : (Graph.new 0 Node.drop : Graph (Node T) Packet).Indexed := .new 0 Node.drop
  have none (r : Client) : (Graph.new 0 Node.drop : Graph (Node T) Packet).client r.name = none := by
    by_cases drop : r.name = dropName
    · rw [drop]
      exact indexed.client_drop
    · rw [indexed.client_none drop, Graph.new_indices, Function.update_of_ne drop]
  have start : Coherent (Graph.new 0 Node.drop : Graph (Node T) Packet) := by
    refine ⟨indexed, fun name c found => ?_⟩
    by_cases drop : name = dropName
    · rw [drop, indexed.client_drop] at found
      cases found
    · rw [(indexed.client_none drop).mpr (by rw [Graph.new_indices, Function.update_of_ne drop])] at found
      cases found
  obtain ⟨parse, clients₁⟩ := @Coherent.add_fresh T _ (.ipv4Parse ⟨0⟩) start ipv4ParseInit rfl (by simp [Node.kind])
    (none _)
  obtain ⟨fwd, clients₂⟩ := @Coherent.add_fresh T _ (.ipv4Fwd ⟨.table1, 0, 0⟩ (r2.ipv4.deref .table1)) parse
    ipv4FwdInit rfl (by simp [Node.kind]) (by rw [clients₁, if_neg (by simp [Node.kind]), none])
  obtain ⟨mux, clients₃⟩ := @Coherent.add_fresh T _ .encapMux fwd encapMuxInit rfl (by simp [Node.kind])
    (by rw [clients₂, if_neg (by simp [Node.kind]), clients₁, if_neg (by simp [Node.kind]), none])
  refine ⟨mux.finalize, fun r => ?_⟩
  rw [createNodes, Graph.client_finalize, clients₃, clients₂, clients₁, none]
  rfl

theorem createNodes_sound (r2 : Ctx T) (name : String) (c : Node T) (found : (createNodes r2).client name = some c)
    (thread : Nat) : c.Sound thread ∧ c.clone = c := by
  obtain ⟨coherent, clients⟩ := createNodes_clients r2
  have here := coherent.named name c found
  rw [← here, c.name_eq, clients] at found
  split at found
  · cases Option.some.inj found
    exact ⟨trivial, rfl⟩
  · split at found
    · cases Option.some.inj found
      exact ⟨trivial, rfl⟩
    · split at found
      · cases Option.some.inj found
        exact ⟨trivial, rfl⟩
      · cases found

theorem launch_shared (r2 : Ctx T) (pool : σ) (thread : Nat) :
    (launch r2 pool thread).shared = (createNodes r2).clone 0 Node.clone := by
  unfold launch Forwarder.shared
  dsimp only
  split
  · rfl
  · exact Graph.clone_clone _ _ _ Node.clone_clone 0

theorem launch_sound (r2 : Ctx T) (pool : σ) (thread : Nat) : (launch r2 pool thread).Sound thread := by
  obtain ⟨coherent, _⟩ := createNodes_clients r2
  have first : (createNodes r2).thread = 0 := by
    simp only [createNodes, Graph.thread_finalize, Graph.thread_add, Graph.new]
  unfold launch
  by_cases zero : thread = 0
  · rw [if_pos zero, zero]
    exact ⟨first, coherent.indexed, fun name c found => (createNodes_sound r2 name c found 0).1⟩
  · rw [if_neg zero]
    refine ⟨rfl, coherent.indexed.clone thread Node.clone, fun name c found => ?_⟩
    dsimp only at found
    rw [Graph.client_clone, Option.map_eq_some_iff] at found
    obtain ⟨d, here, rfl⟩ := found
    rw [(createNodes_sound r2 name d here thread).2]
    exact (createNodes_sound r2 name d here thread).1

theorem Coherent.clone {v : Graph (Node T) Packet} (coherent : Coherent v) (thread : Nat) :
    Coherent (v.clone thread Node.clone) := by
  refine ⟨coherent.indexed.clone thread Node.clone, fun name c found => ?_⟩
  rw [Graph.client_clone, Option.map_eq_some_iff] at found
  obtain ⟨d, here, rfl⟩ := found
  exact d.clone_name.trans (coherent.named name d here)

theorem launch_matches [IpLookupTable T] :
    Matches n (Ctx.new n : Ctx T) ((createNodes (Ctx.new n)).clone 0 Node.clone) := by
  obtain ⟨coherent, clients⟩ := createNodes_clients (Ctx.new n : Ctx T)
  refine ⟨coherent.clone 0, ?_, ?_, fun i name known => ?_, fun i _ => ⟨?_, ?_, ?_⟩⟩
  all_goals first | cases known | rw [Graph.client_clone, clients]
  all_goals rfl

end Launch

section Frame

variable {f : Forwarder T σ} {thread i : Nat} {path path' : Path T σ} {news : List EthMacAddMsg}

/-- The nodes that a thread has on the way of a frame. -/
theorem Forwarder.path_some (found : f.path i = some path) :
    ∃ node : IfNode, f.graph.client (Client.ifNode i).name = some (.ifNode node) ∧ path.ifNode = node.toIfNode ∧
      f.graph.client (Client.ethDecap i).name = some (.ethDecap path.decap) ∧
      f.graph.client Client.ipv4Parse.name = some (.ipv4Parse path.parse) ∧
      f.graph.client Client.ipv4Fwd.name = some (.ipv4Fwd path.fwd path.table) := by
  unfold Forwarder.path at found
  split at found
  · rename_i node decap parse fwd table rxTx atDecap atParse atFwd
    cases Option.some.inj found
    exact ⟨node, rxTx, rfl, atDecap, atParse, atFwd⟩
  · cases found

theorem Forwarder.decap_ifindex {node : EthDecap} (coherent : Coherent f.shared)
    (found : f.graph.client (Client.ethDecap i).name = some (.ethDecap node)) : node.intf.ifindex = i := by
  have cloned : f.shared.client (Client.ethDecap i).name = some (.ethDecap (ethDecapClone node)) := by
    rw [f.client_shared, found]
    rfl
  exact Client.ethDecap.inj (coherent.kind cloned)

/-- `EthDecap` as a frame leaves it on the thread; what it has sent is gone. -/
def sentOff (node : EthDecap) : EthDecap := { node with sender := { node.sender with sent := [] } }

/-- What the three nodes that a frame changes keep one after the other. -/
theorem Forwarder.put_rule {P : Graph (Node T) Packet → Prop} (indexed : f.graph.Indexed) (found : f.path i = some path)
    (decap : P (f.graph.setClient (Client.ethDecap i).name (.ethDecap (sentOff path'.decap))))
    (parse : ∀ g : Graph (Node T) Packet, g.Indexed → P g →
      g.client Client.ipv4Parse.name = some (.ipv4Parse path.parse) →
      P (g.setClient Client.ipv4Parse.name (.ipv4Parse path'.parse)))
    (fwd : ∀ g : Graph (Node T) Packet, g.Indexed → P g →
      g.client Client.ipv4Fwd.name = some (.ipv4Fwd path.fwd path.table) →
      P (g.setClient Client.ipv4Fwd.name (.ipv4Fwd path'.fwd path'.table))) : P (f.put i path').graph := by
  obtain ⟨_, _, _, atDecap, atParse, atFwd⟩ := Forwarder.path_some found
  have other {g : Graph (Node T) Packet} {r s : Client} {c d e : Node T} (indexed : g.Indexed)
      (here : g.client r.name = some c) (there : g.client s.name = some e) (apart : s ≠ r) :
      (g.setClient r.name d).client s.name = some e := by
    rw [indexed.client_setClient (by rw [here]; rfl), if_neg fun clash => apart (Client.name_injective clash)]
    exact there
  have indexed₁ := indexed.setClient (Client.ethDecap i).name (.ethDecap (sentOff path'.decap))
  have parseHere := @other _ (.ethDecap i) .ipv4Parse _ (.ethDecap (sentOff path'.decap)) _ indexed atDecap atParse
    (by simp)
  have fwdHere := @other _ (.ethDecap i) .ipv4Fwd _ (.ethDecap (sentOff path'.decap)) _ indexed atDecap atFwd (by simp)
  exact fwd _ (indexed₁.setClient _ _) (parse _ indexed₁ decap parseHere)
    (@other _ .ipv4Parse .ipv4Fwd _ (.ipv4Parse path'.parse) _ indexed₁ parseHere fwdHere (by simp))

/-- A frame leaves what the threads share as it is. -/
theorem Forwarder.put_shared (sound : f.Sound thread) (found : f.path i = some path)
    (learns : path.Learns path' news) :
    (f.put i path').shared = f.shared ∧ (f.put i path').Sound thread := by
  obtain ⟨node, _, _, atDecap, _, _⟩ := Forwarder.path_some found
  have connected : path.decap.sender = ⟨true, []⟩ := sound.nodes _ _ atDecap
  have decap : (Node.ethDecap (sentOff path'.decap) : Node T).clone = (Node.ethDecap path.decap).clone := by
    simp only [Node.clone, ethDecapClone, sentOff, learns.decap.intf, learns.decap.sender]
  have own : (Node.ethDecap (sentOff path'.decap) : Node T).Sound thread := by
    change (⟨path'.decap.sender.connected, []⟩ : Sender) = _
    rw [learns.decap.sender, connected]
  have fwd : (Node.ipv4Fwd path'.fwd path'.table).clone = (Node.ipv4Fwd path.fwd path.table).clone := by
    simp only [Node.clone, learns.fwd, learns.table]
  have kept {g : Graph (Node T) Packet} {name : String} {c d : Node T} (same : g.clone 0 Node.clone = f.shared)
      (found : g.client name = some c) (clones : d.clone = c.clone) :
      (g.setClient name d).clone 0 Node.clone = f.shared := by
    rw [Graph.clone_setClient, same, clones]
    refine Graph.setClient_self ?_
    rw [← same, Graph.client_clone, found]
    rfl
  constructor
  · exact Forwarder.put_rule (P := fun g => g.clone 0 Node.clone = f.shared) sound.indexed found
      (kept rfl atDecap decap) (fun _ _ same found => kept same found rfl) fun _ _ same found => kept same found fwd
  · have all : Forwarder.Sound thread { f with graph := (f.put i path').graph } :=
      Forwarder.put_rule (P := fun g => Forwarder.Sound thread { f with graph := g }) sound.indexed found
        (sound.setClient atDecap own) (fun _ _ sound found => sound.setClient found trivial)
        fun _ _ sound found => sound.setClient found trivial
    exact ⟨all.place, all.indexed, all.nodes⟩

end Frame

section Invariant

variable [IpLookupTable T]

/-- What the control threads know is what all threads come to once they have
taken what is under way to them. -/
structure Inv (fleet : Fleet n T σ) (goal : Graph (Node T) Packet) : Prop where
  tidy : Tidy n fleet.r2
  heads : Replicas.Heads Forwarder.shared Msg.clone (fun v msg => msg.apply v) fleet.replicas goal
  matched : Matches n fleet.r2 goal
  coherent : ∀ t, Coherent (fleet.thread t).shared
  sound : ∀ t, (fleet.thread t).Sound t
  inbox : ∀ t, ∀ msg ∈ fleet.inbox t, msg.Sound t
  later : OnlyRoutes fleet.later.flatten
  reports : ∀ m ∈ fleet.reports, (fleet.r2.ifd.idx2name m.ifindex).isSome ∧ m.mac.bytes.length = ethAlen

theorem Inv.start (pool : Fin n → σ) (some : 0 < n) :
    Inv (start pool : Fleet n T σ) ((createNodes (Ctx.new n)).clone 0 Node.clone) where
  tidy := ⟨rfl, some, nofun⟩
  heads t := congrArg Option.some (launch_shared _ (pool t) t)
  matched := launch_matches
  coherent t := by
    change Coherent (launch (Ctx.new n) (pool t) t).shared
    rw [launch_shared]
    exact (createNodes_clients _).1.clone 0
  sound t := launch_sound _ (pool t) t
  inbox t msg member := absurd member List.not_mem_nil
  later _ _ member := absurd member List.not_mem_nil
  reports m member := absurd member List.not_mem_nil

variable [PacketPool σ] {fleet fleet' : Fleet n T σ} {goal : Graph (Node T) Packet}

omit [IpLookupTable T] [PacketPool σ] in
/-- Routes leave every node but one as it is. -/
theorem routes_keep {v : Graph (Node T) Packet} {msgs : List (Msg T)} (coherent : Coherent v)
    (routes : ∀ msg ∈ msgs, ∃ which table, msg = .ipv4TableAdd which table)
    (all : (msgs.map Msg.clone).foldlM (fun v msg => msg.apply v) v = some goal) (r : Client) (other : r ≠ .ipv4Fwd) :
    v.client r.name = goal.client r.name := by
  induction msgs generalizing v with
  | nil => rw [Option.some.inj all]
  | cons msg rest ih =>
    obtain ⟨which, table, rfl⟩ := routes msg (List.mem_cons_self ..)
    rw [List.map_cons, List.foldlM_cons] at all
    obtain ⟨v', applied, all⟩ := Option.bind_eq_some_iff.mp all
    obtain ⟨coherent', _, others⟩ := coherent.apply_known applied (List.cons_ne_nil _ _)
    have kept := others r.name fun s member clash =>
      other (Client.name_injective (List.mem_singleton.mp member ▸ clash))
    rw [← kept]
    exact ih coherent' (fun msg member => routes msg (List.mem_cons_of_mem _ member)) all

omit [IpLookupTable T] [PacketPool σ] in
/-- The thread's part of a step: it takes a message. -/
theorem Inv.receive (inv : Inv fleet goal) {t : Fin n} {msg : Msg T} {rest : List (Msg T)}
    (head : fleet.channel t = msg :: rest) : ∃ v, msg.clone.apply (fleet.thread t).shared = some v ∧
      NoPanic ((fleet.thread t).receive msg) fun f => f.shared = v ∧ f.Sound t := by
  have inbox : fleet.inbox t = msg :: (rest ++ sentTo t (fleet.locked ++ fleet.later.flatten)) := by
    rw [Fleet.inbox, head, List.cons_append]
  obtain ⟨v, applied⟩ := inv.heads.next inbox
  have own := inv.inbox t msg (by rw [inbox]; exact List.mem_cons_self ..)
  exact ⟨v, applied, Forwarder.receive_apply (inv.sound t) own applied⟩

omit [PacketPool σ] in
theorem Inv.call {r2 : Ctx T} {c : Call} {locked : List (Action n T)} {later : List (List (Action n T))}
    (inv : Inv fleet goal) (free : fleet.locked = []) (idle : fleet.later = [])
    (run : handle fleet.r2 c = .ok (r2, .ok (locked :: later))) :
    ∃ goal', Inv { fleet with r2, locked, later } goal' := by
  rcases handle_cases (n := n) inv.tidy c with ⟨thread, text, _, refused⟩ | ⟨r2', sections, done, called⟩
  · rw [refused] at run
    cases run
  · cases (Except.ok.inj (done.symm.trans run) : (r2', Except.ok sections) = _)
    obtain ⟨first, rest, common, goal', split, routes, told, applied, matched⟩ := called.spec inv.tidy inv.matched
    cases split
    have before (t : Fin n) : fleet.inbox t = fleet.channel t := by
      rw [Fleet.inbox, free, idle]
      exact List.append_nil _
    refine ⟨goal', called.tidy inv.tidy,
      (inv.heads.send (fun t => (told t).1) applied).of_eq (fun _ => rfl) (fun t => ?_), matched, inv.coherent, inv.sound, fun t msg member => ?_, routes, fun m member => ?_⟩
    · exact congrArg (· ++ _) (before t).symm
    · rcases List.mem_append.mp member with old | new
      · exact inv.inbox t msg (by rw [before]; exact old)
      · exact (told t).2 msg new
    · obtain ⟨known, length⟩ := inv.reports m member
      exact ⟨called.known known, length⟩

omit [IpLookupTable T] [PacketPool σ] in
theorem Inv.report {report : EthMacAddMsg} {reports : List EthMacAddMsg} (inv : Inv fleet goal)
    (free : fleet.locked = []) (head : fleet.reports = report :: reports) :
    Inv { fleet with locked := broadcast (.ethMacAdd report), reports } goal := by
  obtain ⟨known, _⟩ := inv.reports report (by rw [head]; exact List.mem_cons_self ..)
  have before (t : Fin n) : fleet.inbox t = fleet.channel t ++ sentTo t fleet.later.flatten := by
    rw [Fleet.inbox, free, List.nil_append]
  have after (t : Fin n) : Fleet.inbox { fleet with locked := broadcast (.ethMacAdd report), reports } t =
      fleet.channel t ++ ([.ethMacAdd report] ++ sentTo t fleet.later.flatten) := by
    change fleet.channel t ++ sentTo t (broadcast (.ethMacAdd report) ++ fleet.later.flatten) = _
    rw [sentTo_append, sentTo_broadcast]
    rfl
  have heads := @Replicas.Heads.insert _ _ _ _ _ _ _ _ _ _ _ _ (fun _ => [Msg.ethMacAdd report]) _ inv.heads before
    (fun _ _ _ => Coherent.apply) inv.coherent fun t v coherent rest => by
      obtain ⟨owner, intf, index, port⟩ := inv.matched.hasPort known
      have kept := routes_keep coherent (inv.later t) rest
      refine (apply_one _ v).trans (apply_mac ((kept _ (by simp)).trans (index ▸ port.decap))
        ((kept _ (by simp)).trans (index ▸ port.encap)))
  refine ⟨inv.tidy, heads.of_eq (fun _ => rfl) after, inv.matched, inv.coherent, inv.sound, fun t msg member => ?_,
    inv.later, fun m member => inv.reports m (by rw [head]; exact List.mem_cons_of_mem _ member)⟩
  rw [after] at member
  rcases List.mem_append.mp member with old | new
  · exact inv.inbox t msg (by rw [before]; exact List.mem_append_left _ old)
  · rcases List.mem_append.mp new with mac | rest
    · rw [List.mem_singleton.mp mac]
      trivial
    · exact inv.inbox t msg (by rw [before]; exact List.mem_append_right _ rest)

omit [IpLookupTable T] [PacketPool σ] in
/-- A thread has an `EthDecap` only for an interface that the control threads know. -/
theorem Inv.known_of_decap (inv : Inv fleet goal) {t : Fin n} {i : Nat} {c : Node T}
    (found : (fleet.thread t).graph.client (Client.ethDecap i).name = some c) :
    (fleet.r2.ifd.idx2name i).isSome := by
  have now : Coherent (fleet.thread t).shared ∧ ((fleet.thread t).shared.client (Client.ethDecap i).name).isSome := by
    refine ⟨inv.coherent t, ?_⟩
    rw [Forwarder.client_shared, found]
    rfl
  have later := inv.heads.keeps (P := fun v => Coherent v ∧ (v.client (Client.ethDecap i).name).isSome) t
    (fun v msg v' ⟨coherent, known⟩ applied => ⟨coherent.apply applied, coherent.apply_isSome applied known⟩) now
  by_contra unknown
  rw [Option.not_isSome_iff_eq_none] at unknown
  rw [(inv.matched.unknown i unknown).2.1] at later
  cases later.2

omit [IpLookupTable T] [PacketPool σ] in
/-- What the threads do by themselves leads where they were heading. -/
theorem Inv.turn (inv : Inv fleet goal) (turn : Turn fleet fleet') : Inv fleet' goal := by
  cases turn with
  | @lock locked later free next =>
    have same := Fleet.inbox_lock free next
    refine ⟨inv.tidy, inv.heads.of_eq (fun _ => rfl) same, inv.matched, inv.coherent, inv.sound,
      fun t msg member => inv.inbox t msg (same t ▸ member), fun t msg member => ?_, inv.reports⟩
    refine inv.later t msg ?_
    rw [next, List.flatten_cons, sentTo_append]
    exact List.mem_append_right _ member
  | report free head => exact inv.report free head
  | @send t msg locked head =>
    have same := Fleet.inbox_send head
    exact ⟨inv.tidy, inv.heads.of_eq (fun _ => rfl) same, inv.matched, inv.coherent, inv.sound,
      fun u msg member => inv.inbox u msg (same u ▸ member), inv.later, inv.reports⟩
  | @await table locked head released =>
    have same := Fleet.inbox_await head
    exact ⟨inv.tidy, inv.heads.of_eq (fun _ => rfl) same, inv.matched, inv.coherent, inv.sound,
      fun u msg member => inv.inbox u msg (same u ▸ member), inv.later, inv.reports⟩
  | @receive t msg rest f head run =>
    obtain ⟨v, applied, taken⟩ := inv.receive head
    obtain ⟨rfl, sound⟩ := taken.ok run
    obtain ⟨inbox, after⟩ := Fleet.inbox_receive head f
    refine ⟨inv.tidy, (inv.heads.take inbox applied).of_eq (fun _ => rfl) after, inv.matched, ?_, ?_,
      fun u msg' member => ?_, inv.later, inv.reports⟩
    · exact Function.forall_update_iff fleet.thread (fun _ f => Coherent f.shared) |>.mpr
        ⟨(inv.coherent t).apply applied, fun u _ => inv.coherent u⟩
    · exact Function.forall_update_iff fleet.thread (fun u f => f.Sound u) |>.mpr ⟨sound, fun u _ => inv.sound u⟩
    · rw [after] at member
      by_cases same : u = t
      · subst same
        rw [Function.update_self] at member
        exact inv.inbox u msg' (by rw [inbox]; exact List.mem_cons_of_mem _ member)
      · rw [Function.update_of_ne same] at member
        exact inv.inbox u msg' member

/-- Every step keeps the invariant. -/
theorem Inv.step (inv : Inv fleet goal) (step : Step fleet fleet') : ∃ goal', Inv fleet' goal' := by
  cases step with
  | call free idle run => exact inv.call free idle run
  | @refused c r2 text free idle run =>
    refine ⟨goal, ?_⟩
    rcases handle_cases (n := n) inv.tidy c with ⟨thread, text', inside, refused⟩ | ⟨r2', sections, done, _⟩
    · cases (Except.ok.inj (refused.symm.trans run) : (_, Except.error text') = _)
      exact ⟨⟨inv.tidy.nthreads, inside, inv.tidy.interfaces⟩, inv.heads,
        ⟨inv.matched.coherent, inv.matched.parse, inv.matched.fwd, inv.matched.known, inv.matched.unknown⟩,
        inv.coherent, inv.sound, inv.inbox, inv.later, inv.reports⟩
    · rw [done] at run
      cases run
  | @frame t i path frame path' owns found run =>
    have sound := inv.sound t
    obtain ⟨node, _, _, atDecap, _, _⟩ := Forwarder.path_some found
    have sender : path.decap.sender = ⟨true, []⟩ := sound.nodes _ _ atDecap
    obtain ⟨news, learns⟩ := Path.receive_learns (by rw [sender]) run
    obtain ⟨same, sound'⟩ := Forwarder.put_shared sound found learns
    refine ⟨goal, inv.tidy, inv.heads.touch same, inv.matched, ?_, ?_, inv.inbox, inv.later, fun m member => ?_⟩
    · exact Function.forall_update_iff fleet.thread (fun _ f => Coherent f.shared) |>.mpr
        ⟨same.symm ▸ inv.coherent t, fun u _ => inv.coherent u⟩
    · exact Function.forall_update_iff fleet.thread (fun u f => f.Sound u) |>.mpr ⟨sound', fun u _ => inv.sound u⟩
    · rcases List.mem_append.mp member with old | new
      · exact inv.reports m old
      · rw [learns.decap.sender, sender, List.nil_append, learned_map] at new
        obtain ⟨index, length⟩ := learns.decap.news m new
        have here := Forwarder.decap_ifindex (inv.coherent t) atDecap
        exact ⟨by rw [index, here]; exact inv.known_of_decap atDecap, length⟩
  | turn turn => exact ⟨goal, inv.turn turn⟩

end Invariant

end R2.Fleet
