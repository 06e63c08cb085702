import R2.Fleet.Settles

namespace R2.Fleet

open Control

variable {n : Nat} {T σ : Type}

/-- The socket that comes with a node. -/
def Node.driver : Node T → Option Int
  | ifNode node => node.driver
  | _ => none

def Msg.driver : Msg T → Option Int
  | gnodeAdd node _ => node.driver
  | _ => none

/-- The socket that the message makes thread `t` watch. -/
def Msg.watched (t : Nat) : Msg T → Option Int
  | epollAdd fd thread => if thread = t then fd else none
  | _ => none

/-- The sockets of the interfaces in a graph, in the order they were added. -/
def drivers (g : Graph (Node T) Packet) : List Int := g.nodes.filterMap fun node => node.client.driver

section Drivers

variable {g : Graph (Node T) Packet} {c d : Node T} {name : String} {msg : Msg T} {thread t : Nat}

theorem Node.driver_clone (c : Node T) : c.clone.driver = none := by cases c <;> rfl

theorem drivers_clone (g : Graph (Node T) Packet) (thread : Nat) : drivers (g.clone thread Node.clone) = [] := by
  rw [drivers, Graph.clone, List.filterMap_map, List.filterMap_eq_nil_iff]
  exact fun node _ => Node.driver_clone node.client

theorem drivers_finalize (g : Graph (Node T) Packet) : drivers g.finalize = drivers g := by
  rw [drivers, Graph.finalize, List.filterMap_map]
  rfl

/-- A node that is added brings its socket. -/
theorem drivers_add (fresh : g.index c.name = 0) {init : GnodeInit} (named : init.name = c.name) :
    drivers (g.add c init) = drivers g ++ c.driver.toList := by
  rw [drivers, Graph.add, if_neg (by rw [named, fresh]; exact not_not_intro rfl), List.filterMap_append]
  cases known : c.driver <;> simp only [List.filterMap_cons, List.filterMap_nil, known, Option.toList] <;> rfl

theorem drivers_add_none (g : Graph (Node T) Packet) (none : c.driver = none) (init : GnodeInit) :
    drivers (g.add c init) = drivers g := by
  unfold Graph.add
  split
  · rfl
  · rw [drivers, List.filterMap_append]
    simp only [List.filterMap_cons, List.filterMap_nil, none, List.append_nil]
    rfl

/-- A client that keeps its socket may change. -/
theorem drivers_set {index : Nat} {node : Gnode (Node T)} (here : g.nodes[index]? = some node)
    (same : d.driver = node.client.driver) :
    drivers { g with nodes := g.nodes.set index { node with client := d } } = drivers g := by
  have map (nodes : List (Gnode (Node T))) : nodes.filterMap (fun node => node.client.driver) =
      (nodes.map fun node => node.client.driver).filterMap id := by rw [List.filterMap_map]; rfl
  obtain ⟨inside, rfl⟩ := List.getElem?_eq_some_iff.mp here
  have inside' : index < (g.nodes.map fun node => node.client.driver).length := by rwa [List.length_map]
  have kept := List.set_getElem_self inside'
  rw [List.getElem_map] at kept
  rw [drivers, drivers, map, map, List.map_set]
  dsimp only
  rw [same, kept]

theorem drivers_setClient (found : g.client name = some c) (same : d.driver = c.driver) :
    drivers (g.setClient name d) = drivers g := by
  unfold Graph.client at found
  split at found
  · cases found
  · obtain ⟨node, here, rfl⟩ := Option.map_eq_some_iff.mp found
    have set : g.setClient name d =
        { g with nodes := g.nodes.set (g.index name) { node with client := d } } := by
      rw [Graph.setClient, List.modify_eq_set_getElem?, here]
      rfl
    rw [set]
    exact drivers_set here same

theorem Node.controlMsg_driver (c : Node T) (thread : Nat) (msg : Msg T) :
    Partially (c.controlMsg thread msg) fun c' => c'.driver = c.driver := by
  cases c with
  | drop => rfl
  | encapMux => rfl
  | ipv4Parse node => rfl
  | ipv4Fwd node table =>
    cases msg with
    | ipv4TableAdd which table => rfl
    | _ => trivial
  | ethEncap node =>
    cases msg with
    | modifyInterface intf => rfl
    | ethMacAdd m => rfl
    | _ => trivial
  | ethDecap node =>
    cases msg with
    | modifyInterface intf => rfl
    | ethMacAdd m => rfl
    | _ => trivial
  | ifNode node =>
    cases msg with
    | modifyInterface intf => rfl
    | classAdd c =>
      have kept : Partially (node.controlMsg thread (.classAdd c : Msg T)) fun node' => node'.driver = node.driver := by
        refine Ensures.ite (fun _ => ?_) fun _ => rfl
        refine (partially_true _).bind fun (created, sched) _ => ?_
        cases created <;> rfl
      exact kept.bind fun _ same => same
    | _ => trivial

theorem Forwarder.tell_drivers (f : Forwarder T σ) (name : String) (msg : Msg T) :
    Partially (f.tell name msg) fun f' => drivers f'.graph = drivers f.graph ∧ f'.fds = f.fds := by
  have told : Partially (f.graph.controlMsg name fun node => node.controlMsg f.graph.thread msg)
      fun out => drivers out.2 = drivers f.graph := by
    refine Ensures.ite (fun _ => rfl) fun _ => ?_
    split
    · trivial
    · rename_i node here
      exact (Node.controlMsg_driver node.client f.graph.thread msg).bind fun c' same => drivers_set here same
  exact told.bind fun (_, graph) same => ⟨same, rfl⟩

/-- A thread that takes a message takes its socket, to watch it or as a driver. -/
theorem Forwarder.receive_drivers {f : Forwarder T σ} {v : Graph (Node T) Packet} (sound : f.Sound thread)
    (applied : msg.clone.apply f.shared = some v) :
    Partially (f.receive msg) fun f' =>
      drivers f'.graph = drivers f.graph ++ msg.driver.toList ∧ f'.fds = f.fds ++ (msg.watched thread).toList := by
  by_cases targets : msg.targets = []
  · cases msg with
    | gnodeAdd node init =>
      unfold Msg.clone Msg.apply at applied
      dsimp only at applied
      split at applied
      · rename_i fits
        obtain ⟨named, apart, fresh⟩ := fits
        change init.name = node.clone.name at named
        change init.name ≠ dropName at apart
        change (f.shared.client init.name).isNone at fresh
        rw [Option.isNone_iff_eq_none, Forwarder.client_shared, Option.map_eq_none_iff] at fresh
        rw [Node.clone_name] at named
        refine ⟨?_, (List.append_nil _).symm⟩
        dsimp only
        rw [drivers_finalize, drivers_add (named ▸ (sound.indexed.index_eq_zero apart).mpr fresh) named]
        rfl
      · cases applied
    | epollAdd fd t =>
      rw [Msg.watched, ← sound.place]
      refine ⟨?_, ?_⟩
      · refine Eq.trans ?_ (List.append_nil (drivers f.graph)).symm
        split <;> rfl
      · split
        · rfl
        · exact (List.append_nil _).symm
    | _ => cases targets
  · have none : msg.driver = none ∧ msg.watched thread = none := by
      cases msg with
      | gnodeAdd => exact absurd rfl targets
      | epollAdd => exact absurd rfl targets
      | _ => exact ⟨rfl, rfl⟩
    rw [none.1, none.2, Forwarder.receive_targets targets, Option.toList, List.append_nil, List.append_nil]
    exact Ensures.foldlM ⟨rfl, rfl⟩ fun f' name _ same =>
      (f'.tell_drivers name msg).mono fun f'' more => ⟨more.1.trans same.1, more.2.trans same.2⟩

/-- A frame leaves the sockets where they are. -/
theorem Forwarder.put_drivers {f : Forwarder T σ} {i : Nat} {path path' : Path T σ} (sound : f.Sound thread)
    (found : f.path i = some path) : drivers (f.put i path').graph = drivers f.graph := by
  obtain ⟨_, _, _, atDecap, _, _⟩ := Forwarder.path_some found
  exact Forwarder.put_rule (P := fun g => drivers g = drivers f.graph) sound.indexed found
    (drivers_setClient atDecap rfl)
    (fun _ _ same here => (drivers_setClient (d := .ipv4Parse path'.parse) here rfl).trans same)
    fun _ _ same here => (drivers_setClient (d := .ipv4Fwd path'.fwd path'.table) here rfl).trans same

end Drivers

section Watched

/-- Every socket that a thread has or will have with an interface it watches or
will watch, in the same order. -/
def Watched (fleet : Fleet n T σ) : Prop :=
  ∀ t, (fleet.thread t).fds ++ (fleet.inbox t).filterMap (Msg.watched t) =
    drivers (fleet.thread t).graph ++ (fleet.inbox t).filterMap Msg.driver

theorem drivers_createNodes (r2 : Ctx T) : drivers (createNodes r2) = [] := by
  rw [createNodes, drivers_finalize, drivers_add_none _ rfl, drivers_add_none _ rfl, drivers_add_none _ rfl]
  rfl

/-- Who is made to watch a socket gets it too. -/
def Balanced (t : Nat) (msgs : List (Msg T)) : Prop := msgs.filterMap (Msg.watched t) = msgs.filterMap Msg.driver

theorem Balanced.append {t : Nat} {xs ys : List (Msg T)} (first : Balanced t xs) (second : Balanced t ys) :
    Balanced t (xs ++ ys) := by
  rw [Balanced, List.filterMap_append, List.filterMap_append, first, second]

theorem balanced_broadcast (t : Fin n) {msg : Msg T} (unwatched : msg.clone.watched t = none)
    (unowned : msg.clone.driver = none) : Balanced t (sentTo t (broadcast msg)) := by
  rw [sentTo_broadcast, Balanced, List.filterMap_cons_none unwatched, List.filterMap_cons_none unowned]
  rfl

theorem addOrDelRoute_balanced [IpLookupTable T] (t : Fin n) {r2 r2' : Ctx T} {ip : Ipv4Addr} {masklen : Nat}
    {nhop : Ipv4Addr} {ifindex : Nat} {add : Bool} {actions : List (Action n T)}
    (run : addOrDelRoute r2 ip masklen nhop ifindex add = (r2', actions)) : Balanced t (sentTo t actions) := by
  cases run
  rw [sentTo_append]
  exact (balanced_broadcast t rfl rfl).append rfl

/-- The owner of a new interface is made to watch its socket. -/
theorem addIf_balanced (t owner : Fin n) (intf : Interface) (fd : Int) (init : GnodeInit) :
    Balanced t (sentTo t (broadcast (.epollAdd (some fd) owner) ++
      (((List.finRange n).filter (· ≠ owner)).map fun u =>
        .send u (Msg.clone (.gnodeAdd (.ifNode (IfNode.new (some owner) intf fd)) init))) ++
      [.send owner (.gnodeAdd (.ifNode (IfNode.new (some owner) intf fd)) init : Msg T)])) := by
  rw [sentTo_append, sentTo_append, sentTo_broadcast, sentTo_sends ((List.nodup_finRange n).filter _)]
  by_cases same : t = owner
  · subst same
    rw [if_neg (by simp), List.append_nil, sentTo, if_pos rfl]
    have watched : (Msg.epollAdd (some fd) t : Msg T).clone.watched t = some fd := if_pos rfl
    rw [Balanced, List.singleton_append, List.filterMap_cons_some watched]
    rfl
  · have watched : (Msg.epollAdd (some fd) owner : Msg T).clone.watched t = none :=
      if_neg fun clash => same (Fin.ext clash.symm)
    rw [if_pos (by simp [same]), sentTo, if_neg (Ne.symm same), Balanced, List.singleton_append, List.cons_append,
      List.filterMap_cons_none watched]
    rfl

theorem Called.balanced [IpLookupTable T] {r2 r2' : Ctx T} {sections : List (List (Action n T))}
    (called : Called r2 r2' sections) (t : Fin n) : Balanced t (sentTo t sections.flatten) := by
  cases called with
  | addIf owner =>
    simp only [List.flatten_cons, List.flatten_nil, List.append_nil, createEthNodes, sentTo_append t (_ ++ _ ++ _)]
    refine (addIf_balanced ..).append ?_
    rw [sentTo_append]
    exact (balanced_broadcast t rfl rfl).append (balanced_broadcast t rfl rfl)
  | addIp =>
    simp only [List.flatten_cons, List.flatten_nil, List.append_nil, sentTo_append t (broadcast _)]
    exact (balanced_broadcast t rfl rfl).append (addOrDelRoute_balanced t rfl)
  | changeIp _ _ run =>
    simp only [List.flatten_cons, List.flatten_nil, List.append_nil, sentTo_append t (broadcast _)]
    refine (balanced_broadcast t rfl rfl).append ?_
    rw [sentTo_append]
    exact (addOrDelRoute_balanced t run).append (addOrDelRoute_balanced t rfl)
  | addClass =>
    simp only [List.flatten_cons, List.flatten_nil, List.append_nil]
    exact balanced_broadcast t rfl rfl
  | route =>
    simp only [List.flatten_cons, List.flatten_nil, List.append_nil]
    exact addOrDelRoute_balanced t rfl

variable {fleet fleet' : Fleet n T σ} {goal : Graph (Node T) Packet}

theorem Watched.of_eq (watched : Watched fleet) (threads : fleet'.thread = fleet.thread)
    (inbox : ∀ t, fleet'.inbox t = fleet.inbox t) : Watched fleet' := by
  intro t
  rw [threads, inbox t]
  exact watched t

theorem Watched.turn (watched : Watched fleet) (inv : Inv fleet goal) (turn : Turn fleet fleet') : Watched fleet' := by
  cases turn with
  | lock free next => exact watched.of_eq rfl (Fleet.inbox_lock free next)
  | @report report reports free head =>
    intro t
    have old := watched t
    rw [Fleet.inbox, free, List.nil_append, List.filterMap_append, List.filterMap_append] at old
    change _ ++ (fleet.channel t ++ sentTo t (broadcast (.ethMacAdd report) ++ fleet.later.flatten)).filterMap _ =
      _ ++ (fleet.channel t ++ sentTo t (broadcast (.ethMacAdd report) ++ fleet.later.flatten)).filterMap _
    rw [sentTo_append, sentTo_broadcast, List.filterMap_append, List.filterMap_append, List.filterMap_append,
      List.filterMap_append]
    exact old
  | send head => exact watched.of_eq rfl (Fleet.inbox_send head)
  | await head released => exact watched.of_eq rfl (Fleet.inbox_await head)
  | @receive t msg rest f head run =>
    obtain ⟨v, applied, _⟩ := inv.receive head
    obtain ⟨inbox, after⟩ := Fleet.inbox_receive head f
    obtain ⟨taken, watching⟩ := (Forwarder.receive_drivers (inv.sound t) applied).ok run
    have old := watched t
    rw [inbox] at old
    intro u
    by_cases same : u = t
    · subst same
      have cons (p : Msg T → Option Int) (msgs : List (Msg T)) :
          (msg :: msgs).filterMap p = (p msg).toList ++ msgs.filterMap p := by
        rw [List.filterMap_cons]
        cases p msg <;> rfl
      rw [cons, cons, ← List.append_assoc, ← List.append_assoc] at old
      rw [after, Function.update_self]
      simp only [Function.update_self, taken, watching]
      exact old
    · rw [after, Function.update_of_ne same]
      simp only [Function.update_of_ne same]
      exact watched u

variable [IpLookupTable T] [PacketPool σ]

omit [PacketPool σ] in
theorem Watched.start (pool : Fin n → σ) : Watched (Fleet.start pool : Fleet n T σ) := by
  intro t
  change [] = drivers (launch (Ctx.new n) (pool t) t).graph ++ []
  rw [List.append_nil, launch]
  dsimp only
  split
  · exact (drivers_createNodes _).symm
  · exact (drivers_clone _ _).symm

theorem Watched.step (watched : Watched fleet) (inv : Inv fleet goal) (step : Step fleet fleet') : Watched fleet' := by
  cases step with
  | @call c r2 locked later free idle run =>
    rcases handle_cases (n := n) inv.tidy c with ⟨_, _, _, refused⟩ | ⟨_, sections, done, called⟩
    · rw [refused] at run
      cases run
    · cases (Except.ok.inj (done.symm.trans run) : (_, Except.ok sections) = _)
      intro t
      have old := watched t
      rw [Fleet.inbox, free, idle] at old
      change _ ++ (fleet.channel t ++ sentTo t (locked :: later).flatten).filterMap _ =
        _ ++ (fleet.channel t ++ sentTo t (locked :: later).flatten).filterMap _
      have balanced : (sentTo t (locked :: later).flatten).filterMap _ = _ := called.balanced t
      rw [List.filterMap_append, List.filterMap_append, balanced, ← List.append_assoc, ← List.append_assoc]
      refine congrArg (· ++ _) ?_
      rw [← List.append_nil (fleet.channel t)]
      exact old
  | refused free idle run => exact watched.of_eq rfl fun _ => rfl
  | @frame t i path frame path' owns found run =>
    obtain ⟨node, _, _, atDecap, atParse, atFwd⟩ := Forwarder.path_some found
    intro u
    by_cases same : u = t
    · subst same
      simp only [Function.update_self, Forwarder.put_drivers (inv.sound u) found]
      exact watched u
    · simp only [Function.update_of_ne same]
      exact watched u
  | turn turn => exact watched.turn inv turn

end Watched

end R2.Fleet
