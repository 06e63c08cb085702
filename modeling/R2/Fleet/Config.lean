import R2.Fleet.Fleet
import R2.Hfsc.InRange

namespace R2

/-- A class with such curves is created, or refused for another reason. -/
theorem Hfsc.createClass_returns {h : Hfsc} (tree : Tree h) (name parentName : String) (qlimit : Nat) (isLeaf : Bool)
    {curves : Curves} (small : curves.Small) :
    NoOverflow (h.createClass name parentName qlimit isLeaf curves) fun _ => True := by
  have made (parent index pvoff : Nat) : NoOverflow (Class.new parent index qlimit isLeaf pvoff curves) fun _ => True :=
    (startCurve_noOverflow small.1).bind fun _ _ => (startCurve_noOverflow small.2.1).bind fun _ _ =>
      (sc2isc_noOverflow small.2.2).bind fun _ _ => trivial
  unfold createClass
  refine Ensures.ite (fun _ => trivial) fun _ => ?_
  split
  · trivial
  · split
    · trivial
    · refine Ensures.ite (fun _ => trivial) fun _ => ?_
      split
      · rename_i free rest some
        rw [tree.free] at some
        cases some
      · exact (made ..).bind fun _ _ => trivial

namespace Fleet

variable {T σ : Type}

/-- What a thread has in common with the others: the clone of its graph. -/
def Forwarder.shared (f : Forwarder T σ) : Graph (Node T) Packet := f.graph.clone 0 Node.clone

/-- What a message makes of the clone of a node that knows it. -/
def Node.accept : Node T → Msg T → Option (Node T)
  | ipv4Fwd node _, .ipv4TableAdd which table => some (ipv4Fwd { node with table := which } table)
  | ifNode node, .modifyInterface intf => some (ifNode { node with intf })
  | ifNode node, .classAdd _ => some (ifNode node)
  | ethDecap node, .modifyInterface intf => some (ethDecap { node with intf })
  | ethDecap node, .ethMacAdd _ => some (ethDecap node)
  | ethEncap node, .modifyInterface intf => some (ethEncap { node with intf })
  | ethEncap node, .ethMacAdd _ => some (ethEncap node)
  | _, _ => none

/-- What a message makes of what the threads share, if every node it is for is
there and knows it; a node that is added is new. -/
def Msg.apply (v : Graph (Node T) Packet) : Msg T → Option (Graph (Node T) Packet)
  | gnodeAdd node init =>
    if init.name = node.name ∧ init.name ≠ dropName ∧ (v.client init.name).isNone then
      some (v.add node init).finalize
    else none
  | epollAdd .. => some v
  | msg => msg.targets.foldlM (fun v name => v.tell name (·.accept msg)) v

/-- Every node is found under its own name. -/
structure Coherent (v : Graph (Node T) Packet) : Prop where
  indexed : v.Indexed
  named : ∀ name c, v.client name = some c → c.name = name

/-- A class message whose curves the arithmetic of the scheduler can take. -/
def Msg.Mild : Msg T → Prop
  | classAdd c => c.curves.Small
  | _ => True

/-- Only the owner of an interface has the driver and uses the scheduler. -/
structure IfNode.Sound (thread : Nat) (node : IfNode) : Prop where
  pinned : node.affinity.isSome
  sched : Hfsc.Sound node.sched
  idle : Hfsc.Idle node.sched
  rooted : node.sched.classNames.lookup "root" = some 1
  owner : node.affinity = some thread → node.driver.isSome
  other : node.affinity ≠ some thread → node = node.clone

/-- What holds of a node on its own thread. -/
def Node.Sound (thread : Nat) : Node T → Prop
  | ifNode node => node.Sound thread
  | ethDecap node => node.sender = ⟨true, []⟩
  | _ => True

/-- The node has learned no addresses. -/
def Node.Blank : Node T → Prop
  | ethDecap node => node.mac = fun _ => none
  | ethEncap node => node.mac = fun _ => none
  | _ => True

def Msg.Sound (thread : Nat) : Msg T → Prop
  | gnodeAdd node _ => node.Sound thread ∧ node.Blank
  | _ => True

structure Forwarder.Sound (thread : Nat) (f : Forwarder T σ) : Prop where
  place : f.graph.thread = thread
  indexed : f.graph.Indexed
  nodes : ∀ name c, f.graph.client name = some c → c.Sound thread

section Nodes

variable {thread : Nat} {c d : Node T} {msg : Msg T}

theorem newSched_sound : Hfsc.Sound newSched := Hfsc.Sound.new newSched_eq

theorem newSched_idle : Hfsc.Idle newSched := Hfsc.Idle.new newSched_eq

theorem newSched_rooted : newSched.classNames.lookup "root" = some 1 := AList.lookup_insert _

theorem Node.clone_name (c : Node T) : c.clone.name = c.name := by cases c <;> rfl

theorem Node.clone_clone (c : Node T) : c.clone.clone = c.clone := by cases c <;> rfl

theorem Msg.clone_clone (msg : Msg T) : msg.clone.clone = msg.clone := by
  cases msg with
  | gnodeAdd node init => exact congrArg (Msg.gnodeAdd · (cloneInit init)) node.clone_clone
  | _ => rfl

theorem Msg.clone_of_targets (some : msg.targets ≠ []) : msg.clone = msg := by
  cases msg with
  | gnodeAdd node init => exact absurd rfl some
  | _ => rfl

theorem IfNode.Sound.modify {node : IfNode} (sound : node.Sound thread) (intf : Interface) :
    IfNode.Sound thread { node with intf } where
  pinned := sound.pinned
  sched := sound.sched
  idle := sound.idle
  rooted := sound.rooted
  owner := sound.owner
  other elsewhere := by
    have same := sound.other elsewhere
    rw [same]
    rfl

theorem IfNode.ownerThread_iff {node : IfNode} (sound : node.Sound thread) :
    node.ownerThread thread = true ↔ node.affinity = some thread := by
  obtain ⟨owner, pinned⟩ := Option.isSome_iff_exists.mp sound.pinned
  rw [ownerThread, pinned]
  simp only [Option.isNone_some, Bool.false_or, beq_iff_eq]

theorem IfNode.classAdd_sound {node : IfNode} (sound : node.Sound thread) (c : ClassAddMsg) :
    NoPanic (node.controlMsg thread (.classAdd c : Msg T)) fun node' =>
      node'.clone = node.clone ∧ node'.Sound thread := by
  refine Ensures.ite (fun own => ?_) fun _ => ⟨rfl, sound⟩
  refine (Hfsc.createClass_spec sound.sched.tree ..).bind fun (created, sched') step => ?_
  have sound' := step.sound sound.sched
  have idle := step.idle sound.idle
  have rooted := step.named sound.rooted
  have owned := (ownerThread_iff sound).mp own
  cases created with
  | ok => exact ⟨rfl, sound.pinned, sound', idle, rooted, sound.owner, fun elsewhere => absurd owned elsewhere⟩
  | error e =>
    exact ⟨rfl, sound.pinned, sound', idle, rooted, sound.owner, fun elsewhere => absurd owned elsewhere⟩

/-- A node does to itself what the message does to its clone. -/
theorem Node.controlMsg_accept (sound : c.Sound thread) (accepted : c.clone.accept msg = some d) :
    NoPanic (c.controlMsg thread msg) fun c' => c'.clone = d ∧ c'.Sound thread := by
  cases c with
  | drop => cases accepted
  | encapMux => cases accepted
  | ipv4Parse node => cases accepted
  | ipv4Fwd node table =>
    cases msg with
    | ipv4TableAdd which table =>
      cases Option.some.inj accepted
      exact ⟨rfl, trivial⟩
    | _ => cases accepted
  | ethEncap node =>
    cases msg with
    | modifyInterface intf =>
      cases Option.some.inj accepted
      exact ⟨rfl, trivial⟩
    | ethMacAdd msg =>
      cases Option.some.inj accepted
      have kept : (node.macAdd msg.ip msg.mac).intf = node.intf := by
        unfold EthEncap.macAdd
        split <;> rfl
      refine ⟨?_, trivial⟩
      change Node.ethEncap (ethEncapNew (node.macAdd msg.ip msg.mac).intf) = _
      rw [kept]
      rfl
    | _ => cases accepted
  | ethDecap node =>
    cases msg with
    | modifyInterface intf =>
      cases Option.some.inj accepted
      exact ⟨rfl, sound⟩
    | ethMacAdd msg =>
      cases Option.some.inj accepted
      have kept : (node.macAdd msg.ip msg.mac).intf = node.intf ∧
          (node.macAdd msg.ip msg.mac).sender = node.sender := by
        unfold EthDecap.macAdd
        split <;> exact ⟨rfl, rfl⟩
      refine ⟨?_, kept.2.trans sound⟩
      change Node.ethDecap (ethDecapClone (node.macAdd msg.ip msg.mac)) = _
      rw [ethDecapClone, kept.1, kept.2]
      rfl
    | _ => cases accepted
  | ifNode node =>
    cases msg with
    | modifyInterface intf =>
      cases Option.some.inj accepted
      exact ⟨rfl, IfNode.Sound.modify sound intf⟩
    | classAdd c =>
      cases Option.some.inj accepted
      exact (IfNode.classAdd_sound sound c).bind fun _ ⟨same, kept⟩ => ⟨congrArg ifNode same, kept⟩
    | _ => cases accepted

/-- A message that a node knows makes its arithmetic fail only with large curves. -/
theorem Node.controlMsg_mild (sound : c.Sound thread) (accepted : c.clone.accept msg = some d) (mild : msg.Mild) :
    NoOverflow (c.controlMsg thread msg) fun _ => True := by
  cases c with
  | drop => cases accepted
  | encapMux => cases accepted
  | ipv4Parse node => cases accepted
  | ipv4Fwd node table =>
    cases msg with
    | ipv4TableAdd which table => trivial
    | _ => cases accepted
  | ethEncap node =>
    cases msg with
    | modifyInterface intf => trivial
    | ethMacAdd msg => trivial
    | _ => cases accepted
  | ethDecap node =>
    cases msg with
    | modifyInterface intf => trivial
    | ethMacAdd msg => trivial
    | _ => cases accepted
  | ifNode node =>
    cases msg with
    | modifyInterface intf => trivial
    | classAdd c =>
      have returns : NoOverflow (node.controlMsg thread (.classAdd c : Msg T)) fun _ => True := by
        refine Ensures.ite (fun _ => ?_) fun _ => trivial
        refine (Hfsc.createClass_returns (IfNode.Sound.sched sound).tree _ _ _ _ mild).bind fun (created, _) _ => ?_
        cases created <;> trivial
      exact returns.bind fun _ _ => trivial
    | _ => cases accepted

end Nodes

section Receive

variable {f : Forwarder T σ} {thread : Nat} {msg : Msg T} {v : Graph (Node T) Packet} {name : String}

theorem Forwarder.client_shared (f : Forwarder T σ) (name : String) :
    f.shared.client name = (f.graph.client name).map Node.clone := Graph.client_clone ..

/-- A thread with one client replaced. -/
theorem Forwarder.Sound.setClient {c c' : Node T} (sound : f.Sound thread) (found : f.graph.client name = some c)
    (kept : c'.Sound thread) : Forwarder.Sound thread { f with graph := f.graph.setClient name c' } where
  place := sound.place
  indexed := sound.indexed.setClient name c'
  nodes other d there := by
    rw [sound.indexed.client_setClient (by rw [found]; rfl)] at there
    split at there
    · exact Option.some.inj there ▸ kept
    · exact sound.nodes other d there

/-- A thread hands a message to a node as it does with the clones. -/
theorem Forwarder.tell_apply (sound : f.Sound thread) (told : f.shared.tell name (·.accept msg) = some v) :
    NoPanic (f.tell name msg) fun f' => f'.shared = v ∧ f'.Sound thread ∧ f'.fds = f.fds := by
  obtain ⟨_, d, cloned, accepted, rfl⟩ := Graph.tell_some told
  rw [f.client_shared] at cloned
  obtain ⟨c, found, rfl⟩ := Option.map_eq_some_iff.mp cloned
  have own := sound.nodes name c found
  unfold tell
  rw [Graph.controlMsg_known found, sound.place]
  have handled := Node.controlMsg_accept own accepted
  cases run : c.controlMsg thread msg with
  | error e => exact handled.error run
  | ok c' =>
    obtain ⟨same, kept⟩ := handled.ok run
    subst same
    exact ⟨Graph.clone_setClient .., sound.setClient found kept, rfl⟩

theorem Forwarder.tell_mild (sound : f.Sound thread) (told : f.shared.tell name (·.accept msg) = some v)
    (mild : msg.Mild) : NoOverflow (f.tell name msg) fun _ => True := by
  obtain ⟨_, d, cloned, accepted, rfl⟩ := Graph.tell_some told
  rw [f.client_shared] at cloned
  obtain ⟨c, found, rfl⟩ := Option.map_eq_some_iff.mp cloned
  have own := sound.nodes name c found
  unfold tell
  rw [Graph.controlMsg_known found, sound.place]
  have handled := Node.controlMsg_mild own accepted mild
  cases run : c.controlMsg thread msg with
  | error e => exact handled.error run
  | ok c' => trivial

theorem Forwarder.tells_apply {names : List String} (sound : f.Sound thread)
    (told : names.foldlM (fun v name => v.tell name (·.accept msg)) f.shared = some v) :
    NoPanic (names.foldlM (fun f name => f.tell name msg) f) fun f' =>
      f'.shared = v ∧ f'.Sound thread ∧ f'.fds = f.fds := by
  induction names generalizing f with
  | nil => exact ⟨Option.some.inj told, sound, rfl⟩
  | cons name names ih =>
    rw [List.foldlM_cons] at told ⊢
    obtain ⟨v', first, rest⟩ := Option.bind_eq_some_iff.mp told
    refine (Forwarder.tell_apply sound first).bind fun f' ⟨same, kept, fds⟩ => ?_
    subst same
    exact (ih kept rest).mono fun f'' ⟨shared, sound', fds'⟩ => ⟨shared, sound', fds'.trans fds⟩

theorem Forwarder.tells_mild {names : List String} (sound : f.Sound thread)
    (told : names.foldlM (fun v name => v.tell name (·.accept msg)) f.shared = some v) (mild : msg.Mild) :
    NoOverflow (names.foldlM (fun f name => f.tell name msg) f) fun _ => True := by
  induction names generalizing f with
  | nil => trivial
  | cons name names ih =>
    rw [List.foldlM_cons] at told ⊢
    obtain ⟨v', first, rest⟩ := Option.bind_eq_some_iff.mp told
    obtain ⟨f', run, -⟩ := (Forwarder.tell_mild sound first mild).returns (Forwarder.tell_apply sound first)
    obtain ⟨same, kept, -⟩ := (Forwarder.tell_apply sound first).ok run
    subst same
    rw [run]
    exact ih kept rest

/-- A thread adds a node as it does with the clones. -/
theorem Forwarder.Sound.add {node : Node T} {init : GnodeInit} (sound : f.Sound thread) (own : node.Sound thread)
    (other : init.name ≠ dropName) :
    Forwarder.Sound thread { f with graph := (f.graph.add node init).finalize } where
  place := by rw [Graph.thread_finalize, Graph.thread_add, sound.place]
  indexed := (sound.indexed.add node other).finalize
  nodes name c there := by
    rw [Graph.client_finalize, sound.indexed.client_add node other] at there
    split at there
    · cases known : f.graph.client name with
      | none =>
        rw [known] at there
        exact Option.some.inj there ▸ own
      | some d =>
        rw [known] at there
        exact Option.some.inj there ▸ sound.nodes name d known
    · exact sound.nodes name c there

theorem Msg.apply_targets (some : msg.targets ≠ []) (v : Graph (Node T) Packet) :
    msg.apply v = msg.targets.foldlM (fun v name => v.tell name (·.accept msg)) v := by
  cases msg with
  | gnodeAdd => exact absurd rfl some
  | epollAdd => exact absurd rfl some
  | _ => rfl

theorem Forwarder.receive_targets (some : msg.targets ≠ []) (f : Forwarder T σ) :
    f.receive msg = msg.targets.foldlM (fun f name => f.tell name msg) f := by
  cases msg with
  | gnodeAdd => exact absurd rfl some
  | epollAdd => exact absurd rfl some
  | _ => rfl

/-- A thread does with its graph what the message does to its clone. -/
theorem Forwarder.receive_apply (sound : f.Sound thread) (own : msg.Sound thread)
    (applied : msg.clone.apply f.shared = some v) :
    NoPanic (f.receive msg) fun f' => f'.shared = v ∧ f'.Sound thread := by
  by_cases targets : msg.targets = []
  · cases msg with
    | gnodeAdd node init =>
      unfold Msg.clone Msg.apply at applied
      dsimp only at applied
      split at applied
      · rename_i fits
        cases Option.some.inj applied
        refine ⟨?_, sound.add own.1 fits.2.1⟩
        change (f.graph.add node init).finalize.clone 0 Node.clone = _
        rw [Graph.clone_finalize, Graph.clone_add]
        rfl
      · cases applied
    | epollAdd fd t =>
      cases Option.some.inj applied
      have either (f' : Forwarder T σ) (same : f'.graph = f.graph) : f'.shared = f.shared ∧ f'.Sound thread :=
        ⟨congrArg (Graph.clone · 0 Node.clone) same, same ▸ sound.place, same ▸ sound.indexed, same ▸ sound.nodes⟩
      refine either _ ?_
      split <;> rfl
    | _ => cases targets
  · rw [Msg.clone_of_targets targets, Msg.apply_targets targets] at applied
    rw [Forwarder.receive_targets targets]
    exact (Forwarder.tells_apply sound applied).mono fun f' ⟨same, kept, _⟩ => ⟨same, kept⟩

/-- What a thread takes in it takes without a fault, but for large curves. -/
theorem Forwarder.receive_mild (sound : f.Sound thread) (applied : msg.clone.apply f.shared = some v)
    (mild : msg.Mild) : NoOverflow (f.receive msg) fun _ => True := by
  by_cases targets : msg.targets = []
  · cases msg with
    | gnodeAdd node init => trivial
    | epollAdd fd t => trivial
    | _ => cases targets
  · rw [Msg.clone_of_targets targets, Msg.apply_targets targets] at applied
    rw [Forwarder.receive_targets targets]
    exact Forwarder.tells_mild sound applied mild

end Receive

end Fleet

end R2
