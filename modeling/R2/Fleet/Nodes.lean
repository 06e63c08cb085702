import R2.Control.Thread
import R2.Graph.Clients
import R2.Hfsc.Create
import R2.Hfsc.Unwrap
import R2.Path.Nodes

namespace R2.Fleet

/-- The scheduler that `Hfsc::new` makes for an interface. -/
def newSched : Hfsc :=
  match Hfsc.new (10 * 1024 * 1024 * 1024) with
  | .ok sched => sched
  | .error _ => ⟨0, [], ∅, [], ∅, 0⟩

theorem newSched_eq : Hfsc.new (10 * 1024 * 1024 * 1024) = .ok newSched := rfl

/-- The interface node with what ties it to a thread; a driver is known by the
descriptor of its socket. -/
structure IfNode extends R2.IfNode where
  affinity : Option Nat
  sched : Hfsc
  driver : Option Int
  schedFail : Nat

def IfNode.new (affinity : Option Nat) (intf : Interface) (driver : Int) : IfNode :=
  ⟨⟨intf⟩, affinity, newSched, some driver, 0⟩

def IfNode.fd (node : IfNode) : Option Int := node.driver

def IfNode.clone (node : IfNode) : IfNode := { node with sched := newSched, driver := none, schedFail := 0 }

/-- Whether the thread does the I/O of the interface. -/
def IfNode.ownerThread (node : IfNode) (thread : Nat) : Bool :=
  node.affinity.isNone || node.affinity == some thread

/-- What `dispatch` of an interface node has done with the packets to transmit: those given to the
driver, the queue to the owner's thread with the wakeups written there, the packets that found the
queue full, and whether it asked to be run again. -/
structure Tx where
  sent : List Packet
  threadQ : List Packet
  wakeups : Nat
  threadqFail : Nat
  again : Bool

/-- `sendmsg` of the driver, which the owner has. Once the scheduler has classes the packet is lost
here, nothing enqueues it. -/
def IfNode.sendmsg (node : IfNode) (tx : Tx) (p : Packet) : Outcome Tx := do
  if ← node.sched.hasClasses then .ok tx
  else
    match node.driver with
    | some _ => .ok { tx with sent := tx.sent ++ [p] }
    | none => .error .unwrap

/-- The body of the loop over the node's own packets. -/
def IfNode.transmitOne (node : IfNode) (thread : Nat) (tx : Tx) (p : Packet) : Outcome Tx :=
  if node.ownerThread thread then node.sendmsg tx p
  else if tx.threadQ.length < vecSize then .ok { tx with threadQ := tx.threadQ ++ [p], wakeups := tx.wakeups + 1 }
  else .ok { tx with threadqFail := tx.threadqFail + 1 }

/-- `dispatch` up to what it receives; `pkts` is what its `pop` returns. -/
def IfNode.transmit (node : IfNode) (thread : Nat) (pkts threadQ : List Packet) : Outcome Tx := do
  let tx ← pkts.foldlM (node.transmitOne thread) ⟨[], threadQ, 0, 0, false⟩
  let tx ← if node.ownerThread thread then tx.threadQ.foldlM node.sendmsg { tx with threadQ := [] } else .ok tx
  .ok { tx with again := node.sched.pktsQueued != 0 }

def ethDecapNew (intf : Interface) : EthDecap := ⟨intf, fun _ => none, ⟨true, []⟩, ⟨0, 0, 0, 0, 0⟩⟩

def ethDecapClone (node : EthDecap) : EthDecap :=
  ⟨node.intf, fun _ => none, { node.sender with sent := [] }, ⟨0, 0, 0, 0, 0⟩⟩

def ethEncapNew (intf : Interface) : EthEncap := ⟨intf, fun _ => none, 0⟩

def ethEncapClone (node : EthEncap) : EthEncap := ⟨node.intf, fun _ => none, 0⟩

/-- The nodes of a forwarding thread. -/
inductive Node (T : Type)
  | drop
  | ipv4Parse (node : IPv4Parse)
  | ipv4Fwd (node : IPv4Fwd) (table : IPv4Table T)
  | encapMux
  | ifNode (node : IfNode)
  | ethDecap (node : EthDecap)
  | ethEncap (node : EthEncap)

structure ClassAddMsg where
  ifindex : Nat
  name : String
  parent : String
  qlimit : Nat
  isLeaf : Bool
  curves : Curves

/-- The messages to a forwarding thread; the `Arc` of a table comes with the
routes that the table has while the threads hold it. -/
inductive Msg (T : Type)
  | gnodeAdd (node : Node T) (init : GnodeInit)
  | epollAdd (fd : Option Int) (thread : Nat)
  | ipv4TableAdd (which : V4Table) (table : IPv4Table T)
  | modifyInterface (intf : Interface)
  | ethMacAdd (msg : EthMacAddMsg)
  | classAdd (msg : ClassAddMsg)

variable {T : Type}

def IfNode.controlMsg (node : IfNode) (thread : Nat) : Msg T → Outcome IfNode
  | .modifyInterface intf => .ok { node with intf }
  | .classAdd c =>
    if node.ownerThread thread then do
      let (created, sched) ← node.sched.createClass c.name c.parent c.qlimit c.isLeaf c.curves
      match created with
      | .ok () => .ok { node with sched }
      | .error _ => .ok { node with sched, schedFail := node.schedFail + 1 }
    else .ok node
  | _ => .error .panicked

namespace Node

/-- The name that the node is registered under. -/
def name : Node T → String
  | drop => dropName
  | ipv4Parse _ => Names.l3Ipv4Parse
  | ipv4Fwd .. => Names.l3Ipv4Fwd
  | encapMux => Names.encapMux
  | ifNode node => Names.rxTx node.intf.ifindex
  | ethDecap node => Names.l2EthDecap node.intf.ifindex
  | ethEncap node => Names.l2EthEncap node.intf.ifindex

def clone : Node T → Node T
  | drop => drop
  | ipv4Parse _ => ipv4Parse ⟨0⟩
  | ipv4Fwd node table => ipv4Fwd ⟨node.table, 0, 0⟩ table
  | encapMux => encapMux
  | ifNode node => ifNode node.clone
  | ethDecap node => ethDecap (ethDecapClone node)
  | ethEncap node => ethEncap (ethEncapClone node)

/-- `control_msg`; the nodes that do not have it ignore every message. -/
def controlMsg (thread : Nat) : Node T → Msg T → Outcome (Node T)
  | ipv4Fwd node _, .ipv4TableAdd which table => do
    let node ← node.controlMsg (.ipv4TableAdd which)
    .ok (ipv4Fwd node table)
  | ifNode node, msg => do
    let node ← node.controlMsg thread msg
    .ok (ifNode node)
  | ethDecap node, .modifyInterface intf => do
    let node ← node.controlMsg (.modifyInterface intf)
    .ok (ethDecap node)
  | ethDecap node, .ethMacAdd msg => do
    let node ← node.controlMsg (.ethMacAdd msg)
    .ok (ethDecap node)
  | ethEncap node, .modifyInterface intf => do
    let node ← node.controlMsg (.modifyInterface intf)
    .ok (ethEncap node)
  | ethEncap node, .ethMacAdd msg => do
    let node ← node.controlMsg (.ethMacAdd msg)
    .ok (ethEncap node)
  | drop, _ => .ok drop
  | ipv4Parse node, _ => .ok (ipv4Parse node)
  | encapMux, _ => .ok encapMux
  | _, _ => .error .panicked

end Node

def cloneInit (init : GnodeInit) : GnodeInit := { init with cntrs := ⟨0, 0⟩ }

/-- `R2Msg::clone` -/
def Msg.clone : Msg T → Msg T
  | gnodeAdd node init => gnodeAdd node.clone (cloneInit init)
  | msg => msg

/-- The names of the nodes that `ctrl2fwd_messages` hands the message to. -/
def Msg.targets : Msg T → List String
  | gnodeAdd .. | epollAdd .. => []
  | ipv4TableAdd .. => [Names.l3Ipv4Fwd]
  | modifyInterface intf => [Names.l2EthDecap intf.ifindex, Names.l2EthEncap intf.ifindex, Names.rxTx intf.ifindex]
  | ethMacAdd msg => [Names.l2EthDecap msg.ifindex, Names.l2EthEncap msg.ifindex]
  | classAdd c => [Names.rxTx c.ifindex]

/-- A forwarding thread: its graph, the descriptors its `Epoll` watches, its pool
and the packets its nodes have handed to the interface nodes. -/
structure Forwarder (T σ : Type) where
  graph : Graph (Node T) Packet
  fds : List Int
  pool : σ
  tx : List Packet

namespace Forwarder

variable {σ : Type}

/-- `g.control_msg(name, msg)` -/
def tell (f : Forwarder T σ) (name : String) (msg : Msg T) : Outcome (Forwarder T σ) := do
  let (_, graph) ← f.graph.controlMsg name fun node => node.controlMsg f.graph.thread msg
  .ok { f with graph }

/-- One turn of the loop of `ctrl2fwd_messages`. -/
def receive (f : Forwarder T σ) : Msg T → Outcome (Forwarder T σ)
  | .gnodeAdd node init => .ok { f with graph := (f.graph.add node init).finalize }
  | .epollAdd fd thread => .ok (if thread = f.graph.thread then { f with fds := f.fds ++ fd.toList } else f)
  | msg => msg.targets.foldlM (fun f name => f.tell name msg) f

/-- The nodes on the way of a frame from interface `i`. -/
def path (f : Forwarder T σ) (i : Nat) : Option (Path T σ) :=
  match f.graph.client (Names.rxTx i), f.graph.client (Names.l2EthDecap i), f.graph.client Names.l3Ipv4Parse,
    f.graph.client Names.l3Ipv4Fwd with
  | some (.ifNode node), some (.ethDecap decap), some (.ipv4Parse parse), some (.ipv4Fwd fwd table) =>
    some {
      ifNode := node.toIfNode, decap, parse, fwd, table
      encap := fun k => match f.graph.client (Names.l2EthEncap k) with
        | some (.ethEncap encap) => some encap
        | _ => none
      pool := f.pool, tx := f.tx }
  | _, _, _, _ => none

/-- The nodes after a frame from interface `i`; what `EthDecap` has sent is no
longer with it. -/
def put (f : Forwarder T σ) (i : Nat) (path : Path T σ) : Forwarder T σ :=
  { f with
    graph := ((f.graph.setClient (Names.l2EthDecap i)
        (.ethDecap { path.decap with sender := { path.decap.sender with sent := [] } })).setClient
      Names.l3Ipv4Parse (.ipv4Parse path.parse)).setClient Names.l3Ipv4Fwd (.ipv4Fwd path.fwd path.table)
    pool := path.pool
    tx := path.tx }

/-- Whether the thread receives the frames of interface `i`. -/
def Owns (f : Forwarder T σ) (i : Nat) : Prop :=
  ∃ node, f.graph.client (Names.rxTx i) = some (.ifNode node) ∧ node.ownerThread f.graph.thread = true

end Forwarder

end R2.Fleet
