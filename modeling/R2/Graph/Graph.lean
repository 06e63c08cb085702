import R2.Outcome

namespace R2

/-- The part of a `VecDeque` that the graph looks at. -/
structure VecDeque (P : Type) where
  capacity : Nat
  items : List P
deriving DecidableEq, Repr

namespace VecDeque

variable {P : Type}

def withCapacity (capacity : Nat) : VecDeque P := ⟨capacity, []⟩

/-- A full queue doubles its room. -/
def pushBack (q : VecDeque P) (p : P) : VecDeque P :=
  ⟨if q.items.length = q.capacity then max (2 * q.capacity) 4 else q.capacity, q.items ++ [p]⟩

def popFront (q : VecDeque P) : Option P × VecDeque P := (q.items.head?, { q with items := q.items.tail })

end VecDeque

/-- The queue size of a new node, which the queue may outgrow. -/
def vecSize : Nat := 256

structure GnodeCntrs where
  enqed : Nat
  drops : Nat
deriving DecidableEq, Repr

structure GnodeInit where
  name : String
  nextNames : List String
  cntrs : GnodeCntrs
deriving DecidableEq, Repr

structure Gnode (γ : Type) where
  client : γ
  name : String
  nextNames : List String
  nextNodes : List Nat
deriving DecidableEq, Repr

/-- What a node gets to take packets and to hand them on. -/
structure Dispatch (P : Type) where
  node : Nat
  vectors : List (VecDeque P)
  counters : List GnodeCntrs
  nodes : List Nat
  work : Bool
  wakeup : Nat
deriving DecidableEq, Repr

/-- `usize::MAX` -/
def usizeMax : Nat := 2 ^ 64 - 1

namespace Dispatch

variable {P : Type}

def pop (d : Dispatch P) : Outcome (Option P × Dispatch P) :=
  match d.vectors[d.node]? with
  | none => .error .bounds
  | some q =>
    let (p, q) := q.popFront
    .ok (p, { d with vectors := d.vectors.set d.node q })

def push (d : Dispatch P) (node : Nat) (pkt : P) : Outcome (Bool × Dispatch P) :=
  match d.nodes[node]? with
  | none => .error .bounds
  | some node =>
    match d.vectors[node]?, d.counters[node]? with
    | some q, some c =>
      if q.capacity ≥ 1 then
        let vectors := d.vectors.set node (q.pushBack pkt)
        let counters := d.counters.set node { c with enqed := c.enqed + 1 }
        if node ≤ d.node then .ok (true, { d with vectors, counters, work := true, wakeup := 0 })
        else .ok (true, { d with vectors, counters })
      else .ok (false, { d with counters := d.counters.set node { c with drops := c.drops + 1 } })
    | _, _ => .error .bounds

def wakeupIn (d : Dispatch P) (wakeup : Nat) : Dispatch P :=
  if d.work then
    if wakeup < d.wakeup then { d with wakeup } else d
  else { d with work := true, wakeup }

end Dispatch

/-- The nodes of a thread and the packet queue of each. -/
structure Graph (γ P : Type) where
  thread : Nat
  nodes : List (Gnode γ)
  vectors : List (VecDeque P)
  counters : List GnodeCntrs
  indices : String → Option Nat

def dropName : String := "drop"

/-- One turn of the inner loop of `finalize`. -/
def setNext (nextNodes : List Nat) (l index : Nat) : List Nat :=
  let nextNodes :=
    if nextNodes.length ≤ l then nextNodes ++ List.replicate (l + 1 - nextNodes.length) 0 else nextNodes
  nextNodes.set l index

namespace Graph

variable {γ P : Type}

def index (g : Graph γ P) (name : String) : Nat :=
  match g.indices name with
  | some index => index
  | none => 0

def add (g : Graph γ P) (client : γ) (init : GnodeInit) : Graph γ P :=
  if g.index init.name ≠ 0 then g
  else { g with
    nodes := g.nodes ++ [⟨client, init.name, init.nextNames, []⟩]
    vectors := g.vectors ++ [.withCapacity vecSize]
    counters := g.counters ++ [init.cntrs]
    indices := Function.update g.indices init.name (some g.nodes.length) }

/-- A new graph has the drop node. -/
def new (thread : Nat) (dropNode : γ) : Graph γ P :=
  add ⟨thread, [], [], [], fun _ => none⟩ dropNode ⟨dropName, [], ⟨0, 0⟩⟩

def finalize (g : Graph γ P) : Graph γ P :=
  { g with nodes := g.nodes.map fun node => { node with
    nextNodes :=
      node.nextNames.zipIdx.foldl (fun nodes (name, l) => setNext nodes l (g.index name)) node.nextNodes } }

def clone (g : Graph γ P) (thread : Nat) (cloneClient : γ → γ) : Graph γ P where
  thread
  nodes := g.nodes.map fun node => { node with client := cloneClient node.client }
  vectors := g.nodes.map fun _ => .withCapacity vecSize
  counters := g.nodes.map fun _ => ⟨0, 0⟩
  indices := g.indices

/-- What `run` hands to a node. -/
def dispatch (g : Graph γ P) (n : Nat) : Outcome (Dispatch P) :=
  match g.nodes[n]? with
  | none => .error .bounds
  | some node => .ok ⟨n, g.vectors, g.counters, node.nextNodes, false, usizeMax⟩

/-- The queues as the node leaves them. -/
def collect (g : Graph γ P) (d : Dispatch P) : Graph γ P := { g with vectors := d.vectors, counters := d.counters }

/-- Node `n` takes a packet. -/
def pop (g : Graph γ P) (n : Nat) : Outcome (Option P × Graph γ P) := do
  let d ← g.dispatch n
  let (p, d) ← d.pop
  .ok (p, g.collect d)

/-- Node `n` hands a packet on over its edge `l`. -/
def push (g : Graph γ P) (n l : Nat) (pkt : P) : Outcome (Bool × Graph γ P) := do
  let d ← g.dispatch n
  let (pushed, d) ← d.push l pkt
  .ok (pushed, g.collect d)

end Graph

end R2
