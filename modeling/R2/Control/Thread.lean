import R2.Control.Api
import R2.Graph.Edges
import R2.Route.Node

namespace R2.Control

/-- The name that a node of this kind is registered under. -/
def Client.name : Client → String
  | .drop => dropName
  | .ipv4Parse => Names.l3Ipv4Parse
  | .ipv4Fwd => Names.l3Ipv4Fwd
  | .encapMux => Names.encapMux
  | .ifNode i => Names.rxTx i
  | .ethDecap i => Names.l2EthDecap i
  | .ethEncap i => Names.l2EthEncap i

theorem toDigits_injective {i j : Nat} (same : Nat.toDigits 10 i = Nat.toDigits 10 j) : i = j := by
  rw [← @Nat.ofDigitChars_ten_toDigits i, same, Nat.ofDigitChars_ten_toDigits]

/-- No two kinds of nodes and no two interfaces share a name. -/
theorem Client.name_injective {a b : Client} (same : a.name = b.name) : a = b := by
  have chars := congrArg String.toList same
  cases a <;> cases b <;>
    simp [Client.name, dropName, Names.l3Ipv4Parse, Names.l3Ipv4Fwd, Names.encapMux, Names.rxTx, Names.l2EthDecap,
      Names.l2EthEncap, String.toList_append] at chars ⊢
  all_goals exact toDigits_injective chars

/-- What a forwarding thread has of the routes and of the graph. -/
structure ForwardThread (T : Type) where
  graph : Graph Client Packet
  table : IPv4Table T

section

variable {T : Type}

def encapMuxInit : GnodeInit := ⟨Names.encapMux, (List.range maxInterfaces).map Names.l2EthEncap, ⟨0, 0⟩⟩

def ipv4ParseInit : GnodeInit := ⟨Names.l3Ipv4Parse, [dropName, Names.l3Ipv4Fwd], ⟨0, 0⟩⟩

def ipv4FwdInit : GnodeInit := ⟨Names.l3Ipv4Fwd, [dropName, Names.encapMux], ⟨0, 0⟩⟩

/-- `create_nodes` on a new graph. -/
def createNodes : Graph Client Packet :=
  ((((Graph.new 0 .drop).add .ipv4Parse ipv4ParseInit).add .ipv4Fwd ipv4FwdInit).add .encapMux encapMuxInit).finalize

/-- The first thread runs the graph itself and the others run clones. -/
def launch [IpLookupTable T] (thread : Nat) : ForwardThread T :=
  ⟨if thread = 0 then createNodes else createNodes.clone thread id, .new⟩

namespace ForwardThread

/-- `Graph::control_msg` finds the node by its name; a node that does not know
the message panics. -/
def controlMsg (f : ForwardThread T) (name : String) (knows : Client → Bool) : Outcome Bool :=
  let index := f.graph.index name
  if index = 0 then .ok false
  else
    match f.graph.nodes[index]? with
    | none => .error .bounds
    | some node => if knows node.client then .ok true else .error .panicked

def ofInterface : Client → Bool
  | .ifNode _ | .ethDecap _ | .ethEncap _ => true
  | _ => false

/-- One turn of the loop of `ctrl2fwd_messages`. -/
def receive (f : ForwardThread T) : CtrlMsg T → Outcome (ForwardThread T)
  | .gnodeAdd node init => .ok { f with graph := (f.graph.add node init).finalize }
  | .epollAdd _ => .ok f
  | .ipv4TableAdd table => do
    let found ← f.controlMsg Names.l3Ipv4Fwd (· = .ipv4Fwd)
    .ok (if found then { f with table } else f)
  | .modifyInterface intf => do
    let _ ← f.controlMsg (Names.l2EthDecap intf.ifindex) ofInterface
    let _ ← f.controlMsg (Names.l2EthEncap intf.ifindex) ofInterface
    let _ ← f.controlMsg (Names.rxTx intf.ifindex) ofInterface
    .ok f

end ForwardThread

end

/-- The control threads, the forwarding threads and the channels to them. -/
structure Plane (T : Type) where
  r2 : Ctx T
  thread : Nat → ForwardThread T
  channel : Nat → List (CtrlMsg T)

namespace Plane

variable {T : Type} [IpLookupTable T]

def start (nthreads : Nat) : Plane T where
  r2 := .new nthreads
  thread := launch
  channel _ := []

/-- The messages of a call go to every thread. -/
def broadcast (plane : Plane T) (r2 : Ctx T) (msgs : List (CtrlMsg T)) : Plane T :=
  { plane with r2, channel := fun t => plane.channel t ++ msgs }

/-- One call of an API, one message taken by a thread, or one packet taken from or
put into a queue of its graph. -/
inductive Step (allowed : Ctx T → ApiCall → Prop) : Plane T → Plane T → Prop
  | call {plane : Plane T} {c r2 msgs} : allowed plane.r2 c → handle plane.r2 c = (r2, .ok msgs) →
      Step allowed plane (plane.broadcast r2 msgs)
  | refused {plane : Plane T} {c r2 text} : handle plane.r2 c = (r2, .error text) →
      Step allowed plane (plane.broadcast r2 [])
  | receive {plane : Plane T} {t msg rest f} : plane.channel t = msg :: rest → (plane.thread t).receive msg = .ok f →
      Step allowed plane
        { plane with thread := Function.update plane.thread t f, channel := Function.update plane.channel t rest }
  | push {plane : Plane T} {t n l pkt pushed g} : (plane.thread t).graph.push n l pkt = .ok (pushed, g) →
      Step allowed plane
        { plane with thread := Function.update plane.thread t { plane.thread t with graph := g } }
  | pop {plane : Plane T} {t n pkt g} : (plane.thread t).graph.pop n = .ok (pkt, g) →
      Step allowed plane
        { plane with thread := Function.update plane.thread t { plane.thread t with graph := g } }

inductive Reached (allowed : Ctx T → ApiCall → Prop) (nthreads : Nat) : Plane T → Prop
  | start : Reached allowed nthreads (start nthreads)
  | step {plane plane'} : Reached allowed nthreads plane → Step allowed plane plane' → Reached allowed nthreads plane'

end Plane

end R2.Control
