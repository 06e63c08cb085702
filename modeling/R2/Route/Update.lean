import Mathlib.Algebra.BigOperators.Fin
import R2.Route.Node

namespace R2

def V4Table.other : V4Table → V4Table
  | table1 => table2
  | table2 => table1

/-- The arguments of `add_or_del_route`. -/
structure RouteOp where
  ip : Ipv4Addr
  masklen : Nat
  nhop : Ipv4Addr
  ifindex : Nat
  add : Bool
deriving DecidableEq

structure IPv4Ctx (T : Type) where
  table1 : IPv4Table T
  table2 : IPv4Table T
  which : V4Table

/-- Where the control thread is in `add_or_del_route`; while it broadcasts, its
message holds a reference too. -/
inductive Control (n : Nat)
  | idle
  | broadcasting (op : RouteOp) (todo : List (Fin n))
  | spinning (op : RouteOp)

/-- The control thread and `n` forwarding threads. A message a thread has taken
off its channel and not yet given to its node is in its `hand`. -/
structure System (T : Type) (n : Nat) where
  ipv4 : IPv4Ctx T
  control : Control n
  node : Fin n → IPv4Fwd
  hand : Fin n → Option R2Msg
  channel : Fin n → List R2Msg

variable {T : Type} {n : Nat}

namespace IPv4Ctx

def new [IpLookupTable T] : IPv4Ctx T := ⟨.new, .new, .table1⟩

/-- What an `Arc` points to. -/
def deref (ctx : IPv4Ctx T) : V4Table → IPv4Table T
  | .table1 => ctx.table1
  | .table2 => ctx.table2

def write (ctx : IPv4Ctx T) (table : V4Table) (value : IPv4Table T) : IPv4Ctx T :=
  match table with
  | .table1 => { ctx with table1 := value }
  | .table2 => { ctx with table2 := value }

end IPv4Ctx

def RouteOp.leaf (op : RouteOp) : IPv4Leaf := ⟨.adjacency op.nhop op.ifindex⟩

/-- `if add { table.add(..) } else { table.del(..) }` -/
def RouteOp.run [IpLookupTable T] (op : RouteOp) (table : IPv4Table T) : IPv4Table T :=
  if op.add then (table.add op.ip op.masklen op.leaf).2 else (table.del op.ip op.masklen).2

def R2Msg.refersTo (table : V4Table) : R2Msg → Bool
  | .ipv4TableAdd t => t = table
  | _ => false

namespace System

/-- The control thread's own message. -/
def ownRefs (sys : System T n) (table : V4Table) : Nat :=
  match sys.control with
  | .broadcasting _ _ => if sys.ipv4.which = table then 1 else 0
  | _ => 0

/-- The references to a table that a forwarding thread and its messages hold. -/
def threadRefs (sys : System T n) (table : V4Table) (t : Fin n) : Nat :=
  (if (sys.node t).table = table then 1 else 0) + (sys.hand t).toList.countP (R2Msg.refersTo table) +
    (sys.channel t).countP (R2Msg.refersTo table)

/-- The count of an `Arc`: the control thread's own and all others. -/
def strongCount (sys : System T n) (table : V4Table) : Nat :=
  1 + sys.ownRefs table + ∑ t, sys.threadRefs table t

/-- `Arc::get_mut` -/
def getMut (sys : System T n) (table : V4Table) : Option (IPv4Table T) :=
  if sys.strongCount table = 1 then some (sys.ipv4.deref table) else none

variable [IpLookupTable T]

/-- `add_or_del_route` up to its call of `broadcast`. Its two arms differ in
which table is the standby. -/
def beginUpdate (sys : System T n) (op : RouteOp) : Outcome (System T n) :=
  let standby := sys.ipv4.which.other
  match sys.getMut standby with
  | none => .error .unwrap
  | some table =>
    .ok { sys with
      ipv4 := { sys.ipv4.write standby (op.run table) with which := standby }
      control := .broadcasting op (List.finRange n) }

/-- One turn of the loop that waits for the old table. -/
def spin (sys : System T n) (op : RouteOp) : System T n :=
  let old := sys.ipv4.which.other
  match sys.getMut old with
  | none => sys
  | some table => { sys with ipv4 := sys.ipv4.write old (op.run table), control := .idle }

def sendTo (sys : System T n) (t : Fin n) : System T n :=
  { sys with channel := Function.update sys.channel t (sys.channel t ++ [.ipv4TableAdd sys.ipv4.which]) }

/-- The threads as `launch_threads` leaves them: every node holds table1. -/
def start (n : Nat) : System T n where
  ipv4 := .new
  control := .idle
  node _ := ⟨.table1, 0, 0⟩
  hand _ := none
  channel _ := []

inductive Action (n : Nat)
  | call (op : RouteOp)
  | send (t : Fin n)
  | sent
  | spin
  | receive (t : Fin n)
  | install (t : Fin n)
  | dispatch (t : Fin n) (p : Packet)

/-- One step of the control thread or of a forwarding thread. A thread looks up
packets while it has no message in hand. -/
inductive Step : System T n → Action n → System T n → Prop
  | call {sys sys' op} : sys.control = .idle → sys.beginUpdate op = .ok sys' → Step sys (.call op) sys'
  | send {sys op t todo} : sys.control = .broadcasting op (t :: todo) →
      Step sys (.send t) { sys.sendTo t with control := .broadcasting op todo }
  | sent {sys op} : sys.control = .broadcasting op [] → Step sys .sent { sys with control := .spinning op }
  | spin {sys op} : sys.control = .spinning op → Step sys .spin (sys.spin op)
  | receive {sys t msg rest} : sys.hand t = none → sys.channel t = msg :: rest →
      Step sys (.receive t)
        { sys with hand := Function.update sys.hand t (some msg), channel := Function.update sys.channel t rest }
  | install {sys t msg node} : sys.hand t = some msg → (sys.node t).controlMsg msg = .ok node →
      Step sys (.install t)
        { sys with node := Function.update sys.node t node, hand := Function.update sys.hand t none }
  | dispatch {sys t p node pushed} : sys.hand t = none →
      (sys.node t).dispatchOne (sys.ipv4.deref (sys.node t).table) p = .ok (node, pushed) →
      Step sys (.dispatch t p) { sys with node := Function.update sys.node t node }

inductive Run (first : System T n) : List (Action n × System T n) → System T n → Prop
  | start : Run first [] first
  | next {trace sys action sys'} : Run first trace sys → Step sys action sys' →
      Run first (trace ++ [(action, sys')]) sys'

end System

end R2
