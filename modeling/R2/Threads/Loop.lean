import Mathlib.Logic.Function.Basic
import R2.Graph.Graph

namespace R2.Threads

/-- The clients of the graph nodes, by what their `dispatch` does to queues. -/
inductive Client
  /-- takes its packets one by one and hands others on -/
  | feature
  /-- the `IfNode` of an interface -/
  | ifNode (ifindex : Nat)
deriving DecidableEq, Repr

/-- The messages to a forwarding thread. -/
inductive CtrlMsg
  | gnodeAdd (client : Client) (init : GnodeInit)
  /-- for a node of the graph or for its `Epoll` -/
  | update
deriving DecidableEq, Repr

/-- Where `dispatch` of a client is. -/
inductive Stage
  /-- at the `pop` of its loop -/
  | draining
  /-- in the body of the loop -/
  | forwarding
  /-- after the push to the `thread_q` of an interface, before the write to the eventfd -/
  | handed (ifindex : Nat)
  /-- at the `pop` of the `thread_q` -/
  | threadQ
  | scheduling
  /-- at most this many packets left to receive -/
  | receiving (left : Nat)
deriving DecidableEq, Repr

/-- `dispatch` has found its queue empty. -/
def Stage.drained : Stage → Bool
  | draining | forwarding | handed _ => false
  | threadQ | scheduling | receiving _ => true

/-- Where a forwarding thread is in its loop. -/
inductive Phase (P : Type)
  | blocked
  /-- `epoll_wait` has returned with the eventfd -/
  | woken
  /-- at the call of `Graph::run` -/
  | ready
  | running (node : Nat) (work : Bool)
  | dispatching (d : Dispatch P) (work : Bool) (stage : Stage)
  /-- in `ctrl2fwd_messages` -/
  | control (work : Bool)
deriving DecidableEq, Repr

/-- The client of a node. -/
def clientAt {P : Type} (g : Graph Client P) (m : Nat) : Option Client := g.nodes[m]?.map Gnode.client

/-- What `ctrl2fwd_messages` does to the graph. -/
def CtrlMsg.handle {P : Type} (g : Graph Client P) : CtrlMsg → Graph Client P
  | gnodeAdd client init => (g.add client init).finalize
  | update => g

section

variable {P : Type}

/-- The steps of `dispatch` that touch nothing but the queues of the thread's
own graph; `owner` is whether the thread owns the interface. What an `IfNode`
does while its scheduler has classes that are active is no step here: the
scheduler of a thread never has any, as `IfNode.Sound.sendmsg` shows. -/
inductive DispatchStep : Client → Bool → Dispatch P → Stage → Dispatch P → Stage → Prop
  | take {owner d d' p} : d.pop = .ok (some p, d') → DispatchStep .feature owner d .draining d' .forwarding
  | forward {owner d d' l p pushed} : d.push l p = .ok (pushed, d') →
      DispatchStep .feature owner d .forwarding d' .forwarding
  | next {owner d} : DispatchStep .feature owner d .forwarding d .draining
  | transmit {i d d' p} : d.pop = .ok (some p, d') → DispatchStep (.ifNode i) true d .draining d' .draining
  | drained {i d d'} : d.pop = .ok (none, d') → DispatchStep (.ifNode i) true d .draining d' .threadQ
  | drainedOther {i d d'} : d.pop = .ok (none, d') → DispatchStep (.ifNode i) false d .draining d' .scheduling
  | idle {i owner d} : DispatchStep (.ifNode i) owner d .scheduling d (.receiving (if owner then vecSize else 0))
  | queued {i owner d} :
      DispatchStep (.ifNode i) owner d .scheduling (d.wakeupIn 0) (.receiving (if owner then vecSize else 0))
  | receive {i owner d d' p pushed left} : d.push 1 p = .ok (pushed, d') →
      DispatchStep (.ifNode i) owner d (.receiving (left + 1)) d' (.receiving left)

/-- `dispatch` returns. -/
inductive DispatchEnd : Client → Dispatch P → Stage → Dispatch P → Prop
  | feature {d d'} : d.pop = .ok (none, d') → DispatchEnd .feature d .draining d'
  | ifNode {i d left} : DispatchEnd (.ifNode i) d (.receiving left) d

/-- The steps of a thread that concern nobody else. -/
inductive LocalStep (owner : Nat → Bool) : Graph Client P → Phase P → Graph Client P → Phase P → Prop
  /-- `epoll_wait` returns for another reason than the eventfd -/
  | interrupted {g} : LocalStep owner g .blocked g .ready
  | visit {g k d work} : g.dispatch k = .ok d → LocalStep owner g (.running k work) g (.dispatching d work .draining)
  | feature {g d stage d' stage' work} : clientAt g d.node = some .feature →
      DispatchStep .feature false d stage d' stage' →
      LocalStep owner g (.dispatching d work stage) g (.dispatching d' work stage')
  | ifNode {g i d stage d' stage' work} : clientAt g d.node = some (.ifNode i) →
      DispatchStep (.ifNode i) (owner i) d stage d' stage' →
      LocalStep owner g (.dispatching d work stage) g (.dispatching d' work stage')
  | finish {g client d stage d' work} : clientAt g d.node = some client → DispatchEnd client d stage d' →
      LocalStep owner g (.dispatching d work stage) (g.collect d') (.running (d.node + 1) (work || d'.work))
  | leave {g work} : LocalStep owner g (.running g.nodes.length work) g (.control work)

end

/-- The forwarding threads and what they share with each other and with the
control thread. A packet in a `thread_q` comes with the thread that put it
there; `sender` is the thread whose eventfd the control thread is about to write
to. -/
structure System (n : Nat) (P : Type) where
  graph : Fin n → Graph Client P
  phase : Fin n → Phase P
  channel : Fin n → List CtrlMsg
  efd : Fin n → Nat
  threadQ : Nat → List (P × Fin n)
  sender : Option (Fin n)

namespace System

variable {n : Nat} {P : Type}

def move (sys : System n P) (u : Fin n) (phase : Phase P) : System n P :=
  { sys with phase := Function.update sys.phase u phase }

/-- `Efd::write(1)` -/
def ring (sys : System n P) (u : Fin n) : System n P :=
  { sys with efd := Function.update sys.efd u (sys.efd u + 1) }

def setThreadQ (sys : System n P) (i : Nat) (entries : List (P × Fin n)) : System n P :=
  { sys with threadQ := Function.update sys.threadQ i entries }

def setChannel (sys : System n P) (u : Fin n) (msgs : List CtrlMsg) : System n P :=
  { sys with channel := Function.update sys.channel u msgs }

end System

inductive Event (n : Nat)
  /-- a thread calls `Graph::run` -/
  | start (u : Fin n)
  | other
deriving DecidableEq, Repr

section

variable {n : Nat} {P : Type}

/-- The steps of the threads. `affinity` is the thread each interface is pinned
to, whose eventfd the `IfNode`s of that interface write to. -/
inductive Step (affinity : Nat → Fin n) : System n P → Event n → System n P → Prop
  | wake {sys u} : sys.phase u = .blocked → 0 < sys.efd u → Step affinity sys .other (sys.move u .woken)
  | read {sys : System n P} {u} : sys.phase u = .woken →
      Step affinity sys .other ({ sys with efd := Function.update sys.efd u 0 }.move u .ready)
  | start {sys u} : sys.phase u = .ready → Step affinity sys (.start u) (sys.move u (.running 0 false))
  | inner {sys : System n P} {u g phase} :
      LocalStep (fun i => affinity i = u) (sys.graph u) (sys.phase u) g phase →
      Step affinity sys .other ({ sys with graph := Function.update sys.graph u g }.move u phase)
  | handOff {sys : System n P} {u i d work d' p} : sys.phase u = .dispatching d work .draining →
      clientAt (sys.graph u) d.node = some (.ifNode i) → affinity i ≠ u → d.pop = .ok (some p, d') →
      (sys.threadQ i).length < vecSize →
      Step affinity sys .other
        ((sys.setThreadQ i (sys.threadQ i ++ [(p, u)])).move u (.dispatching d' work (.handed i)))
  | handOffFull {sys u i d work d' p} : sys.phase u = .dispatching d work .draining →
      clientAt (sys.graph u) d.node = some (.ifNode i) → affinity i ≠ u → d.pop = .ok (some p, d') →
      vecSize ≤ (sys.threadQ i).length →
      Step affinity sys .other (sys.move u (.dispatching d' work .draining))
  | ring {sys u d work i} : sys.phase u = .dispatching d work (.handed i) →
      Step affinity sys .other ((sys.ring (affinity i)).move u (.dispatching d work .draining))
  | takeThreadQ {sys u i d work p rest} : sys.phase u = .dispatching d work .threadQ →
      clientAt (sys.graph u) d.node = some (.ifNode i) → sys.threadQ i = p :: rest →
      Step affinity sys .other (sys.setThreadQ i rest)
  | emptied {sys u i d work} : sys.phase u = .dispatching d work .threadQ →
      clientAt (sys.graph u) d.node = some (.ifNode i) → sys.threadQ i = [] →
      Step affinity sys .other (sys.move u (.dispatching d work .scheduling))
  | receive {sys : System n P} {u work msg rest} : sys.phase u = .control work → sys.channel u = msg :: rest →
      Step affinity sys .other
        { sys.setChannel u rest with graph := Function.update sys.graph u (msg.handle (sys.graph u)) }
  | again {sys u} : sys.phase u = .control true → sys.channel u = [] → Step affinity sys .other (sys.move u .ready)
  | sleep {sys u} : sys.phase u = .control false → sys.channel u = [] →
      Step affinity sys .other (sys.move u .blocked)
  | send {sys : System n P} {u} (msg : CtrlMsg) : sys.sender = none →
      Step affinity sys .other { sys.setChannel u (sys.channel u ++ [msg]) with sender := some u }
  | signal {sys : System n P} {u} : sys.sender = some u → Step affinity sys .other { sys.ring u with sender := none }

/-- The threads have been launched. -/
structure Initial (sys : System n P) : Prop where
  shaped : ∀ u, (sys.graph u).vectors.length = (sys.graph u).nodes.length
  queues : ∀ u, ∀ q ∈ (sys.graph u).vectors, q.items = []
  phase : ∀ u, sys.phase u = .ready
  channel : ∀ u, sys.channel u = []
  threadQ : ∀ i, sys.threadQ i = []
  sender : sys.sender = none

/-- A system after some steps, every call of `Graph::run` made when it is allowed. -/
inductive Reached (affinity : Nat → Fin n) (allowed : System n P → Fin n → Prop) : System n P → Prop
  | init {sys} : Initial sys → Reached affinity allowed sys
  | step {sys event sys'} : Reached affinity allowed sys → Step affinity sys event sys' →
      (∀ u, event = .start u → allowed sys u) → Reached affinity allowed sys'

end

end R2.Threads
