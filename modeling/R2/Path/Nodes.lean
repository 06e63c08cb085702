import R2.Control.Api
import R2.Eth.Decap
import R2.Eth.Encap
import R2.Graph.Graph
import R2.Route.Node

namespace R2

namespace RawSock

variable {σ : Type} [PacketPool σ]

/-- `recvmsg` when the kernel has this frame, or none and returns an error. With
`MSG_TRUNC` it fills what room there is and returns the length of the frame. -/
def recvmsg (pool : σ) (headroom : Nat) (frame : Option (List UInt8)) : Outcome (Option Packet × σ) :=
  match PacketPool.pkt pool headroom with
  | (none, pool) => .ok (none, pool)
  | (some pkt, pool) => do
    let buf ← pkt.head
    let head ← pkt.headroom
    let len ← sub64 buf.length head
    match frame with
    | none => .ok (some pkt, pool)
    | some bytes => do
      let pkt ← pkt.headMut fun raw => .ok (overwrite raw head (bytes.take len))
      let rv : Int := bytes.length
      if rv > 0 then do
        let (moved, pkt) ← pkt.moveTail rv
        if moved ≠ rv then .error .assertion else .ok (some pkt, pool)
      else
        .ok (some pkt, pool)

end RawSock

/-- What the receiving half of `IfNode` reads. -/
structure IfNode where
  intf : Interface

namespace IfNode

inductive Next
  | drop
  | l2EthDecap
deriving DecidableEq, Repr

variable {σ : Type} [PacketPool σ]

/-- The loop of `dispatch` that receives, with so many turns left, on the thread
that owns the interface; `frames` is what the kernel has. -/
def rx (node : IfNode) : Nat → σ → List (List UInt8) → Outcome (List (Next × Packet) × σ)
  | 0, pool, _ => .ok ([], pool)
  | turns + 1, pool, frames => do
    let (pkt, pool) ← RawSock.recvmsg pool node.intf.headroom frames.head?
    match pkt with
    | none => .ok ([], pool)
    | some pkt =>
      if pkt.len = 0 then
        .ok ([], pool)
      else do
        let (more, pool) ← node.rx turns pool frames.tail
        .ok ((.l2EthDecap, { pkt with inIfindex := node.intf.ifindex }) :: more, pool)

end IfNode

structure IPv4Parse where
  badPkt : Nat

namespace IPv4Parse

inductive Next
  | drop
  | l3Ipv4Fwd
deriving DecidableEq, Repr

/-- One turn of the loop of `dispatch`, with what it pushes. -/
def dispatchOne (node : IPv4Parse) (p : Packet) : Outcome (IPv4Parse × List (Next × Packet)) := do
  let (done, p) ← p.setL3 iphdrMinLen
  if done then .ok (node, [(.l3Ipv4Fwd, p)]) else .ok ({ node with badPkt := node.badPkt + 1 }, [])

end IPv4Parse

/-- One turn of the loop of `EncapMux::dispatch`: the next node is the one of
this index among the `MAX_INTERFACES` ones. -/
def EncapMux.dispatchOne (p : Packet) : Outcome (Nat × Packet) :=
  if p.outIfindex < Control.maxInterfaces then .ok (p.outIfindex, p) else .error .bounds

/-- The nodes of a thread on the way of a frame from an interface. An `EthEncap`
that the graph does not have is its drop node. -/
structure Path (T σ : Type) where
  ifNode : IfNode
  decap : EthDecap
  parse : IPv4Parse
  fwd : IPv4Fwd
  table : IPv4Table T
  encap : Nat → Option EthEncap
  pool : σ
  tx : List Packet

namespace Path

variable {T σ : Type} [IpLookupTable T] [PacketPool σ]

def atEncap (path : Path T σ) (p : Packet) : Outcome (Path T σ) := do
  let (index, p) ← EncapMux.dispatchOne p
  match path.encap index with
  | none => .ok path
  | some node => do
    let (pushed, pool) ← node.dispatchOne path.pool p
    .ok { path with pool, tx := path.tx ++ pushed.map Prod.snd }

def atFwd (path : Path T σ) (p : Packet) : Outcome (Path T σ) := do
  let (fwd, pushed) ← path.fwd.dispatchOne path.table p
  pushed.foldlM (fun path (next, p) => match next with
    | .encapMux => path.atEncap p
    | .drop => .ok path) { path with fwd }

def atParse (path : Path T σ) (p : Packet) : Outcome (Path T σ) := do
  let (parse, pushed) ← path.parse.dispatchOne p
  pushed.foldlM (fun path (next, p) => match next with
    | .l3Ipv4Fwd => path.atFwd p
    | .drop => .ok path) { path with parse }

def atDecap (path : Path T σ) (p : Packet) : Outcome (Path T σ) := do
  let (decap, pushed, pool) ← path.decap.dispatchOne path.pool p
  pushed.foldlM (fun path (next, p) => match next with
    | .l3Ipv4Parse => path.atParse p
    | .tx => .ok { path with tx := path.tx ++ [p] }
    | .drop => .ok path) { path with decap, pool }

/-- A turn of the graph that finds this one frame at the interface. -/
def receive (path : Path T σ) (frame : List UInt8) : Outcome (Path T σ) := do
  let (pushed, pool) ← path.ifNode.rx vecSize path.pool [frame]
  pushed.foldlM (fun path (next, p) => match next with
    | .l2EthDecap => path.atDecap p
    | .drop => .ok path) { path with pool }

end Path

end R2
