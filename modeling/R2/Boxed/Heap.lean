import Mathlib.Logic.Function.Basic
import R2.Packet.Packet

namespace R2.Boxed

/-- The address of a particle. -/
abbrev BoxPart := Nat

/-- The address of a packet. -/
abbrev BoxPkt := Nat

/-- A particle in memory, with the link to the next one of its chain. -/
structure PartCell where
  part : Particle
  next : Option BoxPart

/-- A packet in memory, with the link to its first particle. -/
structure PktCell where
  particle : Option BoxPart
  length : Nat
  l2 : Nat
  l2Len : Nat
  l3 : Nat
  l3Len : Nat
  inIfindex : Nat
  outIfindex : Nat
  outL3addr : Ipv4Addr

/-- `PktsHeap` and the memory its boxes point to. -/
structure Heap where
  allocFail : Nat
  pkts : List BoxPkt
  particles : List BoxPart
  particleSz : Nat
  part : BoxPart → PartCell
  pkt : BoxPkt → PktCell

namespace Heap

def setPart (h : Heap) (p : BoxPart) (part : Particle) : Heap :=
  { h with part := Function.update h.part p { h.part p with part } }

def setNext (h : Heap) (p : BoxPart) (next : Option BoxPart) : Heap :=
  { h with part := Function.update h.part p { h.part p with next } }

def setFirst (h : Heap) (k : BoxPkt) (particle : Option BoxPart) : Heap :=
  { h with pkt := Function.update h.pkt k { h.pkt k with particle } }

def setLength (h : Heap) (k : BoxPkt) (length : Nat) : Heap :=
  { h with pkt := Function.update h.pkt k { h.pkt k with length } }

@[simp] theorem setNext_self (h : Heap) (p : BoxPart) (next : Option BoxPart) :
    ((h.setNext p next).part p).next = next := by
  simp only [setNext, Function.update_self]

theorem setNext_of_ne (h : Heap) {p q : BoxPart} (next : Option BoxPart) (other : q ≠ p) :
    (h.setNext p next).part q = h.part q := Function.update_of_ne other ..

@[simp] theorem setPart_next (h : Heap) (p q : BoxPart) (part : Particle) :
    ((h.setPart p part).part q).next = (h.part q).next := by
  by_cases same : q = p
  · subst same
    simp only [setPart, Function.update_self]
  · simp only [setPart, Function.update_of_ne same]

@[simp] theorem setFirst_self (h : Heap) (k : BoxPkt) (particle : Option BoxPart) :
    ((h.setFirst k particle).pkt k).particle = particle := by
  simp only [setFirst, Function.update_self]

theorem setFirst_of_ne (h : Heap) {k j : BoxPkt} (particle : Option BoxPart) (other : j ≠ k) :
    (h.setFirst k particle).pkt j = h.pkt j := Function.update_of_ne other ..

@[simp] theorem setLength_particle (h : Heap) (k j : BoxPkt) (length : Nat) :
    ((h.setLength k length).pkt j).particle = (h.pkt j).particle := by
  by_cases same : j = k
  · subst same
    simp only [setLength, Function.update_self]
  · simp only [setLength, Function.update_of_ne same]

/-- The boxes are given addresses in the order of their allocation. -/
def new (numPkts numParts particleSz : Nat) : Outcome Heap :=
  if numPkts ≤ numParts then
    .ok {
      allocFail := 0
      pkts := (List.range numPkts).reverse
      particles := (List.range numParts).reverse
      particleSz
      part := fun p => ⟨⟨p, List.replicate particleSz 0, 0, 0, Particle.empty_le⟩, none⟩
      pkt := fun _ => ⟨none, 0, 0, 0, 0, 0, 0, 0, zeroIp⟩ }
  else .error .assertion

def particle (h : Heap) (headroom : Nat) : Option BoxPart × Heap :=
  match h.particles with
  | [] => (none, { h with allocFail := h.allocFail + 1 })
  | p :: rest =>
    (some p, { h with
      particles := rest, part := Function.update h.part p ⟨(h.part p).part.reinit headroom, none⟩ })

def reinit (h : Heap) (k : BoxPkt) (p : BoxPart) : Heap :=
  { h with pkt := Function.update h.pkt k ⟨some p, 0, 0, 0, 0, 0, 0, 0, zeroIp⟩ }

def alloc (h : Heap) (headroom : Nat) : Option BoxPkt × Heap :=
  match h.pkts with
  | [] => (none, { h with allocFail := h.allocFail + 1 })
  | k :: rest =>
    match ({ h with pkts := rest } : Heap).particle headroom with
    | (some p, h) => (some k, h.reinit k p)
    | (none, h) => (none, { h with allocFail := h.allocFail + 1, pkts := k :: h.pkts })

def freePkt (h : Heap) (k : BoxPkt) : Outcome Heap :=
  if (h.pkt k).particle.isSome then .error .assertion else .ok { h with pkts := k :: h.pkts }

def freePart (h : Heap) (p : BoxPart) : Outcome Heap :=
  if (h.part p).next.isSome then .error .assertion else .ok { h with particles := p :: h.particles }

/-- The loop of `free`; `fuel` bounds the length of the chain. -/
def freeParts : Nat → Option BoxPart → Heap → Outcome Heap
  | _, none, h => .ok h
  | 0, some _, _ => .error .diverges
  | fuel + 1, some p, h => do
    let next := (h.part p).next
    let h ← (h.setNext p none).freePart p
    freeParts fuel next h

def free (fuel : Nat) (h : Heap) (k : BoxPkt) : Outcome Heap := do
  let part := (h.pkt k).particle
  let h ← freeParts fuel part (h.setFirst k none)
  h.freePkt k

/-- `last_particle` from `p` on. -/
def lastParticle (h : Heap) : Nat → BoxPart → Outcome BoxPart
  | 0, _ => .error .diverges
  | fuel + 1, p =>
    match (h.part p).next with
    | none => .ok p
    | some q => h.lastParticle fuel q

/-- `self.particle.as_mut().unwrap()` -/
def first (h : Heap) (k : BoxPkt) : Outcome BoxPart :=
  match (h.pkt k).particle with
  | none => .error .unwrap
  | some p => .ok p

theorem first_ok {h : Heap} {k : BoxPkt} {p : BoxPart} : h.first k = .ok p ↔ (h.pkt k).particle = some p := by
  unfold first
  cases (h.pkt k).particle with
  | none => simp
  | some q => simp

def pushParticle (chain : Nat) (h : Heap) (k : BoxPkt) (next : BoxPart) : Outcome Heap := do
  let p ← h.first k
  let p ← h.lastParticle chain p
  .ok (h.setNext p (some next))

/-- The loop of `prepend`: `l` bytes of `bytes` are still to be placed. -/
def prependLoop (bytes : List UInt8) (k : BoxPkt) : Nat → Nat → Heap → Outcome (Bool × Heap)
  | 0, _, _ => .error .diverges
  | fuel + 1, l, h =>
    if l = 0 then .ok (true, h)
    else do
      let p ← h.first k
      let (n, part) ← (h.part p).part.prepend (window bytes 0 l)
      let h := h.setPart p part
      if n ≠ l then
        match h.particle h.particleSz with
        | (none, h) => .ok (false, h)
        | (some q, h) => do
          let prev ← h.first k
          prependLoop bytes k fuel (l - n) ((h.setFirst k (some q)).setNext q (some prev))
      else prependLoop bytes k fuel (l - n) h

def prepend (h : Heap) (k : BoxPkt) (bytes : List UInt8) : Outcome (Bool × Heap) := do
  let (done, h) ← prependLoop bytes k (h.particles.length + 2) bytes.length h
  if done then do
    let length ← add64 (h.pkt k).length bytes.length
    .ok (true, h.setLength k length)
  else .ok (false, h)

/-- The loop of `append`: the first `offset` bytes are placed; `chain` bounds
the length of the chain. -/
def appendLoop (bytes : List UInt8) (chain : Nat) (k : BoxPkt) : Nat → Nat → Heap → Outcome (Bool × Heap)
  | 0, _, _ => .error .diverges
  | fuel + 1, offset, h =>
    if offset = bytes.length then .ok (true, h)
    else do
      let p ← h.first k
      let p ← h.lastParticle chain p
      let (n, part) ← (h.part p).part.append (window bytes offset bytes.length)
      let h := h.setPart p part
      if n = 0 then
        match h.particle 0 with
        | (none, h) => .ok (false, h)
        | (some q, h) => do
          let h ← pushParticle chain h k q
          appendLoop bytes chain k fuel (offset + n) h
      else appendLoop bytes chain k fuel (offset + n) h

def append (chain : Nat) (h : Heap) (k : BoxPkt) (bytes : List UInt8) : Outcome (Bool × Heap) := do
  let (done, h) ← appendLoop bytes chain k (h.particles.length + bytes.length + 2) 0 h
  if done then do
    let length ← add64 (h.pkt k).length bytes.length
    .ok (true, h.setLength k length)
  else .ok (false, h)

end Heap

/-- A pool with its return queue; `flight` are the packets that somebody has. -/
structure System where
  heap : Heap
  queue : List BoxPkt
  flight : List BoxPkt

/-- `BoxPkt::drop`: the return queue holds at most `capacity` packets. -/
def System.drop (capacity : Nat) (s : System) (k : BoxPkt) : Outcome System :=
  if s.queue.length < capacity then .ok { s with queue := s.queue ++ [k], flight := s.flight.erase k }
  else .error .unwrap

/-- One turn of the reclaim loop of `Graph::run`. -/
def System.reclaim (fuel : Nat) (s : System) : Outcome System :=
  match s.queue with
  | [] => .ok s
  | k :: rest => do
    let heap ← s.heap.free fuel k
    .ok { s with heap, queue := rest }

end R2.Boxed
