import R2.Packet.Particle
import R2.Fwd.Types

namespace R2

/-- `particle` is the chain that starts at the packet's first particle, and
`ptr` the address its `BoxPkt` holds. -/
structure Packet where
  ptr : Nat
  particle : List Particle
  length : Nat
  l2 : Nat
  l2Len : Nat
  l3 : Nat
  l3Len : Nat
  inIfindex : Nat
  outIfindex : Nat
  outL3addr : Ipv4Addr
deriving DecidableEq

/-- The allocating half of the `PacketPool` trait. -/
class PacketPool (σ : Type) where
  pkt : σ → Nat → Option Packet × σ
  particle : σ → Nat → Option Particle × σ
  particleSz : σ → Nat

namespace Packet

variable {σ : Type} [PacketPool σ]

def reinit (pkt : Packet) (part : Particle) : Packet :=
  { pkt with
    length := 0, l2 := 0, l2Len := 0, l3 := 0, l3Len := 0, inIfindex := 0, outIfindex := 0,
    outL3addr := zeroIp, particle := [part] }

/-- `self.particle.as_ref().unwrap()` -/
def first (pkt : Packet) : Outcome Particle :=
  match pkt.particle with
  | [] => .error .unwrap
  | p :: _ => .ok p

/-- Runs `f` on the chain's last particle, as `last_particle` hands it out. -/
def withLast {α : Type} (f : Particle → Outcome (α × Particle)) : List Particle → Outcome (α × List Particle)
  | [] => .error .unwrap
  | [p] => do
    let (a, p) ← f p
    .ok (a, [p])
  | p :: q :: rest => do
    let (a, chain) ← withLast f (q :: rest)
    .ok (a, p :: chain)

def len (pkt : Packet) : Nat := pkt.length

def hasPart (pkt : Packet) : Bool := !pkt.particle.isEmpty

def headroom (pkt : Packet) : Outcome Nat := do
  let p ← pkt.first
  .ok p.head

/-- The loop of `prepend`: `l` bytes of `bytes` are still to be placed. -/
def prependLoop (bytes : List UInt8) : Nat → Nat → List Particle → σ → Outcome (Bool × List Particle × σ)
  | 0, _, _, _ => .error .diverges
  | fuel + 1, l, chain, pool =>
    if l = 0 then
      .ok (true, chain, pool)
    else
      match chain with
      | [] => .error .unwrap
      | p :: rest => do
        let (n, p) ← p.prepend (window bytes 0 l)
        if n ≠ l then
          match PacketPool.particle pool (PacketPool.particleSz pool) with
          | (none, pool) => .ok (false, p :: rest, pool)
          | (some q, pool) => prependLoop bytes fuel (l - n) (q :: p :: rest) pool
        else
          prependLoop bytes fuel (l - n) (p :: rest) pool

/-- Every second turn of the loop places a byte, unless the pool's particles
have size zero. -/
def prepend (pkt : Packet) (pool : σ) (bytes : List UInt8) : Outcome (Bool × Packet × σ) := do
  let (done, chain, pool) ← prependLoop bytes (2 * bytes.length + 2) bytes.length pkt.particle pool
  if done then do
    let length ← add64 pkt.length bytes.length
    .ok (true, { pkt with particle := chain, length := length }, pool)
  else
    .ok (false, { pkt with particle := chain }, pool)

/-- The loop of `append`: the first `offset` bytes are placed. -/
def appendLoop (bytes : List UInt8) : Nat → Nat → List Particle → σ → Outcome (Bool × List Particle × σ)
  | 0, _, _, _ => .error .diverges
  | fuel + 1, offset, chain, pool =>
    if offset = bytes.length then
      .ok (true, chain, pool)
    else do
      let (n, chain) ← withLast (fun p => p.append (window bytes offset bytes.length)) chain
      if n = 0 then
        match PacketPool.particle pool 0 with
        | (none, pool) => .ok (false, chain, pool)
        | (some q, pool) => appendLoop bytes fuel (offset + n) (chain ++ [q]) pool
      else
        appendLoop bytes fuel (offset + n) chain pool

def append (pkt : Packet) (pool : σ) (bytes : List UInt8) : Outcome (Bool × Packet × σ) := do
  let (done, chain, pool) ← appendLoop bytes (2 * bytes.length + 2) 0 pkt.particle pool
  if done then do
    let length ← add64 pkt.length bytes.length
    .ok (true, { pkt with particle := chain, length := length }, pool)
  else
    .ok (false, { pkt with particle := chain }, pool)

def moveTail (pkt : Packet) (mv : Int) : Outcome (Int × Packet) := do
  let (moved, chain) ← withLast (fun p => .ok (p.moveTail mv)) pkt.particle
  if moved ≠ mv then
    .ok (0, { pkt with particle := chain })
  else
    .ok (mv, { pkt with particle := chain, length := ((pkt.length : Int) + mv).toNat })

def moveHead (pkt : Packet) (mv : Int) : Outcome (Int × Packet) :=
  match pkt.particle with
  | [] => .error .unwrap
  | p :: rest =>
    let (moved, p) := p.moveHead mv
    if moved ≠ mv then
      .ok (0, { pkt with particle := p :: rest })
    else
      .ok (mv, { pkt with particle := p :: rest, length := ((pkt.length : Int) - mv).toNat })

def pullL2 (pkt : Packet) (len : Nat) : Outcome (Nat × Packet) := do
  let p ← pkt.first
  let l2 := p.head
  let mv := Particle.toIsize len
  let (moved, pkt) ← pkt.moveHead mv
  if moved ≠ mv then .ok (0, pkt) else .ok (len, { pkt with l2 := l2, l2Len := len })

def pushL2 (pkt : Packet) (pool : σ) (bytes : List UInt8) : Outcome (Bool × Packet × σ) := do
  let (done, pkt, pool) ← pkt.prepend pool bytes
  if !done then
    .ok (false, pkt, pool)
  else do
    let p ← pkt.first
    .ok (true, { pkt with l2 := p.head, l2Len := bytes.length }, pool)

def setL2 (pkt : Packet) (len : Nat) : Outcome (Bool × Packet) := do
  let p ← pkt.first
  if len ≤ p.len then .ok (true, { pkt with l2 := p.head, l2Len := len }) else .ok (false, pkt)

def getL2 (pkt : Packet) : Outcome (List UInt8 × Nat) :=
  if pkt.l2Len = 0 then
    .ok ([], 0)
  else do
    let p ← pkt.first
    let d := p.dataRaw pkt.l2
    if d.length < pkt.l2Len then .ok ([], 0) else .ok (d, pkt.l2Len)

def pullL3 (pkt : Packet) (len : Nat) : Outcome (Nat × Packet) := do
  let p ← pkt.first
  let l3 := p.head
  let mv := Particle.toIsize len
  let (moved, pkt) ← pkt.moveHead mv
  if moved ≠ mv then .ok (0, pkt) else .ok (len, { pkt with l3 := l3, l3Len := len })

def pushL3 (pkt : Packet) (pool : σ) (bytes : List UInt8) : Outcome (Bool × Packet × σ) := do
  let (done, pkt, pool) ← pkt.prepend pool bytes
  if !done then
    .ok (false, pkt, pool)
  else do
    let p ← pkt.first
    .ok (true, { pkt with l3 := p.head, l3Len := bytes.length }, pool)

def setL3 (pkt : Packet) (len : Nat) : Outcome (Bool × Packet) := do
  let p ← pkt.first
  if len ≤ p.len then .ok (true, { pkt with l3 := p.head, l3Len := len }) else .ok (false, pkt)

def getL3 (pkt : Packet) : Outcome (List UInt8 × Nat) :=
  if pkt.l3Len = 0 then
    .ok ([], 0)
  else do
    let p ← pkt.first
    let d := p.dataRaw pkt.l3
    if d.length < pkt.l3Len then .ok ([], 0) else .ok (d, pkt.l3Len)

/-- The walk of `data`: `l` bytes lie in the particles already passed. -/
def dataLoop (offset : Nat) : Nat → List Particle → Outcome (Option (List UInt8 × Nat))
  | _, [] => .ok none
  | l, p :: rest => do
    let rel ← sub64 offset l
    match ← p.data rel with
    | some d => .ok (some d)
    | none => dataLoop offset (l + p.len) rest

def data (pkt : Packet) (offset : Nat) : Outcome (Option (List UInt8 × Nat)) := do
  let _ ← pkt.first
  dataLoop offset 0 pkt.particle

def head (pkt : Packet) : Outcome (List UInt8) := do
  let p ← pkt.first
  .ok (p.dataRaw 0)

/-- Writes through the slice `head_mut` returns, which starts at raw index 0. -/
def headMut (pkt : Packet) (f : List UInt8 → Outcome (List UInt8)) : Outcome Packet :=
  match pkt.particle with
  | [] => .error .unwrap
  | p :: rest => do
    let raw ← f p.raw
    .ok { pkt with particle := { p with raw := raw } :: rest }

def slicesLoop : List Particle → Outcome (List (List UInt8 × Nat))
  | [] => .ok []
  | p :: rest => do
    let t ← p.data 0
    let v ← slicesLoop rest
    .ok (t.toList ++ v)

def slices (pkt : Packet) : Outcome (List (List UInt8 × Nat)) := do
  let _ ← pkt.first
  slicesLoop pkt.particle

section Runs

variable {τ : Type} {pkt pkt' : Packet} {pool' : τ}

/-- `prepend` and `append` count what a loop that is done has placed. -/
theorem grown_done {loop : Outcome (Bool × List Particle × τ)} {n : Nat} (run : (do
      let (done, chain, pool) ← loop
      if done then do
        let length ← add64 pkt.length n
        .ok (true, { pkt with particle := chain, length := length }, pool)
      else
        .ok (false, { pkt with particle := chain }, pool)) = Except.ok (ε := Fault) (true, pkt', pool')) :
    ∃ chain total, loop = .ok (true, chain, pool') ∧ add64 pkt.length n = .ok total ∧
      pkt' = { pkt with particle := chain, length := total } := by
  obtain ⟨⟨done, chain, pool⟩, loop, run⟩ := Except.bind_ok_iff.mp run
  cases done with
  | false => cases Except.ok.inj run
  | true =>
    obtain ⟨total, added, run⟩ := Except.bind_ok_iff.mp run
    cases Except.ok.inj run
    exact ⟨chain, total, loop, added, rfl⟩

theorem grown_failed {loop : Outcome (Bool × List Particle × τ)} {n : Nat} (run : (do
      let (done, chain, pool) ← loop
      if done then do
        let length ← add64 pkt.length n
        .ok (true, { pkt with particle := chain, length := length }, pool)
      else
        .ok (false, { pkt with particle := chain }, pool)) = Except.ok (ε := Fault) (false, pkt', pool')) :
    ∃ chain, loop = .ok (false, chain, pool') ∧ pkt' = { pkt with particle := chain } := by
  obtain ⟨⟨done, chain, pool⟩, loop, run⟩ := Except.bind_ok_iff.mp run
  cases done with
  | false =>
    cases Except.ok.inj run
    exact ⟨chain, loop, rfl⟩
  | true =>
    obtain ⟨_, _, run⟩ := Except.bind_ok_iff.mp run
    cases Except.ok.inj run

/-- `push_l2` and `push_l3` are a `prepend` that also records a header. -/
theorem pushed_done {grown : Outcome (Bool × Packet × τ)} (record : Packet → Particle → Packet) (run : (do
      let (done, pkt, pool) ← grown
      if !done then
        .ok (false, pkt, pool)
      else do
        let p ← pkt.first
        .ok (true, record pkt p, pool)) = Except.ok (ε := Fault) (true, pkt', pool')) :
    ∃ pkt₁ p, grown = .ok (true, pkt₁, pool') ∧ pkt₁.first = .ok p ∧ pkt' = record pkt₁ p := by
  obtain ⟨⟨done, pkt₁, pool⟩, grown, run⟩ := Except.bind_ok_iff.mp run
  cases done with
  | false => cases Except.ok.inj run
  | true =>
    obtain ⟨p, first, run⟩ := Except.bind_ok_iff.mp run
    cases Except.ok.inj run
    exact ⟨pkt₁, p, grown, first, rfl⟩

/-- They fail where their `prepend` does. -/
theorem pushed_failed {grown : Outcome (Bool × Packet × τ)} (record : Packet → Particle → Packet) (run : (do
      let (done, pkt, pool) ← grown
      if !done then
        .ok (false, pkt, pool)
      else do
        let p ← pkt.first
        .ok (true, record pkt p, pool)) = Except.ok (ε := Fault) (false, pkt', pool')) :
    grown = .ok (false, pkt', pool') := by
  obtain ⟨⟨done, pkt₁, pool⟩, grown, run⟩ := Except.bind_ok_iff.mp run
  cases done with
  | false =>
    cases Except.ok.inj run
    exact grown
  | true =>
    obtain ⟨_, _, run⟩ := Except.bind_ok_iff.mp run
    cases Except.ok.inj run

end Runs

end Packet

end R2
