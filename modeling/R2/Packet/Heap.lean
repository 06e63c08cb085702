import R2.Packet.Growth

namespace R2

/-- The pool whose packets and particles come from the heap. `new` gives every
particle a buffer of `particleSz` bytes. -/
structure PktsHeap where
  allocFail : Nat
  pkts : List Packet
  particles : List Particle
  particleSz : Nat
  sized : ∀ p ∈ particles, p.raw.length = particleSz

namespace PktsHeap

def particle (pool : PktsHeap) (headroom : Nat) : Option Particle × PktsHeap :=
  match cut : pool.particles with
  | [] => (none, { pool with allocFail := pool.allocFail + 1 })
  | part :: rest =>
    (some (part.reinit headroom),
      { pool with
        particles := rest
        sized := fun p member => pool.sized p (by rw [cut]; exact List.mem_cons_of_mem _ member) })

def pkt (pool : PktsHeap) (headroom : Nat) : Option Packet × PktsHeap :=
  match pool.pkts with
  | [] => (none, { pool with allocFail := pool.allocFail + 1 })
  | pkt :: rest =>
    match ({ pool with pkts := rest } : PktsHeap).particle headroom with
    | (some part, pool) => (some (pkt.reinit part), pool)
    | (none, pool) => (none, { pool with allocFail := pool.allocFail + 1, pkts := pkt :: pool.pkts })

instance : PacketPool PktsHeap where
  pkt := pkt
  particle := particle
  particleSz := particleSz

theorem particle_some {pool pool' : PktsHeap} {headroom : Nat} {p : Particle}
    (allocated : pool.particle headroom = (some p, pool')) :
    p.head = headroom ∧ p.tail = headroom ∧ p.raw.length = pool.particleSz := by
  unfold particle at allocated
  split at allocated
  · cases allocated
  · rename_i part rest cut
    obtain ⟨same, -⟩ := Prod.mk.inj allocated
    cases Option.some.inj same
    exact ⟨rfl, rfl, pool.sized part (by rw [cut]; exact List.mem_cons_self ..)⟩

theorem pkt_some {pool pool' : PktsHeap} {headroom : Nat} {pkt : Packet}
    (allocated : pool.pkt headroom = (some pkt, pool')) :
    pkt.length = 0 ∧ ∃ p, pkt.particle = [p] ∧ p.head = headroom ∧ p.tail = headroom ∧
      p.raw.length = pool.particleSz := by
  unfold PktsHeap.pkt at allocated
  split at allocated
  · cases allocated
  · split at allocated
    · rename_i part pool₁ taken
      obtain ⟨same, -⟩ := Prod.mk.inj allocated
      cases Option.some.inj same
      have shape := particle_some taken
      exact ⟨rfl, part, rfl, shape⟩
    · cases allocated

instance : LawfulPool PktsHeap where
  particle_empty allocated fits := by
    obtain ⟨head, tail, size⟩ := particle_some allocated
    refine ⟨head, tail, ?_⟩
    rw [Particle.InBounds, tail, size]
    exact fits
  pkt_empty allocated fits := by
    obtain ⟨length, p, single, head, tail, size⟩ := pkt_some allocated
    refine ⟨length, p, single, head, tail, ?_⟩
    rw [Particle.InBounds, tail, size]
    exact fits

end PktsHeap

end R2
