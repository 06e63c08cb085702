import R2.Packet.Room

namespace R2

/-- The size of the buffers of a pool is fixed. -/
class SteadyPool (σ : Type) [PacketPool σ] : Prop extends SizedPool σ where
  pkt_steady : ∀ (pool : σ) (headroom : Nat),
    PacketPool.particleSz (PacketPool.pkt pool headroom).2 = PacketPool.particleSz pool
  particle_steady : ∀ (pool : σ) (headroom : Nat),
    PacketPool.particleSz (PacketPool.particle pool headroom).2 = PacketPool.particleSz pool

theorem PktsHeap.particle_steady (pool : PktsHeap) (headroom : Nat) :
    (pool.particle headroom).2.particleSz = pool.particleSz := by
  unfold PktsHeap.particle
  split <;> rfl

instance : SteadyPool PktsHeap where
  pkt_steady pool headroom := by
    change (PktsHeap.pkt pool headroom).2.particleSz = pool.particleSz
    unfold PktsHeap.pkt
    split
    · rfl
    · rename_i pkt rest cut
      have same := PktsHeap.particle_steady { pool with pkts := rest } headroom
      split
      · rename_i part pool' taken
        rw [taken] at same
        exact same
      · rename_i pool' taken
        rw [taken] at same
        exact same
  particle_steady := PktsHeap.particle_steady

namespace Packet

variable {σ : Type} [PacketPool σ] [SteadyPool σ]

/-- What a pool gives keeps its size. -/
theorem pkt_steady {pool pool' : σ} {headroom : Nat} {pkt : Option Packet}
    (allocated : PacketPool.pkt pool headroom = (pkt, pool')) :
    PacketPool.particleSz pool' = PacketPool.particleSz pool := by
  have steady := SteadyPool.pkt_steady pool headroom
  rwa [allocated] at steady

theorem particle_steady {pool pool' : σ} {headroom : Nat} {p : Option Particle}
    (allocated : PacketPool.particle pool headroom = (p, pool')) :
    PacketPool.particleSz pool' = PacketPool.particleSz pool := by
  have steady := SteadyPool.particle_steady pool headroom
  rwa [allocated] at steady

/-- Every second turn of the loop places a byte, so it comes to its end. -/
theorem prependLoop_ends {bytes : List UInt8} {fuel l : Nat} {p : Particle} {rest : List Particle} {pool : σ}
    (chained : Chained (p :: rest)) (within : l ≤ bytes.length) (positive : 0 < PacketPool.particleSz pool)
    (enough : 2 * l + (if p.head = 0 then 2 else 1) ≤ fuel) :
    ∃ done chain pool', prependLoop bytes fuel l (p :: rest) pool = .ok (done, chain, pool') ∧ Chained chain ∧
      PacketPool.particleSz pool' = PacketPool.particleSz pool := by
  induction fuel generalizing l p rest pool with
  | zero => split at enough <;> omega
  | succ fuel ih =>
    by_cases finished : l = 0
    · exact ⟨true, p :: rest, pool, by rw [prependLoop, if_pos finished], chained, rfl⟩
    · have inBounds : p.InBounds := chained.inBounds p (List.mem_cons_self ..)
      obtain ⟨p', n, placed, count, head, inBounds', -⟩ := p.prepend_spec inBounds (window bytes 0 l)
      rw [window_length within] at count
      rw [prependLoop, if_neg finished]
      dsimp only
      rw [placed, Except.ok_bind]
      dsimp only
      have moved : Chained (p' :: rest) := chained.cons inBounds'
      by_cases all : n = l
      · rw [if_neg (not_not_intro all)]
        refine ih moved (by omega) positive ?_
        split at enough <;> split <;> omega
      · rw [if_pos all]
        cases supplied : PacketPool.particle pool (PacketPool.particleSz pool) with
        | mk q pool' =>
          have steady := particle_steady supplied
          cases q with
          | none => exact ⟨false, p' :: rest, pool', rfl, moved, steady⟩
          | some q =>
            obtain ⟨top, -, fresh⟩ := LawfulPool.particle_empty supplied le_rfl
            have room : 0 < q.head := top.symm ▸ positive
            obtain ⟨done, chain, pool'', run, chained', steady'⟩ :=
              @ih (l - n) q (p' :: rest) pool' (moved.push fresh) (by omega)
              (steady.symm ▸ positive) (by
                rw [if_neg (by omega)]
                split at enough <;> omega)
            exact ⟨done, chain, pool'', run, chained', steady'.trans steady⟩

theorem prepend_noPanic {pkt : Packet} {pool : σ} (bytes : List UInt8) (chained : Chained pkt.particle)
    (positive : 0 < PacketPool.particleSz pool) : NoPanic (pkt.prepend pool bytes) fun out =>
      Chained out.2.1.particle ∧ PacketPool.particleSz out.2.2 = PacketPool.particleSz pool := by
  obtain ⟨p, rest, chain⟩ := List.exists_cons_of_ne_nil chained.nonempty
  rw [chain] at chained
  obtain ⟨done, chain', pool', run, chained', steady⟩ := prependLoop_ends chained (le_refl bytes.length) positive
    (by split <;> omega : _ ≤ 2 * bytes.length + 2)
  rw [prepend, chain, run, Except.ok_bind]
  dsimp only
  split
  · exact (add64_noPanic _ _).bind fun _ _ => ⟨chained', steady⟩
  · exact ⟨chained', steady⟩

end Packet

end R2
