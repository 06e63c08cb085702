import R2.Packet.Flat

namespace R2

/-- A pool whose particles all have buffers of the one size it reports. -/
class SizedPool (σ : Type) [PacketPool σ] : Prop extends LawfulPool σ where
  pkt_sized : ∀ {pool pool' : σ} {headroom : Nat} {pkt : Packet},
    PacketPool.pkt pool headroom = (some pkt, pool') → ∀ p ∈ pkt.particle, p.raw.length = PacketPool.particleSz pool

instance : SizedPool PktsHeap where
  pkt_sized allocated p member := by
    obtain ⟨-, q, single, -, -, size⟩ := PktsHeap.pkt_some allocated
    rw [single] at member
    rw [List.mem_singleton.mp member]
    exact size

namespace Packet

variable {σ : Type} [PacketPool σ]

/-- The pool has a particle to give. -/
def Supplies (pool : σ) : Prop :=
  ∃ p pool', PacketPool.particle pool (PacketPool.particleSz pool) = (some p, pool')

/-- `k` more bytes can be prepended with at most one new particle. -/
def Room (k : Nat) (pkt : Packet) (pool : σ) : Prop :=
  (∃ p rest, pkt.particle = p :: rest ∧ k ≤ p.head) ∨ (Supplies pool ∧ k ≤ PacketPool.particleSz pool)

variable {pkt : Packet} {pool' : σ} {bytes : List UInt8} {l k : Nat}

theorem prependLoop_fits {p : Particle} (rest : List Particle) (pool : σ) (fuel : Nat) (inBounds : p.InBounds)
    (within : l ≤ bytes.length)
    (enough : l ≤ p.head) : ∃ p', p'.head = p.head - l ∧
      prependLoop bytes (fuel + 2) l (p :: rest) pool = .ok (true, p' :: rest, pool) := by
  by_cases finished : l = 0
  · refine ⟨p, by omega, ?_⟩
    rw [prependLoop, if_pos finished]
  · obtain ⟨p', n, placed, count, head, -⟩ := p.prepend_spec inBounds (window bytes 0 l)
    rw [window_length within] at count
    rw [show n = l by omega] at placed head
    refine ⟨p', head, ?_⟩
    rw [prependLoop, if_neg finished]
    dsimp only
    rw [placed, Except.ok_bind]
    dsimp only
    rw [if_neg (not_not_intro rfl), Nat.sub_self, prependLoop, if_pos rfl]

variable [LawfulPool σ]

theorem prependLoop_grows {p q : Particle} {pool : σ} (rest : List Particle) (fuel : Nat) (inBounds : p.InBounds)
    (within : l ≤ bytes.length)
    (short : p.head < l) (supplied : PacketPool.particle pool (PacketPool.particleSz pool) = (some q, pool'))
    (enough : l ≤ PacketPool.particleSz pool) : ∃ p' q', q'.head = PacketPool.particleSz pool - (l - p.head) ∧
      prependLoop bytes (fuel + 3) l (p :: rest) pool = .ok (true, q' :: p' :: rest, pool') := by
  obtain ⟨p', n, placed, count, -⟩ := p.prepend_spec inBounds (window bytes 0 l)
  rw [window_length within] at count
  rw [show n = p.head by omega] at placed
  obtain ⟨head, -, fresh⟩ := LawfulPool.particle_empty supplied le_rfl
  have left : l - p.head ≤ bytes.length := by omega
  obtain ⟨q', head', run⟩ := prependLoop_fits (p' :: rest) pool' fuel fresh left (by omega)
  refine ⟨p', q', by omega, ?_⟩
  rw [prependLoop, if_neg (by omega)]
  dsimp only
  rw [placed, Except.ok_bind]
  dsimp only
  rw [if_pos (by omega), supplied]
  exact run

/-- With room for `bytes` and `k` more, `prepend` succeeds and leaves room for
the `k`. -/
theorem Room.prepend {pool : σ} (sound : pkt.Sound) (room : Room (bytes.length + k) pkt pool)
    (fits : pkt.length + bytes.length < 2 ^ 64) : ∃ chain pool', Room k { pkt with particle := chain } pool' ∧
      pkt.prepend pool bytes =
        .ok (true, { pkt with particle := chain, length := pkt.length + bytes.length }, pool') := by
  obtain ⟨p, rest, chain⟩ := List.exists_cons_of_ne_nil sound.chained.nonempty
  have inBounds : p.InBounds := sound.chained.inBounds p (by rw [chain]; exact List.mem_cons_self ..)
  have finish {after : List Particle} {pool' : σ}
      (loop : prependLoop bytes (2 * bytes.length + 2) bytes.length pkt.particle pool = .ok (true, after, pool')) :
      pkt.prepend pool bytes =
        .ok (true, { pkt with particle := after, length := pkt.length + bytes.length }, pool') := by
    rw [Packet.prepend, loop, Except.ok_bind]
    dsimp only
    rw [if_pos rfl, add64_ok.mpr ⟨fits, rfl⟩, Except.ok_bind]
  by_cases enough : bytes.length ≤ p.head
  · obtain ⟨p', head, loop⟩ := prependLoop_fits rest pool (2 * bytes.length) inBounds
      (le_refl bytes.length) enough
    rw [← chain] at loop
    refine ⟨p' :: rest, pool, ?_, finish loop⟩
    rcases room with ⟨q, _, same, more⟩ | supplied
    · rw [chain] at same
      obtain ⟨rfl, rfl⟩ := List.cons.inj same
      exact .inl ⟨p', rest, rfl, by omega⟩
    · exact .inr ⟨supplied.1, by omega⟩
  · rcases room with ⟨q, _, same, more⟩ | ⟨⟨q, pool', supplied⟩, size⟩
    · rw [chain] at same
      obtain ⟨rfl, rfl⟩ := List.cons.inj same
      omega
    · obtain ⟨p', q', head, loop⟩ := prependLoop_grows rest (2 * bytes.length - 1) inBounds
        (le_refl bytes.length) (by omega) supplied (by omega)
      rw [← chain, show 2 * bytes.length - 1 + 3 = 2 * bytes.length + 2 by omega] at loop
      exact ⟨q' :: p' :: rest, pool', .inl ⟨q', p' :: rest, rfl, by omega⟩, finish loop⟩

end Packet

end R2
