import R2.Packet.Content

namespace R2

/-- What packets rely on in a pool: a particle comes empty, with as much
headroom as asked for when that is at most the particle size, and a packet
comes with one such particle. -/
class LawfulPool (σ : Type) [PacketPool σ] : Prop where
  particle_empty : ∀ {pool pool' : σ} {headroom : Nat} {p : Particle},
    PacketPool.particle pool headroom = (some p, pool') → headroom ≤ PacketPool.particleSz pool →
    p.head = headroom ∧ p.tail = headroom ∧ p.InBounds
  pkt_empty : ∀ {pool pool' : σ} {headroom : Nat} {pkt : Packet},
    PacketPool.pkt pool headroom = (some pkt, pool') → headroom ≤ PacketPool.particleSz pool →
    pkt.length = 0 ∧ ∃ p, pkt.particle = [p] ∧ p.head = headroom ∧ p.tail = headroom ∧ p.InBounds

theorem Particle.content_empty {p : Particle} {headroom : Nat} (head : p.head = headroom) (tail : p.tail = headroom) :
    p.content = [] := by
  rw [Particle.content, head, tail, window_self]

namespace Packet

def content (pkt : Packet) : List UInt8 := chainContent pkt.particle

variable {σ : Type} [PacketPool σ] [LawfulPool σ]
variable {bytes : List UInt8} {fuel l offset : Nat} {chain chain' : List Particle} {pool pool' : σ}

theorem prependLoop_ok (run : prependLoop bytes fuel l chain pool = .ok (true, chain', pool'))
    (within : l ≤ bytes.length) (chained : Chained chain) :
    Chained chain' ∧ chainContent chain' = bytes.take l ++ chainContent chain := by
  induction fuel generalizing l chain pool with
  | zero => cases run
  | succ fuel ih =>
    unfold prependLoop at run
    by_cases finished : l = 0
    · rw [if_pos finished] at run
      cases Except.ok.inj run
      exact ⟨chained, by rw [finished]; rfl⟩
    · rw [if_neg finished] at run
      cases chain with
      | nil => cases run
      | cons p rest =>
        obtain ⟨p', n, placed, count, -, inBounds, -, grown⟩ :=
          p.prepend_spec (chained.inBounds p (List.mem_cons_self ..)) (window bytes 0 l)
        have start : window bytes 0 l = bytes.take l := List.drop_zero
        have size : (bytes.take l).length = l := by
          rw [List.length_take]
          omega
        rw [start, size] at grown
        rw [start, size] at count
        -- the bytes placed now and those placed later make up `bytes.take l`
        have step : bytes.take (l - n) ++ chainContent (p' :: rest) = bytes.take l ++ chainContent (p :: rest) := by
          have parts := List.take_append_drop (l - n) (bytes.take l)
          rw [List.take_take, min_eq_left (by omega)] at parts
          rw [chainContent_cons, chainContent_cons, grown, ← List.append_assoc, ← List.append_assoc, parts,
            List.append_assoc]
        dsimp only at run
        rw [placed, Except.ok_bind] at run
        dsimp only at run
        split at run
        · split at run
          · cases Except.ok.inj run
          · rename_i q pool₁ allocated
            obtain ⟨head, tail, fresh⟩ := LawfulPool.particle_empty allocated le_rfl
            obtain ⟨chained', shape⟩ := ih run (by omega) ((chained.cons inBounds).push fresh)
            refine ⟨chained', ?_⟩
            rw [shape, chainContent_cons, Particle.content_empty head tail, List.nil_append, step]
        · obtain ⟨chained', shape⟩ := ih run (by omega) (chained.cons inBounds)
          exact ⟨chained', shape.trans step⟩

theorem appendLoop_ok (run : appendLoop bytes fuel offset chain pool = .ok (true, chain', pool'))
    (chained : Chained chain) :
    Chained chain' ∧ chainContent chain' = chainContent chain ++ bytes.drop offset := by
  induction fuel generalizing offset chain pool with
  | zero => cases run
  | succ fuel ih =>
    unfold appendLoop at run
    by_cases finished : offset = bytes.length
    · rw [if_pos finished] at run
      cases Except.ok.inj run
      refine ⟨chained, ?_⟩
      rw [finished, List.drop_length, List.append_nil]
    · rw [if_neg finished] at run
      obtain ⟨⟨n, grown⟩, last, run⟩ := Except.bind_ok_iff.mp run
      obtain ⟨front, p, p', rfl, placed, rfl⟩ := withLast_ok last
      obtain ⟨p'', n', placed', -, -, -, inBounds, -, shape⟩ :=
        p.append_spec (chained.inBounds p (List.mem_append_right _ (List.mem_singleton_self p)))
          (window bytes offset bytes.length)
      obtain ⟨rfl, rfl⟩ := Prod.mk.inj (Except.ok.inj (placed.symm.trans placed'))
      have left : window bytes offset bytes.length = bytes.drop offset := by rw [window, List.take_length]
      have step : chainContent (front ++ [p']) ++ bytes.drop (offset + n) =
          chainContent (front ++ [p]) ++ bytes.drop offset := by
        have parts := List.take_append_drop n (bytes.drop offset)
        rw [List.drop_drop] at parts
        rw [left] at shape
        simp only [chainContent_append, chainContent_cons, chainContent_nil, shape, List.append_assoc, parts,
          List.nil_append]
      have kept : Chained (front ++ [p']) := chained.replaceLast inBounds
      dsimp only at run
      split at run
      · split at run
        · cases Except.ok.inj run
        · rename_i q pool₁ allocated
          obtain ⟨head, tail, fresh⟩ := LawfulPool.particle_empty allocated (Nat.zero_le _)
          obtain ⟨chained', whole⟩ := ih run (kept.concat fresh)
          refine ⟨chained', ?_⟩
          rw [whole, chainContent_append, chainContent_cons, Particle.content_empty head tail, chainContent_nil,
            List.append_nil, List.append_nil, step]
      · obtain ⟨chained', whole⟩ := ih run kept
        exact ⟨chained', whole.trans step⟩

end Packet

end R2
