import R2.Packet.Heap
import R2.Packet.Reading

namespace R2.Packet

/-- The packet invariant: the chain is well formed and `length` counts its
bytes. -/
structure Sound (pkt : Packet) : Prop where
  chained : Chained pkt.particle
  length : pkt.length = pkt.content.length

section Calls

variable {σ : Type} [PacketPool σ] [LawfulPool σ]
variable {pkt pkt' : Packet} {pool pool' : σ} {bytes : List UInt8} {n : Nat} {mv : Int}

theorem sound_of_pkt {headroom : Nat} (allocated : PacketPool.pkt pool headroom = (some pkt, pool'))
    (fits : headroom ≤ PacketPool.particleSz pool) : pkt.Sound ∧ pkt.content = [] := by
  obtain ⟨length, p, single, head, tail, inBounds⟩ := LawfulPool.pkt_empty allocated fits
  have empty : pkt.content = [] := by
    rw [content, single, chainContent_cons, Particle.content_empty head tail, chainContent_nil, List.nil_append]
  refine ⟨⟨⟨by simp [single], fun q member => ?_⟩, by rw [length, empty]; rfl⟩, empty⟩
  rw [single] at member
  rw [List.mem_singleton.mp member]
  exact inBounds

theorem Sound.prepend (sound : pkt.Sound) (run : pkt.prepend pool bytes = .ok (true, pkt', pool')) :
    pkt'.Sound ∧ pkt'.content = bytes ++ pkt.content := by
  obtain ⟨chain, total, loop, added, rfl⟩ := grown_done run
  obtain ⟨chained, shape⟩ := prependLoop_ok loop le_rfl sound.chained
  rw [List.take_length] at shape
  refine ⟨⟨chained, ?_⟩, shape⟩
  change total = (chainContent chain).length
  rw [(add64_ok.mp added).2, shape, List.length_append, sound.length, content, Nat.add_comm]

theorem Sound.append (sound : pkt.Sound) (run : pkt.append pool bytes = .ok (true, pkt', pool')) :
    pkt'.Sound ∧ pkt'.content = pkt.content ++ bytes := by
  obtain ⟨chain, total, loop, added, rfl⟩ := grown_done run
  obtain ⟨chained, shape⟩ := appendLoop_ok loop sound.chained
  rw [List.drop_zero] at shape
  refine ⟨⟨chained, ?_⟩, shape⟩
  change total = (chainContent chain).length
  rw [(add64_ok.mp added).2, shape, List.length_append, sound.length, content]

theorem Sound.push (sound : pkt.Sound) (record : Packet → Particle → Packet)
    (headers : ∀ q p, (record q p).particle = q.particle ∧ (record q p).length = q.length)
    (run : (do
      let (done, pkt, pool) ← pkt.prepend pool bytes
      if !done then
        .ok (false, pkt, pool)
      else do
        let p ← pkt.first
        .ok (true, record pkt p, pool)) = Except.ok (ε := Fault) (true, pkt', pool')) :
    pkt'.Sound ∧ pkt'.content = bytes ++ pkt.content := by
  obtain ⟨pkt₁, p, prepended, first, rfl⟩ := pushed_done record run
  obtain ⟨kept, shape⟩ := sound.prepend prepended
  obtain ⟨chain, length⟩ := headers pkt₁ p
  have same : (record pkt₁ p).content = pkt₁.content := by rw [content, chain, content]
  exact ⟨⟨chain ▸ kept.chained, by rw [length, same, kept.length]⟩, same.trans shape⟩

theorem moveHead_result {got : Int} (run : pkt.moveHead mv = .ok (got, pkt')) : got = mv ∨ got = 0 := by
  unfold Packet.moveHead at run
  split at run
  · cases run
  · dsimp only at run
    split at run
    · exact .inr (Prod.mk.inj (Except.ok.inj run)).1.symm
    · exact .inl (Prod.mk.inj (Except.ok.inj run)).1.symm

theorem Sound.moveHead (sound : pkt.Sound) (forward : 0 ≤ mv) (run : pkt.moveHead mv = .ok (mv, pkt')) :
    pkt'.Sound ∧ mv.toNat ≤ pkt.content.length ∧ pkt'.content = pkt.content.drop mv.toNat := by
  unfold Packet.moveHead at run
  cases chain : pkt.particle with
  | nil =>
    rw [chain] at run
    cases run
  | cons p rest =>
    rw [chain] at run
    cases moved : p.moveHead mv with
    | mk got p' =>
      have whole : pkt.content = p.content ++ chainContent rest := by rw [content, chain, chainContent_cons]
      have chained : Chained (p :: rest) := chain ▸ sound.chained
      simp only [moved] at run
      have same : got = mv := by
        by_contra differs
        rw [if_pos differs] at run
        have zero := (Prod.mk.inj (Except.ok.inj run)).1
        have given := Particle.moveHead_result moved
        omega
      subst got
      rw [if_neg (not_not_intro rfl)] at run
      obtain ⟨-, rfl⟩ := Prod.mk.inj (Except.ok.inj run)
      obtain ⟨enough, inBounds, shape⟩ :=
        Particle.moveHead_ok (chained.inBounds p (List.mem_cons_self ..)) moved forward
      rw [← Particle.content_length (chained.inBounds p (List.mem_cons_self ..))] at enough
      have shape' : chainContent (p' :: rest) = pkt.content.drop mv.toNat := by
        rw [chainContent_cons, shape, whole, List.drop_append_of_le_length enough]
      refine ⟨⟨chained.cons inBounds, ?_⟩, ?_, shape'⟩
      · change ((pkt.length : Int) - mv).toNat = (chainContent (p' :: rest)).length
        rw [shape', List.length_drop, sound.length]
        omega
      · rw [whole, List.length_append]
        omega

/-- `pull_l2` and `pull_l3` are a `move_head` that also records a header. -/
theorem Sound.pull (sound : pkt.Sound) (record : Packet → Nat → Packet) (short : n < 2 ^ 63)
    (headers : ∀ q h, (record q h).particle = q.particle ∧ (record q h).length = q.length)
    (run : (do
      let p ← pkt.first
      let (moved, pkt) ← pkt.moveHead (Particle.toIsize n)
      if moved ≠ Particle.toIsize n then .ok (0, pkt) else .ok (n, record pkt p.head)) =
        Except.ok (ε := Fault) (n, pkt')) :
    pkt'.Sound ∧ n ≤ pkt.content.length ∧ pkt'.content = pkt.content.drop n := by
  have exactly : Particle.toIsize n = n := if_pos short
  obtain ⟨p, first, run⟩ := Except.bind_ok_iff.mp run
  obtain ⟨⟨moved, pkt₁⟩, shifted, run⟩ := Except.bind_ok_iff.mp run
  rw [exactly] at shifted run
  dsimp only at run
  have same : moved = n := by
    by_contra differs
    rw [if_pos differs] at run
    have zero := (Prod.mk.inj (Except.ok.inj run)).1
    have given := moveHead_result shifted
    omega
  subst moved
  rw [if_neg (not_not_intro rfl)] at run
  cases Except.ok.inj run
  obtain ⟨kept, enough, shape⟩ := sound.moveHead (Int.natCast_nonneg n) shifted
  obtain ⟨chain, length⟩ := headers pkt₁ p.head
  have same : (record pkt₁ p.head).content = pkt₁.content := by rw [content, chain, content]
  exact ⟨⟨chain ▸ kept.chained, by rw [length, same, kept.length]⟩, enough, same.trans shape⟩

/-- The next `n` raw bytes of the last particle. -/
def beyond (pkt : Packet) (n : Nat) : List UInt8 :=
  match pkt.particle.getLast? with
  | none => []
  | some p => window p.raw p.tail (p.tail + n)

theorem Sound.moveTail (sound : pkt.Sound) (run : pkt.moveTail mv = .ok (mv, pkt')) : pkt'.Sound ∧
    (0 ≤ mv → (pkt.beyond mv.toNat).length = mv.toNat ∧ pkt'.content = pkt.content ++ pkt.beyond mv.toNat) ∧
    (mv < 0 → (-mv).toNat ≤ pkt.content.length ∧
      pkt'.content = pkt.content.take (pkt.content.length - (-mv).toNat)) := by
  obtain ⟨⟨got, chain⟩, moved, run⟩ := Except.bind_ok_iff.mp run
  obtain ⟨front, p, p', shape, at_last, rfl⟩ := withLast_ok moved
  have at_last := Except.ok.inj at_last
  have same : got = mv := by
    by_contra differs
    dsimp only at run
    rw [if_pos differs] at run
    have zero := (Prod.mk.inj (Except.ok.inj run)).1
    have given := Particle.moveTail_result at_last
    omega
  subst got
  dsimp only at run
  rw [if_neg (not_not_intro rfl)] at run
  obtain ⟨-, rfl⟩ := Prod.mk.inj (Except.ok.inj run)
  have chained : Chained (front ++ [p]) := shape ▸ sound.chained
  have last : p.InBounds := chained.inBounds p (List.mem_append_right _ (List.mem_singleton_self p))
  have size := Particle.content_length last
  have whole : pkt.content = chainContent front ++ p.content := by
    rw [content, shape, chainContent_append, chainContent_cons, chainContent_nil, List.append_nil]
  have total : pkt.content.length = (chainContent front).length + p.len := by rw [whole, List.length_append, size]
  have whole' : chainContent (front ++ [p']) = chainContent front ++ p'.content := by
    rw [chainContent_append, chainContent_cons, chainContent_nil, List.append_nil]
  have spare : pkt.beyond mv.toNat = window p.raw p.tail (p.tail + mv.toNat) := by
    rw [beyond, shape, List.getLast?_append, List.getLast?_singleton]
    rfl
  obtain ⟨inBounds, exposes, drops⟩ := Particle.moveTail_ok last at_last
  have sizes : (0 ≤ mv → (pkt.beyond mv.toNat).length = mv.toNat ∧
      chainContent (front ++ [p']) = pkt.content ++ pkt.beyond mv.toNat) ∧
      (mv < 0 → (-mv).toNat ≤ pkt.content.length ∧
        chainContent (front ++ [p']) = pkt.content.take (pkt.content.length - (-mv).toNat)) := by
    refine ⟨fun forward => ?_, fun negative => ?_⟩
    · obtain ⟨exposed, room⟩ := exposes forward
      rw [spare, window_length room, whole', exposed, whole, List.append_assoc]
      exact ⟨by omega, rfl⟩
    · obtain ⟨enough, dropped⟩ := drops negative
      refine ⟨by omega, ?_⟩
      have cut : pkt.content.length - (-mv).toNat = (chainContent front).length + (p.len - (-mv).toNat) := by omega
      rw [cut, whole', dropped, whole, List.take_length_add_append]
  refine ⟨⟨chained.replaceLast inBounds, ?_⟩, sizes⟩
  change ((pkt.length : Int) + mv).toNat = (chainContent (front ++ [p'])).length
  by_cases forward : 0 ≤ mv
  · obtain ⟨more, exposed⟩ := sizes.1 forward
    rw [exposed, List.length_append, more, sound.length]
    omega
  · obtain ⟨enough, dropped⟩ := sizes.2 (by omega)
    rw [dropped, List.length_take, sound.length]
    omega

end Calls

/-- What a client reads off a packet whose bytes are `bytes`. -/
structure ReadsAs (pkt : Packet) (bytes : List UInt8) : Prop where
  len : pkt.len = bytes.length
  data_past : ∀ offset, pkt.len ≤ offset → pkt.data offset = .ok none
  data_at : ∀ offset, offset < pkt.len → ∃ front p rest, pkt.particle = front ++ p :: rest ∧
    (chainContent front).length ≤ offset ∧ offset < (chainContent (front ++ [p])).length ∧
    chainContent (front ++ [p]) <+: bytes ∧
    pkt.data offset = .ok (some ((chainContent (front ++ [p])).drop offset,
      (chainContent (front ++ [p])).length - offset))
  slices : ∃ v, pkt.slices = .ok v ∧ (v.map Prod.fst).flatten = bytes ∧ ∀ s ∈ v, s.2 = s.1.length

theorem Sound.readsAs {pkt : Packet} (sound : pkt.Sound) : pkt.ReadsAs pkt.content := by
  obtain ⟨p, rest, chain⟩ := List.exists_cons_of_ne_nil sound.chained.nonempty
  have first : pkt.first = .ok p := by rw [Packet.first, chain]
  refine ⟨sound.length, fun offset past => ?_, fun offset before => ?_, ?_⟩
  · rw [data, first, Except.ok_bind]
    rw [len, sound.length, content] at past
    exact dataLoop_none sound.chained.inBounds (Nat.zero_le _) (by omega)
  · rw [len, sound.length, content] at before
    obtain ⟨front, q, back, shape, start, stop, found⟩ :=
      dataLoop_some sound.chained.inBounds (Nat.zero_le _) (by omega : offset < 0 + _)
    rw [Nat.zero_add] at start stop found
    refine ⟨front, q, back, shape, start, stop, ⟨chainContent back, ?_⟩, ?_⟩
    · rw [content, shape, ← chainContent_append, List.append_assoc, List.singleton_append]
    · rw [data, first, Except.ok_bind, found, Nat.sub_zero]
  · rw [slices, first, Except.ok_bind]
    exact slicesLoop_ok sound.chained.inBounds

/-- The calls that grow or shrink a packet. -/
inductive Call
  | prepend (bytes : List UInt8)
  | append (bytes : List UInt8)
  | pushL2 (bytes : List UInt8)
  | pushL3 (bytes : List UInt8)
  | pullL2 (n : Nat)
  | pullL3 (n : Nat)
  | moveTail (mv : Int)

/-- Lengths are at most `isize::MAX`. -/
def Call.Bounded : Call → Prop
  | .prepend bytes | .append bytes | .pushL2 bytes | .pushL3 bytes => bytes.length < 2 ^ 63
  | .pullL2 n | .pullL3 n => n < 2 ^ 63
  | .moveTail mv => -2 ^ 63 ≤ mv ∧ mv < 2 ^ 63

instance : DecidablePred Call.Bounded
  | .prepend _ | .append _ | .pushL2 _ | .pushL3 _ | .pullL2 _ | .pullL3 _ => Nat.decLt _ _
  | .moveTail _ => instDecidableAnd

section Runs

variable {σ : Type} [PacketPool σ]

/-- The call returned, and reported success. -/
def Call.Succeeds (pkt : Packet) (pool : σ) (pkt' : Packet) (pool' : σ) : Call → Prop
  | .prepend bytes => pkt.prepend pool bytes = .ok (true, pkt', pool')
  | .append bytes => pkt.append pool bytes = .ok (true, pkt', pool')
  | .pushL2 bytes => pkt.pushL2 pool bytes = .ok (true, pkt', pool')
  | .pushL3 bytes => pkt.pushL3 pool bytes = .ok (true, pkt', pool')
  | .pullL2 n => pkt.pullL2 n = .ok (n, pkt') ∧ pool' = pool
  | .pullL3 n => pkt.pullL3 n = .ok (n, pkt') ∧ pool' = pool
  | .moveTail mv => pkt.moveTail mv = .ok (mv, pkt') ∧ pool' = pool

/-- How a call changes a packet seen as one byte string. -/
def Call.Evolves (pkt : Packet) (bytes' : List UInt8) : Call → Prop
  | .prepend bytes | .pushL2 bytes | .pushL3 bytes => bytes' = bytes ++ pkt.content
  | .append bytes => bytes' = pkt.content ++ bytes
  | .pullL2 n | .pullL3 n => n ≤ pkt.content.length ∧ bytes' = pkt.content.drop n
  | .moveTail mv =>
    (0 ≤ mv → (pkt.beyond mv.toNat).length = mv.toNat ∧ bytes' = pkt.content ++ pkt.beyond mv.toNat) ∧
    (mv < 0 → (-mv).toNat ≤ pkt.content.length ∧ bytes' = pkt.content.take (pkt.content.length - (-mv).toNat))

/-- The packets a client can hold: one the pool hands out with a headroom that
fits a particle, then any successful calls. Between two calls the pool may
serve other packets. -/
inductive Reached (σ : Type) [PacketPool σ] : Packet → Prop
  | pkt {pool' : σ} {pkt : Packet} (pool : σ) (headroom : Nat) : headroom ≤ PacketPool.particleSz pool →
      PacketPool.pkt pool headroom = (some pkt, pool') → Reached σ pkt
  | call {pool' : σ} {pkt pkt' : Packet} (pool : σ) (c : Call) : Reached σ pkt → c.Bounded →
      c.Succeeds pkt pool pkt' pool' → Reached σ pkt'

variable [LawfulPool σ] {pkt pkt' : Packet} {pool pool' : σ}

theorem Sound.call (sound : pkt.Sound) (c : Call) (bounded : c.Bounded) (run : c.Succeeds pkt pool pkt' pool') :
    pkt'.Sound ∧ c.Evolves pkt pkt'.content := by
  cases c with
  | prepend bytes => exact sound.prepend run
  | append bytes => exact sound.append run
  | pushL2 bytes =>
    exact sound.push (fun q p => { q with l2 := p.head, l2Len := bytes.length }) (fun _ _ => ⟨rfl, rfl⟩) run
  | pushL3 bytes =>
    exact sound.push (fun q p => { q with l3 := p.head, l3Len := bytes.length }) (fun _ _ => ⟨rfl, rfl⟩) run
  | pullL2 n =>
    exact sound.pull (fun q h => { q with l2 := h, l2Len := n }) bounded (fun _ _ => ⟨rfl, rfl⟩) run.1
  | pullL3 n =>
    exact sound.pull (fun q h => { q with l3 := h, l3Len := n }) bounded (fun _ _ => ⟨rfl, rfl⟩) run.1
  | moveTail mv => exact sound.moveTail run.1

theorem Reached.sound (reached : Reached σ pkt) : pkt.Sound := by
  induction reached with
  | pkt _ _ fits allocated => exact (sound_of_pkt allocated fits).1
  | call _ c _ bounded run ih => exact (ih.call c bounded run).1

/-- A packet starts empty, every packet a client can hold reads as its
content, and every successful call evolves the content as the same call on one
byte string does. -/
theorem behaves_as_bytes :
    (∀ (pool pool' : σ) (headroom : Nat) (pkt : Packet), headroom ≤ PacketPool.particleSz pool →
      PacketPool.pkt pool headroom = (some pkt, pool') → pkt.content = []) ∧
    ∀ pkt, Reached σ pkt → pkt.ReadsAs pkt.content ∧
      ∀ (c : Call) (pool pool' : σ) (pkt' : Packet), c.Bounded → c.Succeeds pkt pool pkt' pool' →
        c.Evolves pkt pkt'.content ∧ pkt'.ReadsAs pkt'.content := by
  refine ⟨fun pool pool' headroom pkt fits allocated => (sound_of_pkt allocated fits).2, fun pkt reached => ?_⟩
  refine ⟨reached.sound.readsAs, fun c pool pool' pkt' bounded run => ?_⟩
  obtain ⟨sound, evolves⟩ := reached.sound.call c bounded run
  exact ⟨evolves, sound.readsAs⟩

end Runs

/-- A pool of one packet and three particles of four bytes. -/
def smallHeap : PktsHeap where
  allocFail := 0
  pkts := [⟨10, [], 0, 0, 0, 0, 0, 0, 0, zeroIp⟩]
  particles := [⟨20, [9, 9, 9, 9], 0, 0, le_rfl⟩, ⟨21, [8, 8, 8, 8], 0, 0, le_rfl⟩, ⟨22, [7, 7, 7, 7], 0, 0, le_rfl⟩]
  particleSz := 4
  sized := by decide

/-- Headroom two: three bytes prepended and three appended fill the first
particle and open one on each side, then three are pulled and one is exposed. -/
theorem behaves_as_bytes_three_particles : ∃ pkt, Reached PktsHeap pkt ∧ pkt.content = [2, 3, 4, 5, 6, 7, 7] ∧
    pkt.ReadsAs pkt.content := by
  have fresh := Reached.pkt smallHeap 2 (by decide) rfl
  have prepended := Reached.call (smallHeap.pkt 2).2 (.prepend [1, 2, 3]) fresh (by decide) rfl
  have appended := Reached.call ((smallHeap.pkt 2).2.particle 4).2 (.append [4, 5, 6]) prepended (by decide) rfl
  have pulled := Reached.call smallHeap (.pullL2 1) appended (by decide) ⟨rfl, rfl⟩
  have exposed := Reached.call smallHeap (.moveTail 2) pulled (by decide) ⟨rfl, rfl⟩
  exact ⟨_, exposed, by decide,
    ((behaves_as_bytes.2 _ pulled).2 (.moveTail 2) smallHeap smallHeap _ (by decide) ⟨rfl, rfl⟩).2⟩

end R2.Packet
