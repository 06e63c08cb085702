import R2.Packet.Steady

namespace R2

/-- A pool whose particles all have buffers of the size it reports. -/
class UniformPool (σ : Type) [PacketPool σ] : Prop extends SteadyPool σ where
  particle_sized : ∀ {pool pool' : σ} {headroom : Nat} {p : Particle},
    PacketPool.particle pool headroom = (some p, pool') → p.raw.length = PacketPool.particleSz pool

instance : UniformPool PktsHeap where
  particle_sized allocated := (PktsHeap.particle_some allocated).2.2

namespace Particle

variable {p : Particle} {bytes : List UInt8}

/-- A particle without headroom takes nothing in front. -/
theorem prepend_full (full : p.head = 0) (some : bytes ≠ []) : p.prepend bytes = .ok (0, p) := by
  obtain ⟨ptr, raw, head, tail, below⟩ := p
  subst full
  have short : 0 < bytes.length := List.length_pos_iff.mpr some
  have nothing : window bytes (bytes.length - 0) bytes.length = [] := window_self _ _
  have kept : overwrite raw 0 [] = raw := rfl
  have copied : copyFromSlice raw 0 0 (window bytes (bytes.length - 0) bytes.length) = .ok raw := by
    rw [nothing, copyFromSlice, if_pos ⟨Nat.le_refl _, Nat.zero_le _, rfl⟩, kept]
  simp only [prepend, if_pos short, copied, Except.ok_bind]

/-- A particle whose tail is at the end of its buffer takes nothing behind. -/
theorem append_full (full : p.tail = p.raw.length) (bytes : List UInt8) : p.append bytes = .ok (0, p) := by
  obtain ⟨ptr, raw, head, tail, below⟩ := p
  dsimp only at full
  subst full
  have room : sub64 raw.length raw.length = .ok 0 := sub64_ok.mpr ⟨Nat.le_refl _, (Nat.sub_self _).symm⟩
  have kept : overwrite raw raw.length [] = raw := by
    simp only [overwrite, List.take_length, List.length_nil, Nat.add_zero, List.drop_length, List.append_nil]
  have copied : copyFromSlice raw raw.length raw.length (window bytes 0 0) = .ok raw := by
    rw [window_self, copyFromSlice, if_pos ⟨Nat.le_refl _, Nat.le_refl _, (Nat.sub_self _).symm⟩, kept]
  simp only [append, room, copied, Except.ok_bind, Nat.zero_min, Nat.add_zero]

end Particle

namespace Packet

/-- The particles that have bytes. -/
def visible (chain : List Particle) : List Particle := chain.filter fun p => 0 < p.len

theorem visible_cons_empty {p : Particle} (empty : p.len = 0) (rest : List Particle) :
    visible (p :: rest) = visible rest :=
  List.filter_cons_of_neg (by simp [empty])

theorem visible_concat_empty {p : Particle} (empty : p.len = 0) (front : List Particle) :
    visible (front ++ [p]) = visible front := by
  rw [visible, List.filter_append, List.filter_cons_of_neg (by simp [empty]), List.filter_nil, List.append_nil]
  rfl

theorem visible_cons_some {p : Particle} (some : ¬p.len = 0) (rest : List Particle) :
    visible (p :: rest) = p :: visible rest :=
  List.filter_cons_of_pos (by simp [Nat.pos_of_ne_zero some])

/-- `slices` passes over particles without bytes. -/
theorem slicesLoop_visible (chain : List Particle) : slicesLoop chain = slicesLoop (visible chain) := by
  induction chain with
  | nil => rfl
  | cons p rest ih =>
    by_cases empty : p.len = 0
    · rw [visible_cons_empty empty, slicesLoop, Particle.data_none (Nat.le_of_eq empty), Except.ok_bind, ih]
      cases slicesLoop (visible rest) with
      | error e => rfl
      | ok v => rfl
    · rw [visible_cons_some empty, slicesLoop, slicesLoop, ih]

/-- So does `data`. -/
theorem dataLoop_visible {offset l : Nat} (chain : List Particle) (reached : l ≤ offset) :
    dataLoop offset l chain = dataLoop offset l (visible chain) := by
  induction chain generalizing l with
  | nil => rfl
  | cons p rest ih =>
    have rel : sub64 offset l = .ok (offset - l) := sub64_ok.mpr ⟨reached, rfl⟩
    by_cases empty : p.len = 0
    · rw [visible_cons_empty empty, dataLoop, rel, Except.ok_bind,
        Particle.data_none (Nat.le_trans (Nat.le_of_eq empty) (Nat.zero_le _)), Except.ok_bind]
      dsimp only
      rw [empty]
      exact ih reached
    · rw [visible_cons_some empty, dataLoop, dataLoop, rel, Except.ok_bind, Except.ok_bind]
      by_cases past : p.len ≤ offset - l
      · rw [Particle.data_none past, Except.ok_bind, Except.ok_bind]
        exact ih (by omega)
      · rw [Particle.data, if_neg past]
        cases slice p.raw (p.head + (offset - l)) p.tail with
        | error e => rfl
        | ok bytes => rfl

variable {σ : Type} [PacketPool σ]

/-- The pool gives no particle that holds a byte. -/
def Exhausted (pool : σ) (headroom : Nat) : Prop :=
  (PacketPool.particle pool headroom).1 = none ∨ PacketPool.particleSz pool = 0

variable [UniformPool σ] {bytes : List UInt8} {fuel l offset : Nat} {p : Particle} {rest front chain' : List Particle}
variable {pool pool' : σ}

/-- When `prepend` gives up, what it has placed is in front of the packet. -/
theorem prependLoop_failed (run : prependLoop bytes fuel l (p :: rest) pool = .ok (false, chain', pool'))
    (within : l ≤ bytes.length) (chained : Chained (p :: rest)) :
    Chained chain' ∧ ∃ placed, chainContent chain' = placed ++ chainContent (p :: rest) ∧
      (placed = [] → p.head = 0 ∧ Exhausted pool (PacketPool.particleSz pool)) := by
  induction fuel generalizing l p rest pool with
  | zero => cases run
  | succ fuel ih =>
    rw [prependLoop] at run
    by_cases finished : l = 0
    · rw [if_pos finished] at run
      cases Except.ok.inj run
    · rw [if_neg finished] at run
      obtain ⟨p', n, placed, count, -, inBounds, -, grown⟩ :=
        p.prepend_spec (chained.inBounds p (List.mem_cons_self ..)) (window bytes 0 l)
      rw [window_length within] at count
      dsimp only at run
      rw [placed, Except.ok_bind] at run
      dsimp only at run
      have kept : Chained (p' :: rest) := chained.cons inBounds
      have part : (List.drop ((window bytes 0 l).length - n) (window bytes 0 l)).length = n := by
        rw [List.length_drop, window_length within]
        omega
      by_cases all : n = l
      · rw [if_neg (not_not_intro all), all, Nat.sub_self] at run
        cases fuel with
        | zero => cases run
        | succ fuel =>
          rw [prependLoop, if_pos rfl] at run
          cases Except.ok.inj run
      · rw [if_pos all] at run
        have full : n = p.head := by omega
        split at run
        · rename_i pool₁ allocated
          cases Except.ok.inj run
          refine ⟨kept, _, by rw [chainContent_cons, grown, List.append_assoc, chainContent_cons], fun none => ?_⟩
          rw [none, List.length_nil] at part
          exact ⟨full ▸ part.symm, Or.inl (congrArg Prod.fst allocated)⟩
        · rename_i q pool₁ allocated
          obtain ⟨head, tail, fresh⟩ := LawfulPool.particle_empty allocated le_rfl
          obtain ⟨chained', later, shape, none⟩ := ih run (by omega) (kept.push fresh)
          refine ⟨chained', later ++ (window bytes 0 l).drop ((window bytes 0 l).length - n), ?_, fun nothing => ?_⟩
          · rw [shape, chainContent_cons, Particle.content_empty head tail, List.nil_append, chainContent_cons, grown,
              ← List.append_assoc, ← List.append_assoc, chainContent_cons, ← List.append_assoc]
          · obtain ⟨later, here⟩ := List.append_eq_nil_iff.mp nothing
            rw [here, List.length_nil] at part
            exact ⟨full ▸ part.symm, Or.inr (head.symm.trans (none later).1)⟩

/-- When `append` gives up, what it has placed is behind the packet. -/
theorem appendLoop_failed (run : appendLoop bytes fuel offset (front ++ [p]) pool = .ok (false, chain', pool'))
    (within : offset ≤ bytes.length) (chained : Chained (front ++ [p])) :
    Chained chain' ∧ ∃ placed, chainContent chain' = chainContent (front ++ [p]) ++ placed ∧
      (placed = [] → p.tail = p.raw.length ∧ Exhausted pool 0) := by
  induction fuel generalizing offset front p pool with
  | zero => cases run
  | succ fuel ih =>
    rw [appendLoop] at run
    by_cases finished : offset = bytes.length
    · rw [if_pos finished] at run
      cases Except.ok.inj run
    · rw [if_neg finished] at run
      obtain ⟨⟨n, grown⟩, last, run⟩ := Except.bind_ok_iff.mp run
      obtain ⟨front', p₀, p', shape, placed, rfl⟩ := withLast_ok last
      obtain ⟨rfl, same⟩ := List.append_inj' shape rfl
      cases List.singleton_inj.mp same
      have inBounds := chained.inBounds p (List.mem_append_right _ (List.mem_singleton_self p))
      obtain ⟨p'', n', placed', count, -, -, inBounds', -, content⟩ :=
        p.append_spec inBounds (window bytes offset bytes.length)
      obtain ⟨rfl, rfl⟩ := Prod.mk.inj (Except.ok.inj (placed.symm.trans placed'))
      rw [window_length (Nat.le_refl _)] at count
      have kept : Chained (front ++ [p']) := chained.replaceLast inBounds'
      have step : chainContent (front ++ [p']) = chainContent (front ++ [p]) ++
          (window bytes offset bytes.length).take n := by
        simp only [chainContent_append, chainContent_cons, chainContent_nil, content, List.append_assoc,
          List.append_nil]
      have part : ((window bytes offset bytes.length).take n).length = n := by
        rw [List.length_take, window_length (Nat.le_refl _)]
        omega
      dsimp only at run
      by_cases none : n = 0
      · rw [if_pos none] at run
        have full : p.tail = p.raw.length := by
          unfold Particle.InBounds at inBounds
          omega
        split at run
        · rename_i pool₁ allocated
          cases Except.ok.inj run
          exact ⟨kept, _, step, fun _ => ⟨full, Or.inl (congrArg Prod.fst allocated)⟩⟩
        · rename_i q pool₁ allocated
          obtain ⟨head, tail, fresh⟩ := LawfulPool.particle_empty allocated (Nat.zero_le _)
          obtain ⟨chained', later, shape, nothing⟩ := ih run (by omega) (kept.concat fresh)
          refine ⟨chained', (window bytes offset bytes.length).take n ++ later, ?_, fun empty => ⟨full, Or.inr ?_⟩⟩
          · rw [shape, chainContent_append, chainContent_cons, Particle.content_empty head tail, chainContent_nil,
              List.append_nil, List.append_nil, step, List.append_assoc]
          · rw [← UniformPool.particle_sized allocated, ← (nothing (List.append_eq_nil_iff.mp empty).2).1, tail]
      · rw [if_neg none] at run
        obtain ⟨chained', later, shape, -⟩ := ih run (by omega) kept
        refine ⟨chained', (window bytes offset bytes.length).take n ++ later, ?_, fun empty => ?_⟩
        · rw [shape, step, List.append_assoc]
        · rw [(List.append_eq_nil_iff.mp empty).1, List.length_nil] at part
          exact absurd part.symm none

/-- With no room in front and no particle from the pool nothing is placed. -/
theorem prependLoop_blocked (run : prependLoop bytes fuel l (p :: rest) pool = .ok (false, chain', pool'))
    (within : l ≤ bytes.length) (full : p.head = 0) (exhausted : Exhausted pool (PacketPool.particleSz pool)) :
    visible chain' = visible (p :: rest) := by
  induction fuel generalizing l p rest pool with
  | zero => cases run
  | succ fuel ih =>
    rw [prependLoop] at run
    by_cases finished : l = 0
    · rw [if_pos finished] at run
      cases Except.ok.inj run
    · have some : window bytes 0 l ≠ [] := by
        refine List.ne_nil_of_length_pos ?_
        rw [window_length within]
        omega
      rw [if_neg finished] at run
      dsimp only at run
      rw [Particle.prepend_full full some, Except.ok_bind] at run
      dsimp only at run
      rw [if_pos (Ne.symm finished)] at run
      split at run
      · cases Except.ok.inj run
        rfl
      · rename_i q pool₁ allocated
        have zero := exhausted.resolve_left (by rw [allocated]; exact Option.some_ne_none q)
        obtain ⟨head, tail, -⟩ := LawfulPool.particle_empty allocated le_rfl
        have steady := particle_steady allocated
        rw [ih run (by omega) (head.trans zero) (Or.inr (steady.trans zero)),
          visible_cons_empty (by rw [Particle.len, head, tail, Nat.sub_self])]

/-- The same at the other end. -/
theorem appendLoop_blocked (run : appendLoop bytes fuel offset (front ++ [p]) pool = .ok (false, chain', pool'))
    (full : p.tail = p.raw.length) (exhausted : Exhausted pool 0) : visible chain' = visible (front ++ [p]) := by
  induction fuel generalizing offset front p pool with
  | zero => cases run
  | succ fuel ih =>
    rw [appendLoop] at run
    by_cases finished : offset = bytes.length
    · rw [if_pos finished] at run
      cases Except.ok.inj run
    · rw [if_neg finished] at run
      obtain ⟨⟨n, grown⟩, last, run⟩ := Except.bind_ok_iff.mp run
      obtain ⟨front', p₀, p', shape, placed, rfl⟩ := withLast_ok last
      obtain ⟨rfl, same⟩ := List.append_inj' shape rfl
      cases List.singleton_inj.mp same
      rw [Particle.append_full full] at placed
      cases Except.ok.inj placed
      dsimp only at run
      rw [if_pos rfl] at run
      split at run
      · cases Except.ok.inj run
        rfl
      · rename_i q pool₁ allocated
        have zero := exhausted.resolve_left (by rw [allocated]; exact Option.some_ne_none q)
        obtain ⟨head, tail, -⟩ := LawfulPool.particle_empty allocated (Nat.zero_le _)
        have steady := particle_steady allocated
        have size := UniformPool.particle_sized allocated
        rw [ih run (tail.trans (size.trans zero).symm) (Or.inr (steady.trans zero)),
          visible_concat_empty (by rw [Particle.len, head, tail])]

/-- The calls that place bytes at an end of a packet. -/
inductive Growth
  | prepend
  | append
  | pushL2
  | pushL3

def Growth.run (pkt : Packet) (pool : σ) (bytes : List UInt8) : Growth → Outcome (Bool × Packet × σ)
  | prepend => pkt.prepend pool bytes
  | append => pkt.append pool bytes
  | pushL2 => pkt.pushL2 pool bytes
  | pushL3 => pkt.pushL3 pool bytes

/-- There is no room at the end where the call places bytes, and the pool is exhausted. -/
def Growth.Blocked (pkt : Packet) (pool : σ) : Growth → Prop
  | append => (∃ p, pkt.particle.getLast? = some p ∧ p.tail = p.raw.length) ∧ Exhausted pool 0
  | _ => pkt.headroom = .ok 0 ∧ Exhausted pool (PacketPool.particleSz pool)

/-- The packet reads as before, with the headers recorded as before. -/
structure Unchanged (pkt pkt' : Packet) : Prop where
  len : pkt'.len = pkt.len
  slices : pkt'.slices = pkt.slices
  data : ∀ offset, pkt'.data offset = pkt.data offset
  l2 : pkt'.l2 = pkt.l2 ∧ pkt'.l2Len = pkt.l2Len
  l3 : pkt'.l3 = pkt.l3 ∧ pkt'.l3Len = pkt.l3Len
  total : ∀ v, pkt.slices = .ok v → pkt.len = (v.map Prod.snd).sum →
    ∀ v', pkt'.slices = .ok v' → pkt'.len = (v'.map Prod.snd).sum

theorem slices_eq {pkt : Packet} (some : pkt.particle ≠ []) : pkt.slices = slicesLoop pkt.particle := by
  obtain ⟨p, rest, chain⟩ := List.exists_cons_of_ne_nil some
  rw [slices, first, chain, Except.ok_bind]

theorem data_eq {pkt : Packet} (some : pkt.particle ≠ []) (offset : Nat) :
    pkt.data offset = dataLoop offset 0 pkt.particle := by
  obtain ⟨p, rest, chain⟩ := List.exists_cons_of_ne_nil some
  rw [data, first, chain, Except.ok_bind]

variable {pkt pkt' : Packet}

omit [PacketPool σ] [UniformPool σ] in
theorem Unchanged.of_visible (some : pkt.particle ≠ []) (some' : chain' ≠ [])
    (same : visible chain' = visible pkt.particle) : Unchanged pkt { pkt with particle := chain' } := by
  have slices : Packet.slices { pkt with particle := chain' } = pkt.slices := by
    rw [slices_eq some, slices_eq some', slicesLoop_visible, same, ← slicesLoop_visible]
  refine ⟨rfl, slices, fun offset => ?_, ⟨rfl, rfl⟩, ⟨rfl, rfl⟩, fun v run total v' run' => ?_⟩
  · rw [data_eq some, data_eq some', dataLoop_visible _ (Nat.zero_le _), same,
      ← dataLoop_visible _ (Nat.zero_le _)]
  · rw [slices, run] at run'
    cases Except.ok.inj run'
    exact total

omit [PacketPool σ] [UniformPool σ] in
theorem Unchanged.content (unchanged : Unchanged pkt pkt') (chained : Chained pkt.particle)
    (chained' : Chained pkt'.particle) : chainContent pkt'.particle = chainContent pkt.particle := by
  obtain ⟨v, run, whole, -⟩ := slicesLoop_ok chained.inBounds
  obtain ⟨v', run', whole', -⟩ := slicesLoop_ok chained'.inBounds
  have slices := unchanged.slices
  rw [slices_eq chained.nonempty, slices_eq chained'.nonempty, run, run'] at slices
  rw [← whole, ← whole', Except.ok.inj slices]

theorem prepend_failed_iff (chained : Chained pkt.particle)
    (failed : pkt.prepend pool bytes = .ok (false, pkt', pool')) :
    Unchanged pkt pkt' ↔ Growth.prepend.Blocked pkt pool := by
  obtain ⟨chain', loop, rfl⟩ := grown_failed failed
  obtain ⟨p, rest, chain⟩ := List.exists_cons_of_ne_nil chained.nonempty
  have head : pkt.headroom = .ok p.head := by rw [headroom, first, chain, Except.ok_bind]
  rw [chain] at loop
  obtain ⟨chained', placed, shape, nothing⟩ := prependLoop_failed loop (Nat.le_refl _) (chain ▸ chained)
  constructor
  · intro unchanged
    have same := unchanged.content chained chained'
    rw [chain] at same
    obtain ⟨full, exhausted⟩ := nothing (List.append_left_eq_self.mp (shape.symm.trans same))
    exact ⟨full ▸ head, exhausted⟩
  · rintro ⟨full, exhausted⟩
    have full := Except.ok.inj (head.symm.trans full)
    refine .of_visible chained.nonempty chained'.nonempty ?_
    rw [chain]
    exact prependLoop_blocked loop (Nat.le_refl _) full exhausted

theorem append_failed_iff (chained : Chained pkt.particle)
    (failed : pkt.append pool bytes = .ok (false, pkt', pool')) :
    Unchanged pkt pkt' ↔ Growth.append.Blocked pkt pool := by
  obtain ⟨chain', loop, rfl⟩ := grown_failed failed
  obtain ⟨front, p, chain⟩ : ∃ front p, pkt.particle = front ++ [p] :=
    ⟨_, _, (List.dropLast_append_getLast chained.nonempty).symm⟩
  have last : pkt.particle.getLast? = some p := by rw [chain, List.getLast?_append, List.getLast?_singleton]; rfl
  rw [chain] at loop
  obtain ⟨chained', placed, shape, nothing⟩ := appendLoop_failed loop (Nat.zero_le _) (chain ▸ chained)
  constructor
  · intro unchanged
    have same := unchanged.content chained chained'
    rw [chain] at same
    obtain ⟨full, exhausted⟩ := nothing (List.append_right_eq_self.mp (shape.symm.trans same))
    exact ⟨⟨p, last, full⟩, exhausted⟩
  · rintro ⟨⟨q, last', full⟩, exhausted⟩
    cases Option.some.inj (last.symm.trans last')
    refine .of_visible chained.nonempty chained'.nonempty ?_
    rw [chain]
    exact appendLoop_blocked loop full exhausted

/-- A call that fails leaves the packet as it was exactly when it found no room
at its end of the packet and no particle in the pool. -/
theorem failed_growth_unchanged_iff (grow : Growth) (chained : Chained pkt.particle)
    (failed : grow.run pkt pool bytes = .ok (false, pkt', pool')) : Unchanged pkt pkt' ↔ grow.Blocked pkt pool := by
  cases grow with
  | prepend => exact prepend_failed_iff chained failed
  | append => exact append_failed_iff chained failed
  | pushL2 =>
    exact prepend_failed_iff chained (pushed_failed (fun q p => { q with l2 := p.head, l2Len := bytes.length }) failed)
  | pushL3 =>
    exact prepend_failed_iff chained (pushed_failed (fun q p => { q with l3 := p.head, l3Len := bytes.length }) failed)

/-- A packet of one particle of four bytes, its tail in the middle. -/
def shortPacket (head : Nat) (below : head ≤ 2) : Packet :=
  ⟨10, [⟨20, [9, 9, 9, 9], head, 2, below⟩], 2 - head, 0, 0, 0, 0, 0, 0, zeroIp⟩

def emptyHeap : PktsHeap := ⟨0, [], [], 4, nofun⟩

theorem shortPacket_sound (head : Nat) (below : head ≤ 2) : (shortPacket head below).Sound := by
  have chained : Chained (shortPacket head below).particle := by
    refine ⟨List.cons_ne_nil _ _, fun p member => ?_⟩
    rw [List.mem_singleton.mp member]
    exact (by decide : 2 ≤ 4)
  refine ⟨chained, ?_⟩
  have inBounds := chained.inBounds _ (List.mem_singleton_self _)
  have size := Particle.content_length inBounds
  rw [content, shortPacket, chainContent_cons, chainContent_nil, List.append_nil, size]
  rfl

/-- Three bytes do not fit in front of two bytes of headroom: two of them stay
there, and the length stays zero. -/
theorem failed_prepend_leaves_bytes : (shortPacket 2 (Nat.le_refl 2)).Sound ∧ ∃ pkt' pool',
    (shortPacket 2 (Nat.le_refl 2)).prepend emptyHeap [1, 2, 3] = .ok (false, pkt', pool') ∧ pkt'.len = 0 ∧
    pkt'.slices = .ok [([2, 3], 2)] ∧ ¬Unchanged (shortPacket 2 (Nat.le_refl 2)) pkt' := by
  refine ⟨shortPacket_sound _ _, _, _, rfl, rfl, rfl, fun unchanged => ?_⟩
  have slices : Except.ok [([2, 3], 2)] = Except.ok (ε := Fault) ([] : List (List UInt8 × Nat)) := unchanged.slices
  cases slices

/-- Without headroom the same call changes nothing. -/
theorem failed_growth_unchanged_full : ∃ pkt' pool',
    Growth.prepend.run (shortPacket 0 (Nat.zero_le 2)) emptyHeap [1, 2, 3] = .ok (false, pkt', pool') ∧
    Unchanged (shortPacket 0 (Nat.zero_le 2)) pkt' := by
  have blocked : Growth.prepend.Blocked (shortPacket 0 (Nat.zero_le 2)) emptyHeap := ⟨rfl, Or.inl rfl⟩
  obtain ⟨pkt', pool', failed⟩ : ∃ pkt' pool', Growth.prepend.run
      (shortPacket 0 (Nat.zero_le 2)) emptyHeap [1, 2, 3] =
      .ok (false, pkt', pool') := ⟨_, _, rfl⟩
  have chained := (shortPacket_sound 0 (Nat.zero_le 2)).chained
  exact ⟨pkt', pool', failed, (failed_growth_unchanged_iff .prepend chained failed).mpr blocked⟩

end Packet

end R2
