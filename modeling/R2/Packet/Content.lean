import R2.Packet.Packet

namespace R2

namespace Particle

/-- The bytes between head and tail. -/
def content (p : Particle) : List UInt8 := window p.raw p.head p.tail

def InBounds (p : Particle) : Prop := p.tail ≤ p.raw.length

variable {p p' : Particle} {bytes : List UInt8}

theorem content_length (inBounds : p.InBounds) : p.content.length = p.len := window_length inBounds

theorem prepend_spec (inBounds : p.InBounds) (bytes : List UInt8) : ∃ p' n, p.prepend bytes = .ok (n, p') ∧
    n = min p.head bytes.length ∧ p'.head = p.head - n ∧ p'.InBounds ∧ p'.raw.length = p.raw.length ∧
    p'.content = bytes.drop (bytes.length - n) ++ p.content := by
  have below := p.head_le_tail
  unfold InBounds at inBounds
  -- `written` goes right behind the old head in both branches
  have placed (written : List UInt8) (fits : written.length ≤ p.head) :
      (overwrite p.raw (p.head - written.length) written).length = p.raw.length ∧
      window (overwrite p.raw (p.head - written.length) written) (p.head - written.length) p.tail =
        written ++ p.content := by
    have room : p.head - written.length + written.length ≤ p.raw.length := by omega
    have length := overwrite_length room
    refine ⟨length, ?_⟩
    rw [← window_append (Nat.sub_le p.head written.length) below (by omega)]
    have back := window_overwrite room
    rw [show p.head - written.length + written.length = p.head by omega] at back
    rw [back, window_overwrite_of_disjoint room (Or.inr (by omega))]
    rfl
  by_cases more : p.head < bytes.length
  · have count : (bytes.drop (bytes.length - p.head)).length = p.head := by
      rw [List.length_drop]
      omega
    have whole : window bytes (bytes.length - p.head) bytes.length = bytes.drop (bytes.length - p.head) := by
      rw [window, List.take_length]
    obtain ⟨length, shape⟩ := placed (bytes.drop (bytes.length - p.head)) (by omega)
    rw [count, Nat.sub_self] at length shape
    have copied : copyFromSlice p.raw 0 p.head (window bytes (bytes.length - p.head) bytes.length) =
        .ok (overwrite p.raw 0 (bytes.drop (bytes.length - p.head))) := by
      rw [whole, copyFromSlice, if_pos ⟨Nat.zero_le _, by omega, by rw [count]; omega⟩]
    simp only [prepend, if_pos more, copied, Except.ok_bind]
    refine ⟨_, p.head, rfl, (min_eq_left (by omega)).symm, (Nat.sub_self _).symm, ?_, length, shape⟩
    change p.tail ≤ _
    rw [length]
    exact inBounds
  · obtain ⟨length, shape⟩ := placed bytes (by omega)
    have copied : copyFromSlice p.raw (p.head - bytes.length) p.head (window bytes 0 bytes.length) =
        .ok (overwrite p.raw (p.head - bytes.length) bytes) := by
      rw [window_whole, copyFromSlice, if_pos ⟨Nat.sub_le _ _, by omega, by omega⟩]
    simp only [prepend, if_neg more, copied, Except.ok_bind]
    refine ⟨_, bytes.length, rfl, (min_eq_right (by omega)).symm, rfl, ?_, length, ?_⟩
    · change p.tail ≤ _
      rw [length]
      exact inBounds
    · rw [Nat.sub_self, List.drop_zero]
      exact shape

theorem append_spec (inBounds : p.InBounds) (bytes : List UInt8) : ∃ p' n, p.append bytes = .ok (n, p') ∧
    n = min (p.raw.length - p.tail) bytes.length ∧ p'.head = p.head ∧ p'.tail = p.tail + n ∧ p'.InBounds ∧
    p'.raw.length = p.raw.length ∧ p'.content = p.content ++ bytes.take n := by
  have below := p.head_le_tail
  unfold InBounds at inBounds
  have room : sub64 p.raw.length p.tail = .ok (p.raw.length - p.tail) := sub64_ok.mpr ⟨inBounds, rfl⟩
  have whole : window bytes 0 (min (p.raw.length - p.tail) bytes.length) =
      bytes.take (min (p.raw.length - p.tail) bytes.length) := List.drop_zero
  have count : (bytes.take (min (p.raw.length - p.tail) bytes.length)).length =
      min (p.raw.length - p.tail) bytes.length := by
    rw [List.length_take]
    omega
  have fits : p.tail + (bytes.take (min (p.raw.length - p.tail) bytes.length)).length ≤ p.raw.length := by omega
  have length := overwrite_length fits
  have copied : copyFromSlice p.raw p.tail (p.tail + min (p.raw.length - p.tail) bytes.length)
      (window bytes 0 (min (p.raw.length - p.tail) bytes.length)) =
      .ok (overwrite p.raw p.tail (bytes.take (min (p.raw.length - p.tail) bytes.length))) := by
    rw [whole, copyFromSlice, if_pos ⟨Nat.le_add_right _ _, by omega, by rw [count]; omega⟩]
  simp only [append, room, copied, Except.ok_bind]
  refine ⟨_, _, rfl, rfl, rfl, rfl, ?_, length, ?_⟩
  · change p.tail + _ ≤ _
    rw [length]
    omega
  · change window _ p.head (p.tail + _) = _
    rw [← window_append below (by omega) (by rw [length]; omega),
      window_overwrite_of_disjoint fits (Or.inl le_rfl)]
    have back := window_overwrite fits
    rw [count] at back
    rw [back]
    rfl

theorem moveHead_result {mv got : Int} (moved : p.moveHead mv = (got, p')) : got = mv ∨ got = 0 := by
  unfold moveHead at moved
  dsimp only at moved
  split at moved
  · exact .inr (Prod.mk.inj moved).1.symm
  · exact .inl (Prod.mk.inj moved).1.symm

theorem moveTail_result {mv got : Int} (moved : p.moveTail mv = (got, p')) : got = mv ∨ got = 0 := by
  unfold moveTail at moved
  dsimp only at moved
  split at moved
  · exact .inr (Prod.mk.inj moved).1.symm
  · exact .inl (Prod.mk.inj moved).1.symm

theorem moveHead_ok {mv : Int} (inBounds : p.InBounds) (moved : p.moveHead mv = (mv, p')) (forward : 0 ≤ mv) :
    mv.toNat ≤ p.len ∧ p'.InBounds ∧ p'.content = p.content.drop mv.toNat := by
  have below := p.head_le_tail
  unfold moveHead at moved
  dsimp only at moved
  split at moved
  · obtain ⟨zero, rfl⟩ := Prod.mk.inj moved
    subst zero
    exact ⟨Nat.zero_le _, inBounds, rfl⟩
  · obtain ⟨_, rfl⟩ := Prod.mk.inj moved
    have start : ((p.head : Int) + mv).toNat = p.head + mv.toNat := by omega
    refine ⟨by unfold len; omega, inBounds, ?_⟩
    change window p.raw ((p.head : Int) + mv).toNat p.tail = _
    rw [content, window_drop, start]

theorem moveHead_fits {n : Nat} (fits : n ≤ p.len) : ∃ p', p.moveHead n = ((n : Int), p') ∧ p'.raw = p.raw := by
  have below := p.head_le_tail
  unfold len at fits
  have good : ¬((p.head : Int) + n < 0 ∨ (p.head : Int) + n > p.tail) := by omega
  unfold moveHead
  rw [dif_neg good]
  exact ⟨_, rfl, rfl⟩

/-- What a successful `move_tail` makes of a particle: it exposes raw bytes
behind the tail, or drops bytes before it. -/
theorem moveTail_ok {mv : Int} (inBounds : p.InBounds) (moved : p.moveTail mv = (mv, p')) :
    p'.InBounds ∧ (0 ≤ mv → p'.content = p.content ++ window p.raw p.tail (p.tail + mv.toNat) ∧
      p.tail + mv.toNat ≤ p.raw.length) ∧
    (mv < 0 → (-mv).toNat ≤ p.len ∧ p'.content = p.content.take (p.len - (-mv).toNat)) := by
  have below := p.head_le_tail
  unfold InBounds at inBounds
  unfold moveTail at moved
  dsimp only at moved
  split at moved
  · obtain ⟨zero, rfl⟩ := Prod.mk.inj moved
    subst zero
    refine ⟨inBounds, fun _ => ⟨?_, by simpa using inBounds⟩, fun negative => absurd negative (by omega)⟩
    simp
  · obtain ⟨_, rfl⟩ := Prod.mk.inj moved
    rename_i good
    refine ⟨?_, fun forward => ?_, fun negative => ?_⟩
    · change ((p.tail : Int) + mv).toNat ≤ p.raw.length
      omega
    · have stop : ((p.tail : Int) + mv).toNat = p.tail + mv.toNat := by omega
      refine ⟨?_, by omega⟩
      change window p.raw p.head ((p.tail : Int) + mv).toNat = _
      rw [stop, content, window_append below (by omega) (by omega)]
    · have stop : ((p.tail : Int) + mv).toNat = p.head + (p.len - (-mv).toNat) := by unfold len; omega
      refine ⟨by unfold len; omega, ?_⟩
      change window p.raw p.head ((p.tail : Int) + mv).toNat = _
      rw [stop, content, window_take (by unfold len; omega)]

end Particle

/-- A chain of particles reads as one byte string. -/
def chainContent (chain : List Particle) : List UInt8 := chain.flatMap Particle.content

@[simp] theorem chainContent_nil : chainContent [] = [] := rfl

@[simp] theorem chainContent_cons (p : Particle) (rest : List Particle) :
    chainContent (p :: rest) = p.content ++ chainContent rest := List.flatMap_cons

@[simp] theorem chainContent_append (front back : List Particle) :
    chainContent (front ++ back) = chainContent front ++ chainContent back := List.flatMap_append

/-- A chain as packets have it: at least one particle, each within its
buffer. -/
structure Chained (chain : List Particle) : Prop where
  nonempty : chain ≠ []
  inBounds : ∀ p ∈ chain, p.InBounds

theorem Chained.cons {p q : Particle} {rest : List Particle} (chained : Chained (p :: rest)) (inBounds : q.InBounds) :
    Chained (q :: rest) :=
  ⟨List.cons_ne_nil _ _, List.forall_mem_cons.mpr ⟨inBounds, (List.forall_mem_cons.mp chained.inBounds).2⟩⟩

theorem Chained.push {q : Particle} {chain : List Particle} (chained : Chained chain) (inBounds : q.InBounds) :
    Chained (q :: chain) :=
  ⟨List.cons_ne_nil _ _, List.forall_mem_cons.mpr ⟨inBounds, chained.inBounds⟩⟩

theorem Chained.concat {q : Particle} {chain : List Particle} (chained : Chained chain) (inBounds : q.InBounds) :
    Chained (chain ++ [q]) := by
  refine ⟨List.append_ne_nil_of_left_ne_nil chained.nonempty _, fun p member => ?_⟩
  rcases List.mem_append.mp member with old | new
  · exact chained.inBounds p old
  · rw [List.mem_singleton.mp new]
    exact inBounds

theorem Chained.replaceLast {front : List Particle} {p q : Particle} (chained : Chained (front ++ [p]))
    (inBounds : q.InBounds) : Chained (front ++ [q]) := by
  refine ⟨by simp, fun r member => ?_⟩
  rcases List.mem_append.mp member with old | new
  · exact chained.inBounds r (List.mem_append_left _ old)
  · rw [List.mem_singleton.mp new]
    exact inBounds

namespace Packet

theorem withLast_ok {α : Type} {f : Particle → Outcome (α × Particle)} {chain chain' : List Particle} {a : α}
    (run : withLast f chain = .ok (a, chain')) : ∃ front p p', chain = front ++ [p] ∧ f p = .ok (a, p') ∧
      chain' = front ++ [p'] := by
  induction chain generalizing chain' with
  | nil => cases run
  | cons p rest ih =>
    cases rest with
    | nil =>
      obtain ⟨⟨a', p'⟩, at_p, run⟩ := Except.bind_ok_iff.mp run
      cases Except.ok.inj run
      exact ⟨[], p, p', rfl, at_p, rfl⟩
    | cons q rest =>
      obtain ⟨⟨a', chain''⟩, deeper, run⟩ := Except.bind_ok_iff.mp run
      cases Except.ok.inj run
      obtain ⟨front, r, r', shape, at_r, shape'⟩ := ih deeper
      exact ⟨p :: front, r, r', by rw [shape]; rfl, at_r, by rw [shape']; rfl⟩

theorem withLast_concat {α : Type} {f : Particle → Outcome (α × Particle)} {front : List Particle} {p p' : Particle}
    {a : α} (at_last : f p = .ok (a, p')) : withLast f (front ++ [p]) = .ok (a, front ++ [p']) := by
  induction front with
  | nil => simp only [List.nil_append, withLast, at_last, Except.ok_bind]
  | cons q front ih =>
    cases front with
    | nil => simp only [List.nil_append, List.cons_append, withLast, at_last, Except.ok_bind]
    | cons r front =>
      simp only [List.cons_append] at ih ⊢
      simp only [withLast, ih, Except.ok_bind]

end Packet

end R2
