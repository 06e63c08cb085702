import R2.Packet.Growth

namespace R2

namespace Particle

variable {p : Particle} {offset : Nat}

theorem data_none (past : p.len ≤ offset) : p.data offset = .ok none := if_pos past

theorem data_some (inBounds : p.InBounds) (before : offset < p.len) :
    p.data offset = .ok (some (p.content.drop offset, p.len - offset)) := by
  unfold InBounds at inBounds
  have range : p.head + offset ≤ p.tail ∧ p.tail ≤ p.raw.length := by
    unfold len at before
    omega
  rw [data, if_neg (by omega), slice, if_pos range, Except.ok_bind, content, window_drop]

end Particle

namespace Packet

variable {chain : List Particle} {offset l : Nat}

/-- Past the end of the chain the walk finds nothing. -/
theorem dataLoop_none (inBounds : ∀ p ∈ chain, p.InBounds) (reached : l ≤ offset)
    (past : l + (chainContent chain).length ≤ offset) : dataLoop offset l chain = .ok none := by
  induction chain generalizing l with
  | nil => rfl
  | cons p rest ih =>
    obtain ⟨inBounds, others⟩ := List.forall_mem_cons.mp inBounds
    rw [chainContent_cons, List.length_append, Particle.content_length inBounds] at past
    rw [dataLoop, sub64_ok.mpr ⟨reached, rfl⟩, Except.ok_bind, Particle.data_none (by omega), Except.ok_bind]
    exact ih others (by omega) (by omega)

/-- Before the end it stops at the particle that holds the offset, and yields
the bytes from there to that particle's end. -/
theorem dataLoop_some (inBounds : ∀ p ∈ chain, p.InBounds) (reached : l ≤ offset)
    (before : offset < l + (chainContent chain).length) :
    ∃ front p rest, chain = front ++ p :: rest ∧ l + (chainContent front).length ≤ offset ∧
      offset < l + (chainContent (front ++ [p])).length ∧
      dataLoop offset l chain = .ok (some ((chainContent (front ++ [p])).drop (offset - l),
        l + (chainContent (front ++ [p])).length - offset)) := by
  induction chain generalizing l with
  | nil =>
    rw [chainContent_nil, List.length_nil] at before
    omega
  | cons p rest ih =>
    obtain ⟨inBounds, others⟩ := List.forall_mem_cons.mp inBounds
    have size := Particle.content_length inBounds
    rw [chainContent_cons, List.length_append, size] at before
    by_cases here : offset - l < p.len
    · refine ⟨[], p, rest, rfl, reached, ?_, ?_⟩
      · simp only [List.nil_append, chainContent_cons, chainContent_nil, List.append_nil, size]
        omega
      · rw [dataLoop, sub64_ok.mpr ⟨reached, rfl⟩, Except.ok_bind, Particle.data_some inBounds here, Except.ok_bind]
        simp only [List.nil_append, chainContent_cons, chainContent_nil, List.append_nil, size]
        rw [show l + p.len - offset = p.len - (offset - l) by omega]
    · obtain ⟨front, q, back, shape, start, stop, found⟩ := ih others (l := l + p.len) (by omega) (by omega)
      refine ⟨p :: front, q, back, by rw [shape, List.cons_append], ?_, ?_, ?_⟩
      · rw [chainContent_cons, List.length_append, size]
        omega
      · rw [List.cons_append, chainContent_cons, List.length_append, size]
        omega
      · have passed : p.content.drop (offset - l) = [] := List.drop_eq_nil_of_le (by omega)
        rw [dataLoop, sub64_ok.mpr ⟨reached, rfl⟩, Except.ok_bind, Particle.data_none (by omega), Except.ok_bind]
        dsimp only
        rw [found, List.cons_append, chainContent_cons, List.drop_append, List.length_append, size,
          passed, List.nil_append, show offset - l - p.len = offset - (l + p.len) by omega, Nat.add_assoc]

theorem slicesLoop_ok (inBounds : ∀ p ∈ chain, p.InBounds) : ∃ v, slicesLoop chain = .ok v ∧
    (v.map Prod.fst).flatten = chainContent chain ∧ ∀ s ∈ v, s.2 = s.1.length := by
  induction chain with
  | nil => exact ⟨[], rfl, rfl, fun s member => absurd member List.not_mem_nil⟩
  | cons p rest ih =>
    obtain ⟨inBounds, others⟩ := List.forall_mem_cons.mp inBounds
    obtain ⟨v, run, whole, sizes⟩ := ih others
    have size := Particle.content_length inBounds
    by_cases empty : p.len = 0
    · have nothing : p.content = [] := List.length_eq_zero_iff.mp (size.trans empty)
      refine ⟨v, ?_, by rw [whole, chainContent_cons, nothing, List.nil_append], sizes⟩
      rw [slicesLoop, Particle.data_none (by omega), Except.ok_bind, run, Except.ok_bind]
      rfl
    · refine ⟨(p.content, p.len) :: v, ?_, by rw [List.map_cons, List.flatten_cons, whole, chainContent_cons], ?_⟩
      · rw [slicesLoop, Particle.data_some inBounds (by omega), Except.ok_bind, run, Except.ok_bind]
        rfl
      · exact List.forall_mem_cons.mpr ⟨size.symm, sizes⟩

end Packet

end R2
