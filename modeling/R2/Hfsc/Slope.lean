import R2.Hfsc.Curves

namespace R2

theorem segY2x_ok {y ism x : Nat} (run : segY2x y ism = .ok x) (finite : ism ≠ htInfinity) : x = y * ism / 1024 := by
  unfold segY2x at run
  split at run
  · rename_i zero
    cases Except.ok.inj run
    simp [zero]
  · obtain ⟨upper, atUpper, run⟩ := Except.bind_ok_iff.mp run
    obtain ⟨lower, atLower, run⟩ := Except.bind_ok_iff.mp run
    obtain ⟨_, rfl⟩ := mul64_ok.mp atUpper
    obtain ⟨_, rfl⟩ := mul64_ok.mp atLower
    obtain ⟨_, rfl⟩ := add64_ok.mp run
    -- the word splits at bit `ismShift`
    have low : y &&& ismMask = y % 1024 := Nat.and_two_pow_sub_one_eq_mod y ismShift
    have whole : y * ism = 1024 * (y / 1024 * ism) + y % 1024 * ism := by
      conv_lhs => rw [← Nat.div_add_mod y 1024, Nat.add_mul, Nat.mul_assoc]
    have shifted (n : Nat) : n >>> ismShift = n / 1024 := Nat.shiftRight_eq_div_pow n ismShift
    rw [shifted, shifted, low, whole, Nat.mul_add_div (by omega)]

theorem m2ism_finite {m : Nat} (pos : 0 < m) : m2ism m ≠ htInfinity := by
  have bound : shl64 hfscFreq ismShift * 8 / m ≤ shl64 hfscFreq ismShift * 8 := Nat.div_le_self _ _
  have small : shl64 hfscFreq ismShift * 8 < htInfinity := by decide
  unfold m2ism
  rw [if_neg (by omega)]
  omega

theorem m2sm_zero : m2sm 0 = 0 := by decide

/-- The internal curve of a single slope. -/
theorem sc2isc_single {m2 : Nat} {isc : InternalSc} (run : sc2isc ⟨0, 0, m2⟩ = .ok isc) :
    isc = ⟨m2sm 0, m2ism 0, 0, 0, m2sm m2, m2ism m2⟩ := by
  obtain ⟨dx, atDx, run⟩ := Except.bind_ok_iff.mp run
  obtain ⟨dy, atDy, run⟩ := Except.bind_ok_iff.mp run
  have zero : d2dx 0 = .ok 0 := rfl
  have flat : segX2y 0 (m2sm 0) = .ok 0 := rfl
  rw [zero] at atDx
  cases atDx
  rw [flat] at atDy
  cases atDy
  exact (Except.ok.inj run).symm

/-- A runtime curve that is a straight line. -/
structure RuntimeSc.Line (f : RuntimeSc) (ism : Nat) : Prop where
  dx : f.dx = 0
  dy : f.dy = 0
  slope : f.ism2 = ism
  finite : ism ≠ htInfinity

theorem RuntimeSc.Line.rtscY2x {f : RuntimeSc} {ism y x : Nat} (line : f.Line ism) (run : R2.rtscY2x f y = .ok x) :
    x = f.x + (y - f.y) * ism / 1024 := by
  obtain ⟨dx, dy, slope, finite⟩ := line
  unfold R2.rtscY2x at run
  split at run
  · cases Except.ok.inj run
    simp [show y - f.y = 0 by omega]
  · obtain ⟨top, atTop, run⟩ := Except.bind_ok_iff.mp run
    obtain ⟨_, rfl⟩ := add64_ok.mp atTop
    split at run
    · obtain ⟨_, rfl⟩ := add64_ok.mp run
      simp [dx, show y - f.y = 0 by omega]
    · obtain ⟨start, atStart, run⟩ := Except.bind_ok_iff.mp run
      obtain ⟨seg, atSeg, run⟩ := Except.bind_ok_iff.mp run
      obtain ⟨_, rfl⟩ := add64_ok.mp atStart
      obtain ⟨_, rfl⟩ := add64_ok.mp run
      rw [slope, dy, Nat.sub_zero] at atSeg
      rw [segY2x_ok atSeg finite, dx, Nat.add_zero]

/-- From the origin a line is the inverse slope itself, and it overflows no
later. -/
theorem RuntimeSc.Line.segY2x {f : RuntimeSc} {ism y x : Nat} (line : f.Line ism) (origin : f.x = 0 ∧ f.y = 0)
    (run : R2.rtscY2x f y = .ok x) : R2.segY2x y ism = .ok x := by
  obtain ⟨dx, dy, slope, _⟩ := line
  obtain ⟨x0, y0⟩ := origin
  unfold R2.rtscY2x at run
  rw [if_neg (by omega), y0, dy, x0, dx] at run
  obtain ⟨top, atTop, run⟩ := Except.bind_ok_iff.mp run
  obtain ⟨_, rfl⟩ := add64_ok.mp atTop
  split at run
  · rename_i low
    rw [if_pos rfl] at run
    obtain ⟨_, rfl⟩ := add64_ok.mp run
    rw [R2.segY2x, if_pos (by omega)]
  · obtain ⟨start, atStart, run⟩ := Except.bind_ok_iff.mp run
    obtain ⟨seg, atSeg, run⟩ := Except.bind_ok_iff.mp run
    obtain ⟨_, rfl⟩ := add64_ok.mp atStart
    obtain ⟨_, rfl⟩ := add64_ok.mp run
    rw [slope] at atSeg
    simpa using atSeg

/-- Rounding down costs less than one. -/
theorem div_add_le (a b m : Nat) : (a + b) * m / 1024 ≤ a * m / 1024 + b * m / 1024 + 1 := by
  rw [Nat.add_mul]
  omega

/-- A convex curve that is met again either stays as it is or starts over at
the given point. -/
theorem rtscMin_convex {f g : RuntimeSc} {isc : InternalSc} {x y : Nat} (convex : isc.sm1 ≤ isc.sm2)
    (run : rtscMin f isc x y = .ok g) : ∃ y1, rtscX2y f x = .ok y1 ∧
      (y1 < y ∧ g = f ∨ y ≤ y1 ∧ g = { f with x := x, y := y }) := by
  unfold rtscMin at run
  rw [if_pos convex] at run
  obtain ⟨y1, atY, run⟩ := Except.bind_ok_iff.mp run
  refine ⟨y1, atY, ?_⟩
  split at run
  · exact Or.inl ⟨‹_›, (Except.ok.inj run).symm⟩
  · exact Or.inr ⟨by omega, (Except.ok.inj run).symm⟩

end R2
