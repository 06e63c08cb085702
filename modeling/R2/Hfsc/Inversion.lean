import R2.Hfsc.Horizon

namespace R2

/-- The curves that `runtime_init` and calls of `rtsc_min` with `isc` leave, and those that come
from one by clearing the first piece. -/
inductive Curve (isc : InternalSc) : RuntimeSc → Prop
  | init (x y : Nat) : Curve isc (runtimeInit isc x y)
  | min {f g : RuntimeSc} {x y : Nat} (earlier : Curve isc f) (run : rtscMin f isc x y = .ok g) : Curve isc g
  | clear {f : RuntimeSc} (curve : Curve isc f) : Curve isc { f with dx := 0, dy := 0 }

/-- A runtime curve with the slopes of `isc`, whose corner lies on its first piece. -/
structure Sloped (isc : InternalSc) (f : RuntimeSc) : Prop where
  sm1 : f.sm1 = isc.sm1
  ism1 : f.ism1 = isc.ism1
  sm2 : f.sm2 = isc.sm2
  ism2 : f.ism2 = isc.ism2
  cut : f.Cut

namespace Sloped

variable {isc : InternalSc} {f g : RuntimeSc} {x y dx dy : Nat}

theorem init (cut : isc.Cut) (x y : Nat) : Sloped isc (runtimeInit isc x y) := ⟨rfl, rfl, rfl, rfl, cut⟩

/-- The start may move, and the first piece may get another length. -/
theorem placed (sloped : Sloped isc f) (cut : dy = dx * isc.sm1 / 2 ^ 24) (x y : Nat) :
    Sloped isc { f with x := x, y := y, dx := dx, dy := dy } := by
  refine ⟨sloped.sm1, sloped.ism1, sloped.sm2, sloped.ism2, ?_⟩
  rw [RuntimeSc.Cut, sloped.sm1]
  exact cut

theorem clear (sloped : Sloped isc f) : Sloped isc { f with dx := 0, dy := 0 } :=
  sloped.placed (by simp) f.x f.y

/-- One call of `rtsc_min`, at any point. -/
theorem min (sloped : Sloped isc f) (cut : isc.Cut) (run : rtscMin f isc x y = .ok g) : Sloped isc g := by
  have kept : f.dy = f.dx * isc.sm1 / 2 ^ 24 := sloped.sm1 ▸ sloped.cut
  unfold rtscMin at run
  split at run
  · obtain ⟨y1, _, run⟩ := Except.bind_ok_iff.mp run
    split at run
    · exact Except.ok.inj run ▸ sloped
    · exact Except.ok.inj run ▸ sloped.placed kept x y
  · obtain ⟨y1, _, run⟩ := Except.bind_ok_iff.mp run
    split at run
    · exact Except.ok.inj run ▸ sloped
    · obtain ⟨_, _, run⟩ := Except.bind_ok_iff.mp run
      obtain ⟨_, _, run⟩ := Except.bind_ok_iff.mp run
      obtain ⟨_, _, run⟩ := Except.bind_ok_iff.mp run
      split at run
      · exact Except.ok.inj run ▸ sloped.placed cut x y
      · -- the crossing computes its own corner
        obtain ⟨dx, _, run⟩ := Except.bind_ok_iff.mp run
        obtain ⟨dy, atDy, run⟩ := Except.bind_ok_iff.mp run
        exact Except.ok.inj run ▸ sloped.placed (segX2y_ok atDy) x y

end Sloped

theorem Curve.sloped {isc : InternalSc} {f : RuntimeSc} (cut : isc.Cut) (curve : Curve isc f) : Sloped isc f := by
  induction curve with
  | init x y => exact Sloped.init cut x y
  | min _ run ih => exact ih.min cut run
  | clear _ ih => exact ih.clear

/-- A curve whose inverse slopes go with its slopes, and that does not end flat. -/
structure RuntimeSc.Invertible (f : RuntimeSc) : Prop where
  cut : f.Cut
  first : Inverse f.sm1 f.ism1
  second : Inverse f.sm2 f.ism2
  rising : f.ism2 ≠ htInfinity

/-- `sc2isc` rounds both slopes and both inverse slopes down. -/
theorem Curve.invertible {sc : Sc} {isc : InternalSc} {f : RuntimeSc} (made : sc2isc sc = .ok isc)
    (rising : 0 < sc.m2) (curve : Curve isc f) : f.Invertible := by
  have sloped := curve.sloped (sc2isc_cut made)
  obtain ⟨dx, _, made⟩ := Except.bind_ok_iff.mp made
  obtain ⟨dy, _, made⟩ := Except.bind_ok_iff.mp made
  cases Except.ok.inj made
  obtain ⟨sm1, ism1, sm2, ism2, cut⟩ := sloped
  refine ⟨cut, ?_, ?_, ?_⟩
  · rw [sm1, ism1]
    exact inverse sc.m1
  · rw [sm2, ism2]
    exact inverse sc.m2
  · rw [ism2]
    exact m2ism_finite rising

namespace RuntimeSc.Invertible

variable {f : RuntimeSc} {w w' x x' v n : Nat}

/-- A first piece that rises has a finite inverse slope. -/
theorem first_bounds (invertible : f.Invertible) (some : f.dy ≠ 0) :
    f.ism1 ≠ htInfinity ∧ f.sm1 * f.ism1 ≤ 1024 * 2 ^ 24 := by
  rcases invertible.first with ⟨zero, _⟩ | ⟨small, bound⟩
  · have cut : f.dy = f.dx * f.sm1 / 2 ^ 24 := invertible.cut
    simp [zero] at cut
    exact absurd cut some
  · exact ⟨finite_of_lt small, bound⟩

theorem first_le (invertible : f.Invertible) (some : f.dy ≠ 0) (early : n ≤ f.dy) : n * f.ism1 / 1024 ≤ f.dx := by
  have cut : f.dy = f.dx * f.sm1 / 2 ^ 24 := invertible.cut
  exact inverse_le_of_le (invertible.first_bounds some).2 (cut ▸ early)

/-- `rtsc_y2x` returns where the inverse slopes reach `w`. -/
theorem reach_eq (invertible : f.Invertible) (run : rtscY2x f w = .ok x) : x = f.reach w := by
  unfold rtscY2x at run
  unfold RuntimeSc.reach
  split at run
  · rename_i before
    simpa [before] using (Except.ok.inj run).symm
  · rename_i notBefore
    obtain ⟨top, atTop, run⟩ := Except.bind_ok_iff.mp run
    obtain ⟨_, rfl⟩ := add64_ok.mp atTop
    rw [if_neg notBefore]
    split at run
    · rename_i early
      rw [if_pos early]
      split at run
      · rename_i none
        rw [if_pos none]
        exact (add64_ok.mp run).2
      · rename_i some
        obtain ⟨seg, atSeg, run⟩ := Except.bind_ok_iff.mp run
        rw [if_neg some, ← segY2x_ok atSeg (invertible.first_bounds some).1]
        exact (add64_ok.mp run).2
    · rename_i late
      obtain ⟨start, atStart, run⟩ := Except.bind_ok_iff.mp run
      obtain ⟨seg, atSeg, run⟩ := Except.bind_ok_iff.mp run
      obtain ⟨_, rfl⟩ := add64_ok.mp atStart
      rw [if_neg late, ← segY2x_ok atSeg invertible.rising]
      exact (add64_ok.mp run).2

theorem y2x_mono (invertible : f.Invertible) (le : w ≤ w') (run : rtscY2x f w = .ok x)
    (run' : rtscY2x f w' = .ok x') : x ≤ x' := by
  rw [invertible.reach_eq run, invertible.reach_eq run']
  exact f.reach_mono (fun _ => invertible.first_le) le

/-- The curve at the time that the inverse slopes give for `w` is not above `w`. -/
theorem not_late (invertible : f.Invertible) (above : f.y ≤ w) (run : rtscY2x f w = .ok x)
    (back : rtscX2y f x = .ok v) : v ≤ w := by
  have cut : f.dy = f.dx * f.sm1 / 2 ^ 24 := invertible.cut
  have place := invertible.reach_eq run
  rw [RuntimeSc.reach, if_neg (by omega)] at place
  rw [f.value back]
  by_cases early : w ≤ f.y + f.dy
  · rw [if_pos early] at place
    by_cases none : f.dy = 0
    · -- the whole first piece is passed at its end
      rw [if_pos none] at place
      have passed : x - f.x = f.dx := by omega
      simp only [passed, ← cut]
      split
      · exact above
      · split <;> omega
    · rw [if_neg none] at place
      have inside := invertible.first_le none (show w - f.y ≤ f.dy by omega)
      have there : x - f.x = (w - f.y) * f.ism1 / 1024 := by omega
      have trip : (w - f.y) * f.ism1 / 1024 * f.sm1 / 2 ^ 24 ≤ w - f.y :=
        round_trip_le (invertible.first_bounds none).2
      simp only [there]
      split
      · exact above
      · split <;> omega
  · rw [if_neg early] at place
    have bound : f.sm2 * f.ism2 ≤ 1024 * 2 ^ 24 := (invertible.second.bounds invertible.rising).2
    have there : x - f.x - f.dx = (w - f.y - f.dy) * f.ism2 / 1024 := by omega
    have trip : (w - f.y - f.dy) * f.ism2 / 1024 * f.sm2 / 2 ^ 24 ≤ w - f.y - f.dy := round_trip_le bound
    simp only [there]
    split
    · exact above
    · split
      · -- no time was spent on the second piece
        have passed : x - f.x = f.dx := by omega
        simp only [passed, ← cut]
        omega
      · omega

end RuntimeSc.Invertible

/-- On a curve that `runtime_init` and `rtsc_min` built from a service curve that rises in the end, `rtsc_y2x`
and `rtsc_x2y` are monotone wherever they return, and the value at the time of an amount is no more
than the amount. -/
theorem curve_inversion {sc : Sc} {isc : InternalSc} {f : RuntimeSc} (made : sc2isc sc = .ok isc) (rising : 0 < sc.m2)
    (curve : Curve isc f) :
    (∀ y y' x x', y ≤ y' → rtscY2x f y = .ok x → rtscY2x f y' = .ok x' → x ≤ x') ∧
      (∀ x x' y y', x ≤ x' → rtscX2y f x = .ok y → rtscX2y f x' = .ok y' → y ≤ y') ∧
      (∀ y x v, f.y ≤ y → rtscY2x f y = .ok x → rtscX2y f x = .ok v → v ≤ y) := by
  have invertible := curve.invertible made rising
  refine ⟨?_, ?_, ?_⟩
  · intro y y' x x' le run run'
    exact invertible.y2x_mono le run run'
  · intro x x' y y' le run run'
    exact f.mono invertible.cut le run run'
  · intro y x v above run back
    exact invertible.not_late above run back

/-- The crossing of a burst with its own curve, at 600000 bytes. -/
theorem curve_inversion_crossing :
    ∃ f, Curve burstIsc f ∧ (∀ y x v, f.y ≤ y → rtscY2x f y = .ok x → rtscX2y f x = .ok v → v ≤ y) ∧
      f.dx = 600000 ∧ rtscY2x f 900001 = .ok 2600004 ∧ rtscX2y f 2600004 = .ok 900001 := by
  have made : sc2isc burstSc = .ok burstIsc := by decide
  have run : rtscMin (runtimeInit burstIsc 0 0) burstIsc 2000000 600000 =
      .ok { runtimeInit burstIsc 2000000 600000 with dx := 600000, dy := 300000 } := by decide
  have curve := Curve.min (.init 0 0) run
  exact ⟨_, curve, (curve_inversion made (by decide) curve).2.2, rfl, by decide, by decide⟩

end R2
