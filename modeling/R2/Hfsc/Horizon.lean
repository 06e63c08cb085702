import R2.Hfsc.Minimum
import R2.Hfsc.Class

namespace R2

/-- Half of the `u64` range, less the longest first piece: two such times and a first piece
still fit. -/
def horizon : Nat := 2 ^ 63 - 2 ^ 52

theorem horizon_add : horizon + 2 ^ 52 = 2 ^ 63 := rfl

theorem horizon_pos : 0 < horizon := by decide

attribute [irreducible] horizon

/-- A slope and its inverse, both rounded down. -/
def Inverse (sm ism : Nat) : Prop := sm = 0 ∧ ism = htInfinity ∨ ism < 2 ^ 43 ∧ sm * ism ≤ 2 ^ 34

theorem finite_of_lt {ism : Nat} (bound : ism < 2 ^ 43) : ism ≠ htInfinity := by
  rintro rfl
  exact absurd bound (by decide)

theorem Inverse.bounds {sm ism : Nat} (inverse : Inverse sm ism) (finite : ism ≠ htInfinity) :
    ism < 2 ^ 43 ∧ sm * ism ≤ 2 ^ 34 := inverse.resolve_left fun infinite => finite infinite.2

theorem m2sm_eq {m : Nat} (small : m < 2 ^ 31) : m2sm m = m * 2 ^ 24 / 8 / 10 ^ 9 := by
  rw [m2sm, shl64, Nat.shiftLeft_eq]
  exact congrArg (· / 8 / 10 ^ 9) (Nat.mod_eq_of_lt (show m * 2 ^ 24 < 2 ^ 64 by omega))

theorem m2sm_lt {m : Nat} (small : m < 2 ^ 31) : m2sm m < 2 ^ 23 := by
  rw [m2sm_eq small]
  omega

/-- The shift of a rate may lose bits, which makes the slope smaller. -/
theorem m2sm_le (m : Nat) : m2sm m * (8 * 10 ^ 9) ≤ m * 2 ^ 24 := by
  have kept : shl64 m smShift ≤ m * 2 ^ 24 := (Nat.mod_le ..).trans (Nat.shiftLeft_eq m smShift).le
  have slope : m2sm m = shl64 m smShift / 8 / 10 ^ 9 := rfl
  omega

theorem inverse (m : Nat) : Inverse (m2sm m) (m2ism m) := by
  rcases Nat.eq_zero_or_pos m with rfl | pos
  · exact Or.inl ⟨m2sm_zero, rfl⟩
  · have ism : m2ism m = 8192 * 10 ^ 9 / m := by
      rw [m2ism, if_neg (by omega)]
      rfl
    have low := Nat.div_mul_le_self (8192 * 10 ^ 9) m
    have high := m2sm_le m
    rw [← ism] at low
    refine Or.inr ⟨?_, ?_⟩
    · rw [ism]
      exact (Nat.div_le_self _ _).trans_lt (by decide)
    · have both := Nat.mul_le_mul high low
      have whole : m * (m2sm m * m2ism m * (8 * 10 ^ 9)) ≤ m * (2 ^ 24 * (8192 * 10 ^ 9)) := by
        calc m * (m2sm m * m2ism m * (8 * 10 ^ 9)) = m2sm m * (8 * 10 ^ 9) * (m2ism m * m) := by ring
          _ ≤ m * 2 ^ 24 * (8192 * 10 ^ 9) := both
          _ = m * (2 ^ 24 * (8192 * 10 ^ 9)) := by ring
      have least := Nat.le_of_mul_le_mul_left whole pos
      omega

/-- The internal curves of rates and times that fit in an `i32`. -/
structure InternalSc.Small (isc : InternalSc) : Prop where
  cut : isc.Cut
  dx : isc.dx < 2 ^ 51
  sm1 : isc.sm1 < 2 ^ 23
  sm2 : isc.sm2 < 2 ^ 23
  first : Inverse isc.sm1 isc.ism1
  second : Inverse isc.sm2 isc.ism2

/-- Rates and times that fit in an `i32`. -/
def Sc.Small (sc : Sc) : Prop := sc.m1 < 2 ^ 31 ∧ sc.d < 2 ^ 31 ∧ sc.m2 < 2 ^ 31

theorem segX2y_noOverflow {x sm : Nat} (word : x < 2 ^ 64) (small : sm < 2 ^ 23) :
    NoOverflow (segX2y x sm) (fun y => y = x * sm / 2 ^ 24) := by
  have shifted (n : Nat) : n >>> smShift = n / 2 ^ 24 := Nat.shiftRight_eq_div_pow n smShift
  have low : x &&& smMask = x % 2 ^ 24 := Nat.and_two_pow_sub_one_eq_mod x smShift
  have upper : (x >>> smShift) * sm ≤ 2 ^ 40 * 2 ^ 23 := by
    rw [shifted]
    exact Nat.mul_le_mul (by omega) small.le
  have lower : (x &&& smMask) * sm ≤ 2 ^ 24 * 2 ^ 23 := by
    rw [low]
    exact Nat.mul_le_mul (by omega) small.le
  have total : (x >>> smShift) * sm + ((x &&& smMask) * sm) >>> smShift < 2 ^ 64 := by
    rw [shifted ((x &&& smMask) * sm)]
    omega
  have value : segX2y x sm = .ok ((x >>> smShift) * sm + ((x &&& smMask) * sm) >>> smShift) := by
    rw [segX2y, mul64_ok.mpr ⟨by omega, rfl⟩, mul64_ok.mpr ⟨by omega, rfl⟩]
    exact add64_ok.mpr ⟨total, rfl⟩
  rw [value]
  exact segX2y_ok value

theorem segY2x_noOverflow {y ism : Nat} (finite : ism ≠ htInfinity) (small : ism < 2 ^ 43)
    (fits : y * ism / 1024 < 2 ^ 64) : NoOverflow (segY2x y ism) (fun x => x = y * ism / 1024) := by
  have shifted (n : Nat) : n >>> ismShift = n / 1024 := Nat.shiftRight_eq_div_pow n ismShift
  have low : y &&& ismMask = y % 1024 := Nat.and_two_pow_sub_one_eq_mod y ismShift
  have whole : y * ism = 1024 * (y / 1024 * ism) + y % 1024 * ism := by
    conv_lhs => rw [← Nat.div_add_mod y 1024, Nat.add_mul, Nat.mul_assoc]
  have lower : y % 1024 * ism ≤ 2 ^ 10 * 2 ^ 43 := Nat.mul_le_mul (by omega) small.le
  by_cases none : y = 0
  · rw [segY2x, if_pos none, none, Nat.zero_mul]
    exact rfl
  · have value : segY2x y ism = .ok ((y >>> ismShift) * ism + ((y &&& ismMask) * ism) >>> ismShift) := by
      rw [segY2x, if_neg none, if_neg finite, mul64_ok.mpr ⟨by rw [shifted]; omega, rfl⟩,
        mul64_ok.mpr ⟨by rw [low]; omega, rfl⟩]
      refine add64_ok.mpr ⟨?_, rfl⟩
      rw [shifted, shifted, low]
      omega
    rw [value]
    exact segY2x_ok value finite

theorem sc2isc_noOverflow {sc : Sc} (small : sc.Small) : NoOverflow (sc2isc sc) InternalSc.Small := by
  obtain ⟨m1, d, m2⟩ := small
  have word : sc.d * hfscFreq < 2 ^ 64 := by
    unfold hfscFreq
    omega
  have dx : sc.d * hfscFreq / 1000 < 2 ^ 51 := by
    unfold hfscFreq
    omega
  have returns : NoOverflow (sc2isc sc) (fun _ => True) := by
    have scaled : NoOverflow (d2dx sc.d) (fun x => x = sc.d * hfscFreq / 1000) :=
      (mul64_noOverflow word).bind fun _ scaled => congrArg (· / 1000) scaled
    refine scaled.bind fun x isDx => ?_
    subst isDx
    exact (segX2y_noOverflow (by omega) (m2sm_lt m1)).bind fun _ _ => trivial
  refine returns.with_run.mono fun isc both => ?_
  obtain ⟨made, _⟩ := both
  have cut := sc2isc_cut made
  obtain ⟨x, atDx, made⟩ := Except.bind_ok_iff.mp made
  obtain ⟨y, _, made⟩ := Except.bind_ok_iff.mp made
  obtain ⟨_, scaled, atDx⟩ := Except.bind_ok_iff.mp atDx
  obtain ⟨_, rfl⟩ := mul64_ok.mp scaled
  cases Except.ok.inj atDx
  cases Except.ok.inj made
  exact ⟨cut, dx, m2sm_lt m1, m2sm_lt m2, inverse _, inverse _⟩

/-- A runtime curve that calls of `rtsc_min` with `isc` have left, none at more than `work`. -/
structure Fitted (isc : InternalSc) (f : RuntimeSc) (work : Nat) : Prop where
  lowered : Lowered isc f f.x
  ism1 : f.ism1 = isc.ism1
  ism2 : f.ism2 = isc.ism2
  behind : f.y ≤ work

namespace Fitted

variable {isc : InternalSc} {f g : RuntimeSc} {w w' x y : Nat}

theorem init (cut : isc.Cut) : Fitted isc (runtimeInit isc 0 0) w :=
  ⟨Lowered.start isc cut 0 0, rfl, rfl, Nat.zero_le w⟩

theorem mono (fitted : Fitted isc f w) (le : w ≤ w') : Fitted isc f w' :=
  { fitted with behind := fitted.behind.trans le }

/-- The start may move to an earlier time. -/
theorem moved (fitted : Fitted isc f w) (x : Nat) : Fitted isc { f with x := x } w :=
  ⟨⟨le_rfl, fitted.lowered.sm1, fitted.lowered.sm2, fitted.lowered.cut, fitted.lowered.straight,
    fitted.lowered.excess⟩, fitted.ism1, fitted.ism2, fitted.behind⟩

theorem dx_lt (fitted : Fitted isc f w) (small : isc.Small) : f.dx < 2 ^ 52 := by
  have dx := small.dx
  rcases Nat.lt_or_ge isc.sm2 isc.sm1 with concave | convex
  · have most := le_of_excess (by omega) fitted.lowered.excess
    omega
  · have same := fitted.lowered.straight (Or.inl convex)
    omega

theorem dy_lt (fitted : Fitted isc f w) (small : isc.Small) : f.dy < 2 ^ 51 := by
  have dx := fitted.dx_lt small
  have cut : f.dy = f.dx * f.sm1 / 2 ^ 24 := fitted.lowered.cut
  have sm1 := small.sm1
  rw [← fitted.lowered.sm1] at sm1
  have least := Nat.mul_lt_mul'' dx sm1
  omega

/-- An inverse slope that goes with the first one takes no longer than the first piece. -/
theorem piece_le (fitted : Fitted isc f w) {ism n : Nat} (bound : f.sm1 * ism ≤ 2 ^ 34) (early : n ≤ f.dy) :
    n * ism / 1024 ≤ f.dx := by
  have cut : f.dy = f.dx * f.sm1 / 2 ^ 24 := fitted.lowered.cut
  exact inverse_le_of_le bound (cut ▸ early)

theorem first_le (fitted : Fitted isc f w) (small : isc.Small) (some : f.dy ≠ 0) {n : Nat} (early : n ≤ f.dy) :
    f.ism1 ≠ htInfinity ∧ f.ism1 < 2 ^ 43 ∧ n * f.ism1 / 1024 ≤ f.dx := by
  have first := small.first
  rw [← fitted.lowered.sm1, ← fitted.ism1] at first
  rcases first with ⟨zero, _⟩ | ⟨finite, bound⟩
  · have cut : f.dy = f.dx * f.sm1 / 2 ^ 24 := fitted.lowered.cut
    rw [zero, Nat.mul_zero, Nat.zero_div] at cut
    exact absurd cut some
  · exact ⟨finite_of_lt finite, finite, fitted.piece_le bound early⟩

end Fitted

namespace RuntimeSc

/-- The time at which the inverse slopes reach `w`, for a finite second slope. -/
def reach (f : RuntimeSc) (w : Nat) : Nat :=
  if w < f.y then
    f.x
  else if w ≤ f.y + f.dy then
    if f.dy = 0 then f.x + f.dx else f.x + (w - f.y) * f.ism1 / 1024
  else
    f.x + f.dx + (w - f.y - f.dy) * f.ism2 / 1024

/-- The curve reaches `w` before the horizon. -/
def Reaches (f : RuntimeSc) (w : Nat) : Prop :=
  w ≤ f.y + f.dy ∨ f.ism2 ≠ htInfinity ∧ f.x + f.dx + (w - f.y - f.dy) * f.ism2 / 1024 < horizon

/-- The inverse slopes do not reach `w` before `t`. -/
def Lasts (f : RuntimeSc) (w t : Nat) : Prop := f.ism2 = htInfinity ∧ f.y + f.dy < w ∨ t ≤ f.reach w

instance (f : RuntimeSc) (w : Nat) : Decidable (f.Reaches w) := inferInstanceAs (Decidable (_ ∨ _))

instance (f : RuntimeSc) (w t : Nat) : Decidable (f.Lasts w t) := inferInstanceAs (Decidable (_ ∨ _))

theorem reach_mono (f : RuntimeSc) (first : ∀ n, f.dy ≠ 0 → n ≤ f.dy → n * f.ism1 / 1024 ≤ f.dx) {w w' : Nat}
    (le : w ≤ w') : f.reach w ≤ f.reach w' := by
  have slower := Nat.mul_le_mul_right f.ism1 (show w - f.y ≤ w' - f.y by omega)
  have later := Nat.mul_le_mul_right f.ism2 (show w - f.y - f.dy ≤ w' - f.y - f.dy by omega)
  unfold reach
  by_cases before : w < f.y
  · rw [if_pos before]
    split
    · exact le_rfl
    · split
      · split <;> omega
      · omega
  · rw [if_neg before, if_neg (show ¬w' < f.y by omega)]
    by_cases early : w ≤ f.y + f.dy
    · rw [if_pos early]
      by_cases none : f.dy = 0
      · rw [if_pos none, if_pos none]
        split <;> omega
      · have corner := first (w - f.y) none (by omega)
        rw [if_neg none, if_neg none]
        split <;> omega
    · rw [if_neg early, if_neg (show ¬w' ≤ f.y + f.dy by omega)]
      omega

theorem Reaches.mono {f : RuntimeSc} {w w' : Nat} (reaches : f.Reaches w') (le : w ≤ w') : f.Reaches w := by
  rcases reaches with early | ⟨finite, bound⟩
  · exact Or.inl (le.trans early)
  · have least := Nat.mul_le_mul_right f.ism2 (show w - f.y - f.dy ≤ w' - f.y - f.dy by omega)
    exact Or.inr ⟨finite, by omega⟩

end RuntimeSc

namespace Fitted

variable {isc : InternalSc} {f g : RuntimeSc} {w w' x y t : Nat}

theorem reach_mono (fitted : Fitted isc f y) (small : isc.Small) (le : w ≤ w') : f.reach w ≤ f.reach w' :=
  f.reach_mono (fun _ some early => (fitted.first_le small some early).2.2) le

theorem reach_lt (fitted : Fitted isc f y) (small : isc.Small) (start : f.x < horizon) (reaches : f.Reaches w) :
    f.reach w < 2 ^ 63 := by
  have dx := fitted.dx_lt small
  have far := horizon_add
  unfold RuntimeSc.reach
  split
  · omega
  · split
    · split
      · omega
      · rename_i some
        have corner := (fitted.first_le small some (show w - f.y ≤ f.dy by omega)).2.2
        omega
    · rcases reaches with early | ⟨_, bound⟩
      · omega
      · omega

theorem rtscY2x (fitted : Fitted isc f y) (small : isc.Small) (work : f.y < 2 ^ 63) (start : f.x < horizon)
    (reaches : f.Reaches w) : NoOverflow (rtscY2x f w) (fun x => x = f.reach w) := by
  have dx := fitted.dx_lt small
  have dy := fitted.dy_lt small
  have lt := fitted.reach_lt small start reaches
  unfold RuntimeSc.reach at lt ⊢
  unfold R2.rtscY2x
  split
  · exact rfl
  · rename_i notBefore
    rw [if_neg notBefore] at lt
    rw [add64_ok.mpr ⟨by omega, rfl⟩, Except.ok_bind]
    split
    · rename_i early
      rw [if_pos early] at lt
      split
      · rename_i none
        rw [if_pos none] at lt
        exact add64_noOverflow (by omega)
      · rename_i some
        rw [if_neg some] at lt
        obtain ⟨finite, bound, corner⟩ := fitted.first_le small some (show w - f.y ≤ f.dy by omega)
        refine (segY2x_noOverflow finite bound (by omega)).bind fun seg isSeg => ?_
        subst isSeg
        exact add64_noOverflow (by omega)
    · rename_i late
      rw [if_neg late] at lt
      rcases reaches with early | ⟨finite, _⟩
      · exact absurd early late
      · have bound := (small.second.bounds (fitted.ism2 ▸ finite)).1
        rw [← fitted.ism2] at bound
        rw [add64_ok.mpr ⟨by omega, rfl⟩, Except.ok_bind]
        refine (segY2x_noOverflow finite bound (by omega)).bind fun seg isSeg => ?_
        subst isSeg
        exact add64_noOverflow (by omega)

/-- What lasts to `t` is reached no earlier. -/
theorem lasts_reach (fitted : Fitted isc f y) (small : isc.Small) (lasts : f.Lasts w t) (le : w ≤ w')
    (reaches : f.Reaches w') : t ≤ f.reach w' := by
  rcases lasts with ⟨infinite, past⟩ | least
  · rcases reaches with early | ⟨finite, _⟩
    · omega
    · exact absurd infinite finite
  · exact least.trans (fitted.reach_mono small le)

theorem lasts_mono (fitted : Fitted isc f y) (small : isc.Small) (lasts : f.Lasts w t) (le : w ≤ w') :
    f.Lasts w' t := by
  rcases lasts with ⟨infinite, past⟩ | least
  · exact Or.inl ⟨infinite, past.trans_le le⟩
  · exact Or.inr (least.trans (fitted.reach_mono small le))

theorem rtscX2y (fitted : Fitted isc f y) (small : isc.Small) (work : y < 2 ^ 62) (word : x < 2 ^ 64)
    (room : f.x < x → f.x + 2 ^ 52 ≤ 2 ^ 64) : NoOverflow (rtscX2y f x) (fun _ => True) := by
  have dx := fitted.dx_lt small
  have dy := fitted.dy_lt small
  have behind := fitted.behind
  have sm1 := small.sm1
  have sm2 := small.sm2
  rw [← fitted.lowered.sm1] at sm1
  rw [← fitted.lowered.sm2] at sm2
  have gain {n sm : Nat} (word : n < 2 ^ 64) (bound : sm < 2 ^ 23) : n * sm / 2 ^ 24 ≤ 2 ^ 63 := by
    have most := Nat.mul_le_mul word.le bound.le
    omega
  refine Ensures.ite (fun _ => trivial) fun after => ?_
  have space := room (by omega)
  rw [add64_ok.mpr ⟨by omega, rfl⟩, Except.ok_bind]
  refine Ensures.ite (fun _ => ?_) fun _ => ?_
  · refine (segX2y_noOverflow (by omega) sm1).bind fun seg isSeg => ?_
    have most := gain (show x - f.x < 2 ^ 64 by omega) sm1
    exact (add64_noOverflow (by omega)).mono fun _ _ => trivial
  · rw [add64_ok.mpr ⟨by omega, rfl⟩, Except.ok_bind]
    refine (segX2y_noOverflow (by omega) sm2).bind fun seg isSeg => ?_
    have most := gain (show x - f.x - f.dx < 2 ^ 64 by omega) sm2
    exact (add64_noOverflow (by omega)).mono fun _ _ => trivial

/-- Before its start a curve does not get lower. -/
theorem start_le (fitted : Fitted isc f y) {y1 : Nat} (atY1 : R2.rtscX2y f x = .ok y1) (above : y < y1) :
    f.x ≤ x := by
  have behind := fitted.behind
  by_contra before
  rw [R2.rtscX2y, if_pos (by omega)] at atY1
  cases atY1
  omega

theorem min (fitted : Fitted isc f y) (cut : isc.Cut) (run : R2.rtscMin f isc x y = .ok g) :
    Fitted isc g y ∧ (g = f ∨ g.x = x) := by
  rcases Nat.lt_or_ge isc.sm2 isc.sm1 with concave | convex
  · by_cases after : f.x ≤ x
    · have left := fitted.lowered.min cut after run
      obtain ⟨y1, atY1, ⟨_, rfl⟩ | ⟨_, y2, atY2, ⟨_, rfl⟩ | ⟨_, rfl⟩⟩⟩ := rtscMin_concave after concave run
      · exact ⟨fitted, Or.inl rfl⟩
      · exact ⟨⟨left, fitted.ism1, fitted.ism2, le_rfl⟩, Or.inr rfl⟩
      · exact ⟨⟨left, fitted.ism1, fitted.ism2, le_rfl⟩, Or.inr rfl⟩
    · unfold R2.rtscMin at run
      rw [if_neg (by omega), R2.rtscX2y, if_pos (by omega), Except.ok_bind, if_pos fitted.behind] at run
      exact ⟨Except.ok.inj run ▸ fitted, Or.inl (Except.ok.inj run).symm⟩
  · obtain ⟨y1, _, ⟨_, rfl⟩ | ⟨_, rfl⟩⟩ := rtscMin_convex convex run
    · exact ⟨fitted, Or.inl rfl⟩
    · have lowered := fitted.lowered
      exact ⟨⟨⟨le_rfl, lowered.sm1, lowered.sm2, lowered.cut, lowered.straight, lowered.excess⟩, fitted.ism1,
        fitted.ism2,
        le_rfl⟩, Or.inr rfl⟩

theorem rtscMin (fitted : Fitted isc f y) (small : isc.Small) (work : y < 2 ^ 62) (room : x + 2 ^ 52 ≤ 2 ^ 64) :
    NoOverflow (R2.rtscMin f isc x y) (fun g => Fitted isc g y ∧ (g = f ∨ g.x = x)) := by
  have dx := fitted.dx_lt small
  have dx' := small.dx
  have sm1 := small.sm1
  have dy' : isc.dy < 2 ^ 62 := by
    rw [show isc.dy = _ from small.cut]
    have most := Nat.mul_lt_mul'' dx' sm1
    omega
  suffices returns : NoOverflow (R2.rtscMin f isc x y) (fun _ => True) from
    returns.with_run.mono fun g both => fitted.min small.cut both.1
  unfold R2.rtscMin
  refine Ensures.ite (fun _ => ?_) fun concave => ?_
  · refine (fitted.rtscX2y small work (by omega) (by omega)).bind fun y1 _ => ?_
    exact Ensures.ite (fun _ => trivial) fun _ => trivial
  · refine (fitted.rtscX2y small work (by omega) (by omega)).with_run.bind fun y1 both => ?_
    obtain ⟨atY1, _⟩ := both
    refine Ensures.ite (fun _ => trivial) fun above => ?_
    have after := fitted.start_le atY1 (by omega)
    rw [add64_ok.mpr ⟨by omega, rfl⟩, Except.ok_bind]
    refine (fitted.rtscX2y small work (by omega) (by omega)).with_run.bind fun y2 both => ?_
    obtain ⟨atY2, _⟩ := both
    rw [add64_ok.mpr ⟨by omega, rfl⟩, Except.ok_bind]
    refine Ensures.ite (fun _ => trivial) fun below => ?_
    obtain ⟨_, _, excess⟩ := (fitted.lowered.later after).cross small.cut (by omega) atY1
      (show y < y1 by omega) atY2 (by omega)
    have most := le_of_excess (by omega) excess
    unfold crossDx at most
    have offset : NoOverflow (addFirstSegment f x (shl64 (y1 - y) smShift / (isc.sm1 - isc.sm2)))
        (fun d => d < 2 ^ 64) := by
      unfold addFirstSegment
      rw [add64_ok.mpr ⟨by omega, rfl⟩, Except.ok_bind]
      refine Ensures.ite (fun _ => ?_) fun _ => ?_
      · exact (add64_noOverflow (by omega)).mono fun d sum => by omega
      · exact show _ < 2 ^ 64 by omega
    exact offset.bind fun d word => (segX2y_noOverflow word sm1).bind fun _ _ => trivial

/-- The distance of two curves that cross is less than the burst of the new one. -/
theorem shiftFits (fitted : Fitted isc f y) (burst : isc.sm2 < isc.sm1 → isc.dy ≤ 2 ^ 40) (x : Nat) :
    ShiftFits f isc x y := by
  intro y1 y2 concave atY1 atY2 above below
  have order := RuntimeSc.mono fitted.lowered.cut (Nat.le_add_right x isc.dx) atY1 atY2
  have least := burst concave
  omega

/-- The second slope of a convex curve, from its start. -/
theorem convex_line (fitted : Fitted isc f y) (small : isc.Small) (convex : isc.sm1 ≤ isc.sm2)
    (start : f.x < horizon) (reaches : f.Reaches w) (after : f.y < w) :
    f.ism2 ≠ htInfinity ∧ f.ism2 < 2 ^ 43 ∧ f.x + (w - f.y) * f.ism2 / 1024 ≤ 2 ^ 63 := by
  have dx := fitted.dx_lt small
  have cut : f.dy = f.dx * f.sm1 / 2 ^ 24 := fitted.lowered.cut
  have far := horizon_add
  have finite : f.ism2 ≠ htInfinity := by
    intro infinite
    have zero : f.sm1 = 0 := by
      have sm1 := fitted.lowered.sm1
      rcases small.second with ⟨none, _⟩ | ⟨bound, _⟩
      · omega
      · exact absurd (fitted.ism2 ▸ infinite) (finite_of_lt bound)
    rw [zero, Nat.mul_zero, Nat.zero_div] at cut
    rcases reaches with early | ⟨finite, _⟩
    · omega
    · exact finite infinite
  obtain ⟨bound, product⟩ := small.second.bounds (fitted.ism2 ▸ finite)
  rw [← fitted.ism2] at bound product
  have product : f.sm1 * f.ism2 ≤ 2 ^ 34 := by
    rw [fitted.lowered.sm1]
    exact (Nat.mul_le_mul_right _ convex).trans product
  refine ⟨finite, bound, ?_⟩
  by_cases early : w - f.y ≤ f.dy
  · have piece := fitted.piece_le product early
    omega
  · have piece := fitted.piece_le product (le_refl f.dy)
    have sum := div_add_le f.dy (w - f.y - f.dy) f.ism2
    rw [Nat.add_sub_cancel' (show f.dy ≤ w - f.y by omega)] at sum
    rcases reaches with early | ⟨_, past⟩
    · omega
    · omega

/-- The eligible time is read off no later than the deadline of the next packet. -/
theorem eligible {e : RuntimeSc} (fitted : Fitted isc f y) (small : isc.Small) (work : f.y < 2 ^ 63)
    (start : f.x < horizon) (reaches : f.Reaches w') (le : w ≤ w') (curve : e = Class.eligibleCurve isc f ∨ e = f) :
    NoOverflow (R2.rtscY2x e w) (fun _ => True) := by
  have reaches := reaches.mono le
  have whole : NoOverflow (R2.rtscY2x f w) (fun _ => True) :=
    (fitted.rtscY2x small work start reaches).mono fun _ _ => trivial
  have room := horizon_add
  rcases curve with rfl | rfl
  · unfold Class.eligibleCurve
    split
    · rename_i convex
      unfold R2.rtscY2x
      refine Ensures.ite (fun _ => trivial) fun after => ?_
      rw [add64_ok.mpr ⟨show f.y + 0 < 2 ^ 64 by omega, rfl⟩, Except.ok_bind]
      refine Ensures.ite (fun _ => Ensures.ite (fun _ => ?_) fun some => absurd rfl some) fun late => ?_
      · exact (add64_noOverflow (show f.x + 0 < 2 ^ 64 by omega)).mono fun _ _ => trivial
      · obtain ⟨finite, bound, line⟩ := fitted.convex_line small convex start reaches (show f.y < w by omega)
        rw [add64_ok.mpr ⟨show f.x + 0 < 2 ^ 64 by omega, rfl⟩, Except.ok_bind]
        refine (segY2x_noOverflow finite bound
          (show (w - f.y - 0) * f.ism2 / 1024 < 2 ^ 64 by rw [Nat.sub_zero]; omega)).bind fun seg isSeg => ?_
        rw [Nat.sub_zero] at isSeg
        exact (add64_noOverflow (by omega)).mono fun _ _ => trivial
    · exact whole
  · exact whole

end Fitted

end R2
