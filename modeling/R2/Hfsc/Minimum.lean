import R2.Base.TwoPiece
import R2.Hfsc.Slope

namespace R2

theorem segX2y_ok {x sm y : Nat} (run : segX2y x sm = .ok y) : y = x * sm / 2 ^ 24 := by
  obtain ⟨upper, atUpper, run⟩ := Except.bind_ok_iff.mp run
  obtain ⟨lower, atLower, run⟩ := Except.bind_ok_iff.mp run
  obtain ⟨_, rfl⟩ := mul64_ok.mp atUpper
  obtain ⟨_, rfl⟩ := mul64_ok.mp atLower
  obtain ⟨_, rfl⟩ := add64_ok.mp run
  -- the word splits at bit `smShift`
  have low : x &&& smMask = x % 2 ^ 24 := Nat.and_two_pow_sub_one_eq_mod x smShift
  have whole : x * sm = 2 ^ 24 * (x / 2 ^ 24 * sm) + x % 2 ^ 24 * sm := by
    conv_lhs => rw [← Nat.div_add_mod x (2 ^ 24), Nat.add_mul, Nat.mul_assoc]
  have shifted (n : Nat) : n >>> smShift = n / 2 ^ 24 := Nat.shiftRight_eq_div_pow n smShift
  rw [shifted, shifted, low, whole, Nat.mul_add_div (by omega)]

/-- The value of a runtime curve without rounding, in units of `2 ^ -24` bytes. -/
def RuntimeSc.exact (f : RuntimeSc) (z : Nat) : Nat := 2 ^ 24 * f.y + rise f.sm1 f.sm2 f.dx (z - f.x)

/-- The corner of a curve lies on its first piece, rounded down. -/
def RuntimeSc.Cut (f : RuntimeSc) : Prop := f.dy = f.dx * f.sm1 / 2 ^ 24

namespace RuntimeSc

variable {f : RuntimeSc} {x z v : Nat}

theorem exact_add (late : f.x ≤ x) (t : Nat) :
    f.exact (x + t) = f.exact x + rise f.sm1 f.sm2 (f.dx - (x - f.x)) t := by
  rw [exact, exact, show x + t - f.x = x - f.x + t by omega, rise_add, Nat.add_assoc]

theorem value (run : rtscX2y f z = .ok v) : v =
    if z ≤ f.x then
      f.y
    else if z ≤ f.x + f.dx then
      f.y + (z - f.x) * f.sm1 / 2 ^ 24
    else
      f.y + f.dy + (z - f.x - f.dx) * f.sm2 / 2 ^ 24 := by
  unfold rtscX2y at run
  by_cases here : z ≤ f.x
  · rw [if_pos here] at run ⊢
    exact (Except.ok.inj run).symm
  · rw [if_neg here] at run ⊢
    obtain ⟨right, atRight, run⟩ := Except.bind_ok_iff.mp run
    obtain ⟨_, rfl⟩ := add64_ok.mp atRight
    by_cases early : z ≤ f.x + f.dx
    · rw [if_pos early] at run ⊢
      obtain ⟨seg, atSeg, run⟩ := Except.bind_ok_iff.mp run
      obtain ⟨_, rfl⟩ := add64_ok.mp run
      rw [segX2y_ok atSeg]
    · rw [if_neg early] at run ⊢
      obtain ⟨y, atY, run⟩ := Except.bind_ok_iff.mp run
      obtain ⟨seg, atSeg, run⟩ := Except.bind_ok_iff.mp run
      obtain ⟨_, rfl⟩ := add64_ok.mp atY
      obtain ⟨_, rfl⟩ := add64_ok.mp run
      rw [segX2y_ok atSeg]

/-- On the first piece there is one rounding, on the second there are two. -/
theorem rounded (cut : f.Cut) (late : f.x ≤ z) (run : rtscX2y f z = .ok v) :
    2 ^ 24 * v ≤ f.exact z ∧ f.exact z < 2 ^ 24 * v + 2 * 2 ^ 24 ∧
      (z ≤ f.x + f.dx → f.exact z < 2 ^ 24 * v + 2 ^ 24) := by
  have isV := value run
  unfold exact
  by_cases here : z ≤ f.x
  · rw [if_pos here] at isV
    rw [show z - f.x = 0 by omega, rise_zero]
    omega
  · rw [if_neg here] at isV
    by_cases early : z ≤ f.x + f.dx
    · rw [if_pos early] at isV
      rw [rise_first (by omega), Nat.mul_comm f.sm1]
      omega
    · rw [if_neg early, show f.dy = _ from cut] at isV
      rw [rise_second (by omega), Nat.mul_comm f.sm1, Nat.mul_comm f.sm2]
      omega

theorem mono (cut : f.Cut) {z' v' : Nat} (le : z ≤ z') (run : rtscX2y f z = .ok v) (run' : rtscX2y f z' = .ok v') :
    v ≤ v' := by
  have dy : f.dy = f.dx * f.sm1 / 2 ^ 24 := cut
  have slower := Nat.mul_le_mul_right f.sm1 (show z - f.x ≤ z' - f.x by omega)
  have later := Nat.mul_le_mul_right f.sm2 (show z - f.x - f.dx ≤ z' - f.x - f.dx by omega)
  rw [value run, value run']
  by_cases before : z ≤ f.x
  · rw [if_pos before]
    split
    · exact le_rfl
    · split <;> omega
  · rw [if_neg before, if_neg (show ¬z' ≤ f.x by omega)]
    by_cases early : z ≤ f.x + f.dx
    · have corner := Nat.mul_le_mul_right f.sm1 (show z - f.x ≤ f.dx by omega)
      rw [if_pos early]
      split <;> omega
    · rw [if_neg early, if_neg (show ¬z' ≤ f.x + f.dx by omega)]
      omega

end RuntimeSc

/-- The first piece that a crossing gives to the new curve: what is left of the old one's, and
the way from there to where the curves meet. -/
def crossDx (f : RuntimeSc) (isc : InternalSc) (x y y1 : Nat) : Nat :=
  f.dx - (x - f.x) + shl64 (y1 - y) smShift / (isc.sm1 - isc.sm2)

theorem rtscMinCross_ok {f g : RuntimeSc} {isc : InternalSc} {x y y1 : Nat} (late : f.x ≤ x)
    (run : rtscMinCross f isc x y y1 = .ok g) :
    g = { f with x := x, y := y, dx := crossDx f isc x y y1, dy := crossDx f isc x y y1 * isc.sm1 / 2 ^ 24 } := by
  obtain ⟨dx, atDx, run⟩ := Except.bind_ok_iff.mp run
  obtain ⟨dy, atDy, run⟩ := Except.bind_ok_iff.mp run
  have dx_eq : dx = crossDx f isc x y y1 := by
    unfold addFirstSegment at atDx
    obtain ⟨right, atRight, atDx⟩ := Except.bind_ok_iff.mp atDx
    obtain ⟨_, rfl⟩ := add64_ok.mp atRight
    unfold crossDx
    split at atDx
    · obtain ⟨_, rfl⟩ := add64_ok.mp atDx
      omega
    · cases Except.ok.inj atDx
      omega
  rw [← Except.ok.inj run, segX2y_ok atDy, dx_eq]

/-- What `rtsc_min` does to a concave curve. -/
theorem rtscMin_concave {f g : RuntimeSc} {isc : InternalSc} {x y : Nat} (late : f.x ≤ x)
    (concave : isc.sm2 < isc.sm1) (run : rtscMin f isc x y = .ok g) :
    ∃ y1, rtscX2y f x = .ok y1 ∧
      (y1 ≤ y ∧ g = f ∨ y < y1 ∧ ∃ y2, rtscX2y f (x + isc.dx) = .ok y2 ∧
        (y + isc.dy ≤ y2 ∧ g = { f with x := x, y := y, dx := isc.dx, dy := isc.dy } ∨
          y2 < y + isc.dy ∧
            g = { f with
              x := x, y := y, dx := crossDx f isc x y y1, dy := crossDx f isc x y y1 * isc.sm1 / 2 ^ 24 })) := by
  unfold rtscMin at run
  rw [if_neg (by omega)] at run
  obtain ⟨y1, atY1, run⟩ := Except.bind_ok_iff.mp run
  refine ⟨y1, atY1, ?_⟩
  split at run
  · exact Or.inl ⟨‹_›, (Except.ok.inj run).symm⟩
  · obtain ⟨far, atFar, run⟩ := Except.bind_ok_iff.mp run
    obtain ⟨_, rfl⟩ := add64_ok.mp atFar
    obtain ⟨y2, atY2, run⟩ := Except.bind_ok_iff.mp run
    obtain ⟨top, atTop, run⟩ := Except.bind_ok_iff.mp run
    obtain ⟨_, rfl⟩ := add64_ok.mp atTop
    refine Or.inr ⟨by omega, y2, atY2, ?_⟩
    split at run
    · exact Or.inl ⟨‹_›, (Except.ok.inj run).symm⟩
    · exact Or.inr ⟨by omega, rtscMinCross_ok late run⟩

/-- A runtime curve that calls of `rtsc_min` with `isc` have left, the last one not after `x`. -/
structure Lowered (isc : InternalSc) (f : RuntimeSc) (x : Nat) : Prop where
  late : f.x ≤ x
  sm1 : f.sm1 = isc.sm1
  sm2 : f.sm2 = isc.sm2
  cut : f.Cut
  straight : isc.sm1 ≤ isc.sm2 ∨ isc.dx = 0 → f.dx = isc.dx
  excess : (isc.sm1 - isc.sm2) * f.dx ≤ (isc.sm1 - isc.sm2) * isc.dx + 2 ^ 24

def InternalSc.Cut (isc : InternalSc) : Prop := isc.dy = isc.dx * isc.sm1 / 2 ^ 24

theorem sc2isc_cut {sc : Sc} {isc : InternalSc} (made : sc2isc sc = .ok isc) : isc.Cut := by
  obtain ⟨dx, atDx, made⟩ := Except.bind_ok_iff.mp made
  obtain ⟨dy, atDy, made⟩ := Except.bind_ok_iff.mp made
  cases Except.ok.inj made
  exact segX2y_ok atDy

namespace Lowered

variable {isc : InternalSc} {f g : RuntimeSc} {x x' y y1 y2 : Nat}

theorem later (lowered : Lowered isc f x) (le : x ≤ x') : Lowered isc f x' :=
  { lowered with late := lowered.late.trans le }

theorem exact_add (lowered : Lowered isc f x) (t : Nat) :
    f.exact (x + t) = f.exact x + rise isc.sm1 isc.sm2 (f.dx - (x - f.x)) t := by
  rw [RuntimeSc.exact_add lowered.late, lowered.sm1, lowered.sm2]

theorem start (isc : InternalSc) (cut : isc.Cut) (x y : Nat) : Lowered isc (runtimeInit isc x y) x :=
  ⟨le_rfl, rfl, rfl, cut, fun _ => rfl, Nat.le_add_right ..⟩

/-- Where the curves cross: the older one has less of its first piece left, and the new one
meets it no later than its own first piece ends, up to rounding. -/
theorem cross (lowered : Lowered isc f x) (cut : isc.Cut) (concave : isc.sm2 < isc.sm1)
    (atY1 : rtscX2y f x = .ok y1) (above : y < y1) (atY2 : rtscX2y f (x + isc.dx) = .ok y2)
    (below : y2 < y + isc.dy) : isc.dx ≠ 0 ∧
      2 ^ 24 * y + (isc.sm1 - isc.sm2) * (shl64 (y1 - y) smShift / (isc.sm1 - isc.sm2)) ≤ f.exact x ∧
      (isc.sm1 - isc.sm2) * crossDx f isc x y y1 ≤ (isc.sm1 - isc.sm2) * isc.dx + 2 ^ 24 := by
  have corner : 2 ^ 24 * isc.dy ≤ isc.sm1 * isc.dx := by
    rw [show isc.dy = _ from cut, Nat.mul_comm isc.sm1]
    exact Nat.mul_div_le ..
  have nonzero : isc.dx ≠ 0 := by
    intro zero
    rw [zero, Nat.add_zero, atY1] at atY2
    cases atY2
    rw [show isc.dy = _ from cut, zero, Nat.zero_mul, Nat.zero_div] at below
    omega
  obtain ⟨low, high, _⟩ := f.rounded lowered.cut lowered.late atY1
  have late := lowered.late
  obtain ⟨_, far, farEarly⟩ := f.rounded lowered.cut (show f.x ≤ x + isc.dx by omega) atY2
  rw [lowered.exact_add] at far farEarly
  -- on the old first piece there is only one rounding, and the curves would not cross
  have short : f.dx - (x - f.x) < isc.dx := by
    by_contra long
    have early := farEarly (by omega)
    rw [rise_first (by omega)] at early
    omega
  have meets : (isc.sm1 - isc.sm2) * (shl64 (y1 - y) smShift / (isc.sm1 - isc.sm2)) ≤ 2 ^ 24 * (y1 - y) := by
    refine (Nat.mul_div_le ..).trans ((Nat.mod_le ..).trans ?_)
    rw [Nat.shiftLeft_eq, Nat.mul_comm]
    exact le_rfl
  refine ⟨nonzero, by omega, ?_⟩
  rw [rise_concave concave.le, min_eq_right short.le] at far
  have slopes : isc.sm1 * isc.dx = isc.sm2 * isc.dx + (isc.sm1 - isc.sm2) * isc.dx := by
    rw [← Nat.add_mul]
    congr 1
    omega
  rw [crossDx, Nat.mul_add]
  omega

/-- One call of `rtsc_min`. -/
theorem min (lowered : Lowered isc f x) (cut : isc.Cut) (le : x ≤ x') (run : rtscMin f isc x' y = .ok g) :
    Lowered isc g x' := by
  have kept := lowered.later le
  have slope : f.sm1 = isc.sm1 := lowered.sm1
  rcases Nat.lt_or_ge isc.sm2 isc.sm1 with concave | convex
  · obtain ⟨y1, atY1, ⟨_, rfl⟩ | ⟨above, y2, atY2, ⟨_, rfl⟩ | ⟨below, rfl⟩⟩⟩ := rtscMin_concave kept.late concave run
    · exact kept
    · refine ⟨le_rfl, slope, lowered.sm2, ?_, fun _ => rfl, Nat.le_add_right ..⟩
      rw [RuntimeSc.Cut, slope]
      exact cut
    · obtain ⟨nonzero, _, excess⟩ := kept.cross cut concave atY1 above atY2 below
      refine ⟨le_rfl, slope, lowered.sm2, ?_, fun flat => by omega, excess⟩
      rw [RuntimeSc.Cut, slope]
  · obtain ⟨y1, _, ⟨_, rfl⟩ | ⟨_, rfl⟩⟩ := rtscMin_convex convex run
    · exact kept
    · exact ⟨le_rfl, slope, lowered.sm2, lowered.cut, lowered.straight, lowered.excess⟩

end Lowered

/-- The runtime curves that `runtime_init(isc, 0, 0)` and calls of `rtsc_min` with `isc` at points that
do not go back leave, with the last of these points. -/
inductive Runtime (isc : InternalSc) : RuntimeSc → Nat → Nat → Prop
  | init : Runtime isc (runtimeInit isc 0 0) 0 0
  | min {f g : RuntimeSc} {x y x' y' : Nat} (earlier : Runtime isc f x y) (later : x ≤ x') (above : y ≤ y')
      (run : rtscMin f isc x' y' = .ok g) : Runtime isc g x' y'

theorem Runtime.lowered {isc : InternalSc} {f : RuntimeSc} {x y : Nat} (cut : isc.Cut) (reached : Runtime isc f x y) :
    Lowered isc f x := by
  induction reached with
  | init => exact Lowered.start isc cut 0 0
  | min _ later _ run ih => exact ih.min cut later run

/-- Where the new curve crosses the old one, the shift of their distance loses no bits. -/
def ShiftFits (f : RuntimeSc) (isc : InternalSc) (x y : Nat) : Prop :=
  ∀ y1 y2, isc.sm2 < isc.sm1 → rtscX2y f x = .ok y1 → rtscX2y f (x + isc.dx) = .ok y2 → y < y1 →
    y2 < y + isc.dy → (y1 - y) * 2 ^ 24 < 2 ^ 64

namespace Lowered

variable {isc : InternalSc} {f g : RuntimeSc} {x y y1 y2 : Nat}

theorem placed (isc : InternalSc) (cut : isc.Cut) (x y t : Nat) :
    (runtimeInit isc x y).exact (x + t) = 2 ^ 24 * y + rise isc.sm1 isc.sm2 isc.dx t := by
  rw [(start isc cut x y).exact_add]
  simp [RuntimeSc.exact, runtimeInit]

/-- The old curve is lower where the new one starts, and it stays. -/
theorem near_kept (lowered : Lowered isc f x) (cut : isc.Cut) (concave : isc.sm2 < isc.sm1)
    (atY1 : rtscX2y f x = .ok y1) (le : y1 ≤ y) (t : Nat) :
    f.exact (x + t) ≤ (runtimeInit isc x y).exact (x + t) + 3 * 2 ^ 24 := by
  obtain ⟨_, high, _⟩ := f.rounded lowered.cut lowered.late atY1
  have shorter : (isc.sm1 - isc.sm2) * (f.dx - (x - f.x)) ≤ (isc.sm1 - isc.sm2) * isc.dx + 2 ^ 24 :=
    (Nat.mul_le_mul_left _ (Nat.sub_le ..)).trans lowered.excess
  have less := rise_le_of_excess (t := t) concave.le shorter
  rw [lowered.exact_add, placed isc cut]
  omega

/-- The old curve is above both ends of the new first piece, and the new one takes its place. -/
theorem near_placed (lowered : Lowered isc f x) (cut : isc.Cut) (concave : isc.sm2 < isc.sm1)
    (atY1 : rtscX2y f x = .ok y1) (above : y < y1) (atY2 : rtscX2y f (x + isc.dx) = .ok y2)
    (past : y + isc.dy ≤ y2) (t : Nat) :
    (runtimeInit isc x y).exact (x + t) ≤ f.exact (x + t) + 2 ^ 24 := by
  obtain ⟨low, _, _⟩ := f.rounded lowered.cut lowered.late atY1
  obtain ⟨far, _, _⟩ := f.rounded lowered.cut (lowered.late.trans (Nat.le_add_right x isc.dx)) atY2
  rw [lowered.exact_add] at far
  have corner : isc.sm1 * isc.dx < 2 ^ 24 * isc.dy + 2 ^ 24 := by
    rw [show isc.dy = _ from cut, Nat.mul_comm isc.sm1]
    omega
  rw [lowered.exact_add, placed isc cut]
  refine above_of_ends concave.le (by omega) ?_
  rw [rise_first le_rfl]
  omega

/-- The new curve follows its own first slope until it meets the old one. -/
theorem near_crossed (lowered : Lowered isc f x) (cut : isc.Cut) (concave : isc.sm2 < isc.sm1)
    (small : isc.sm1 < 2 ^ 24)
    (fits : (y1 - y) * 2 ^ 24 < 2 ^ 64) (atY1 : rtscX2y f x = .ok y1) (above : y < y1)
    (atY2 : rtscX2y f (x + isc.dx) = .ok y2) (below : y2 < y + isc.dy) (t : Nat) :
    NearMin (3 * 2 ^ 24) (2 ^ 24 * y + rise isc.sm1 isc.sm2 (crossDx f isc x y y1) t)
      (f.exact (x + t)) ((runtimeInit isc x y).exact (x + t)) := by
  obtain ⟨_, meets, excess⟩ := lowered.cross cut concave atY1 above atY2 below
  obtain ⟨_, high, _⟩ := f.rounded lowered.cut lowered.late atY1
  have whole : shl64 (y1 - y) smShift = 2 ^ 24 * (y1 - y) := by
    rw [shl64, Nat.shiftLeft_eq]
    exact (Nat.mod_eq_of_lt fits).trans (Nat.mul_comm ..)
  have close : f.exact x ≤ 2 ^ 24 * y +
      (isc.sm1 - isc.sm2) * (shl64 (y1 - y) smShift / (isc.sm1 - isc.sm2)) + 3 * 2 ^ 24 := by
    have quotient := Nat.lt_mul_div_succ (shl64 (y1 - y) smShift) (show 0 < isc.sm1 - isc.sm2 by omega)
    rw [Nat.mul_add, Nat.mul_one, whole] at quotient
    rw [whole]
    omega
  have old := cross_le_old (t := t) (r := f.dx - (x - f.x)) concave.le meets
  have shorter := rise_le_of_excess (t := t) concave.le excess
  have either := cross_ge (t := t) (d := isc.dx) (r := f.dx - (x - f.x)) concave.le close
  rw [lowered.exact_add, placed isc cut]
  unfold crossDx at shorter ⊢
  constructor <;> omega

/-- Curves of one slope are parallel. -/
theorem parallel (lowered : Lowered isc f x) (cut : isc.Cut) (single : isc.dx = 0 ∨ isc.sm1 = isc.sm2) (t : Nat) :
    f.exact (x + t) + 2 ^ 24 * y = (runtimeInit isc x y).exact (x + t) + f.exact x := by
  have line : rise isc.sm1 isc.sm2 (f.dx - (x - f.x)) t = isc.sm2 * t := by
    refine rise_straight (single.imp_left fun zero => ?_)
    rw [lowered.straight (Or.inr zero), zero, Nat.zero_sub]
  rw [lowered.exact_add, placed isc cut, line, rise_straight single]
  omega

/-- A call of `rtsc_min` leaves the lower one of the old curve and the internal curve at `(x, y)`. -/
theorem near (lowered : Lowered isc f x) (cut : isc.Cut)
    (shape : isc.sm2 < isc.sm1 ∧ isc.sm1 < 2 ^ 24 ∨ isc.dx = 0 ∨ isc.sm1 = isc.sm2) (fits : ShiftFits f isc x y)
    (run : rtscMin f isc x y = .ok g) (t : Nat) :
    NearMin (3 * 2 ^ 24) (g.exact (x + t)) (f.exact (x + t)) ((runtimeInit isc x y).exact (x + t)) := by
  have slopes : f.sm1 = isc.sm1 ∧ f.sm2 = isc.sm2 := ⟨lowered.sm1, lowered.sm2⟩
  have here (dx dy : Nat) : RuntimeSc.exact { f with x := x, y := y, dx := dx, dy := dy } (x + t) =
      2 ^ 24 * y + rise isc.sm1 isc.sm2 dx t := by
    simp only [RuntimeSc.exact, slopes, Nat.add_sub_cancel_left]
  rcases Nat.lt_or_ge isc.sm2 isc.sm1 with concave | convex
  · obtain ⟨y1, atY1, ⟨le, rfl⟩ | ⟨above, y2, atY2, ⟨past, rfl⟩ | ⟨below, rfl⟩⟩⟩ :=
      rtscMin_concave lowered.late concave run
    · have kept := lowered.near_kept cut concave atY1 le t
      constructor <;> omega
    · have least := lowered.near_placed cut concave atY1 above atY2 past t
      rw [here, ← placed isc cut x y t]
      constructor <;> omega
    · have nonzero := (lowered.cross cut concave atY1 above atY2 below).1
      have small : isc.sm1 < 2 ^ 24 := by omega
      rw [here]
      exact lowered.near_crossed cut concave small (fits y1 y2 concave atY1 atY2 above below) atY1 above atY2 below t
  · have single : isc.dx = 0 ∨ isc.sm1 = isc.sm2 := by omega
    have apart := lowered.parallel (y := y) cut single t
    obtain ⟨y1, atY1, ⟨less, rfl⟩ | ⟨le, rfl⟩⟩ := rtscMin_convex convex run
    · obtain ⟨_, high, _⟩ := g.rounded lowered.cut lowered.late atY1
      constructor <;> omega
    · obtain ⟨low, _, _⟩ := f.rounded lowered.cut lowered.late atY1
      have same : RuntimeSc.exact { f with x := x, y := y } (x + t) = (runtimeInit isc x y).exact (x + t) := by
        rw [placed isc cut, ← lowered.straight (Or.inl convex)]
        exact here f.dx f.dy
      constructor <;> omega

end Lowered

/-- A curve of a single slope has the same slopes or no first piece. -/
theorem sc2isc_straight {sc : Sc} {isc : InternalSc} (made : sc2isc sc = .ok isc)
    (single : sc.d = 0 ∨ sc.m1 = sc.m2) :
    isc.dx = 0 ∨ isc.sm1 = isc.sm2 := by
  obtain ⟨dx, atDx, made⟩ := Except.bind_ok_iff.mp made
  obtain ⟨dy, atDy, made⟩ := Except.bind_ok_iff.mp made
  cases Except.ok.inj made
  rcases single with zero | same
  · left
    rw [zero, show d2dx 0 = .ok 0 from rfl] at atDx
    exact (Except.ok.inj atDx).symm
  · right
    rw [same]

/-- From a new start later than all before, `rtsc_min` computes the minimum of the old curve and the
curve from the new start, at every later point and up to the rounding of two lines. The curve is
concave with a slope below `2 ^ 24`, or one line, and the shifts lose no bits. -/
theorem rtscMin_minimum {sc : Sc} {isc : InternalSc} {f g : RuntimeSc} {x₀ y₀ x y z o p n : Nat}
    (made : sc2isc sc = .ok isc) (shape : isc.sm2 < isc.sm1 ∧ isc.sm1 < 2 ^ 24 ∨ sc.d = 0 ∨ sc.m1 = sc.m2)
    (reached : Runtime isc f x₀ y₀) (later : x₀ ≤ x) (above : y₀ ≤ y) (run : rtscMin f isc x y = .ok g)
    (fits : ShiftFits f isc x y) (le : x ≤ z) (old : rtscX2y f z = .ok o)
    (placed : rtscX2y (runtimeInit isc x y) z = .ok p) (new : rtscX2y g z = .ok n) : NearMin 8 n o p := by
  have cut : isc.Cut := sc2isc_cut made
  have lowered : Lowered isc f x := (reached.lowered cut).later later
  have started : Lowered isc (runtimeInit isc x y) x := Lowered.start isc cut x y
  have left : Lowered isc g x := ((reached.min later above run).lowered cut)
  have straight : isc.sm2 < isc.sm1 ∧ isc.sm1 < 2 ^ 24 ∨ isc.dx = 0 ∨ isc.sm1 = isc.sm2 :=
    shape.imp_right (sc2isc_straight made)
  have exact_near := lowered.near cut straight fits run (z - x)
  rw [Nat.add_sub_cancel' le] at exact_near
  obtain ⟨lowO, highO, _⟩ := f.rounded lowered.cut (lowered.late.trans le) old
  obtain ⟨lowP, highP, _⟩ := (runtimeInit isc x y).rounded started.cut (started.late.trans le) placed
  obtain ⟨lowN, highN, _⟩ := g.rounded left.cut (left.late.trans le) new
  obtain ⟨least, most⟩ := exact_near
  constructor <;> omega

def burstSc : Sc := ⟨4000000000, 1, 2000000000⟩

def burstIsc : InternalSc := ⟨8388608, 2048, 1000000, 500000, 4194304, 4096⟩

/-- From `(2000000, 600000)` the first slope meets the old curve after 600000 ns. -/
theorem rtscMin_minimum_crossing : NearMin 8 925000 925000 950000 := by
  have made : sc2isc burstSc = .ok burstIsc := by decide
  have run : rtscMin (runtimeInit burstIsc 0 0) burstIsc 2000000 600000 =
      .ok { runtimeInit burstIsc 2000000 600000 with dx := 600000, dy := 300000 } := by decide
  have fits : ShiftFits (runtimeInit burstIsc 0 0) burstIsc 2000000 600000 := by
    intro y1 y2 _ atY1 _ _ _
    have value : rtscX2y (runtimeInit burstIsc 0 0) 2000000 = .ok 750000 := by decide
    rw [value] at atY1
    cases atY1
    decide
  exact rtscMin_minimum made (Or.inl (by decide)) .init (by decide) (by decide) run fits
    (show 2000000 ≤ 2700000 by decide) (by decide) (by decide) (by decide)

end R2
