import Mathlib.Algebra.Order.Ring.Nat
import Mathlib.Data.Nat.Basic
import Mathlib.Tactic.Ring

namespace R2

/-- `n` is the smaller one of `o` and `p`, up to `e`. -/
def NearMin (e n o p : Nat) : Prop := n ≤ min o p + e ∧ min o p ≤ n + e

/-- What a curve gains in `t`: slope `a` up to `d`, and slope `b` from there. -/
def rise (a b d t : Nat) : Nat := a * min t d + b * (t - d)

section

variable {a b d d' r q s t u w e : Nat}

@[simp] theorem rise_zero : rise a b d 0 = 0 := by
  simp [rise]

theorem rise_first (early : t ≤ d) : rise a b d t = a * t := by
  rw [rise, min_eq_left early, Nat.sub_eq_zero_of_le early, Nat.mul_zero, Nat.add_zero]

theorem rise_second (late : d ≤ t) : rise a b d t = a * d + b * (t - d) := by
  rw [rise, min_eq_right late]

/-- A curve that is entered later has less of its first piece left. -/
theorem rise_add (a b d s t : Nat) : rise a b d (s + t) = rise a b d s + rise a b (d - s) t := by
  have first : min (s + t) d = min s d + min t (d - s) := by omega
  have second : s + t - d = s - d + (t - (d - s)) := by omega
  simp only [rise, first, second]
  ring

theorem rise_straight (flat : d = 0 ∨ a = b) : rise a b d t = b * t := by
  rcases flat with rfl | rfl
  · rw [rise_second (Nat.zero_le t), Nat.mul_zero, Nat.zero_add, Nat.sub_zero]
  · rw [rise, ← Nat.mul_add]
    congr 1
    omega

/-- A concave curve is the line of its second slope plus what the first one gains on it. -/
theorem rise_concave (concave : b ≤ a) : rise a b d t = b * t + (a - b) * min t d := by
  have split : t = min t d + (t - d) := by omega
  have slope : a = b + (a - b) := by omega
  conv_lhs => rw [rise, slope, Nat.add_mul]
  conv_rhs => rw [split, Nat.mul_add, ← split]
  ring

theorem le_of_excess {k : Nat} (pos : 0 < k) (excess : k * d ≤ k * d' + e) : d ≤ d' + e := by
  by_contra long
  have more := Nat.mul_le_mul_left k (show d' + (e + 1) ≤ d by omega)
  rw [Nat.mul_add] at more
  have least := Nat.le_mul_of_pos_left (e + 1) pos
  omega

/-- How much longer the first piece is, weighed by the slopes. -/
theorem rise_le_of_excess (concave : b ≤ a) (excess : (a - b) * d ≤ (a - b) * d' + e) :
    rise a b d t ≤ rise a b d' t + e := by
  rw [rise_concave concave, rise_concave concave]
  rcases Nat.le_total t d' with early | late
  · have least := Nat.mul_le_mul_left (a - b) (Nat.min_le_left t d)
    rw [min_eq_left early]
    omega
  · have least := Nat.mul_le_mul_left (a - b) (Nat.min_le_right t d)
    rw [min_eq_right late]
    omega

/-- A first piece that ends before the older curve is met stays below that curve. -/
theorem cross_le_old (concave : b ≤ a) (meets : w + (a - b) * q ≤ u) :
    w + rise a b (r + q) t ≤ u + rise a b r t := by
  have gain := Nat.mul_le_mul_left (a - b) (show min t (r + q) ≤ min t r + q by omega)
  rw [Nat.mul_add] at gain
  rw [rise_concave concave, rise_concave concave]
  omega

/-- One that ends close to where the older curve is met is below neither curve by more
than the error there. -/
theorem cross_ge (concave : b ≤ a) (meets : u ≤ w + (a - b) * q + e) :
    w + rise a b d t ≤ w + rise a b (r + q) t ∨ u + rise a b r t ≤ w + rise a b (r + q) t + e := by
  rw [rise_concave concave, rise_concave concave, rise_concave concave]
  rcases Nat.le_total t (r + q) with early | late
  · have least := Nat.mul_le_mul_left (a - b) (Nat.min_le_left t d)
    rw [min_eq_left early]
    exact Or.inl (by omega)
  · have least := Nat.mul_le_mul_left (a - b) (Nat.min_le_right t r)
    rw [min_eq_right late, Nat.mul_add]
    exact Or.inr (by omega)

/-- A concave curve that is above a line of the same slopes where that line starts and where
its first piece ends is above it everywhere. -/
theorem above_of_ends (concave : b ≤ a) (start : w ≤ u + e) (corner : w + rise a b d d ≤ u + rise a b r d + e) :
    w + rise a b d t ≤ u + rise a b r t + e := by
  rw [rise_concave concave, rise_concave concave] at corner ⊢
  rw [min_self] at corner
  rcases Nat.le_total r t with past | before
  · have least := Nat.mul_le_mul_left (a - b) (Nat.min_le_right t d)
    have short := Nat.mul_le_mul_left (a - b) (Nat.min_le_right d r)
    rw [min_eq_right past]
    omega
  · have least := Nat.mul_le_mul_left (a - b) (Nat.min_le_left t d)
    rw [min_eq_left before]
    omega

end

section

variable {a b d k l n : Nat}

/-- `a / l` is a slope and `b / k` an inverse slope that is not too long. What lies on the first piece is
inverted into it. -/
theorem inverse_le_of_le (bound : a * b ≤ k * l) (early : n ≤ d * a / l) : n * b / k ≤ d := by
  rcases Nat.eq_zero_or_pos l with rfl | some
  · rw [Nat.div_zero] at early
    simp [Nat.eq_zero_of_le_zero early]
  · have low : n * l ≤ d * a := (Nat.le_div_iff_mul_le some).mp early
    have scaled : n * b * l ≤ k * d * l := by
      calc n * b * l = n * l * b := Nat.mul_right_comm ..
        _ ≤ d * a * b := Nat.mul_le_mul_right b low
        _ = d * (a * b) := Nat.mul_assoc ..
        _ ≤ d * (k * l) := Nat.mul_le_mul_left d bound
        _ = k * d * l := by ring
    exact Nat.div_le_of_le_mul (Nat.le_of_mul_le_mul_right scaled some)

/-- Inverting and going back is never late. -/
theorem round_trip_le (bound : a * b ≤ k * l) : n * b / k * a / l ≤ n := by
  rcases Nat.eq_zero_or_pos k with rfl | some
  · simp
  · have scaled : k * (n * b / k * a) ≤ k * (l * n) := by
      calc k * (n * b / k * a) = n * b / k * k * a := by ring
        _ ≤ n * b * a := Nat.mul_le_mul_right a (Nat.div_mul_le_self ..)
        _ = n * (a * b) := by ring
        _ ≤ n * (k * l) := Nat.mul_le_mul_left n bound
        _ = k * (l * n) := by ring
    exact Nat.div_le_of_le_mul (Nat.le_of_mul_le_mul_left scaled some)

end

end R2
