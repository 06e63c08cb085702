import Mathlib.Algebra.Ring.Nat
import Mathlib.Data.Nat.Log
import Mathlib.Data.Nat.Size
import Mathlib.Tactic.Common

namespace R2

/-- The smallest power of two that is not below `n`. -/
def pow2 (n : Nat) : Nat := 2 ^ Nat.clog 2 n

theorem le_pow2 (n : Nat) : n ≤ pow2 n := Nat.le_pow_clog Nat.one_lt_two n

theorem pow2_two_pow (k : Nat) : pow2 (2 ^ k) = 2 ^ k := congrArg (2 ^ ·) (Nat.clog_pow 2 k Nat.one_lt_two)

theorem clog_eq_size (n : Nat) : Nat.clog 2 n = Nat.size (n - 1) := by
  refine eq_of_forall_ge_iff fun k => ?_
  have pos : 0 < 2 ^ k := Nat.two_pow_pos k
  rw [Nat.clog_le_iff_le_pow Nat.one_lt_two, Nat.size_le]
  omega

/-- A bit of `w` is set where one of the next `n` bits of `v` is. -/
def Spread (n v w : Nat) : Prop := ∀ i, w.testBit i = true ↔ ∃ j < n, v.testBit (i + j) = true

theorem Spread.self (v : Nat) : Spread 1 v v := by
  intro i
  refine ⟨fun set => ⟨0, Nat.one_pos, set⟩, fun ⟨j, small, set⟩ => ?_⟩
  obtain rfl : j = 0 := by omega
  exact set

theorem Spread.double {n v w : Nat} (spread : Spread n v w) : Spread (2 * n) v (w ||| w >>> n) := by
  intro i
  rw [Nat.testBit_or, Nat.testBit_shiftRight, Bool.or_eq_true, spread i, spread (n + i)]
  constructor
  · rintro (⟨j, small, set⟩ | ⟨j, small, set⟩)
    · exact ⟨j, by omega, set⟩
    · exact ⟨n + j, by omega, by rwa [show i + (n + j) = n + i + j by omega]⟩
  · rintro ⟨j, small, set⟩
    by_cases low : j < n
    · exact Or.inl ⟨j, low, set⟩
    · exact Or.inr ⟨j - n, by omega, by rwa [show n + i + (j - n) = i + j by omega]⟩

/-- Spread over its whole width a number has every bit below its top bit set. -/
theorem Spread.eq {n v w : Nat} (spread : Spread n v w) (narrow : v < 2 ^ n) : w = 2 ^ Nat.size v - 1 := by
  refine Nat.eq_of_testBit_eq fun i => ?_
  rw [Bool.eq_iff_iff, spread i, Nat.testBit_two_pow_sub_one, decide_eq_true_iff, Nat.lt_size]
  constructor
  · rintro ⟨j, _, set⟩
    exact Nat.le_trans (Nat.pow_le_pow_right Nat.two_pos (by omega)) (Nat.ge_two_pow_of_testBit set)
  · intro reaches
    obtain ⟨k, above, set⟩ := Nat.exists_ge_and_testBit_of_ge_two_pow reaches
    have inside : k < n := by
      by_contra outside
      have clear :=
        Nat.testBit_lt_two_pow (Nat.lt_of_lt_of_le narrow (Nat.pow_le_pow_right Nat.two_pos (not_lt.mp outside)))
      rw [set] at clear
      cases clear
    exact ⟨k - i, by omega, by rwa [show i + (k - i) = k by omega]⟩

end R2
