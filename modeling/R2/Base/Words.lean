import Mathlib.Data.List.Basic
import Mathlib.Tactic.Common
import R2.Base.Bytes

namespace R2

/-- The `n` low bytes of a number, the lowest first. -/
def toLe : Nat → Nat → List UInt8
  | 0, _ => []
  | n + 1, v => UInt8.ofNat v :: toLe n (v / 256)

def ofLe : List UInt8 → Nat
  | [] => 0
  | b :: rest => b.toNat + 256 * ofLe rest

@[simp] theorem toLe_length (n v : Nat) : (toLe n v).length = n := by
  induction n generalizing v with
  | zero => rfl
  | succ n ih => rw [toLe, List.length_cons, ih]

theorem ofLe_toLe {n v : Nat} (fits : v < 256 ^ n) : ofLe (toLe n v) = v := by
  induction n generalizing v with
  | zero =>
    rw [Nat.pow_zero] at fits
    exact (Nat.lt_one_iff.mp fits).symm
  | succ n ih =>
    have high : v / 256 < 256 ^ n := by
      rw [Nat.pow_succ] at fits
      exact Nat.div_lt_of_lt_mul (by omega)
    rw [toLe, ofLe, ih high, UInt8.toNat_ofNat']
    omega

section

variable {α : Type*} {raw bytes front : List α} {lo hi : Nat}

/-- A write behind what stands at `lo` already. -/
theorem window_overwrite_behind (before : window raw lo (lo + front.length) = front)
    (fits : lo + front.length + bytes.length ≤ raw.length) :
    window (overwrite raw (lo + front.length) bytes) lo (lo + (front ++ bytes).length) = front ++ bytes := by
  have length := overwrite_length fits
  rw [List.length_append, ← Nat.add_assoc,
    ← window_append (Nat.le_add_right lo front.length) (Nat.le_add_right _ _) (by omega), window_overwrite fits,
    window_overwrite_of_disjoint fits (Or.inl (Nat.le_refl _)), before]

/-- A part of a known stretch. -/
theorem window_part (front mid back : List α)
    (known : window raw lo (lo + (front ++ mid ++ back).length) = front ++ mid ++ back) :
    window raw (lo + front.length) (lo + front.length + mid.length) = mid := by
  have cut : window (front ++ mid ++ back) front.length (front.length + mid.length) = mid := by
    rw [window, ← List.length_append, List.take_left, List.drop_left]
  rw [← known] at cut
  conv_rhs => rw [← cut]
  apply List.ext_getElem?
  intro i
  simp only [getElem?_window, List.length_append]
  by_cases inside : i < mid.length
  · rw [if_pos (by omega), if_pos (by omega), if_pos (by omega), Nat.add_assoc]
  · rw [if_neg (by omega), if_neg (by omega)]

end

end R2
