import Mathlib.Algebra.Ring.Nat
import Mathlib.Data.List.Basic
import Mathlib.Tactic.Common

namespace R2

variable {α : Type*}

/-- The elements `lo .. hi` of a buffer. -/
def window (raw : List α) (lo hi : Nat) : List α := (raw.take hi).drop lo

/-- A buffer with `bytes` written from position `off` on. -/
def overwrite (raw : List α) (off : Nat) (bytes : List α) : List α :=
  raw.take off ++ bytes ++ raw.drop (off + bytes.length)

theorem window_length {raw : List α} {lo hi : Nat} (fits : hi ≤ raw.length) :
    (window raw lo hi).length = hi - lo := by
  simp only [window, List.length_drop, List.length_take]
  omega

@[simp] theorem window_self (raw : List α) (lo : Nat) : window raw lo lo = [] := by
  simp [window]

theorem window_whole (raw : List α) : window raw 0 raw.length = raw := by
  rw [window, List.take_length, List.drop_zero]

theorem getElem?_window {raw : List α} {lo hi i : Nat} :
    (window raw lo hi)[i]? = if lo + i < hi then raw[lo + i]? else none := by
  simp only [window, List.getElem?_drop, List.getElem?_take]

theorem window_append {raw : List α} {lo mid hi : Nat} (below : lo ≤ mid) (above : mid ≤ hi)
    (fits : hi ≤ raw.length) : window raw lo mid ++ window raw mid hi = window raw lo hi := by
  apply List.ext_getElem?
  intro i
  rw [List.getElem?_append, window_length (by omega : mid ≤ raw.length)]
  simp only [getElem?_window]
  by_cases left : i < mid - lo
  · rw [if_pos left, if_pos (by omega), if_pos (by omega)]
  · rw [if_neg left, show mid + (i - (mid - lo)) = lo + i by omega]

theorem window_drop {raw : List α} {lo hi n : Nat} :
    (window raw lo hi).drop n = window raw (lo + n) hi := by
  simp only [window, List.drop_drop]

theorem window_take {raw : List α} {lo hi n : Nat} (fits : lo + n ≤ hi) :
    (window raw lo hi).take n = window raw lo (lo + n) := by
  apply List.ext_getElem?
  intro i
  simp only [List.getElem?_take, getElem?_window]
  split <;> split <;> first | rfl | omega | (split <;> first | rfl | omega)

theorem drop_eq_window_append {raw : List α} {lo hi : Nat} (below : lo ≤ hi) (fits : hi ≤ raw.length) :
    raw.drop lo = window raw lo hi ++ raw.drop hi := by
  conv_lhs => rw [← List.take_append_drop hi raw]
  rw [List.drop_append_of_le_length (by rw [List.length_take]; omega)]
  rfl

theorem overwrite_length {raw bytes : List α} {off : Nat} (fits : off + bytes.length ≤ raw.length) :
    (overwrite raw off bytes).length = raw.length := by
  simp only [overwrite, List.length_append, List.length_take, List.length_drop]
  omega

theorem getElem?_overwrite {raw bytes : List α} {off i : Nat} (fits : off + bytes.length ≤ raw.length) :
    (overwrite raw off bytes)[i]? =
      if i < off then raw[i]? else if i < off + bytes.length then bytes[i - off]? else raw[i]? := by
  unfold overwrite
  rw [List.append_assoc, List.getElem?_append, List.length_take, Nat.min_eq_left (by omega)]
  by_cases before : i < off
  · rw [if_pos before, if_pos before, List.getElem?_take_of_lt before]
  · rw [if_neg before, if_neg before, List.getElem?_append]
    by_cases inside : i - off < bytes.length
    · rw [if_pos inside, if_pos (by omega)]
    · rw [if_neg inside, if_neg (by omega), List.getElem?_drop]
      congr 1
      omega

/-- What was written is read back. -/
theorem window_overwrite {raw bytes : List α} {off : Nat} (fits : off + bytes.length ≤ raw.length) :
    window (overwrite raw off bytes) off (off + bytes.length) = bytes := by
  apply List.ext_getElem?
  intro i
  rw [getElem?_window, getElem?_overwrite fits]
  by_cases inside : i < bytes.length
  · rw [if_pos (by omega), if_neg (by omega), if_pos (by omega), Nat.add_sub_cancel_left]
  · rw [if_neg (by omega), List.getElem?_eq_none (by omega)]

/-- A write leaves every window beside it as it was. -/
theorem window_overwrite_of_disjoint {raw bytes : List α} {off lo hi : Nat}
    (fits : off + bytes.length ≤ raw.length) (apart : hi ≤ off ∨ off + bytes.length ≤ lo) :
    window (overwrite raw off bytes) lo hi = window raw lo hi := by
  apply List.ext_getElem?
  intro i
  simp only [getElem?_window, getElem?_overwrite fits]
  by_cases inside : lo + i < hi
  · rw [if_pos inside, if_pos inside]
    rcases apart with before | after
    · rw [if_pos (by omega)]
    · rw [if_neg (by omega), if_neg (by omega)]
  · rw [if_neg inside, if_neg inside]

/-- A write inside of a window is a write to what the window shows. -/
theorem window_overwrite_inside {raw bytes : List α} {off hi : Nat} (inside : off + bytes.length ≤ hi)
    (fits : hi ≤ raw.length) : window (overwrite raw off bytes) 0 hi = overwrite (window raw 0 hi) off bytes := by
  have shown : off + bytes.length ≤ (window raw 0 hi).length := by
    rw [window_length fits]
    omega
  apply List.ext_getElem?
  intro i
  simp only [getElem?_overwrite shown, getElem?_window, getElem?_overwrite (Nat.le_trans inside fits), Nat.zero_add]
  by_cases before : i < off
  · simp only [if_pos before, if_pos (show i < hi by omega)]
  · by_cases written : i < off + bytes.length
    · simp only [if_neg before, if_pos written, if_pos (show i < hi by omega)]
    · simp only [if_neg before, if_neg written]

/-- A write that starts where a window ends goes on with it. -/
theorem window_overwrite_end {raw bytes : List α} {off : Nat} (fits : off + bytes.length ≤ raw.length) :
    window (overwrite raw off bytes) 0 (off + bytes.length) = window raw 0 off ++ bytes := by
  have room : off + bytes.length ≤ (overwrite raw off bytes).length := by
    rw [overwrite_length fits]
    exact fits
  rw [← window_append (Nat.zero_le off) (Nat.le_add_right ..) room, window_overwrite fits,
    window_overwrite_of_disjoint fits (Or.inl le_rfl)]

end R2
