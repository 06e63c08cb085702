import Mathlib.Data.List.Basic
import Mathlib.Algebra.BigOperators.Group.List.Basic
import Mathlib.Algebra.GroupWithZero.Nat
import Mathlib.Algebra.Ring.Nat

namespace R2

variable {α β : Type*}

/-- The longest prefix whose total size is within `room`. -/
def fitting (size : α → Nat) : Nat → List α → List α
  | _, [] => []
  | room, a :: rest => if size a ≤ room then a :: fitting size (room - size a) rest else []

variable {size : α → Nat} {room : Nat} {items : List α}

theorem fitting_starts : fitting size room items <+: items := by
  induction items generalizing room with
  | nil => exact List.prefix_rfl
  | cons a rest ih =>
    rw [fitting]
    split
    · exact List.cons_prefix_cons.mpr ⟨rfl, ih⟩
    · exact List.nil_prefix

theorem fitting_sum_le : ((fitting size room items).map size).sum ≤ room := by
  induction items generalizing room with
  | nil => exact Nat.zero_le _
  | cons a rest ih =>
    rw [fitting]
    split
    · have tail := @ih (room - size a)
      rw [List.map_cons, List.sum_cons]
      omega
    · exact Nat.zero_le _

theorem fitting_longest {short : List α} (start : short <+: items) (small : (short.map size).sum ≤ room) :
    short <+: fitting size room items := by
  induction items generalizing room short with
  | nil => exact start
  | cons a rest ih =>
    cases short with
    | nil => exact List.nil_prefix
    | cons b short =>
      obtain ⟨rfl, next⟩ := List.cons_prefix_cons.mp start
      rw [List.map_cons, List.sum_cons] at small
      rw [fitting, if_pos (by omega)]
      exact List.cons_prefix_cons.mpr ⟨rfl, ih next (by omega)⟩

/-- Nothing fits in no room. -/
theorem fitting_zero (some : ∀ a ∈ items, 0 < size a) : fitting size 0 items = [] := by
  cases items with
  | nil => rfl
  | cons a rest =>
    have positive := some a (List.mem_cons_self ..)
    rw [fitting, if_neg (by omega)]

theorem fitting_map {f : β → α} {inputs : List β} :
    fitting size room (inputs.map f) = (fitting (size ∘ f) room inputs).map f := by
  induction inputs generalizing room with
  | nil => rfl
  | cons b rest ih =>
    rw [List.map_cons, fitting, fitting, Function.comp_apply]
    split
    · rw [List.map_cons, ih]
    · rfl

theorem fitting_take (n : Nat) : fitting size room (items.take n) = (fitting size room items).take n := by
  induction n generalizing room items with
  | zero => rw [List.take_zero, List.take_zero, fitting]
  | succ n ih =>
    cases items with
    | nil => rfl
    | cons a rest =>
      rw [List.take_succ_cons, fitting, fitting]
      split
      · rw [ih, List.take_succ_cons]
      · rfl

end R2
