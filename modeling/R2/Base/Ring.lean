import Mathlib.Data.List.Basic
import Mathlib.Data.Nat.ModEq
import Mathlib.Tactic.Common

namespace R2

universe u
variable {α : Type u} {cap : Nat} {items : List α} {holds holds' : Nat → Option α → Prop}

/-- What the `k`-th cell from the one to be written next holds, after `items`
were written one after the other. -/
def lapped (cap : Nat) (items : List α) (k : Nat) : Option α :=
  if cap ≤ items.length + k then items[items.length + k - cap]? else none

/-- A ring of `cap` cells into which `items` were written; `holds` says what is
in a cell. -/
def Ring (cap : Nat) (items : List α) (holds : Nat → Option α → Prop) : Prop :=
  ∀ k < cap, holds ((items.length + k) % cap) (lapped cap items k)

namespace Ring

theorem empty (clear : ∀ k < cap, holds k none) : Ring cap ([] : List α) holds := by
  intro k inside
  rw [lapped, List.length_nil, Nat.zero_add, Nat.mod_eq_of_lt inside, if_neg (Nat.not_le.mpr inside)]
  exact clear k inside

/-- A write replaces the oldest item. -/
theorem push {x : α} (ring : Ring cap items holds) (written : holds' (items.length % cap) (some x))
    (others : ∀ j < cap, j ≠ items.length % cap → ∀ y, holds j y → holds' j y) : Ring cap (items ++ [x]) holds' := by
  intro k inside
  rw [lapped, List.length_append, List.length_singleton]
  by_cases last : k + 1 = cap
  · have around : items.length + 1 + k = items.length + cap := by omega
    rw [around, Nat.add_mod_right, if_pos (Nat.le_add_left ..), Nat.add_sub_cancel, List.getElem?_concat_length]
    exact written
  · have next : k + 1 < cap := by omega
    have old := ring (k + 1) next
    have around : items.length + 1 + k = items.length + (k + 1) := by omega
    have apart : (items.length + (k + 1)) % cap ≠ items.length % cap := by
      intro same
      have close : (k + 1) % cap = 0 := by
        have gap := Nat.ModEq.add_left_cancel' (n := cap) items.length (a := k + 1) (b := 0) same
        rwa [Nat.ModEq, Nat.zero_mod] at gap
      rw [Nat.mod_eq_of_lt next] at close
      cases close
    rw [around]
    have kept := others _ (Nat.mod_lt _ (by omega)) apart _ old
    rw [lapped] at kept
    split
    · rename_i lap
      rw [if_pos lap] at kept
      rw [List.getElem?_append_left (by omega)]
      exact kept
    · rename_i fresh
      rw [if_neg fresh] at kept
      exact kept

end Ring

/-- From the cell to be written next around the ring: the cells never written,
then the last items. -/
theorem map_lapped (cap : Nat) (items : List α) :
    (List.range cap).map (lapped cap items) =
      List.replicate (cap - items.length) none ++ (items.drop (items.length - cap)).map some := by
  apply List.ext_getElem?
  intro k
  rw [List.getElem?_map]
  by_cases inside : k < cap
  · rw [List.getElem?_range inside, Option.map_some, lapped]
    by_cases lap : cap ≤ items.length + k
    · rw [if_pos lap, List.getElem?_append_right (by rw [List.length_replicate]; omega), List.length_replicate,
        List.getElem?_map, List.getElem?_drop]
      have place : items.length - cap + (k - (cap - items.length)) = items.length + k - cap := by omega
      have found : items.length + k - cap < items.length := by omega
      rw [place, List.getElem?_eq_getElem found]
      rfl
    · rw [if_neg lap, List.getElem?_append_left (by rw [List.length_replicate]; omega),
        List.getElem?_replicate_of_lt (by omega)]
  · rw [List.getElem?_eq_none (by rw [List.length_range]; omega), List.getElem?_eq_none]
    · rfl
    · simp only [List.length_append, List.length_replicate, List.length_map, List.length_drop]
      omega

/-- The walk is back at its start after `cap` cells and not before. -/
theorem next_eq_start_iff {n k : Nat} (inside : k < cap) : ((n + k) % cap + 1) % cap = n % cap ↔ k + 1 = cap := by
  rw [Nat.mod_add_mod, Nat.add_assoc]
  constructor
  · intro same
    by_contra other
    have gap := Nat.ModEq.add_left_cancel' (n := cap) n (a := k + 1) (b := 0) same
    rw [Nat.ModEq, Nat.zero_mod, Nat.mod_eq_of_lt (by omega)] at gap
    cases gap
  · intro around
    rw [around, Nat.add_mod_right]

end R2
