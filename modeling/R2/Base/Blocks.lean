import Mathlib.Data.List.Pairwise
import Mathlib.Data.List.Perm.Basic
import Mathlib.Tactic.Common

namespace R2

/-- The positions `base .. base + width` of a range of memory. -/
structure Block where
  base : Nat
  width : Nat
deriving DecidableEq, Repr

namespace Block

def stop (b : Block) : Nat := b.base + b.width

/-- The blocks share no position. -/
def Apart (b c : Block) : Prop := b.stop ≤ c.base ∨ c.stop ≤ b.base

def Within (b c : Block) : Prop := c.base ≤ b.base ∧ b.stop ≤ c.stop

theorem Within.trans {b c d : Block} (inner : b.Within c) (outer : c.Within d) : b.Within d :=
  ⟨Nat.le_trans outer.1 inner.1, Nat.le_trans inner.2 outer.2⟩

theorem Apart.symm {b c : Block} (apart : Apart b c) : Apart c b := Or.symm apart

theorem Apart.within {b c b' c' : Block} (apart : Apart b c) (inB : b'.Within b) (inC : c'.Within c) :
    Apart b' c' := by
  rcases apart with left | right
  · exact Or.inl (by have := inB.2; have := inC.1; omega)
  · exact Or.inr (by have := inC.2; have := inB.1; omega)

def shift (b : Block) (n : Nat) : Block := ⟨n + b.base, b.width⟩

theorem Apart.shift {b c : Block} (apart : Apart b c) (n : Nat) : Apart (b.shift n) (c.shift n) := by
  unfold Apart stop Block.shift at *
  dsimp only
  omega

end Block

/-- Blocks of whole grains that were cut one after the other from the bottom of
a range, of which the positions below `top` are used up. -/
structure Cut (grain : Nat) (blocks : List Block) (top : Nat) : Prop where
  apart : blocks.Pairwise Block.Apart
  below : ∀ b ∈ blocks, b.stop ≤ top
  aligned : ∀ b ∈ blocks, grain ∣ b.base
  whole : grain ∣ top

namespace Cut

variable {grain : Nat} {blocks blocks' : List Block} {top : Nat}

theorem nil (grain : Nat) : Cut grain [] 0 :=
  ⟨.nil, fun _ => nofun, fun _ => nofun, ⟨0, rfl⟩⟩

theorem perm (cut : Cut grain blocks top) (perm : blocks.Perm blocks') : Cut grain blocks' top where
  apart := perm.pairwise cut.apart Block.Apart.symm
  below b member := cut.below b (perm.mem_iff.mpr member)
  aligned b member := cut.aligned b (perm.mem_iff.mpr member)
  whole := cut.whole

theorem sublist (cut : Cut grain blocks top) (sub : blocks'.Sublist blocks) : Cut grain blocks' top where
  apart := cut.apart.sublist sub
  below b member := cut.below b (sub.subset member)
  aligned b member := cut.aligned b (sub.subset member)
  whole := cut.whole

/-- The next block comes from above all others. -/
theorem next {width : Nat} (cut : Cut grain blocks top) (grains : grain ∣ width) :
    Cut grain (⟨top, width⟩ :: blocks) (top + width) := by
  refine ⟨List.pairwise_cons.mpr ⟨fun b member => Or.inr (cut.below b member), cut.apart⟩, fun b member => ?_,
    fun b member => ?_, (Nat.dvd_add_right cut.whole).mpr grains⟩
  · rcases List.mem_cons.mp member with rfl | old
    · exact Nat.le_refl _
    · exact Nat.le_trans (cut.below b old) (Nat.le_add_right ..)
  · rcases List.mem_cons.mp member with rfl | old
    · exact cut.whole
    · exact cut.aligned b old

end Cut

end R2
