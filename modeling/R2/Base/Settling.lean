import Mathlib.Tactic.Common

namespace R2

variable {S : Type} {R : S → S → Prop} {P done : S → Prop} {work : S → Nat} {k bound : Nat} {a b : S}

/-- So many steps lead from one state to the other. -/
inductive Steps (R : S → S → Prop) : Nat → S → S → Prop
  | refl (a : S) : Steps R 0 a a
  | step {k a b c} : Steps R k a b → R b c → Steps R (k + 1) a c

theorem Steps.keeps (keep : ∀ a b, P a → R a b → P b) (steps : Steps R k a b) (now : P a) : P b := by
  induction steps with
  | refl => exact now
  | step _ next ih => exact keep _ _ (ih now) next

/-- However the steps are chosen, no more than so many follow, and the state in
which none is left is done. -/
structure Settles (R : S → S → Prop) (bound : Nat) (done : S → Prop) (a : S) : Prop where
  bounded : ∀ k b, Steps R k a b → k ≤ bound
  stuck : ∀ k b, Steps R k a b → (∀ c, ¬R b c) → done b

/-- Every step leaves less work, and while there is work there is a step. -/
theorem Settles.of_work (keep : ∀ a b, P a → R a b → P b) (less : ∀ a b, R a b → work b < work a)
    (progress : ∀ a, P a → done a ∨ ∃ b, R a b) (now : P a) : Settles R (work a) done a := by
  have left {k : Nat} {b : S} (steps : Steps R k a b) : k + work b ≤ work a := by
    induction steps with
    | refl => exact Nat.le_of_eq (Nat.zero_add _)
    | step _ next ih =>
      have := less _ _ next
      have := ih now
      omega
  refine ⟨fun k b steps => Nat.le_trans (Nat.le_add_right ..) (left steps), fun k b steps none => ?_⟩
  exact (progress b (steps.keeps keep now)).resolve_right fun ⟨c, next⟩ => none c next

/-- It does come to an end. -/
theorem Settles.reaches (settles : Settles R bound done a) : ∃ k b, Steps R k a b ∧ done b := by
  by_contra never
  have longer (k : Nat) : ∃ b, Steps R k a b := by
    induction k with
    | zero => exact ⟨a, .refl a⟩
    | succ k ih =>
      obtain ⟨b, steps⟩ := ih
      have more : ∃ c, R b c := by
        by_contra none
        exact never ⟨k, b, steps, settles.stuck k b steps fun c next => none ⟨c, next⟩⟩
      obtain ⟨c, next⟩ := more
      exact ⟨c, steps.step next⟩
  obtain ⟨b, steps⟩ := longer (bound + 1)
  exact absurd (settles.bounded _ b steps) (Nat.not_succ_le_self bound)

end R2
