import Mathlib.Logic.Function.Basic
import Mathlib.Tactic.Common

namespace R2

/-- Replicas, each with what is under way to it, the oldest first. -/
structure Replicas (ι S M : Type) where
  state : ι → S
  inbox : ι → List M

namespace Replicas

variable {ι S M V N : Type} {view : S → V} {say : M → N} {apply : V → N → Option V}
variable {r : Replicas ι S M} {goal : V} {i : ι} {m : M} {rest : List M} {s : S}

/-- Every replica will show `goal` once it has taken what is under way to it.
What a replica shows may leave out a part of its state, and what a message says
a part of the message; a message that cannot be applied heads nowhere. -/
def Heads (view : S → V) (say : M → N) (apply : V → N → Option V) (r : Replicas ι S M) (goal : V) : Prop :=
  ∀ i, ((r.inbox i).map say).foldlM apply (view (r.state i)) = some goal

theorem foldlM_keeps {P : V → Prop} (keeps : ∀ v n v', P v → apply v n = some v' → P v') {msgs : List N} {v v' : V}
    (now : P v) (all : msgs.foldlM apply v = some v') : P v' := by
  induction msgs generalizing v with
  | nil => exact Option.some.inj all ▸ now
  | cons n msgs ih =>
    rw [List.foldlM_cons] at all
    obtain ⟨w, applied, all⟩ := Option.bind_eq_some_iff.mp all
    exact ih (keeps v n w now applied) all

theorem Heads.cons (heads : Heads view say apply r goal) (inbox : r.inbox i = m :: rest) :
    ∃ v, apply (view (r.state i)) (say m) = some v ∧ (rest.map say).foldlM apply v = some goal := by
  have all := heads i
  rw [inbox, List.map_cons, List.foldlM_cons] at all
  exact Option.bind_eq_some_iff.mp all

theorem Heads.of_eq {r' : Replicas ι S M} (heads : Heads view say apply r goal) (state : ∀ i, r'.state i = r.state i)
    (inbox : ∀ i, r'.inbox i = r.inbox i) : Heads view say apply r' goal := by
  intro i
  rw [state i, inbox i]
  exact heads i

/-- The oldest message under way can be applied. -/
theorem Heads.next (heads : Heads view say apply r goal) (inbox : r.inbox i = m :: rest) :
    ∃ v, apply (view (r.state i)) (say m) = some v := by
  obtain ⟨v, applied, _⟩ := heads.cons inbox
  exact ⟨v, applied⟩

/-- A replica takes the oldest message under way to it. -/
theorem Heads.take [DecidableEq ι] (heads : Heads view say apply r goal) (inbox : r.inbox i = m :: rest)
    (taken : apply (view (r.state i)) (say m) = some (view s)) :
    Heads view say apply ⟨Function.update r.state i s, Function.update r.inbox i rest⟩ goal := by
  intro j
  by_cases same : j = i
  · subst same
    obtain ⟨v, applied, all⟩ := heads.cons inbox
    cases Option.some.inj (taken.symm.trans applied)
    simpa only [Function.update_self] using all
  · simpa only [Function.update_of_ne same] using heads j

/-- A replica does something on its own that it does not show. -/
theorem Heads.touch [DecidableEq ι] (heads : Heads view say apply r goal) (hidden : view s = view (r.state i)) :
    Heads view say apply ⟨Function.update r.state i s, r.inbox⟩ goal := by
  intro j
  by_cases same : j = i
  · subst same
    simpa only [Function.update_self, hidden] using heads j
  · simpa only [Function.update_of_ne same] using heads j

/-- Every replica is sent messages that say the same. -/
theorem Heads.send {more : ι → List M} {common : List N} {goal' : V} (heads : Heads view say apply r goal)
    (alike : ∀ i, (more i).map say = common) (applied : common.foldlM apply goal = some goal') :
    Heads view say apply ⟨r.state, fun i => r.inbox i ++ more i⟩ goal' := by
  intro i
  change ((r.inbox i ++ more i).map say).foldlM apply (view (r.state i)) = some goal'
  rw [List.map_append, List.foldlM_append, heads i, alike i]
  exact applied

/-- Messages that change nothing where they are taken may go out before others
that are still to be sent. -/
theorem Heads.insert {early late more : ι → List M} {P : V → Prop} (heads : Heads view say apply r goal)
    (split : ∀ i, r.inbox i = early i ++ late i) (keeps : ∀ v n v', P v → apply v n = some v' → P v')
    (now : ∀ i, P (view (r.state i)))
    (idle : ∀ i v, P v → ((late i).map say).foldlM apply v = some goal →
      ((more i).map say).foldlM apply v = some v) :
    Heads view say apply ⟨r.state, fun i => early i ++ (more i ++ late i)⟩ goal := by
  intro i
  have all := heads i
  change ((early i ++ (more i ++ late i)).map say).foldlM apply (view (r.state i)) = some goal
  rw [split i, List.map_append, List.foldlM_append] at all
  obtain ⟨v, first, last⟩ := Option.bind_eq_some_iff.mp all
  rw [List.map_append, List.map_append, List.foldlM_append, first]
  change ((more i).map say ++ (late i).map say).foldlM apply v = some goal
  rw [List.foldlM_append, idle i v (foldlM_keeps keeps (now i) first) last]
  exact last

/-- With nothing under way a replica shows the goal. -/
theorem Heads.settled (heads : Heads view say apply r goal) (quiet : r.inbox i = []) : view (r.state i) = goal := by
  have all := heads i
  rw [quiet] at all
  exact Option.some.inj all

/-- What messages preserve passes from what a replica shows to the goal. -/
theorem Heads.keeps {P : V → Prop} (heads : Heads view say apply r goal) (i : ι)
    (keeps : ∀ v n v', P v → apply v n = some v' → P v') (now : P (view (r.state i))) : P goal :=
  foldlM_keeps keeps now (heads i)

end Replicas

end R2
