import Mathlib.Data.Finset.Basic
import Mathlib.Tactic.Common

namespace R2

/-- A bank of first-in first-out queues: what goes in and comes out of each. -/
inductive QueueEvent (ι α : Type*)
  | put (i : ι) (a : α)
  | take (i : ι) (a : α)
  | quiet

namespace QueueEvent

variable {ι α : Type*} [DecidableEq ι]

inductive Step : (ι → List α) → QueueEvent ι α → (ι → List α) → Prop
  | put {q i a} : Step q (.put i a) (Function.update q i (q i ++ [a]))
  | take {q i a rest} : q i = a :: rest → Step q (.take i a) (Function.update q i rest)
  | quiet {q} : Step q .quiet q

inductive Steps (start : ι → List α) : List (QueueEvent ι α) → (ι → List α) → Prop
  | start : Steps start [] start
  | next {events q event q'} : Steps start events q → Step q event q' → Steps start (events ++ [event]) q'

def putOf (i : ι) : QueueEvent ι α → Option α
  | .put j a => if j = i then some a else none
  | _ => none

def takenOf (i : ι) : QueueEvent ι α → Option α
  | .take j a => if j = i then some a else none
  | _ => none

theorem Step.balance {q q' : ι → List α} {event : QueueEvent ι α} (step : Step q event q') (i : ι) :
    q i ++ (putOf i event).toList = (takenOf i event).toList ++ q' i := by
  cases step with
  | @put j a =>
    by_cases same : j = i
    · subst same
      simp [putOf, takenOf]
    · simp [putOf, takenOf, same, Function.update_of_ne (Ne.symm same)]
  | @take j a rest shape =>
    by_cases same : j = i
    · subst same
      simp [putOf, takenOf, shape]
    · simp [putOf, takenOf, same, Function.update_of_ne (Ne.symm same)]
  | quiet => simp [putOf, takenOf]

/-- What a queue holds was in it before or was just put in. -/
theorem Step.mem {q q' : ι → List α} {event : QueueEvent ι α} (step : Step q event q') {i : ι} {a : α}
    (member : a ∈ q' i) : a ∈ q i ∨ event = .put i a := by
  cases step with
  | @put j b =>
    by_cases same : i = j
    · subst same
      rw [Function.update_self, List.mem_append, List.mem_singleton] at member
      exact member.imp id fun eq => by rw [eq]
    · rw [Function.update_of_ne same] at member
      exact Or.inl member
  | @take j b rest shape =>
    by_cases same : i = j
    · subst same
      rw [Function.update_self] at member
      exact Or.inl (by rw [shape]; exact List.mem_cons_of_mem _ member)
    · rw [Function.update_of_ne same] at member
      exact Or.inl member
  | quiet => exact Or.inl member

theorem Step.taken {q q' : ι → List α} {i : ι} {a : α} (step : Step q (.take i a) q') : a ∈ q i := by
  cases step with
  | take shape => rw [shape]; exact List.mem_cons_self ..

/-- What a queue held at the start and all that was put in is, in order, what
was taken out and what it holds now. -/
theorem Steps.conserved {start q : ι → List α} {events : List (QueueEvent ι α)}
    (steps : Steps start events q) (i : ι) :
    start i ++ events.filterMap (putOf i) = events.filterMap (takenOf i) ++ q i := by
  induction steps with
  | start => simp
  | @next events q event q' _ step ih =>
    have balance := step.balance i
    have single (f : QueueEvent ι α → Option α) : [event].filterMap f = (f event).toList := by
      cases at_event : f event <;> simp [at_event]
    rw [List.filterMap_append, List.filterMap_append, single, single, ← List.append_assoc, ih,
      List.append_assoc, balance,
      List.append_assoc]

end QueueEvent

end R2
