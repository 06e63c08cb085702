import Mathlib.Algebra.Ring.Nat
import Mathlib.Data.Nat.Basic
import Mathlib.Tactic.Common

namespace R2

universe u
variable {ε : Type} {α β : Type u}

theorem Except.bind_ok_iff {x : Except ε α} {f : α → Except ε β} {b : β} :
    (x >>= f) = .ok b ↔ ∃ a, x = .ok a ∧ f a = .ok b := by
  cases x with
  | error e => simp [bind, Except.bind]
  | ok a => simp [bind, Except.bind]

@[simp] theorem Except.ok_bind (a : α) (f : α → Except ε β) : ((Except.ok a : Except ε α) >>= f) = f a := rfl

@[simp] theorem Except.error_bind (e : ε) (f : α → Except ε β) :
    ((Except.error e : Except ε α) >>= f) = .error e := rfl

theorem Except.ok_of_toOption {x : Except ε α} {a : α} (some : x.toOption = some a) : x = .ok a := by
  cases x with
  | error e => cases some
  | ok b => rw [Option.some.inj some]

/-- A computation that may fail either returns a value satisfying `post`, or
fails with an error the caller tolerates. Both partial correctness and the
absence of every other error are read off one statement. -/
def Ensures (allowed : ε → Prop) (x : Except ε α) (post : α → Prop) : Prop :=
  match x with
  | .ok a => post a
  | .error e => allowed e

variable {allowed : ε → Prop} {x : Except ε α} {post : α → Prop}

@[simp] theorem ensures_ok {a : α} : Ensures allowed (.ok a) post ↔ post a := Iff.rfl

@[simp] theorem ensures_pure {a : α} : Ensures allowed (pure a : Except ε α) post ↔ post a := Iff.rfl

@[simp] theorem ensures_error {e : ε} : Ensures allowed (.error e : Except ε α) post ↔ allowed e := Iff.rfl

theorem Ensures.ok (h : Ensures allowed x post) {a : α} (run : x = .ok a) : post a := by
  subst run
  exact h

theorem Ensures.error (h : Ensures allowed x post) {e : ε} (run : x = .error e) : allowed e := by
  subst run
  exact h

theorem Ensures.mono {weaker : α → Prop} (h : Ensures allowed x post) (imp : ∀ a, post a → weaker a) :
    Ensures allowed x weaker := by
  cases x with
  | ok a => exact imp a h
  | error e => exact h

theorem Ensures.bind {f : α → Except ε β} {after : β → Prop} (h : Ensures allowed x post)
    (next : ∀ a, post a → Ensures allowed (f a) after) : Ensures allowed (x >>= f) after := by
  cases x with
  | ok a => exact next a h
  | error e => exact h

/-- A postcondition may also use that the value is the one returned. -/
theorem Ensures.with_run (h : Ensures allowed x post) : Ensures allowed x (fun a => x = .ok a ∧ post a) := by
  cases x with
  | ok a => exact ⟨rfl, h⟩
  | error e => exact h

theorem Ensures.ite {c : Prop} [Decidable c] {y : Except ε α}
    (pos : c → Ensures allowed x post) (neg : ¬c → Ensures allowed y post) :
    Ensures allowed (if c then x else y) post := by
  split
  · exact pos ‹c›
  · exact neg ‹¬c›

section Fold

variable {σ : Type u} {ι : Type*} {step : σ → ι → Except ε σ} {inv : σ → Prop}

/-- Run rule: an invariant kept by every step of a list of inputs holds after
the whole list, and no step fails with an error outside `allowed`. -/
theorem Ensures.foldlM {inputs : List ι} {s : σ} (start : inv s)
    (keep : ∀ s i, i ∈ inputs → inv s → Ensures allowed (step s i) inv) :
    Ensures allowed (inputs.foldlM step s) inv := by
  induction inputs generalizing s with
  | nil => exact start
  | cons i rest ih =>
    rw [List.foldlM_cons]
    refine Ensures.bind (keep s i (List.mem_cons_self ..) start) fun t after => ?_
    exact ih after fun s j member => keep s j (List.mem_cons_of_mem _ member)

end Fold

/-- Unsigned arithmetic of a fixed width that fails instead of wrapping. -/
def checkedAdd (width : Nat) (overflow : ε) (a b : Nat) : Except ε Nat :=
  if a + b < 2 ^ width then .ok (a + b) else .error overflow

def checkedSub (underflow : ε) (a b : Nat) : Except ε Nat :=
  if b ≤ a then .ok (a - b) else .error underflow

def checkedMul (width : Nat) (overflow : ε) (a b : Nat) : Except ε Nat :=
  if a * b < 2 ^ width then .ok (a * b) else .error overflow

theorem checkedAdd_ok {width a b c : Nat} {overflow : ε} :
    checkedAdd width overflow a b = .ok c ↔ a + b < 2 ^ width ∧ c = a + b := by
  unfold checkedAdd
  split
  · rename_i fits
    simp only [Except.ok.injEq, fits, true_and, eq_comm]
  · rename_i big
    simp only [reduceCtorEq, big, false_and]

theorem checkedSub_ok {a b c : Nat} {underflow : ε} :
    checkedSub underflow a b = .ok c ↔ b ≤ a ∧ c = a - b := by
  unfold checkedSub
  split
  · rename_i fits
    simp only [Except.ok.injEq, fits, true_and, eq_comm]
  · rename_i big
    simp only [reduceCtorEq, big, false_and]

theorem checkedMul_ok {width a b c : Nat} {overflow : ε} :
    checkedMul width overflow a b = .ok c ↔ a * b < 2 ^ width ∧ c = a * b := by
  unfold checkedMul
  split
  · rename_i fits
    simp only [Except.ok.injEq, fits, true_and, eq_comm]
  · rename_i big
    simp only [reduceCtorEq, big, false_and]

theorem checkedAdd_ensures {width a b : Nat} {overflow : ε} (tolerated : allowed overflow) :
    Ensures allowed (checkedAdd width overflow a b) (fun c => c = a + b) := by
  unfold checkedAdd
  split
  · rfl
  · exact tolerated

theorem checkedSub_ensures {a b : Nat} {underflow : ε} (tolerated : allowed underflow) :
    Ensures allowed (checkedSub underflow a b) (fun c => b ≤ a ∧ c = a - b) := by
  unfold checkedSub
  split
  · exact ⟨‹_›, rfl⟩
  · exact tolerated

theorem checkedMul_ensures {width a b : Nat} {overflow : ε} (tolerated : allowed overflow) :
    Ensures allowed (checkedMul width overflow a b) (fun c => c = a * b) := by
  unfold checkedMul
  split
  · rfl
  · exact tolerated

end R2
