import R2.Base.Ensures

namespace R2

/-- The ways a modelled call can end without returning. -/
inductive Fault
  /-- a `u64` or `usize` sum, difference or product left its range -/
  | overflow
  /-- an `assert!` or `assert_eq!` failed -/
  | assertion
  /-- an index or a slice bound was out of range -/
  | bounds
  /-- `unwrap` on `None` -/
  | unwrap
  /-- a recursion or a loop that does not end -/
  | diverges
  /-- an explicit `panic!` -/
  | panicked
deriving DecidableEq, Repr

abbrev Outcome := Except Fault

def faultOf {α : Type} : Outcome α → Option Fault
  | .ok _ => none
  | .error e => some e

theorem error_of_faultOf {α : Type} {x : Outcome α} {e : Fault} (fault : faultOf x = some e) : x = .error e := by
  cases x with
  | ok a => cases fault
  | error e' => rw [Option.some.inj fault]

def add64 (a b : Nat) : Outcome Nat := checkedAdd 64 .overflow a b

def sub64 (a b : Nat) : Outcome Nat := checkedSub .overflow a b

def mul64 (a b : Nat) : Outcome Nat := checkedMul 64 .overflow a b

/-- `<<` on a `u64` drops the bits shifted out, without a check. -/
def shl64 (a k : Nat) : Nat := (a <<< k) % 2 ^ 64

theorem add64_ok {a b c : Nat} : add64 a b = .ok c ↔ a + b < 2 ^ 64 ∧ c = a + b := checkedAdd_ok

theorem sub64_ok {a b c : Nat} : sub64 a b = .ok c ↔ b ≤ a ∧ c = a - b := checkedSub_ok

theorem mul64_ok {a b c : Nat} : mul64 a b = .ok c ↔ a * b < 2 ^ 64 ∧ c = a * b := checkedMul_ok

/-- Only arithmetic may fail. -/
abbrev NoPanic {α : Type} (x : Outcome α) (post : α → Prop) : Prop := Ensures (· = .overflow) x post

theorem add64_noPanic (a b : Nat) : NoPanic (add64 a b) (fun c => c = a + b) := checkedAdd_ensures rfl

theorem sub64_noPanic (a b : Nat) : NoPanic (sub64 a b) (fun c => b ≤ a ∧ c = a - b) := checkedSub_ensures rfl

theorem mul64_noPanic (a b : Nat) : NoPanic (mul64 a b) (fun c => c = a * b) := checkedMul_ensures rfl

/-- Arithmetic does not fail. -/
abbrev NoOverflow {α : Type} (x : Outcome α) (post : α → Prop) : Prop := Ensures (· ≠ .overflow) x post

theorem add64_noOverflow {a b : Nat} (fits : a + b < 2 ^ 64) : NoOverflow (add64 a b) (fun c => c = a + b) := by
  rw [add64_ok.mpr ⟨fits, rfl⟩]
  exact rfl

theorem sub64_noOverflow {a b : Nat} (fits : b ≤ a) : NoOverflow (sub64 a b) (fun c => c = a - b) := by
  rw [sub64_ok.mpr ⟨fits, rfl⟩]
  exact rfl

theorem mul64_noOverflow {a b : Nat} (fits : a * b < 2 ^ 64) : NoOverflow (mul64 a b) (fun c => c = a * b) := by
  rw [mul64_ok.mpr ⟨fits, rfl⟩]
  exact rfl

/-- A call that only arithmetic may fail, and it does not, returns. -/
theorem NoOverflow.returns {α : Type} {x : Outcome α} {post after : α → Prop} (fits : NoOverflow x post)
    (calm : NoPanic x after) : ∃ a, x = .ok a ∧ post a := by
  cases x with
  | ok a => exact ⟨a, rfl, fits⟩
  | error e => exact absurd calm fits

end R2
