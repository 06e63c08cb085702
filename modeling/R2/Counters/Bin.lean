import R2.Outcome
import R2.Base.Pow2

namespace R2

def add32 (a b : Nat) : Outcome Nat := checkedAdd 32 .overflow a b

def sub32 (a b : Nat) : Outcome Nat := checkedSub .overflow a b

def mul32 (a b : Nat) : Outcome Nat := checkedMul 32 .overflow a b

/-- `leading_zeros` of a `u32` -/
def leadingZeros (n : Nat) : Nat := 32 - Nat.size n

def pow2U32 (val : Nat) : Outcome Nat := do
  let v ← sub32 val 1
  let v := v ||| v >>> 1
  let v := v ||| v >>> 2
  let v := v ||| v >>> 4
  let v := v ||| v >>> 8
  let v := v ||| v >>> 16
  add32 v 1

/-- Each of `bins` is a double-ended queue, its front first. -/
structure Bin where
  binsz : Nat
  max : Nat
  zeroes : Nat
  pagesz : Nat
  offset : Nat
  bins : List (List Nat)
deriving DecidableEq, Repr

namespace Bin

def new (binsz max pagesz : Nat) : Outcome Bin := do
  let binsz ← pow2U32 binsz
  let pagesz ← pow2U32 pagesz
  .ok { binsz, max, zeroes := leadingZeros binsz, pagesz, offset := 0, bins := [] }

/-- The size of the objects of a bin that `size` fits, and the place of that bin. -/
def index (bin : Bin) (size : Nat) : Outcome (Nat × Nat) := do
  let size ← pow2U32 size
  let size := Max.max size bin.binsz
  let index ← sub32 bin.zeroes (leadingZeros size)
  .ok (size, index)

def pushFront (bin : Bin) (index : Nat) (base : Nat) : Outcome Bin :=
  match bin.bins[index]? with
  | some objects => .ok { bin with bins := bin.bins.set index (base :: objects) }
  | none => .error .bounds

/-- The loop of `resize`; `fuel` bounds the turns that are left. -/
def fill (size index alloc : Nat) : Nat → Nat → Bin → Outcome Bin
  | 0, i, bin => if i < alloc then .error .diverges else .ok bin
  | fuel + 1, i, bin =>
    if i < alloc then do
      let bin ← bin.pushFront index bin.offset
      let i ← add32 i size
      let offset ← add64 bin.offset size
      fill size index alloc fuel i { bin with offset }
    else .ok bin

def resizeAlloc (bin : Bin) (size : Nat) : Outcome Nat :=
  if size > bin.pagesz then
    if bin.pagesz = 0 then .error .panicked
    else if size % bin.pagesz ≠ 0 then do
      let bytes ← mul32 bin.pagesz size
      add32 (bytes / bin.pagesz) 1
    else do
      let bytes ← mul32 bin.pagesz size
      .ok (bytes / bin.pagesz)
  else .ok bin.pagesz

/-- Add more objects to a bin. -/
def resize (bin : Bin) (size index : Nat) : Outcome Bin := do
  let alloc ← bin.resizeAlloc size
  let stop ← add64 alloc bin.offset
  if stop ≤ bin.max then fill size index alloc alloc 0 bin else .ok bin

/-- `pop_front` of a bin, with `pop_back` of the refilled bin when it is empty. -/
def get (bin : Bin) (size : Nat) : Outcome (Option Nat × Bin) :=
  if size = 0 then .ok (none, bin)
  else do
    let (size, index) ← bin.index size
    let bin := { bin with bins := bin.bins ++ List.replicate (index + 1 - bin.bins.length) [] }
    match bin.bins[index]? with
    | none => .error .bounds
    | some (base :: objects) => .ok (some base, { bin with bins := bin.bins.set index objects })
    | some [] => do
      let bin ← bin.resize size index
      match bin.bins[index]? with
      | none => .error .bounds
      | some objects => .ok (objects.getLast?, { bin with bins := bin.bins.set index objects.dropLast })

def free (bin : Bin) (base size : Nat) : Outcome Bin :=
  if size = 0 then .error .panicked
  else do
    let (_, index) ← bin.index size
    if index ≥ bin.bins.length then .error .panicked
    else bin.pushFront index base

end Bin

theorem add32_ok {a b c : Nat} : add32 a b = .ok c ↔ a + b < 2 ^ 32 ∧ c = a + b := checkedAdd_ok

theorem sub32_ok {a b c : Nat} : sub32 a b = .ok c ↔ b ≤ a ∧ c = a - b := checkedSub_ok

theorem mul32_ok {a b c : Nat} : mul32 a b = .ok c ↔ a * b < 2 ^ 32 ∧ c = a * b := checkedMul_ok

theorem add32_noPanic (a b : Nat) : NoPanic (add32 a b) (fun c => c = a + b) := checkedAdd_ensures rfl

theorem sub32_noPanic (a b : Nat) : NoPanic (sub32 a b) (fun c => b ≤ a ∧ c = a - b) := checkedSub_ensures rfl

theorem mul32_noPanic (a b : Nat) : NoPanic (mul32 a b) (fun c => c = a * b) := checkedMul_ensures rfl

/-- The shifts of `pow2_u32` round up to a power of two. -/
theorem pow2U32_ok {val n : Nat} : pow2U32 val = .ok n ↔ 1 ≤ val ∧ val ≤ 2 ^ 31 ∧ n = pow2 val := by
  obtain ⟨w, smeared, spread, above⟩ : ∃ w, pow2U32 val = (do let _ ← sub32 val 1; add32 w 1) ∧
      Spread 32 (val - 1) w ∧ val - 1 ≤ w := by
    refine ⟨_, ?_, (Spread.self (val - 1)).double.double.double.double.double, ?_⟩
    · unfold pow2U32 sub32 checkedSub
      split <;> rfl
    · exact Nat.left_le_or.trans (Nat.left_le_or.trans (Nat.left_le_or.trans (Nat.left_le_or.trans Nat.left_le_or)))
  have size : val ≤ 2 ^ 31 ↔ Nat.size (val - 1) ≤ 31 := by
    rw [Nat.size_le]
    omega
  simp only [smeared, Except.bind_ok_iff, sub32_ok, add32_ok]
  constructor
  · rintro ⟨_, ⟨pos, _⟩, fits, rfl⟩
    have eq := spread.eq (by omega)
    have pow : 2 ^ Nat.size (val - 1) < 2 ^ 32 := by
      have := Nat.two_pow_pos (Nat.size (val - 1))
      omega
    have small := (Nat.pow_lt_pow_iff_right Nat.one_lt_two).mp pow
    refine ⟨pos, size.mpr (by omega), ?_⟩
    have := Nat.two_pow_pos (Nat.size (val - 1))
    rw [pow2, clog_eq_size]
    omega
  · rintro ⟨pos, small, rfl⟩
    have eq := spread.eq (by omega)
    have pow : 2 ^ Nat.size (val - 1) ≤ 2 ^ 31 := Nat.pow_le_pow_right Nat.two_pos (size.mp small)
    have := Nat.two_pow_pos (Nat.size (val - 1))
    refine ⟨_, ⟨pos, rfl⟩, by omega, ?_⟩
    rw [pow2, clog_eq_size]
    omega

theorem pow2U32_noPanic (val : Nat) :
    NoPanic (pow2U32 val) (fun n => 1 ≤ val ∧ val ≤ 2 ^ 31 ∧ n = pow2 val) := by
  have fails : NoPanic (pow2U32 val) fun _ => True :=
    (sub32_noPanic val 1).bind fun v _ => (add32_noPanic _ 1).mono fun _ _ => trivial
  cases run : pow2U32 val with
  | error e => exact fails.error run
  | ok n => exact pow2U32_ok.mp run

theorem leadingZeros_two_pow {k : Nat} : leadingZeros (2 ^ k) = 31 - k := by
  rw [leadingZeros, Nat.size_pow]
  omega

end R2
