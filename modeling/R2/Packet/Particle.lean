import Mathlib.Algebra.Ring.Int.Defs
import R2.Outcome
import R2.Base.Bytes

namespace R2

/-- One buffer of a packet's chain. `ptr` is the address its `BoxPart` holds;
`next` is the rest of the list the particle sits in. -/
structure Particle where
  ptr : Nat
  raw : List UInt8
  head : Nat
  tail : Nat
  head_le_tail : head ≤ tail
deriving DecidableEq

/-- `raw[lo..hi]`. -/
def slice (raw : List UInt8) (lo hi : Nat) : Outcome (List UInt8) :=
  if lo ≤ hi ∧ hi ≤ raw.length then .ok (window raw lo hi) else .error .bounds

/-- `raw[lo..hi].clone_from_slice(bytes)`, which also panics on unequal lengths. -/
def copyFromSlice (raw : List UInt8) (lo hi : Nat) (bytes : List UInt8) : Outcome (List UInt8) :=
  if lo ≤ hi ∧ hi ≤ raw.length ∧ bytes.length = hi - lo then .ok (overwrite raw lo bytes) else .error .bounds

namespace Particle

def reinit (p : Particle) (headroom : Nat) : Particle :=
  { p with head := headroom, tail := headroom, head_le_tail := le_rfl }

theorem empty_le : (0 : Nat) ≤ 0 :=
  le_rfl

def len (p : Particle) : Nat := p.tail - p.head

def data (p : Particle) (offset : Nat) : Outcome (Option (List UInt8 × Nat)) :=
  if p.len ≤ offset then
    .ok none
  else do
    let bytes ← slice p.raw (p.head + offset) p.tail
    .ok (some (bytes, p.len - offset))

def dataRaw (p : Particle) (offset : Nat) : List UInt8 :=
  if p.raw.length ≤ offset then [] else p.raw.drop offset

/-- Add data behind the head, as much as there is room for. -/
def prepend (p : Particle) (bytes : List UInt8) : Outcome (Nat × Particle) :=
  let dlen := bytes.length
  if p.head < dlen then do
    let count := p.head
    let raw ← copyFromSlice p.raw 0 count (window bytes (dlen - count) dlen)
    .ok (count, { p with raw := raw, head := 0, head_le_tail := Nat.zero_le _ })
  else do
    let count := dlen
    let raw ← copyFromSlice p.raw (p.head - count) p.head (window bytes 0 count)
    .ok (count, { p with
      raw := raw, head := p.head - count
      head_le_tail := Nat.sub_le_of_le_add (by have := p.head_le_tail; omega) })

/-- Add data after the tail, as much as there is room for. -/
def append (p : Particle) (bytes : List UInt8) : Outcome (Nat × Particle) := do
  let room ← sub64 p.raw.length p.tail
  let len := min room bytes.length
  let raw ← copyFromSlice p.raw p.tail (p.tail + len) (window bytes 0 len)
  .ok (len, { p with raw := raw, tail := p.tail + len, head_le_tail := Nat.le_add_right_of_le p.head_le_tail })

/-- `n as isize`. -/
def toIsize (n : Nat) : Int := if n < 2 ^ 63 then n else (n : Int) - 2 ^ 64

/-- `mv` is an `isize`; a sum that leaves the `isize` range exceeds every buffer
length, so the guard rejects it here as it does after wrapping. -/
def moveTail (p : Particle) (mv : Int) : Int × Particle :=
  let newTail : Int := p.tail + mv
  if bad : newTail < p.head ∨ newTail > p.raw.length then
    (0, p)
  else
    (mv, { p with tail := newTail.toNat, head_le_tail := by omega })

def moveHead (p : Particle) (mv : Int) : Int × Particle :=
  let newHead : Int := p.head + mv
  if bad : newHead < 0 ∨ newHead > p.tail then
    (0, p)
  else
    (mv, { p with head := newHead.toNat, head_le_tail := by omega })

end Particle

end R2
