import Mathlib.Logic.Function.Basic
import R2.Counters.Bin

namespace R2

/-- One of the areas of the shared memory. -/
structure BinInfo where
  binsz : Nat
  binmax : Nat
  pagesz : Nat
  start : Nat
  totsz : Nat

namespace BinInfo

def dir : BinInfo := ⟨16, 1, 4 * 1024, 64, 4 * 1024 * 1024⟩

def vec : BinInfo := ⟨8, 32, 4 * 1024, dir.start + dir.totsz, 16 * 1024 * 1024⟩

def name : BinInfo := ⟨32, 2, 4 * 1024, vec.start + vec.totsz, 32 * 1024 * 1024⟩

def bin (info : BinInfo) : Outcome Bin := Bin.new info.binsz info.totsz info.pagesz

end BinInfo

/-- A directory entry. -/
structure Dir where
  nameOff : Nat
  nameLen : Nat
  vecOff : Nat
  vecLen : Nat
deriving DecidableEq, Repr

/-- The shared memory, each area by the offset of what it holds. -/
structure Shm where
  numCounters : Nat
  dirs : Nat → Dir
  cells : Nat → Nat
  bytes : Nat → UInt8

namespace Shm

/-- `shm_open_rw` truncates, so what is mapped reads as zeroes. -/
def zero : Shm := ⟨0, fun _ => ⟨0, 0, 0, 0⟩, fun _ => 0, fun _ => 0⟩

def writeBytes (shm : Shm) (off : Nat) : List UInt8 → Shm
  | [] => shm
  | byte :: rest => writeBytes { shm with bytes := Function.update shm.bytes off byte } (off + 1) rest

def writeDir (shm : Shm) (off : Nat) (entry : Dir) : Shm := { shm with dirs := Function.update shm.dirs off entry }

def writeCell (shm : Shm) (off value : Nat) : Shm := { shm with cells := Function.update shm.cells off value }

end Shm

structure Dummy where
  dir : Nat
  base : Nat
deriving DecidableEq, Repr

structure Dummies where
  counter : Dummy
  pktsbytes : Dummy
  array : Dummy
deriving DecidableEq, Repr

/-- The counter pool; `base` is where the shared memory is mapped. -/
structure Counters where
  base : Nat
  dir : Bin
  vec : Bin
  names : Bin
  dummies : Dummies
  shm : Shm

/-- The bytes of a string literal. -/
def ascii (s : String) : List UInt8 := s.toList.map fun c => c.toNat.toUInt8

namespace Counters

/-- Allocate a counter with `name` and `nvecs` cells next to each other. -/
def get (counters : Counters) (name : List UInt8) (nvecs : Nat) : Outcome ((Nat × Nat) × Counters) := do
  let veclen ← mul32 (nvecs % 2 ^ 32) BinInfo.vec.binsz
  let (daddr, dir) ← counters.dir.get BinInfo.dir.binsz
  let (vaddr, vec) ← counters.vec.get veclen
  let (naddr, names) ← counters.names.get (name.length % 2 ^ 32)
  let counters := { counters with dir, vec, names }
  match daddr, vaddr, naddr with
  | some daddr, some vaddr, some naddr => do
    let daddr ← add64 daddr counters.base
    let daddr ← add64 daddr BinInfo.dir.start
    let vaddr ← add64 vaddr counters.base
    let vaddr ← add64 vaddr BinInfo.vec.start
    let naddr ← add64 naddr counters.base
    let naddr ← add64 naddr BinInfo.name.start
    let shm := counters.shm.writeBytes (naddr - counters.base) name
    let shm := shm.writeDir (daddr - counters.base)
      { nameOff := (naddr - counters.base) % 2 ^ 32, nameLen := name.length % 2 ^ 32,
        vecOff := (vaddr - counters.base) % 2 ^ 32, vecLen := veclen }
    let shm := { shm with numCounters := counters.dir.offset % 2 ^ 32 / BinInfo.dir.binsz }
    .ok ((daddr, vaddr), { counters with shm })
  | some daddr, some vaddr, none => do
    let dir ← counters.dir.free daddr veclen
    let vec ← counters.vec.free vaddr veclen
    .ok ((0, 0), { counters with dir, vec })
  | some daddr, none, _ => do
    let dir ← counters.dir.free daddr veclen
    .ok ((0, 0), { counters with dir })
  | none, _, _ => .ok ((0, 0), counters)

/-- Free the counter of a directory entry. -/
def free (counters : Counters) (dir : Nat) : Outcome Counters := do
  let d := counters.shm.dirs (dir - counters.base)
  let noff ← sub64 d.nameOff BinInfo.name.start
  let names ← counters.names.free noff d.nameLen
  let voff ← sub64 d.vecOff BinInfo.vec.start
  let vec ← counters.vec.free voff d.vecLen
  let shm := counters.shm.writeDir (dir - counters.base) ⟨0, 0, 0, 0⟩
  let start ← add64 counters.base BinInfo.dir.start
  let daddr ← sub64 dir start
  let dir ← counters.dir.free daddr BinInfo.dir.binsz
  .ok { counters with dir, vec, names, shm }

/-- One counter for everyone who asks for one when there is no more room. -/
def makeDummies (counters : Counters) : Outcome Counters := do
  let ((dir, base), counters) ← counters.get (ascii "dummy1") 1
  let counters := { counters with dummies := { counters.dummies with counter := ⟨dir, base⟩ } }
  let ((dir, base), counters) ← counters.get (ascii "dummy2") 2
  let counters := { counters with dummies := { counters.dummies with pktsbytes := ⟨dir, base⟩ } }
  let ((dir, base), counters) ← counters.get (ascii "dummyN") BinInfo.vec.binmax
  .ok { counters with dummies := { counters.dummies with array := ⟨dir, base⟩ } }

def new (base : Nat) : Outcome Counters := do
  let dir ← BinInfo.dir.bin
  let vec ← BinInfo.vec.bin
  let names ← BinInfo.name.bin
  makeDummies { base, dir, vec, names, dummies := ⟨⟨0, 0⟩, ⟨0, 0⟩, ⟨0, 0⟩⟩, shm := .zero }

end Counters

end R2
