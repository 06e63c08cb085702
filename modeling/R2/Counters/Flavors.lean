import R2.Counters.Counters

namespace R2

inductive CounterType
  | error
  | info
  | pkts
deriving DecidableEq, Repr

def CounterType.tag : CounterType → List UInt8
  | .error => ascii "/error/"
  | .info => ascii "/info/"
  | .pkts => ascii "/pkts/"

/-- The first byte of a character of a `String`. -/
def isCharBoundary (byte : UInt8) : Bool := byte < 128 || 192 ≤ byte

/-- Strings are their UTF-8 bytes; `truncate` asks for a character boundary. -/
def counterName (node : List UInt8) (ctype : CounterType) (name : List UInt8) : Outcome (List UInt8) :=
  let cntr := node ++ ctype.tag ++ name
  let maxNamelen := BinInfo.name.binsz * BinInfo.name.binmax
  match cntr[maxNamelen]? with
  | none => .ok cntr
  | some byte => if isCharBoundary byte then .ok (cntr.take maxNamelen) else .error .panicked

structure Counter where
  dir : Nat
  count : Nat
deriving DecidableEq, Repr

structure PktsBytes where
  dir : Nat
  pkts : Nat
  bytes : Nat
deriving DecidableEq, Repr

structure CounterArray where
  dir : Nat
  array : List Nat
deriving DecidableEq, Repr

namespace Counters

/-- A new counter of `nvecs` cells, or the dummy when there is no room. -/
def allocate (counters : Counters) (node : List UInt8) (ctype : CounterType) (name : List UInt8) (nvecs : Nat)
    (dummy : Dummies → Dummy) : Outcome ((Nat × Nat) × Counters) := do
  let name ← counterName node ctype name
  let ((dir, base), counters) ← counters.get name nvecs
  if dir = 0 then .ok (((dummy counters.dummies).dir, (dummy counters.dummies).base), counters)
  else .ok ((dir, base), counters)

/-- The dummy belongs to everyone and is never freed. -/
def release (counters : Counters) (dir : Nat) (dummy : Dummies → Dummy) : Outcome Counters :=
  if dir ≠ (dummy counters.dummies).dir then counters.free dir else .ok counters

/-- A cell of a counter, at an address of the mapping. -/
def cell (counters : Counters) (addr : Nat) : Nat := counters.shm.cells (addr - counters.base)

def setCell (counters : Counters) (addr val : Nat) : Nat × Counters :=
  (val, { counters with shm := counters.shm.writeCell (addr - counters.base) val })

def addCell (counters : Counters) (addr val : Nat) : Outcome (Nat × Counters) := do
  let sum ← add64 (counters.cell addr) val
  .ok (counters.setCell addr sum)

def subCell (counters : Counters) (addr val : Nat) : Outcome (Nat × Counters) := do
  let rest ← sub64 (counters.cell addr) val
  .ok (counters.setCell addr rest)

end Counters

namespace Counter

def new (counters : Counters) (node : List UInt8) (ctype : CounterType) (name : List UInt8) :
    Outcome (Counter × Counters) := do
  let ((dir, base), counters) ← counters.allocate node ctype name 1 Dummies.counter
  .ok (⟨dir, base⟩, counters)

def free (c : Counter) (counters : Counters) : Outcome Counters := counters.release c.dir Dummies.counter

def add (c : Counter) (counters : Counters) (val : Nat) : Outcome (Nat × Counters) := counters.addCell c.count val

def sub (c : Counter) (counters : Counters) (val : Nat) : Outcome (Nat × Counters) := counters.subCell c.count val

end Counter

namespace PktsBytes

def new (counters : Counters) (node : List UInt8) (ctype : CounterType) (name : List UInt8) :
    Outcome (PktsBytes × Counters) := do
  let ((dir, base), counters) ← counters.allocate node ctype name 2 Dummies.pktsbytes
  let bytes ← add64 base BinInfo.vec.binsz
  .ok (⟨dir, base, bytes⟩, counters)

def free (c : PktsBytes) (counters : Counters) : Outcome Counters := counters.release c.dir Dummies.pktsbytes

def add (c : PktsBytes) (counters : Counters) (pkts bytes : Nat) : Outcome (Nat × Counters) := do
  let (_, counters) ← counters.addCell c.bytes bytes
  counters.addCell c.pkts pkts

def sub (c : PktsBytes) (counters : Counters) (pkts bytes : Nat) : Outcome (Nat × Counters) := do
  let (_, counters) ← counters.subCell c.bytes bytes
  counters.subCell c.pkts pkts

end PktsBytes

namespace CounterArray

def new (counters : Counters) (node : List UInt8) (ctype : CounterType) (name : List UInt8) (size : Nat) :
    Outcome (CounterArray × Counters) := do
  let veclen := min size BinInfo.vec.binmax
  let ((dir, base), counters) ← counters.allocate node ctype name veclen Dummies.array
  let array ← (List.range veclen).mapM fun i => add64 base (i * BinInfo.vec.binsz)
  .ok (⟨dir, array⟩, counters)

def free (c : CounterArray) (counters : Counters) : Outcome Counters := counters.release c.dir Dummies.array

def at? (c : CounterArray) (index : Nat) : Outcome Nat :=
  match c.array[index]? with
  | some addr => .ok addr
  | none => .error .bounds

def set (c : CounterArray) (counters : Counters) (index val : Nat) : Outcome (Nat × Counters) := do
  let addr ← c.at? index
  .ok (counters.setCell addr val)

def add (c : CounterArray) (counters : Counters) (index val : Nat) : Outcome (Nat × Counters) := do
  let addr ← c.at? index
  counters.addCell addr val

def sub (c : CounterArray) (counters : Counters) (index val : Nat) : Outcome (Nat × Counters) := do
  let addr ← c.at? index
  counters.subCell addr val

end CounterArray

/-- A counter of one of the three flavours. -/
inductive Handle
  | counter (c : Counter)
  | pktsBytes (c : PktsBytes)
  | array (c : CounterArray)
deriving DecidableEq, Repr

namespace Handle

def dir : Handle → Nat
  | counter c => c.dir
  | pktsBytes c => c.dir
  | array c => c.dir

/-- The addresses of its cells, in the order they were allocated. -/
def cells : Handle → List Nat
  | counter c => [c.count]
  | pktsBytes c => [c.pkts, c.bytes]
  | array c => c.array

def dummy : Handle → Dummies → Dummy
  | counter _ => Dummies.counter
  | pktsBytes _ => Dummies.pktsbytes
  | array _ => Dummies.array

def free (h : Handle) (counters : Counters) : Outcome Counters :=
  match h with
  | counter c => c.free counters
  | pktsBytes c => c.free counters
  | array c => c.free counters

/-- What the owner of a counter does to its cells. -/
inductive Update : Handle → Counters → Counters → Prop
  | add {c counters counters' val ret} : Counter.add c counters val = .ok (ret, counters') →
      Update (counter c) counters counters'
  | sub {c counters counters' val ret} : Counter.sub c counters val = .ok (ret, counters') →
      Update (counter c) counters counters'
  | addPkts {c counters counters' pkts bytes ret} : PktsBytes.add c counters pkts bytes = .ok (ret, counters') →
      Update (pktsBytes c) counters counters'
  | subPkts {c counters counters' pkts bytes ret} : PktsBytes.sub c counters pkts bytes = .ok (ret, counters') →
      Update (pktsBytes c) counters counters'
  | setAt {c counters counters' i val ret} : CounterArray.set c counters i val = .ok (ret, counters') →
      Update (array c) counters counters'
  | addAt {c counters counters' i val ret} : CounterArray.add c counters i val = .ok (ret, counters') →
      Update (array c) counters counters'
  | subAt {c counters counters' i val ret} : CounterArray.sub c counters i val = .ok (ret, counters') →
      Update (array c) counters counters'

end Handle

/-- The flavour of counter that is asked for. -/
inductive Flavor
  | counter
  | pktsBytes
  | array (size : Nat)
deriving DecidableEq, Repr

def Flavor.new (flavor : Flavor) (counters : Counters) (node : List UInt8) (ctype : CounterType) (name : List UInt8) :
    Outcome (Handle × Counters) :=
  match flavor with
  | counter => do
    let (c, counters) ← Counter.new counters node ctype name
    .ok (.counter c, counters)
  | pktsBytes => do
    let (c, counters) ← PktsBytes.new counters node ctype name
    .ok (.pktsBytes c, counters)
  | array size => do
    let (c, counters) ← CounterArray.new counters node ctype name size
    .ok (.array c, counters)

end R2
