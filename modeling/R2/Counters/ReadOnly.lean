import R2.Counters.Flavors

namespace R2

def isContinuation (byte : UInt8) : Bool := 128 ≤ byte && byte < 192

def isPair (a b : UInt8) : Bool := 194 ≤ a && a < 224 && isContinuation b

def isTriple (a b c : UInt8) : Bool :=
  224 ≤ a && a < 240 && isContinuation b && (a != 224 || 160 ≤ b) && (a != 237 || b < 160) && isContinuation c

def isQuadruple (a b c d : UInt8) : Bool :=
  240 ≤ a && a < 245 && isContinuation b && (a != 240 || 144 ≤ b) && (a != 244 || b < 144) && isContinuation c &&
    isContinuation d

/-- The byte strings that `str::from_utf8` takes. -/
def validUtf8 : List UInt8 → Bool
  | [] => true
  | a :: rest =>
    if a < 128 then validUtf8 rest
    else match rest with
      | [] => false
      | b :: rest =>
        if isPair a b then validUtf8 rest
        else match rest with
          | [] => false
          | c :: rest =>
            if isTriple a b c then validUtf8 rest
            else match rest with
              | [] => false
              | d :: rest => isQuadruple a b c d && validUtf8 rest

/-- Addresses of the cells of a counter in a read-only mapping. -/
structure CounterRO where
  val : List Nat
deriving DecidableEq, Repr

structure CountersRO where
  base : Nat
  hash : List UInt8 → Option CounterRO

namespace CounterRO

def new (base len : Nat) : Outcome CounterRO :=
  if len ≤ BinInfo.vec.binsz * BinInfo.vec.binmax then do
    let val ← (List.range (len / BinInfo.vec.binsz)).mapM fun i => add64 base (i * BinInfo.vec.binsz)
    .ok ⟨val⟩
  else .error .assertion

def search (parent : CountersRO) (node : List UInt8) (ctype : CounterType) (name : List UInt8) :
    Outcome (Option CounterRO) := do
  let key ← counterName node ctype name
  .ok (parent.hash key)

def numCntrs (c : CounterRO) : Nat := c.val.length

def read (c : CounterRO) (counters : CountersRO) (shm : Shm) (index : Nat) : Outcome Nat :=
  match c.val[index]? with
  | some addr => .ok (shm.cells (addr - counters.base))
  | none => .error .bounds

end CounterRO

namespace CountersRO

def nameOf (counters : CountersRO) (shm : Shm) (dir : Dir) : Outcome (List UInt8) :=
  (List.range dir.nameLen).mapM fun i => do
    let off ← add32 dir.nameOff i
    let addr ← add64 counters.base off
    .ok (shm.bytes (addr - counters.base))

def addDir (counters : CountersRO) (shm : Shm) (dir : Dir) : Outcome CountersRO :=
  if dir.nameLen = 0 ∨ dir.vecLen = 0 ∨ dir.nameLen > BinInfo.name.binmax * BinInfo.name.binsz ∨
      dir.vecLen > BinInfo.vec.binmax * BinInfo.vec.binsz then
    .ok counters
  else do
    let bytes ← counters.nameOf shm dir
    let name := if validUtf8 bytes then bytes else ascii "UNKNOWN"
    let addr ← add64 counters.base dir.vecOff
    let cntr ← CounterRO.new addr dir.vecLen
    .ok { counters with hash := Function.update counters.hash name (some cntr) }

/-- One turn of the loop of `new`. -/
def addEntry (shm : Shm) (counters : CountersRO) (i : Nat) : Outcome CountersRO := do
  let off ← mul32 i BinInfo.dir.binsz
  let addr ← add64 counters.base BinInfo.dir.start
  let addr ← add64 addr off
  counters.addDir shm (shm.dirs (addr - counters.base))

/-- The counters in the shared memory, mapped at `base`. -/
def new (base : Nat) (shm : Shm) : Outcome CountersRO :=
  (List.range shm.numCounters).foldlM (addEntry shm) ⟨base, fun _ => none⟩

end CountersRO

end R2
