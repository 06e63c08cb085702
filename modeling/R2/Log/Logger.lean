import Mathlib.Logic.Function.Basic
import R2.Base.Interleaving
import R2.Base.Words
import R2.Outcome

namespace R2.Log

def maxDebugs : Nat := 16

/-- The sizes of the values that can be dumped. -/
inductive Width
  | one
  | two
  | four
  | eight
deriving DecidableEq, Repr

def Width.bytes : Width → Nat
  | one => 1
  | two => 2
  | four => 4
  | eight => 8

theorem Width.bytes_pos (w : Width) : 0 < w.bytes := by cases w <;> decide

/-- A logged value. -/
structure Arg where
  width : Width
  val : Nat
  fits : val < 256 ^ width.bytes
deriving DecidableEq

def Arg.memory (a : Arg) : List UInt8 := toLe a.width.bytes a.val

/-- A place in the code with a `log!`; two places may have the same text. -/
structure Site where
  id : Nat
  format : String
  widths : List Width
  nonempty : widths ≠ []
deriving DecidableEq

/-- One execution of a `log!`, at time `now`. -/
structure Call where
  site : Site
  args : List Arg
  now : Nat
  widths : args.map Arg.width = site.widths
  fits : now < 256 ^ 8

/-- Meta data for each logging point in the code. -/
structure Entry where
  index : Nat
  format : String
  inited : Nat
  sizes : List Nat
deriving DecidableEq, Repr

/-- The static entry of a `log!` before its first execution. -/
def Entry.new (s : Site) : Entry := ⟨0, s.format, 0, List.replicate maxDebugs 0⟩

abbrev Statics := Site → Entry

/-- The relaxed atomic operations on the static entries, which all threads share. -/
inductive Access
  | loadIndex (entry : Site)
  | storeIndex (entry : Site) (val : Nat)
  | loadInited (entry : Site)
  | storeInited (entry : Site) (val : Nat)
  | storeSize (entry : Site) (index sz : Nat)
deriving DecidableEq

/-- A store answers nothing, so 0. -/
def Access.perform : Access → Statics → Nat × Statics
  | loadIndex entry, statics => ((statics entry).index, statics)
  | storeIndex entry val, statics => (0, Function.update statics entry { statics entry with index := val })
  | loadInited entry, statics => ((statics entry).inited, statics)
  | storeInited entry val, statics => (0, Function.update statics entry { statics entry with inited := val })
  | storeSize entry index sz, statics =>
    (0, Function.update statics entry { statics entry with sizes := (statics entry).sizes.set index sz })

/-- Code that runs in one thread while others log. -/
abbrev Logging := Program Access Nat Fault

def atomic (a : Access) : Logging Nat := .access a .done

/-- `base` is address 0 of `mem`. -/
structure Logger where
  esz : Nat
  emax : Nat
  stop : Nat
  enext : Nat
  index : Nat
  hash : Nat → Option Site
  mem : List UInt8

def load (mem : List UInt8) (addr n : Nat) : Outcome Nat :=
  if addr + n ≤ mem.length then .ok (ofLe (window mem addr (addr + n))) else .error .bounds

def store (mem : List UInt8) (addr : Nat) (bytes : List UInt8) : Outcome (List UInt8) :=
  if addr + bytes.length ≤ mem.length then .ok (overwrite mem addr bytes) else .error .bounds

structure Serial where
  index : Nat
  format : String
  timestamp : Nat
  vals : List Nat
deriving DecidableEq, Repr

def Serial.toJson (s : Serial) : String :=
  "\x7b \"index\": " ++ toString s.index ++ ", \"format\": \"" ++ s.format ++ "\", \"timestamp\": " ++
    toString s.timestamp ++ ", \"vals\": [" ++ ",".intercalate (s.vals.map toString) ++ "]\x7d"

namespace Logger

/-- The memory of a new logger is all zero. -/
def new (esz emax : Nat) : Outcome Logger := do
  let shmSz ← mul64 esz emax
  .ok ⟨esz, emax, 0, 0, 1, fun _ => none, List.replicate shmSz 0⟩

def stopped (l : Logger) : Nat := l.stop

/-- A new logging point is getting logged, get a unique index for it. -/
def entryIndex (l : Logger) (entry : Site) : Logging (Nat × Logger) := do
  let index ← atomic (.loadIndex entry)
  if index ≠ 0 then pure (index % 2 ^ 32, l)
  else do
    -- the lock is that of the logger, so it keeps nobody else from the entry
    let index ← atomic (.loadIndex entry)
    if index ≠ 0 then pure (index % 2 ^ 32, l)
    else do
      let val := l.index
      let next ← .ofExcept (add64 val 1)
      let _ ← atomic (.storeIndex entry val)
      pure (val % 2 ^ 32, { l with index := next, hash := Function.update l.hash val (some entry) })

def getEntry (l : Logger) (entry : Site) (now : Nat) : Logging (Nat × Logger) := do
  let cur := l.enext
  let enext ← .ofExcept (add64 cur 1)
  -- the remainder by zero
  if l.emax = 0 then .fail .panicked
  else do
    let cur := cur % l.emax
    let base := l.esz * cur
    let (index, l) ← ({ l with enext } : Logger).entryIndex entry
    let mem ← .ofExcept (store l.mem base (toLe 4 index))
    let mem ← .ofExcept (store mem (base + 4) (toLe 8 now))
    pure (base, { l with mem })

def storeSize (entry : Site) (index sz : Nat) : Logging Nat :=
  if index < maxDebugs then atomic (.storeSize entry index (sz % 2 ^ 8)) else pure 0

def storeInited (entry : Site) (last : Nat) : Logging Nat :=
  if last = 1 then atomic (.storeInited entry 1) else pure 0

/-- The first part of `copy`: the size of the value is stored on the first execution. -/
def note (entry : Site) (sz index last : Nat) : Logging Nat := do
  let inited ← atomic (.loadInited entry)
  if inited = 0 then do
    let _ ← storeSize entry index sz
    storeInited entry last
  else pure 0

/-- The second part of `copy`: the value is written if it fits. -/
def place (l : Logger) (val : Arg) (dst bytes : Nat) : Outcome (Nat × Logger) :=
  let overheads := 12
  let sz := val.width.bytes
  let d := dst + overheads + bytes
  if d + sz ≤ dst + l.esz then do
    let mem ← store l.mem d val.memory
    .ok (bytes + sz, { l with mem })
  else .ok (bytes + sz, l)

def copy (l : Logger) (entry : Site) (val : Arg) (dst bytes index last : Nat) : Logging (Nat × Logger) := do
  let _ ← note entry val.width.bytes index last
  .ofExcept (l.place val dst bytes)

/-- `log_helper!` expands to one `copy` for each value, of which only the last
has `last` set. -/
def logHelper (base : Nat) (entry : Site) : Nat → Nat → Nat → List Arg → Logger → Logging Logger
  | _, _, _, [], l => pure l
  | bytes, index, last, [e], l => do
    let (_, l) ← l.copy entry e base bytes index last
    pure l
  | bytes, index, _, e :: e' :: es, l => do
    let (b, l) ← l.copy entry e base bytes index 0
    logHelper base entry b (index + 1) 1 (e' :: es) l

/-- `log!` -/
def log (l : Logger) (c : Call) : Logging Logger :=
  if l.stopped = 0 then do
    let (base, l) ← l.getEntry c.site c.now
    logHelper base c.site 0 0 1 c.args l
  else pure l

/-- The values of a record, by the sizes of its entry. -/
def readVals (mem : List UInt8) (stop : Nat) : Nat → List Nat → Outcome (List Nat)
  | _, [] => .ok []
  | base, sz :: sizes =>
    if sz = 0 then .ok []
    else if stop < base + sz then .ok []
    else if sz = 1 ∨ sz = 2 ∨ sz = 4 ∨ sz = 8 then do
      let val ← load mem base sz
      let vals ← readVals mem stop (base + sz) sizes
      .ok (val :: vals)
    else .error .panicked

/-- What `serialize` finds in slot `e`. -/
def record (l : Logger) (statics : Statics) (e : Nat) : Outcome (Option Serial) := do
  let base := e * l.esz
  let stop := base + l.esz
  let index ← load l.mem base 4
  if index ≠ 0 then do
    let timestamp ← load l.mem (base + 4) 8
    match l.hash index with
    | none => .error .unwrap
    | some entry => do
      let vals ← readVals l.mem stop (base + 12) (statics entry).sizes
      .ok (some ⟨index, (statics entry).format, timestamp, vals⟩)
  else .ok none

/-- `write_all` of a text to a file that holds `file`; if it fails, what follows is left out. -/
def put (write : String → String → Except String Unit) (file text : String)
    (next : String → Outcome (String × Except String Unit)) : Outcome (String × Except String Unit) :=
  match write file text with
  | .ok () => next (file ++ text)
  | .error why => .ok (file, .error why)

/-- The loop of `serialize`; `file` is what has been written. -/
def serializeLoop (l : Logger) (statics : Statics) (write : String → String → Except String Unit) (start : Nat) :
    Nat → Nat → String → Outcome (String × Except String Unit)
  | 0, _, _ => .error .diverges
  | fuel + 1, e, file => do
    match ← l.record statics e with
    | some serial =>
      put write file serial.toJson fun file =>
        let e := (e + 1) % l.emax
        if e = start then put write file "\n]\x7d" fun file => .ok (file, .ok ())
        else put write file ",\n" fun file => l.serializeLoop statics write start fuel e file
    | none =>
      let e := (e + 1) % l.emax
      if e = start then put write file "\n]\x7d" fun file => .ok (file, .ok ())
      else l.serializeLoop statics write start fuel e file

/-- Dump the logs to a file, formatted as json: what is in the file, but for a text that
could not be written as a whole, and the answer. -/
def serializeTo (l : Logger) (statics : Statics) (write : String → String → Except String Unit) :
    Outcome (String × Except String Unit) :=
  if l.emax = 0 then .error .panicked
  else
    let start := l.enext % l.emax
    put write "" "\x7b\"logs\":[\n" fun file => l.serializeLoop statics write start l.emax start file

/-- The dump to a file that takes everything. -/
def serialize (l : Logger) (statics : Statics) : Outcome String := do
  let (file, _) ← l.serializeTo statics fun _ _ => .ok ()
  .ok file

end Logger

end R2.Log
