import Mathlib.Data.Prod.Lex
import Mathlib.Tactic.Simps.Basic
import R2.Base.SortedMap
import R2.Hfsc.Curves
import R2.Packet.Packet

namespace R2

structure Key where
  time : Nat
  index : Nat
deriving DecidableEq, Repr

def Key.lex (k : Key) : Nat ×ₗ Nat := toLex (k.time, k.index)

theorem Key.lex_injective : Function.Injective Key.lex := by
  rintro ⟨t, i⟩ ⟨t', i'⟩ same
  obtain ⟨rfl, rfl⟩ := Prod.mk.inj same
  rfl

/-- The order `Key::cmp` gives to keys it does not panic on. -/
instance : LinearOrder Key := LinearOrder.lift' Key.lex Key.lex_injective

theorem Key.le_iff {a b : Key} : a ≤ b ↔ a.time < b.time ∨ a.time = b.time ∧ a.index ≤ b.index :=
  Prod.Lex.toLex_le_toLex

theorem Key.lt_iff {a b : Key} : a < b ↔ a.time < b.time ∨ a.time = b.time ∧ a.index < b.index :=
  Prod.Lex.toLex_lt_toLex

def Key.cmp (self other : Key) : Outcome Ordering :=
  if self.index = other.index then
    if self.time = other.time then .ok .eq else .error .assertion
  else if self.time < other.time then
    .ok .lt
  else if self.time > other.time then
    .ok .gt
  else if self.index < other.index then
    .ok .lt
  else
    .ok .gt

abbrev KeyMap := SortedMap Key Nat

/-- A search in a `BTreeMap` compares the key with the entries on one path.
Here it is compared with every entry, so a search that passes here cannot
fail an assertion whatever the shape of the tree. -/
def KeyMap.search (m : KeyMap) (k : Key) : Outcome Unit :=
  m.entries.forM fun e => do
    let _ ← k.cmp e.1
    .ok ()

def KeyMap.insertKey (m : KeyMap) (k : Key) (v : Nat) : Outcome KeyMap := do
  m.search k
  .ok (m.insert k v)

def KeyMap.removeKey (m : KeyMap) (k : Key) : Outcome KeyMap := do
  m.search k
  .ok (m.erase k)

structure Class where
  inUse : Bool
  leaf : Bool
  parent : Nat
  index : Nat
  qlimit : Nat
  qdrops : Nat
  eligible : Nat
  deadline : Nat
  vtime : Nat
  vmin : Nat
  vmax : Nat
  voff : Nat
  pvoff : Nat
  vadj : Nat
  vperiod : Nat
  pvperiod : Nat
  fBytes : Nat
  rBytes : Nat
  fIsc : InternalSc
  rIsc : Option InternalSc
  uIsc : Option InternalSc
  fRun : RuntimeSc
  eRun : RuntimeSc
  dRun : RuntimeSc
  uRun : RuntimeSc
  nactive : Nat
  children : KeyMap
  packets : List Packet

/-- The internal curve of an optional service curve, and the runtime curve
that starts it at the origin. -/
def startCurve : Option Sc → Outcome (Option InternalSc × RuntimeSc)
  | none => .ok (none, .zero)
  | some sc => do
    let isc ← sc2isc sc
    .ok (some isc, runtimeInit isc 0 0)

def Class.new (parent index qlimit : Nat) (isLeaf : Bool) (pvoff : Nat) (curves : Curves) : Outcome Class := do
  let (rIsc, rRun) ← startCurve curves.rSc
  let (uIsc, uRun) ← startCurve curves.uSc
  let fIsc ← sc2isc curves.fSc
  .ok {
    inUse := true, leaf := isLeaf, parent := parent, index := index, qlimit := qlimit, qdrops := 0,
    eligible := 0, deadline := 0, vtime := 0, vmin := 0, vmax := 0, voff := 0, pvoff := pvoff, vadj := 0,
    vperiod := 0, pvperiod := 0, fBytes := 0, rBytes := 0, fIsc := fIsc, rIsc := rIsc, uIsc := uIsc,
    fRun := runtimeInit fIsc 0 0, eRun := rRun, dRun := rRun, uRun := uRun, nactive := 0,
    children := ∅, packets := [] }

def Class.dummy : Class :=
  let fIsc : InternalSc := ⟨0, htInfinity, 0, 0, 0, htInfinity⟩
  { inUse := false, leaf := false, parent := 0, index := 0, qlimit := 0, qdrops := 0,
    eligible := 0, deadline := 0, vtime := 0, vmin := 0, vmax := 0, voff := 0, pvoff := 0, vadj := 0,
    vperiod := 0, pvperiod := 0, fBytes := 0, rBytes := 0, fIsc := fIsc, rIsc := none, uIsc := none,
    fRun := runtimeInit fIsc 0 0, eRun := .zero, dRun := .zero, uRun := .zero, nactive := 0,
    children := ∅, packets := [] }

namespace Class

/-- The eligible curve that goes with a deadline curve: equal to it when
concave, the line of slope `m2` when convex. -/
def eligibleCurve (rIsc : InternalSc) (dRun : RuntimeSc) : RuntimeSc :=
  if rIsc.sm1 ≤ rIsc.sm2 then { dRun with dx := 0, dy := 0 } else dRun

def initEd (c : Class) (nextLen curTime : Nat) : Outcome Class :=
  match c.rIsc with
  | none => .ok c
  | some rIsc => do
    let dRun ← rtscMin c.dRun rIsc curTime c.fBytes
    let eRun := eligibleCurve rIsc dRun
    let eligible ← rtscY2x eRun c.fBytes
    let served ← add64 c.fBytes nextLen
    let deadline ← rtscY2x dRun served
    .ok { c with dRun := dRun, eRun := eRun, eligible := eligible, deadline := deadline }

def updateEd (c : Class) (nextLen : Nat) : Outcome Class := do
  let eligible ← rtscY2x c.eRun c.fBytes
  let served ← add64 c.fBytes nextLen
  let deadline ← rtscY2x c.dRun served
  .ok { c with eligible := eligible, deadline := deadline }

def updateD (c : Class) (nextLen : Nat) : Outcome Class := do
  let served ← add64 c.fBytes nextLen
  let deadline ← rtscY2x c.dRun served
  .ok { c with deadline := deadline }

def eligibleKey (c : Class) : Key := ⟨c.eligible, c.index⟩

def vtimeKey (c : Class) : Key := ⟨c.vtime, c.index⟩

-- the updates a parent walk makes, by name

@[simps] def withChildren (c : Class) (m : KeyMap) : Class := { c with children := m }

@[simps] def withVmin (c : Class) (v : Nat) : Class := { c with vmin := v }

@[simps] def raiseVmax (c : Class) (v : Nat) : Class := { c with vmax := max c.vmax v }

@[simps] def charge (c : Class) (len nactive : Nat) : Class := { c with fBytes := c.fBytes + len, nactive := nactive }

@[simps] def place (c : Class) (vtime vadj : Nat) : Class := { c with vtime := vtime, vadj := vadj }

@[simps] def withPackets (c : Class) (packets : List Packet) : Class := { c with packets := packets }

@[simps] def popRealtime (c : Class) (rest : List Packet) (len : Nat) : Class :=
  { c with packets := rest, rBytes := c.rBytes + len }

@[simps] def withTimes (c : Class) (eligible deadline : Nat) : Class :=
  { c with eligible := eligible, deadline := deadline }

@[simps] def withSchedule (c : Class) (dRun eRun : RuntimeSc) (eligible deadline : Nat) : Class :=
  { c with dRun := dRun, eRun := eRun, eligible := eligible, deadline := deadline }

@[simps] def joinAt (c : Class) (nactive vtime : Nat) : Class := { c with nactive := nactive, vtime := vtime }

@[simps] def openPeriod (c : Class) : Class := { c with voff := c.voff + c.vmax, vmax := 0, vmin := 0 }

@[simps] def beginAt (c : Class) (fRun : RuntimeSc) (voff pvperiod : Nat) : Class :=
  { c with voff := voff, fRun := fRun, vadj := 0, vperiod := c.vperiod + 1, pvperiod := pvperiod }

end Class

end R2
