import Mathlib.Data.List.AList
import R2.Hfsc.Class

namespace R2

/-- The clock `get_time_ns` is not a field here: each call that reads it takes
the reading as an argument. -/
structure Hfsc where
  root : Nat
  freeIndex : List Nat
  eligible : KeyMap
  classes : List Class
  classNames : AList (fun _ : String => Nat)
  pktsQueued : Nat

namespace Hfsc

/-- `self.classes[i]` -/
def classAt (h : Hfsc) (i : Nat) : Outcome Class :=
  match h.classes[i]? with
  | some c => .ok c
  | none => .error .bounds

def setClass (h : Hfsc) (i : Nat) (c : Class) : Hfsc := { h with classes := h.classes.set i c }

def new (bandwidth : Nat) : Outcome Hfsc := do
  let sc : Sc := ⟨0, 0, bandwidth⟩
  let root := 1
  let c ← Class.new 0 root 0 false 0 ⟨none, some sc, sc⟩
  .ok {
    root := root, freeIndex := [], eligible := ∅, classes := [Class.dummy, c],
    classNames := ((∅ : AList (fun _ : String => Nat)).insert "dummy" 0).insert "root" root, pktsQueued := 0 }

def hasClasses (h : Hfsc) : Outcome Bool := do
  let r ← h.classAt h.root
  .ok (!r.children.entries.isEmpty)

def createClass (h : Hfsc) (name parentName : String) (qlimit : Nat) (isLeaf : Bool) (curves : Curves) :
    Outcome (Except String Unit × Hfsc) :=
  if (h.classNames.lookup name).isSome then
    .ok (.error "Class already exits", h)
  else
    match h.classNames.lookup parentName with
    | none => .ok (.error "Parent not found", h)
    | some parent =>
      match h.classes[parent]? with
      | none => .ok (.error ("Invalid Parent " ++ toString parent), h)
      | some p =>
        if !p.inUse then
          .ok (.error ("Invalid Parent " ++ toString parent), h)
        else
          match h.freeIndex with
          | free :: rest => do
            let c ← Class.new parent free qlimit isLeaf p.pvoff curves
            let _ ← h.classAt free
            .ok (.ok (), { h.setClass free c with freeIndex := rest, classNames := h.classNames.insert name free })
          | [] => do
            let free := h.classes.length
            let c ← Class.new parent free qlimit isLeaf p.pvoff curves
            .ok (.ok (), { h with classes := h.classes ++ [c], classNames := h.classNames.insert name free })

/-- The walk over the eligible map, with the best class and deadline so far. -/
def getMinDLoop (h : Hfsc) (time : Nat) : List (Key × Nat) → Nat → Nat → Outcome Nat
  | [], cls, _ => .ok cls
  | (_, child) :: rest, cls, deadline => do
    let c ← h.classAt child
    if time < c.eligible then
      .ok cls
    else if c.deadline < deadline then
      getMinDLoop h time rest child c.deadline
    else
      getMinDLoop h time rest cls deadline

def getMinD (h : Hfsc) (time : Nat) : Outcome Nat := getMinDLoop h time h.eligible.entries 0 htInfinity

/-- Descends along the children of least virtual time. A descent longer than
the number of classes has met a class twice and never ends. -/
def getMinV : Nat → Hfsc → Nat → Outcome (Nat × Hfsc)
  | 0, _, _ => .error .diverges
  | fuel + 1, h, parent => do
    let p ← h.classAt parent
    match p.children.first? with
    | none => .ok (0, h)
    | some (_, ch) => do
      let c ← h.classAt ch
      if c.parent ≠ parent then
        .error .assertion
      else do
        let h := if p.vmin < c.vtime then h.setClass parent { p with vmin := c.vtime } else h
        let (r, h) ← getMinV fuel h ch
        if r = 0 then
          .ok (if c.leaf then ch else 0, h)
        else
          .ok (r, h)

/-- The virtual time of a class that stays active, never behind its parent's
`vmin`. -/
def advanceVtime (c : Class) (pvmin : Nat) : Outcome Class := do
  let x ← rtscY2x c.fRun c.fBytes
  let shifted ← sub64 x c.voff
  let vtime ← add64 shifted c.vadj
  if vtime < pvmin then do
    let vadj ← add64 c.vadj (pvmin - vtime)
    .ok { c with vtime := pvmin, vadj := vadj }
  else
    .ok { c with vtime := vtime }

/-- One class of the walk of `update_v`: the state after it, and the parent to
go on with and whether the class went passive. -/
def updateVStep (h : Hfsc) (cls len : Nat) (passive : Bool) : Outcome (Hfsc × Option (Nat × Bool)) := do
  let c ← h.classAt cls
  let pindex := c.parent
  if pindex = 0 then
    .ok (h, none)
  else do
    let fBytes ← add64 c.fBytes len
    if c.nactive = 0 then
      .ok (h.setClass cls { c with fBytes := fBytes }, some (pindex, passive))
    else do
      let nactive := if passive then c.nactive - 1 else c.nactive
      let goPassive := passive && nactive == 0
      let key := c.vtimeKey
      let h := h.setClass cls { c with fBytes := fBytes, nactive := nactive }
      let p ← h.classAt pindex
      if pindex ≠ p.index then
        .error .assertion
      else do
        let children ← p.children.removeKey key
        let p := { p with children := children }
        if goPassive then
          .ok (h.setClass pindex { p with vmax := max p.vmax key.time }, some (pindex, goPassive))
        else do
          let h := h.setClass pindex p
          let c ← h.classAt cls
          let c ← advanceVtime c p.vmin
          let h := h.setClass cls c
          let p ← h.classAt pindex
          let children ← p.children.insertKey ⟨c.vtime, cls⟩ cls
          .ok (h.setClass pindex { p with children := children }, some (pindex, goPassive))

/-- The walk ends at the root class. One longer than the number of classes has
met a class twice and never ends. -/
def updateV (len : Nat) : Nat → Hfsc → Nat → Bool → Outcome Hfsc
  | 0, _, _, _ => .error .diverges
  | fuel + 1, h, cls, passive => do
    match ← updateVStep h cls len passive with
    | (h, none) => .ok h
    | (h, some (pindex, goPassive)) => updateV len fuel h pindex goPassive

/-- The active sibling of largest virtual time, `(0, 0)` if there is none. -/
def maxActive (h : Hfsc) (p : Class) : Outcome (Nat × Nat) :=
  match p.children.last? with
  | none => .ok (0, 0)
  | some (_, cmax) => do
    let m ← h.classAt cmax
    .ok (cmax, m.vtime)

/-- Where a class joins its active siblings: the mean of the least virtual
time served so far and the largest one. -/
def meanVtime (pvmin maxVtime : Nat) : Outcome Nat :=
  if pvmin = 0 then
    .ok maxVtime
  else do
    let sum ← add64 pvmin maxVtime
    .ok (sum / 2)

def joinPeriod (h : Hfsc) (cls pvmin pvperiod maxVtime : Nat) : Outcome Hfsc := do
  let vt ← meanVtime pvmin maxVtime
  let c ← h.classAt cls
  if pvperiod ≠ c.pvperiod ∨ c.vtime < vt then
    .ok (h.setClass cls { c with vtime := vt })
  else
    .ok h

/-- The first class to become active starts a backlog period of its parent. -/
def startPeriod (h : Hfsc) (cls pindex : Nat) : Outcome (Nat × Hfsc) := do
  let p ← h.classAt pindex
  let voff ← add64 p.voff p.vmax
  let h := h.setClass pindex { p with voff := voff, vmax := 0, vmin := 0 }
  let c ← h.classAt cls
  .ok (voff, h.setClass cls { c with vtime := 0 })

/-- The fair-share curve of a class that becomes active. -/
def startCurveAt (c : Class) (pvoff pvperiod pnactive : Nat) : Outcome Class := do
  let voff ← sub64 pvoff c.pvoff
  let vt ← add64 c.vtime voff
  let fRun ← rtscMin c.fRun c.fIsc vt c.fBytes
  let vperiod ← add64 c.vperiod 1
  let pvperiod ← add64 pvperiod (if pnactive = 0 then 1 else 0)
  if fRun.x = vt then
    .ok { c with
      voff := 0, fRun := { fRun with x := fRun.x - voff }, vadj := 0, vperiod := vperiod, pvperiod := pvperiod }
  else
    .ok { c with voff := voff, fRun := fRun, vadj := 0, vperiod := vperiod, pvperiod := pvperiod }

def enterSiblings (h : Hfsc) (cls pindex pvoff pvperiod pnactive : Nat) : Outcome Hfsc := do
  let c ← h.classAt cls
  let c ← startCurveAt c pvoff pvperiod pnactive
  let h := h.setClass cls c
  let p ← h.classAt pindex
  let children ← p.children.insertKey c.vtimeKey cls
  .ok (h.setClass pindex { p with children := children })

/-- What a class that goes active takes over from its parent `p`: its virtual time, and `pvoff`. -/
def joinParent (h : Hfsc) (cls pindex : Nat) (p : Class) : Outcome (Nat × Hfsc) := do
  let (maxChild, maxVtime) ← h.maxActive p
  if maxChild ≠ 0 then do
    let h ← h.joinPeriod cls p.vmin p.vperiod maxVtime
    .ok (p.voff, h)
  else
    h.startPeriod cls pindex

/-- The part of `init_v` for a class that goes active. -/
def goActive (h : Hfsc) (cls pindex : Nat) : Outcome Hfsc := do
  let p ← h.classAt pindex
  if p.index ≠ pindex then
    .error .assertion
  else do
    let (pvoff, h) ← h.joinParent cls pindex p
    h.enterSiblings cls pindex pvoff p.vperiod p.nactive

/-- One class of the walk of `init_v`: the state after it, and the parent to
go on with if the class went active. -/
def initVStep (h : Hfsc) (cls : Nat) (active : Bool) : Outcome (Hfsc × Option Nat) := do
  let c ← h.classAt cls
  let pindex := c.parent
  if pindex = 0 then
    .ok (h, none)
  else do
    let nactive ← add64 c.nactive (if active then 1 else 0)
    let h := h.setClass cls { c with nactive := nactive }
    if active && c.nactive == 0 then do
      let h ← h.goActive cls pindex
      .ok (h, some pindex)
    else
      .ok (h, none)

def initV : Nat → Hfsc → Nat → Bool → Outcome Hfsc
  | 0, _, _, _ => .error .diverges
  | fuel + 1, h, cls, active => do
    match ← initVStep h cls active with
    | (h, none) => .ok h
    | (h, some pindex) => initV fuel h pindex true

/-- More turns than any walk that ends can take. -/
def walkFuel (h : Hfsc) : Nat := h.classes.length + 1

def destroyClass (h : Hfsc) (index : Nat) : Outcome (Nat × Hfsc) :=
  match h.classes[index]? with
  | none => .ok (0, h)
  | some c =>
    if !c.inUse then
      .ok (0, h)
    else do
      let retire (h : Hfsc) : Outcome (Nat × Hfsc) :=
        .ok (index, { h.setClass index Class.dummy with freeIndex := h.freeIndex ++ [index] })
      if c.packets.isEmpty then
        retire h
      else do
        let h ← updateV 0 h.walkFuel h index true
        if c.rIsc.isSome then do
          let eligible ← h.eligible.removeKey c.eligibleKey
          retire { h with eligible := eligible }
        else
          retire h

/-- What `enqueue` does before the first packet of an empty queue. -/
def startBacklog (h : Hfsc) (classid len now : Nat) : Outcome Hfsc := do
  let h ← initV h.walkFuel h classid true
  let c ← h.classAt classid
  if c.rIsc.isSome then do
    let c ← c.initEd len now
    let eligible ← h.eligible.insertKey c.eligibleKey classid
    .ok { h.setClass classid c with eligible := eligible }
  else
    .ok h

def pushBack (h : Hfsc) (classid : Nat) (pkt : Packet) : Outcome (Bool × Hfsc) := do
  let c ← h.classAt classid
  let queued ← add64 h.pktsQueued 1
  .ok (true, { h.setClass classid { c with packets := c.packets ++ [pkt] } with pktsQueued := queued })

def enqueue (h : Hfsc) (classid : Nat) (pkt : Packet) (now : Nat) : Outcome (Bool × Hfsc) :=
  match h.classes[classid]? with
  | none => .ok (false, h)
  | some c =>
    if !c.inUse then
      .ok (false, h)
    else if c.qlimit ≠ 0 ∧ c.qlimit ≤ c.packets.length then do
      let qdrops ← add64 c.qdrops 1
      .ok (false, h.setClass classid { c with qdrops := qdrops })
    else if c.packets.length = 0 then do
      let h ← h.startBacklog classid pkt.len now
      h.pushBack classid pkt
    else
      h.pushBack classid pkt

/-- The real-time branch of `dequeue`, after the packet was popped: `rest` is
the queue left behind. -/
def rescheduleRealtime (h : Hfsc) (child : Nat) (c : Class) (rest : List Packet) : Outcome Hfsc :=
  match c.rIsc, rest with
  | none, _ => .ok (h.setClass child c)
  | some _, [] => do
    let eligible ← h.eligible.removeKey c.eligibleKey
    .ok { h.setClass child c with eligible := eligible }
  | some _, next :: _ => do
    let eligible ← h.eligible.removeKey c.eligibleKey
    let c ← c.updateEd next.len
    let eligible ← eligible.insertKey c.eligibleKey child
    .ok { h.setClass child c with eligible := eligible }

/-- The same for the link-sharing branch. -/
def rescheduleLinkshare (h : Hfsc) (child : Nat) (c : Class) (rest : List Packet) : Outcome Hfsc :=
  match c.rIsc, rest with
  | none, _ => .ok (h.setClass child c)
  | some _, [] => do
    let eligible ← h.eligible.removeKey c.eligibleKey
    .ok { h.setClass child c with eligible := eligible }
  | some _, next :: _ => do
    let c ← c.updateD next.len
    .ok (h.setClass child c)

/-- Charges the popped packet and takes it off the count. -/
def finishDequeue (h : Hfsc) (child : Nat) (pkt : Packet) (rest : List Packet) :
    Outcome (Option (Nat × Packet) × Hfsc) := do
  let h ← updateV pkt.len h.walkFuel h child rest.isEmpty
  let queued ← sub64 h.pktsQueued 1
  .ok (some (child, pkt), { h with pktsQueued := queued })

def serveRealtime (h : Hfsc) (child : Nat) : Outcome (Option (Nat × Packet) × Hfsc) := do
  let c ← h.classAt child
  match c.packets with
  | [] => .ok (none, h)
  | pkt :: rest => do
    let rBytes ← add64 c.rBytes pkt.len
    let h ← h.rescheduleRealtime child { c with packets := rest, rBytes := rBytes } rest
    h.finishDequeue child pkt rest

def serveLinkshare (h : Hfsc) (child : Nat) : Outcome (Option (Nat × Packet) × Hfsc) := do
  let c ← h.classAt child
  match c.packets with
  | [] => .ok (none, h)
  | pkt :: rest => do
    let h ← h.rescheduleLinkshare child { c with packets := rest } rest
    h.finishDequeue child pkt rest

/-- `dequeue`, which here also names the class the packet came from. -/
def dequeueFrom (h : Hfsc) (time : Nat) : Outcome (Option (Nat × Packet) × Hfsc) := do
  let child ← h.getMinD time
  if child ≠ 0 then
    h.serveRealtime child
  else do
    let (child, h) ← getMinV h.walkFuel h h.root
    if child ≠ 0 then h.serveLinkshare child else .ok (none, h)

def dequeue (h : Hfsc) (time : Nat) : Outcome (Option Packet × Hfsc) := do
  let (served, h) ← h.dequeueFrom time
  .ok (served.map Prod.snd, h)

end Hfsc

end R2
