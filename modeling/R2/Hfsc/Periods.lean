import R2.Hfsc.Reachable

namespace R2

/-- `child` becomes active under `parent` and takes `pvoff`; `keeps` tells whether
the offset it leaves for its own children stays. Or `child` goes idle, with the
`vmax` of `parent` afterwards. -/
inductive PeriodEvent
  | activated (parent child pvoff : Nat) (keeps : Bool)
  | idled (parent child vmax : Nat)
deriving DecidableEq

/-- The offset of the period that goes on in a class, or that its next active child begins. -/
def Class.childOffset (p : Class) : Nat := if p.children.entries.isEmpty then p.voff + p.vmax else p.voff

namespace Hfsc

/-- The virtual time a class takes when it becomes active. -/
def joinVtime (h : Hfsc) (c p : Class) : Outcome Nat :=
  match p.children.last? with
  | none => .ok 0
  | some (_, m) => do
    let last ← h.classAt m
    let vt ← meanVtime p.vmin last.vtime
    .ok (if p.vperiod ≠ c.pvperiod ∨ c.vtime < vt then vt else c.vtime)

/-- Whether `rtsc_min` moves the curve of a class to where it becomes active. -/
def curveMoves (h : Hfsc) (c p : Class) : Outcome Bool := do
  let vtime ← h.joinVtime c p
  let vt := vtime + (p.childOffset - c.pvoff)
  let f ← rtscMin c.fRun c.fIsc vt c.fBytes
  .ok (f.x == vt)

variable {h : Hfsc}

theorem joinVtime_first {c p : Class} (empty : p.children.entries = []) : h.joinVtime c p = .ok 0 := by
  simp only [joinVtime, SortedMap.last?_eq_none.mpr empty]

theorem joinVtime_last {c p last : Class} {key : Key} {m vt : Nat} (atLast : p.children.last? = some (key, m))
    (atM : h.classes[m]? = some last) (mean : meanVtime p.vmin last.vtime = .ok vt) :
    h.joinVtime c p = .ok (entryVtime c p vt) := by
  simp only [joinVtime, atLast, classAt_eq atM, Except.ok_bind, mean]
  rfl

theorem childOffset_first {p : Class} (empty : p.children.entries = []) : p.childOffset = p.voff + p.vmax := by
  rw [Class.childOffset, empty]
  rfl

theorem childOffset_last {p : Class} {e : Key × Nat} (atLast : p.children.last? = some e) :
    p.childOffset = p.voff := by
  rw [Class.childOffset, List.isEmpty_eq_false_iff.mpr fun empty => by
    rw [SortedMap.last?_eq_none.mpr empty] at atLast
    cases atLast]
  rfl

theorem curveMoves_eq {c p : Class} {vtime : Nat} {f : RuntimeSc} (join : h.joinVtime c p = .ok vtime)
    (minimum : rtscMin c.fRun c.fIsc (vtime + (p.childOffset - c.pvoff)) c.fBytes = .ok f) :
    h.curveMoves c p = .ok (f.x == vtime + (p.childOffset - c.pvoff)) := by
  simp only [curveMoves, join, Except.ok_bind, minimum]

/-- A class whose curve moves is left without an offset; any other takes that
of its own parent. -/
def keepsOffset (h : Hfsc) (c p : Class) : Bool :=
  match h.curveMoves c p with
  | .ok true => c.voff == 0
  | .ok false => c.voff == p.childOffset - c.pvoff
  | .error _ => false

/-- The `pvoff` with which `init_v` starts the curve of a class: `init_v` up to there. -/
def handed (h : Hfsc) (cls : Nat) : Outcome Nat := do
  let c ← h.classAt cls
  let nactive ← add64 c.nactive 1
  let h := h.setClass cls { c with nactive := nactive }
  let p ← h.classAt c.parent
  let (pvoff, _) ← h.joinParent cls c.parent p
  .ok pvoff

def activation (h : Hfsc) (cls : Nat) : List PeriodEvent :=
  match h.classes[cls]? with
  | none => []
  | some c =>
    match h.classes[c.parent]?, h.handed cls with
    | some p, .ok pvoff =>
      if c.parent ≠ 0 ∧ c.nactive = 0 then [.activated c.parent cls pvoff (h.keepsOffset c p)] else []
    | _, _ => []

/-- The classes that the walk of `init_v` makes active. -/
def initLog : Nat → Hfsc → Nat → List PeriodEvent
  | 0, _, _ => []
  | fuel + 1, h, cls =>
    h.activation cls ++
      match initVStep h cls true with
      | .ok (h, some pindex) => initLog fuel h pindex
      | _ => []

/-- The classes that go idle with `cls`. -/
def idleLog : Nat → Hfsc → Nat → List PeriodEvent
  | 0, _, _ => []
  | fuel + 1, h, cls =>
    match h.classes[cls]? with
    | none => []
    | some c =>
      match h.classes[c.parent]? with
      | none => []
      | some p =>
        if c.parent ≠ 0 ∧ c.nactive = 1 then
          .idled c.parent cls (max p.vmax c.vtime) :: idleLog fuel h c.parent
        else []

/-- What a call does to backlog periods: the first packet of a queue makes its
class active, and the last one makes it idle. -/
def callLog (h : Hfsc) : HfscOp × HfscEvent → List PeriodEvent
  | (.enqueue classid _ _, .enqueued true) =>
    if (queueOf h classid).isEmpty then initLog h.walkFuel h classid else []
  | (.dequeue _, .dequeued (some (classid, _))) =>
    if (queueOf h classid).length = 1 then idleLog h.walkFuel h classid else []
  | _ => []

/-- The backlog periods of a run. -/
def periods : Hfsc → List (HfscOp × HfscEvent) → List PeriodEvent
  | _, [] => []
  | h, (op, event) :: rest =>
    h.callLog (op, event) ++
      match h.step op with
      | .ok (_, h) => periods h rest
      | .error _ => []

end Hfsc

/-- For every class: how many of its children are active, the offset that was
taken last, and `vmax` when the last period ended. -/
structure Ledger where
  active : Nat → Nat
  offset : Nat → Option Nat
  closing : Nat → Nat

namespace Ledger

def fresh : Ledger := ⟨fun _ => 0, fun _ => none, fun _ => 0⟩

def note (l : Ledger) : PeriodEvent → Ledger
  | .activated p _ pvoff _ =>
    { l with active := Function.update l.active p (l.active p + 1), offset :=
    Function.update l.offset p (some pvoff) }
  | .idled p _ vmax =>
    { l with
      active := Function.update l.active p (l.active p - 1)
      closing := if l.active p = 1 then Function.update l.closing p vmax else l.closing }

def noteAll (l : Ledger) (events : List PeriodEvent) : Ledger := events.foldl note l

/-- `good` holds of every event, in the ledger as it is before the event. -/
def Along (good : Ledger → PeriodEvent → Prop) : Ledger → List PeriodEvent → Prop
  | _, [] => True
  | l, e :: rest => good l e ∧ Along good (l.note e) rest

/-- The children of a period take one offset, which for the next period is
larger by the `vmax` of the end of this one. -/
def OneOffset (l : Ledger) : PeriodEvent → Prop
  | .activated p _ pvoff _ =>
    if l.active p = 0 then ∀ b ∈ l.offset p, pvoff = b + l.closing p else l.offset p = some pvoff
  | .idled .. => True

/-- A class whose children were active keeps their offset when it becomes active. -/
def Keeps (l : Ledger) : PeriodEvent → Prop
  | .activated _ child _ keeps => (l.offset child).isSome → keeps = true
  | .idled .. => True

instance (l : Ledger) : DecidablePred l.OneOffset
  | .activated p _ pvoff _ => inferInstanceAs
      (Decidable (if l.active p = 0 then ∀ b ∈ l.offset p, pvoff = b + l.closing p else l.offset p = some pvoff))
  | .idled .. => .isTrue trivial

instance (l : Ledger) : DecidablePred l.Keeps
  | .activated _ child _ keeps => inferInstanceAs (Decidable ((l.offset child).isSome → keeps = true))
  | .idled .. => .isTrue trivial

instance alongDecidable (good : Ledger → PeriodEvent → Prop) [∀ l, DecidablePred (good l)] :
    ∀ l events, Decidable (Along good l events)
  | _, [] => .isTrue trivial
  | l, e :: rest =>
    have := alongDecidable good (l.note e) rest
    inferInstanceAs (Decidable (good l e ∧ Along good (l.note e) rest))

end Ledger

end R2
