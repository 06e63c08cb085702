import R2.Outcome

namespace R2

def smShift : Nat := 24
def ismShift : Nat := 10
def smMask : Nat := 2 ^ 24 - 1
def ismMask : Nat := 2 ^ 10 - 1
def htInfinity : Nat := 2 ^ 64 - 1
def hfscFreq : Nat := 1000000000

/-- A service curve as configured: slope `m1` for `d` milliseconds, then `m2`. -/
structure Sc where
  m1 : Nat
  d : Nat
  m2 : Nat
deriving DecidableEq, Repr, Inhabited

structure Curves where
  rSc : Option Sc
  uSc : Option Sc
  fSc : Sc
deriving DecidableEq, Repr

structure InternalSc where
  sm1 : Nat
  ism1 : Nat
  dx : Nat
  dy : Nat
  sm2 : Nat
  ism2 : Nat
deriving DecidableEq, Repr

structure RuntimeSc where
  x : Nat
  y : Nat
  sm1 : Nat
  ism1 : Nat
  dx : Nat
  dy : Nat
  sm2 : Nat
  ism2 : Nat
deriving DecidableEq, Repr

def RuntimeSc.zero : RuntimeSc := ⟨0, 0, 0, 0, 0, 0, 0, 0⟩

def segX2y (x sm : Nat) : Outcome Nat := do
  let upper ← mul64 (x >>> smShift) sm
  let lower ← mul64 (x &&& smMask) sm
  add64 upper (lower >>> smShift)

def segY2x (y ism : Nat) : Outcome Nat :=
  if y = 0 then
    .ok 0
  else if ism = htInfinity then
    .ok htInfinity
  else do
    let upper ← mul64 (y >>> ismShift) ism
    let lower ← mul64 (y &&& ismMask) ism
    add64 upper (lower >>> ismShift)

def m2sm (m : Nat) : Nat := shl64 m smShift / 8 / hfscFreq

def m2ism (m : Nat) : Nat := if m = 0 then htInfinity else shl64 hfscFreq ismShift * 8 / m

def d2dx (d : Nat) : Outcome Nat := do
  let scaled ← mul64 d hfscFreq
  .ok (scaled / 1000)

def sc2isc (sc : Sc) : Outcome InternalSc := do
  let dx ← d2dx sc.d
  let dy ← segX2y dx (m2sm sc.m1)
  .ok ⟨m2sm sc.m1, m2ism sc.m1, dx, dy, m2sm sc.m2, m2ism sc.m2⟩

/-- The runtime curve that starts at `(x, y)`. -/
def runtimeInit (isc : InternalSc) (x y : Nat) : RuntimeSc :=
  ⟨x, y, isc.sm1, isc.ism1, isc.dx, isc.dy, isc.sm2, isc.ism2⟩

def rtscY2x (rtsc : RuntimeSc) (y : Nat) : Outcome Nat :=
  if y < rtsc.y then
    .ok rtsc.x
  else do
    let top ← add64 rtsc.y rtsc.dy
    if y ≤ top then
      -- x belongs to the first segment
      if rtsc.dy = 0 then
        add64 rtsc.x rtsc.dx
      else do
        let seg ← segY2x (y - rtsc.y) rtsc.ism1
        add64 rtsc.x seg
    else do
      let x ← add64 rtsc.x rtsc.dx
      let seg ← segY2x (y - rtsc.y - rtsc.dy) rtsc.ism2
      add64 x seg

def rtscX2y (rtsc : RuntimeSc) (x : Nat) : Outcome Nat :=
  if x ≤ rtsc.x then
    .ok rtsc.y
  else do
    let right ← add64 rtsc.x rtsc.dx
    if x ≤ right then do
      let seg ← segX2y (x - rtsc.x) rtsc.sm1
      add64 rtsc.y seg
    else do
      let y ← add64 rtsc.y rtsc.dy
      let seg ← segX2y (x - rtsc.x - rtsc.dx) rtsc.sm2
      add64 y seg

/-- Adds what is left of the first segment of `rtsc` beyond `x`. -/
def addFirstSegment (rtsc : RuntimeSc) (x dx : Nat) : Outcome Nat := do
  let right ← add64 rtsc.x rtsc.dx
  if x < right then add64 dx (right - x) else .ok dx

/-- The two concave curves intersect; `y1` is the value of `rtsc` at `x`. -/
def rtscMinCross (rtsc : RuntimeSc) (isc : InternalSc) (x y y1 : Nat) : Outcome RuntimeSc := do
  let dx ← addFirstSegment rtsc x (shl64 (y1 - y) smShift / (isc.sm1 - isc.sm2))
  let dy ← segX2y dx isc.sm1
  .ok { rtsc with x := x, y := y, dx := dx, dy := dy }

def rtscMin (rtsc : RuntimeSc) (isc : InternalSc) (x y : Nat) : Outcome RuntimeSc :=
  if isc.sm1 ≤ isc.sm2 then do
    -- the service curve is convex
    let y1 ← rtscX2y rtsc x
    if y1 < y then .ok rtsc else .ok { rtsc with x := x, y := y }
  else do
    let y1 ← rtscX2y rtsc x
    if y1 ≤ y then
      .ok rtsc
    else do
      let far ← add64 x isc.dx
      let y2 ← rtscX2y rtsc far
      let top ← add64 y isc.dy
      if top ≤ y2 then
        .ok { rtsc with x := x, y := y, dx := isc.dx, dy := isc.dy }
      else
        rtscMinCross rtsc isc x y y1

theorem segX2y_noPanic (x sm : Nat) : NoPanic (segX2y x sm) (fun _ => True) := by
  refine (mul64_noPanic _ _).bind fun _ _ => ?_
  refine (mul64_noPanic _ _).bind fun _ _ => ?_
  exact (add64_noPanic _ _).mono fun _ _ => trivial

theorem segY2x_noPanic (y ism : Nat) : NoPanic (segY2x y ism) (fun _ => True) := by
  refine Ensures.ite (fun _ => trivial) fun _ => Ensures.ite (fun _ => trivial) fun _ => ?_
  refine (mul64_noPanic _ _).bind fun _ _ => ?_
  refine (mul64_noPanic _ _).bind fun _ _ => ?_
  exact (add64_noPanic _ _).mono fun _ _ => trivial

theorem rtscY2x_noPanic (rtsc : RuntimeSc) (y : Nat) : NoPanic (rtscY2x rtsc y) (fun _ => True) := by
  refine Ensures.ite (fun _ => trivial) fun _ => ?_
  refine (add64_noPanic _ _).bind fun _ _ => Ensures.ite (fun _ => Ensures.ite (fun _ => ?_) fun _ => ?_) fun _ => ?_
  · exact (add64_noPanic _ _).mono fun _ _ => trivial
  · exact (segY2x_noPanic _ _).bind fun _ _ => (add64_noPanic _ _).mono fun _ _ => trivial
  · refine (add64_noPanic _ _).bind fun _ _ => ?_
    exact (segY2x_noPanic _ _).bind fun _ _ => (add64_noPanic _ _).mono fun _ _ => trivial

theorem rtscX2y_noPanic (rtsc : RuntimeSc) (x : Nat) : NoPanic (rtscX2y rtsc x) (fun _ => True) := by
  refine Ensures.ite (fun _ => trivial) fun _ => ?_
  refine (add64_noPanic _ _).bind fun _ _ => Ensures.ite (fun _ => ?_) fun _ => ?_
  · exact (segX2y_noPanic _ _).bind fun _ _ => (add64_noPanic _ _).mono fun _ _ => trivial
  · refine (add64_noPanic _ _).bind fun _ _ => ?_
    exact (segX2y_noPanic _ _).bind fun _ _ => (add64_noPanic _ _).mono fun _ _ => trivial

theorem rtscMinCross_noPanic (rtsc : RuntimeSc) (isc : InternalSc) (x y y1 : Nat) :
    NoPanic (rtscMinCross rtsc isc x y y1) (fun _ => True) := by
  have offset (dx : Nat) : NoPanic (addFirstSegment rtsc x dx) (fun _ => True) := by
    refine (add64_noPanic _ _).bind fun _ _ => Ensures.ite (fun _ => ?_) fun _ => trivial
    exact (add64_noPanic _ _).mono fun _ _ => trivial
  exact (offset _).bind fun _ _ => (segX2y_noPanic _ _).bind fun _ _ => trivial

theorem rtscMin_noPanic (rtsc : RuntimeSc) (isc : InternalSc) (x y : Nat) :
    NoPanic (rtscMin rtsc isc x y) (fun _ => True) := by
  refine Ensures.ite (fun _ => ?_) fun _ => ?_
  · exact (rtscX2y_noPanic _ _).bind fun _ _ => Ensures.ite (fun _ => trivial) fun _ => trivial
  · refine (rtscX2y_noPanic _ _).bind fun _ _ => Ensures.ite (fun _ => trivial) fun _ => ?_
    refine (add64_noPanic _ _).bind fun _ _ => ?_
    refine (rtscX2y_noPanic _ _).bind fun _ _ => ?_
    exact (add64_noPanic _ _).bind fun _ _ =>
      Ensures.ite (fun _ => trivial) fun _ => rtscMinCross_noPanic _ _ _ _ _

end R2
