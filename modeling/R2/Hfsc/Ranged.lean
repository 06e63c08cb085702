import R2.Hfsc.Horizon
import R2.Hfsc.Shape

namespace R2

/-- What runs of few calls and bytes keep of a class, whatever its curves. -/
structure Class.Ranged (calls work : Nat) (c : Class) : Prop where
  pvoff : c.pvoff = 0
  fair : c.parent ≠ 0 → c.fIsc.Small ∧ Fitted c.fIsc c.fRun c.fBytes ∧ c.fRun.x < horizon
  vadj : c.vadj < horizon
  lasts : c.parent ≠ 0 → c.nactive ≠ 0 → c.fRun.Lasts c.fBytes c.voff
  real : ∀ r, c.rIsc = some r → r.Small ∧ Fitted r c.dRun c.fBytes ∧ c.dRun.x < horizon ∧
    (c.eRun = Class.eligibleCurve r c.dRun ∨ c.eRun = c.dRun)
  fBytes : c.fBytes ≤ work
  vperiod : c.vperiod ≤ calls
  nactive : c.nactive ≤ calls
  qdrops : c.qdrops ≤ calls

/-- The virtual times of a class lie before the horizon. -/
structure Class.Timely (c : Class) : Prop where
  vtime : c.vtime < horizon
  vmin : c.vmin < horizon
  offset : c.voff + c.vmax < horizon

namespace Class.Ranged

variable {calls calls' work work' : Nat} {c c' : Class}

theorem mono (ranged : c.Ranged calls work) (le : calls ≤ calls') (more : work ≤ work') : c.Ranged calls' work' :=
  { ranged with
    fBytes := ranged.fBytes.trans more, vperiod := ranged.vperiod.trans le,
    nactive := ranged.nactive.trans le, qdrops := ranged.qdrops.trans le }

theorem withChildren (ranged : c.Ranged calls work) (m : KeyMap) : (c.withChildren m).Ranged calls work :=
  { ranged with }

theorem initEd_noOverflow {len now : Nat} (ranged : c.Ranged calls work) (bytes : work + len < 2 ^ 62)
    (clock : now < 2 ^ 62) (reaches : ∀ r d, c.rIsc = some r → rtscMin c.dRun r now c.fBytes = .ok d →
      d.Reaches (c.fBytes + len)) : NoOverflow (c.initEd len now) (fun _ => True) := by
  have far := horizon_add
  have fBytes := ranged.fBytes
  unfold Class.initEd
  split
  · trivial
  · rename_i r curve
    obtain ⟨small, fitted, start, _⟩ := ranged.real r curve
    refine (fitted.rtscMin small (by omega) (by omega)).with_run.bind fun d both => ?_
    obtain ⟨run, fitted', moved⟩ := both
    have start' : d.x < horizon := by
      rcases moved with rfl | there
      · exact start
      · omega
    have behind := fitted'.behind
    have reached := reaches r d curve run
    refine (fitted'.eligible small (by omega) start' reached (Nat.le_add_right ..) (Or.inl rfl)).bind fun _ _ => ?_
    refine (add64_noOverflow (by omega)).bind fun served isServed => ?_
    subst isServed
    exact (fitted'.rtscY2x small (by omega) start' reached).bind fun _ _ => trivial

theorem initEd {len now : Nat} (ranged : c.Ranged calls work) (clock : now < 2 ^ 62)
    (run : c.initEd len now = .ok c') : c'.Ranged calls work := by
  have far := horizon_add
  cases curve : c.rIsc with
  | none =>
    rw [Hfsc.initEd_none curve] at run
    exact Except.ok.inj run ▸ ranged
  | some r =>
    obtain ⟨d, eligible, deadline, minimum, _, _, rfl⟩ := Hfsc.initEd_some curve run
    refine { ranged with real := fun r' curve' => ?_ }
    obtain rfl : r = r' := Option.some.inj (curve.symm.trans curve')
    obtain ⟨small, fitted, start, _⟩ := ranged.real r curve
    obtain ⟨fitted', moved⟩ := fitted.min small.cut minimum
    have start' : d.x < horizon := by
      rcases moved with rfl | there
      · exact start
      · omega
    exact ⟨small, fitted', start', Or.inl rfl⟩

/-- The times of the next packet. -/
theorem deadline_noOverflow {len : Nat} {r : InternalSc} (ranged : c.Ranged calls work)
    (bytes : c.fBytes + len < 2 ^ 62) (curve : c.rIsc = some r) (reaches : c.dRun.Reaches (c.fBytes + len)) :
    NoOverflow (c.updateD len) (fun _ => True) ∧ NoOverflow (c.updateEd len) (fun _ => True) := by
  obtain ⟨small, fitted, start, eligible⟩ := ranged.real r curve
  have behind := fitted.behind
  have deadline : NoOverflow (c.updateD len) (fun _ => True) := by
    refine (add64_noOverflow (by omega)).bind fun served isServed => ?_
    subst isServed
    exact (fitted.rtscY2x small (by omega) start reaches).bind fun _ _ => trivial
  refine ⟨deadline, ?_⟩
  refine (fitted.eligible small (by omega) start reaches (Nat.le_add_right ..) eligible).bind fun _ _ => ?_
  refine (add64_noOverflow (by omega)).bind fun served isServed => ?_
  subst isServed
  exact (fitted.rtscY2x small (by omega) start reaches).bind fun _ _ => trivial

theorem withTimes (ranged : c.Ranged calls work) (eligible deadline : Nat) :
    (c.withTimes eligible deadline).Ranged calls work := { ranged with }

/-- A class that is charged and stays active, before its new virtual time. -/
theorem advance_noOverflow {len n pvmin : Nat} (ranged : c.Ranged calls work) (below : c.parent ≠ 0)
    (active : c.nactive ≠ 0) (bytes : work < 2 ^ 62) (reaches : c.fRun.Reaches (c.fBytes + len))
    (mark : pvmin < horizon) : NoOverflow (Hfsc.advanceVtime (c.charge len n) pvmin) (fun _ => True) := by
  obtain ⟨small, fitted, start⟩ := ranged.fair below
  have least := fitted.lasts_reach small (ranged.lasts below active) (Nat.le_add_right ..) reaches
  have most := fitted.reach_lt small start reaches
  have behind := fitted.behind
  have fBytes := ranged.fBytes
  have vadj := ranged.vadj
  have far := horizon_add
  refine (fitted.rtscY2x small (by omega) start reaches).bind fun x isX => ?_
  subst isX
  refine (sub64_noOverflow least).bind fun shifted isShifted => ?_
  subst isShifted
  refine (add64_noOverflow (show _ + c.vadj < 2 ^ 64 by omega)).bind fun vtime _ => ?_
  refine Ensures.ite (fun _ => ?_) fun _ => trivial
  exact (add64_noOverflow (show c.vadj + (pvmin - vtime) < 2 ^ 64 by omega)).bind fun _ _ => trivial

theorem charge {n : Nat} (ranged : c.Ranged calls work) (len : Nat) (less : n ≤ c.nactive) :
    (c.charge len n).Ranged calls (work + len) where
  pvoff := ranged.pvoff
  fair below := by
    obtain ⟨small, fitted, start⟩ := ranged.fair below
    exact ⟨small, fitted.mono (Nat.le_add_right ..), start⟩
  vadj := ranged.vadj
  lasts below active := by
    obtain ⟨small, fitted, _⟩ := ranged.fair below
    have before : c.nactive ≠ 0 := fun none => active (Nat.le_zero.mp (none ▸ less))
    exact fitted.lasts_mono small (ranged.lasts below before) (Nat.le_add_right ..)
  real r curve := by
    obtain ⟨small, fitted, rest⟩ := ranged.real r curve
    exact ⟨small, fitted.mono (Nat.le_add_right ..), rest⟩
  fBytes := Nat.add_le_add_right ranged.fBytes len
  vperiod := ranged.vperiod
  nactive := less.trans ranged.nactive
  qdrops := ranged.qdrops

theorem advance {pvmin : Nat} (ranged : c.Ranged calls work) (mark : pvmin < horizon)
    (run : Hfsc.advanceVtime c pvmin = .ok c') : c'.Ranged calls work := by
  obtain ⟨x, _, _, rfl⟩ := Hfsc.advanceVtime_ok run
  have vadj := ranged.vadj
  have less : c.vadj + (pvmin - (x - c.voff + c.vadj)) < horizon := by omega
  exact { ranged with vadj := less }

/-- A class that becomes active at `vtime`. -/
theorem start_noOverflow {vtime pvoff pvperiod pnactive : Nat} (ranged : c.Ranged calls work) (below : c.parent ≠ 0)
    (bytes : work < 2 ^ 62) (few : c.vperiod + 1 < 2 ^ 64 ∧ pvperiod + 1 < 2 ^ 64) (entry : vtime < horizon)
    (offset : pvoff < horizon) :
    NoOverflow (Hfsc.startCurveAt (c.joinAt 1 vtime) pvoff pvperiod pnactive) (fun _ => True) := by
  obtain ⟨small, fitted, _⟩ := ranged.fair below
  have fBytes := ranged.fBytes
  have far := horizon_add
  have voff : pvoff - c.pvoff = pvoff := by rw [ranged.pvoff, Nat.sub_zero]
  refine (sub64_noOverflow (show c.pvoff ≤ pvoff by rw [ranged.pvoff]; omega)).bind fun off isOff => ?_
  obtain rfl : off = pvoff := isOff.trans voff
  refine (add64_noOverflow (show vtime + off < 2 ^ 64 by omega)).bind fun vt isVt => ?_
  subst isVt
  refine (fitted.rtscMin small (by omega) (show vtime + off + 2 ^ 52 ≤ 2 ^ 64 by omega)).bind fun f _ => ?_
  refine (add64_noOverflow few.1).bind fun _ _ => ?_
  refine (add64_noOverflow (show pvperiod + (if pnactive = 0 then 1 else 0) < 2 ^ 64 by split <;> omega)).bind
    fun _ _ => ?_
  exact Ensures.ite (fun _ => trivial) fun _ => trivial

/-- Its offset lasts, if its curve is kept only where the inverse slopes agree. -/
theorem start {vtime pvoff pvperiod pnactive : Nat} (ranged : c.Ranged calls work) (below : c.parent ≠ 0)
    (entry : vtime < horizon)
    (run : Hfsc.startCurveAt (c.joinAt 1 vtime) pvoff pvperiod pnactive = .ok c')
    (kept : ∀ f, rtscMin c.fRun c.fIsc (vtime + (pvoff - c.pvoff)) c.fBytes = .ok f →
      f.x ≠ vtime + (pvoff - c.pvoff) → c.fRun.Lasts c.fBytes (pvoff - c.pvoff)) : c'.Ranged (calls + 1) work := by
  obtain ⟨small, fitted, before⟩ := ranged.fair below
  obtain ⟨f, _, minimum, outcome⟩ := Hfsc.startCurveAt_ok run
  obtain ⟨fitted', moved⟩ := fitted.min small.cut minimum
  have more := ranged.mono (Nat.le_succ calls) (le_refl work)
  rcases outcome with ⟨_, rfl⟩ | ⟨away, rfl⟩
  · exact { more with
      fair := fun _ => ⟨small, fitted'.moved vtime, entry⟩
      vadj := horizon_pos
      lasts := fun _ _ => Or.inr (Nat.zero_le _)
      vperiod := Nat.succ_le_succ ranged.vperiod
      nactive := Nat.succ_le_succ (Nat.zero_le calls) }
  · obtain rfl := moved.resolve_right away
    exact { more with
      fair := fun _ => ⟨small, fitted, before⟩
      vadj := horizon_pos
      lasts := fun _ _ => kept _ minimum away
      vperiod := Nat.succ_le_succ ranged.vperiod
      nactive := Nat.succ_le_succ (Nat.zero_le calls) }

end Class.Ranged

end R2
