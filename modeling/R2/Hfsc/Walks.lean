import R2.Hfsc.Periods
import R2.Hfsc.Ranged

namespace R2

/-- What a call does with a runtime curve by its inverse slopes: a class is left with an offset
beside the curve, or the curve is read at `work`. -/
inductive CurveUse
  | offset (f : RuntimeSc) (work voff : Nat)
  | read (f : RuntimeSc) (work : Nat)
deriving DecidableEq

def CurveUse.Fits : CurveUse → Prop
  | .offset f work voff => f.Lasts work voff
  | .read f work => f.Reaches work

instance : ∀ u : CurveUse, Decidable u.Fits
  | .offset f work voff => inferInstanceAs (Decidable (f.Lasts work voff))
  | .read f work => inferInstanceAs (Decidable (f.Reaches work))

namespace Hfsc

/-- A class that becomes active with the curve it had. -/
def keptUses (h : Hfsc) (c p : Class) : List CurveUse :=
  match h.curveMoves c p with
  | .ok false => [.offset c.fRun c.fBytes (p.childOffset - c.pvoff)]
  | _ => []

/-- A class that is active on packets of its own takes the offset of its first child. -/
def openedUses (p : Class) : List CurveUse :=
  if p.children.entries.isEmpty ∧ p.nactive ≠ 0 then [.offset p.fRun p.fBytes p.childOffset] else []

/-- The classes that become active with `cls`. -/
def initUses : Nat → Hfsc → Nat → List CurveUse
  | 0, _, _ => []
  | fuel + 1, h, cls =>
    match h.classes[cls]? with
    | none => []
    | some c =>
      match h.classes[c.parent]? with
      | none => []
      | some p =>
        if c.parent ≠ 0 ∧ c.nactive = 0 then h.keptUses c p ++ openedUses p ++ initUses fuel h c.parent else []

/-- The classes that the walk of `update_v` charges and that stay active. -/
def chargeUses (len : Nat) : Nat → Hfsc → Nat → Bool → List CurveUse
  | 0, _, _, _ => []
  | fuel + 1, h, cls, passive =>
    match h.classes[cls]? with
    | none => []
    | some c =>
      if c.parent = 0 then
        []
      else if passive ∧ c.nactive = 1 then
        chargeUses len fuel h c.parent true
      else
        .read c.fRun (c.fBytes + len) :: chargeUses len fuel h c.parent false

variable {h : Hfsc} {calls work i : Nat}

/-- What the walk of `init_v` keeps up to class `i`. -/
structure Rising (calls work i : Nat) (h : Hfsc) : Prop where
  ranged : Every (Class.Ranged (calls + 1) work) h
  times : Every (fun c => c.vtime < horizon ∧ c.vmin < horizon) h
  ahead : ∀ j c, j ≤ i → h.classes[j]? = some c → c.Ranged calls work ∧ c.voff + c.vmax < horizon

theorem meanVtime_lt {pvmin maxVtime vt : Nat} (mark : pvmin < horizon) (last : maxVtime < horizon)
    (mean : meanVtime pvmin maxVtime = .ok vt) : vt < horizon := by
  unfold meanVtime at mean
  split at mean
  · cases mean
    exact last
  · obtain ⟨sum, atSum, mean⟩ := Except.bind_ok_iff.mp mean
    obtain ⟨_, rfl⟩ := add64_ok.mp atSum
    cases mean
    omega

theorem entryVtime_lt {c p : Class} {vt : Nat} (own : c.vtime < horizon) (mean : vt < horizon) :
    entryVtime c p vt < horizon := by
  unfold entryVtime
  split
  · exact mean
  · exact own

/-- A curve that is kept is used. -/
theorem keptUses_fits {c p : Class} {vtime : Nat} (join : h.joinVtime c p = .ok vtime)
    (fits : ∀ u ∈ h.keptUses c p, u.Fits) (f : RuntimeSc)
    (minimum : rtscMin c.fRun c.fIsc (vtime + (p.childOffset - c.pvoff)) c.fBytes = .ok f)
    (away : f.x ≠ vtime + (p.childOffset - c.pvoff)) : c.fRun.Lasts c.fBytes (p.childOffset - c.pvoff) := by
  have kept : h.curveMoves c p = .ok false := by
    rw [curveMoves_eq join minimum, beq_eq_false_iff_ne.mpr away]
  refine fits (.offset c.fRun c.fBytes (p.childOffset - c.pvoff)) ?_
  rw [keptUses, kept]
  exact List.mem_singleton_self _

theorem initUses_active {fuel : Nat} {c p : Class} (atI : h.classes[i]? = some c) (below : c.parent ≠ 0)
    (atP : h.classes[c.parent]? = some p) (passive : c.nactive = 0) :
    initUses (fuel + 1) h i = h.keptUses c p ++ openedUses p ++ initUses fuel h c.parent := by
  simp only [initUses, atI, atP]
  exact if_pos ⟨below, passive⟩

/-- Two records of one class that `initUses` does not tell apart. -/
structure SameEntry (c' c : Class) : Prop where
  parent : c'.parent = c.parent
  nactive : c'.nactive = c.nactive
  fRun : c'.fRun = c.fRun
  fIsc : c'.fIsc = c.fIsc
  fBytes : c'.fBytes = c.fBytes
  pvoff : c'.pvoff = c.pvoff
  vtime : c'.vtime = c.vtime
  pvperiod : c'.pvperiod = c.pvperiod

theorem SameEntry.keptUses {g : Hfsc} {c c' p : Class} (same : SameEntry c' c)
    (last : ∀ e, p.children.last? = some e → ∃ d d', h.classes[e.2]? = some d ∧ g.classes[e.2]? = some d' ∧
      d'.vtime = d.vtime) : g.keptUses c' p = h.keptUses c p := by
  have join : g.joinVtime c' p = h.joinVtime c p := by
    unfold joinVtime
    split
    · rfl
    · rename_i m atLast
      obtain ⟨d, d', atD, atD', vtime⟩ := last _ atLast
      rw [classAt_eq atD, classAt_eq atD', Except.ok_bind, Except.ok_bind, vtime, same.vtime, same.pvperiod]
  have moves : g.curveMoves c' p = h.curveMoves c p := by
    unfold curveMoves
    rw [join, same.pvoff, same.fRun, same.fIsc, same.fBytes]
  unfold Hfsc.keptUses
  rw [moves, same.fRun, same.fBytes, same.pvoff]

theorem initUses_congr {g : Hfsc} {own : Nat → Nat} {off : Nat → Int} {fuel : Nat} {c : Class} (tree : Tree h)
    (wired : Wired h own off) (atI : h.classes[i]? = some c) (pos : 1 ≤ i)
    (above : ∀ j < i, g.classes[j]? = h.classes[j]?)
    (beside : ∀ (j : Nat) (d : Class), h.classes[j]? = some d → d.parent < i →
      ∃ d', g.classes[j]? = some d' ∧ SameEntry d' d) :
    initUses fuel g i = initUses fuel h i := by
  induction fuel generalizing i c with
  | zero => rfl
  | succ fuel ih =>
    by_cases top : c.parent = 0
    · obtain ⟨c', atI', same⟩ := beside i c atI (by omega)
      simp only [initUses, atI, atI', same.parent, top, above 0 pos, ne_eq, not_true_eq_false, false_and, if_false]
    · obtain ⟨p, atP, _, less⟩ := tree.parent_exists atI top
      obtain ⟨c', atI', same⟩ := beside i c atI less
      have kept : g.keptUses c' p = h.keptUses c p := by
        refine same.keptUses fun e atLast => ?_
        obtain ⟨d, atD, parent, _⟩ := wired.entry_class atP (by omega) (SortedMap.last?_mem atLast)
        obtain ⟨d', atD', sibling⟩ := beside e.2 d atD (by omega)
        exact ⟨d, d', atD, atD', sibling.vtime⟩
      have rest := ih atP (by omega) (fun j low => above j (by omega)) fun j d atJ low => beside j d atJ (by omega)
      simp only [initUses, atI, atI', same.parent, same.nactive, above c.parent less, atP, kept, rest]

/-- The walk goes on with the uses that were found before it. -/
theorem InitStep.mem_initUses {g : Hfsc} {own : Nat → Nat} {off : Nat → Int} {fuel q : Nat} {c : Class}
    {u : CurveUse} (tree : Tree h) (wired : Wired h own off) (atI : h.classes[i]? = some c)
    (step : InitStep h i c g (some q)) (member : u ∈ initUses fuel g q) : u ∈ initUses (fuel + 1) h i := by
  have up {c' p p' : Class} (below : c.parent ≠ 0) (passive : c.nactive = 0) (atP : h.classes[c.parent]? = some p)
      (member : u ∈ initUses fuel ((h.setClass i c').setClass c.parent p') c.parent) (same : SameEntry p' p) :
      u ∈ initUses (fuel + 1) h i := by
    obtain ⟨_, _, _, less⟩ := tree.parent_exists atI below
    have away {j : Nat} (notI : j ≠ i) (notP : j ≠ c.parent) :
        ((h.setClass i c').setClass c.parent p').classes[j]? = h.classes[j]? :=
      (setClass_other (Ne.symm notP)).trans (setClass_other (Ne.symm notI))
    rw [initUses_congr tree wired atP (by omega) (fun j low => away (by omega) (by omega)) fun j d atJ low => ?_]
      at member
    · rw [initUses_active atI below atP passive]
      exact List.mem_append_right _ member
    · have notI : j ≠ i := by
        rintro rfl
        rw [atI] at atJ
        cases atJ
        omega
      by_cases isP : j = c.parent
      · rw [isP, atP] at atJ
        cases atJ
        exact ⟨p', by rw [isP]; exact setClass_self ((setClass_other (by omega)).trans atP), same⟩
      · exact ⟨d, (away notI isP).trans atJ, rfl, rfl, rfl, rfl, rfl, rfl, rfl, rfl⟩
  cases step with
  | join below atP passive => exact up below passive atP member ⟨rfl, rfl, rfl, rfl, rfl, rfl, rfl, rfl⟩
  | first below atP passive => exact up below passive atP member ⟨rfl, rfl, rfl, rfl, rfl, rfl, rfl, rfl⟩

/-- A class of the walk becomes active: its parent `p` becomes `p'`. -/
theorem Rising.enters {c c' p p' : Class} (tree : Tree h) (rising : Rising calls work i h)
    (atI : h.classes[i]? = some c) (below : c.parent ≠ 0) (atP : h.classes[c.parent]? = some p)
    (child : c'.Ranged (calls + 1) work ∧ c'.vtime < horizon ∧ c'.vmin < horizon)
    (parent : p'.Ranged calls work ∧ p'.vtime < horizon ∧ p'.vmin < horizon ∧ p'.voff + p'.vmax < horizon) :
    Rising calls work c.parent ((h.setClass i c').setClass c.parent p') := by
  obtain ⟨_, _, _, less⟩ := tree.parent_exists atI below
  obtain ⟨ranged, times, offset⟩ := parent
  refine ⟨rising.ranged.setPair (by omega) atI atP child.1 (ranged.mono (Nat.le_succ calls) le_rfl),
    rising.times.setPair (by omega) atI atP child.2 ⟨times, offset.1⟩, fun j d low atJ => ?_⟩
  rcases (setPair_iff c' p' (by omega) atI atP).mp atJ with ⟨_, rfl⟩ | ⟨rfl, _⟩ | ⟨_, _, atJ⟩
  · exact ⟨ranged, offset.2⟩
  · omega
  · exact rising.ahead j d (by omega) atJ

theorem InitStep.rising {c : Class} {h' : Hfsc} {next : Option Nat} (tree : Tree h) (rising : Rising calls work i h)
    (atI : h.classes[i]? = some c) (step : InitStep h i c h' next) {fuel : Nat}
    (fits : ∀ u ∈ initUses (fuel + 1) h i, u.Fits) : Rising calls work (next.getD 0) h' := by
  obtain ⟨ranged, _⟩ := rising.ahead i c le_rfl atI
  obtain ⟨vtime, vmin⟩ := rising.times i c atI
  cases step with
  | top => exact ⟨rising.ranged, rising.times, fun j d low => rising.ahead j d (low.trans (Nat.zero_le i))⟩
  | busy below active =>
    obtain ⟨_, _, _, less⟩ := tree.parent_exists atI below
    have more : (c.joinAt (c.nactive + 1) c.vtime).Ranged (calls + 1) work :=
      { ranged.mono (Nat.le_succ calls) le_rfl with
        lasts := fun _ _ => ranged.lasts below active.ne'
        nactive := Nat.succ_le_succ ranged.nactive }
    refine ⟨rising.ranged.setClass atI more, rising.times.setClass atI ⟨vtime, vmin⟩, fun j d low atJ => ?_⟩
    rcases (setClass_iff atI).mp atJ with ⟨rfl, _⟩ | ⟨_, atJ⟩
    · exact absurd (show j ≤ 0 from low) (by omega)
    · exact rising.ahead j d (le_trans (show j ≤ 0 from low) (Nat.zero_le i)) atJ
  | @join p key m last vt c' below atP passive atLast atM mean run =>
    obtain ⟨_, _, _, less⟩ := tree.parent_exists atI below
    obtain ⟨rangedP, offset⟩ := rising.ahead c.parent p (by omega) atP
    obtain ⟨vtimeP, vminP⟩ := rising.times c.parent p atP
    rw [initUses_active atI below atP passive, List.append_assoc] at fits
    have entry : entryVtime c p vt < horizon :=
      entryVtime_lt vtime (meanVtime_lt vminP (rising.times m last atM).1 mean)
    have kept := keptUses_fits (joinVtime_last atLast atM mean) fun u member =>
      fits u (List.mem_append_left _ member)
    rw [childOffset_last atLast] at kept
    obtain ⟨_, _, _, vtime', _, vmin', _⟩ := startCurveAt_keeps run
    exact rising.enters tree atI below atP ⟨ranged.start below entry run kept, vtime' ▸ entry, vmin' ▸ vmin⟩
      ⟨rangedP.withChildren _, vtimeP, vminP, offset⟩
  | @first p c' below atP passive empty run =>
    obtain ⟨_, _, _, less⟩ := tree.parent_exists atI below
    obtain ⟨rangedP, offset⟩ := rising.ahead c.parent p (by omega) atP
    obtain ⟨vtimeP, vminP⟩ := rising.times c.parent p atP
    rw [initUses_active atI below atP passive, List.append_assoc] at fits
    have kept := keptUses_fits (joinVtime_first empty) fun u member => fits u (List.mem_append_left _ member)
    rw [childOffset_first empty] at kept
    have opened (active : p.nactive ≠ 0) : p.fRun.Lasts p.fBytes (p.voff + p.vmax) := by
      rw [← childOffset_first empty]
      refine fits (.offset p.fRun p.fBytes p.childOffset) (List.mem_append_right _ (List.mem_append_left _ ?_))
      rw [openedUses, if_pos ⟨by rw [empty]; rfl, active⟩]
      exact List.mem_singleton_self _
    have opened : p.openPeriod.Ranged calls work := { rangedP with lasts := fun _ => opened }
    obtain ⟨_, _, _, vtime', _, vmin', _⟩ := startCurveAt_keeps run
    exact rising.enters tree atI below atP
      ⟨ranged.start below horizon_pos run kept, vtime' ▸ horizon_pos, vmin' ▸ vmin⟩
      ⟨opened.withChildren _, vtimeP, horizon_pos, offset⟩

theorem classAt_noOverflow (h : Hfsc) (i : Nat) : NoOverflow (h.classAt i) (fun c => h.classes[i]? = some c) := by
  unfold classAt
  split
  · assumption
  · exact nofun

theorem search_noOverflow (m : KeyMap) (k : Key) : NoOverflow (m.search k) (fun _ => True) := by
  have cmp (other : Key) : NoOverflow (k.cmp other) (fun _ => True) := by
    unfold Key.cmp
    refine Ensures.ite (fun _ => Ensures.ite (fun _ => trivial) fun _ => nofun) fun _ => ?_
    refine Ensures.ite (fun _ => trivial) fun _ => Ensures.ite (fun _ => trivial) fun _ => ?_
    exact Ensures.ite (fun _ => trivial) fun _ => trivial
  have each (l : List (Key × Nat)) :
      NoOverflow (l.forM fun e => do let _ ← k.cmp e.1; (.ok () : Outcome Unit)) (fun _ => True) := by
    induction l with
    | nil => exact trivial
    | cons e rest ih =>
      have head : NoOverflow (do let _ ← k.cmp e.1; (.ok () : Outcome Unit)) (fun _ => True) :=
        (cmp e.1).bind fun _ _ => trivial
      exact head.bind fun _ _ => ih
  exact each m.entries

theorem insertKey_noOverflow (m : KeyMap) (k : Key) (v : Nat) : NoOverflow (m.insertKey k v) (fun _ => True) :=
  (search_noOverflow m k).bind fun _ _ => trivial

theorem removeKey_noOverflow (m : KeyMap) (k : Key) : NoOverflow (m.removeKey k) (fun _ => True) :=
  (search_noOverflow m k).bind fun _ _ => trivial

theorem meanVtime_noOverflow {pvmin maxVtime : Nat} (mark : pvmin < horizon) (last : maxVtime < horizon) :
    NoOverflow (meanVtime pvmin maxVtime) (fun vt => vt < horizon) := by
  have far := horizon_add
  refine (Ensures.ite (fun _ => ?_) fun _ => ?_ :
    NoOverflow (meanVtime pvmin maxVtime) (fun _ => True)).with_run.mono fun vt both =>
      meanVtime_lt mark last both.1
  · exact trivial
  · exact (add64_noOverflow (by omega)).bind fun _ _ => trivial

theorem enterSiblings_noOverflow {q pvoff pvperiod pnactive : Nat} {c : Class} {vtime : Nat}
    (ranged : c.Ranged calls work) (below : c.parent ≠ 0) (bytes : work < 2 ^ 62)
    (few : c.vperiod + 1 < 2 ^ 64 ∧ pvperiod + 1 < 2 ^ 64) (entry : vtime < horizon) (offset : pvoff < horizon)
    (atI : h.classes[i]? = some (c.joinAt 1 vtime)) :
    NoOverflow (h.enterSiblings i q pvoff pvperiod pnactive) (fun _ => True) := by
  unfold enterSiblings
  rw [classAt_eq atI, Except.ok_bind]
  refine (ranged.start_noOverflow below bytes few entry offset).bind fun c' _ => ?_
  refine (classAt_noOverflow _ _).bind fun p _ => ?_
  exact (insertKey_noOverflow _ _ _).bind fun _ _ => trivial

theorem joinPeriod_noOverflow {pvmin pvperiod maxVtime : Nat} {c : Class}
    (atI : h.classes[i]? = some (c.joinAt 1 c.vtime)) (own : c.vtime < horizon) (mark : pvmin < horizon)
    (last : maxVtime < horizon) : NoOverflow (h.joinPeriod i pvmin pvperiod maxVtime)
      (fun h' => ∃ vtime < horizon, h'.classes[i]? = some (c.joinAt 1 vtime)) := by
  unfold joinPeriod
  refine (meanVtime_noOverflow mark last).bind fun vt mean => ?_
  rw [classAt_eq atI, Except.ok_bind]
  refine Ensures.ite (fun _ => ?_) fun _ => ?_
  · exact ⟨vt, mean, setClass_self atI⟩
  · exact ⟨c.vtime, own, atI⟩

theorem startPeriod_noOverflow {q : Nat} {c p : Class} (ne : i ≠ q)
    (atI : h.classes[i]? = some (c.joinAt 1 c.vtime)) (atQ : h.classes[q]? = some p)
    (offset : p.voff + p.vmax < horizon) : NoOverflow (h.startPeriod i q)
      (fun r => r.1 = p.voff + p.vmax ∧ r.2.classes[i]? = some (c.joinAt 1 0)) := by
  have far := horizon_add
  unfold startPeriod
  rw [classAt_eq atQ, Except.ok_bind]
  refine (add64_noOverflow (by omega)).bind fun voff isVoff => ?_
  dsimp only
  rw [classAt_eq ((setClass_other ne.symm).trans atI), Except.ok_bind]
  exact ⟨isVoff, setClass_self ((setClass_other ne.symm).trans atI)⟩

/-- The walk of `init_v` at an idle class `c` whose parent is `p`. -/
theorem goActive_noOverflow {q : Nat} {c p : Class} (ne : i ≠ q) (atI : h.classes[i]? = some (c.joinAt 1 c.vtime))
    (atQ : h.classes[q]? = some p) (ranged : c.Ranged calls work) (below : c.parent ≠ 0) (bytes : work < 2 ^ 62)
    (few : c.vperiod + 1 < 2 ^ 64 ∧ p.vperiod + 1 < 2 ^ 64) (times : Every (fun c => c.vtime < horizon) h)
    (mark : p.vmin < horizon) (offset : p.voff + p.vmax < horizon) : NoOverflow (h.goActive i q) (fun _ => True) := by
  have own := times i (c.joinAt 1 c.vtime) atI
  unfold goActive joinParent
  rw [classAt_eq atQ, Except.ok_bind]
  refine Ensures.ite (fun _ => nofun) fun _ => ?_
  have last : NoOverflow (h.maxActive p) (fun m => m.2 < horizon) := by
    unfold maxActive
    split
    · exact horizon_pos
    · exact (classAt_noOverflow _ _).bind fun d atD => times _ d atD
  have joins : NoOverflow (h.joinParent i q p) (fun r => r.1 < horizon ∧
      ∃ vtime < horizon, r.2.classes[i]? = some (c.joinAt 1 vtime)) := by
    refine last.bind fun m early => ?_
    refine Ensures.ite (fun _ => ?_) fun _ => ?_
    · refine (joinPeriod_noOverflow atI own mark early).bind fun h' joined => ?_
      obtain ⟨vtime, entry, atI'⟩ := joined
      exact ⟨by omega, vtime, entry, atI'⟩
    · refine (startPeriod_noOverflow ne atI atQ offset).mono fun r opened => ?_
      obtain ⟨sum, atI'⟩ := opened
      exact ⟨by omega, 0, horizon_pos, atI'⟩
  refine joins.bind fun r joined => ?_
  obtain ⟨early, vtime, entry, atI'⟩ := joined
  exact enterSiblings_noOverflow ranged below bytes few entry early atI'

theorem initVStep_noOverflow (tree : Tree h) (rising : Rising calls work i h) (bytes : work < 2 ^ 62)
    (few : calls + 1 < 2 ^ 64) : NoOverflow (initVStep h i true) (fun _ => True) := by
  unfold initVStep
  refine (classAt_noOverflow _ _).bind fun c atI => ?_
  obtain ⟨ranged, _⟩ := rising.ahead i c le_rfl atI
  have nactive := ranged.nactive
  have vperiod := ranged.vperiod
  refine Ensures.ite (fun _ => trivial) fun below => ?_
  obtain ⟨p, atP, _, less⟩ := tree.parent_exists atI below
  obtain ⟨rangedP, offset⟩ := rising.ahead c.parent p (by omega) atP
  have vperiodP := rangedP.vperiod
  refine (add64_noOverflow (show c.nactive + 1 < 2 ^ 64 by omega)).bind fun n counted => ?_
  subst counted
  refine Ensures.ite (fun passive => ?_) fun _ => trivial
  simp only [Bool.true_and, beq_iff_eq] at passive
  have entered : h.setClass i { c with nactive := c.nactive + 1 } = h.setClass i (c.joinAt 1 c.vtime) := by
    rw [passive]
    rfl
  rw [entered]
  have times : Every (fun c => c.vtime < horizon) (h.setClass i (c.joinAt 1 c.vtime)) :=
    Every.setClass (fun j d atJ => (rising.times j d atJ).1) atI (rising.times i c atI).1
  refine (goActive_noOverflow (by omega) (setClass_self atI) ((setClass_other (by omega)).trans atP) ranged below
    bytes (by omega) times (rising.times c.parent p atP).2 offset).bind fun _ _ => trivial

/-- The walk of `init_v` stays in range where every use of a curve on its way fits. -/
theorem initV_noOverflow {own : Nat → Nat} {fuel : Nat} (entering : Entering h own i)
    (rising : Rising calls work i h) (bytes : work < 2 ^ 62) (few : calls + 1 < 2 ^ 64)
    (fits : ∀ u ∈ initUses fuel h i, u.Fits) : NoOverflow (initV fuel h i true) (Rising calls work 0) := by
  induction fuel generalizing h i with
  | zero => exact nofun
  | succ fuel ih =>
    obtain ⟨c, atI⟩ := entering.exists_class
    unfold initV
    refine (initVStep_noOverflow entering.tree rising bytes few).with_run.bind fun r both => ?_
    obtain ⟨run, _⟩ := both
    have step : InitStep h i c r.1 r.2 := (initVStep_spec entering.tree entering.wired atI).ok run
    obtain ⟨g, next⟩ := r
    have rising' := step.rising entering.tree rising atI fits
    cases next with
    | none => exact rising'
    | some q =>
      exact ih (step.entering entering atI) rising' fun u member =>
        fits u (step.mem_initUses entering.tree entering.wired atI member)

/-- What `chargeUses` reads of a class. -/
def account (c : Class) : Nat × Nat × RuntimeSc × Nat := (c.parent, c.nactive, c.fRun, c.fBytes)

theorem chargeUses_congr {g : Hfsc} {len fuel : Nat} {passive : Bool} (tree : Tree h)
    (same : ∀ j ≤ i, (g.classes[j]?).map account = (h.classes[j]?).map account) :
    chargeUses len fuel g i passive = chargeUses len fuel h i passive := by
  induction fuel generalizing i passive with
  | zero => rfl
  | succ fuel ih =>
    have here := same i le_rfl
    unfold chargeUses
    cases atI : h.classes[i]? with
    | none =>
      rw [atI] at here
      rw [Option.map_eq_none_iff.mp here]
    | some c =>
      rw [atI] at here
      obtain ⟨d, atD, equal⟩ := Option.map_eq_some_iff.mp here
      obtain ⟨parent, nactive, fRun, fBytes⟩ : d.parent = c.parent ∧ d.nactive = c.nactive ∧ d.fRun = c.fRun ∧
          d.fBytes = c.fBytes := by
        simpa only [account, Prod.mk.injEq] using equal
      rw [atD]
      dsimp only
      rw [parent, nactive, fRun, fBytes]
      split
      · rfl
      · rename_i below
        obtain ⟨_, _, _, less⟩ := tree.parent_exists atI below
        have above (goes : Bool) : chargeUses len fuel g c.parent goes = chargeUses len fuel h c.parent goes :=
          ih fun j low => same j (low.trans less.le)
        rw [above, above]

/-- What the walk of `update_v` keeps up to class `i`. -/
structure Falling (calls work len i : Nat) (h : Hfsc) : Prop where
  ranged : Every (Class.Ranged calls (work + len)) h
  marks : Every (fun c => c.vmin < horizon) h
  ahead : ∀ j c, j ≤ i → h.classes[j]? = some c → c.Ranged calls work

variable {len : Nat} {passive : Bool}

theorem Falling.leaves {c c' p p' : Class} (tree : Tree h) (falling : Falling calls work len i h)
    (atI : h.classes[i]? = some c) (below : c.parent ≠ 0) (atP : h.classes[c.parent]? = some p)
    (child : c'.Ranged calls (work + len) ∧ c'.vmin < horizon) (parent : p'.Ranged calls work ∧ p'.vmin < horizon) :
    Falling calls work len c.parent ((h.setClass i c').setClass c.parent p') := by
  obtain ⟨_, _, _, less⟩ := tree.parent_exists atI below
  refine ⟨falling.ranged.setPair (by omega) atI atP child.1 (parent.1.mono le_rfl (Nat.le_add_right work len)),
    falling.marks.setPair (by omega) atI atP child.2 parent.2, fun j d low atJ => ?_⟩
  rcases (setPair_iff c' p' (by omega) atI atP).mp atJ with ⟨_, rfl⟩ | ⟨rfl, _⟩ | ⟨_, _, atJ⟩
  · exact parent.1
  · omega
  · exact falling.ahead j d (by omega) atJ

theorem UpdateStep.falling {c : Class} {h' : Hfsc} {next : Option (Nat × Bool)} (tree : Tree h)
    (falling : Falling calls work len i h) (atI : h.classes[i]? = some c)
    (step : UpdateStep h i c len passive h' next) :
    Falling calls work len ((next.map Prod.fst).getD 0) h' := by
  have ranged := falling.ahead i c le_rfl atI
  have mark := falling.marks i c atI
  cases step with
  | top => exact ⟨falling.ranged, falling.marks, fun j d low => falling.ahead j d (low.trans (Nat.zero_le i))⟩
  | @idle p below atP =>
    obtain ⟨_, _, _, less⟩ := tree.parent_exists atI below
    have rangedP := falling.ahead c.parent p (by omega) atP
    exact falling.leaves tree atI below atP ⟨ranged.charge len (Nat.zero_le _), mark⟩
      ⟨{ rangedP with }, falling.marks c.parent p atP⟩
  | @keep p n c' below atP count _ run =>
    obtain ⟨_, _, _, less⟩ := tree.parent_exists atI below
    have rangedP := falling.ahead c.parent p (by omega) atP
    have markP := falling.marks c.parent p atP
    have less : n ≤ c.nactive := by
      rw [count]
      split <;> omega
    have mark' : c'.vmin < horizon := by
      obtain ⟨x, _, _, rfl⟩ := advanceVtime_ok run
      exact mark
    exact falling.leaves tree atI below atP ⟨(ranged.charge len less).advance markP run, mark'⟩
      ⟨rangedP.withChildren _, markP⟩

theorem updateVStep_noOverflow {c : Class} (tree : Tree h) (falling : Falling calls work len i h)
    (atI : h.classes[i]? = some c) (bytes : work + len < 2 ^ 62)
    (reaches : c.parent ≠ 0 → ¬(passive = true ∧ c.nactive = 1) → c.fRun.Reaches (c.fBytes + len)) :
    NoOverflow (updateVStep h i len passive) (fun _ => True) := by
  have ranged := falling.ahead i c le_rfl atI
  have fBytes := ranged.fBytes
  unfold updateVStep
  rw [classAt_eq atI, Except.ok_bind]
  refine Ensures.ite (fun _ => trivial) fun below => ?_
  obtain ⟨p, atP, _, less⟩ := tree.parent_exists atI below
  have ne : i ≠ c.parent := by omega
  refine (add64_noOverflow (by omega)).bind fun sum isSum => ?_
  subst isSum
  refine Ensures.ite (fun _ => trivial) fun active => ?_
  dsimp only
  rw [classAt_eq ((setClass_other ne).trans atP), Except.ok_bind]
  refine Ensures.ite (fun _ => nofun) fun _ => ?_
  refine (removeKey_noOverflow _ _).bind fun children _ => ?_
  refine Ensures.ite (fun _ => trivial) fun stays => ?_
  have more : ¬(passive = true ∧ c.nactive = 1) := by
    rintro ⟨rfl, one⟩
    exact stays (by rw [one]; rfl)
  rw [classAt_eq ((setClass_other ne.symm).trans (setClass_self atI)), Except.ok_bind]
  refine (ranged.advance_noOverflow below active (by omega) (reaches below more)
    (falling.marks c.parent p atP)).bind fun c' _ => ?_
  refine (classAt_noOverflow _ _).bind fun p' _ => ?_
  exact (insertKey_noOverflow _ _ _).bind fun _ _ => trivial

/-- The walk of `update_v` stays in range where the curves of the classes that stay active reach
their bytes. -/
theorem updateV_noOverflow {own : Nat → Nat} {fuel : Nat} (charging : Charging h own i passive)
    (falling : Falling calls work len i h) (bytes : work + len < 2 ^ 62)
    (fits : ∀ u ∈ chargeUses len fuel h i passive, u.Fits) :
    NoOverflow (updateV len fuel h i passive) (Falling calls work len 0) := by
  induction fuel generalizing h i passive with
  | zero => exact nofun
  | succ fuel ih =>
    obtain ⟨c, atI, live⟩ := charging.live
    unfold updateV
    unfold chargeUses at fits
    rw [atI] at fits
    dsimp only at fits
    have reaches (below : c.parent ≠ 0) (more : ¬(passive = true ∧ c.nactive = 1)) :
        c.fRun.Reaches (c.fBytes + len) := by
      rw [if_neg below, if_neg more] at fits
      exact fits (.read c.fRun (c.fBytes + len)) (List.mem_cons_self ..)
    refine (updateVStep_noOverflow charging.tree falling atI bytes reaches).with_run.bind fun r both => ?_
    obtain ⟨run, _⟩ := both
    have step : UpdateStep h i c len passive r.1 r.2 :=
      (updateVStep_spec charging.tree charging.wired atI live).ok run
    obtain ⟨g, next⟩ := r
    have falling' := step.falling charging.tree falling atI
    cases next with
    | none => exact falling'
    | some up =>
      obtain ⟨q, goes⟩ := up
      have charging' := step.charging charging atI
      refine ih charging' falling' fun u member => fits u ?_
      have accounts {p : Class} (c' p' : Class) (below : c.parent ≠ 0) (atP : h.classes[c.parent]? = some p)
          (same : account p' = account p) (goes : Bool) :
          chargeUses len fuel ((h.setClass i c').setClass c.parent p') c.parent goes =
            chargeUses len fuel h c.parent goes := by
        obtain ⟨_, _, _, less⟩ := charging.tree.parent_exists atI below
        refine chargeUses_congr charging.tree fun j low => ?_
        by_cases top : j = c.parent
        · rw [top, setClass_self ((setClass_other (by omega)).trans atP), atP, Option.map_some, same, Option.map_some]
        · rw [setClass_other (Ne.symm top), setClass_other (by omega)]
      cases step with
      | @idle p below atP isPassive one =>
        rw [if_neg below, if_pos ⟨isPassive, one⟩]
        have same := accounts (c.charge len 0) ((p.withChildren (p.children.erase c.vtimeKey)).raiseVmax c.vtime)
          below atP rfl true
        exact same ▸ member
      | @keep p n c' below atP count more =>
        have stays : ¬(passive = true ∧ c.nactive = 1) := by
          rintro ⟨rfl, one⟩
          rw [if_pos rfl] at count
          omega
        rw [if_neg below, if_neg stays]
        have same := accounts c' (p.withChildren ((p.children.erase c.vtimeKey).insert ⟨c'.vtime, i⟩ i)) below atP rfl
          false
        exact List.mem_cons_of_mem _ (same ▸ member)

end Hfsc

end R2
