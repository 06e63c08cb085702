import R2.Hfsc.Charge

namespace R2.Hfsc

/-- The curve a class starts a backlog period with: a curve that was moved to
the current point is stored without the offset. -/
theorem startCurveAt_ok {c c' : Class} {pvoff pvperiod pnactive : Nat}
    (run : startCurveAt c pvoff pvperiod pnactive = .ok c') :
    ∃ f, c.pvoff ≤ pvoff ∧ rtscMin c.fRun c.fIsc (c.vtime + (pvoff - c.pvoff)) c.fBytes = .ok f ∧
      (f.x = c.vtime + (pvoff - c.pvoff) ∧
          c' = c.beginAt { f with x := c.vtime } 0 (pvperiod + if pnactive = 0 then 1 else 0) ∨
        f.x ≠ c.vtime + (pvoff - c.pvoff) ∧
          c' = c.beginAt f (pvoff - c.pvoff) (pvperiod + if pnactive = 0 then 1 else 0)) := by
  unfold startCurveAt at run
  obtain ⟨voff, atVoff, run⟩ := Except.bind_ok_iff.mp run
  obtain ⟨vt, atVt, run⟩ := Except.bind_ok_iff.mp run
  obtain ⟨f, atF, run⟩ := Except.bind_ok_iff.mp run
  obtain ⟨vperiod, atVperiod, run⟩ := Except.bind_ok_iff.mp run
  obtain ⟨period, atPeriod, run⟩ := Except.bind_ok_iff.mp run
  obtain ⟨le, rfl⟩ := sub64_ok.mp atVoff
  obtain ⟨_, rfl⟩ := add64_ok.mp atVt
  obtain ⟨_, rfl⟩ := add64_ok.mp atVperiod
  obtain ⟨_, rfl⟩ := add64_ok.mp atPeriod
  refine ⟨f, le, atF, ?_⟩
  split at run
  · rename_i moved
    cases Except.ok.inj run
    refine Or.inl ⟨moved, ?_⟩
    rw [moved, Nat.add_sub_cancel]
    rfl
  · rename_i kept
    cases Except.ok.inj run
    exact Or.inr ⟨kept, rfl⟩

theorem startCurveAt_noPanic (c : Class) (pvoff pvperiod pnactive : Nat) :
    NoPanic (startCurveAt c pvoff pvperiod pnactive) (fun _ => True) := by
  refine (sub64_noPanic _ _).bind fun _ _ => ?_
  refine (add64_noPanic _ _).bind fun _ _ => ?_
  refine (rtscMin_noPanic _ _ _ _).bind fun _ _ => ?_
  refine (add64_noPanic _ _).bind fun _ _ => ?_
  exact (add64_noPanic _ _).bind fun _ _ => Ensures.ite (fun _ => trivial) fun _ => trivial

/-- What the start of a curve leaves alone. -/
theorem startCurveAt_keeps {c c' : Class} {pvoff pvperiod pnactive : Nat}
    (run : startCurveAt c pvoff pvperiod pnactive = .ok c') :
    c'.fixed = c.fixed ∧ c'.children = c.children ∧ c'.nactive = c.nactive ∧ c'.vtime = c.vtime ∧
      c'.fBytes = c.fBytes ∧ c'.vmin = c.vmin ∧ c'.vmax = c.vmax := by
  obtain ⟨f, _, _, ⟨_, rfl⟩ | ⟨_, rfl⟩⟩ := startCurveAt_ok run
  · exact ⟨rfl, rfl, rfl, rfl, rfl, rfl, rfl⟩
  · exact ⟨rfl, rfl, rfl, rfl, rfl, rfl, rfl⟩

/-- Where a class enters among active siblings whose largest virtual time is
`maxVtime`. -/
def entryVtime (c p : Class) (vt : Nat) : Nat := if p.vperiod ≠ c.pvperiod ∨ c.vtime < vt then vt else c.vtime

/-- What one class of the walk of `init_v` can do: the walk ends at the root
or at a class that is active already, or the class enters its parent's map,
after its active siblings or as the first of a new backlog period. -/
inductive InitStep (h : Hfsc) (i : Nat) (c : Class) : Hfsc → Option Nat → Prop
  | top : c.parent = 0 → InitStep h i c h none
  | busy : c.parent ≠ 0 → 0 < c.nactive → InitStep h i c (h.setClass i (c.joinAt (c.nactive + 1) c.vtime)) none
  | join {p key m last vt c'} : c.parent ≠ 0 → h.classes[c.parent]? = some p → c.nactive = 0 →
      p.children.last? = some (key, m) → h.classes[m]? = some last → meanVtime p.vmin last.vtime = .ok vt →
      startCurveAt (c.joinAt 1 (entryVtime c p vt)) p.voff p.vperiod p.nactive = .ok c' →
      InitStep h i c
        ((h.setClass i c').setClass c.parent (p.withChildren (p.children.insert ⟨c'.vtime, i⟩ i))) (some c.parent)
  | first {p c'} : c.parent ≠ 0 → h.classes[c.parent]? = some p → c.nactive = 0 → p.children.entries = [] →
      startCurveAt (c.joinAt 1 0) (p.voff + p.vmax) p.vperiod p.nactive = .ok c' →
      InitStep h i c
        ((h.setClass i c').setClass c.parent (p.openPeriod.withChildren (p.children.insert ⟨c'.vtime, i⟩ i)))
        (some c.parent)

theorem meanVtime_noPanic (pvmin maxVtime : Nat) : NoPanic (meanVtime pvmin maxVtime) (fun _ => True) := by
  refine Ensures.ite (fun _ => trivial) fun _ => ?_
  exact (add64_noPanic _ _).bind fun _ _ => trivial

variable {h : Hfsc} {own : Nat → Nat} {off : Nat → Int}

/-- A passive class has no entry, so any key with its index may go in. -/
theorem Wired.absent (wired : Wired h own off) {i : Nat} {c pc : Class}
    (atI : h.classes[i]? = some c) (below : c.parent ≠ 0) (atP : h.classes[c.parent]? = some pc)
    (passive : c.nactive = 0) : ∀ e ∈ pc.children.entries, e.1.index ≠ i ∧ e.2 ≠ i := by
  intro e member
  obtain ⟨d, atD, _, active, key⟩ := wired.entry_class atP (by omega) member
  have away : e.2 ≠ i := by
    intro isI
    rw [isI, atI] at atD
    cases atD
    omega
  refine ⟨?_, away⟩
  rw [key]
  exact away

/-- The siblings of a passive class are other classes. -/
theorem Wired.siblings (wired : Wired h own off) (tree : Tree h) {i : Nat} {c p : Class}
    (atI : h.classes[i]? = some c) (below : c.parent ≠ 0) (atP : h.classes[c.parent]? = some p)
    (passive : c.nactive = 0) (c' : Class) : ∀ e ∈ p.children.entries, e.1.index ≠ i ∧ e.2 ≠ 0 ∧
      ∃ d, (h.setClass i c').classes[e.2]? = some d := by
  intro e member
  obtain ⟨_, _, _, less⟩ := tree.parent_exists atI below
  obtain ⟨d, atD, parent, _, _⟩ := wired.entry_class atP (by omega) member
  obtain ⟨notIndex, notI⟩ := wired.absent atI below atP passive e member
  refine ⟨notIndex, ?_, d, (setClass_other (Ne.symm notI)).trans atD⟩
  have := tree.two_le atD (by omega)
  omega

theorem enterSiblings_spec {i q pvoff pvperiod pnactive : Nat} {c p : Class} (atI : h.classes[i]? = some c)
    (atQ : h.classes[q]? = some p) (ne : i ≠ q) (index : c.index = i)
    (absent : ∀ e ∈ p.children.entries, e.1.index ≠ i) :
    NoPanic (h.enterSiblings i q pvoff pvperiod pnactive) (fun h' => ∃ c',
      startCurveAt c pvoff pvperiod pnactive = .ok c' ∧
        h' = (h.setClass i c').setClass q (p.withChildren (p.children.insert ⟨c'.vtime, i⟩ i))) := by
  unfold enterSiblings
  rw [classAt_eq atI, Except.ok_bind]
  refine ((startCurveAt_noPanic _ _ _ _).with_run).bind fun c' run => ?_
  have index' : c'.index = i := (congrArg Class.index (startCurveAt_keeps run.1).1).trans index
  have key : c'.vtimeKey = ⟨c'.vtime, i⟩ := congrArg (Key.mk c'.vtime) index'
  have compatible : ∀ e ∈ p.children.entries, e.1.index = (⟨c'.vtime, i⟩ : Key).index →
      e.1.time = (⟨c'.vtime, i⟩ : Key).time := fun e member same => absurd same (absent e member)
  dsimp only
  rw [classAt_eq ((setClass_other ne).trans atQ), Except.ok_bind, key, insertKey_eq compatible, Except.ok_bind]
  exact ⟨c', run.1, rfl⟩

theorem joinPeriod_spec {i pvmin pvperiod maxVtime : Nat} {c : Class} (atI : h.classes[i]? = some c) :
    NoPanic (h.joinPeriod i pvmin pvperiod maxVtime) (fun h' => ∃ vt, meanVtime pvmin maxVtime = .ok vt ∧
      h' = h.setClass i { c with vtime := if pvperiod ≠ c.pvperiod ∨ c.vtime < vt then vt else c.vtime }) := by
  unfold joinPeriod
  refine ((meanVtime_noPanic _ _).with_run).bind fun vt run => ?_
  rw [classAt_eq atI, Except.ok_bind]
  refine Ensures.ite (fun moves => ?_) fun stays => ?_
  · exact ⟨vt, run.1, by rw [if_pos moves]⟩
  · exact ⟨vt, run.1, by rw [if_neg stays]; exact (setClass_setClass_self atI).symm⟩

theorem startPeriod_spec {i q : Nat} {c p : Class} (atI : h.classes[i]? = some c) (atQ : h.classes[q]? = some p)
    (ne : i ≠ q) : NoPanic (h.startPeriod i q) (fun r =>
      r = (p.voff + p.vmax, (h.setClass q p.openPeriod).setClass i { c with vtime := 0 })) := by
  unfold startPeriod
  rw [classAt_eq atQ, Except.ok_bind]
  refine (add64_noPanic _ _).bind fun voff summed => ?_
  subst summed
  dsimp only
  rw [classAt_eq ((setClass_other ne.symm).trans atI), Except.ok_bind]
  rfl

/-- The first class of a period opens it, and any other joins its active siblings. -/
theorem joinParent_spec {i q : Nat} {c p : Class} (atI : h.classes[i]? = some c) (atQ : h.classes[q]? = some p)
    (ne : i ≠ q) (listed : ∀ e ∈ p.children.entries, e.2 ≠ 0 ∧ ∃ d, h.classes[e.2]? = some d) :
    NoPanic (h.joinParent i q p) (fun r =>
      (p.children.entries = [] ∧
        r = (p.voff + p.vmax, (h.setClass q p.openPeriod).setClass i { c with vtime := 0 })) ∨
      ∃ key m last vt, p.children.last? = some (key, m) ∧ h.classes[m]? = some last ∧
        meanVtime p.vmin last.vtime = .ok vt ∧ r = (p.voff, h.setClass i { c with vtime := entryVtime c p vt })) := by
  unfold joinParent maxActive
  cases atLast : p.children.last? with
  | none =>
    rw [Except.ok_bind]
    dsimp only
    rw [if_neg (by simp)]
    exact (startPeriod_spec atI atQ ne).mono fun r opened => Or.inl ⟨SortedMap.last?_eq_none.mp atLast, opened⟩
  | some e =>
    obtain ⟨key, m⟩ := e
    obtain ⟨notZero, last, atLastClass⟩ := listed _ (SortedMap.last?_mem atLast)
    dsimp only
    rw [classAt_eq atLastClass, Except.ok_bind, Except.ok_bind]
    dsimp only
    rw [if_pos notZero]
    refine (joinPeriod_spec atI).bind fun h' joined => ?_
    obtain ⟨vt, mean, rfl⟩ := joined
    exact Or.inr ⟨key, m, last, vt, rfl, atLastClass, mean, rfl⟩

/-- The class enters its parent's map; `moved` is what becomes of the parent
before that. -/
theorem goActive_spec {i q : Nat} {c p : Class} (atI : h.classes[i]? = some c) (atQ : h.classes[q]? = some p)
    (ne : i ≠ q) (index : c.index = i) (indexQ : p.index = q)
    (listed : ∀ e ∈ p.children.entries, e.1.index ≠ i ∧ e.2 ≠ 0 ∧ ∃ d, h.classes[e.2]? = some d) :
    NoPanic (h.goActive i q) (fun h' => ∃ c' moved,
      h' = (h.setClass i c').setClass q (moved.withChildren (p.children.insert ⟨c'.vtime, i⟩ i)) ∧
      ((p.children.entries = [] ∧ moved = p.openPeriod ∧
          startCurveAt { c with vtime := 0 } (p.voff + p.vmax) p.vperiod p.nactive = .ok c') ∨
        ∃ key m last vt, p.children.last? = some (key, m) ∧ h.classes[m]? = some last ∧
          meanVtime p.vmin last.vtime = .ok vt ∧ moved = p ∧
          startCurveAt { c with vtime := entryVtime c p vt } p.voff p.vperiod p.nactive = .ok c')) := by
  unfold goActive
  rw [classAt_eq atQ, Except.ok_bind]
  refine Ensures.ite (fun bad => absurd indexQ bad) fun _ => ?_
  have absent : ∀ e ∈ p.children.entries, e.1.index ≠ i := fun e member => (listed e member).1
  refine (joinParent_spec atI atQ ne fun e member => (listed e member).2).bind fun r joined => ?_
  rcases joined with ⟨empty, rfl⟩ | ⟨key, m, last, vt, atLast, atLastClass, mean, rfl⟩
  · dsimp only
    have atI' := @setClass_self _ _ _ { c with vtime := 0 } ((@setClass_other _ _ _ p.openPeriod ne.symm).trans atI)
    have atQ' := (@setClass_other _ _ _ { c with vtime := 0 } ne).trans (@setClass_self _ _ _ p.openPeriod atQ)
    refine (enterSiblings_spec atI' atQ' ne index absent).mono fun h' entered => ?_
    obtain ⟨c', run, rfl⟩ := entered
    refine ⟨c', p.openPeriod, ?_, Or.inl ⟨empty, rfl, run⟩⟩
    rw [setClass_twice, setClass_comm _ _ _ ne.symm, setClass_twice]
    rfl
  · dsimp only
    have atI' := @setClass_self _ _ _ { c with vtime := entryVtime c p vt } atI
    have atQ' := (@setClass_other h _ _ { c with vtime := entryVtime c p vt } ne).trans atQ
    refine (enterSiblings_spec atI' atQ' ne index absent).mono fun h' entered => ?_
    obtain ⟨c', run, rfl⟩ := entered
    refine ⟨c', p, ?_, Or.inr ⟨key, m, last, vt, atLast, atLastClass, mean, rfl, run⟩⟩
    rw [setClass_twice]

theorem initVStep_spec (tree : Tree h) (wired : Wired h own off) {i : Nat} {c : Class}
    (atI : h.classes[i]? = some c) : NoPanic (initVStep h i true) (fun r => InitStep h i c r.1 r.2) := by
  unfold initVStep
  rw [classAt_eq atI, Except.ok_bind]
  refine Ensures.ite (fun top => .top top) fun below => ?_
  obtain ⟨p, atP, index, less⟩ := tree.parent_exists atI below
  have ne : i ≠ c.parent := by omega
  refine (add64_noPanic _ _).bind fun n counted => ?_
  subst counted
  dsimp only
  refine Ensures.ite (fun passive => ?_) fun active => ?_
  · simp only [Bool.true_and, beq_iff_eq] at passive
    have absent := wired.absent atI below atP passive
    have entered : h.setClass i { c with nactive := c.nactive + if true = true then 1 else 0 } =
        h.setClass i (c.joinAt 1 c.vtime) := by
      simp only [passive, if_true, Nat.zero_add]
      rfl
    rw [entered]
    have atI' := @setClass_self _ _ _ (c.joinAt 1 c.vtime) atI
    have atP' := (@setClass_other h _ _ (c.joinAt 1 c.vtime) ne).trans atP
    have indexI := (tree.index i c atI (by have := tree.two_le atI below; omega)).1
    have listed := wired.siblings tree atI below atP passive (c.joinAt 1 c.vtime)
    refine (goActive_spec atI' atP' ne indexI index listed).bind fun h' entered => ?_
    obtain ⟨c', moved, rfl, ⟨empty, rfl, run⟩ | ⟨key, m, last, vt, atLast, atM, mean, rfl, run⟩⟩ := entered
    · rw [setClass_twice]
      exact .first below atP passive empty run
    · rw [setClass_twice]
      have notI : m ≠ i := (absent _ (SortedMap.last?_mem atLast)).2
      exact .join below atP passive atLast ((setClass_other notI.symm).symm.trans atM) mean run
  · simp only [Bool.true_and, beq_iff_eq] at active
    exact .busy below (Nat.pos_of_ne_zero active)

/-- What the structural invariant looks like while the walk is at class `i`:
its count is one short. -/
structure Entering (h : Hfsc) (own : Nat → Nat) (i : Nat) : Prop where
  tree : Tree h
  wired : Wired h own (fun j => if j = i then -1 else 0)
  exists_class : ∃ c, h.classes[i]? = some c

theorem InitStep.fixed {i : Nat} {c : Class} {h' : Hfsc} {next : Option Nat} (tree : Tree h)
    (atI : h.classes[i]? = some c) (step : InitStep h i c h' next) : h'.fixed = h.fixed := by
  cases step with
  | top => rfl
  | busy => exact setClass_fixed atI rfl
  | join below atP _ _ _ _ run =>
    obtain ⟨_, _, _, less⟩ := tree.parent_exists atI below
    exact setPair_fixed (by omega) atI atP (startCurveAt_keeps run).1 rfl
  | first below atP _ _ run =>
    obtain ⟨_, _, _, less⟩ := tree.parent_exists atI below
    exact setPair_fixed (by omega) atI atP (startCurveAt_keeps run).1 rfl

theorem Entering.enter {i : Nat} {c c' pc moved : Class} (entering : Entering h own i) (atI : h.classes[i]? = some c)
    (below : c.parent ≠ 0) (atP : h.classes[c.parent]? = some pc) (passive : c.nactive = 0)
    (childKeeps : c'.fixed = c.fixed ∧ c'.children = c.children ∧ c'.nactive = 1)
    (parentKeeps : moved.fixed = pc.fixed ∧ moved.nactive = pc.nactive ∧ moved.vtime = pc.vtime) :
    Entering ((h.setClass i c').setClass c.parent (moved.withChildren (pc.children.insert ⟨c'.vtime, i⟩ i))) own
      c.parent := by
  obtain ⟨tree, wired, _⟩ := entering
  obtain ⟨_, _, _, less⟩ := tree.parent_exists atI below
  have two := tree.two_le atI below
  have ne : i ≠ c.parent := by omega
  have absent := wired.absent atI below atP passive
  have absentKey : ∀ e ∈ pc.children.entries, e.1 ≠ ⟨c'.vtime, i⟩ :=
    fun e member same => (absent e member).1 (congrArg Key.index same)
  have countI := wired.counted i c atI two
  have parentI : c'.parent = c.parent := Class.parent_of_fixed childKeeps.1
  have parentP : moved.parent = pc.parent := Class.parent_of_fixed parentKeeps.1
  refine ⟨tree.of_fixed (setPair_fixed ne atI atP childKeeps.1 parentKeeps.1), ?_,
    _, setClass_self ((setClass_other ne).trans atP)⟩
  refine wired.setPair tree atI below atP ⟨parentI, childKeeps.2.1⟩ ⟨parentP, parentKeeps.2⟩ ?_ ?_ ?_ ?_ ?_
  · intro e notI
    rw [Class.withChildren_children, SortedMap.mem_insert]
    constructor
    · rintro (rfl | ⟨inside, _⟩)
      · exact absurd rfl notI
      · exact inside
    · intro inside
      exact Or.inr ⟨inside, absentKey e inside⟩
  · intro e isI
    rw [Class.withChildren_children, SortedMap.mem_insert]
    constructor
    · rintro (rfl | ⟨inside, _⟩)
      · exact ⟨by rw [childKeeps.2.2]; exact Nat.one_pos, rfl⟩
      · exact absurd isI (absent e inside).2
    · rintro ⟨_, key⟩
      exact Or.inl (Prod.ext key isI)
  · simp only [childKeeps.2.2, passive, if_true, ne, if_false] at countI ⊢
    omega
  · intro twoP
    have countP := wired.counted c.parent pc atP twoP
    have longer := SortedMap.length_insert (v := i) absentKey
    simp only [Class.withChildren_children, ne.symm, if_false, if_true] at countP ⊢
    omega
  · intro j notI notP
    simp only [notI, notP, if_false]

theorem InitStep.entering {i p : Nat} {c : Class} {h' : Hfsc} (entering : Entering h own i)
    (atI : h.classes[i]? = some c) (step : InitStep h i c h' (some p)) : Entering h' own p := by
  cases step with
  | join below atP passive _ _ _ run =>
    obtain ⟨same, children, nactive, _⟩ := startCurveAt_keeps run
    exact entering.enter atI below atP passive ⟨same, children, nactive⟩ ⟨rfl, rfl, rfl⟩
  | first below atP passive _ run =>
    obtain ⟨same, children, nactive, _⟩ := startCurveAt_keeps run
    exact entering.enter atI below atP passive ⟨same, children, nactive⟩ ⟨rfl, rfl, rfl⟩

theorem InitStep.settled {i : Nat} {c : Class} {h' : Hfsc} (entering : Entering h own i)
    (atI : h.classes[i]? = some c) (step : InitStep h i c h' none) : Wired h' own (fun _ => 0) := by
  obtain ⟨tree, wired, _⟩ := entering
  cases step with
  | top top =>
    refine wired.congr fun j d atD two => ?_
    have notI : j ≠ i := by
      rintro rfl
      rw [atI] at atD
      cases atD
      have := (tree.parent _ _ atI two).1
      omega
    simp only [notI, if_false]
  | busy below active =>
    refine wired.setOne atI ⟨rfl, rfl, rfl, ?_⟩ ?_ ?_
    · simp only [Class.joinAt_nactive]
      omega
    · intro two
      have count := wired.counted i c atI two
      simp only [if_true, Class.joinAt_nactive] at count ⊢
      omega
    · intro j notI
      simp only [notI, if_false]

theorem InitStep.climbs {i q : Nat} {c : Class} {h' : Hfsc} (tree : Tree h) (atI : h.classes[i]? = some c)
    (step : InitStep h i c h' (some q)) : q < i := by
  cases step with
  | join below => exact (tree.parent i c atI (tree.two_le atI below)).2
  | first below => exact (tree.parent i c atI (tree.two_le atI below)).2

/-- Run rule for `init_v`: `during` holds before each class of the walk and
`after` when it ends. -/
theorem initV_rule (during : Hfsc → Nat → Prop) (after : Hfsc → Prop)
    (climb : ∀ h i c h' p, Entering h own i → h.classes[i]? = some c → during h i →
      InitStep h i c h' (some p) → during h' p)
    (stop : ∀ h i c h', Entering h own i → h.classes[i]? = some c → during h i → InitStep h i c h' none → after h')
    {fuel i : Nat} (entering : Entering h own i) (start : during h i) (enough : i < fuel) :
    NoPanic (initV fuel h i true) (fun h' => h'.fixed = h.fixed ∧ Wired h' own (fun _ => 0) ∧ after h') := by
  induction fuel generalizing h i with
  | zero => omega
  | succ fuel ih =>
    obtain ⟨c, atI⟩ := entering.exists_class
    refine (initVStep_spec entering.tree entering.wired atI).bind fun r step => ?_
    obtain ⟨h', next⟩ := r
    have fixed := step.fixed entering.tree atI
    cases next with
    | none => exact ⟨fixed, step.settled entering atI, stop h i c h' entering atI start step⟩
    | some p =>
      have entering' := step.entering entering atI
      have start' := climb h i c h' p entering atI start step
      have less := step.climbs entering.tree atI
      refine (ih entering' start' (by omega)).mono fun h'' result => ?_
      exact ⟨result.1.trans fixed, result.2⟩

end R2.Hfsc
