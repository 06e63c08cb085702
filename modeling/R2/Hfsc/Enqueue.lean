import R2.Hfsc.Activation
import R2.Hfsc.Sound

namespace R2.Hfsc

theorem initEd_noPanic (c : Class) (nextLen curTime : Nat) : NoPanic (c.initEd nextLen curTime) (fun _ => True) := by
  unfold Class.initEd
  split
  · trivial
  · refine (rtscMin_noPanic _ _ _ _).bind fun _ _ => ?_
    refine (rtscY2x_noPanic _ _).bind fun _ _ => ?_
    refine (add64_noPanic _ _).bind fun _ _ => ?_
    exact (rtscY2x_noPanic _ _).bind fun _ _ => trivial

theorem initEd_none {c : Class} (curve : c.rIsc = none) (nextLen curTime : Nat) :
    c.initEd nextLen curTime = .ok c := by
  unfold Class.initEd
  split
  · rfl
  · rename_i isc some
    rw [curve] at some
    cases some

/-- What `init_ed` computes for a class with a real-time curve. -/
theorem initEd_some {c c' : Class} {isc : InternalSc} {nextLen curTime : Nat} (curve : c.rIsc = some isc)
    (run : c.initEd nextLen curTime = .ok c') : ∃ dRun eligible deadline,
      rtscMin c.dRun isc curTime c.fBytes = .ok dRun ∧
      rtscY2x (Class.eligibleCurve isc dRun) c.fBytes = .ok eligible ∧
      rtscY2x dRun (c.fBytes + nextLen) = .ok deadline ∧
      c' = c.withSchedule dRun (Class.eligibleCurve isc dRun) eligible deadline := by
  unfold Class.initEd at run
  split at run
  · rename_i none
    rw [curve] at none
    cases none
  · rename_i isc' some
    rw [curve] at some
    cases some
    obtain ⟨dRun, atD, run⟩ := Except.bind_ok_iff.mp run
    obtain ⟨eligible, atE, run⟩ := Except.bind_ok_iff.mp run
    obtain ⟨served, atServed, run⟩ := Except.bind_ok_iff.mp run
    obtain ⟨_, rfl⟩ := add64_ok.mp atServed
    obtain ⟨deadline, atDeadline, run⟩ := Except.bind_ok_iff.mp run
    exact ⟨dRun, eligible, deadline, atD, atE, atDeadline, (Except.ok.inj run).symm⟩

/-- Everything but the deadline and eligible curves and times. -/
theorem initEd_keeps {c c' : Class} {nextLen curTime : Nat} (run : c.initEd nextLen curTime = .ok c') :
    ∃ dRun eRun eligible deadline, c' = c.withSchedule dRun eRun eligible deadline := by
  cases curve : c.rIsc with
  | none =>
    rw [initEd_none curve] at run
    exact ⟨c.dRun, c.eRun, c.eligible, c.deadline, (Except.ok.inj run).symm⟩
  | some isc =>
    obtain ⟨dRun, eligible, deadline, _, _, _, same⟩ := initEd_some curve run
    exact ⟨dRun, _, eligible, deadline, same⟩

/-- What a call of `enqueue` can do. -/
inductive EnqueueStep (h : Hfsc) (i : Nat) (pkt : Packet) (now : Nat) : Bool → Hfsc → Prop
  | refused : (∀ c, h.classes[i]? = some c → c.inUse = false) → EnqueueStep h i pkt now false h
  | dropped {c} : h.classes[i]? = some c → c.inUse = true → c.qlimit ≠ 0 → c.qlimit ≤ c.packets.length →
      EnqueueStep h i pkt now false (h.setClass i { c with qdrops := c.qdrops + 1 })
  | more {c} : h.classes[i]? = some c → c.inUse = true → c.packets ≠ [] →
      EnqueueStep h i pkt now true (h.put i (c.withPackets (c.packets ++ [pkt])) h.eligible (h.pktsQueued + 1))
  | first {c g d d'} : h.classes[i]? = some c → c.inUse = true → c.packets = [] →
      initV h.walkFuel h i true = .ok g → g.classes[i]? = some d → d.initEd pkt.len now = .ok d' →
      EnqueueStep h i pkt now true
        (g.put i (d'.withPackets [pkt]) (enter g.eligible d' i) (g.pktsQueued + 1))

variable {h : Hfsc}

theorem Sound.entering (sound : Sound h) {i : Nat} {c : Class} (atI : h.classes[i]? = some c)
    (empty : c.packets = []) :
    Entering h (fun j => if j = i then 1 else backlog h j) i := by
  refine ⟨sound.tree, sound.wired.congr fun j d atD two => ?_, c, atI⟩
  by_cases same : j = i
  · subst same
    rw [backlog_eq atI, empty]
    simp
  · simp only [same, if_false]

/-- A run of the first walk, with whatever else it keeps. -/
theorem Sound.initV_ok (sound : Sound h) {i : Nat} {c : Class} (atI : h.classes[i]? = some c)
    (empty : c.packets = []) : NoPanic (initV h.walkFuel h i true) (fun g =>
      g.fixed = h.fixed ∧ Wired g (fun j => if j = i then 1 else backlog h j) (fun _ => 0)) := by
  obtain ⟨bound, _⟩ := List.getElem?_eq_some_iff.mp atI
  refine (initV_rule (fun _ _ => True) (fun _ => True) (fun _ _ _ _ _ _ _ _ _ => trivial)
    (fun _ _ _ _ _ _ _ _ => trivial) (sound.entering atI empty) trivial ?_).mono fun g result => ?_
  · simp only [walkFuel]
    omega
  · exact ⟨result.1, result.2.1⟩

theorem startBacklog_spec (sound : Sound h) {i : Nat} {c : Class} (atI : h.classes[i]? = some c)
    (empty : c.packets = []) (len now : Nat) :
    NoPanic (h.startBacklog i len now) (fun h' => ∃ g d d', initV h.walkFuel h i true = .ok g ∧
      g.classes[i]? = some d ∧ d.initEd len now = .ok d' ∧
        h' = { g.setClass i d' with eligible := enter g.eligible d' i }) := by
  unfold startBacklog
  refine ((sound.initV_ok atI empty).with_run).bind fun g result => ?_
  obtain ⟨run, fixed, _⟩ := result
  obtain ⟨d, atD, same⟩ := lookup_of_fixed fixed.symm atI
  have indexed := sound.indexed.of_fixed fixed
  rw [classAt_eq atD, Except.ok_bind]
  refine Ensures.ite (fun realtime => ?_) fun notRealtime => ?_
  · refine ((initEd_noPanic _ _ _).with_run).bind fun d' initialised => ?_
    obtain ⟨dRun, eRun, eligible, deadline, rfl⟩ := initEd_keeps initialised.1
    have passive : ∀ e ∈ g.eligible.entries, e.2 ≠ i := by
      intro e member isI
      have backlogged := ((indexed.mine atD isI).mp member).2.1
      rw [← Class.packets_of_fixed same] at backlogged
      exact backlogged empty
    have indexI : d.index = i := by
      have atC : 1 ≤ i := by
        by_contra small
        obtain rfl : i = 0 := by omega
        obtain ⟨dummy, atDummy, _, _, _, curve⟩ := (sound.tree.of_fixed fixed).dummy
        rw [atD] at atDummy
        cases atDummy
        rw [curve] at realtime
        cases realtime
      exact ((sound.tree.of_fixed fixed).index i d atD atC).1
    have key : (d.withSchedule dRun eRun eligible deadline).eligibleKey = ⟨eligible, i⟩ :=
      congrArg (Key.mk eligible) indexI
    rw [key, insertKey_eq
      (fun e member same => absurd ((indexed.entry_index member).symm.trans same) (passive e member)),
      Except.ok_bind]
    refine ⟨g, d, _, run, atD, initialised.1, ?_⟩
    simp only [enter, Class.withSchedule_rIsc, Class.withSchedule_eligible, realtime, if_true]
  · have curve : d.rIsc = none := by
      cases at_curve : d.rIsc with
      | none => rfl
      | some isc => exact absurd (by rw [at_curve]; rfl) notRealtime
    refine ⟨g, d, d, run, atD, initEd_none curve _ _, ?_⟩
    rw [setClass_setClass_self atD]
    simp only [enter, curve, Option.isSome_none, Bool.false_eq_true, if_false]

theorem enqueue_spec (sound : Sound h) (i : Nat) (pkt : Packet) (now : Nat) :
    NoPanic (h.enqueue i pkt now) (fun r => EnqueueStep h i pkt now r.1 r.2) := by
  unfold enqueue
  cases atI : h.classes[i]? with
  | none => exact .refused fun c atC => by rw [atI] at atC; cases atC
  | some c =>
    refine Ensures.ite (fun unused => ?_) fun used => Ensures.ite (fun full => ?_) fun room => ?_
    · refine .refused fun d atD => ?_
      rw [atI] at atD
      cases atD
      simpa using unused
    · refine (add64_noPanic _ _).bind fun n counted => ?_
      subst counted
      exact .dropped atI (by simpa using used) full.1 full.2
    · have inUse : c.inUse = true := by simpa using used
      refine Ensures.ite (fun zero => ?_) fun backlogged => ?_
      · have empty := List.length_eq_zero_iff.mp zero
        refine (startBacklog_spec sound atI empty pkt.len now).bind fun h' started => ?_
        obtain ⟨g, d, d', run, atD, initialised, rfl⟩ := started
        have atD' : ({ g.setClass i d' with eligible := enter g.eligible d' i } : Hfsc).classes[i]? = some d' :=
          @setClass_self _ _ _ d' atD
        have packets : d'.packets = [] := by
          obtain ⟨fixed, _⟩ := (sound.initV_ok atI empty).ok run
          have same := fixed_at fixed atI atD
          obtain ⟨_, _, _, _, rfl⟩ := initEd_keeps initialised
          exact (Class.packets_of_fixed same).trans empty
        unfold pushBack
        rw [classAt_eq atD', Except.ok_bind]
        refine (add64_noPanic _ _).bind fun n counted => ?_
        subst counted
        have final : EnqueueStep h i pkt now true _ := .first atI inUse empty run atD initialised
        simp only [packets, List.nil_append, setClass, List.set_set] at final ⊢
        exact final
      · unfold pushBack
        rw [classAt_eq atI, Except.ok_bind]
        refine (add64_noPanic _ _).bind fun n counted => ?_
        subst counted
        exact .more atI inUse fun empty => backlogged (by rw [empty]; rfl)

theorem EnqueueStep.sound {i now : Nat} {pkt : Packet} {accepted : Bool} {h' : Hfsc} (sound : Sound h)
    (step : EnqueueStep h i pkt now accepted h') : Sound h' := by
  cases step with
  | refused => exact sound
  | @dropped c atI inUse _ _ =>
    have pos := sound.pos_of_inUse atI inUse
    have place : SamePlace { c with qdrops := c.qdrops + 1 } c := ⟨rfl, rfl, rfl, rfl, rfl, rfl, rfl, rfl⟩
    change Sound (h.put i { c with qdrops := c.qdrops + 1 } h.eligible h.pktsQueued)
    refine ⟨place.tree sound.tree atI pos, place.wired sound.wired atI fun j => ?_,
      sound.indexed.put atI (fun _ _ => Iff.rfl) fun e isI => sound.indexed.mine atI isI, ?_⟩
    · rw [backlog_put atI]
      split
      · rename_i same
        rw [same, backlog_eq atI]
      · rfl
    · have sums := queued_put { c with qdrops := c.qdrops + 1 } h.eligible h.pktsQueued atI
      have counted := sound.counted
      simp only at sums
      change h.pktsQueued = _
      omega
  | @more c atI inUse backlogged =>
    have pos := sound.pos_of_inUse atI inUse
    have place : SamePlace (c.withPackets (c.packets ++ [pkt])) c := ⟨rfl, rfl, rfl, rfl, rfl, rfl, rfl, rfl⟩
    refine ⟨place.tree sound.tree atI pos, place.wired sound.wired atI fun j => ?_,
      sound.indexed.put atI (fun _ _ => Iff.rfl) fun e isI => ?_, ?_⟩
    · rw [backlog_put atI]
      split
      · rename_i same
        rw [same, backlog_eq atI]
        simp [backlogged]
      · rfl
    · rw [sound.indexed.mine atI isI]
      simp [backlogged]
    · have sums := queued_put (c.withPackets (c.packets ++ [pkt])) h.eligible (h.pktsQueued + 1) atI
      have counted := sound.counted
      simp only [Class.withPackets_packets, List.length_append, List.length_singleton] at sums
      change h.pktsQueued + 1 = _
      omega
  | @first c g d d' atI inUse empty run atD initialised =>
    have pos := sound.pos_of_inUse atI inUse
    obtain ⟨fixed, wired⟩ := (sound.initV_ok atI empty).ok run
    have indexed := sound.indexed.of_fixed fixed
    have same := fixed_at fixed atI atD
    have emptyD : d.packets = [] := (Class.packets_of_fixed same).trans empty
    have absent : ∀ e ∈ g.eligible.entries, e.2 ≠ i :=
      fun e member isI => ((indexed.mine atD isI).mp member).2.1 emptyD
    obtain ⟨dRun, eRun, eligible, deadline, rfl⟩ := initEd_keeps initialised
    have place : SamePlace ((d.withSchedule dRun eRun eligible deadline).withPackets [pkt]) d :=
      ⟨rfl, rfl, rfl, rfl, rfl, rfl, rfl, rfl⟩
    refine ⟨place.tree (sound.tree.of_fixed fixed) atD pos, place.wired wired atD fun j => ?_,
      indexed.put atD (fun e notI => mem_enter_other notI fun member => indexed.entry_index member) fun e isI =>
        ?_, ?_⟩
    · rw [backlog_put atD]
      split
      · rfl
      · rw [backlog_of_fixed fixed]
    · rw [mem_enter_mine isI absent]
      simp
    · have sums := queued_put ((d.withSchedule dRun eRun eligible deadline).withPackets [pkt])
        (enter g.eligible (d.withSchedule dRun eRun eligible deadline) i) (g.pktsQueued + 1) atD
      have counted := sound.counted
      simp only [Class.withPackets_packets, emptyD, List.length_nil, List.length_singleton,
        queued_of_fixed fixed] at sums
      have same := pktsQueued_of_fixed fixed
      change g.pktsQueued + 1 = _
      omega

end R2.Hfsc
