import R2.Hfsc.Wiring

namespace R2.Hfsc

theorem advanceVtime_ok {c c' : Class} {pvmin : Nat} (run : advanceVtime c pvmin = .ok c') :
    ∃ x, rtscY2x c.fRun c.fBytes = .ok x ∧ c.voff ≤ x ∧
      c' = c.place (max (x - c.voff + c.vadj) pvmin) (c.vadj + (pvmin - (x - c.voff + c.vadj))) := by
  unfold advanceVtime at run
  obtain ⟨x, atX, run⟩ := Except.bind_ok_iff.mp run
  obtain ⟨shifted, atShifted, run⟩ := Except.bind_ok_iff.mp run
  obtain ⟨vtime, atVtime, run⟩ := Except.bind_ok_iff.mp run
  obtain ⟨le, rfl⟩ := sub64_ok.mp atShifted
  obtain ⟨_, rfl⟩ := add64_ok.mp atVtime
  refine ⟨x, atX, le, ?_⟩
  split at run
  · obtain ⟨vadj, atVadj, run⟩ := Except.bind_ok_iff.mp run
    obtain ⟨_, rfl⟩ := add64_ok.mp atVadj
    cases Except.ok.inj run
    rw [max_eq_right (by omega)]
    rfl
  · cases Except.ok.inj run
    rw [max_eq_left (by omega), show pvmin - (x - c.voff + c.vadj) = 0 by omega, Nat.add_zero]
    rfl

theorem advanceVtime_noPanic (c : Class) (pvmin : Nat) : NoPanic (advanceVtime c pvmin) (fun _ => True) := by
  refine (rtscY2x_noPanic _ _).bind fun _ _ => ?_
  refine (sub64_noPanic _ _).bind fun _ _ => ?_
  refine (add64_noPanic _ _).bind fun _ _ => Ensures.ite (fun _ => ?_) fun _ => trivial
  exact (add64_noPanic _ _).bind fun _ _ => trivial

/-- What one class of the walk of `update_v` can do, given that it is active:
the walk ends at the root, the class goes passive and leaves its parent's map,
or it moves to a new place in it. -/
inductive UpdateStep (h : Hfsc) (i : Nat) (c : Class) (len : Nat) (passive : Bool) :
    Hfsc → Option (Nat × Bool) → Prop
  | top : c.parent = 0 → UpdateStep h i c len passive h none
  | idle {p} : c.parent ≠ 0 → h.classes[c.parent]? = some p → passive = true → c.nactive = 1 →
      UpdateStep h i c len passive
        ((h.setClass i (c.charge len 0)).setClass c.parent
          ((p.withChildren (p.children.erase c.vtimeKey)).raiseVmax c.vtime))
        (some (c.parent, true))
  | keep {p n c'} : c.parent ≠ 0 → h.classes[c.parent]? = some p →
      n = (if passive then c.nactive - 1 else c.nactive) → 0 < n →
      advanceVtime (c.charge len n) p.vmin = .ok c' →
      UpdateStep h i c len passive
        ((h.setClass i c').setClass c.parent
          (p.withChildren ((p.children.erase c.vtimeKey).insert ⟨c'.vtime, i⟩ i)))
        (some (c.parent, false))

theorem removeKey_eq {m : KeyMap} {k : Key} (compatible : ∀ e ∈ m.entries, e.1.index = k.index → e.1.time = k.time) :
    m.removeKey k = .ok (m.erase k) := by
  simp only [KeyMap.removeKey, KeyMap.search_ok compatible, Except.ok_bind]

theorem insertKey_eq {m : KeyMap} {k : Key} {v : Nat}
    (compatible : ∀ e ∈ m.entries, e.1.index = k.index → e.1.time = k.time) :
    m.insertKey k v = .ok (m.insert k v) := by
  simp only [KeyMap.insertKey, KeyMap.search_ok compatible, Except.ok_bind]

variable {h : Hfsc} {own : Nat → Nat} {off : Nat → Int}

/-- In a children map the key of a class clashes with no other entry. -/
theorem Wired.compatible (tree : Tree h) (wired : Wired h own off) {i : Nat} {c pc : Class}
    (atI : h.classes[i]? = some c) (below : c.parent ≠ 0) (atP : h.classes[c.parent]? = some pc) :
    ∀ e ∈ pc.children.entries, e.1.index = c.vtimeKey.index → e.1.time = c.vtimeKey.time := by
  intro e member same
  obtain ⟨d, atD, _, _, key⟩ := wired.entry_class atP (by omega) member
  have index := (tree.index i c atI (by have := tree.two_le atI below; omega)).1
  have isI : e.2 = i := by
    rw [key] at same
    exact same.trans index
  rw [isI, atI] at atD
  cases atD
  rw [key]
  rfl

theorem Wired.mem_erase_iff (tree : Tree h) (wired : Wired h own off) {i : Nat} {c pc : Class} {e : Key × Nat}
    (atI : h.classes[i]? = some c) (below : c.parent ≠ 0) (atP : h.classes[c.parent]? = some pc) :
    e ∈ (pc.children.erase c.vtimeKey).entries ↔ e ∈ pc.children.entries ∧ e.2 ≠ i := by
  have index := (tree.index i c atI (by have := tree.two_le atI below; omega)).1
  rw [SortedMap.mem_erase]
  refine and_congr_right fun inside => ?_
  obtain ⟨d, atD, _, _, key⟩ := wired.entry_class atP (by omega) inside
  constructor
  · intro differ isI
    rw [isI, atI] at atD
    cases atD
    exact differ (by rw [key, isI, Class.vtimeKey, index])
  · intro notI same
    rw [key] at same
    exact notI ((congrArg Key.index same).trans index)

/-- Once the entry of a class is out of its parent's map, no key has its index. -/
theorem Wired.index_erase (tree : Tree h) (wired : Wired h own off) {i : Nat} {c pc : Class}
    (atI : h.classes[i]? = some c) (below : c.parent ≠ 0) (atP : h.classes[c.parent]? = some pc) :
    ∀ e ∈ (pc.children.erase c.vtimeKey).entries, e.1.index ≠ i := by
  intro e member
  obtain ⟨inside, notI⟩ := (wired.mem_erase_iff tree atI below atP).mp member
  obtain ⟨_, _, _, _, key⟩ := wired.entry_class atP (by omega) inside
  rw [key]
  exact notI

theorem Wired.compatible_erase (tree : Tree h) (wired : Wired h own off) {i t : Nat} {c pc : Class}
    (atI : h.classes[i]? = some c) (below : c.parent ≠ 0) (atP : h.classes[c.parent]? = some pc) :
    ∀ e ∈ (pc.children.erase c.vtimeKey).entries, e.1.index = (⟨t, i⟩ : Key).index →
    e.1.time = (⟨t, i⟩ : Key).time :=
  fun e member same => absurd same (wired.index_erase tree atI below atP e member)

/-- The parent of an active class is active. -/
theorem Wired.parent_active (tree : Tree h) {i : Nat} {c pc : Class} {passive : Bool}
    (wired : Wired h own (fun j => if j = i ∧ passive then 1 else 0)) (atI : h.classes[i]? = some c)
    (below : c.parent ≠ 0) (atP : h.classes[c.parent]? = some pc) (active : 0 < c.nactive) :
    pc.parent ≠ 0 → 0 < pc.nactive := by
  intro belowP
  obtain ⟨_, _, _, less⟩ := tree.parent_exists atI below
  have count := wired.counted c.parent pc atP (tree.two_le atP belowP)
  have positive : 0 < pc.children.entries.length :=
    List.length_pos_of_mem (wired.own_entry tree atI below atP active)
  simp only [show c.parent ≠ i by omega, false_and, if_false] at count
  omega

theorem updateVStep_spec (tree : Tree h) (wired : Wired h own off) {i len : Nat} {c : Class} {passive : Bool}
    (atI : h.classes[i]? = some c) (active : c.parent ≠ 0 → 0 < c.nactive) :
    NoPanic (updateVStep h i len passive) (fun r => UpdateStep h i c len passive r.1 r.2) := by
  unfold updateVStep
  rw [classAt_eq atI, Except.ok_bind]
  refine Ensures.ite (fun top => .top top) fun below => ?_
  refine (add64_noPanic _ _).bind fun fBytes charged => ?_
  subst charged
  refine Ensures.ite (fun idle => absurd idle (active below).ne') fun _ => ?_
  obtain ⟨p, atP, index, less⟩ := tree.parent_exists atI below
  have ne : i ≠ c.parent := by omega
  have pos := active below
  dsimp only
  rw [classAt_eq ((setClass_other ne).trans atP), Except.ok_bind]
  refine Ensures.ite (fun bad => absurd index.symm bad) fun _ => ?_
  rw [removeKey_eq (wired.compatible tree atI below atP), Except.ok_bind]
  refine Ensures.ite (fun goes => ?_) fun stays => ?_
  · simp only [Bool.and_eq_true, beq_iff_eq] at goes
    obtain ⟨rfl, zero⟩ := goes
    rw [if_pos rfl] at zero
    have one : c.nactive = 1 := by omega
    simp only [if_true, zero, beq_self_eq_true, Bool.and_true]
    exact .idle below atP rfl one
  · have passiveFalse : (passive && (if passive then c.nactive - 1 else c.nactive) == 0) = false := by
      simpa only [Bool.not_eq_true] using stays
    have more : 0 < (if passive then c.nactive - 1 else c.nactive) := by
      cases passive with
      | false => simpa using pos
      | true =>
        simp only [Bool.true_and, if_true, beq_eq_false_iff_ne] at passiveFalse ⊢
        omega
    rw [classAt_eq ((setClass_other ne.symm).trans (setClass_self atI)), Except.ok_bind]
    refine ((advanceVtime_noPanic _ _).with_run).bind fun c' run => ?_
    have atP' (d : Class) : (((h.setClass i d).setClass c.parent
        (p.withChildren (p.children.erase c.vtimeKey))).setClass i c').classes[c.parent]? =
          some (p.withChildren (p.children.erase c.vtimeKey)) :=
      (setClass_other ne).trans (setClass_self ((setClass_other ne).trans atP))
    erw [classAt_eq (atP' _)]
    rw [Except.ok_bind]
    erw [insertKey_eq (wired.compatible_erase tree atI below atP)]
    rw [Except.ok_bind, passiveFalse, setClass_comm _ _ _ ne.symm, setClass_twice, setClass_twice]
    exact .keep below atP rfl more run.1

/-- What the structural invariant looks like while the walk is at class `i`. -/
structure Charging (h : Hfsc) (own : Nat → Nat) (i : Nat) (passive : Bool) : Prop where
  tree : Tree h
  wired : Wired h own (fun j => if j = i ∧ passive then 1 else 0)
  live : ∃ c, h.classes[i]? = some c ∧ (c.parent ≠ 0 → 0 < c.nactive)

theorem UpdateStep.fixed {i len : Nat} {c : Class} {passive : Bool} {h' : Hfsc} {next : Option (Nat × Bool)}
    (tree : Tree h) (atI : h.classes[i]? = some c) (step : UpdateStep h i c len passive h' next) :
    h'.fixed = h.fixed := by
  cases step with
  | top => rfl
  | @idle p below atP _ _ =>
    obtain ⟨_, _, _, less⟩ := tree.parent_exists atI below
    exact setPair_fixed (by omega) atI atP rfl rfl
  | @keep p n c' below atP _ _ run =>
    obtain ⟨_, _, _, less⟩ := tree.parent_exists atI below
    obtain ⟨x, _, _, rfl⟩ := advanceVtime_ok run
    exact setPair_fixed (by omega) atI atP rfl rfl

/-- One class further up, the structural invariant holds again. -/
theorem UpdateStep.charging {i len : Nat} {c : Class} {passive : Bool} {h' : Hfsc} {p : Nat} {g : Bool}
    (charging : Charging h own i passive) (atI : h.classes[i]? = some c)
    (step : UpdateStep h i c len passive h' (some (p, g))) : Charging h' own p g := by
  obtain ⟨tree, wired, d, atD, live⟩ := charging
  rw [atI] at atD
  cases atD
  have tree' := tree.of_fixed (step.fixed tree atI)
  cases step with
  | @idle pc below atP isPassive one =>
    obtain ⟨_, _, _, less⟩ := tree.parent_exists atI below
    have two := tree.two_le atI below
    have entry := wired.own_entry tree atI below atP (live below)
    have count := wired.counted i c atI two
    have shorter := SortedMap.length_erase entry
    refine ⟨tree', ?_, ?_⟩
    · refine wired.setPair tree atI below atP ⟨rfl, rfl⟩ ⟨rfl, rfl, rfl⟩ ?_ ?_ ?_ ?_ ?_
      · intro e notI
        rw [Class.raiseVmax_children, Class.withChildren_children, wired.mem_erase_iff tree atI below atP]
        exact and_iff_left notI
      · intro e isI
        rw [Class.raiseVmax_children, Class.withChildren_children, wired.mem_erase_iff tree atI below atP]
        exact iff_of_false (fun member => member.2 isI) fun linked => absurd linked.1 (Nat.lt_irrefl 0)
      · simp only [Class.charge_nactive, isPassive, and_self, if_true, one, show i ≠ c.parent by omega, false_and,
          if_false] at count ⊢
        omega
      · intro twoP
        have countP := wired.counted c.parent pc atP twoP
        simp only [Class.raiseVmax_children, Class.withChildren_children, show c.parent ≠ i by omega, false_and,
          if_false, and_self, if_true] at countP ⊢
        omega
      · intro j notI notP
        simp only [notI, notP, false_and, if_false]
    · have active := wired.parent_active tree atI below atP (live below)
      exact ⟨_, setClass_self ((setClass_other (by omega)).trans atP), active⟩
  | @keep pc n c' below atP count more run =>
    obtain ⟨_, _, _, less⟩ := tree.parent_exists atI below
    have two := tree.two_le atI below
    have entry := wired.own_entry tree atI below atP (live below)
    have countI := wired.counted i c atI two
    have shorter := SortedMap.length_erase entry
    obtain ⟨x, _, _, rfl⟩ := advanceVtime_ok run
    have free {t : Nat} : ∀ e ∈ (pc.children.erase c.vtimeKey).entries, e.1 ≠ ⟨t, i⟩ := fun e member same =>
      wired.index_erase tree atI below atP e member (congrArg Key.index same)
    refine ⟨tree', ?_, ?_⟩
    · refine wired.setPair tree atI below atP ⟨rfl, rfl⟩ ⟨rfl, rfl, rfl⟩ ?_ ?_ ?_ ?_ ?_
      · intro e notI
        rw [Class.withChildren_children, SortedMap.mem_insert]
        constructor
        · rintro (rfl | ⟨inside, _⟩)
          · exact absurd rfl notI
          · exact ((wired.mem_erase_iff tree atI below atP).mp inside).1
        · intro inside
          have kept := (wired.mem_erase_iff tree atI below atP).mpr ⟨inside, notI⟩
          exact Or.inr ⟨kept, free e kept⟩
      · intro e isI
        rw [Class.withChildren_children, SortedMap.mem_insert]
        constructor
        · rintro (rfl | ⟨inside, _⟩)
          · exact ⟨more, rfl⟩
          · exact absurd isI ((wired.mem_erase_iff tree atI below atP).mp inside).2
        · rintro ⟨_, key⟩
          exact Or.inl (Prod.ext key isI)
      · simp only [Class.place_nactive, Class.charge_nactive, show i ≠ c.parent by omega, false_and, if_false,
          true_and] at countI ⊢
        cases passive with
        | false => simp only [Bool.false_eq_true, if_false] at count countI; omega
        | true => simp only [if_true] at count countI; omega
      · intro twoP
        have countP := wired.counted c.parent pc atP twoP
        have longer := SortedMap.length_insert (v := i) (free (t := max (x - c.voff + c.vadj) pc.vmin))
        simp only [Class.withChildren_children, Class.place_vtime, Class.charge_voff, Class.charge_vadj,
          show c.parent ≠ i by omega, false_and, if_false, Bool.false_eq_true, and_false] at countP ⊢
        omega
      · intro j notI notP
        simp only [notI, notP, false_and, if_false]
    · have active := wired.parent_active tree atI below atP (live below)
      exact ⟨_, setClass_self ((setClass_other (by omega)).trans atP), active⟩

theorem UpdateStep.climbs {i q len : Nat} {c : Class} {passive goes : Bool} {h' : Hfsc} (tree : Tree h)
    (atI : h.classes[i]? = some c) (step : UpdateStep h i c len passive h' (some (q, goes))) : q < i := by
  cases step with
  | idle below => exact (tree.parent i c atI (tree.two_le atI below)).2
  | keep below => exact (tree.parent i c atI (tree.two_le atI below)).2

/-- Run rule for `update_v`: `during` holds before each class of the walk and
`after` when it ends. The structural invariant comes for free. -/
theorem updateV_rule (during : Hfsc → Nat → Bool → Prop) (after : Hfsc → Prop) {len : Nat}
    (climb : ∀ h i c passive h' p g, Charging h own i passive → h.classes[i]? = some c → during h i passive →
      UpdateStep h i c len passive h' (some (p, g)) → during h' p g)
    (stop : ∀ h i c passive, Tree h → Wired h own (fun _ => 0) → h.classes[i]? = some c → c.parent = 0 →
      during h i passive → after h)
    {fuel i : Nat} {passive : Bool} (charging : Charging h own i passive) (start : during h i passive)
    (enough : i < fuel) :
    NoPanic (updateV len fuel h i passive)
      (fun h' => h'.fixed = h.fixed ∧ Wired h' own (fun _ => 0) ∧ after h') := by
  induction fuel generalizing h i passive with
  | zero => omega
  | succ fuel ih =>
    obtain ⟨c, atI, live⟩ := charging.live
    refine (updateVStep_spec charging.tree charging.wired atI live).bind fun r step => ?_
    obtain ⟨h', next⟩ := r
    have fixed := step.fixed charging.tree atI
    cases next with
    | none =>
      cases step with
      | top isTop =>
        have settled : Wired h' own (fun _ => 0) := charging.wired.congr fun j d atD two => by
          have notI : j ≠ i := by
            rintro rfl
            rw [atI] at atD
            cases atD
            have := (charging.tree.parent _ _ atI two).1
            omega
          simp only [notI, false_and, if_false]
        exact ⟨rfl, settled, stop h' i c passive charging.tree settled atI isTop start⟩
    | some up =>
      obtain ⟨p, g⟩ := up
      have charging' := step.charging charging atI
      have start' := climb h i c passive h' p g charging atI start step
      have less := step.climbs charging.tree atI
      refine (ih charging' start' (by omega)).mono fun h'' result => ?_
      exact ⟨result.1.trans fixed, result.2⟩

end R2.Hfsc
