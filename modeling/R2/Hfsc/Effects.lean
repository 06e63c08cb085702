import R2.Hfsc.Reachable

namespace R2.Hfsc

/-- A class and the classes above it, up to the root. -/
def lineageLoop (h : Hfsc) : Nat → Nat → List Nat
  | 0, _ => []
  | fuel + 1, k =>
    match h.classes[k]? with
    | none => [k]
    | some c => if c.parent = 0 then [k] else k :: lineageLoop h fuel c.parent

def lineage (h : Hfsc) (k : Nat) : List Nat := lineageLoop h (k + 1) k

variable {h : Hfsc} {own : Nat → Nat}

theorem lineageLoop_enough (tree : Tree h) {k : Nat} (fuel fuel' : Nat) (enough : k < fuel) (enough' : k < fuel') :
    lineageLoop h fuel k = lineageLoop h fuel' k := by
  induction k using Nat.strongRecOn generalizing fuel fuel' with
  | ind k ih =>
    obtain ⟨n, rfl⟩ := Nat.exists_eq_succ_of_ne_zero (by omega : fuel ≠ 0)
    obtain ⟨n', rfl⟩ := Nat.exists_eq_succ_of_ne_zero (by omega : fuel' ≠ 0)
    unfold lineageLoop
    cases atK : h.classes[k]? with
    | none => rfl
    | some c =>
      dsimp only
      split
      · rfl
      · rename_i below
        obtain ⟨_, _, _, less⟩ := tree.parent_exists atK below
        rw [ih c.parent less n n' (by omega) (by omega)]

theorem lineage_top {k : Nat} {c : Class} (atK : h.classes[k]? = some c) (top : c.parent = 0) :
    lineage h k = [k] := by
  simp only [lineage, lineageLoop, atK, top, if_true]

theorem lineage_below (tree : Tree h) {k : Nat} {c : Class} (atK : h.classes[k]? = some c) (below : c.parent ≠ 0) :
    lineage h k = k :: lineage h c.parent := by
  obtain ⟨_, _, _, less⟩ := tree.parent_exists atK below
  unfold lineage
  rw [lineageLoop_enough tree (c.parent + 1) k (by omega) less, lineageLoop, atK]
  simp only [below, if_false]

theorem self_mem_lineage {k : Nat} : k ∈ lineage h k := by
  unfold lineage lineageLoop
  split
  · exact List.mem_singleton_self k
  · split
    · exact List.mem_singleton_self k
    · exact List.mem_cons_self ..

theorem le_of_mem_lineage (tree : Tree h) {a k : Nat} (member : a ∈ lineage h k) : a ≤ k := by
  induction k using Nat.strongRecOn with
  | ind k ih =>
    cases atK : h.classes[k]? with
    | none =>
      simp only [lineage, lineageLoop, atK, List.mem_singleton] at member
      omega
    | some c =>
      by_cases below : c.parent = 0
      · rw [lineage_top atK below, List.mem_singleton] at member
        omega
      · obtain ⟨_, _, _, less⟩ := tree.parent_exists atK below
        rw [lineage_below tree atK below] at member
        rcases List.mem_cons.mp member with rfl | above
        · exact le_rfl
        · have := ih c.parent less above
          omega

/-- The lineage of a class is all a walk from it can touch, and it stays as it
is, since walks do not move classes. -/
theorem lineage_of_fixed {g : Hfsc} (same : g.fixed = h.fixed) (k : Nat) : lineage g k = lineage h k := by
  have loop (fuel : Nat) (k : Nat) : lineageLoop g fuel k = lineageLoop h fuel k := by
    induction fuel generalizing k with
    | zero => rfl
    | succ fuel ih =>
      unfold lineageLoop
      cases atK : g.classes[k]? with
      | none =>
        have none' : h.classes[k]? = none := by
          rw [List.getElem?_eq_none_iff] at atK ⊢
          rw [← length_of_fixed same]
          exact atK
        rw [none']
      | some d =>
        obtain ⟨c, atC, eq⟩ := lookup_of_fixed same atK
        rw [atC]
        dsimp only
        rw [Class.parent_of_fixed eq, ih]
  exact loop (k + 1) k

/-- What `update_v` does to a class on its way: it is charged, and either goes
passive where it is or moves on along its curve. -/
structure Charged (c : Class) (pvmin len : Nat) (c' : Class) : Prop where
  fBytes : c'.fBytes = c.fBytes + len
  moved : c'.nactive = 0 ∧ c'.vtime = c.vtime ∧ c'.vadj = c.vadj ∨
    0 < c'.nactive ∧ ∃ x, rtscY2x c.fRun (c.fBytes + len) = .ok x ∧ c.voff ≤ x ∧
      c'.vtime = max (x - c.voff + c.vadj) pvmin ∧ c'.vadj = c.vadj + (pvmin - (x - c.voff + c.vadj))

/-- A class before `update_v` reaches it. -/
structure Uncharged (c c' : Class) : Prop where
  fBytes : c'.fBytes = c.fBytes
  vtime : c'.vtime = c.vtime
  vadj : c'.vadj = c.vadj

/-- What `update_v` never changes. -/
def SameCurves (h g : Hfsc) : Prop := ∀ (a : Nat) (c : Class), h.classes[a]? = some c →
  ∃ c', g.classes[a]? = some c' ∧ c'.fRun = c.fRun ∧ c'.voff = c.voff ∧ c'.vmin = c.vmin

theorem SameCurves.setClass {g : Hfsc} {i : Nat} {d d' : Class} (same : SameCurves h g) (atI : g.classes[i]? = some d)
    (keeps : d'.fRun = d.fRun ∧ d'.voff = d.voff ∧ d'.vmin = d.vmin) : SameCurves h (g.setClass i d') := by
  intro a c atA
  obtain ⟨c', atC', fRun, voff, vmin⟩ := same a c atA
  by_cases isI : a = i
  · subst isI
    rw [atI] at atC'
    cases atC'
    exact ⟨d', setClass_self atI, keeps.1.trans fRun, keeps.2.1.trans voff, keeps.2.2.trans vmin⟩
  · exact ⟨c', (setClass_other (Ne.symm isI)).trans atC', fRun, voff, vmin⟩

theorem SameCurves.setPair {g : Hfsc} {i q : Nat} {d d' p p' : Class} (same : SameCurves h g) (ne : i ≠ q)
    (atI : g.classes[i]? = some d) (atQ : g.classes[q]? = some p)
    (keeps : d'.fRun = d.fRun ∧ d'.voff = d.voff ∧ d'.vmin = d.vmin)
    (keepsP : p'.fRun = p.fRun ∧ p'.voff = p.voff ∧ p'.vmin = p.vmin) :
    SameCurves h ((g.setClass i d').setClass q p') :=
  (same.setClass atI keeps).setClass ((setClass_other ne).trans atQ) keepsP

theorem UpdateStep.sameCurves {g g' : Hfsc} {i len : Nat} {c : Class} {passive : Bool} {next : Option (Nat × Bool)}
    (tree : Tree g) (same : SameCurves h g) (atI : g.classes[i]? = some c)
    (step : UpdateStep g i c len passive g' next) : SameCurves h g' := by
  cases step with
  | top => exact same
  | idle below atP =>
    obtain ⟨_, _, _, less⟩ := tree.parent_exists atI below
    exact SameCurves.setPair same (by omega) atI atP ⟨rfl, rfl, rfl⟩ ⟨rfl, rfl, rfl⟩
  | keep below atP _ _ run =>
    obtain ⟨_, _, _, less⟩ := tree.parent_exists atI below
    obtain ⟨x, _, _, rfl⟩ := advanceVtime_ok run
    exact SameCurves.setPair same (by omega) atI atP ⟨rfl, rfl, rfl⟩ ⟨rfl, rfl, rfl⟩

theorem updateV_sameCurves {len fuel k : Nat} {passive : Bool} {g : Hfsc} (charging : Charging h own k passive)
    (enough : k < fuel) (run : updateV len fuel h k passive = .ok g) : SameCurves h g := by
  have start : SameCurves h h := fun a c atA => ⟨c, atA, rfl, rfl, rfl⟩
  refine ((updateV_rule (fun g _ _ => SameCurves h g) (fun g => SameCurves h g) ?_ ?_ charging start
    enough).ok run).2.2
  · intro g i c passive g' p b charging atI same step
    exact step.sameCurves charging.tree same atI
  · intro g i c passive _ _ _ _ same
    exact same

/-- Off the lineage nothing changes. -/
theorem updateV_other {len fuel k : Nat} {passive : Bool} {g : Hfsc} (charging : Charging h own k passive)
    (enough : k < fuel) (run : updateV len fuel h k passive = .ok g) {a : Nat} (away : a ∉ lineage h k) :
    g.classes[a]? = h.classes[a]? := by
  refine ((updateV_rule (fun g i _ => g.classes[a]? = h.classes[a]? ∧ a ∉ lineage g i)
    (fun g => g.classes[a]? = h.classes[a]?) ?_ ?_ charging ⟨rfl, away⟩ enough).ok run).2.2
  · intro g i c passive g' p b charging atI both step
    have fixed := step.fixed charging.tree atI
    obtain ⟨same, notMember⟩ := both
    cases step with
    | idle below atP =>
      rw [lineage_below charging.tree atI below, List.mem_cons, not_or] at notMember
      rw [lineage_of_fixed fixed]
      have notP : a ≠ c.parent := fun isP => notMember.2 (isP ▸ self_mem_lineage)
      exact ⟨(setClass_other notP.symm).trans ((setClass_other (Ne.symm notMember.1)).trans same), notMember.2⟩
    | keep below atP =>
      rw [lineage_below charging.tree atI below, List.mem_cons, not_or] at notMember
      rw [lineage_of_fixed fixed]
      have notP : a ≠ c.parent := fun isP => notMember.2 (isP ▸ self_mem_lineage)
      exact ⟨(setClass_other notP.symm).trans ((setClass_other (Ne.symm notMember.1)).trans same), notMember.2⟩
  · intro g i c passive _ _ _ _ both
    exact both.1

theorem UpdateStep.charged {g g' : Hfsc} {i q len : Nat} {d : Class} {passive b : Bool} (tree : Tree g)
    (atI : g.classes[i]? = some d) (step : UpdateStep g i d len passive g' (some (q, b))) :
    ∃ p d', g.classes[d.parent]? = some p ∧ g'.classes[i]? = some d' ∧ Charged d p.vmin len d' := by
  cases step with
  | @idle p below atP _ _ =>
    obtain ⟨_, _, _, less⟩ := tree.parent_exists atI below
    refine ⟨p, d.charge len 0, atP, ?_, rfl, Or.inl ⟨rfl, rfl, rfl⟩⟩
    exact (setClass_other (by omega)).trans (setClass_self atI)
  | @keep p n d' below atP count more run =>
    obtain ⟨_, _, _, less⟩ := tree.parent_exists atI below
    obtain ⟨x, atX, le, rfl⟩ := advanceVtime_ok run
    refine ⟨p, _, atP, (setClass_other (by omega)).trans (setClass_self atI), rfl,
      Or.inr ⟨more, x, atX, le, rfl, rfl⟩⟩

/-- A class that is not the one of the step keeps its place on its curve. -/
theorem UpdateStep.uncharged {g g' : Hfsc} {i q len a : Nat} {d c : Class} {passive b : Bool} (tree : Tree g)
    (atI : g.classes[i]? = some d) (step : UpdateStep g i d len passive g' (some (q, b)))
    (atA : g.classes[a]? = some c) (notI : a ≠ i) : ∃ c', g'.classes[a]? = some c' ∧ Uncharged c c' := by
  have parent {p p' d' : Class} (below : d.parent ≠ 0) (atP : g.classes[d.parent]? = some p)
      (keeps : Uncharged p p') : ∃ c', ((g.setClass i d').setClass d.parent p').classes[a]? = some c' ∧
        Uncharged c c' := by
    obtain ⟨_, _, _, less⟩ := tree.parent_exists atI below
    by_cases isP : a = d.parent
    · rw [isP, atP] at atA
      cases atA
      exact ⟨p', by rw [isP]; exact setClass_self ((setClass_other (by omega)).trans atP), keeps⟩
    · exact ⟨c, (setClass_other (Ne.symm isP)).trans ((setClass_other (Ne.symm notI)).trans atA), rfl, rfl, rfl⟩
  cases step with
  | idle below atP => exact parent below atP ⟨rfl, rfl, rfl⟩
  | keep below atP => exact parent below atP ⟨rfl, rfl, rfl⟩

/-- On the lineage every class below the root is charged once. -/
theorem updateV_charged {len fuel k : Nat} {passive : Bool} {g : Hfsc} (charging : Charging h own k passive)
    (enough : k < fuel) (run : updateV len fuel h k passive = .ok g) {a : Nat} (member : a ∈ lineage h k)
    {c p : Class}
    (atA : h.classes[a]? = some c) (below : c.parent ≠ 0) (atP : h.classes[c.parent]? = some p) :
    ∃ c', g.classes[a]? = some c' ∧ Charged c p.vmin len c' := by
  have two := charging.tree.two_le atA below
  have start : (a ∈ lineage h k ∧ ∃ c', h.classes[a]? = some c' ∧ Uncharged c c') ∨
      a ∉ lineage h k ∧ ∃ c', h.classes[a]? = some c' ∧ Charged c p.vmin len c' :=
    Or.inl ⟨member, c, atA, rfl, rfl, rfl⟩
  have fixedStart : h.fixed = h.fixed := rfl
  have curvesStart : SameCurves h h := fun a c atA => ⟨c, atA, rfl, rfl, rfl⟩
  refine ((updateV_rule
    (fun g i _ => g.fixed = h.fixed ∧ SameCurves h g ∧
      ((a ∈ lineage g i ∧ ∃ c', g.classes[a]? = some c' ∧ Uncharged c c') ∨
        a ∉ lineage g i ∧ ∃ c', g.classes[a]? = some c' ∧ Charged c p.vmin len c'))
    (fun g => ∃ c', g.classes[a]? = some c' ∧ Charged c p.vmin len c') ?_ ?_ charging
    ⟨fixedStart, curvesStart, start⟩ enough).ok run).2.2
  · intro g i d passive g' q b charging atI all step
    obtain ⟨fixed, curves, phase⟩ := all
    have fixed' := step.fixed charging.tree atI
    have up : d.parent ≠ 0 ∧ q = d.parent := by
      cases step with
      | idle under => exact ⟨under, rfl⟩
      | keep under => exact ⟨under, rfl⟩
    obtain ⟨under, rfl⟩ := up
    have shape := lineage_below charging.tree atI under
    obtain ⟨_, _, _, less⟩ := charging.tree.parent_exists atI under
    refine ⟨fixed'.trans fixed, step.sameCurves charging.tree curves atI, ?_⟩
    rw [lineage_of_fixed fixed']
    rcases phase with ⟨inside, c₁, atC₁, uncharged⟩ | ⟨outside, c₁, atC₁, charged⟩
    · by_cases here : a = i
      · subst here
        rw [atI] at atC₁
        cases atC₁
        refine Or.inr ⟨fun above => ?_, ?_⟩
        · have := le_of_mem_lineage charging.tree above
          omega
        · obtain ⟨p', d', atP', atD', charged⟩ := step.charged charging.tree atI
          have same := fixed_at fixed atA atI
          rw [Class.parent_of_fixed same] at atP'
          obtain ⟨p₁, atP₁, _, _, vmin⟩ := curves c.parent p atP
          rw [atP'] at atP₁
          cases atP₁
          obtain ⟨d₁, atD₁, fRun, voff, _⟩ := curves a c atA
          rw [atI] at atD₁
          cases atD₁
          refine ⟨d', atD', charged.fBytes.trans (by rw [uncharged.fBytes]), ?_⟩
          have moved := charged.moved
          rwa [fRun, voff, vmin, uncharged.fBytes, uncharged.vtime, uncharged.vadj] at moved
      · rw [shape, List.mem_cons] at inside
        obtain ⟨c', atC', still⟩ := step.uncharged charging.tree atI atC₁ here
        exact Or.inl ⟨inside.resolve_left here, c', atC', still.fBytes.trans uncharged.fBytes,
          still.vtime.trans uncharged.vtime, still.vadj.trans uncharged.vadj⟩
    · rw [shape, List.mem_cons, not_or] at outside
      have notP : a ≠ d.parent := fun isP => outside.2 (isP ▸ self_mem_lineage)
      refine Or.inr ⟨outside.2, c₁, ?_, charged⟩
      cases step with
      | idle => exact (setClass_other notP.symm).trans ((setClass_other (Ne.symm outside.1)).trans atC₁)
      | keep => exact (setClass_other notP.symm).trans ((setClass_other (Ne.symm outside.1)).trans atC₁)
  · intro g i d passive tree _ atI top all
    obtain ⟨fixed, _, phase⟩ := all
    rcases phase with ⟨inside, c₁, atC₁, _⟩ | ⟨_, charged⟩
    · rw [lineage_top atI top, List.mem_singleton] at inside
      obtain ⟨c₂, atC₂, same⟩ := lookup_of_fixed fixed atI
      rw [← inside, atA] at atC₂
      cases atC₂
      exact absurd ((Class.parent_of_fixed same).symm.trans top) below
    · exact charged

/-- A class that `init_v` finds active and leaves where it is. -/
structure Held (c c' : Class) : Prop where
  vtime : c'.vtime = c.vtime
  fRun : c'.fRun = c.fRun
  voff : c'.voff = c.voff
  vadj : c'.vadj = c.vadj
  fBytes : c'.fBytes = c.fBytes

theorem Held.refl (c : Class) : Held c c := ⟨rfl, rfl, rfl, rfl, rfl⟩

theorem Held.trans {c c' c'' : Class} (first : Held c c') (second : Held c' c'') : Held c c'' :=
  ⟨second.vtime.trans first.vtime, second.fRun.trans first.fRun, second.voff.trans first.voff,
    second.vadj.trans first.vadj, second.fBytes.trans first.fBytes⟩

theorem initV_other {fuel k : Nat} {g : Hfsc} (entering : Entering h own k) (enough : k < fuel)
    (run : initV fuel h k true = .ok g) {a : Nat} (away : a ∉ lineage h k) : g.classes[a]? = h.classes[a]? := by
  refine ((initV_rule (fun g i => g.classes[a]? = h.classes[a]? ∧ a ∉ lineage g i)
    (fun g => g.classes[a]? = h.classes[a]?) ?_ ?_ entering ⟨rfl, away⟩ enough).ok run).2.2
  · intro g i c g' p entering atI both step
    obtain ⟨same, notMember⟩ := both
    rw [lineage_of_fixed (step.fixed entering.tree atI)]
    have up {p' c' : Class} (below : c.parent ≠ 0) :
        ((g.setClass i c').setClass c.parent p').classes[a]? = h.classes[a]? ∧ a ∉ lineage g c.parent := by
      rw [lineage_below entering.tree atI below, List.mem_cons, not_or] at notMember
      have notP : a ≠ c.parent := fun isP => notMember.2 (isP ▸ self_mem_lineage)
      exact ⟨(setClass_other notP.symm).trans ((setClass_other (Ne.symm notMember.1)).trans same), notMember.2⟩
    cases step with
    | join below => exact up below
    | first below => exact up below
  · intro g i c g' entering atI both step
    cases step with
    | top => exact both.1
    | busy =>
      have notI : a ≠ i := fun isI => both.2 (isI ▸ self_mem_lineage)
      exact (setClass_other notI.symm).trans both.1

theorem insert_ne_nil {m : KeyMap} {key : Key} {v : Nat} : (m.insert key v).entries ≠ [] :=
  List.ne_nil_of_mem (SortedMap.mem_insert.mpr (Or.inl rfl))

/-- No child of `a` can open a new backlog period of it: it has an active child
already, or none at all. -/
def Guarded (h : Hfsc) (a : Nat) (c : Class) : Prop :=
  c.children.entries ≠ [] ∨ ∀ (j : Nat) (d : Class), h.classes[j]? = some d → d.parent ≠ a

/-- What becomes of an active class when another class enters: it stays where
it is, and if it is guarded it is only counted up. -/
structure Stayed (h : Hfsc) (a : Nat) (c c' : Class) : Prop where
  vtime : c'.vtime = c.vtime
  active : c'.parent ≠ 0 → 0 < c'.nactive
  held : Guarded h a c → Held c c' ∧ c'.vmin = c.vmin

theorem initV_stayed {fuel k : Nat} {g : Hfsc} (entering : Entering h own k) (enough : k < fuel)
    (run : initV fuel h k true = .ok g) {a : Nat} {c : Class} (atA : h.classes[a]? = some c)
    (active : c.parent ≠ 0 → 0 < c.nactive) : ∃ c', g.classes[a]? = some c' ∧ Stayed h a c c' := by
  refine ((initV_rule
    (fun g _ => g.fixed = h.fixed ∧ ∃ c', g.classes[a]? = some c' ∧ Stayed h a c c' ∧
      (Guarded h a c → Guarded h a c'))
    (fun g => ∃ c', g.classes[a]? = some c' ∧ Stayed h a c c') ?_ ?_ entering
    ⟨rfl, c, atA, ⟨rfl, active, fun _ => ⟨.refl c, rfl⟩⟩, id⟩ enough).ok run).2.2
  · intro g i d g' q entering atI all step
    obtain ⟨fixed, c', atC', stayed, guard⟩ := all
    refine ⟨(step.fixed entering.tree atI).trans fixed, ?_⟩
    have notI (below : d.parent ≠ 0) (passive : d.nactive = 0) : a ≠ i := by
      rintro rfl
      rw [atI] at atC'
      cases atC'
      have := stayed.active below
      omega
    cases step with
    | @join p _ _ _ _ d' below atP passive =>
      obtain ⟨_, _, _, less⟩ := entering.tree.parent_exists atI below
      by_cases isP : a = d.parent
      · rw [isP, atP] at atC'
        cases atC'
        refine ⟨c'.withChildren (c'.children.insert ⟨d'.vtime, i⟩ i), ?_,
          ⟨stayed.vtime, stayed.active, fun guarded => ?_⟩,
          fun _ => Or.inl insert_ne_nil⟩
        · rw [isP]
          exact setClass_self ((setClass_other (by omega)).trans atP)
        · obtain ⟨held, vmin⟩ := stayed.held guarded
          exact ⟨held.trans ⟨rfl, rfl, rfl, rfl, rfl⟩, vmin⟩
      · exact ⟨c', (setClass_other (Ne.symm isP)).trans ((setClass_other (Ne.symm (notI below passive))).trans atC'),
          stayed, guard⟩
    | @first p d' below atP passive empty =>
      obtain ⟨_, _, _, less⟩ := entering.tree.parent_exists atI below
      by_cases isP : a = d.parent
      · rw [isP, atP] at atC'
        cases atC'
        have open' (guarded : Guarded h a c) : False := by
          rcases guard guarded with nonempty | childless
          · exact nonempty empty
          · obtain ⟨d₀, atD₀, same⟩ := lookup_of_fixed fixed atI
            exact childless i d₀ atD₀ ((Class.parent_of_fixed same).symm.trans isP.symm)
        refine ⟨c'.openPeriod.withChildren (c'.children.insert ⟨d'.vtime, i⟩ i), ?_,
          ⟨stayed.vtime, stayed.active, fun guarded => (open' guarded).elim⟩, fun guarded => (open' guarded).elim⟩
        rw [isP]
        exact setClass_self ((setClass_other (by omega)).trans atP)
      · exact ⟨c', (setClass_other (Ne.symm isP)).trans ((setClass_other (Ne.symm (notI below passive))).trans atC'),
          stayed, guard⟩
  · intro g i d g' entering atI all step
    obtain ⟨_, c', atC', stayed, _⟩ := all
    cases step with
    | top => exact ⟨c', atC', stayed⟩
    | busy =>
      by_cases isI : a = i
      · rw [isI, atI] at atC'
        cases atC'
        refine ⟨d.joinAt (d.nactive + 1) d.vtime, by rw [isI]; exact setClass_self atI, stayed.vtime,
          fun _ => Nat.succ_pos _, fun guarded => ?_⟩
        obtain ⟨held, vmin⟩ := stayed.held guarded
        exact ⟨held.trans ⟨rfl, rfl, rfl, rfl, rfl⟩, vmin⟩
      · exact ⟨c', (setClass_other (Ne.symm isI)).trans atC', stayed⟩

/-- All that `get_min_v` changes. -/
def VminRaised (h g : Hfsc) : Prop :=
  ∀ (a : Nat) (c : Class), h.classes[a]? = some c → ∃ v, c.vmin ≤ v ∧ g.classes[a]? = some (c.withVmin v)

/-- On the way to a class the `vmin` of every parent reached the virtual time
of the child that was taken. -/
inductive Raised (h g : Hfsc) : Nat → Prop
  | root : Raised h g h.root
  | down {p j pc c} : Raised h g p → LeastChild h p j → g.classes[p]? = some pc → h.classes[j]? = some c →
      c.vtime ≤ pc.vmin → Raised h g j

theorem VminRaised.linked {g : Hfsc} (raised : VminRaised h g) (fixed : g.fixed = h.fixed) (q : Nat) (e : Key × Nat) :
    Linked g q e ↔ Linked h q e := by
  constructor
  · rintro ⟨d, atD, parent, active, key⟩
    obtain ⟨c, atC, _⟩ := lookup_of_fixed fixed atD
    obtain ⟨v, _, atC'⟩ := raised e.2 c atC
    rw [atD] at atC'
    cases atC'
    exact ⟨c, atC, parent, active, key⟩
  · rintro ⟨c, atC, parent, active, key⟩
    obtain ⟨v, _, atC'⟩ := raised e.2 c atC
    exact ⟨_, atC', parent, active, key⟩

theorem Sound.getMinV_effect (sound : Sound h) {r : Nat} {g : Hfsc}
    (run : getMinV h.walkFuel h h.root = .ok (r, g)) :
    VminRaised h g ∧ ∃ q, Raised h g q ∧ Descended h h.root r q := by
  obtain ⟨root, atRoot, _⟩ := sound.tree.top
  rw [← sound.tree.root] at atRoot
  have raise (g : Hfsc) (p : Nat) (pc : Class) (j : Nat) (d : Class) (_ : Tree g)
      (_ : Wired g (backlog h) (fun _ => 0)) (all : g.fixed = h.fixed ∧ VminRaised h g ∧ Raised h g p)
      (atP : g.classes[p]? = some pc) (_ : OnPath g p) (atJ : g.classes[j]? = some d) (least : LeastChild g p j) :
      (g.setClass p (pc.withVmin (max pc.vmin d.vtime))).fixed = h.fixed ∧
        VminRaised h (g.setClass p (pc.withVmin (max pc.vmin d.vtime))) ∧
        Raised h (g.setClass p (pc.withVmin (max pc.vmin d.vtime))) j := by
    obtain ⟨fixed, raised, path⟩ := all
    have links := raised.linked fixed
    have more : VminRaised h (g.setClass p (pc.withVmin (max pc.vmin d.vtime))) := by
      intro a c atA
      obtain ⟨v, le, atC'⟩ := raised a c atA
      by_cases isP : a = p
      · rw [isP, atP] at atC'
        cases atC'
        refine ⟨max v d.vtime, by omega, ?_⟩
        rw [isP]
        exact setClass_self atP
      · exact ⟨v, le, (setClass_other (Ne.symm isP)).trans atC'⟩
    have keep {q : Nat} (before : Raised h g q) : Raised h (g.setClass p (pc.withVmin (max pc.vmin d.vtime))) q := by
      induction before with
      | root => exact .root
      | @down p' j' pc' c' _ least' atP' atJ' le ih =>
        by_cases isP : p' = p
        · rw [isP, atP] at atP'
          cases atP'
          refine ih.down least' (by rw [isP]; exact setClass_self atP) atJ' ?_
          simp only [Class.withVmin_vmin]
          omega
        · exact ih.down least' ((setClass_other (Ne.symm isP)).trans atP') atJ' le
    have fixed' : (g.setClass p (pc.withVmin (max pc.vmin d.vtime))).fixed = g.fixed := setClass_fixed atP rfl
    refine ⟨fixed'.trans fixed, more, ?_⟩
    obtain ⟨c, atC, _⟩ := lookup_of_fixed fixed atJ
    obtain ⟨v, _, atC'⟩ := raised j c atC
    rw [atJ] at atC'
    cases atC'
    obtain ⟨t, linked, below⟩ := least
    refine (keep path).down ⟨t, (links _ _).mp linked, fun e inside => below e ((links _ _).mpr inside)⟩
      (setClass_self atP) atC ?_
    simp only [Class.withVmin_vmin, Class.withVmin_vtime]
    omega
  obtain ⟨_, _, _, q, ⟨_, raised, path⟩, descended⟩ := (getMinV_rule
    (fun g i => g.fixed = h.fixed ∧ VminRaised h g ∧ Raised h g i) raise sound.tree sound.wired
    ⟨rfl, fun a c atA => ⟨c.vmin, le_rfl, atA⟩, .root⟩ atRoot (by rw [sound.tree.root]) .root
    (by simp only [walkFuel]; omega)).ok run
  exact ⟨raised, q, path, descended⟩

end R2.Hfsc
