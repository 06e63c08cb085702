import R2.Hfsc.Conservation
import R2.Hfsc.Floor

namespace R2.Hfsc

/-- No class was created under `k`. -/
def Childless (h : Hfsc) (k : Nat) : Prop := ∀ c ∈ h.classes, c.parent ≠ k

instance (h : Hfsc) (k : Nat) : Decidable (Childless h k) :=
  inferInstanceAs (Decidable (∀ c ∈ h.classes, c.parent ≠ k))

variable {h : Hfsc}

theorem Childless.parent_ne {j k : Nat} {c : Class} (childless : Childless h k) (atJ : h.classes[j]? = some c) :
    c.parent ≠ k := childless c (List.mem_of_getElem? atJ)

theorem Childless.bottom {j k : Nat} (childless : Childless h k) : ¬ LeastChild h k j := by
  rintro ⟨t, ⟨c, atC, parent, _⟩, _⟩
  exact childless.parent_ne atC parent

theorem SameShape.childless {g : Hfsc} {k : Nat} (same : SameShape h g) (childless : Childless h k) :
    Childless g k := by
  intro c member
  obtain ⟨j, atJ⟩ := List.mem_iff_getElem?.mp member
  obtain ⟨c', atC', shape⟩ := same.2 j c atJ
  rw [← Class.parent_of_shape shape]
  exact childless.parent_ne atC'

/-- Only leaves of the class tree hold packets. -/
def TreeLeaves (h : Hfsc) : Prop := ∀ k, queueOf h k ≠ [] → Childless h k

theorem Childless.guarded {k : Nat} {c : Class} (childless : Childless h k) : Guarded h k c :=
  Or.inr fun _ _ atJ => childless.parent_ne atJ

/-- Where packets are on leaves only, every active class is guarded. -/
theorem Sound.guarded (sound : Sound h) (leaves : TreeLeaves h) {i : Nat} {c : Class} (atI : h.classes[i]? = some c)
    (below : c.parent ≠ 0) (active : 0 < c.nactive) : Guarded h i c := by
  by_cases drained : c.packets = []
  · have count := sound.wired.counted i c atI (sound.tree.two_le atI below)
    rw [backlog_eq atI, drained] at count
    refine Or.inl fun empty => ?_
    simp only [empty, List.isEmpty_nil, if_true, List.length_nil] at count
    omega
  · exact (leaves i (by rw [queueOf_eq atI]; exact drained)).guarded

/-- What a call of `enqueue` leaves of an active class. -/
theorem EnqueueStep.stayed {i k now : Nat} {pkt : Packet} {accepted : Bool} {c : Class} {h' : Hfsc} (sound : Sound h)
    (step : EnqueueStep h k pkt now accepted h') (atI : h.classes[i]? = some c)
    (active : c.parent ≠ 0 → 0 < c.nactive) : ∃ c', h'.classes[i]? = some c' ∧ Stayed h i c c' := by
  have same {c' : Class} (held : Held c c') 
      (keeps : c'.parent = c.parent ∧ c'.nactive = c.nactive ∧ c'.vmin = c.vmin) :
      Stayed h i c c' :=
    ⟨held.vtime, by rw [keeps.1, keeps.2.1]; exact active, fun _ => ⟨held, keeps.2.2⟩⟩
  cases step with
  | refused => exact ⟨c, atI, same (.refl c) ⟨rfl, rfl, rfl⟩⟩
  | @dropped d atK =>
    by_cases isK : i = k
    · rw [isK, atK] at atI
      cases atI
      exact ⟨{ c with qdrops := c.qdrops + 1 }, by rw [isK]; exact setClass_self atK,
        same ⟨rfl, rfl, rfl, rfl, rfl⟩ ⟨rfl, rfl, rfl⟩⟩
    · exact ⟨c, (setClass_other (Ne.symm isK)).trans atI, same (.refl c) ⟨rfl, rfl, rfl⟩⟩
  | @more d atK =>
    by_cases isK : i = k
    · rw [isK, atK] at atI
      cases atI
      exact ⟨c.withPackets (c.packets ++ [pkt]), by rw [isK]; exact setClass_self atK,
        same ⟨rfl, rfl, rfl, rfl, rfl⟩ ⟨rfl, rfl, rfl⟩⟩
    · exact ⟨c, (setClass_other (Ne.symm isK)).trans atI, same (.refl c) ⟨rfl, rfl, rfl⟩⟩
  | @first d g e e' atK _ empty run atE initialised =>
    obtain ⟨bound, _⟩ := List.getElem?_eq_some_iff.mp atK
    obtain ⟨c', atC', stayed⟩ :=
      initV_stayed (sound.entering atK empty) (by simp only [walkFuel]; omega) run atI active
    obtain ⟨dRun, eRun, eligible, deadline, rfl⟩ := initEd_keeps initialised
    by_cases isK : i = k
    · rw [isK, atE] at atC'
      cases atC'
      refine ⟨(e.withSchedule dRun eRun eligible deadline).withPackets [pkt], by rw [isK]; exact setClass_self atE,
        stayed.vtime, stayed.active, fun guarded => ?_⟩
      obtain ⟨held, vmin⟩ := stayed.held guarded
      exact ⟨held.trans ⟨rfl, rfl, rfl, rfl, rfl⟩, vmin⟩
    · exact ⟨c', (setClass_other (Ne.symm isK)).trans atC', stayed⟩

theorem DequeueStep.away {i t : Nat} {served : Option (Nat × Packet)} {c : Class} {h' : Hfsc} (sound : Sound h)
    (step : DequeueStep h t served h') (atI : h.classes[i]? = some c)
    (away : ∀ k pkt, served = some (k, pkt) → i ∉ lineage h k) :
    ∃ v, c.vmin ≤ v ∧ h'.classes[i]? = some (c.withVmin v) := by
  cases served with
  | none =>
    cases step with
    | idle _ atV => exact (sound.getMinV_effect atV).1 i c atI
  | some pair =>
    obtain ⟨k, pkt⟩ := pair
    obtain ⟨g, g', d, d', rest, el, serving⟩ := step.serving sound
    have before : ∃ v, c.vmin ≤ v ∧ g.classes[i]? = some (c.withVmin v) := by
      rcases serving.before with ⟨rfl, _⟩ | ⟨atV, _⟩
      · exact ⟨c.vmin, le_rfl, atI⟩
      · exact (sound.getMinV_effect atV).1 i c atI
    obtain ⟨v, le, atG⟩ := before
    have notK : i ≠ k := fun isK => away k pkt rfl (isK ▸ self_mem_lineage)
    have popped : SameShape h (g.put k d' el g.pktsQueued) :=
      (SameShape.of_fixed serving.fixed).trans (.put serving.atI serving.shape)
    obtain ⟨charging, enough⟩ := serving.charging
    have other := updateV_other charging enough serving.run
      (fun member => away k pkt rfl (popped.lineage_iff.mp member))
    refine ⟨v, le, ?_⟩
    rw [serving.result]
    exact other.trans ((setClass_other (Ne.symm notK)).trans atG)

/-- Every class above the end of a descent was the least child of its parent,
whose `vmin` caught up with it. -/
theorem Raised.lineage {g : Hfsc} (tree : Tree h) {i k : Nat} {c : Class} (raised : Raised h g k)
    (member : i ∈ lineage h k) (atI : h.classes[i]? = some c) (below : c.parent ≠ 0) :
    LeastChild h c.parent i ∧ ∃ p, g.classes[c.parent]? = some p ∧ c.vtime ≤ p.vmin := by
  induction raised with
  | root =>
    obtain ⟨r, atR, top, _⟩ := tree.top
    rw [← tree.root] at atR
    rw [lineage_top atR top, List.mem_singleton] at member
    rw [member, atR] at atI
    cases atI
    exact absurd top below
  | @down p j pc d _ least atP atJ le ih =>
    obtain ⟨parent, _, _⟩ := least.class_eq atJ
    by_cases isJ : i = j
    · subst isJ
      rw [atJ] at atI
      cases atI
      rw [parent]
      exact ⟨least, pc, atP, le⟩
    · refine ih ?_
      by_cases top : d.parent = 0
      · rw [lineage_top atJ top, List.mem_singleton] at member
        exact absurd member isJ
      · rw [lineage_below tree atJ top, List.mem_cons, parent] at member
        exact member.resolve_left isJ

/-- What a call of `dequeue` did to a class whose subtree it served. -/
structure Picked (h h' : Hfsc) (i len : Nat) (c c' : Class) : Prop where
  least : LeastChild h c.parent i
  charged : Charged c c.vtime len c'
  fRun : c'.fRun = c.fRun
  voff : c'.voff = c.voff
  parent : ∃ p, h'.classes[c.parent]? = some p ∧ p.vmin = c.vtime

theorem DequeueStep.picked {i k t : Nat} {pkt : Packet} {c : Class} {h' : Hfsc} (sound : Sound h) (floor : Floor h)
    (step : DequeueStep h t (some (k, pkt)) h') (childless : Childless h k)
    (plain : ∀ d, h.classes[k]? = some d → d.rIsc = none) (member : i ∈ lineage h k) (atI : h.classes[i]? = some c)
    (below : c.parent ≠ 0) : ∃ c', h'.classes[i]? = some c' ∧ Picked h h' i pkt.len c c' := by
  obtain ⟨g, g', d, d', rest, el, serving⟩ := step.serving sound
  obtain ⟨d₀, atD₀, sameD⟩ := lookup_of_fixed serving.fixed serving.atI
  rcases serving.before with ⟨_, realtime⟩ | ⟨atV, nonzero⟩
  · rw [Class.rIsc_of_fixed sameD, plain d₀ atD₀] at realtime
    cases realtime
  obtain ⟨vminRaised, q, raised, descended⟩ := sound.getMinV_effect atV
  -- nothing lies below the served class
  have atEnd : k = q := by
    rcases Relation.ReflTransGen.cases_head ((descended.found nonzero).1.above descended.bottom)
      with same | ⟨_, first, _⟩
    · exact same
    · exact absurd first childless.bottom
  subst atEnd
  obtain ⟨least, p, atP, le⟩ := raised.lineage sound.tree member atI below
  obtain ⟨v, _, atG⟩ := vminRaised i c atI
  obtain ⟨_, active, _⟩ := least.class_eq atI
  have caught : p.vmin = c.vtime :=
    Nat.le_antisymm (sound.getMinV_floor floor atV c.parent p atP (⟨c.vtime, i⟩, i)
      ⟨_, atG, rfl, active, rfl⟩) le
  obtain ⟨_, _, _, less⟩ := sound.tree.parent_exists atI below
  have bound := le_of_mem_lineage sound.tree member
  have popped : SameShape h (g.put k d' el g.pktsQueued) :=
    (SameShape.of_fixed serving.fixed).trans (.put serving.atI serving.shape)
  have atP' : (g.put k d' el g.pktsQueued).classes[c.parent]? = some p := (setClass_other (by omega)).trans atP
  have still : Held c (c.withVmin v) := ⟨rfl, rfl, rfl, rfl, rfl⟩
  obtain ⟨c₁, atC₁, held, parent₁⟩ : ∃ c₁, (g.put k d' el g.pktsQueued).classes[i]? = some c₁ ∧ Held c c₁ ∧
      c₁.parent = c.parent := by
    by_cases isK : i = k
    · subst isK
      rw [serving.atI] at atG
      cases atG
      exact ⟨d', setClass_self serving.atI, still.trans serving.held, serving.place.parent⟩
    · exact ⟨_, (setClass_other (Ne.symm isK)).trans atG, still, rfl⟩
  obtain ⟨charging, enough⟩ := serving.charging
  have curves := updateV_sameCurves charging enough serving.run
  obtain ⟨c', atC', charged⟩ := updateV_charged charging enough serving.run (popped.lineage_iff.mpr member) atC₁
    (by rw [parent₁]; exact below) (by rw [parent₁]; exact atP')
  obtain ⟨c₂, atC₂, fRun, voff, _⟩ := curves i c₁ atC₁
  rw [atC'] at atC₂
  cases atC₂
  obtain ⟨p', atP'', _, _, vmin⟩ := curves c.parent p atP'
  have fBytes := charged.fBytes
  have moved := charged.moved
  rw [held.fBytes] at fBytes
  rw [held.vtime, held.vadj, held.fRun, held.fBytes, held.voff, caught] at moved
  rw [serving.result]
  exact ⟨c', atC', least, ⟨fBytes, moved⟩, fRun.trans held.fRun, voff.trans held.voff, p', atP'', vmin.trans caught⟩

end R2.Hfsc
