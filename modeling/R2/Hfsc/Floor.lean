import R2.Hfsc.Shape

namespace R2.Hfsc

/-- No active class is behind its parent's `vmin`. -/
def Floor (h : Hfsc) : Prop :=
  ∀ (p : Nat) (pc : Class), h.classes[p]? = some pc → ∀ e, Linked h p e → pc.vmin ≤ e.1.time

variable {h : Hfsc} {own : Nat → Nat}

theorem Floor.of_classes {h' : Hfsc} (floor : Floor h) (classes : h'.classes = h.classes) : Floor h' := by
  intro p pc atP e linked
  rw [classes] at atP
  obtain ⟨d, atD, rest⟩ := linked
  rw [classes] at atD
  exact floor p pc atP e ⟨d, atD, rest⟩

/-- A class may change as long as it is not made active, moved or raised. -/
theorem Floor.setOne {i : Nat} {c c' : Class} (floor : Floor h) (atI : h.classes[i]? = some c)
    (keeps : c'.parent = c.parent ∧ c'.vtime = c.vtime ∧ (0 < c'.nactive → 0 < c.nactive) ∧ c'.vmin = c.vmin) :
    Floor (h.setClass i c') := by
  obtain ⟨parent, vtime, active, vmin⟩ := keeps
  have old {q : Nat} {e : Key × Nat} (linked : Linked (h.setClass i c') q e) : Linked h q e := by
    obtain ⟨d, atD, dParent, dActive, key⟩ := linked
    rcases (setClass_iff atI).mp atD with ⟨same, rfl⟩ | ⟨_, atD'⟩
    · exact ⟨c, by rw [same]; exact atI, parent.symm.trans dParent, active dActive, by rw [key, vtime]⟩
    · exact ⟨d, atD', dParent, dActive, key⟩
  intro p pc atP e linked
  rcases (setClass_iff atI).mp atP with ⟨rfl, rfl⟩ | ⟨_, atP'⟩
  · rw [vmin]
    exact floor p c atI e (old linked)
  · exact floor p pc atP' e (old linked)

/-- A class may move under its parent as long as it does not fall behind. -/
theorem Floor.setPair {i : Nat} {c c' pc pc' : Class} (floor : Floor h) (ne : i ≠ c.parent)
    (atI : h.classes[i]? = some c) (atP : h.classes[c.parent]? = some pc)
    (child : c'.parent = c.parent ∧ c'.vmin = c.vmin ∧ (0 < c'.nactive → pc'.vmin ≤ c'.vtime))
    (parent : pc'.parent = pc.parent ∧ pc'.nactive = pc.nactive ∧ pc'.vtime = pc.vtime ∧ pc'.vmin ≤ pc.vmin) :
    Floor ((h.setClass i c').setClass c.parent pc') := by
  have lookup {j : Nat} {d : Class} := setPair_iff (j := j) (d := d) c' pc' ne atI atP
  -- the link of any class but `i` was there before
  have old {q : Nat} {e : Key × Nat} (notI : e.2 ≠ i)
      (linked : Linked ((h.setClass i c').setClass c.parent pc') q e) :
      Linked h q e := by
    obtain ⟨d, atD, dParent, dActive, key⟩ := linked
    rcases lookup.mp atD with ⟨same, rfl⟩ | ⟨same, _⟩ | ⟨_, _, atD'⟩
    · exact ⟨pc, by rw [same]; exact atP,
        parent.1.symm.trans dParent, parent.2.1 ▸ dActive, by rw [key, parent.2.2.1]⟩
    · exact absurd same notI
    · exact ⟨d, atD', dParent, dActive, key⟩
  intro q qc atQ e linked
  by_cases isI : e.2 = i
  · obtain ⟨d, atD, dParent, dActive, key⟩ := linked
    rcases lookup.mp atD with ⟨same, _⟩ | ⟨_, rfl⟩ | ⟨_, notI, _⟩
    · exact absurd (isI.symm.trans same) ne
    · rw [key]
      rw [child.1] at dParent
      rcases lookup.mp atQ with ⟨_, rfl⟩ | ⟨same, _⟩ | ⟨notP, _, _⟩
      · exact child.2.2 dActive
      · omega
      · exact absurd dParent.symm notP
    · exact absurd isI notI
  · have before := old isI linked
    rcases lookup.mp atQ with ⟨rfl, rfl⟩ | ⟨rfl, rfl⟩ | ⟨_, _, atQ'⟩
    · exact parent.2.2.2.trans (floor _ pc atP e before)
    · rw [child.2.1]
      exact floor q c atI e before
    · exact floor q qc atQ' e before

theorem Floor.put {i n : Nat} {c c' : Class} {el : KeyMap} (floor : Floor h) (atI : h.classes[i]? = some c)
    (keeps : c'.parent = c.parent ∧ c'.vtime = c.vtime ∧ (0 < c'.nactive → 0 < c.nactive) ∧ c'.vmin = c.vmin) :
    Floor (h.put i c' el n) :=
  (floor.setOne atI keeps).of_classes rfl

theorem Floor.updateStep {g g' : Hfsc} {i len : Nat} {c : Class} {passive : Bool} {next : Option (Nat × Bool)}
    (tree : Tree g) (floor : Floor g) (atI : g.classes[i]? = some c) (step : UpdateStep g i c len passive g' next) :
    Floor g' := by
  cases step with
  | top => exact floor
  | idle below atP =>
    obtain ⟨_, _, _, less⟩ := tree.parent_exists atI below
    refine floor.setPair (by omega) atI atP ⟨rfl, rfl, fun active => ?_⟩ ⟨rfl, rfl, rfl, le_rfl⟩
    exact absurd active (Nat.lt_irrefl 0)
  | keep below atP _ _ run =>
    obtain ⟨_, _, _, less⟩ := tree.parent_exists atI below
    obtain ⟨x, _, _, rfl⟩ := advanceVtime_ok run
    refine floor.setPair (by omega) atI atP ⟨rfl, rfl, fun _ => ?_⟩ ⟨rfl, rfl, rfl, le_rfl⟩
    exact le_max_right _ _

theorem updateV_floor {len fuel k : Nat} {passive : Bool} {g : Hfsc} (charging : Charging h own k passive)
    (floor : Floor h) (enough : k < fuel) (run : updateV len fuel h k passive = .ok g) : Floor g :=
  ((updateV_rule (fun g _ _ => Floor g) Floor
    (fun _ _ _ _ _ _ _ charging atI floor step => floor.updateStep charging.tree atI step)
    (fun _ _ _ _ _ _ _ _ floor => floor) charging floor enough).ok run).2.2

theorem meanVtime_ge {pvmin maxVtime vt : Nat} (le : pvmin ≤ maxVtime) (mean : meanVtime pvmin maxVtime = .ok vt) :
    pvmin ≤ vt := by
  unfold meanVtime at mean
  split at mean
  · cases Except.ok.inj mean
    exact le
  · obtain ⟨sum, atSum, mean⟩ := Except.bind_ok_iff.mp mean
    obtain ⟨_, rfl⟩ := add64_ok.mp atSum
    cases Except.ok.inj mean
    omega

theorem entryVtime_ge (c p : Class) (vt : Nat) : vt ≤ entryVtime c p vt := by
  unfold entryVtime
  split
  · exact le_rfl
  · omega

/-- A class joins at or ahead of its parent's `vmin`. -/
theorem Floor.join_ge {p c : Class} {q m vt : Nat} {key : Key} {last : Class} {off : Nat → Int} (floor : Floor h)
    (wired : Wired h own off) (pos : 1 ≤ q) (atQ : h.classes[q]? = some p) (atLast : p.children.last? = some (key, m))
    (atM : h.classes[m]? = some last) (mean : meanVtime p.vmin last.vtime = .ok vt) : p.vmin ≤ entryVtime c p vt := by
  have linked := (wired.listed q p atQ pos _).mp (SortedMap.last?_mem atLast)
  have above := floor q p atQ _ linked
  obtain ⟨d, atD, _, _, keyEq⟩ := linked
  dsimp only at atD keyEq above
  rw [atM] at atD
  cases atD
  rw [keyEq] at above
  exact (meanVtime_ge above mean).trans (entryVtime_ge c p vt)

theorem Floor.initStep {g g' : Hfsc} {i : Nat} {c : Class} {next : Option Nat} (entering : Entering g own i)
    (floor : Floor g) (atI : g.classes[i]? = some c) (step : InitStep g i c g' next) : Floor g' := by
  cases step with
  | top => exact floor
  | busy _ active => exact floor.setOne atI ⟨rfl, rfl, fun _ => active, rfl⟩
  | @join p key m last vt c' below atP passive atLast atM mean run =>
    obtain ⟨_, _, _, less⟩ := entering.tree.parent_exists atI below
    obtain ⟨same, _, _, vtime, _, vmin, _⟩ := startCurveAt_keeps run
    refine floor.setPair (by omega) atI atP ⟨Class.parent_of_fixed same, vmin, fun _ => ?_⟩ ⟨rfl, rfl, rfl, le_rfl⟩
    change p.vmin ≤ c'.vtime
    rw [vtime]
    exact floor.join_ge entering.wired (Nat.pos_of_ne_zero below) atP atLast atM mean
  | @first p c' below atP passive empty run =>
    obtain ⟨_, _, _, less⟩ := entering.tree.parent_exists atI below
    obtain ⟨same, _, _, _, _, vmin, _⟩ := startCurveAt_keeps run
    exact floor.setPair (by omega) atI atP ⟨Class.parent_of_fixed same, vmin, fun _ => Nat.zero_le _⟩
      ⟨rfl, rfl, rfl, Nat.zero_le _⟩

theorem initV_floor {fuel k : Nat} {g : Hfsc} (entering : Entering h own k) (floor : Floor h) (enough : k < fuel)
    (run : initV fuel h k true = .ok g) : Floor g :=
  ((initV_rule (fun g _ => Floor g) Floor
    (fun _ _ _ _ _ entering atI floor step => floor.initStep entering atI step)
    (fun _ _ _ _ entering atI floor step => floor.initStep entering atI step) entering floor enough).ok run).2.2

theorem Sound.getMinV_floor (sound : Sound h) (floor : Floor h) {r : Nat} {g : Hfsc}
    (run : getMinV h.walkFuel h h.root = .ok (r, g)) : Floor g := by
  obtain ⟨root, atRoot, _⟩ := sound.tree.top
  rw [← sound.tree.root] at atRoot
  have raise (g : Hfsc) (p : Nat) (pc : Class) (j : Nat) (d : Class) (_ : Tree g)
      (_ : Wired g (backlog h) (fun _ => 0)) (floor : Floor g) (atP : g.classes[p]? = some pc) (_ : OnPath g p)
      (atJ : g.classes[j]? = some d) (least : LeastChild g p j) :
      Floor (g.setClass p (pc.withVmin (max pc.vmin d.vtime))) := by
    intro q qc atQ e linked
    have old := (Linked.setClass_iff (pc.withVmin (max pc.vmin d.vtime)) atP ⟨rfl, rfl, rfl⟩).mp linked
    rcases (setClass_iff atP).mp atQ with ⟨rfl, rfl⟩ | ⟨_, atQ'⟩
    · exact max_le (floor q pc atP e old) (least.vtime_le atJ old)
    · exact floor q qc atQ' e old
  obtain ⟨_, _, _, q, floor', _⟩ := (getMinV_rule (fun g _ => Floor g) raise sound.tree sound.wired floor
    atRoot (by rw [sound.tree.root]) .root (by simp only [walkFuel]; omega)).ok run
  exact floor'

theorem Floor.append {names : AList (fun _ : String => Nat)} {c : Class} (floor : Floor h) (passive : c.nactive = 0)
    (low : c.vmin = 0) : Floor { h with classes := h.classes ++ [c], classNames := names } := by
  intro p pc atP e linked
  have old : Linked h p e := by
    obtain ⟨d, atD, parent, active, key⟩ := linked
    rcases append_iff.mp atD with atD' | ⟨_, rfl⟩
    · exact ⟨d, atD', parent, active, key⟩
    · omega
  rcases append_iff.mp atP with atP' | ⟨_, rfl⟩
  · exact floor p pc atP' e old
  · rw [low]
    exact Nat.zero_le _

theorem Stepped.floor {op : HfscOp} {event : HfscEvent} {h' : Hfsc} (sound : Sound h) (floor : Floor h)
    (step : Stepped h op event h') : Floor h' := by
  cases step with
  | create step =>
    cases step with
    | refused => exact floor
    | created _ _ _ _ made =>
      obtain ⟨_, _, _, _, _, _, _, rfl⟩ := Class.new_ok made
      exact floor.append rfl rfl
  | spare => exact floor
  | enqueue step =>
    cases step with
    | refused => exact floor
    | dropped atI => exact floor.setOne atI ⟨rfl, rfl, id, rfl⟩
    | more atI => exact floor.put atI ⟨rfl, rfl, id, rfl⟩
    | @first c g d d' atI _ empty run atD initialised =>
      obtain ⟨bound, _⟩ := List.getElem?_eq_some_iff.mp atI
      have floor' := initV_floor (sound.entering atI empty) floor (by simp only [walkFuel]; omega) run
      obtain ⟨_, _, _, _, rfl⟩ := initEd_keeps initialised
      exact floor'.put atD ⟨rfl, rfl, id, rfl⟩
  | @dequeue now served h' step =>
    cases served with
    | none =>
      cases step with
      | idle _ atV => exact sound.getMinV_floor floor atV
    | some pair =>
      obtain ⟨i, pkt⟩ := pair
      obtain ⟨g, g', c, d, rest, el, serving⟩ := step.serving sound
      have floorG : Floor g := by
        rcases serving.before with ⟨rfl, _⟩ | ⟨atV, _⟩
        · exact floor
        · exact sound.getMinV_floor floor atV
      have keeps : d.parent = c.parent ∧ d.vtime = c.vtime ∧ (0 < d.nactive → 0 < c.nactive) ∧ d.vmin = c.vmin :=
        ⟨serving.place.parent, serving.held.vtime, fun active => serving.place.nactive ▸ active,
          serving.vmin⟩
      have popped : Floor (g.put i d el g.pktsQueued) := floorG.put serving.atI keeps
      obtain ⟨charging, enough⟩ := serving.charging
      rw [serving.result]
      exact (updateV_floor charging popped enough serving.run).of_classes rfl

theorem Floor.new {bandwidth : Nat} (made : Hfsc.new bandwidth = .ok h) : Floor h := by
  unfold Hfsc.new at made
  obtain ⟨c, run, made⟩ := Except.bind_ok_iff.mp made
  cases Except.ok.inj made
  obtain ⟨_, _, _, _, _, _, _, rfl⟩ := Class.new_ok run
  intro p pc atP e _
  match p with
  | 0 => cases atP; exact Nat.zero_le _
  | 1 => cases atP; exact Nat.zero_le _
  | _ + 2 => cases atP

end R2.Hfsc
