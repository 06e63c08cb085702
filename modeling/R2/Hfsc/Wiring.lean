import R2.Hfsc.Scheduler
import Mathlib.Tactic.Linarith

namespace R2

/-- A class with everything the two parent walks may change cleared. -/
@[simps] def Class.fixed (c : Class) : Class :=
  { c with
    vtime := 0, vmin := 0, vmax := 0, voff := 0, vadj := 0, vperiod := 0, pvperiod := 0, fBytes := 0,
    fRun := .zero, nactive := 0, children := ∅ }

theorem Class.parent_of_fixed {c c' : Class} (same : c'.fixed = c.fixed) : c'.parent = c.parent := by
  simpa using congrArg Class.parent same

theorem Class.packets_of_fixed {c c' : Class} (same : c'.fixed = c.fixed) : c'.packets = c.packets := by
  simpa using congrArg Class.packets same

theorem Class.rIsc_of_fixed {c c' : Class} (same : c'.fixed = c.fixed) : c'.rIsc = c.rIsc := by
  simpa using congrArg Class.rIsc same

theorem Class.eligible_of_fixed {c c' : Class} (same : c'.fixed = c.fixed) : c'.eligible = c.eligible := by
  simpa using congrArg Class.eligible same

theorem Class.leaf_of_fixed {c c' : Class} (same : c'.fixed = c.fixed) : c'.leaf = c.leaf := by
  simpa using congrArg Class.leaf same

namespace Hfsc

def fixed (h : Hfsc) : Hfsc := { h with classes := h.classes.map Class.fixed }

theorem setClass_self {h : Hfsc} {i : Nat} {c c' : Class} (atI : h.classes[i]? = some c) :
    (h.setClass i c').classes[i]? = some c' := by
  obtain ⟨bound, _⟩ := List.getElem?_eq_some_iff.mp atI
  simp only [setClass, List.getElem?_set, if_true, bound]

theorem setClass_other {h : Hfsc} {i j : Nat} {c' : Class} (ne : i ≠ j) :
    (h.setClass i c').classes[j]? = h.classes[j]? := by
  simp only [setClass, List.getElem?_set, ne, if_false]

theorem setClass_iff {h : Hfsc} {i j : Nat} {c c' d : Class} (atI : h.classes[i]? = some c) :
    (h.setClass i c').classes[j]? = some d ↔ j = i ∧ d = c' ∨ j ≠ i ∧ h.classes[j]? = some d := by
  by_cases same : j = i
  · subst same
    rw [setClass_self atI]
    simp [eq_comm]
  · rw [setClass_other (Ne.symm same)]
    simp [same]

theorem setClass_twice (h : Hfsc) (i : Nat) (c c' : Class) : (h.setClass i c).setClass i c' = h.setClass i c' := by
  simp only [setClass, List.set_set]

theorem setClass_comm (h : Hfsc) {i j : Nat} (c d : Class) (ne : i ≠ j) :
    (h.setClass i c).setClass j d = (h.setClass j d).setClass i c := by
  simp only [setClass]
  rw [List.set_comm _ _ ne]

theorem setClass_setClass_self {h : Hfsc} {i : Nat} {c : Class} (atI : h.classes[i]? = some c) :
    h.setClass i c = h := by
  obtain ⟨bound, value⟩ := List.getElem?_eq_some_iff.mp atI
  simp only [setClass, ← value, List.set_getElem_self]

theorem classAt_eq {h : Hfsc} {i : Nat} {c : Class} (atI : h.classes[i]? = some c) : h.classAt i = .ok c := by
  simp only [classAt, atI]

theorem classAt_ok {h : Hfsc} {i : Nat} {c : Class} : h.classAt i = .ok c ↔ h.classes[i]? = some c := by
  unfold classAt
  split <;> simp_all

theorem setClass_fixed {h : Hfsc} {i : Nat} {c c' : Class} (atI : h.classes[i]? = some c)
    (same : c'.fixed = c.fixed) : (h.setClass i c').fixed = h.fixed := by
  obtain ⟨bound, value⟩ := List.getElem?_eq_some_iff.mp atI
  simp only [fixed, setClass, List.map_set, same, ← value]
  congr 1
  have within : i < (h.classes.map Class.fixed).length := by simpa using bound
  have slot : (h.classes.map Class.fixed)[i] = h.classes[i].fixed := by simp
  rw [← slot, List.set_getElem_self]

theorem setPair_fixed {h : Hfsc} {i p : Nat} {c c' pc pc' : Class} (ne : i ≠ p) (atI : h.classes[i]? = some c)
    (atP : h.classes[p]? = some pc) (same : c'.fixed = c.fixed) (sameP : pc'.fixed = pc.fixed) :
    ((h.setClass i c').setClass p pc').fixed = h.fixed := by
  have first : (h.setClass i c').fixed = h.fixed := setClass_fixed atI same
  rw [← first]
  exact setClass_fixed ((setClass_other ne).trans atP) sameP

/-- The class a walk leaves behind an index differs from the old one only in
what walks may change. -/
theorem lookup_of_fixed {h h' : Hfsc} {i : Nat} {c' : Class} (same : h'.fixed = h.fixed)
    (atI : h'.classes[i]? = some c') : ∃ c, h.classes[i]? = some c ∧ c'.fixed = c.fixed := by
  have lists : h'.classes.map Class.fixed = h.classes.map Class.fixed := congrArg Hfsc.classes same
  have entry : (h.classes.map Class.fixed)[i]? = some c'.fixed := by
    rw [← lists, List.getElem?_map, atI]
    rfl
  rw [List.getElem?_map] at entry
  obtain ⟨c, atC, value⟩ := Option.map_eq_some_iff.mp entry
  exact ⟨c, atC, value.symm⟩

theorem fixed_at {h h' : Hfsc} {i : Nat} {c c' : Class} (same : h'.fixed = h.fixed) (atI : h.classes[i]? = some c)
    (atI' : h'.classes[i]? = some c') : c'.fixed = c.fixed := by
  obtain ⟨d, atD, eq⟩ := lookup_of_fixed same atI'
  rw [atI] at atD
  cases atD
  exact eq

theorem length_of_fixed {h h' : Hfsc} (same : h'.fixed = h.fixed) : h'.classes.length = h.classes.length := by
  have lists : h'.classes.map Class.fixed = h.classes.map Class.fixed := congrArg Hfsc.classes same
  simpa using congrArg List.length lists

/-- The parent links: the class at 0 is the dummy, the class at 1 is the root,
and every later class was created under an earlier one. -/
structure Tree (h : Hfsc) : Prop where
  root : h.root = 1
  free : h.freeIndex = []
  dummy : ∃ d, h.classes[0]? = some d ∧ d.parent = 0 ∧ d.inUse = false ∧ d.packets = [] ∧ d.rIsc = none
  top : ∃ r, h.classes[1]? = some r ∧ r.parent = 0 ∧ r.rIsc = none ∧ r.leaf = false
  index : ∀ i c, h.classes[i]? = some c → 1 ≤ i → c.index = i ∧ c.inUse = true
  parent : ∀ i c, h.classes[i]? = some c → 2 ≤ i → 1 ≤ c.parent ∧ c.parent < i

theorem Tree.of_fixed {h h' : Hfsc} (tree : Tree h) (same : h'.fixed = h.fixed) : Tree h' := by
  have back {i : Nat} {c' : Class} (atI : h'.classes[i]? = some c') := lookup_of_fixed same atI
  have forth {i : Nat} {c : Class} (atI : h.classes[i]? = some c) := lookup_of_fixed same.symm atI
  refine ⟨?_, ?_, ?_, ?_, ?_, ?_⟩
  · exact (congrArg Hfsc.root same).trans tree.root
  · exact (congrArg Hfsc.freeIndex same).trans tree.free
  · obtain ⟨d, atD, parent, inUse, packets, curve⟩ := tree.dummy
    obtain ⟨d', atD', eq⟩ := forth atD
    exact ⟨d', atD', (congrArg Class.parent eq).symm.trans parent, (congrArg Class.inUse eq).symm.trans inUse,
      (congrArg Class.packets eq).symm.trans packets, (congrArg Class.rIsc eq).symm.trans curve⟩
  · obtain ⟨r, atR, parent, curve, leaf⟩ := tree.top
    obtain ⟨r', atR', eq⟩ := forth atR
    exact ⟨r', atR', (congrArg Class.parent eq).symm.trans parent, (congrArg Class.rIsc eq).symm.trans curve,
      (congrArg Class.leaf eq).symm.trans leaf⟩
  · intro i c' atI pos
    obtain ⟨c, atC, eq⟩ := back atI
    have old := tree.index i c atC pos
    exact ⟨(congrArg Class.index eq).trans old.1, (congrArg Class.inUse eq).trans old.2⟩
  · intro i c' atI two
    obtain ⟨c, atC, eq⟩ := back atI
    have old := tree.parent i c atC two
    rwa [Class.parent_of_fixed eq]

theorem Tree.two_le {h : Hfsc} (tree : Tree h) {i : Nat} {c : Class} (atI : h.classes[i]? = some c)
    (below : c.parent ≠ 0) : 2 ≤ i := by
  by_contra small
  have cases : i = 0 ∨ i = 1 := by omega
  rcases cases with rfl | rfl
  · obtain ⟨d, atD, zero, _⟩ := tree.dummy
    rw [atD] at atI
    cases atI
    exact below zero
  · obtain ⟨r, atR, zero, _⟩ := tree.top
    rw [atR] at atI
    cases atI
    exact below zero

theorem Tree.parent_exists {h : Hfsc} (tree : Tree h) {i : Nat} {c : Class} (atI : h.classes[i]? = some c)
    (below : c.parent ≠ 0) : ∃ p, h.classes[c.parent]? = some p ∧ p.index = c.parent ∧ c.parent < i := by
  have bounds := tree.parent i c atI (tree.two_le atI below)
  obtain ⟨inside, _⟩ := List.getElem?_eq_some_iff.mp atI
  have atP : h.classes[c.parent]? = some (h.classes.get ⟨c.parent, by omega⟩) := List.getElem?_eq_getElem (by omega)
  exact ⟨_, atP, (tree.index _ _ atP bounds.1).1, bounds.2⟩

theorem Tree.setClass {h : Hfsc} (tree : Tree h) {i : Nat} {c c' : Class} (atI : h.classes[i]? = some c) (pos : 1 ≤ i)
    (keeps : c'.parent = c.parent ∧ c'.index = c.index ∧ c'.inUse = c.inUse ∧ c'.rIsc = c.rIsc ∧ c'.leaf = c.leaf) :
    Tree (h.setClass i c') := by
  obtain ⟨parent, index, inUse, curve, leaf⟩ := keeps
  have lookup {j : Nat} {d : Class} (atJ : (h.setClass i c').classes[j]? = some d) :=
    (setClass_iff atI).mp atJ
  refine ⟨tree.root, tree.free, ?_, ?_, fun j d atJ large => ?_, fun j d atJ large => ?_⟩
  · obtain ⟨d, atD, rest⟩ := tree.dummy
    exact ⟨d, (setClass_other (by omega)).trans atD, rest⟩
  · obtain ⟨r, atR, noParent, noCurve, notLeaf⟩ := tree.top
    by_cases same : i = 1
    · subst same
      rw [atI] at atR
      cases atR
      exact ⟨c', setClass_self atI, parent.trans noParent, curve.trans noCurve, leaf.trans notLeaf⟩
    · exact ⟨r, (setClass_other same).trans atR, noParent, noCurve, notLeaf⟩
  · rcases lookup atJ with ⟨rfl, rfl⟩ | ⟨_, old⟩
    · rw [index, inUse]
      exact tree.index j c atI large
    · exact tree.index j d old large
  · rcases lookup atJ with ⟨rfl, rfl⟩ | ⟨_, old⟩
    · rw [parent]
      exact tree.parent j c atI large
    · exact tree.parent j d old large

/-- Neither the parent links nor the children maps look beyond the classes. -/
theorem Tree.of_classes {h h' : Hfsc} (tree : Tree h) (root : h'.root = h.root) (free : h'.freeIndex = h.freeIndex)
    (classes : h'.classes = h.classes) : Tree h' := by
  obtain ⟨atRoot, noFree, dummy, top, index, parent⟩ := tree
  refine ⟨root.trans atRoot, free.trans noFree, ?_, ?_, ?_, ?_⟩
  · rw [classes]; exact dummy
  · rw [classes]; exact top
  · rw [classes]; exact index
  · rw [classes]; exact parent

/-- `e` is the entry of a class that is active under `p`. -/
def Linked (h : Hfsc) (p : Nat) (e : Key × Nat) : Prop :=
  ∃ c, h.classes[e.2]? = some c ∧ c.parent = p ∧ 0 < c.nactive ∧ e.1 = ⟨c.vtime, e.2⟩

/-- Every children map lists exactly the active children under their current
virtual times, and every class counts its active children and, by `own`, its
own backlog. In the middle of a walk the count of class `i` is `off i` away
from that. -/
structure Wired (h : Hfsc) (own : Nat → Nat) (off : Nat → Int) : Prop where
  counted : ∀ i c, h.classes[i]? = some c → 2 ≤ i → (c.nactive : Int) = c.children.entries.length + own i + off i
  listed : ∀ p pc, h.classes[p]? = some pc → 1 ≤ p → ∀ e, e ∈ pc.children.entries ↔ Linked h p e

theorem Wired.of_classes {h h' : Hfsc} {own : Nat → Nat} {off : Nat → Int} (wired : Wired h own off)
    (classes : h'.classes = h.classes) : Wired h' own off := by
  have linked (p : Nat) (e : Key × Nat) : Linked h' p e ↔ Linked h p e := by
    unfold Linked
    rw [classes]
  refine ⟨?_, fun p pc atP pos e => ?_⟩
  · rw [classes]
    exact wired.counted
  · rw [linked]
    rw [classes] at atP
    exact wired.listed p pc atP pos e

theorem Wired.congr {h : Hfsc} {own own' : Nat → Nat} {off off' : Nat → Int} (wired : Wired h own off)
    (same : ∀ i c, h.classes[i]? = some c → 2 ≤ i → own i + off i = own' i + off' i) : Wired h own' off' := by
  refine ⟨fun i c atI two => ?_, wired.listed⟩
  have count := wired.counted i c atI two
  have eq := same i c atI two
  omega

/-- A class may change where no index looks, as long as its count is kept in
step with its own backlog. -/
theorem Wired.setOne {h : Hfsc} {own own' : Nat → Nat} {off off' : Nat → Int} {i : Nat} {c c' : Class}
    (wired : Wired h own off) (atI : h.classes[i]? = some c)
    (keeps : c'.parent = c.parent ∧ c'.children = c.children ∧ c'.vtime = c.vtime ∧ (0 < c'.nactive ↔ 0 < c.nactive))
    (count : 2 ≤ i → (c'.nactive : Int) = c.children.entries.length + own' i + off' i)
    (away : ∀ j, j ≠ i → own' j + off' j = own j + off j) : Wired (h.setClass i c') own' off' := by
  obtain ⟨parent, children, vtime, active⟩ := keeps
  have link {q : Nat} {e : Key × Nat} : Linked (h.setClass i c') q e ↔ Linked h q e := by
    constructor
    · rintro ⟨d, atD, dParent, dActive, key⟩
      rcases (setClass_iff atI).mp atD with ⟨same, rfl⟩ | ⟨_, old⟩
      · exact ⟨c, by rw [same]; exact atI, parent.symm.trans dParent, active.mp dActive, by rw [key, vtime]⟩
      · exact ⟨d, old, dParent, dActive, key⟩
    · rintro ⟨d, atD, dParent, dActive, key⟩
      by_cases same : e.2 = i
      · rw [same, atI] at atD
        cases atD
        exact ⟨c', by rw [same]; exact setClass_self atI, parent.trans dParent, active.mpr dActive,
          by rw [key, vtime]⟩
      · exact ⟨d, (setClass_other (Ne.symm same)).trans atD, dParent, dActive, key⟩
  refine ⟨fun j d atD two => ?_, fun q qc atQ pos e => ?_⟩
  · rcases (setClass_iff atI).mp atD with ⟨rfl, rfl⟩ | ⟨notI, old⟩
    · rw [children]
      exact count two
    · have old := wired.counted j d old two
      have := away j notI
      omega
  · rw [link]
    rcases (setClass_iff atI).mp atQ with ⟨rfl, rfl⟩ | ⟨_, old⟩
    · rw [children]
      exact wired.listed q c atI pos e
    · exact wired.listed q qc old pos e

theorem setPair_iff {h : Hfsc} {i p j : Nat} {c pc d : Class} (c' pc' : Class) (ne : i ≠ p)
    (atI : h.classes[i]? = some c) (atP : h.classes[p]? = some pc) :
    ((h.setClass i c').setClass p pc').classes[j]? = some d ↔
      j = p ∧ d = pc' ∨ j = i ∧ d = c' ∨ j ≠ p ∧ j ≠ i ∧ h.classes[j]? = some d := by
  have atP' : (h.setClass i c').classes[p]? = some pc := (setClass_other ne).trans atP
  rw [setClass_iff atP', setClass_iff atI]
  constructor
  · rintro (left | ⟨notP, mid | ⟨notI, old⟩⟩)
    · exact Or.inl left
    · exact Or.inr (Or.inl mid)
    · exact Or.inr (Or.inr ⟨notP, notI, old⟩)
  · rintro (left | ⟨rfl, rfl⟩ | ⟨notP, notI, old⟩)
    · exact Or.inl left
    · exact Or.inr ⟨ne, Or.inl ⟨rfl, rfl⟩⟩
    · exact Or.inr ⟨notP, Or.inr ⟨notI, old⟩⟩

/-- The only way walks rewire: class `i` and its parent are replaced together,
and only the entry of `i` in the parent's children map changes. -/
theorem Wired.setPair {h : Hfsc} {own : Nat → Nat} {off off' : Nat → Int} {i : Nat} {c c' pc pc' : Class}
    (tree : Tree h) (wired : Wired h own off) (atI : h.classes[i]? = some c) (below : c.parent ≠ 0)
    (atP : h.classes[c.parent]? = some pc)
    (childKeeps : c'.parent = c.parent ∧ c'.children = c.children)
    (parentKeeps : pc'.parent = pc.parent ∧ pc'.nactive = pc.nactive ∧ pc'.vtime = pc.vtime)
    (others : ∀ e, e.2 ≠ i → (e ∈ pc'.children.entries ↔ e ∈ pc.children.entries))
    (mine : ∀ e, e.2 = i → (e ∈ pc'.children.entries ↔ 0 < c'.nactive ∧ e.1 = ⟨c'.vtime, i⟩))
    (countChild : (c'.nactive : Int) = c.children.entries.length + own i + off' i)
    (countParent : 2 ≤ c.parent → (pc.nactive : Int) = pc'.children.entries.length + own c.parent + off' c.parent)
    (away : ∀ j, j ≠ i → j ≠ c.parent → off' j = off j) :
    Wired ((h.setClass i c').setClass c.parent pc') own off' := by
  obtain ⟨_, _, _, less⟩ := tree.parent_exists atI below
  have ne : i ≠ c.parent := by omega
  have lookup {j : Nat} {d : Class} := setPair_iff (j := j) (d := d) c' pc' ne atI atP
  -- a class keeps its link unless it is `i`
  have linkAway {q : Nat} {e : Key × Nat} (notI : e.2 ≠ i) :
      Linked ((h.setClass i c').setClass c.parent pc') q e ↔ Linked h q e := by
    constructor
    · rintro ⟨d, atD, dParent, dActive, key⟩
      rcases lookup.mp atD with ⟨same, rfl⟩ | ⟨same, _⟩ | ⟨_, _, old⟩
      · rw [parentKeeps.1] at dParent
        rw [parentKeeps.2.1] at dActive
        rw [parentKeeps.2.2] at key
        exact ⟨pc, by rw [same]; exact atP, dParent, dActive, key⟩
      · exact absurd same notI
      · exact ⟨d, old, dParent, dActive, key⟩
    · rintro ⟨d, atD, dParent, dActive, key⟩
      by_cases same : e.2 = c.parent
      · rw [same, atP] at atD
        cases atD
        refine ⟨pc', lookup.mpr (Or.inl ⟨same, rfl⟩), parentKeeps.1.trans dParent, ?_, ?_⟩
        · rw [parentKeeps.2.1]; exact dActive
        · rw [parentKeeps.2.2]; exact key
      · exact ⟨d, lookup.mpr (Or.inr (Or.inr ⟨same, notI, atD⟩)), dParent, dActive, key⟩
  have linkMine {q : Nat} {e : Key × Nat} (isI : e.2 = i) :
      Linked ((h.setClass i c').setClass c.parent pc') q e ↔
        c.parent = q ∧ 0 < c'.nactive ∧ e.1 = ⟨c'.vtime, i⟩ := by
    constructor
    · rintro ⟨d, atD, dParent, dActive, key⟩
      rcases lookup.mp atD with ⟨same, _⟩ | ⟨_, rfl⟩ | ⟨_, notI, _⟩
      · exact absurd (isI.symm.trans same) ne
      · exact ⟨childKeeps.1.symm.trans dParent, dActive, by rw [key, isI]⟩
      · exact absurd isI notI
    · rintro ⟨dParent, dActive, key⟩
      exact ⟨c', lookup.mpr (Or.inr (Or.inl ⟨isI, rfl⟩)), childKeeps.1.trans dParent, dActive, by rw [key, isI]⟩
  refine ⟨fun j d atD two => ?_, fun q qc atQ pos e => ?_⟩
  · rcases lookup.mp atD with ⟨rfl, rfl⟩ | ⟨rfl, rfl⟩ | ⟨notP, notI, old⟩
    · rw [parentKeeps.2.1]
      exact countParent two
    · rw [childKeeps.2]
      exact countChild
    · rw [away j notI notP]
      exact wired.counted j d old two
  · by_cases isI : e.2 = i
    · rw [linkMine isI]
      rcases lookup.mp atQ with ⟨rfl, rfl⟩ | ⟨rfl, rfl⟩ | ⟨notP, notI, old⟩
      · rw [mine e isI]
        simp
      · rw [childKeeps.2, wired.listed _ c atI pos e]
        constructor
        · rintro ⟨d, atD, dParent, _⟩
          rw [isI, atI] at atD
          cases atD
          omega
        · rintro ⟨same, _⟩
          omega
      · rw [wired.listed q qc old pos e]
        constructor
        · rintro ⟨d, atD, dParent, _⟩
          rw [isI, atI] at atD
          cases atD
          exact absurd dParent.symm notP
        · rintro ⟨same, _⟩
          exact absurd same.symm notP
    · rw [linkAway isI]
      rcases lookup.mp atQ with ⟨rfl, rfl⟩ | ⟨rfl, rfl⟩ | ⟨notP, notI, old⟩
      · rw [others e isI]
        exact wired.listed _ pc atP pos e
      · rw [childKeeps.2]
        exact wired.listed _ c atI pos e
      · exact wired.listed q qc old pos e

/-- The key of an active class is in its parent's children map, and no other
key with its index is. -/
theorem Wired.own_entry {h : Hfsc} {own : Nat → Nat} {off : Nat → Int} (tree : Tree h) (wired : Wired h own off)
    {i : Nat} {c pc : Class} (atI : h.classes[i]? = some c) (below : c.parent ≠ 0)
    (atP : h.classes[c.parent]? = some pc) (active : 0 < c.nactive) : (c.vtimeKey, i) ∈ pc.children.entries := by
  rw [wired.listed c.parent pc atP (by omega)]
  refine ⟨c, atI, rfl, active, ?_⟩
  simp only [Class.vtimeKey, (tree.index i c atI (by have := tree.two_le atI below; omega)).1]

theorem Wired.entry_class {h : Hfsc} {own : Nat → Nat} {off : Nat → Int} (wired : Wired h own off) {p : Nat}
    {pc : Class}
    (atP : h.classes[p]? = some pc) (pos : 1 ≤ p) {e : Key × Nat} (member : e ∈ pc.children.entries) :
    ∃ c, h.classes[e.2]? = some c ∧ c.parent = p ∧ 0 < c.nactive ∧ e.1 = ⟨c.vtime, e.2⟩ :=
  (wired.listed p pc atP pos e).mp member

end Hfsc

theorem Key.cmp_noPanic {k other : Key} (compatible : other.index = k.index → other.time = k.time) :
    ∃ o, k.cmp other = .ok o := by
  unfold Key.cmp
  split
  · rename_i same
    rw [if_pos (compatible same.symm).symm]
    exact ⟨_, rfl⟩
  · split
    · exact ⟨_, rfl⟩
    · split
      · exact ⟨_, rfl⟩
      · split <;> exact ⟨_, rfl⟩

theorem KeyMap.search_ok {m : KeyMap} {k : Key} 
    (compatible : ∀ e ∈ m.entries, e.1.index = k.index → e.1.time = k.time) :
    m.search k = .ok () := by
  have each (l : List (Key × Nat)) (inside : ∀ e ∈ l, e ∈ m.entries) :
      (l.forM fun e => do let _ ← k.cmp e.1; (.ok () : Outcome Unit)) = .ok () := by
    induction l with
    | nil => rfl
    | cons e rest ih =>
      obtain ⟨o, run⟩ := Key.cmp_noPanic (compatible e (inside e (List.mem_cons_self ..)))
      have later := ih fun e member => inside e (List.mem_cons_of_mem _ member)
      simp only [List.forM, run, Except.ok_bind]
      exact later
  exact each m.entries fun _ member => member

end R2
