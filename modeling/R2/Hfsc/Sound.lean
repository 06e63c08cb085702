import Mathlib.Algebra.BigOperators.Group.List.Basic
import R2.Hfsc.Deadline

namespace R2.Hfsc

/-- Whether a class has a backlog of its own. -/
def backlog (h : Hfsc) (i : Nat) : Nat :=
  match h.classes[i]? with
  | some c => if c.packets.isEmpty then 0 else 1
  | none => 0

/-- The number of packets in all queues. -/
def queued (h : Hfsc) : Nat := (h.classes.map fun c => c.packets.length).sum

/-- A sum over all classes. -/
def total (f : Class → Nat) (h : Hfsc) : Nat := (h.classes.map f).sum

/-- The bookkeeping of the scheduler agrees with its queues. -/
structure Sound (h : Hfsc) : Prop where
  tree : Tree h
  wired : Wired h (backlog h) (fun _ => 0)
  indexed : Indexed h
  counted : h.pktsQueued = queued h

theorem backlog_eq {h : Hfsc} {i : Nat} {c : Class} (atI : h.classes[i]? = some c) :
    backlog h i = if c.packets.isEmpty then 0 else 1 := by
  simp only [backlog, atI]

theorem backlog_of_fixed {h h' : Hfsc} (same : h'.fixed = h.fixed) : backlog h' = backlog h := by
  funext i
  cases atI : h'.classes[i]? with
  | some c' =>
    obtain ⟨c, atC, eq⟩ := lookup_of_fixed same atI
    rw [backlog_eq atI, backlog_eq atC]
    rw [Class.packets_of_fixed eq]
  | none =>
    have none' : h.classes[i]? = none := by
      rw [List.getElem?_eq_none_iff] at atI ⊢
      rw [← length_of_fixed same]
      exact atI
    simp only [backlog, atI, none']

theorem total_of_fixed {f : Class → Nat} {h h' : Hfsc} (reads : ∀ c, f c.fixed = f c) (same : h'.fixed = h.fixed) :
    total f h' = total f h := by
  have lists : h'.classes.map Class.fixed = h.classes.map Class.fixed := congrArg Hfsc.classes same
  have sums := congrArg (fun l : List Class => (l.map f).sum) lists
  simp only [List.map_map] at sums
  have whole : f ∘ Class.fixed = f := funext reads
  rwa [whole] at sums

theorem queued_of_fixed {h h' : Hfsc} (same : h'.fixed = h.fixed) : queued h' = queued h :=
  total_of_fixed (f := fun c => c.packets.length) (fun _ => rfl) same

theorem pktsQueued_of_fixed {h h' : Hfsc} (same : h'.fixed = h.fixed) : h'.pktsQueued = h.pktsQueued := by
  have counts : h'.fixed.pktsQueued = h.fixed.pktsQueued := by rw [same]
  exact counts

theorem Indexed.of_fixed {h h' : Hfsc} (indexed : Indexed h) (same : h'.fixed = h.fixed) : Indexed h' := by
  have eligible : h'.eligible = h.eligible := by
    have maps : h'.fixed.eligible = h.fixed.eligible := by rw [same]
    exact maps
  have same_entries {g g' : Hfsc} (eq : g'.fixed = g.fixed) {e : Key × Nat} (scheduled : Scheduled g' e) :
      Scheduled g e := by
    obtain ⟨c', atC', realtime, packets, key⟩ := scheduled
    obtain ⟨c, atC, same⟩ := lookup_of_fixed eq atC'
    rw [Class.rIsc_of_fixed same] at realtime
    rw [Class.packets_of_fixed same] at packets
    rw [Class.eligible_of_fixed same] at key
    exact ⟨c, atC, realtime, packets, key⟩
  intro e
  rw [eligible, indexed e]
  exact ⟨same_entries same.symm, same_entries same⟩

/-- A walk keeps the bookkeeping sound if it leaves the counts right. -/
theorem Sound.of_fixed {h h' : Hfsc} (sound : Sound h) (same : h'.fixed = h.fixed)
    (wired : Wired h' (backlog h) (fun _ => 0)) : Sound h' := by
  refine ⟨sound.tree.of_fixed same, ?_, sound.indexed.of_fixed same, ?_⟩
  · rw [backlog_of_fixed same]
    exact wired
  · rw [pktsQueued_of_fixed same, queued_of_fixed same]
    exact sound.counted

/-- One class replaced together with the eligible map and the packet count. -/
def put (h : Hfsc) (i : Nat) (c : Class) (eligible : KeyMap) (pktsQueued : Nat) : Hfsc :=
  { h.setClass i c with eligible := eligible, pktsQueued := pktsQueued }

theorem put_classes (h : Hfsc) (i : Nat) (c : Class) (el : KeyMap) (n : Nat) :
    (h.put i c el n).classes = (h.setClass i c).classes := rfl

theorem backlog_put {h : Hfsc} {i j : Nat} {c c' : Class} {el : KeyMap} {n : Nat} (atI : h.classes[i]? = some c) :
    backlog (h.put i c' el n) j = if j = i then (if c'.packets.isEmpty then 0 else 1) else backlog h j := by
  by_cases same : j = i
  · subst same
    rw [if_pos rfl]
    exact backlog_eq (setClass_self atI)
  · rw [if_neg same, backlog, put_classes, setClass_other (Ne.symm same)]
    rfl

theorem total_put {f : Class → Nat} {h : Hfsc} {i : Nat} {c : Class} (c' : Class) (el : KeyMap) (n : Nat)
    (atI : h.classes[i]? = some c) : total f (h.put i c' el n) + f c = total f h + f c' := by
  obtain ⟨bound, value⟩ := List.getElem?_eq_some_iff.mp atI
  have before : h.classes = h.classes.set i c := by rw [← value, List.set_getElem_self]
  have inside : i < (h.classes.map f).length := by simpa using bound
  have after : total f (h.put i c' el n) = ((h.classes.map f).set i (f c')).sum := by
    simp only [total, put_classes, setClass, List.map_set]
  have old : total f h = ((h.classes.map f).set i (f c)).sum := by
    simp only [total]
    conv_lhs => rw [before, List.map_set]
  rw [after, old, List.sum_set, List.sum_set, if_pos inside, if_pos inside]
  omega

theorem queued_put {h : Hfsc} {i : Nat} {c : Class} (c' : Class) (el : KeyMap) (n : Nat)
    (atI : h.classes[i]? = some c) :
    queued (h.put i c' el n) + c.packets.length = queued h + c'.packets.length := total_put c' el n atI

/-- Two records of one class that no index tells apart. -/
structure SamePlace (c' c : Class) : Prop where
  parent : c'.parent = c.parent
  index : c'.index = c.index
  inUse : c'.inUse = c.inUse
  rIsc : c'.rIsc = c.rIsc
  leaf : c'.leaf = c.leaf
  children : c'.children = c.children
  vtime : c'.vtime = c.vtime
  nactive : c'.nactive = c.nactive

theorem SamePlace.tree {h : Hfsc} {i n : Nat} {c c' : Class} {el : KeyMap} (place : SamePlace c' c) (tree : Tree h)
    (atI : h.classes[i]? = some c) (pos : 1 ≤ i) : Tree (h.put i c' el n) :=
  (tree.setClass atI pos ⟨place.parent, place.index, place.inUse, place.rIsc, place.leaf⟩).of_classes rfl rfl rfl

theorem SamePlace.wired {h : Hfsc} {i n : Nat} {c c' : Class} {el : KeyMap} {own own' : Nat → Nat}
    {off off' : Nat → Int}
    (place : SamePlace c' c) (wired : Wired h own off) (atI : h.classes[i]? = some c)
    (count : ∀ j, own' j + off' j = own j + off j) : Wired (h.put i c' el n) own' off' := by
  have one : Wired (h.setClass i c') own' off' := by
    refine wired.setOne atI ⟨place.parent, place.children, place.vtime, by rw [place.nactive]⟩ (fun two => ?_)
      fun j _ => count j
    have old := wired.counted i c atI two
    have same := count i
    rw [place.nactive]
    omega
  exact one.of_classes rfl

/-- The eligible map when class `i` becomes backlogged, and when its queue
runs empty. -/
def enter (m : KeyMap) (c : Class) (i : Nat) : KeyMap := if c.rIsc.isSome then m.insert ⟨c.eligible, i⟩ i else m

def leave (m : KeyMap) (c : Class) (i : Nat) : KeyMap := if c.rIsc.isSome then m.erase ⟨c.eligible, i⟩ else m

variable {h : Hfsc}

theorem Sound.pos_of_inUse (sound : Sound h) {i : Nat} {c : Class} (atI : h.classes[i]? = some c)
    (inUse : c.inUse = true) :
    1 ≤ i := by
  by_contra small
  obtain rfl : i = 0 := by omega
  obtain ⟨d, atD, _, notInUse, _⟩ := sound.tree.dummy
  rw [atI] at atD
  cases atD
  rw [inUse] at notInUse
  cases notInUse

/-- The entries of other classes stay as they are, and the entry of class `i`
is what its new record asks for. -/
theorem Indexed.put (indexed : Indexed h) {i : Nat} {c c' : Class} {el : KeyMap} {n : Nat}
    (atI : h.classes[i]? = some c) (others : ∀ e, e.2 ≠ i → (e ∈ el.entries ↔ e ∈ h.eligible.entries))
    (mine : ∀ e, e.2 = i →
      (e ∈ el.entries ↔ c'.rIsc.isSome ∧ c'.packets ≠ [] ∧ e.1 = ⟨c'.eligible, i⟩)) :
    Indexed (h.put i c' el n) := by
  intro e
  change e ∈ el.entries ↔ _
  by_cases isI : e.2 = i
  · rw [mine e isI]
    constructor
    · rintro ⟨realtime, packets, key⟩
      exact ⟨c', by rw [isI]; exact setClass_self atI, realtime, packets, by rw [key, isI]⟩
    · rintro ⟨d, atD, realtime, packets, key⟩
      rw [isI, put_classes, setClass_self atI] at atD
      cases atD
      exact ⟨realtime, packets, by rw [key, isI]⟩
  · rw [others e isI, indexed e]
    constructor
    · rintro ⟨d, atD, rest⟩
      exact ⟨d, (setClass_other (Ne.symm isI)).trans atD, rest⟩
    · rintro ⟨d, atD, rest⟩
      exact ⟨d, (setClass_other (Ne.symm isI)).symm.trans atD, rest⟩

theorem Indexed.mine (indexed : Indexed h) {i : Nat} {c : Class} (atI : h.classes[i]? = some c) {e : Key × Nat}
    (isI : e.2 = i) : e ∈ h.eligible.entries ↔ c.rIsc.isSome ∧ c.packets ≠ [] ∧ e.1 = ⟨c.eligible, i⟩ := by
  rw [indexed e]
  constructor
  · rintro ⟨d, atD, realtime, packets, key⟩
    rw [isI, atI] at atD
    cases atD
    exact ⟨realtime, packets, by rw [key, isI]⟩
  · rintro ⟨realtime, packets, key⟩
    exact ⟨c, by rw [isI]; exact atI, realtime, packets, by rw [key, isI]⟩

theorem Indexed.entry_index (indexed : Indexed h) {e : Key × Nat} (member : e ∈ h.eligible.entries) :
    e.1.index = e.2 := by
  obtain ⟨c, _, _, _, key⟩ := (indexed e).mp member
  rw [key]

/-- No entry clashes with the key of a class. -/
theorem Indexed.compatible (indexed : Indexed h) {i : Nat} {c : Class} (atI : h.classes[i]? = some c) :
    ∀ e ∈ h.eligible.entries, e.1.index = (⟨c.eligible, i⟩ : Key).index →
    e.1.time = (⟨c.eligible, i⟩ : Key).time := by
  intro e member same
  have isI : e.2 = i := (indexed.entry_index member).symm.trans same
  rw [((indexed.mine atI isI).mp member).2.2]

theorem mem_enter_other {m : KeyMap} {c : Class} {i : Nat} {e : Key × Nat} (notI : e.2 ≠ i)
    (index : e ∈ m.entries → e.1.index = e.2) : e ∈ (enter m c i).entries ↔ e ∈ m.entries := by
  unfold enter
  split
  · rw [SortedMap.mem_insert]
    constructor
    · rintro (rfl | ⟨inside, _⟩)
      · exact absurd rfl notI
      · exact inside
    · intro inside
      exact Or.inr ⟨inside, fun same => notI ((index inside).symm.trans (congrArg Key.index same))⟩
  · exact Iff.rfl

theorem mem_leave_other {m : KeyMap} {c : Class} {i : Nat} {e : Key × Nat} (notI : e.2 ≠ i)
    (index : e ∈ m.entries → e.1.index = e.2) : e ∈ (leave m c i).entries ↔ e ∈ m.entries := by
  unfold leave
  split
  · rw [SortedMap.mem_erase]
    exact ⟨And.left, fun inside =>
      ⟨inside, fun same => notI ((index inside).symm.trans (congrArg Key.index same))⟩⟩
  · exact Iff.rfl

theorem mem_enter_mine {m : KeyMap} {c : Class} {i : Nat} {e : Key × Nat} (isI : e.2 = i)
    (absent : ∀ e ∈ m.entries, e.2 ≠ i) : e ∈ (enter m c i).entries ↔ c.rIsc.isSome ∧ e.1 = ⟨c.eligible, i⟩ := by
  unfold enter
  split
  · rename_i realtime
    rw [SortedMap.mem_insert]
    constructor
    · rintro (rfl | ⟨inside, _⟩)
      · exact ⟨realtime, rfl⟩
      · exact absurd isI (absent e inside)
    · rintro ⟨_, key⟩
      exact Or.inl (Prod.ext key isI)
  · rename_i notRealtime
    exact ⟨fun inside => absurd isI (absent e inside), fun both => absurd both.1 notRealtime⟩

/-- Once a class has left, none of the entries is its. -/
theorem Indexed.absent_leave (indexed : Indexed h) {i : Nat} {c : Class} (atI : h.classes[i]? = some c) :
    ∀ e ∈ (leave h.eligible c i).entries, e.2 ≠ i := by
  intro e member isI
  unfold leave at member
  split at member
  · obtain ⟨inside, differ⟩ := SortedMap.mem_erase.mp member
    exact differ ((indexed.mine atI isI).mp inside).2.2
  · rename_i notRealtime
    exact notRealtime ((indexed.mine atI isI).mp member).1

end R2.Hfsc
