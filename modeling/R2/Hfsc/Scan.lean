import Mathlib.Logic.Relation
import R2.Hfsc.Reachable

namespace R2.Hfsc

/-- The class a scan of the class records would serve at `t`, without looking
at any of the ordered indexes. -/
inductive Scan (h : Hfsc) (t : Nat) : Option Nat → Prop
  | realtime {j} : MostUrgent h t j → Scan h t (some j)
  | linkshare {j} : (∀ k c, ¬ Due h t k c) → Bottom h j → j ≠ h.root → Scan h t (some j)
  | idle : (∀ k c, ¬ Due h t k c) → Bottom h h.root → Scan h t none

theorem LeastChild.unique {h : Hfsc} {p j k : Nat} (left : LeastChild h p j) (right : LeastChild h p k) : j = k := by
  obtain ⟨t, linked, below⟩ := left
  obtain ⟨t', linked', below'⟩ := right
  have same : (⟨t, j⟩ : Key) = ⟨t', k⟩ := le_antisymm (below _ linked') (below' _ linked)
  exact congrArg Key.index same

theorem MostUrgent.unique {h : Hfsc} {t j k : Nat} (left : MostUrgent h t j) (right : MostUrgent h t k) : j = k := by
  obtain ⟨c, due, least⟩ := left
  obtain ⟨d, due', least'⟩ := right
  have order := least k d due'
  have order' := least' j c due
  have same : (⟨c.eligible, j⟩ : Key) = ⟨d.eligible, k⟩ := by
    rcases order with less | ⟨_, before⟩
    · rcases order' with less' | ⟨same, _⟩ <;> omega
    · rcases order' with less' | ⟨_, after⟩
      · omega
      · exact le_antisymm before after
  exact congrArg Key.index same

theorem OnPath.from_root {h : Hfsc} {j : Nat} (path : OnPath h j) :
    Relation.ReflTransGen (LeastChild h) h.root j := by
  induction path with
  | root => exact .refl
  | down _ least ih => exact ih.tail least

/-- Whatever lies on the path lies above its end. -/
theorem OnPath.above {h : Hfsc} {j q : Nat} (path : OnPath h j) (bottom : Bottom h q) :
    Relation.ReflTransGen (LeastChild h) j q := by
  induction path with
  | root => exact bottom.1.from_root
  | @down p j _ least ih =>
    rcases Relation.ReflTransGen.cases_head ih with same | ⟨k, first, rest⟩
    · obtain ⟨t, linked, _⟩ := least
      rw [same] at linked
      exact absurd linked (bottom.2 _)
    · rwa [LeastChild.unique least first]

theorem Bottom.unique {h : Hfsc} {q q' : Nat} (left : Bottom h q) (right : Bottom h q') : q = q' := by
  rcases Relation.ReflTransGen.cases_head (left.1.above right) with same | ⟨k, ⟨t, linked, _⟩, _⟩
  · exact same
  · exact absurd linked (left.2 _)

theorem Scan.unique {h : Hfsc} {t : Nat} {r r' : Option Nat} (left : Scan h t r) (right : Scan h t r') : r = r' := by
  cases left with
  | realtime urgent =>
    obtain ⟨c, due, _⟩ := id urgent
    cases right with
    | realtime urgent' => rw [urgent.unique urgent']
    | linkshare none => exact absurd due (none _ _)
    | idle none => exact absurd due (none _ _)
  | linkshare none bottom notRoot =>
    cases right with
    | realtime urgent' =>
      obtain ⟨c, due, _⟩ := urgent'
      exact absurd due (none _ _)
    | linkshare _ bottom' => rw [bottom.unique bottom']
    | idle _ bottom' => exact absurd (bottom.unique bottom') notRoot
  | idle none bottom =>
    cases right with
    | realtime urgent' =>
      obtain ⟨c, due, _⟩ := urgent'
      exact absurd due (none _ _)
    | linkshare _ bottom' notRoot => exact absurd (bottom'.unique bottom) notRoot
    | idle => rfl

variable {h : Hfsc}

theorem OnPath.pos (tree : Tree h) {j : Nat} (path : OnPath h j) : 1 ≤ j := by
  induction path with
  | root => rw [tree.root]
  | down _ least ih =>
    obtain ⟨t, ⟨c, atC, parent, _⟩, _⟩ := least
    have two := tree.two_le atC (by omega)
    dsimp only at two
    omega

/-- Where the descent ends below the root there is a backlog. -/
theorem Sound.bottom_backlogged (sound : Sound h) {q : Nat} (bottom : Bottom h q) (below : q ≠ h.root) :
    ∃ c, h.classes[q]? = some c ∧ c.packets ≠ [] := by
  obtain ⟨path, none⟩ := bottom
  cases path with
  | root => exact absurd rfl below
  | @down p _ above least =>
    have pos := above.pos sound.tree
    obtain ⟨t, ⟨c, atC, parent, active, _⟩, _⟩ := least
    dsimp only at atC
    have two := sound.tree.two_le atC (by omega)
    have count := sound.wired.counted q c atC two
    have empty : c.children.entries = [] := by
      refine List.eq_nil_iff_forall_not_mem.mpr fun e member => none e ?_
      exact (sound.wired.listed q c atC (by omega) e).mp member
    refine ⟨c, atC, fun drained => ?_⟩
    rw [backlog_eq atC, empty, drained] at count
    simp only [List.isEmpty_nil, if_true, List.length_nil] at count
    omega

/-- Some child of the root is active if any class below it is. -/
theorem Sound.root_active (sound : Sound h) {i : Nat} {c : Class} (atI : h.classes[i]? = some c) (two : 2 ≤ i)
    (active : 0 < c.nactive) : ∃ e, Linked h h.root e := by
  induction i using Nat.strongRecOn generalizing c with
  | ind i ih =>
    have below := (sound.tree.parent i c atI two).1
    obtain ⟨p, atP, _, less⟩ := sound.tree.parent_exists atI (by omega)
    have linked : Linked h c.parent (⟨c.vtime, i⟩, i) := ⟨c, atI, rfl, active, rfl⟩
    by_cases top : c.parent = h.root
    · exact ⟨_, top ▸ linked⟩
    · have twoP : 2 ≤ c.parent := by
        have := sound.tree.root
        omega
      have count := sound.wired.counted c.parent p atP twoP
      have listed := (sound.wired.listed c.parent p atP below _).mpr linked
      have some := List.length_pos_of_mem listed
      exact ih c.parent less atP twoP (by omega)

theorem queued_pos {i : Nat} {c : Class} (atI : h.classes[i]? = some c) (backlogged : c.packets ≠ []) :
    0 < queued h := by
  have sums := queued_put (c.withPackets []) h.eligible 0 atI
  have some := List.length_pos_iff.mpr backlogged
  simp only [Class.withPackets_packets, List.length_nil] at sums
  omega

theorem queued_eq_zero (drained : ∀ (i : Nat) (c : Class), h.classes[i]? = some c → c.packets = []) :
    queued h = 0 := by
  refine List.sum_eq_zero fun n member => ?_
  obtain ⟨c, inside, rfl⟩ := List.mem_map.mp member
  obtain ⟨i, atI⟩ := List.mem_iff_getElem?.mp inside
  rw [drained i c atI, List.length_nil]

/-- While only leaves hold packets, a root without active children means that
nothing is queued. -/
theorem Sound.idle (sound : Sound h) (queues : LeafQueues h) (bottom : Bottom h h.root) : h.pktsQueued = 0 := by
  rw [sound.counted]
  refine queued_eq_zero fun i c atI => ?_
  by_contra backlogged
  have isLeaf := queues i c.leaf c.packets (by rw [cellAt, atI]; rfl) backlogged
  have two : 2 ≤ i := by
    by_contra small
    have cases : i = 0 ∨ i = 1 := by omega
    rcases cases with rfl | rfl
    · obtain ⟨d, atD, _, _, drained, _⟩ := sound.tree.dummy
      rw [atI] at atD
      cases atD
      exact backlogged drained
    · obtain ⟨r, atR, _, _, notLeaf⟩ := sound.tree.top
      rw [atI] at atR
      cases atR
      rw [notLeaf] at isLeaf
      cases isLeaf
  have count := sound.wired.counted i c atI two
  rw [backlog_eq atI, List.isEmpty_eq_false_iff.mpr backlogged] at count
  obtain ⟨e, linked⟩ := sound.root_active atI two (by simp only [Bool.false_eq_true, if_false] at count; omega)
  exact bottom.2 e linked

/-- `dequeue` serves the class a plain scan would. -/
theorem DequeueStep.scan {t : Nat} {served : Option (Nat × Packet)} {h' : Hfsc} (sound : Sound h)
    (queues : LeafQueues h) (step : DequeueStep h t served h') : Scan h t (served.map Prod.fst) := by
  have leafClass {q : Nat} {c : Class} (atQ : h.classes[q]? = some c) (backlogged : c.packets ≠ []) : c.leaf = true :=
    queues q c.leaf c.packets (by rw [cellAt, atQ]; rfl) backlogged
  have descend {r : Nat} {g : Hfsc} (atV : getMinV h.walkFuel h h.root = .ok (r, g)) : ∃ q, Bottom h q ∧
      (q = h.root → r = 0) ∧ (q ≠ h.root → r = q) := by
    obtain ⟨_, _, q, descended⟩ := sound.getMinV_ok.ok atV
    refine ⟨q, descended.bottom, descended.ended, fun below => ?_⟩
    obtain ⟨c, atQ, backlogged⟩ := sound.bottom_backlogged descended.bottom below
    exact descended.leaf below c atQ (leafClass atQ backlogged)
  have nothingDue (atD : getMinD h t = .ok 0) : ∀ k c, ¬ Due h t k c := by
    rcases (getMinD_spec sound.tree sound.indexed t).ok atD with ⟨_, none⟩ | ⟨some, _⟩
    · exact none
    · exact absurd rfl some
  cases step with
  | @idle r _ atD atV drained =>
    obtain ⟨q, bottom, _, found⟩ := descend atV
    by_cases top : q = h.root
    · rw [top] at bottom
      exact .idle (nothingDue atD) bottom
    · obtain ⟨c, atQ, backlogged⟩ := sound.bottom_backlogged bottom top
      obtain rfl := found top
      have nonzero : r ≠ 0 := by have := bottom.1.pos sound.tree; omega
      obtain ⟨c', atQ', empty⟩ := drained nonzero
      have same := fixed_at (sound.getMinV_ok.ok atV).1 atQ atQ'
      exact absurd ((Class.packets_of_fixed same).symm.trans empty) backlogged
  | realtime atD some =>
    rcases (getMinD_spec sound.tree sound.indexed t).ok atD with ⟨zero, _⟩ | ⟨_, urgent⟩
    · exact absurd zero some
    · exact .realtime urgent
  | linkshare atD atV some =>
    obtain ⟨q, bottom, ended, found⟩ := descend atV
    have below : q ≠ h.root := fun top => some (ended top)
    obtain rfl := found below
    exact .linkshare (nothingDue atD) bottom below

theorem leafQueues_new {bandwidth : Nat} (made : Hfsc.new bandwidth = .ok h) : LeafQueues h := by
  unfold Hfsc.new at made
  obtain ⟨c, run, made⟩ := Except.bind_ok_iff.mp made
  cases Except.ok.inj made
  obtain ⟨_, _, _, _, _, _, _, rfl⟩ := Class.new_ok run
  intro i leaf packets atI backlogged
  match i with
  | 0 => cases atI; exact absurd rfl backlogged
  | 1 => cases atI; exact absurd rfl backlogged
  | _ + 2 => cases atI

/-- The ordered indexes agree with the class records in every reachable state,
and so `dequeue` serves the class that a scan of the records finds. -/
theorem dequeue_agrees_with_scan {bandwidth : Nat} {h₀ : Hfsc} {trace : List (HfscOp × HfscEvent)}
    (made : Hfsc.new bandwidth = .ok h₀) (run : Run LeafCalls h₀ trace h) :
    (∀ i c, h.classes[i]? = some c → c.inUse = true → i ≠ h.root →
      c.index = i ∧ c.nactive = c.children.entries.length + (if c.packets.isEmpty then 0 else 1) ∧
      ∃ p, h.classes[c.parent]? = some p ∧
        ∀ key, (key, i) ∈ p.children.entries ↔ 0 < c.nactive ∧ key = c.vtimeKey) ∧
    (∀ p pc, h.classes[p]? = some pc → pc.inUse = true → ∀ e ∈ pc.children.entries, Linked h p e) ∧
    (∀ e, e ∈ h.eligible.entries ↔ Scheduled h e) ∧
    ∀ t served h', h.dequeueFrom t = .ok (served, h') → ∀ who, Scan h t who ↔ who = served.map Prod.fst := by
  obtain ⟨sound, queues⟩ := run.leafQueues (Sound.new made) (leafQueues_new made)
  refine ⟨fun i c atI inUse notRoot => ?_, fun p pc atP inUse e member => ?_, sound.indexed, ?_⟩
  · have pos := sound.pos_of_inUse atI inUse
    have two : 2 ≤ i := by have := sound.tree.root; omega
    have index := (sound.tree.index i c atI pos).1
    have below := (sound.tree.parent i c atI two).1
    obtain ⟨p, atP, _, _⟩ := sound.tree.parent_exists atI (by omega)
    have count := sound.wired.counted i c atI two
    rw [backlog_eq atI] at count
    refine ⟨index, by omega, p, atP, fun key => ?_⟩
    rw [sound.wired.listed c.parent p atP below]
    constructor
    · rintro ⟨d, atD, _, active, same⟩
      dsimp only at atD same
      rw [atI] at atD
      cases atD
      exact ⟨active, by rw [same, Class.vtimeKey, index]⟩
    · rintro ⟨active, rfl⟩
      exact ⟨c, atI, rfl, active, by rw [Class.vtimeKey, index]⟩
  · exact (sound.wired.listed p pc atP (sound.pos_of_inUse atP inUse) e).mp member
  · intro t served h' returned who
    have scan := ((dequeueFrom_spec sound t).ok returned).scan sound queues
    constructor
    · intro other
      exact other.unique scan
    · rintro rfl
      exact scan

theorem dequeue_agrees_with_scan_realtime : ∃ h₀ trace h, Hfsc.new 1000 = .ok h₀ ∧ Run LeafCalls h₀ trace h ∧
    (h.dequeueFrom 9).toOption.bind (fun r => r.1.map Prod.fst) = some 2 ∧ Scan h 9 (some 2) := by
  obtain ⟨h₀, trace, h, made, run, seen⟩ := exists_run_of_exec LeafCalls 1000
    [.create "a" "root" 0 true ⟨some ⟨0, 0, 5000⟩, none, ⟨0, 0, 1000⟩⟩,
      .create "b" "root" 0 true ⟨none, none, ⟨0, 0, 500⟩⟩, .enqueue 3 (flatPacket 100) 5,
        .enqueue 2 (flatPacket 100) 7]
    (fun r => (r.2.dequeueFrom 9).toOption.bind fun r => r.1.map Prod.fst) (a := some 2) (by decide)
  dsimp only at seen
  obtain ⟨⟨served, h'⟩, returned, who⟩ := Option.bind_eq_some_iff.mp seen
  have scan :=
    ((dequeue_agrees_with_scan made run).2.2.2 9 served h' (Except.ok_of_toOption returned) (some 2)).mpr who.symm
  exact ⟨h₀, trace, h, made, run, seen, scan⟩

end R2.Hfsc
