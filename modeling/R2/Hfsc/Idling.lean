import R2.Hfsc.Lines
import R2.Hfsc.Share

namespace R2.Hfsc

/-- A call that takes no class out of use, with at most `L` bytes. -/
def Bounded (L : Nat) (h : Hfsc) (op : HfscOp) : Prop :=
  Spares h op ∧ ∀ classid pkt now, op = .enqueue classid pkt now → pkt.len ≤ L

/-- The same while class `i` is a leaf of the class tree and class `j` is
active. -/
def Waiting (L i j : Nat) (h : Hfsc) (op : HfscOp) : Prop := Bounded L h op ∧ Childless h i ∧ Active h j

def servedClass : HfscEvent → Option Nat
  | .dequeued served => served.map Prod.fst
  | _ => none

/-- No call served the subtree of class `j`. -/
def Overlooked (h : Hfsc) (j : Nat) (trace : List (HfscOp × HfscEvent)) : Prop :=
  ∀ e ∈ trace, ∀ classid, servedClass e.2 = some classid → j ∉ lineage h classid

/-- The length of a queue and the number of times it ran empty, from its
length at the start. -/
def drainStep (i : Nat) : Nat × Nat → QueueEvent Nat Packet → Nat × Nat
  | (length, drained), .put k _ => if k = i then (length + 1, drained) else (length, drained)
  | (length, drained), .take k _ =>
    if k = i then (length - 1, if length = 1 then drained + 1 else drained) else (length, drained)
  | (length, drained), .quiet => (length, drained)

def drains (i length : Nat) (trace : List (HfscOp × HfscEvent)) : Nat × Nat :=
  (trace.map queueEvent).foldl (drainStep i) (length, 0)

/-- The bytes `dequeue` popped from a class. -/
def servedBytes (i : Nat) (trace : List (HfscOp × HfscEvent)) : Nat := ((served i trace).map Packet.len).sum

instance (h : Hfsc) (op : HfscOp) : Decidable (Spares h op) :=
  match op with
  | .create .. => .isTrue trivial
  | .destroy index =>
    match atI : h.classes[index]? with
    | none => .isTrue fun c atC => by rw [atI] at atC; cases atC
    | some c => decidable_of_iff (c.inUse = false)
        ⟨fun unused d atD => by rw [atI] at atD; cases atD; exact unused, fun spares => spares c atI⟩
  | .enqueue .. => .isTrue trivial
  | .dequeue _ => .isTrue trivial

instance (L : Nat) (h : Hfsc) (op : HfscOp) : Decidable (Bounded L h op) :=
  match op with
  | .enqueue _ pkt _ => decidable_of_iff (pkt.len ≤ L)
      ⟨fun short => ⟨trivial, fun _ _ _ eq => by cases eq; exact short⟩, fun bounded => bounded.2 _ _ _ rfl⟩
  | .create .. => .isTrue ⟨trivial, fun _ _ _ eq => by cases eq⟩
  | .destroy index => decidable_of_iff (Spares h (.destroy index))
      ⟨fun spares => ⟨spares, fun _ _ _ eq => by cases eq⟩, And.left⟩
  | .dequeue _ => .isTrue ⟨trivial, fun _ _ _ eq => by cases eq⟩

instance (L i j : Nat) (h : Hfsc) (op : HfscOp) : Decidable (Waiting L i j h op) :=
  inferInstanceAs (Decidable (_ ∧ _ ∧ _))

instance (h : Hfsc) (j : Nat) (trace : List (HfscOp × HfscEvent)) : Decidable (Overlooked h j trace) :=
  inferInstanceAs (Decidable (∀ e ∈ trace, ∀ classid ∈ servedClass e.2, j ∉ lineage h classid))

variable {h : Hfsc}

theorem Childless.above_self {i k : Nat} (tree : Tree h) (childless : Childless h i)
    (member : i ∈ lineage h k) : k = i := by
  induction k using Nat.strongRecOn with
  | ind k ih =>
    cases atK : h.classes[k]? with
    | none =>
      simp only [lineage, lineageLoop, atK, List.mem_singleton] at member
      exact member.symm
    | some c =>
      by_cases top : c.parent = 0
      · rw [lineage_top atK top, List.mem_singleton] at member
        exact member.symm
      · obtain ⟨_, _, _, less⟩ := tree.parent_exists atK top
        rw [lineage_below tree atK top] at member
        rcases List.mem_cons.mp member with same | above
        · exact same.symm
        · exact absurd (ih _ less above) (childless.parent_ne atK)

/-- A leaf of the class tree is active as long as it holds packets. -/
theorem Sound.leaf_active (sound : Sound h) {i : Nat} {c : Class} (childless : Childless h i)
    (atI : h.classes[i]? = some c) (below : c.parent ≠ 0) : 0 < c.nactive ↔ c.packets ≠ [] := by
  have two := sound.tree.two_le atI below
  have count := sound.wired.counted i c atI two
  have none : c.children.entries = [] := by
    refine List.eq_nil_iff_forall_not_mem.mpr fun e member => ?_
    obtain ⟨d, atD, parent, _⟩ := sound.wired.entry_class atI (by omega) member
    exact childless.parent_ne atD parent
  rw [backlog_eq atI, none] at count
  cases shape : c.packets with
  | nil => simp only [shape, List.isEmpty_nil, if_true, List.length_nil] at count; simp; omega
  | cons => simp only [shape, List.isEmpty_cons, if_false, List.length_nil, Bool.false_eq_true] at count; simp; omega

/-- Nothing lowers a `vmin` during a call of `dequeue`. -/
theorem DequeueStep.vmin_le {a t : Nat} {served : Option (Nat × Packet)} {c : Class} {h' : Hfsc} (sound : Sound h)
    (step : DequeueStep h t served h') (atA : h.classes[a]? = some c) :
    ∃ c', h'.classes[a]? = some c' ∧ c.vmin ≤ c'.vmin := by
  cases served with
  | none =>
    obtain ⟨v, le, atC'⟩ := step.away sound atA (fun _ _ eq => by cases eq)
    exact ⟨_, atC', le⟩
  | some pair =>
    obtain ⟨g, g', d, d', rest, el, serving⟩ := step.serving sound
    have before : ∃ v, c.vmin ≤ v ∧ g.classes[a]? = some (c.withVmin v) := by
      rcases serving.before with ⟨rfl, _⟩ | ⟨atV, _⟩
      · exact ⟨c.vmin, le_rfl, atA⟩
      · exact (sound.getMinV_effect atV).1 a c atA
    obtain ⟨v, le, atG⟩ := before
    have popped : ∃ c', (g.put pair.1 d' el g.pktsQueued).classes[a]? = some c' ∧ c'.vmin = v := by
      by_cases isK : a = pair.1
      · rw [isK, serving.atI] at atG
        cases atG
        exact ⟨d', by rw [isK]; exact setClass_self serving.atI, serving.vmin⟩
      · exact ⟨_, (setClass_other (Ne.symm isK)).trans atG, rfl⟩
    obtain ⟨c₁, atC₁, vmin₁⟩ := popped
    obtain ⟨charging, enough⟩ := serving.charging
    obtain ⟨c', atC', _, _, vmin⟩ := updateV_sameCurves charging enough serving.run a c₁ atC₁
    rw [serving.result]
    exact ⟨c', atC', by omega⟩

/-- A class that goes active among its siblings enters at or ahead of its
parent's `vmin`. -/
theorem initV_enters {own : Nat → Nat} {fuel i : Nat} {g : Hfsc} {c p : Class} (entering : Entering h own i)
    (floor : Floor h) (enough : i < fuel) (run : initV fuel h i true = .ok g) (atI : h.classes[i]? = some c)
    (below : c.parent ≠ 0) (atP : h.classes[c.parent]? = some p) (passive : c.nactive = 0)
    (siblings : p.children.entries ≠ []) : ∃ c', g.classes[i]? = some c' ∧ 0 < c'.nactive ∧ p.vmin ≤ c'.vtime := by
  obtain ⟨_, _, _, less⟩ := entering.tree.parent_exists atI below
  refine ((initV_rule
    (fun g q => q = i ∧ g = h ∨
      q < i ∧ ∃ c', g.classes[i]? = some c' ∧ 0 < c'.nactive ∧ p.vmin ≤ c'.vtime)
    (fun g => ∃ c', g.classes[i]? = some c' ∧ 0 < c'.nactive ∧ p.vmin ≤ c'.vtime) ?_ ?_ entering
    (Or.inl ⟨rfl, rfl⟩) enough).ok run).2.2
  · intro g q d g' r entering atQ phase step
    rcases phase with ⟨rfl, rfl⟩ | ⟨lower, c', atC', entered⟩
    · rw [atI] at atQ
      cases atQ
      cases step with
      | @join p' key m last vt c' _ atP' _ atLast atM mean run =>
        rw [atP] at atP'
        cases atP'
        obtain ⟨_, _, nactive, vtime, _⟩ := startCurveAt_keeps run
        have ahead := floor.join_ge (c := c) entering.wired (Nat.pos_of_ne_zero below) atP atLast atM mean
        refine Or.inr ⟨less, c', (setClass_other (by omega)).trans (setClass_self atI), ?_, ?_⟩
        · rw [nactive]; exact Nat.one_pos
        · rw [vtime]; exact ahead
      | first _ atP' _ empty =>
        rw [atP] at atP'
        cases atP'
        exact absurd empty siblings
    · have up {d' p' : Class} (belowD : d.parent ≠ 0) : d.parent < i ∧
          ∃ c', ((g.setClass q d').setClass d.parent p').classes[i]? = some c' ∧ 0 < c'.nactive ∧
            p.vmin ≤ c'.vtime := by
        obtain ⟨_, _, _, lessD⟩ := entering.tree.parent_exists atQ belowD
        exact ⟨by omega, c', (setClass_other (by omega)).trans ((setClass_other (by omega)).trans atC'), entered⟩
      cases step with
      | join belowD => exact Or.inr (up belowD)
      | first belowD => exact Or.inr (up belowD)
  · intro g q d g' entering atQ phase step
    rcases phase with ⟨rfl, rfl⟩ | ⟨lower, c', atC', entered⟩
    · rw [atI] at atQ
      cases atQ
      cases step with
      | top top => exact absurd top below
      | busy _ active => omega
    · cases step with
      | top => exact ⟨c', atC', entered⟩
      | busy => exact ⟨c', (setClass_other (by omega)).trans atC', entered⟩

/-- A call as a leaf and its parent's `vmin` see it. -/
inductive Turn (h h' : Hfsc) (i : Nat) (c : Class) (pvmin : Nat) : QueueEvent Nat Packet → Class → Nat → Prop
  | away {event c' pvmin'} : (∀ pkt, event ≠ .take i pkt) → Held c c' → (0 < c'.nactive ↔ 0 < c.nactive) →
      pvmin ≤ pvmin' → Turn h h' i c pvmin event c' pvmin'
  | enters {event c' pvmin'} : (∀ pkt, event ≠ .take i pkt) → c.nactive = 0 → 0 < c'.nactive → pvmin ≤ c'.vtime →
      Turn h h' i c pvmin event c' pvmin'
  | served {pkt c'} : Picked h h' i pkt.len c c' → (c'.nactive = 0 ↔ c.packets.length = 1) →
      Turn h h' i c pvmin (.take i pkt) c' c.vtime

theorem EnqueueStep.turn {i k now : Nat} {pkt : Packet} {accepted : Bool} {c p : Class} {h' : Hfsc} (sound : Sound h)
    (floor : Floor h) (childless : Childless h i) (step : EnqueueStep h k pkt now accepted h')
    (atI : h.classes[i]? = some c) (below : c.parent ≠ 0) (atP : h.classes[c.parent]? = some p)
    (siblings : p.children.entries ≠ []) : ∃ c' p', h'.classes[i]? = some c' ∧ h'.classes[c.parent]? = some p' ∧
      Turn h h' i c p.vmin (queueEvent (.enqueue k pkt now, .enqueued accepted)) c' p'.vmin := by
  have noTake : ∀ pkt', queueEvent (.enqueue k pkt now, .enqueued accepted) ≠ .take i pkt' := by
    cases accepted <;> exact fun _ eq => by cases eq
  have activeP : p.parent ≠ 0 → 0 < p.nactive := by
    intro belowP
    have count := sound.wired.counted c.parent p atP (sound.tree.two_le atP belowP)
    have some := List.length_pos_iff.mpr siblings
    omega
  obtain ⟨p', atP', stayedP⟩ := step.stayed sound atP activeP
  have vminP := (stayedP.held (Or.inl siblings)).2
  by_cases active : 0 < c.nactive
  · obtain ⟨c', atC', stayed⟩ := step.stayed sound atI (fun _ => active)
    obtain ⟨c₁, atC₁, shape⟩ := (step.sameShape sound).1 i c atI
    rw [atC'] at atC₁
    cases atC₁
    have active' := stayed.active (by rw [Class.parent_of_shape shape]; exact below)
    exact ⟨c', p', atC', atP', .away noTake (stayed.held childless.guarded).1
      (by simp only [active, active']) vminP.ge⟩
  · have passive : c.nactive = 0 := by omega
    have drained : c.packets = [] := by
      by_contra backlogged
      exact active ((sound.leaf_active childless atI below).mpr backlogged)
    have other (c' : Class) (atC' : h'.classes[i]? = some c') (held : Held c c') (same : c'.nactive = c.nactive) :
        ∃ c' p', h'.classes[i]? = some c' ∧ h'.classes[c.parent]? = some p' ∧
          Turn h h' i c p.vmin (queueEvent (.enqueue k pkt now, .enqueued accepted)) c' p'.vmin :=
      ⟨c', p', atC', atP', .away noTake held (by rw [same]) vminP.ge⟩
    cases step with
    | refused => exact other c atI (.refl c) rfl
    | @dropped d atK =>
      by_cases isK : i = k
      · rw [isK, atK] at atI
        cases atI
        exact other { c with qdrops := c.qdrops + 1 } (by rw [isK]; exact setClass_self atK)
          ⟨rfl, rfl, rfl, rfl, rfl⟩ rfl
      · exact other c ((setClass_other (Ne.symm isK)).trans atI) (.refl c) rfl
    | @more d atK _ backlogged =>
      by_cases isK : i = k
      · rw [isK, atK] at atI
        cases atI
        exact absurd drained backlogged
      · exact other c ((setClass_other (Ne.symm isK)).trans atI) (.refl c) rfl
    | @first d g e e' atK _ empty run atE initialised =>
      obtain ⟨bound, _⟩ := List.getElem?_eq_some_iff.mp atK
      have entering := sound.entering atK empty
      obtain ⟨dRun, eRun, eligible, deadline, rfl⟩ := initEd_keeps initialised
      by_cases isK : i = k
      · subst isK
        obtain ⟨c', atC', active', ahead⟩ :=
          initV_enters entering floor (by simp only [walkFuel]; omega) run atI below
          atP passive siblings
        rw [atE] at atC'
        cases atC'
        exact ⟨_, p', setClass_self atE, atP', .enters noTake passive active' ahead⟩
      · have same := initV_other entering (by simp only [walkFuel]; omega) run
          (fun member => isK (childless.above_self sound.tree member).symm)
        exact other c ((setClass_other (Ne.symm isK)).trans (same.trans atI)) (.refl c) rfl

theorem DequeueStep.turn {i t : Nat} {served : Option (Nat × Packet)} {c p : Class} {h' : Hfsc} (sound : Sound h)
    (floor : Floor h) (childless : Childless h i) (step : DequeueStep h t served h') (atI : h.classes[i]? = some c)
    (below : c.parent ≠ 0) (plain : c.rIsc = none) (atP : h.classes[c.parent]? = some p) :
    ∃ c' p', h'.classes[i]? = some c' ∧ h'.classes[c.parent]? = some p' ∧
      Turn h h' i c p.vmin (queueEvent (.dequeue t, .dequeued served)) c' p'.vmin := by
  obtain ⟨p', atP', le⟩ := step.vmin_le sound atP
  by_cases mine : ∃ pkt, served = some (i, pkt)
  · obtain ⟨pkt, rfl⟩ := mine
    have plain' : ∀ d, h.classes[i]? = some d → d.rIsc = none := fun d atD => by
      rw [atI] at atD
      cases atD
      exact plain
    obtain ⟨c', atC', picked⟩ := step.picked sound floor childless plain' self_mem_lineage atI below
    obtain ⟨p₁, atP₁, caught⟩ := picked.parent
    have same := step.sameShape sound
    obtain ⟨c₁, atC₁, shape⟩ := same.1 i c atI
    rw [atC'] at atC₁
    cases atC₁
    have active := (step.sound sound).leaf_active (same.childless childless) atC'
      (by rw [Class.parent_of_shape shape]; exact below)
    have rest : c.packets = pkt :: c'.packets := by
      rcases step.cells sound with ⟨none, _⟩ | ⟨i', pkt', rest, c₀, some, atC₀, packets, cells⟩
      · cases none
      · cases some
        rw [atI] at atC₀
        cases atC₀
        have atCell := congrFun cells i
        rw [Function.update_self, cellAt, atC', Option.map_some, Option.some.injEq] at atCell
        rw [packets, show c'.packets = rest from congrArg Prod.snd atCell]
    refine ⟨c', p₁, atC', atP₁, ?_⟩
    rw [caught]
    refine .served picked ?_
    rw [rest, List.length_cons]
    cases shape' : c'.packets with
    | nil => simp only [shape', ne_eq, not_true_eq_false, iff_false] at active; simp; omega
    | cons => simp only [shape', ne_eq, reduceCtorEq, not_false_eq_true, iff_true] at active; simp; omega
  · have away : ∀ k pkt, served = some (k, pkt) → i ∉ lineage h k := by
      rintro k pkt rfl member
      exact mine ⟨pkt, by rw [childless.above_self sound.tree member]⟩
    obtain ⟨v, _, atC'⟩ := step.away sound atI away
    refine ⟨_, p', atC', atP', .away (fun pkt eq => ?_) ⟨rfl, rfl, rfl, rfl, rfl⟩ Iff.rfl le⟩
    cases served with
    | none => cases eq
    | some pair =>
      obtain ⟨k, pkt'⟩ := pair
      cases eq
      exact mine ⟨pkt, rfl⟩

/-- One call, seen from a leaf and an active sibling. -/
theorem Stepped.turn {i : Nat} {op : HfscOp} {event : HfscEvent} {c p : Class} {h' : Hfsc} (sound : Sound h)
    (floor : Floor h) (childless : Childless h i) (step : Stepped h op event h') (atI : h.classes[i]? = some c)
    (below : c.parent ≠ 0) (plain : c.rIsc = none) (atP : h.classes[c.parent]? = some p)
    (siblings : p.children.entries ≠ []) : ∃ c' p', h'.classes[i]? = some c' ∧ h'.classes[c.parent]? = some p' ∧
      Turn h h' i c p.vmin (queueEvent (op, event)) c' p'.vmin := by
  cases step with
  | create step =>
    refine ⟨c, p, ?_, ?_, .away (fun _ eq => by cases eq) (.refl c) Iff.rfl le_rfl⟩
    · cases step with
      | refused => exact atI
      | created => exact append_iff.mpr (Or.inl atI)
    · cases step with
      | refused => exact atP
      | created => exact append_iff.mpr (Or.inl atP)
  | spare => exact ⟨c, p, atI, atP, .away (fun _ eq => by cases eq) (.refl c) Iff.rfl le_rfl⟩
  | enqueue step => exact step.turn sound floor childless atI below atP siblings
  | dequeue step => exact step.turn sound floor childless atI below plain atP

/-- An active class that is not served keeps its virtual time. -/
theorem Stepped.vtime_eq {j : Nat} {op : HfscOp} {event : HfscEvent} {d : Class} {h' : Hfsc} (sound : Sound h)
    (step : Stepped h op event h') (atJ : h.classes[j]? = some d) (active : 0 < d.nactive)
    (overlooked : ∀ k, servedClass event = some k → j ∉ lineage h k) :
    ∃ d', h'.classes[j]? = some d' ∧ d'.vtime = d.vtime := by
  cases step with
  | create step =>
    cases step with
    | refused => exact ⟨d, atJ, rfl⟩
    | created => exact ⟨d, append_iff.mpr (Or.inl atJ), rfl⟩
  | spare => exact ⟨d, atJ, rfl⟩
  | enqueue step =>
    obtain ⟨d', atD', stayed⟩ := step.stayed sound atJ (fun _ => active)
    exact ⟨d', atD', stayed.vtime⟩
  | dequeue step =>
    obtain ⟨v, _, atD'⟩ := step.away sound atJ (fun k pkt eq => overlooked k (by rw [eq]; rfl))
    exact ⟨_, atD', rfl⟩

end R2.Hfsc
