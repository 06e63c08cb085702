import R2.Hfsc.Create
import R2.Hfsc.Dequeue
import R2.Hfsc.Enqueue
import R2.Hfsc.Runs

namespace R2.Hfsc

/-- A call that takes no class out of use. -/
def Spares (h : Hfsc) : HfscOp → Prop
  | .destroy index => ∀ c, h.classes[index]? = some c → c.inUse = false
  | _ => True

/-- A call of `create_class`, of `dequeue`, or of `enqueue` on a class that was
created as a leaf. -/
def LeafCalls (h : Hfsc) : HfscOp → Prop
  | .destroy _ => False
  | .enqueue classid _ _ => ∀ c, h.classes[classid]? = some c → c.inUse = true → c.leaf = true
  | _ => True

instance (h : Hfsc) (op : HfscOp) : Decidable (LeafCalls h op) :=
  match op with
  | .create .. => .isTrue trivial
  | .destroy _ => .isFalse id
  | .dequeue _ => .isTrue trivial
  | .enqueue classid _ _ =>
    match atI : h.classes[classid]? with
    | none => .isTrue fun c atC => by rw [atI] at atC; cases atC
    | some c => decidable_of_iff (c.inUse = true → c.leaf = true)
        ⟨fun leaf d atD => by rw [atI] at atD; cases atD; exact leaf, fun calls => calls c atI⟩

theorem LeafCalls.spares {h : Hfsc} {op : HfscOp} (calls : LeafCalls h op) : Spares h op := by
  cases op with
  | destroy => exact calls.elim
  | _ => trivial

/-- What a call can do while no class was ever destroyed. -/
inductive Stepped (h : Hfsc) : HfscOp → HfscEvent → Hfsc → Prop
  | create {name parentName qlimit isLeaf curves result h'} :
      CreateStep h name parentName qlimit isLeaf curves result h' →
      Stepped h (.create name parentName qlimit isLeaf curves) (.created result) h'
  | spare {index} : Stepped h (.destroy index) (.destroyed 0) h
  | enqueue {classid pkt now accepted h'} : EnqueueStep h classid pkt now accepted h' →
      Stepped h (.enqueue classid pkt now) (.enqueued accepted) h'
  | dequeue {now served h'} : DequeueStep h now served h' → Stepped h (.dequeue now) (.dequeued served) h'

variable {h : Hfsc}

theorem destroyClass_spared {index : Nat} (spares : Spares h (.destroy index)) :
    h.destroyClass index = .ok (0, h) := by
  unfold destroyClass
  split
  · rfl
  · rename_i c atI
    simp only [spares c atI, Bool.not_false, if_true]

theorem step_spec (sound : Sound h) {op : HfscOp} (spares : Spares h op) :
    NoPanic (h.step op) (fun r => Stepped h op r.1 r.2) := by
  cases op with
  | create name parentName qlimit isLeaf curves =>
    exact (createClass_spec sound.tree name parentName qlimit isLeaf curves).bind fun _ step => .create step
  | destroy index =>
    simp only [step, destroyClass_spared spares, Except.ok_bind]
    exact .spare
  | enqueue classid pkt now => exact (enqueue_spec sound classid pkt now).bind fun _ step => .enqueue step
  | dequeue now => exact (dequeueFrom_spec sound now).bind fun _ step => .dequeue step

theorem Stepped.sound {op : HfscOp} {event : HfscEvent} {h' : Hfsc} (sound : Sound h)
    (step : Stepped h op event h') : Sound h' := by
  cases step with
  | create step => exact step.sound sound
  | spare => exact sound
  | enqueue step => exact step.sound sound
  | dequeue step => exact step.sound sound

theorem Run.sound {start : Hfsc} {trace : List (HfscOp × HfscEvent)} (sound : Sound start)
    (run : Run Spares start trace h) : Sound h :=
  run.invariant _ sound fun _ _ _ _ spares sound step => ((step_spec sound spares).ok step).sound sound

/-- What `create_class` fixed about a class, and its queue. -/
def cell (c : Class) : Bool × List Packet := (c.leaf, c.packets)

def cellAt (h : Hfsc) (i : Nat) : Option (Bool × List Packet) := (h.classes[i]?).map cell

theorem cellAt_of_fixed {h h' : Hfsc} (same : h'.fixed = h.fixed) : cellAt h' = cellAt h := by
  funext i
  have lists : h'.classes.map Class.fixed = h.classes.map Class.fixed := congrArg Hfsc.classes same
  have cells := congrArg (fun l : List Class => (l.map cell)[i]?) lists
  simp only [List.map_map, List.getElem?_map] at cells
  exact cells

theorem cellAt_setClass {h : Hfsc} {i : Nat} {c c' : Class} (atI : h.classes[i]? = some c) :
    cellAt (h.setClass i c') = Function.update (cellAt h) i (some (cell c')) := by
  funext j
  by_cases same : j = i
  · subst same
    rw [cellAt, setClass_self atI, Function.update_self]
    rfl
  · rw [cellAt, setClass_other (Ne.symm same), Function.update_of_ne same]
    rfl

/-- The queue of a class, empty where there is no class. -/
def queueOf (h : Hfsc) (i : Nat) : List Packet := ((cellAt h i).map Prod.snd).getD []

theorem queueOf_eq {i : Nat} {c : Class} (atI : h.classes[i]? = some c) : queueOf h i = c.packets := by
  simp only [queueOf, cellAt, atI, Option.map_some, cell, Option.getD_some]

theorem EnqueueStep.cells {i now : Nat} {pkt : Packet} {accepted : Bool} {h' : Hfsc} (sound : Sound h)
    (step : EnqueueStep h i pkt now accepted h') :
    (accepted = false ∧ cellAt h' = cellAt h) ∨
      accepted = true ∧ ∃ c, h.classes[i]? = some c ∧ c.inUse = true ∧
        cellAt h' = Function.update (cellAt h) i (some (c.leaf, c.packets ++ [pkt])) := by
  cases step with
  | refused => exact Or.inl ⟨rfl, rfl⟩
  | @dropped c atI _ _ _ =>
    refine Or.inl ⟨rfl, ?_⟩
    rw [cellAt_setClass atI]
    exact Function.update_eq_self_iff.mpr (by rw [cellAt, atI]; rfl)
  | @more c atI inUse _ => exact Or.inr ⟨rfl, c, atI, inUse, cellAt_setClass atI⟩
  | @first c g d d' atI inUse empty run atD initialised =>
    obtain ⟨fixed, _⟩ := (sound.initV_ok atI empty).ok run
    have same := fixed_at fixed atI atD
    obtain ⟨_, _, _, _, rfl⟩ := initEd_keeps initialised
    refine Or.inr ⟨rfl, c, atI, inUse, ?_⟩
    rw [← cellAt_of_fixed fixed, empty]
    refine (cellAt_setClass atD).trans ?_
    have leaf : d.leaf = c.leaf := Class.leaf_of_fixed same
    rw [cell, Class.withPackets_leaf, Class.withSchedule_leaf, leaf]
    rfl

theorem DequeueStep.cells {t : Nat} {served : Option (Nat × Packet)} {h' : Hfsc} (sound : Sound h)
    (step : DequeueStep h t served h') :
    (served = none ∧ cellAt h' = cellAt h) ∨
      ∃ i pkt rest c, served = some (i, pkt) ∧ h.classes[i]? = some c ∧ c.packets = pkt :: rest ∧
        cellAt h' = Function.update (cellAt h) i (some (c.leaf, rest)) := by
  cases step with
  | idle _ atV _ => exact Or.inl ⟨rfl, cellAt_of_fixed (sound.getMinV_ok.ok atV).1⟩
  | @realtime i c pkt rest d el g _ some atI realtime packets next run =>
    obtain ⟨place, packets'⟩ := next.place
    obtain ⟨fixed, _⟩ := (sound.pop atI (Nat.pos_of_ne_zero some) packets place packets'
      (next.indexed sound.indexed atI realtime)).ok run
    refine Or.inr ⟨i, pkt, rest, c, rfl, atI, packets, ?_⟩
    refine (cellAt_of_fixed fixed).trans ((cellAt_setClass atI).trans ?_)
    rw [cell, place.leaf, packets']
  | @linkshare i g c pkt rest d el g' _ atV some atI packets next run =>
    obtain ⟨fixedV, sound', _⟩ := sound.getMinV_ok.ok atV
    obtain ⟨place, packets'⟩ := next.place
    obtain ⟨fixed, _⟩ := (sound'.pop atI (Nat.pos_of_ne_zero some) packets place packets'
      (next.indexed sound'.indexed atI packets)).ok run
    obtain ⟨c₀, atC₀, same⟩ := lookup_of_fixed fixedV atI
    have leaf : c.leaf = c₀.leaf := Class.leaf_of_fixed same
    refine Or.inr ⟨i, pkt, rest, c₀, rfl, atC₀, (Class.packets_of_fixed same).symm.trans packets, ?_⟩
    rw [← cellAt_of_fixed fixedV, ← leaf]
    refine (cellAt_of_fixed fixed).trans ((cellAt_setClass atI).trans ?_)
    rw [cell, place.leaf, packets']

theorem CreateStep.cells {name parentName : String} {qlimit : Nat} {isLeaf : Bool} {curves : Curves}
    {result : Except String Unit} {h' : Hfsc} (step : CreateStep h name parentName qlimit isLeaf curves result h') :
    cellAt h' = cellAt h ∨ cellAt h' = Function.update (cellAt h) h.classes.length (some (isLeaf, [])) := by
  cases step with
  | refused => exact Or.inl rfl
  | created _ _ _ _ run =>
    obtain ⟨_, _, _, _, _, _, _, rfl⟩ := Class.new_ok run
    refine Or.inr (funext fun j => ?_)
    rw [cellAt, List.getElem?_append]
    by_cases same : j = h.classes.length
    · subst same
      rw [if_neg (Nat.lt_irrefl _), Nat.sub_self, Function.update_self]
      rfl
    · rw [Function.update_of_ne same]
      by_cases inside : j < h.classes.length
      · rw [if_pos inside]
        rfl
      · rw [if_neg inside, List.getElem?_eq_none (by simp only [List.length_singleton]; omega), cellAt,
          List.getElem?_eq_none (by omega)]

/-- Only leaves hold packets. -/
def LeafQueues (h : Hfsc) : Prop := ∀ i leaf packets, cellAt h i = some (leaf, packets) → packets ≠ [] → leaf = true

theorem LeafQueues.update {h h' : Hfsc} {i : Nat} {leaf : Bool} {packets : List Packet} (queues : LeafQueues h)
    (cells : cellAt h' = Function.update (cellAt h) i (some (leaf, packets))) (ok : packets ≠ [] → leaf = true) :
    LeafQueues h' := by
  intro j leaf' packets' atJ backlogged
  rw [cells] at atJ
  by_cases same : j = i
  · subst same
    rw [Function.update_self] at atJ
    cases atJ
    exact ok backlogged
  · rw [Function.update_of_ne same] at atJ
    exact queues j leaf' packets' atJ backlogged

theorem Stepped.leafQueues {op : HfscOp} {event : HfscEvent} {h' : Hfsc} (sound : Sound h) (queues : LeafQueues h)
    (calls : LeafCalls h op) (step : Stepped h op event h') : LeafQueues h' := by
  cases step with
  | create step =>
    rcases step.cells with same | cells
    · rw [LeafQueues, same]
      exact queues
    · exact queues.update cells fun nonempty => absurd rfl nonempty
  | spare => exact queues
  | enqueue step =>
    rcases step.cells sound with ⟨_, same⟩ | ⟨_, c, atI, inUse, cells⟩
    · rw [LeafQueues, same]
      exact queues
    · exact queues.update cells fun _ => calls c atI inUse
  | dequeue step =>
    rcases step.cells sound with ⟨_, same⟩ | ⟨i, pkt, rest, c, _, atI, packets, cells⟩
    · rw [LeafQueues, same]
      exact queues
    · refine queues.update cells fun _ => queues i c.leaf c.packets (by rw [cellAt, atI]; rfl) ?_
      rw [packets]
      exact List.cons_ne_nil _ _

theorem Run.leafQueues {start : Hfsc} {trace : List (HfscOp × HfscEvent)} (sound : Sound start)
    (queues : LeafQueues start) (run : Run LeafCalls start trace h) : Sound h ∧ LeafQueues h :=
  run.invariant (fun h => Sound h ∧ LeafQueues h) ⟨sound, queues⟩ fun _ _ _ _ calls both step => by
    have stepped := (step_spec both.1 calls.spares).ok step
    exact ⟨stepped.sound both.1, stepped.leafQueues both.1 both.2 calls⟩

end R2.Hfsc
