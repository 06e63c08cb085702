import R2.Hfsc.RealTime
import R2.Hfsc.Starvation

namespace R2.Hfsc

/-- A class that keeps its real-time schedule and its place at the head of its queue. -/
structure Waits (c c' : Class) : Prop where
  curve : c'.rIsc = c.rIsc
  line : c'.dRun = c.dRun
  eligible : c'.eligible = c.eligible
  deadline : c'.deadline = c.deadline
  behind : ∃ more, c'.packets = c.packets ++ more ∧ (c.packets = [] → more = [])

theorem Waits.refl (c : Class) : Waits c c := ⟨rfl, rfl, rfl, rfl, [], (List.append_nil _).symm, fun _ => rfl⟩

theorem Waits.of_fixed {c c' : Class} (same : c'.fixed = c.fixed) : Waits c c' where
  curve := Class.rIsc_of_fixed same
  line := by simpa using congrArg Class.dRun same
  eligible := Class.eligible_of_fixed same
  deadline := by simpa using congrArg Class.deadline same
  behind := ⟨[], by rw [List.append_nil, Class.packets_of_fixed same], fun _ => rfl⟩

/-- A call as the real-time schedule of class `k` sees it. A deadline is computed when the class
gets its first packet, and behind a packet that is taken, before this packet is charged. -/
inductive Attended (k : Nat) (c : Class) : HfscEvent → Class → Prop
  | waits {event c'} : servedClass event ≠ some k → Waits c c' → Attended k c event c'
  | enters {pkt c'} : c.packets = [] → c'.packets = [pkt] →
      (c'.rIsc.isSome → rtscY2x c'.dRun (c.fBytes + pkt.len) = .ok c'.deadline) → Attended k c (.enqueued true) c'
  | served {pkt c'} : c.packets = pkt :: c'.packets → c'.rIsc = c.rIsc →
      (∀ next more, c'.packets = next :: more → c.rIsc.isSome →
        rtscY2x c'.dRun (c.fBytes + next.len) = .ok c'.deadline) → Attended k c (.dequeued (some (k, pkt))) c'

variable {h : Hfsc}

theorem EnqueueStep.attended {i k now : Nat} {pkt : Packet} {accepted : Bool} {c : Class} {h' : Hfsc}
    (sound : Sound h) (step : EnqueueStep h i pkt now accepted h') (atK : h.classes[k]? = some c) :
    ∃ c', h'.classes[k]? = some c' ∧ Attended k c (.enqueued accepted) c' := by
  have unserved (accepted : Bool) : servedClass (.enqueued accepted) ≠ some k := nofun
  by_cases isI : k = i
  · subst isI
    cases step with
    | refused => exact ⟨c, atK, .waits (unserved _) (.refl c)⟩
    | @dropped d atD =>
      rw [atK] at atD
      cases atD
      exact ⟨_, setClass_self atK, .waits (unserved _) ⟨rfl, rfl, rfl, rfl, [], (List.append_nil _).symm, fun _ => rfl⟩⟩
    | @more d atD _ backlogged =>
      rw [atK] at atD
      cases atD
      exact ⟨_, setClass_self atK,
        .waits (unserved _) ⟨rfl, rfl, rfl, rfl, [pkt], rfl, fun empty => absurd empty backlogged⟩⟩
    | @first d g e e' atD _ empty run atE initialised =>
      rw [atK] at atD
      cases atD
      refine ⟨_, setClass_self atE, .enters empty rfl fun realtime => ?_⟩
      have bytes := (sound.initV_bytes atK empty run).eq_at atK atE
      cases curve : e.rIsc with
      | none =>
        rw [initEd_none curve] at initialised
        cases Except.ok.inj initialised
        rw [Class.withPackets_rIsc, curve] at realtime
        cases realtime
      | some isc =>
        obtain ⟨dRun, eligible, deadline, _, _, atDeadline, rfl⟩ := initEd_some curve initialised
        rw [← bytes]
        exact atDeadline
  · have other {d' : Class} : (h.setClass i d').classes[k]? = some c := (setClass_other (Ne.symm isI)).trans atK
    cases step with
    | refused => exact ⟨c, atK, .waits (unserved _) (.refl c)⟩
    | dropped => exact ⟨c, other, .waits (unserved _) (.refl c)⟩
    | more => exact ⟨c, other, .waits (unserved _) (.refl c)⟩
    | first atI _ empty run =>
      obtain ⟨c', atC', same⟩ := lookup_of_fixed (sound.initV_ok atI empty |>.ok run).1.symm atK
      exact ⟨c', (setClass_other (Ne.symm isI)).trans atC', .waits (unserved _) (.of_fixed same.symm)⟩

theorem DequeueStep.attended {k t : Nat} {served : Option (Nat × Packet)} {c : Class} {h' : Hfsc} (sound : Sound h)
    (step : DequeueStep h t served h') (atK : h.classes[k]? = some c) :
    ∃ c', h'.classes[k]? = some c' ∧ Attended k c (.dequeued served) c' := by
  cases step with
  | idle _ atV =>
    obtain ⟨c', atC', same⟩ := lookup_of_fixed (sound.getMinV_ok.ok atV).1.symm atK
    exact ⟨c', atC', .waits nofun (.of_fixed same.symm)⟩
  | @realtime i d pkt rest e el g _ some atI realtime packets next run =>
    obtain ⟨place, packets'⟩ := next.place
    obtain ⟨fixed, _⟩ := (sound.pop atI (Nat.pos_of_ne_zero some) packets place packets'
      (next.indexed sound.indexed atI realtime)).ok run
    by_cases isI : k = i
    · subst isI
      rw [atI] at atK
      cases atK
      obtain ⟨c', atC', same⟩ := lookup_of_fixed fixed.symm (setClass_self atI)
      have kept := Waits.of_fixed same.symm
      have tail : c'.packets = rest := (Class.packets_of_fixed same.symm).trans packets'
      have curve : e.rIsc = c.rIsc := by
        obtain ⟨_, _, rfl⟩ := next.times
        rfl
      refine ⟨c', atC', .served (tail ▸ packets) (kept.curve.trans curve) fun head more shape _ => ?_⟩
      rw [tail] at shape
      subst shape
      cases next with
      | next updated =>
        obtain ⟨eligible, deadline, _, _, atD, rfl⟩ := updateEd_ok.mp updated
        rw [kept.line, kept.deadline]
        exact atD
    · obtain ⟨c', atC', same⟩ := lookup_of_fixed fixed.symm ((setClass_other (Ne.symm isI)).trans atK)
      exact ⟨c', atC', .waits (fun mine => isI (Option.some.inj mine).symm) (.of_fixed same.symm)⟩
  | @linkshare i g d pkt rest e el g' _ atV some atI packets next run =>
    obtain ⟨fixedV, sound', _⟩ := sound.getMinV_ok.ok atV
    obtain ⟨place, packets'⟩ := next.place
    obtain ⟨fixed, _⟩ := (sound'.pop atI (Nat.pos_of_ne_zero some) packets place packets'
      (next.indexed sound'.indexed atI packets)).ok run
    by_cases isI : k = i
    · subst isI
      have before := fixed_at fixedV atK atI
      have bytes := (sound.getMinV_bytes atV).eq_at atK atI
      obtain ⟨c', atC', same⟩ := lookup_of_fixed fixed.symm (setClass_self atI)
      have kept := Waits.of_fixed same.symm
      have tail : c'.packets = rest := (Class.packets_of_fixed same.symm).trans packets'
      have curve : e.rIsc = c.rIsc := by
        have sameCurve := Class.rIsc_of_fixed before
        obtain ⟨_, rfl⟩ := next.times
        exact sameCurve
      refine ⟨c', atC', .served ?_ (kept.curve.trans curve) fun head more shape realtime => ?_⟩
      · rw [tail, ← packets]
        exact (Class.packets_of_fixed before).symm
      · rw [tail] at shape
        subst shape
        cases next with
        | plain none =>
          rw [← curve, none] at realtime
          cases realtime
        | next _ updated =>
          obtain ⟨deadline, _, atD, rfl⟩ := updateD_ok.mp updated
          rw [kept.line, kept.deadline, ← bytes]
          exact atD
    · obtain ⟨c₁, atC₁, same₁⟩ := lookup_of_fixed fixedV.symm atK
      obtain ⟨c', atC', same⟩ := lookup_of_fixed fixed.symm ((setClass_other (Ne.symm isI)).trans atC₁)
      exact ⟨c', atC', .waits (fun mine => isI (Option.some.inj mine).symm) (.of_fixed (same.symm.trans same₁.symm))⟩

/-- One call, seen from the real-time schedule of a class. -/
theorem Stepped.attended {k : Nat} {op : HfscOp} {event : HfscEvent} {c : Class} {h' : Hfsc} (sound : Sound h)
    (step : Stepped h op event h') (atK : h.classes[k]? = some c) :
    ∃ c', h'.classes[k]? = some c' ∧ Attended k c event c' := by
  cases step with
  | create step =>
    cases step with
    | refused => exact ⟨c, atK, .waits nofun (.refl c)⟩
    | created => exact ⟨c, append_iff.mpr (Or.inl atK), .waits nofun (.refl c)⟩
  | spare => exact ⟨c, atK, .waits nofun (.refl c)⟩
  | enqueue step => exact step.attended sound atK
  | dequeue step => exact step.attended sound atK

/-- The bytes a class was charged for. -/
def bytesAt (h : Hfsc) (k : Nat) : Nat := ((h.classes[k]?).map Class.fBytes).getD 0

theorem bytesAt_eq {k : Nat} {c : Class} (atK : h.classes[k]? = some c) : bytesAt h k = c.fBytes := by
  rw [bytesAt, atK]
  rfl

theorem bytesAt_setClass {i : Nat} {c c' : Class} (atI : h.classes[i]? = some c) (same : c'.fBytes = c.fBytes)
    (k : Nat) : bytesAt (h.setClass i c') k = bytesAt h k := by
  by_cases isI : k = i
  · subst isI
    rw [bytesAt_eq atI, bytesAt_eq (setClass_self atI), same]
  · rw [bytesAt, setClass_other (Ne.symm isI), bytesAt]

theorem bytesAt_put {i n : Nat} {c c' : Class} {el : KeyMap} (atI : h.classes[i]? = some c)
    (same : c'.fBytes = c.fBytes) (k : Nat) : bytesAt (h.put i c' el n) k = bytesAt h k := bytesAt_setClass atI same k

theorem SameBytes.bytesAt {g : Hfsc} (same : SameBytes h g) (fixed : g.fixed = h.fixed) (k : Nat) :
    bytesAt g k = bytesAt h k := by
  cases atK : h.classes[k]? with
  | some c =>
    obtain ⟨c', atC', _⟩ := lookup_of_fixed fixed.symm atK
    rw [bytesAt_eq atK, bytesAt_eq atC', same.eq_at atK atC']
  | none =>
    have none' : g.classes[k]? = none := by
      rw [List.getElem?_eq_none_iff] at atK ⊢
      rw [length_of_fixed fixed]
      exact atK
    rw [Hfsc.bytesAt, Hfsc.bytesAt, atK, none']

/-- The bytes that a call takes from the queue of class `k`. -/
def taken (k : Nat) (e : HfscOp × HfscEvent) : Nat := ((QueueEvent.takenOf k (queueEvent e)).map Packet.len).getD 0

theorem EnqueueStep.bytesAt {i now : Nat} {pkt : Packet} {accepted : Bool} {h' : Hfsc} (sound : Sound h)
    (step : EnqueueStep h i pkt now accepted h') (k : Nat) : bytesAt h' k = bytesAt h k := by
  cases step with
  | refused => rfl
  | dropped atI => exact bytesAt_setClass atI (by rfl) k
  | more atI => exact bytesAt_put atI (by rfl) k
  | @first c g d d' atI _ empty run atD initialised =>
    obtain ⟨_, _, _, _, rfl⟩ := initEd_keeps initialised
    exact (bytesAt_put atD (by rfl) k).trans
      ((sound.initV_bytes atI empty run).bytesAt (sound.initV_ok atI empty |>.ok run).1 k)

/-- A leaf of the class tree is charged for what is taken from its queue. -/
theorem DequeueStep.bytesAt {k t : Nat} {served : Option (Nat × Packet)} {h' : Hfsc} (sound : Sound h)
    (step : DequeueStep h t served h') (childless : Childless h k) (two : 2 ≤ k) :
    bytesAt h' k = bytesAt h k + taken k (.dequeue t, .dequeued served) := by
  cases served with
  | none =>
    cases step with
    | idle _ atV => exact (sound.getMinV_bytes atV).bytesAt (sound.getMinV_ok.ok atV).1 k
  | some pair =>
    obtain ⟨i, pkt⟩ := pair
    obtain ⟨g, g', c, d, rest, el, serving⟩ := step.serving sound
    obtain ⟨charging, enough⟩ := serving.charging
    have before : Hfsc.bytesAt g k = Hfsc.bytesAt h k := by
      rcases serving.before with ⟨rfl, _⟩ | ⟨atV, _⟩
      · rfl
      · exact (sound.getMinV_bytes atV).bytesAt serving.fixed k
    have popped : Hfsc.bytesAt (g.put i d el g.pktsQueued) k = Hfsc.bytesAt h k :=
      (bytesAt_put serving.atI serving.held.fBytes k).trans before
    have shape : SameShape h (g.put i d el g.pktsQueued) :=
      (SameShape.of_fixed serving.fixed).trans (.put serving.atI serving.shape)
    have after : Hfsc.bytesAt h' k = Hfsc.bytesAt g' k := by
      rw [serving.result]
      rfl
    rw [after, ← popped]
    by_cases isI : k = i
    · subst isI
      have atD : (g.put k d el g.pktsQueued).classes[k]? = some d := setClass_self serving.atI
      have below := charging.tree.parent k d atD two
      obtain ⟨p, atP, _, _⟩ := charging.tree.parent_exists atD (by omega)
      obtain ⟨c', atC', charged⟩ := updateV_charged charging enough serving.run self_mem_lineage atD (by omega) atP
      rw [bytesAt_eq atC', bytesAt_eq atD, charged.fBytes]
      simp [taken, queueEvent, QueueEvent.takenOf]
    · have away : k ∉ lineage (g.put i d el g.pktsQueued) i := fun member =>
        isI (childless.above_self sound.tree (shape.lineage_iff.mp member)).symm
      have other := updateV_other charging enough serving.run away
      rw [Hfsc.bytesAt, other, Hfsc.bytesAt]
      simp [taken, queueEvent, QueueEvent.takenOf, Ne.symm isI]

theorem Stepped.bytesAt {k : Nat} {op : HfscOp} {event : HfscEvent} {h' : Hfsc} (sound : Sound h)
    (step : Stepped h op event h') (childless : Childless h k) (two : 2 ≤ k) :
    bytesAt h' k = bytesAt h k + taken k (op, event) := by
  cases step with
  | create step =>
    cases step with
    | refused => rfl
    | created _ _ _ _ made =>
      obtain ⟨_, _, _, _, _, _, _, rfl⟩ := Class.new_ok made
      rw [Hfsc.bytesAt, List.getElem?_append]
      by_cases inside : k < h.classes.length
      · rw [if_pos inside]
        rfl
      · rw [if_neg inside, Hfsc.bytesAt, List.getElem?_eq_none (Nat.not_lt.mp inside)]
        cases k - h.classes.length <;> rfl
  | spare => rfl
  | @enqueue classid pkt now accepted _ step =>
    rw [step.bytesAt sound k]
    cases accepted <;> rfl
  | dequeue step => exact step.bytesAt sound childless two

end R2.Hfsc
