import R2.Hfsc.Effects

namespace R2

/-- A class with everything but what it was created with cleared. -/
@[simps] def Class.shape (c : Class) : Class :=
  { c.fixed with packets := [], qdrops := 0, eligible := 0, deadline := 0, rBytes := 0, dRun := .zero, eRun := .zero }

theorem Class.shape_of_fixed {c c' : Class} (same : c'.fixed = c.fixed) : c'.shape = c.shape :=
  congrArg (fun d : Class => { d with
    packets := [], qdrops := 0, eligible := 0, deadline := 0, rBytes := 0, dRun := .zero, eRun := .zero }) same

theorem Class.parent_of_shape {c c' : Class} (same : c'.shape = c.shape) : c'.parent = c.parent := by
  simpa using congrArg Class.parent same

theorem Class.fIsc_of_shape {c c' : Class} (same : c'.shape = c.shape) : c'.fIsc = c.fIsc := by
  simpa using congrArg Class.fIsc same

theorem Class.rIsc_of_shape {c c' : Class} (same : c'.shape = c.shape) : c'.rIsc = c.rIsc := by
  simpa using congrArg Class.rIsc same

theorem Class.pvoff_of_shape {c c' : Class} (same : c'.shape = c.shape) : c'.pvoff = c.pvoff := by
  simpa using congrArg Class.pvoff same

namespace Hfsc

/-- Every class of `h` is in `g` as it was created. -/
def Kept (h g : Hfsc) : Prop :=
  ∀ (k : Nat) (c : Class), h.classes[k]? = some c → ∃ c', g.classes[k]? = some c' ∧ c'.shape = c.shape

variable {h g : Hfsc}

theorem Kept.refl : Kept h h := fun _ c atK => ⟨c, atK, rfl⟩

theorem Kept.trans {h' : Hfsc} (first : Kept h g) (second : Kept g h') : Kept h h' := by
  intro k c atK
  obtain ⟨c', atC', same⟩ := first k c atK
  obtain ⟨c'', atC'', same'⟩ := second k c' atC'
  exact ⟨c'', atC'', same'.trans same⟩

theorem Kept.of_fixed (same : g.fixed = h.fixed) : Kept h g := by
  intro k c atK
  obtain ⟨c', atC', eq⟩ := lookup_of_fixed same.symm atK
  exact ⟨c', atC', (Class.shape_of_fixed eq).symm⟩

theorem Kept.setClass {i : Nat} {c c' : Class} (atI : h.classes[i]? = some c) (same : c'.shape = c.shape) :
    Kept h (h.setClass i c') ∧ Kept (h.setClass i c') h := by
  constructor
  · intro k d atK
    by_cases isI : k = i
    · subst isI
      rw [atI] at atK
      cases atK
      exact ⟨c', setClass_self atI, same⟩
    · exact ⟨d, (setClass_other (Ne.symm isI)).trans atK, rfl⟩
  · intro k d atK
    rcases (setClass_iff atI).mp atK with ⟨rfl, rfl⟩ | ⟨_, old⟩
    · exact ⟨c, atI, same.symm⟩
    · exact ⟨d, old, rfl⟩

/-- Both states have the same classes. -/
def SameShape (h g : Hfsc) : Prop := Kept h g ∧ Kept g h

theorem SameShape.refl : SameShape h h := ⟨.refl, .refl⟩

theorem SameShape.trans {h' : Hfsc} (first : SameShape h g) (second : SameShape g h') : SameShape h h' :=
  ⟨first.1.trans second.1, second.2.trans first.2⟩

theorem SameShape.of_fixed (same : g.fixed = h.fixed) : SameShape h g := ⟨.of_fixed same, .of_fixed same.symm⟩

theorem SameShape.put {i n : Nat} {c c' : Class} {el : KeyMap} (atI : h.classes[i]? = some c)
    (same : c'.shape = c.shape) : SameShape h (h.put i c' el n) := Kept.setClass atI same

theorem EnqueueStep.sameShape {i now : Nat} {pkt : Packet} {accepted : Bool} {h' : Hfsc} (sound : Sound h)
    (step : EnqueueStep h i pkt now accepted h') : SameShape h h' := by
  cases step with
  | refused => exact .refl
  | dropped atI => exact Kept.setClass atI rfl
  | more atI => exact .put atI rfl
  | first atI _ empty run atD initialised =>
    obtain ⟨fixed, _⟩ := (sound.initV_ok atI empty).ok run
    obtain ⟨_, _, _, _, rfl⟩ := initEd_keeps initialised
    exact (SameShape.of_fixed fixed).trans (.put atD rfl)

/-- Every class record is as `P` says. -/
def Every (P : Class → Prop) (h : Hfsc) : Prop := ∀ (k : Nat) (c : Class), h.classes[k]? = some c → P c

theorem Every.setClass {P : Class → Prop} {i : Nat} {c c' : Class} (every : Every P h) (atI : h.classes[i]? = some c)
    (holds : P c') : Every P (h.setClass i c') := by
  intro k d atK
  rcases (setClass_iff atI).mp atK with ⟨_, rfl⟩ | ⟨_, old⟩
  · exact holds
  · exact every k d old

theorem Every.setPair {P : Class → Prop} {i p : Nat} {c c' d d' : Class} (every : Every P h) (ne : i ≠ p)
    (atI : h.classes[i]? = some c) (atP : h.classes[p]? = some d) (holds : P c') (holdsP : P d') :
    Every P ((h.setClass i c').setClass p d') :=
  (every.setClass atI holds).setClass ((setClass_other ne).trans atP) holdsP

theorem Every.put {P : Class → Prop} {i n : Nat} {c c' : Class} {el : KeyMap} (every : Every P h)
    (atI : h.classes[i]? = some c) (holds : P c') : Every P (h.put i c' el n) := every.setClass atI holds

theorem Every.append {P : Class → Prop} {c : Class} {names : AList (fun _ : String => Nat)} (every : Every P h)
    (holds : P c) : Every P { h with classes := h.classes ++ [c], classNames := names } := by
  intro k d atK
  rcases append_iff.mp atK with old | ⟨_, rfl⟩
  · exact every k d old
  · exact holds

/-- A served packet: the state it was popped in, and the walk that charged it. -/
structure Serving (h : Hfsc) (t i : Nat) (pkt : Packet) (h' g g' : Hfsc) (c d : Class) (rest : List Packet)
    (el : KeyMap) :
    Prop where
  before : g = h ∧ c.rIsc.isSome ∨ getMinV h.walkFuel h h.root = .ok (i, g) ∧ i ≠ 0
  sound : Sound g
  fixed : g.fixed = h.fixed
  atI : g.classes[i]? = some c
  pos : 1 ≤ i
  packets : c.packets = pkt :: rest
  place : SamePlace d c
  packets' : d.packets = rest
  held : Held c d
  vmin : d.vmin = c.vmin
  shape : d.shape = c.shape
  indexed : Indexed (g.put i d el g.pktsQueued)
  run : updateV pkt.len g.walkFuel (g.put i d el g.pktsQueued) i rest.isEmpty = .ok g'
  result : h' = { g' with pktsQueued := g'.pktsQueued - 1 }

theorem DequeueStep.serving {t i : Nat} {pkt : Packet} {h' : Hfsc} (sound : Sound h)
    (step : DequeueStep h t (some (i, pkt)) h') : ∃ g g' c d rest el, Serving h t i pkt h' g g' c d rest el := by
  cases step with
  | realtime _ some atI realtime packets next run =>
    obtain ⟨place, packets'⟩ := next.place
    obtain ⟨_, _, times⟩ := next.times
    exact ⟨h, _, _, _, _, _, Or.inl ⟨rfl, realtime⟩, sound, rfl, atI, Nat.pos_of_ne_zero some, packets,
      place, packets', by rw [times]; exact ⟨rfl, rfl, rfl, rfl, rfl⟩, by rw [times]; rfl, by rw [times]; rfl,
      next.indexed sound.indexed atI realtime, run, rfl⟩
  | linkshare _ atV some atI packets next run =>
    obtain ⟨fixed, sound', _⟩ := sound.getMinV_ok.ok atV
    obtain ⟨place, packets'⟩ := next.place
    obtain ⟨_, times⟩ := next.times
    exact ⟨_, _, _, _, _, _, Or.inr ⟨atV, some⟩, sound', fixed, atI, Nat.pos_of_ne_zero some, packets,
      place, packets', by rw [times]; exact ⟨rfl, rfl, rfl, rfl, rfl⟩, by rw [times]; rfl, by rw [times]; rfl,
      next.indexed sound'.indexed atI packets, run, rfl⟩

theorem Serving.charging {t i : Nat} {pkt : Packet} {h' g g' : Hfsc} {c d : Class} {rest : List Packet} {el : KeyMap}
    (serving : Serving h t i pkt h' g g' c d rest el) :
    Charging (g.put i d el g.pktsQueued) (backlog (g.put i d el g.pktsQueued)) i rest.isEmpty ∧ i < g.walkFuel := by
  refine ⟨serving.sound.charging serving.atI serving.pos serving.packets serving.place serving.packets', ?_⟩
  obtain ⟨bound, _⟩ := List.getElem?_eq_some_iff.mp serving.atI
  simp only [walkFuel]
  omega

theorem Serving.sameShape {t i : Nat} {pkt : Packet} {h' g g' : Hfsc} {c d : Class} {rest : List Packet} {el : KeyMap}
    (serving : Serving h t i pkt h' g g' c d rest el) : SameShape h h' := by
  obtain ⟨charging, enough⟩ := serving.charging
  obtain ⟨fixed, _⟩ := (updateV_rule (fun _ _ _ => True) (fun _ => True)
    (fun _ _ _ _ _ _ _ _ _ _ _ => trivial) (fun _ _ _ _ _ _ _ _ _ => trivial) charging trivial enough).ok serving.run
  have popped : SameShape h (g.put i d el g.pktsQueued) :=
    (SameShape.of_fixed serving.fixed).trans (.put serving.atI serving.shape)
  have charged : SameShape (g.put i d el g.pktsQueued) g' := .of_fixed fixed
  rw [serving.result]
  exact popped.trans charged

theorem DequeueStep.sameShape {t : Nat} {served : Option (Nat × Packet)} {h' : Hfsc} (sound : Sound h)
    (step : DequeueStep h t served h') : SameShape h h' := by
  cases served with
  | none =>
    cases step with
    | idle _ atV => exact .of_fixed (sound.getMinV_ok.ok atV).1
  | some pair =>
    obtain ⟨_, _, _, _, _, _, serving⟩ := step.serving sound
    exact serving.sameShape

theorem Stepped.kept {op : HfscOp} {event : HfscEvent} {h' : Hfsc} (sound : Sound h)
    (step : Stepped h op event h') : Kept h h' := by
  cases step with
  | create step =>
    cases step with
    | refused => exact .refl
    | created => exact fun k c atK => ⟨c, append_iff.mpr (Or.inl atK), rfl⟩
  | spare => exact .refl
  | enqueue step => exact (step.sameShape sound).1
  | dequeue step => exact (step.sameShape sound).1

theorem Run.kept {start : Hfsc} {trace : List (HfscOp × HfscEvent)} (sound : Sound start)
    (run : Run Spares start trace h) : Kept start h :=
  (run.invariant (fun h => Sound h ∧ Kept start h) ⟨sound, .refl⟩ fun _ _ _ _ spares both step =>
    have stepped := (step_spec both.1 spares).ok step
    ⟨stepped.sound both.1, both.2.trans (stepped.kept both.1)⟩).2

/-- The lineage of a class is never cut. -/
theorem Kept.lineage (kept : Kept h g) {a k : Nat} (member : a ∈ lineage h k) : a ∈ lineage g k := by
  have loop (fuel : Nat) (k : Nat) (member : a ∈ lineageLoop h (fuel + 1) k) : a ∈ lineageLoop g (fuel + 1) k := by
    induction fuel generalizing k with
    | zero =>
      simp only [lineageLoop] at member ⊢
      cases atK : h.classes[k]? with
      | none =>
        simp only [atK, List.mem_singleton] at member
        subst member
        split
        · exact List.mem_singleton_self a
        · split <;> exact List.mem_singleton_self a
      | some c =>
        obtain ⟨c', atC', same⟩ := kept k c atK
        simp only [atK, atC', Class.parent_of_shape same] at member ⊢
        exact member
    | succ fuel ih =>
      unfold lineageLoop at member ⊢
      cases atK : h.classes[k]? with
      | none =>
        simp only [atK, List.mem_singleton] at member
        subst member
        split
        · exact List.mem_singleton_self a
        · split
          · exact List.mem_singleton_self a
          · exact List.mem_cons_self ..
      | some c =>
        obtain ⟨c', atC', same⟩ := kept k c atK
        simp only [atK, atC', Class.parent_of_shape same] at member ⊢
        by_cases top : c.parent = 0
        · simp only [top, if_true] at member ⊢
          exact member
        · simp only [top, if_false] at member ⊢
          rcases List.mem_cons.mp member with rfl | above
          · exact List.mem_cons_self ..
          · exact List.mem_cons_of_mem _ (ih _ above)
  exact loop k k member

theorem SameShape.lineage_iff (same : SameShape h g) {a k : Nat} : a ∈ lineage g k ↔ a ∈ lineage h k :=
  ⟨same.2.lineage, same.1.lineage⟩

end Hfsc

end R2
