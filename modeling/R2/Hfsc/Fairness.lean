import R2.Hfsc.Share

namespace R2.Hfsc

variable {h : Hfsc}

/-- A class tree that was just built. -/
structure Planted (h : Hfsc) : Prop where
  sound : Sound h
  floor : Floor h
  fresh : Every Fresh h
  empty : ∀ k, queueOf h k = []

theorem Planted.of_run {bandwidth : Nat} {h₀ : Hfsc} {built : List (HfscOp × HfscEvent)}
    (made : Hfsc.new bandwidth = .ok h₀) (creating : Run SlopeCreates h₀ built h) : Planted h := by
  refine creating.invariant _ ⟨.new made, .new made, Fresh.new made,
    queueOf_new made⟩ fun h op event h' slope planted step => ?_
  cases op with
  | create name parentName qlimit isLeaf curves =>
    have spares : Spares h (.create name parentName qlimit isLeaf curves) := trivial
    have stepped := (step_spec planted.sound spares).ok step
    cases stepped with
    | create step =>
      refine ⟨step.sound planted.sound, (Stepped.create step).floor planted.sound planted.floor,
        step.fresh planted.fresh slope, fun k => List.eq_nil_iff_forall_not_mem.mpr fun pkt member => ?_⟩
      rcases ((Stepped.create step).queues planted.sound).mem member with old | put
      · rw [planted.empty k] at old
        cases old
      · cases put
  | destroy => exact slope.elim
  | enqueue => exact slope.elim
  | dequeue => exact slope.elim

theorem Arrivals.spares {L : Nat} {op : HfscOp} (calls : Arrivals L h op ∨ ∃ now, op = .dequeue now) :
    Spares h op := by
  cases op with
  | destroy => exact (calls.resolve_right (by rintro ⟨_, eq⟩; cases eq)).elim
  | _ => trivial

/-- A stocked class tree before any service. -/
structure Filled (L : Nat) (h₁ h : Hfsc) : Prop where
  sound : Sound h
  floor : Floor h
  fresh : Every Fresh h
  stocked : Stocked L h
  same : SameShape h₁ h

theorem Filled.of_run {L : Nat} {h₁ : Hfsc} {arrived : List (HfscOp × HfscEvent)} (planted : Planted h₁)
    (arriving : Run (Arrivals L) h₁ arrived h) : Filled L h₁ h := by
  have start : Filled L h₁ h₁ := by
    refine ⟨planted.sound, planted.floor, planted.fresh,
      ⟨?_, ?_, fun k c atK => (planted.fresh k c atK).plain⟩, .refl⟩
    · exact fun k nonempty => absurd (planted.empty k) nonempty
    · intro k pkt member
      rw [planted.empty k] at member
      cases member
  refine arriving.invariant _ start fun h op event h' calls filled step => ?_
  obtain ⟨sound, floor, fresh, stocked, same⟩ := filled
  have stepped := (step_spec sound (Arrivals.spares (Or.inl calls))).ok step
  obtain ⟨stocked', same'⟩ := stepped.stocked sound stocked (Or.inl calls)
  refine ⟨stepped.sound sound, stepped.floor sound floor, ?_, stocked', same.trans same'⟩
  cases stepped with
  | create => exact calls.elim
  | spare => exact fresh
  | enqueue step => exact step.fresh sound fresh
  | dequeue => exact calls.elim

/-- Two active siblings under way: both are steady, and neither is ahead of
the other by more than one packet. -/
structure Paced (L i j : Nat) (h₁ h : Hfsc) (trace : List (HfscOp × HfscEvent)) (c d : Class) : Prop where
  sound : Sound h
  floor : Floor h
  stocked : Stocked L h
  same : SameShape h₁ h
  atI : h.classes[i]? = some c
  atJ : h.classes[j]? = some d
  steadyI : Steady c (bytesFrom h₁ i trace)
  steadyJ : Steady d (bytesFrom h₁ j trace)
  spread : c.vtime ≤ d.vtime + L * c.fIsc.ism2 / 1024 + 1 ∧ d.vtime ≤ c.vtime + L * d.fIsc.ism2 / 1024 + 1

theorem Paced.next {L i j : Nat} {h₁ h' : Hfsc} {trace : List (HfscOp × HfscEvent)} {c d : Class} {op : HfscOp}
    {event : HfscEvent} (paced : Paced L i j h₁ h trace c d) (siblings : c.parent = d.parent) (below : c.parent ≠ 0)
    (calls : Contested L i j h op) (step : h.step op = .ok (event, h')) (activeI : Active h' i)
    (activeJ : Active h' j) :
    ∃ c' d', Paced L i j h₁ h' (trace ++ [(op, event)]) c' d' ∧ c'.shape = c.shape ∧ d'.shape = d.shape := by
  obtain ⟨sound, floor, stocked, same, atI, atJ, steadyI, steadyJ, spread⟩ := paced
  obtain ⟨calls, ⟨c₁, atC₁, activeC⟩, ⟨d₁, atD₁, activeD⟩⟩ := calls
  rw [atI] at atC₁
  cases atC₁
  rw [atJ] at atD₁
  cases atD₁
  have stepped := (step_spec sound (Arrivals.spares calls)).ok step
  obtain ⟨stocked', same'⟩ := stepped.stocked sound stocked calls
  obtain ⟨c', atC', shapeC, steadyI', moveC⟩ :=
    stepped.steady sound floor stocked calls atI below activeC activeI steadyI
  obtain ⟨d', atD', shapeD, steadyJ', moveD⟩ :=
    stepped.steady sound floor stocked calls atJ (siblings ▸ below) activeD activeJ steadyJ
  refine ⟨c', d',
    ⟨stepped.sound sound, stepped.floor sound floor, stocked', same.trans same', atC', atD', ?_, ?_, ?_⟩,
    shapeC, shapeD⟩
  · rw [bytesFrom_next, ← bytesOf_of_sameShape same]
    exact steadyI'
  · rw [bytesFrom_next, ← bytesOf_of_sameShape same]
    exact steadyJ'
  · rw [Class.fIsc_of_shape shapeC, Class.fIsc_of_shape shapeD]
    -- the one that is served was the least of the two
    have linkI : Linked h c.parent (⟨c.vtime, i⟩, i) := ⟨c, atI, rfl, activeC, rfl⟩
    have linkJ : Linked h c.parent (⟨d.vtime, j⟩, j) := ⟨d, atJ, siblings.symm, activeD, rfl⟩
    have leastI (least : LeastChild h c.parent i) : c.vtime ≤ d.vtime := least.vtime_le atI linkJ
    have leastJ (least : LeastChild h d.parent j) : d.vtime ≤ c.vtime := least.vtime_le atJ (siblings ▸ linkI)
    rcases moveC with stillC | ⟨least, _, _⟩
    · rcases moveD with stillD | ⟨least', _, _⟩
      · omega
      · have := leastJ least'
        omega
    · have := leastI least
      rcases moveD with stillD | ⟨least', _, _⟩
      · omega
      · have := leastJ least'
        omega

theorem Paced.of_run {L i j : Nat} {h₁ h₂ : Hfsc} {trace : List (HfscOp × HfscEvent)} {ci cj : Class}
    (filled : Filled L h₁ h₂) (sharing : Run (Contested L i j) h₂ trace h) (activeI : Active h i)
    (activeJ : Active h j)
    (atI : h₁.classes[i]? = some ci) (atJ : h₁.classes[j]? = some cj) (siblings : ci.parent = cj.parent)
    (below : ci.parent ≠ 0) : ∃ c d, Paced L i j h₁ h trace c d ∧ c.shape = ci.shape ∧ d.shape = cj.shape := by
  induction sharing with
  | start =>
    obtain ⟨c, atC, shapeC⟩ := filled.same.1 i ci atI
    obtain ⟨d, atD, shapeD⟩ := filled.same.1 j cj atJ
    have freshC := filled.fresh i c atC
    have freshD := filled.fresh j d atD
    refine ⟨c, d,
      ⟨filled.sound, filled.floor, filled.stocked, filled.same, atC, atD, freshC.steady ?_, freshD.steady ?_,
      ?_⟩, shapeC, shapeD⟩
    · rw [Class.parent_of_shape shapeC]; exact below
    · rw [Class.parent_of_shape shapeD, ← siblings]; exact below
    · rw [freshC.vtime_eq, freshD.vtime_eq]
      omega
  | next _ calls step ih =>
    obtain ⟨c, d, paced, shapeC, shapeD⟩ := ih calls.2.1 calls.2.2
    have parentC := Class.parent_of_shape shapeC
    have parentD := Class.parent_of_shape shapeD
    obtain ⟨c', d', paced', shapeC', shapeD'⟩ := paced.next (by rw [parentC, parentD]; exact siblings)
      (by rw [parentC]; exact below) calls step activeI activeJ
    exact ⟨c', d', paced', shapeC'.trans shapeC, shapeD'.trans shapeD⟩

/-- Link sharing divides service in proportion to the fair-share rates: two
siblings that stay active are never more than one packet apart. -/
theorem shares_by_rate {bandwidth L i j : Nat} {h₀ h₁ h₂ : Hfsc} {built arrived trace : List (HfscOp × HfscEvent)}
    {ci cj : Class} (made : Hfsc.new bandwidth = .ok h₀) (creating : Run SlopeCreates h₀ built h₁)
    (arriving : Run (Arrivals L) h₁ arrived h₂) (sharing : Run (Contested L i j) h₂ trace h)
    (activeI : Active h i) (activeJ : Active h j) (atI : h₁.classes[i]? = some ci) (atJ : h₁.classes[j]? = some cj)
    (siblings : ci.parent = cj.parent) (below : ci.parent ≠ 0) :
    ∃ vi vj, segY2x (bytesFrom h₁ i trace) ci.fIsc.ism2 = .ok vi ∧
    segY2x (bytesFrom h₁ j trace) cj.fIsc.ism2 = .ok vj ∧
      ∀ li lj, segY2x L ci.fIsc.ism2 = .ok li → segY2x L cj.fIsc.ism2 = .ok lj →
        vi ≤ vj + max li lj + 1 ∧ vj ≤ vi + max li lj + 1 := by
  obtain ⟨c, d, paced, shapeC, shapeD⟩ :=
    Paced.of_run (Filled.of_run (.of_run made creating) arriving) sharing activeI
    activeJ atI atJ siblings below
  have placeI := paced.steadyI.place
  have placeJ := paced.steadyJ.place
  have finiteI := paced.steadyI.line.finite
  have finiteJ := paced.steadyJ.line.finite
  have spread := paced.spread
  rw [Class.fIsc_of_shape shapeC, Class.fIsc_of_shape shapeD] at spread
  rw [Class.fIsc_of_shape shapeC] at placeI finiteI
  rw [Class.fIsc_of_shape shapeD] at placeJ finiteJ
  refine ⟨c.vtime, d.vtime, placeI, placeJ, fun li lj atLi atLj => ?_⟩
  have slopeI := segY2x_ok atLi finiteI
  have slopeJ := segY2x_ok atLj finiteJ
  omega

theorem shares_by_rate_contested : ∃ h₀ h₁ h₂ h built arrived trace ci cj,
    Hfsc.new 1000 = .ok h₀ ∧ Run SlopeCreates h₀ built h₁ ∧ Run (Arrivals 100) h₁ arrived h₂ ∧
    Run (Contested 100 2 3) h₂ trace h ∧ h₁.classes[2]? = some ci ∧ h₁.classes[3]? = some cj ∧
    (bytesFrom h₁ 2 trace, bytesFrom h₁ 3 trace) = (200, 100) ∧
    ∃ vi vj, segY2x (bytesFrom h₁ 2 trace) ci.fIsc.ism2 = .ok vi ∧
    segY2x (bytesFrom h₁ 3 trace) cj.fIsc.ism2 = .ok vj ∧
      ∀ li lj, segY2x 100 ci.fIsc.ism2 = .ok li → segY2x 100 cj.fIsc.ism2 = .ok lj →
        vi ≤ vj + max li lj + 1 ∧ vj ≤ vi + max li lj + 1 := by
  have done : (do
      let h₀ ← Hfsc.new 1000
      let r₁ ← exec SlopeCreates h₀ [.create "a" "root" 0 true ⟨none, none, ⟨0, 0, 800⟩⟩,
        .create "b" "root" 0 false ⟨none, none, ⟨0, 0, 200⟩⟩, .create "c" "b" 0 true ⟨none, none, ⟨0, 0, 200⟩⟩] []
      let r₂ ← exec (Arrivals 100) r₁.2 [.enqueue 2 (flatPacket 100) 5, .enqueue 2 (flatPacket 100) 5,
        .enqueue 2 (flatPacket 100) 5, .enqueue 4 (flatPacket 100) 5, .enqueue 4 (flatPacket 100) 5] []
      let r ← exec (Contested 100 2 3) r₂.2 [.dequeue 7, .dequeue 7, .dequeue 8] []
      .ok ((bytesFrom r₁.2 2 r.1, bytesFrom r₁.2 3 r.1), r₁.2.classes[2]?.map Class.parent,
        r₁.2.classes[3]?.map Class.parent, decide (Active r.2 2), decide (Active r.2 3)) :
        Outcome ((Nat × Nat) × Option Nat × Option Nat × Bool × Bool)) =
      .ok ((200, 100), some 1, some 1, true, true) := by decide
  obtain ⟨h₀, made, done⟩ := Except.bind_ok_iff.mp done
  obtain ⟨⟨built, h₁⟩, creating, done⟩ := Except.bind_ok_iff.mp done
  obtain ⟨⟨arrived, h₂⟩, arriving, done⟩ := Except.bind_ok_iff.mp done
  obtain ⟨⟨trace, h⟩, sharing, done⟩ := Except.bind_ok_iff.mp done
  have run₁ := Run.start.exec creating
  have run₂ := Run.start.exec arriving
  have run₃ := Run.start.exec sharing
  simp only [Except.ok.injEq, Prod.mk.injEq, Option.map_eq_some_iff, decide_eq_true_eq] at done
  obtain ⟨bytes, ⟨ci, atI, parentI⟩, ⟨cj, atJ, parentJ⟩, activeI, activeJ⟩ := done
  exact ⟨h₀, h₁, h₂, h, built, arrived, trace, ci, cj, made, run₁, run₂, run₃, atI, atJ, Prod.ext bytes.1 bytes.2,
    shares_by_rate made run₁ run₂ run₃ activeI activeJ atI atJ (parentI.trans parentJ.symm) (by omega)⟩

end R2.Hfsc
