import R2.Hfsc.Slope
import R2.Hfsc.Tracking

namespace R2.Hfsc

/-- A call that creates a class with a single fair-share slope and without a
real-time curve. -/
def SlopeCreates (_ : Hfsc) : HfscOp → Prop
  | .create _ _ _ _ curves => curves.rSc = none ∧ curves.fSc.m1 = 0 ∧ curves.fSc.d = 0 ∧ 0 < curves.fSc.m2
  | _ => False

/-- A call of `enqueue` on a leaf of the class tree with at most `L` bytes. -/
def Arrivals (L : Nat) (h : Hfsc) : HfscOp → Prop
  | .enqueue classid pkt _ => Childless h classid ∧ pkt.len ≤ L
  | _ => False

def Active (h : Hfsc) (i : Nat) : Prop := ∃ c, h.classes[i]? = some c ∧ 0 < c.nactive

/-- An arrival or a call of `dequeue` while both classes are active. -/
def Contested (L i j : Nat) (h : Hfsc) (op : HfscOp) : Prop :=
  (Arrivals L h op ∨ ∃ now, op = .dequeue now) ∧ Active h i ∧ Active h j

instance (h : Hfsc) (op : HfscOp) : Decidable (SlopeCreates h op) :=
  match op with
  | .create .. => inferInstanceAs (Decidable (_ ∧ _))
  | .destroy _ => .isFalse id
  | .enqueue .. => .isFalse id
  | .dequeue _ => .isFalse id

instance (L : Nat) (h : Hfsc) (op : HfscOp) : Decidable (Arrivals L h op) :=
  match op with
  | .enqueue .. => inferInstanceAs (Decidable (_ ∧ _))
  | .create .. => .isFalse id
  | .destroy _ => .isFalse id
  | .dequeue _ => .isFalse id

instance (h : Hfsc) (i : Nat) : Decidable (Active h i) :=
  match atI : h.classes[i]? with
  | none => .isFalse fun active => by obtain ⟨c, atC, _⟩ := active; rw [atI] at atC; cases atC
  | some c => decidable_of_iff (0 < c.nactive)
      ⟨fun pos => ⟨c, atI, pos⟩, fun active =>
        by obtain ⟨d, atD, pos⟩ := active; rw [atI] at atD; cases atD; exact pos⟩

instance (L i j : Nat) (h : Hfsc) (op : HfscOp) : Decidable (Contested L i j h op) :=
  match op with
  | .dequeue now => decidable_of_iff (Active h i ∧ Active h j) ⟨fun both => ⟨Or.inr ⟨now, rfl⟩, both⟩, And.right⟩
  | .enqueue classid pkt now => decidable_of_iff (Arrivals L h (.enqueue classid pkt now) ∧ Active h i ∧ Active h j)
      ⟨fun all => ⟨Or.inl all.1, all.2⟩,
        fun calls => ⟨calls.1.resolve_right (by rintro ⟨_, eq⟩; cases eq), calls.2⟩⟩
  | .create .. => .isFalse fun calls => (calls.1.resolve_right (by rintro ⟨_, eq⟩; cases eq)).elim
  | .destroy _ => .isFalse fun calls => (calls.1.resolve_right (by rintro ⟨_, eq⟩; cases eq)).elim

/-- The bytes of a call that came from the subtree of class `i`. -/
def bytesOf (h : Hfsc) (i : Nat) : HfscEvent → Nat
  | .dequeued (some (classid, pkt)) => if i ∈ lineage h classid then pkt.len else 0
  | _ => 0

def bytesFrom (h : Hfsc) (i : Nat) (trace : List (HfscOp × HfscEvent)) : Nat :=
  (trace.map fun e => bytesOf h i e.2).sum

variable {h : Hfsc}

theorem bytesOf_of_sameShape {g : Hfsc} (same : SameShape h g) (i : Nat) (event : HfscEvent) :
    bytesOf g i event = bytesOf h i event := by
  unfold bytesOf
  split
  · simp only [same.lineage_iff]
  · rfl

theorem bytesFrom_next (i : Nat) (trace : List (HfscOp × HfscEvent)) (op : HfscOp) (event : HfscEvent) :
    bytesFrom h i (trace ++ [(op, event)]) = bytesFrom h i trace + bytesOf h i event := by
  simp [bytesFrom]

/-- A class with a single fair-share slope and without a real-time curve under
which nothing was served yet. -/
structure Fresh (c : Class) : Prop where
  times : c.vtime = 0 ∧ c.vmin = 0 ∧ c.vmax = 0
  fBytes : c.fBytes = 0
  offsets : c.voff = 0 ∧ c.pvoff = 0 ∧ c.vadj = 0
  curve : c.fRun = runtimeInit c.fIsc 0 0
  convex : c.fIsc.sm1 ≤ c.fIsc.sm2
  flat : c.fIsc.dx = 0 ∧ c.fIsc.dy = 0
  finite : c.parent ≠ 0 → c.fIsc.ism2 ≠ htInfinity
  plain : c.rIsc = none

/-- A fresh class enters at the origin. -/
theorem Fresh.start {c c' : Class} {n pvperiod pnactive : Nat} (fresh : Fresh c)
    (run : startCurveAt (c.joinAt n 0) 0 pvperiod pnactive = .ok c') : Fresh c' := by
  obtain ⟨times, fBytes, ⟨voff, pvoff, vadj⟩, curve, convex, flat, finite, plain⟩ := fresh
  obtain ⟨f, _, atF, rest⟩ := startCurveAt_ok run
  obtain ⟨y1, _, shape⟩ := rtscMin_convex convex atF
  simp only [Class.joinAt_fBytes, Class.joinAt_vtime, Class.joinAt_pvoff, Class.joinAt_fRun, fBytes, pvoff, curve,
    Nat.not_lt_zero, false_and, Nat.zero_le, true_and, false_or, Nat.sub_zero, Nat.add_zero] at shape
  subst shape
  rcases rest with ⟨_, rfl⟩ | ⟨moved, _⟩
  · exact ⟨⟨rfl, times.2⟩, fBytes, ⟨rfl, pvoff, rfl⟩, rfl, convex, flat, finite, plain⟩
  · exact absurd (by simp [pvoff]) moved

theorem Fresh.congr {c c' : Class} (fresh : Fresh c) (held : Held c c') (marks : c'.vmin = c.vmin ∧ c'.vmax = c.vmax)
    (shape : c'.shape = c.shape) : Fresh c' := by
  obtain ⟨times, fBytes, offsets, curve, convex, flat, finite, plain⟩ := fresh
  have sameCurve := Class.fIsc_of_shape shape
  rw [← sameCurve] at curve convex flat finite
  rw [← Class.parent_of_shape shape] at finite
  exact ⟨⟨held.vtime.trans times.1, marks.1.trans times.2.1, marks.2.trans times.2.2⟩, held.fBytes.trans fBytes,
    ⟨held.voff.trans offsets.1, (Class.pvoff_of_shape shape).trans offsets.2.1, held.vadj.trans offsets.2.2⟩,
    held.fRun.trans curve, convex, flat, finite, (Class.rIsc_of_shape shape).trans plain⟩

theorem Fresh.vtime_eq {c : Class} (fresh : Fresh c) : c.vtime = 0 := fresh.times.1

theorem InitStep.fresh {g g' : Hfsc} {i : Nat} {c : Class} {next : Option Nat} (tree : Tree g) (fresh : Every Fresh g)
    (atI : g.classes[i]? = some c) (step : InitStep g i c g' next) : Every Fresh g' := by
  have freshC := fresh i c atI
  cases step with
  | top => exact fresh
  | busy => exact fresh.setClass atI (freshC.congr ⟨rfl, rfl, rfl, rfl, rfl⟩ ⟨rfl, rfl⟩ rfl)
  | @join p key m last vt c' below atP _ _ atM mean run =>
    obtain ⟨_, _, _, less⟩ := tree.parent_exists atI below
    have freshP := fresh c.parent p atP
    have zero : vt = 0 := by
      rw [freshP.times.2.1, (fresh m last atM).vtime_eq] at mean
      exact (Except.ok.inj mean).symm
    have entry : entryVtime c p vt = 0 := by
      unfold entryVtime
      rw [zero, freshC.vtime_eq]
      split <;> rfl
    rw [entry, freshP.offsets.1] at run
    exact fresh.setPair (by omega) atI atP (freshC.start run) (freshP.congr ⟨rfl, rfl, rfl, rfl, rfl⟩ ⟨rfl, rfl⟩ rfl)
  | @first p c' below atP _ _ run =>
    obtain ⟨_, _, _, less⟩ := tree.parent_exists atI below
    obtain ⟨times, fBytes, offsets, curve, convex, flat, finite, plain⟩ := fresh c.parent p atP
    rw [offsets.1, times.2.2] at run
    refine fresh.setPair (by omega) atI atP (freshC.start run) ⟨⟨times.1, rfl, rfl⟩, fBytes, ⟨?_, offsets.2⟩, curve,
      convex, flat, finite, plain⟩
    simp only [Class.withChildren_voff, Class.openPeriod_voff, offsets.1, times.2.2]

theorem initV_fresh {own : Nat → Nat} {fuel k : Nat} {g : Hfsc} (entering : Entering h own k) (fresh : Every Fresh h)
    (enough : k < fuel) (run : initV fuel h k true = .ok g) : Every Fresh g :=
  ((initV_rule (fun g _ => Every Fresh g) (Every Fresh)
    (fun _ _ _ _ _ entering atI fresh step => step.fresh entering.tree fresh atI)
    (fun _ _ _ _ entering atI fresh step => step.fresh entering.tree fresh atI) entering fresh enough).ok run).2.2

theorem EnqueueStep.fresh {k now : Nat} {pkt : Packet} {accepted : Bool} {h' : Hfsc} (sound : Sound h)
    (fresh : Every Fresh h) (step : EnqueueStep h k pkt now accepted h') : Every Fresh h' := by
  cases step with
  | refused => exact fresh
  | dropped atK => exact fresh.setClass atK ((fresh k _ atK).congr ⟨rfl, rfl, rfl, rfl, rfl⟩ ⟨rfl, rfl⟩ rfl)
  | more atK => exact fresh.put atK ((fresh k _ atK).congr ⟨rfl, rfl, rfl, rfl, rfl⟩ ⟨rfl, rfl⟩ rfl)
  | @first c g d d' atK _ empty run atD initialised =>
    obtain ⟨bound, _⟩ := List.getElem?_eq_some_iff.mp atK
    have freshG := initV_fresh (sound.entering atK empty) fresh (by simp only [walkFuel]; omega) run
    obtain ⟨_, _, _, _, rfl⟩ := initEd_keeps initialised
    exact freshG.put atD ((freshG k d atD).congr ⟨rfl, rfl, rfl, rfl, rfl⟩ ⟨rfl, rfl⟩ rfl)

theorem CreateStep.fresh {name parentName : String} {qlimit : Nat} {isLeaf : Bool} {curves : Curves}
    {result : Except String Unit} {h' : Hfsc} (fresh : Every Fresh h)
    (slope : SlopeCreates h (.create name parentName qlimit isLeaf curves))
    (step : CreateStep h name parentName qlimit isLeaf curves result h') : Every Fresh h' := by
  obtain ⟨noRealtime, m1, d, pos⟩ := slope
  cases step with
  | refused => exact fresh
  | @created parent p c _ _ atP _ run =>
    obtain ⟨rIsc, rRun, _, _, fIsc, atR, atF, rfl⟩ := Class.new_ok run
    rw [noRealtime] at atR
    obtain rfl : rIsc = none := (congrArg Prod.fst (Except.ok.inj atR)).symm
    have single : curves.fSc = ⟨0, 0, curves.fSc.m2⟩ := by
      change (⟨curves.fSc.m1, curves.fSc.d, curves.fSc.m2⟩ : Sc) = _
      rw [m1, d]
    rw [single] at atF
    obtain rfl := sc2isc_single atF
    exact fresh.append ⟨⟨rfl, rfl, rfl⟩, rfl, ⟨rfl, (fresh parent p atP).offsets.2.1, rfl⟩, rfl, by simp [m2sm_zero],
      ⟨rfl, rfl⟩, fun _ => m2ism_finite pos, rfl⟩

theorem Fresh.new {bandwidth : Nat} (made : Hfsc.new bandwidth = .ok h) : Every Fresh h := by
  unfold Hfsc.new at made
  obtain ⟨c, run, made⟩ := Except.bind_ok_iff.mp made
  cases Except.ok.inj made
  obtain ⟨rIsc, _, _, _, fIsc, atR, atF, rfl⟩ := Class.new_ok run
  cases Except.ok.inj atR
  obtain rfl := sc2isc_single atF
  intro k d atK
  match k with
  | 0 =>
    cases atK
    exact ⟨⟨rfl, rfl, rfl⟩, rfl, ⟨rfl, rfl, rfl⟩, rfl, le_rfl, ⟨rfl, rfl⟩, fun below => absurd rfl below, rfl⟩
  | 1 =>
    cases atK
    exact ⟨⟨rfl, rfl, rfl⟩, rfl, ⟨rfl, rfl, rfl⟩, rfl, by simp [m2sm_zero],
      ⟨rfl, rfl⟩, fun below => absurd rfl below, rfl⟩
  | _ + 2 => cases atK

/-- What is queued, and where. -/
structure Stocked (L : Nat) (h : Hfsc) : Prop where
  leaves : TreeLeaves h
  short : ∀ k, ∀ pkt ∈ queueOf h k, pkt.len ≤ L
  plain : ∀ (k : Nat) (c : Class), h.classes[k]? = some c → c.rIsc = none

/-- Arrivals and service keep the queues stocked. -/
theorem Stepped.stocked {L : Nat} {op : HfscOp} {event : HfscEvent} {h' : Hfsc} (sound : Sound h)
    (stocked : Stocked L h) (calls : Arrivals L h op ∨ ∃ now, op = .dequeue now) (step : Stepped h op event h') :
    Stocked L h' ∧ SameShape h h' := by
  have queues := step.queues sound
  have same : SameShape h h' := by
    cases step with
    | create => exact (calls.resolve_right (by rintro ⟨_, eq⟩; cases eq)).elim
    | spare => exact .refl
    | enqueue step => exact step.sameShape sound
    | dequeue step => exact step.sameShape sound
  have put {k : Nat} {pkt : Packet} (event_eq : queueEvent (op, event) = .put k pkt) :
      Childless h k ∧ pkt.len ≤ L := by
    cases step with
    | create => cases event_eq
    | spare => cases event_eq
    | @enqueue k' pkt' now accepted h' step =>
      cases accepted with
      | false => cases event_eq
      | true =>
        cases event_eq
        exact calls.resolve_right (by rintro ⟨_, eq⟩; cases eq)
    | @dequeue now served h' step =>
      cases served with
      | none => cases event_eq
      | some pair => cases event_eq
  refine ⟨⟨fun k nonempty => ?_, fun k pkt member => ?_, fun k c atK => ?_⟩, same⟩
  · obtain ⟨pkt, member⟩ := List.exists_mem_of_ne_nil _ nonempty
    rcases queues.mem member with old | event_eq
    · exact same.childless (stocked.leaves k (List.ne_nil_of_mem old))
    · exact same.childless (put event_eq).1
  · rcases queues.mem member with old | event_eq
    · exact stocked.short k pkt old
    · exact (put event_eq).2
  · obtain ⟨c', atC', shape⟩ := same.2 k c atK
    rw [← Class.rIsc_of_shape shape]
    exact stocked.plain k c' atC'

/-- A class that has been active since nothing was served, after `served`
bytes from its subtree. -/
structure Steady (c : Class) (served : Nat) : Prop where
  fBytes : c.fBytes = served
  place : segY2x served c.fIsc.ism2 = .ok c.vtime
  line : c.fRun.Line c.fIsc.ism2
  origin : c.fRun.x = 0 ∧ c.fRun.y = 0
  offsets : c.voff = 0 ∧ c.vadj = 0

theorem Fresh.steady {c : Class} (fresh : Fresh c) (below : c.parent ≠ 0) : Steady c 0 := by
  obtain ⟨times, fBytes, offsets, curve, _, flat, finite, _⟩ := fresh
  refine ⟨fBytes, ?_, ⟨?_, ?_, ?_, finite below⟩, ?_, offsets.1, offsets.2.2⟩
  · rw [times.1, segY2x, if_pos rfl]
  · rw [curve]; exact flat.1
  · rw [curve]; exact flat.2
  · rw [curve]; rfl
  · rw [curve]; exact ⟨rfl, rfl⟩

theorem Steady.vtime_eq {c : Class} {n : Nat} (steady : Steady c n) : c.vtime = n * c.fIsc.ism2 / 1024 :=
  segY2x_ok steady.place steady.line.finite

theorem Steady.held {c c' : Class} {n : Nat} (steady : Steady c n) (held : Held c c') (shape : c'.shape = c.shape) :
    Steady c' n := by
  obtain ⟨fBytes, place, line, origin, offsets⟩ := steady
  refine ⟨held.fBytes.trans fBytes, ?_, ?_, ?_, ?_⟩
  · rw [Class.fIsc_of_shape shape, held.vtime]; exact place
  · rw [Class.fIsc_of_shape shape, held.fRun]; exact line
  · rw [held.fRun]; exact origin
  · rw [held.voff, held.vadj]; exact offsets

/-- Service moves a steady class along its line, ahead of its parent's
`vmin`. -/
theorem Steady.picked {h' : Hfsc} {i n len : Nat} {c c' : Class} (steady : Steady c n)
    (picked : Picked h h' i len c c')
    (active : 0 < c'.nactive) (shape : c'.shape = c.shape) :
    Steady c' (n + len) ∧ c'.vtime ≤ c.vtime + len * c.fIsc.ism2 / 1024 + 1 := by
  have before := steady.vtime_eq
  obtain ⟨fBytes, _, line, origin, voff, vadj⟩ := steady
  obtain ⟨_, ⟨fBytes', moved⟩, fRun, voff', _⟩ := picked
  rcases moved with ⟨passive, _⟩ | ⟨_, x, atX, _, vtime, vadj'⟩
  · omega
  have curve := Class.fIsc_of_shape shape
  rw [fBytes] at fBytes' atX
  have place := line.segY2x origin atX
  have x_eq := segY2x_ok place line.finite
  have ahead : n * c.fIsc.ism2 / 1024 ≤ (n + len) * c.fIsc.ism2 / 1024 :=
    Nat.div_le_div_right (Nat.mul_le_mul_right _ (by omega))
  have near := div_add_le n len c.fIsc.ism2
  rw [voff, vadj, Nat.sub_zero, Nat.add_zero] at vtime vadj'
  have vtime_x : c'.vtime = x := by omega
  refine ⟨⟨fBytes', ?_, ?_, ?_, voff'.trans voff, by omega⟩, by omega⟩
  · rw [curve, vtime_x]; exact place
  · rw [curve, fRun]; exact line
  · rw [fRun]; exact origin

/-- One call, seen from a class that stays active. -/
theorem Stepped.steady {L i n : Nat} {op : HfscOp} {event : HfscEvent} {c : Class} {h' : Hfsc} (sound : Sound h)
    (floor : Floor h) (stocked : Stocked L h) (calls : Arrivals L h op ∨ ∃ now, op = .dequeue now)
    (step : Stepped h op event h') (atI : h.classes[i]? = some c) (below : c.parent ≠ 0) (active : 0 < c.nactive)
    (active' : Active h' i) (steady : Steady c n) :
    ∃ c', h'.classes[i]? = some c' ∧ c'.shape = c.shape ∧ Steady c' (n + bytesOf h i event) ∧
      (c'.vtime = c.vtime ∨ LeastChild h c.parent i ∧ c.vtime ≤ c'.vtime ∧
      c'.vtime ≤ c.vtime + L * c.fIsc.ism2 / 1024 + 1) := by
  obtain ⟨c', atC', shape⟩ := step.kept sound i c atI
  obtain ⟨d, atD, activeD⟩ := active'
  rw [atC'] at atD
  cases atD
  refine ⟨c', atC', shape, ?_⟩
  have still (held : Held c c') (none : bytesOf h i event = 0) : Steady c' (n + bytesOf h i event) ∧
      (c'.vtime = c.vtime ∨ LeastChild h c.parent i ∧ c.vtime ≤ c'.vtime ∧
        c'.vtime ≤ c.vtime + L * c.fIsc.ism2 / 1024 + 1) := by
    rw [none]
    exact ⟨steady.held held shape, Or.inl held.vtime⟩
  cases step with
  | create => exact (calls.resolve_right (by rintro ⟨_, eq⟩; cases eq)).elim
  | spare => exact (calls.resolve_right (by rintro ⟨_, eq⟩; cases eq)).elim
  | enqueue step =>
    obtain ⟨c₁, atC₁, stayed⟩ := step.stayed sound atI (fun _ => active)
    rw [atC'] at atC₁
    cases atC₁
    exact still (stayed.held (sound.guarded stocked.leaves atI below active)).1 rfl
  | @dequeue now served h' step =>
    have away (notServed : ∀ k pkt, served = some (k, pkt) → i ∉ lineage h k) : Held c c' := by
      obtain ⟨v, _, atC₁⟩ := step.away sound atI notServed
      rw [atC'] at atC₁
      cases atC₁
      exact ⟨rfl, rfl, rfl, rfl, rfl⟩
    cases served with
    | none => exact still (away fun _ _ eq => by cases eq) rfl
    | some pair =>
      obtain ⟨k, pkt⟩ := pair
      by_cases member : i ∈ lineage h k
      · have taken : pkt ∈ queueOf h k := ((Stepped.dequeue step).queues sound).taken
        obtain ⟨c₁, atC₁, picked⟩ := step.picked sound floor (stocked.leaves k (List.ne_nil_of_mem taken))
          (stocked.plain k) member atI below
        rw [atC'] at atC₁
        cases atC₁
        obtain ⟨steady', near⟩ := steady.picked picked activeD shape
        have short : pkt.len * c.fIsc.ism2 / 1024 ≤ L * c.fIsc.ism2 / 1024 :=
          Nat.div_le_div_right (Nat.mul_le_mul_right _ (stocked.short k pkt taken))
        have ahead : n * c.fIsc.ism2 / 1024 ≤ (n + pkt.len) * c.fIsc.ism2 / 1024 :=
          Nat.div_le_div_right (Nat.mul_le_mul_right _ (by omega))
        have before := steady.vtime_eq
        have after := steady'.vtime_eq
        rw [Class.fIsc_of_shape shape] at after
        simp only [bytesOf, member, if_true]
        exact ⟨steady', Or.inr ⟨picked.least, by omega, by omega⟩⟩
      · refine still (away fun _ _ eq => by cases eq; exact member) ?_
        simp only [bytesOf, member, if_false]

end R2.Hfsc
