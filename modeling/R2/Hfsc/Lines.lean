import R2.Hfsc.Floor
import R2.Hfsc.Slope

namespace R2

/-- A convex fair-share curve is only ever moved, to a point the class has
reached. -/
def Class.Lined (c : Class) : Prop :=
  c.fIsc.sm1 ≤ c.fIsc.sm2 →
    c.fRun.dx = c.fIsc.dx ∧ c.fRun.dy = c.fIsc.dy ∧ c.fRun.ism2 = c.fIsc.ism2 ∧ c.fRun.y ≤ c.fBytes

theorem Class.Lined.congr {c c' : Class} (lined : c.Lined) (fIsc : c'.fIsc = c.fIsc) (fRun : c'.fRun = c.fRun)
    (fBytes : c.fBytes ≤ c'.fBytes) : c'.Lined := by
  intro convex
  rw [fIsc] at convex
  obtain ⟨dx, dy, slope, reached⟩ := lined convex
  rw [fIsc, fRun]
  exact ⟨dx, dy, slope, reached.trans fBytes⟩

theorem Class.Lined.start {c c' : Class} {n vtime pvoff pvperiod pnactive : Nat} (lined : c.Lined)
    (run : Hfsc.startCurveAt (c.joinAt n vtime) pvoff pvperiod pnactive = .ok c') : c'.Lined := by
  obtain ⟨f, _, atF, rest⟩ := Hfsc.startCurveAt_ok run
  have moved (convex : c.fIsc.sm1 ≤ c.fIsc.sm2) :
      f.dx = c.fIsc.dx ∧ f.dy = c.fIsc.dy ∧ f.ism2 = c.fIsc.ism2 ∧ f.y ≤ c.fBytes := by
    obtain ⟨_, _, ⟨_, rfl⟩ | ⟨_, rfl⟩⟩ := rtscMin_convex convex atF
    · exact lined convex
    · obtain ⟨dx, dy, slope, _⟩ := lined convex
      exact ⟨dx, dy, slope, le_rfl⟩
  rcases rest with ⟨_, rfl⟩ | ⟨_, rfl⟩ <;> exact moved

namespace Hfsc

variable {h : Hfsc} {own : Nat → Nat}

theorem UpdateStep.lined {g g' : Hfsc} {i len : Nat} {c : Class} {passive : Bool} {next : Option (Nat × Bool)}
    (tree : Tree g) (lined : Every Class.Lined g) (atI : g.classes[i]? = some c)
    (step : UpdateStep g i c len passive g' next) : Every Class.Lined g' := by
  cases step with
  | top => exact lined
  | idle below atP =>
    obtain ⟨_, _, _, less⟩ := tree.parent_exists atI below
    exact lined.setPair (by omega) atI atP ((lined i c atI).congr rfl rfl (Nat.le_add_right ..))
      ((lined _ _ atP).congr rfl rfl le_rfl)
  | keep below atP _ _ run =>
    obtain ⟨_, _, _, less⟩ := tree.parent_exists atI below
    obtain ⟨x, _, _, rfl⟩ := advanceVtime_ok run
    exact lined.setPair (by omega) atI atP ((lined i c atI).congr rfl rfl (Nat.le_add_right ..))
      ((lined _ _ atP).congr rfl rfl le_rfl)

theorem updateV_lined {len fuel k : Nat} {passive : Bool} {g : Hfsc} (charging : Charging h own k passive)
    (lined : Every Class.Lined h) (enough : k < fuel) (run : updateV len fuel h k passive = .ok g) :
    Every Class.Lined g :=
  ((updateV_rule (fun g _ _ => Every Class.Lined g) (Every Class.Lined)
    (fun _ _ _ _ _ _ _ charging atI lined step => step.lined charging.tree lined atI)
    (fun _ _ _ _ _ _ _ _ lined => lined) charging lined enough).ok run).2.2

theorem InitStep.lined {g g' : Hfsc} {i : Nat} {c : Class} {next : Option Nat} (tree : Tree g)
    (lined : Every Class.Lined g) (atI : g.classes[i]? = some c) (step : InitStep g i c g' next) :
    Every Class.Lined g' := by
  cases step with
  | top => exact lined
  | busy => exact lined.setClass atI ((lined i c atI).congr rfl rfl le_rfl)
  | join below atP _ _ _ _ run =>
    obtain ⟨_, _, _, less⟩ := tree.parent_exists atI below
    exact lined.setPair (by omega) atI atP ((lined i c atI).start run) ((lined _ _ atP).congr rfl rfl le_rfl)
  | first below atP _ _ run =>
    obtain ⟨_, _, _, less⟩ := tree.parent_exists atI below
    exact lined.setPair (by omega) atI atP ((lined i c atI).start run) ((lined _ _ atP).congr rfl rfl le_rfl)

theorem initV_lined {fuel k : Nat} {g : Hfsc} (entering : Entering h own k) (lined : Every Class.Lined h)
    (enough : k < fuel) (run : initV fuel h k true = .ok g) : Every Class.Lined g :=
  ((initV_rule (fun g _ => Every Class.Lined g) (Every Class.Lined)
    (fun _ _ _ _ _ entering atI lined step => step.lined entering.tree lined atI)
    (fun _ _ _ _ entering atI lined step => step.lined entering.tree lined atI) entering lined enough).ok run).2.2

theorem Sound.getMinV_lined (sound : Sound h) (lined : Every Class.Lined h) {r : Nat} {g : Hfsc}
    (run : getMinV h.walkFuel h h.root = .ok (r, g)) : Every Class.Lined g := by
  intro k c atK
  obtain ⟨d, atD, _⟩ := lookup_of_fixed (sound.getMinV_ok.ok run).1 atK
  obtain ⟨v, _, atK'⟩ := (sound.getMinV_effect run).1 k d atD
  rw [atK] at atK'
  cases atK'
  exact (lined k d atD).congr rfl rfl le_rfl

theorem Stepped.lined {op : HfscOp} {event : HfscEvent} {h' : Hfsc} (sound : Sound h) (lined : Every Class.Lined h)
    (step : Stepped h op event h') : Every Class.Lined h' := by
  cases step with
  | create step =>
    cases step with
    | refused => exact lined
    | created _ _ _ _ made =>
      obtain ⟨_, _, _, _, _, _, _, rfl⟩ := Class.new_ok made
      exact lined.append fun _ => ⟨rfl, rfl, rfl, le_rfl⟩
  | spare => exact lined
  | enqueue step =>
    cases step with
    | refused => exact lined
    | dropped atI => exact lined.setClass atI ((lined _ _ atI).congr rfl rfl le_rfl)
    | more atI => exact lined.put atI ((lined _ _ atI).congr rfl rfl le_rfl)
    | first atI _ empty run atD initialised =>
      obtain ⟨bound, _⟩ := List.getElem?_eq_some_iff.mp atI
      have lined' := initV_lined (sound.entering atI empty) lined (by simp only [walkFuel]; omega) run
      obtain ⟨_, _, _, _, rfl⟩ := initEd_keeps initialised
      exact lined'.put atD ((lined' _ _ atD).congr rfl rfl le_rfl)
  | @dequeue now served h' step =>
    cases served with
    | none =>
      cases step with
      | idle _ atV => exact sound.getMinV_lined lined atV
    | some pair =>
      obtain ⟨g, g', c, d, rest, el, serving⟩ := step.serving sound
      have linedG : Every Class.Lined g := by
        rcases serving.before with ⟨rfl, _⟩ | ⟨atV, _⟩
        · exact lined
        · exact sound.getMinV_lined lined atV
      have popped : Every Class.Lined (g.put pair.1 d el g.pktsQueued) :=
        linedG.put serving.atI ((linedG _ _ serving.atI).congr (Class.fIsc_of_shape serving.shape) serving.held.fRun
          serving.held.fBytes.ge)
      obtain ⟨charging, enough⟩ := serving.charging
      have charged := updateV_lined charging popped enough serving.run
      rw [serving.result]
      exact charged

theorem Lined.new {bandwidth : Nat} (made : Hfsc.new bandwidth = .ok h) : Every Class.Lined h := by
  unfold Hfsc.new at made
  obtain ⟨c, run, made⟩ := Except.bind_ok_iff.mp made
  cases Except.ok.inj made
  obtain ⟨_, _, _, _, _, _, _, rfl⟩ := Class.new_ok run
  intro k d atK
  match k with
  | 0 => cases atK; exact fun _ => ⟨rfl, rfl, rfl, le_rfl⟩
  | 1 => cases atK; exact fun _ => ⟨rfl, rfl, rfl, le_rfl⟩
  | _ + 2 => cases atK

end Hfsc

end R2
