import R2.Hfsc.InRange
import R2.Hfsc.Scan

namespace R2

theorem Class.Timely.iff {c : Class} :
    c.Timely ↔ c.vtime < horizon ∧ c.vmin < horizon ∧ c.voff + c.vmax < horizon :=
  ⟨fun timely => ⟨timely.vtime, timely.vmin, timely.offset⟩, fun times => ⟨times.1, times.2.1, times.2.2⟩⟩

instance (c : Class) : Decidable c.Timely := decidable_of_iff _ Class.Timely.iff.symm

instance (c : Class) : Decidable c.Short := inferInstanceAs (Decidable (_ ∧ _))

/-- A class above all others, as it was created. -/
theorem Class.Ranged.top {c : Class} (top : c.parent = 0) (curve : c.rIsc = none)
    (zero : c.pvoff = 0 ∧ c.vadj = 0 ∧ c.fBytes = 0 ∧ c.vperiod = 0 ∧ c.nactive = 0 ∧ c.qdrops = 0) :
    c.Ranged 0 0 := by
  obtain ⟨pvoff, vadj, fBytes, vperiod, nactive, qdrops⟩ := zero
  exact {
    pvoff := pvoff
    fair := fun below => absurd top below
    vadj := vadj ▸ horizon_pos
    lasts := fun below => absurd top below
    real := fun r is => by rw [curve] at is; cases is
    fBytes := fBytes.le
    vperiod := vperiod.le
    nactive := nactive.le
    qdrops := qdrops.le }

theorem Class.Ranged.shiftsFit {c : Class} {calls work : Nat} (ranged : c.Ranged calls work) (short : c.Short)
    (below : c.parent ≠ 0) : c.ShiftsFit := by
  obtain ⟨_, fair, _⟩ := ranged.fair below
  refine fun x => ⟨fair.shiftFits short.1 x, fun r is => ?_⟩
  obtain ⟨_, real, _⟩ := ranged.real r is
  exact real.shiftFits (short.2 r is) x

namespace Hfsc

variable {h h₀ : Hfsc} {calls work cap : Nat} {op : HfscOp} {trace : List (HfscOp × HfscEvent)}

instance (h : Hfsc) (op : HfscOp) : Decidable (Accepted h op) :=
  match op with
  | .create _ _ _ _ curves =>
    have : Decidable (∃ api : CurvesApi, api.NonNegative ∧ unwrapCurves api = curves) :=
      decidable_of_iff curves.Small Curves.small_iff
    inferInstanceAs (Decidable (_ ∧ _))
  | .destroy _ => inferInstanceAs (Decidable (_ ∧ False))
  | .enqueue _ pkt now => inferInstanceAs (Decidable (_ ∧ pkt.len ≤ 65535 ∧ now < 2 ^ 62))
  | .dequeue now => inferInstanceAs (Decidable (_ ∧ now < 2 ^ 62))

theorem Fits.iff : Fits h op ↔ (∀ c ∈ h.classes, c.Timely) ∧ (∀ c ∈ h.classes, c.Short) ∧ ∀ u ∈ h.uses op, u.Fits :=
  ⟨fun fits => ⟨fits.timely, fits.short, fits.uses⟩, fun all => ⟨all.1, all.2.1, all.2.2⟩⟩

instance (h : Hfsc) (op : HfscOp) : Decidable (Fits h op) := decidable_of_iff _ Fits.iff.symm

theorem step_noOverflow (sound : Sound h) (range : InRange calls work cap h) (few : calls + 1 < 2 ^ 64)
    (room : cap + op.bytes < 2 ^ 62) (accepted : Accepted h op) (fits : Fits h op) :
    NoOverflow (h.step op) (fun r => ∃ work', InRange (calls + 1) work' (cap + op.bytes) r.2) := by
  have timely := Every.of_mem fits.timely
  have uses := fits.uses
  obtain ⟨_, accepted⟩ := accepted
  cases op with
  | create name parentName qlimit isLeaf curves =>
    refine (createClass_noOverflow sound.tree range (Curves.small_iff.mpr accepted)).bind fun r range' => ?_
    exact ⟨work, range'.mono (Nat.le_succ calls) le_rfl⟩
  | destroy => exact accepted.elim
  | enqueue classid pkt now =>
    exact (enqueue_noOverflow sound range timely few room accepted.2 uses).bind fun r range' => ⟨work, range'⟩
  | dequeue now =>
    refine (dequeueFrom_noOverflow sound range timely room uses).bind fun r done => ?_
    obtain ⟨work', range'⟩ := done
    exact ⟨work', range'.mono (Nat.le_succ calls) le_rfl⟩

theorem InRange.returns (range : InRange calls work cap h) (sound : Sound h) (few : calls + 1 < 2 ^ 64)
    (room : cap + op.bytes < 2 ^ 62) (accepted : Accepted h op) (fits : Fits h op) :
    (∃ event h', h.step op = .ok (event, h')) ∧ ∀ c ∈ h.classes, c.parent ≠ 0 → c.ShiftsFit := by
  refine ⟨?_, fun c member below => ?_⟩
  · obtain ⟨⟨event, h'⟩, step, _⟩ := (step_noOverflow sound range few room accepted fits).returns
      (step_spec sound accepted.1.spares)
    exact ⟨event, h', step⟩
  · obtain ⟨k, atK⟩ := List.getElem?_of_mem member
    exact (range.classes k c atK).shiftsFit (fits.short c member) below

/-- The bytes of all packets that were brought. -/
def offered (trace : List (HfscOp × HfscEvent)) : Nat := (trace.map fun e => e.1.bytes).sum

theorem offered_append (trace : List (HfscOp × HfscEvent)) (op : HfscOp) (event : HfscEvent) :
    offered (trace ++ [(op, event)]) = offered trace + op.bytes := by
  simp only [offered, List.map_append, List.sum_append, List.map_cons, List.map_nil, List.sum_cons,
    List.sum_nil, Nat.add_zero]

theorem InRange.new {bandwidth : Nat} (made : Hfsc.new bandwidth = .ok h) : InRange 0 0 0 h := by
  unfold Hfsc.new at made
  obtain ⟨c, run, made⟩ := Except.bind_ok_iff.mp made
  cases Except.ok.inj made
  obtain ⟨_, _, _, _, _, curve, _, rfl⟩ := Class.new_ok run
  cases Except.ok.inj curve
  refine ⟨Every.of_mem ?_, Every.of_mem ?_, le_rfl, le_rfl⟩
  · simp only [List.mem_cons, List.not_mem_nil, or_false, forall_eq_or_imp, forall_eq]
    exact ⟨.top rfl rfl ⟨rfl, rfl, rfl, rfl, rfl, rfl⟩, .top rfl rfl ⟨rfl, rfl, rfl, rfl, rfl, rfl⟩⟩
  · simp only [List.mem_cons, List.not_mem_nil, or_false, forall_eq_or_imp, forall_eq]
    exact ⟨le_rfl, le_rfl⟩

theorem Run.inRange {bandwidth : Nat} (made : Hfsc.new bandwidth = .ok h₀)
    (run : Run (fun h op => Accepted h op ∧ Fits h op) h₀ trace h) (few : trace.length < 2 ^ 64)
    (room : offered trace < 2 ^ 62) : Sound h ∧ ∃ work, InRange trace.length work (offered trace) h := by
  induction run with
  | start => exact ⟨Sound.new made, 0, InRange.new made⟩
  | @next trace h op event h' before allowed step ih =>
    rw [List.length_append, List.length_singleton] at few
    rw [offered_append] at room ⊢
    obtain ⟨sound, work, range⟩ := ih (by omega) (by omega)
    refine ⟨((step_spec sound allowed.1.1.spares).ok step).sound sound, ?_⟩
    rw [List.length_append, List.length_singleton]
    exact (step_noOverflow sound range few room allowed.1 allowed.2).ok step

/-- In a run of calls that the scheduler accepts, each made while the virtual times and the curves that
it touches lie before the horizon, every call returns and no shift of `rtsc_min` loses bits. The run
has less than `2 ^ 64` calls and offers at most `2 ^ 36` bytes. -/
theorem virtual_time_fits {bandwidth : Nat} (made : Hfsc.new bandwidth = .ok h₀)
    (run : Run (fun h op => Accepted h op ∧ Fits h op) h₀ trace h) (accepted : Accepted h op) (fits : Fits h op)
    (few : trace.length + 1 < 2 ^ 64) (bytes : offered trace + op.bytes ≤ 2 ^ 36) :
    (∃ event h', h.step op = .ok (event, h')) ∧ ∀ c ∈ h.classes, c.parent ≠ 0 → c.ShiftsFit := by
  obtain ⟨sound, work, range⟩ := run.inRange made (by omega) (by omega)
  exact range.returns sound few (by omega) accepted fits

theorem virtual_time_fits_two_leaves : ∃ h₀ trace h, Hfsc.new 1000000000 = .ok h₀ ∧
    Run (fun h op => Accepted h op ∧ Fits h op) h₀ trace h ∧ offered trace = 4600 ∧
    (∃ event h', h.step (.dequeue 4000) = .ok (event, h')) ∧ ∀ c ∈ h.classes, c.parent ≠ 0 → c.ShiftsFit := by
  obtain ⟨h₀, trace, h, made, run, seen⟩ := exists_run_of_exec (fun h op => Accepted h op ∧ Fits h op) 1000000000
    [.create "a" "root" 0 true ⟨some ⟨0, 10, 200000000⟩, none, ⟨800000000, 5, 300000000⟩⟩,
      .create "b" "root" 0 true ⟨none, none, ⟨0, 0, 500000000⟩⟩,
      .enqueue 2 (flatPacket 1500) 1000, .enqueue 3 (flatPacket 100) 1000, .dequeue 2000,
      .enqueue 2 (flatPacket 1500) 2500, .dequeue 3000, .enqueue 3 (flatPacket 1500) 3500]
    (fun r => (r.1.length, offered r.1, decide (Accepted r.2 (.dequeue 4000) ∧ Fits r.2 (.dequeue 4000))))
    (a := (8, 4600, true)) (by decide +kernel)
  obtain ⟨calls, bytes, allowed⟩ : trace.length = 8 ∧ offered trace = 4600 ∧ _ = true := by
    simpa only [Prod.mk.injEq] using seen
  obtain ⟨accepted, fits⟩ := of_decide_eq_true allowed
  refine ⟨h₀, trace, h, made, run, bytes, virtual_time_fits made run accepted fits (by omega) ?_⟩
  rw [bytes]
  decide

/-- A class whose fair-share curve was left all zero gets the virtual time `u64::MAX`, and the next
class that enters beside it adds that to `vmin`. -/
theorem virtual_time_overflows : ∃ h₀ trace h, Hfsc.new 1000 = .ok h₀ ∧ Run Accepted h₀ trace h ∧
    Accepted h (.enqueue 4 (flatPacket 100) 1) ∧ (trace.length, offered trace) = (11, 500) ∧
    h.step (.enqueue 4 (flatPacket 100) 1) = .error .overflow := by
  obtain ⟨h₀, trace, h, made, run, seen⟩ := exists_run_of_exec Accepted 1000
    [.create "a" "root" 0 true ⟨none, none, ⟨0, 0, 0⟩⟩, .create "b" "root" 0 true ⟨none, none, ⟨0, 0, 1000000⟩⟩,
      .create "c" "root" 0 true ⟨none, none, ⟨0, 0, 1000⟩⟩,
      .enqueue 2 (flatPacket 100) 1, .enqueue 2 (flatPacket 100) 1, .enqueue 3 (flatPacket 100) 1,
      .enqueue 3 (flatPacket 100) 1, .enqueue 3 (flatPacket 100) 1, .dequeue 1, .dequeue 1, .dequeue 1]
    (fun r => (decide (Accepted r.2 (.enqueue 4 (flatPacket 100) 1)), (r.1.length, offered r.1),
      faultOf (r.2.step (.enqueue 4 (flatPacket 100) 1)))) (a := (true, (11, 500), some .overflow))
    (by decide +kernel)
  obtain ⟨accepted, sizes, fault⟩ := Prod.mk.inj seen |>.imp_right Prod.mk.inj
  exact ⟨h₀, trace, h, made, run, of_decide_eq_true accepted, sizes, error_of_faultOf fault⟩

end Hfsc

end R2
