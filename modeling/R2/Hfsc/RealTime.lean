import R2.Hfsc.Reachable

namespace R2.Hfsc

/-- While the class is backlogged its eligible time and its deadline are read
off the real-time curves at the bytes it was served in real time. -/
def Punctual (c : Class) : Prop := ∀ pkt rest, c.rIsc.isSome → c.packets = pkt :: rest →
  rtscY2x c.eRun c.rBytes = .ok c.eligible ∧ rtscY2x c.dRun (c.rBytes + pkt.len) = .ok c.deadline

def OnSchedule (h : Hfsc) : Prop := ∀ (i : Nat) (c : Class), h.classes[i]? = some c → Punctual c

/-- When the counter that `init_ed`, `update_ed` and `update_d` read, `fBytes`,
holds the value that the real-time counter `rBytes` has once the call is over. -/
def CountersAgree (h : Hfsc) : HfscOp → Prop
  | .create .. => True
  | .destroy _ => False
  | .enqueue classid _ _ =>
    ∀ c, h.classes[classid]? = some c → c.rIsc.isSome → c.packets = [] → c.fBytes = c.rBytes
  | .dequeue now => ∀ (i : Nat) (c : Class) (pkt next : Packet) (more : List Packet),
    h.classes[i]? = some c → c.rIsc.isSome → c.packets = pkt :: next :: more →
      (getMinD h now = .ok i → c.fBytes = c.rBytes + pkt.len) ∧
      ((getMinD h now = .ok 0 ∧ ∃ g, getMinV h.walkFuel h h.root = .ok (i, g)) → c.fBytes = c.rBytes)

theorem CountersAgree.spares {h : Hfsc} {op : HfscOp} (agree : CountersAgree h op) : Spares h op := by
  cases op with
  | destroy => exact agree.elim
  | _ => trivial

theorem Punctual.of_fixed {c c' : Class} (punctual : Punctual c) (same : c'.fixed = c.fixed) : Punctual c' := by
  have cleared : Punctual c.fixed := punctual
  rw [← same] at cleared
  exact cleared

theorem OnSchedule.of_fixed {h h' : Hfsc} (schedule : OnSchedule h) (same : h'.fixed = h.fixed) : OnSchedule h' := by
  intro i c' atI
  obtain ⟨c, atC, eq⟩ := lookup_of_fixed same atI
  exact (schedule i c atC).of_fixed eq

theorem OnSchedule.set {h h' : Hfsc} {i : Nat} {c c' : Class} (schedule : OnSchedule h) (atI : h.classes[i]? = some c)
    (classes : h'.classes = (h.setClass i c').classes) (punctual : Punctual c') : OnSchedule h' := by
  intro j d atJ
  rw [classes] at atJ
  rcases (setClass_iff atI).mp atJ with ⟨_, rfl⟩ | ⟨_, old⟩
  · exact punctual
  · exact schedule j d old

/-- A walk that leaves every byte count as it found it. -/
def SameBytes (h g : Hfsc) : Prop :=
  ∀ (j : Nat) (d : Class), g.classes[j]? = some d → ∃ c, h.classes[j]? = some c ∧ d.fBytes = c.fBytes

theorem SameBytes.setClass {h g : Hfsc} {i : Nat} {c c' : Class} (same : SameBytes h g) (atI : g.classes[i]? = some c)
    (bytes : c'.fBytes = c.fBytes) : SameBytes h (g.setClass i c') := by
  intro j d atJ
  rcases (setClass_iff atI).mp atJ with ⟨rfl, rfl⟩ | ⟨_, old⟩
  · obtain ⟨c₀, atC, eq⟩ := same j c atI
    exact ⟨c₀, atC, bytes.trans eq⟩
  · exact same j d old

theorem SameBytes.eq_at {h g : Hfsc} {i : Nat} {c c' : Class} (same : SameBytes h g) (atI : h.classes[i]? = some c)
    (atI' : g.classes[i]? = some c') : c'.fBytes = c.fBytes := by
  obtain ⟨d, atD, eq⟩ := same i c' atI'
  rw [atI] at atD
  cases atD
  exact eq

variable {h : Hfsc}

theorem Sound.initV_bytes (sound : Sound h) {i : Nat} {c : Class} {g : Hfsc} (atI : h.classes[i]? = some c)
    (empty : c.packets = []) (run : initV h.walkFuel h i true = .ok g) : SameBytes h g := by
  obtain ⟨bound, _⟩ := List.getElem?_eq_some_iff.mp atI
  have start : SameBytes h h := fun j d atJ => ⟨d, atJ, rfl⟩
  refine ((initV_rule (fun g _ => SameBytes h g) (fun g => SameBytes h g) ?_ ?_
    (sound.entering atI empty) start (by simp only [walkFuel]; omega)).ok run).2.2
  · intro g j d g' p entering atJ same step
    cases step with
    | join below atP _ _ _ _ run =>
      obtain ⟨_, _, _, less⟩ := entering.tree.parent_exists atJ below
      have bytes := (startCurveAt_keeps run).2.2.2.2.1
      exact (same.setClass atJ bytes).setClass ((setClass_other (by omega)).trans atP) rfl
    | first below atP _ _ run =>
      obtain ⟨_, _, _, less⟩ := entering.tree.parent_exists atJ below
      have bytes := (startCurveAt_keeps run).2.2.2.2.1
      exact (same.setClass atJ bytes).setClass ((setClass_other (by omega)).trans atP) rfl
  · intro g j d g' entering atJ same step
    cases step with
    | top => exact same
    | busy => exact same.setClass atJ rfl

theorem Sound.getMinV_bytes (sound : Sound h) {r : Nat} {g : Hfsc} (run : getMinV h.walkFuel h h.root = .ok (r, g)) :
    SameBytes h g := by
  obtain ⟨root, atRoot, _⟩ := sound.tree.top
  rw [← sound.tree.root] at atRoot
  have start : SameBytes h h := fun j d atJ => ⟨d, atJ, rfl⟩
  obtain ⟨_, _, _, _, same, _⟩ := (getMinV_rule (fun g _ => SameBytes h g)
    (fun g p pc j c _ _ same atP _ _ _ => same.setClass atP rfl) sound.tree sound.wired start atRoot
    (by rw [sound.tree.root]) .root (by simp only [walkFuel]; omega)).ok run
  exact same

theorem EnqueueStep.onSchedule {i now : Nat} {pkt : Packet} {accepted : Bool} {h' : Hfsc} (sound : Sound h)
    (schedule : OnSchedule h) (agree : CountersAgree h (.enqueue i pkt now))
    (step : EnqueueStep h i pkt now accepted h') : OnSchedule h' := by
  cases step with
  | refused => exact schedule
  | dropped atI =>
    exact schedule.set atI rfl fun pkt rest realtime packets => schedule i _ atI pkt rest realtime packets
  | @more c atI _ backlogged =>
    refine schedule.set atI rfl fun first rest realtime packets => ?_
    obtain ⟨head, tail, shape⟩ := List.exists_cons_of_ne_nil backlogged
    rw [Class.withPackets_packets, shape, List.cons_append] at packets
    obtain ⟨rfl, _⟩ := List.cons.inj packets
    exact schedule i c atI head tail realtime shape
  | @first c g d d' atI inUse empty run atD initialised =>
    obtain ⟨fixed, _⟩ := (sound.initV_ok atI empty).ok run
    refine (schedule.of_fixed fixed).set atD rfl fun first rest realtime packets => ?_
    rw [Class.withPackets_packets] at packets
    obtain ⟨rfl, _⟩ := List.cons.inj packets
    have same := fixed_at fixed atI atD
    have bytes := (sound.initV_bytes atI empty run).eq_at atI atD
    cases curve : d.rIsc with
    | none =>
      rw [initEd_none curve] at initialised
      cases Except.ok.inj initialised
      rw [Class.withPackets_rIsc, curve] at realtime
      cases realtime
    | some isc =>
      obtain ⟨dRun, eligible, deadline, _, atE, atDeadline, rfl⟩ := initEd_some curve initialised
      have counters : c.fBytes = c.rBytes :=
        agree c atI (by rw [← Class.rIsc_of_fixed same, curve]; rfl) empty
      have served : d.rBytes = c.rBytes := by simpa using congrArg Class.rBytes same
      rw [bytes, counters, ← served] at atE atDeadline
      exact ⟨atE, atDeadline⟩

theorem DequeueStep.onSchedule {t : Nat} {served : Option (Nat × Packet)} {h' : Hfsc} (sound : Sound h)
    (schedule : OnSchedule h) (agree : CountersAgree h (.dequeue t)) (step : DequeueStep h t served h') :
    OnSchedule h' := by
  cases step with
  | idle _ atV => exact schedule.of_fixed (sound.getMinV_ok.ok atV).1
  | @realtime i c pkt rest d el g atMin some atI realtime packets next run =>
    obtain ⟨place, packets'⟩ := next.place
    obtain ⟨fixed, _⟩ := (sound.pop atI (Nat.pos_of_ne_zero some) packets place packets'
      (next.indexed sound.indexed atI realtime)).ok run
    have punctual : Punctual d := by
      intro head tail _ shape
      rw [packets'] at shape
      subst shape
      cases next with
      | next updated =>
        obtain ⟨eligible, deadline, atE, _, atD, rfl⟩ := updateEd_ok.mp updated
        have counters := (agree i c pkt head tail atI realtime packets).1 atMin
        rw [Class.popRealtime_fBytes, counters] at atE atD
        exact ⟨atE, atD⟩
    have popped : OnSchedule (h.put i d el h.pktsQueued) := schedule.set atI rfl punctual
    have charged : OnSchedule g := popped.of_fixed fixed
    exact charged
  | @linkshare i g c pkt rest d el g' atMin atV some atI packets next run =>
    obtain ⟨fixedV, sound', _⟩ := sound.getMinV_ok.ok atV
    obtain ⟨place, packets'⟩ := next.place
    obtain ⟨fixed, _⟩ := (sound'.pop atI (Nat.pos_of_ne_zero some) packets place packets'
      (next.indexed sound'.indexed atI packets)).ok run
    have schedule' := schedule.of_fixed fixedV
    have punctual : Punctual d := by
      intro head tail realtime shape
      rw [packets'] at shape
      subst shape
      cases next with
      | plain curve =>
        rw [Class.withPackets_rIsc] at curve realtime
        rw [curve] at realtime
        cases realtime
      | next realtime' updated =>
        obtain ⟨deadline, _, atD, rfl⟩ := updateD_ok.mp updated
        obtain ⟨c₀, atC₀, same⟩ := lookup_of_fixed fixedV atI
        have bytes := (sound.getMinV_bytes atV).eq_at atC₀ atI
        rw [Class.withPackets_rIsc] at realtime'
        have counters := (agree i c₀ pkt head tail atC₀ (by rw [← Class.rIsc_of_fixed same]; exact realtime')
          ((Class.packets_of_fixed same).symm.trans packets)).2 ⟨atMin, g, atV⟩
        have served : c.rBytes = c₀.rBytes := by simpa using congrArg Class.rBytes same
        rw [Class.withPackets_fBytes, bytes, counters, ← served] at atD
        exact ⟨(schedule' i c atI pkt (head :: tail) realtime' packets).1, atD⟩
    have popped : OnSchedule (g.put i d el g.pktsQueued) := schedule'.set atI rfl punctual
    have charged : OnSchedule g' := popped.of_fixed fixed
    exact charged

theorem OnSchedule.new {bandwidth : Nat} (made : Hfsc.new bandwidth = .ok h) : OnSchedule h := by
  unfold Hfsc.new at made
  obtain ⟨c, run, made⟩ := Except.bind_ok_iff.mp made
  cases Except.ok.inj made
  obtain ⟨_, _, _, _, _, _, _, rfl⟩ := Class.new_ok run
  intro i c atI pkt rest _ packets
  match i with
  | 0 => cases atI; cases packets
  | 1 => cases atI; cases packets
  | _ + 2 => cases atI

/-- In every run from a new scheduler in which `f_bytes` and `r_bytes` agree at each call that computes
an eligible time or a deadline from them, all real-time classes are on schedule: the times are those
of the bytes that a class was served by the real-time criterion. -/
theorem onSchedule_of_countersAgree {bandwidth : Nat} {h₀ : Hfsc} {trace : List (HfscOp × HfscEvent)}
    (made : Hfsc.new bandwidth = .ok h₀) (run : Run CountersAgree h₀ trace h) : OnSchedule h := by
  refine (run.invariant (fun h => Sound h ∧ OnSchedule h) ⟨Sound.new made, OnSchedule.new made⟩ ?_).2
  intro h op event h' agree both step
  obtain ⟨sound, schedule⟩ := both
  have stepped := (step_spec sound agree.spares).ok step
  refine ⟨stepped.sound sound, ?_⟩
  cases stepped with
  | create step =>
    cases step with
    | refused => exact schedule
    | created _ _ _ _ made =>
      obtain ⟨_, _, _, _, _, _, _, rfl⟩ := Class.new_ok made
      intro i c atI
      rcases append_iff.mp atI with old | ⟨_, rfl⟩
      · exact schedule i c old
      · intro pkt rest _ packets
        cases packets
  | spare => exact schedule
  | enqueue step => exact step.onSchedule sound schedule agree
  | dequeue step => exact step.onSchedule sound schedule agree

/-- A class that is drained in real time before its next packet arrives keeps
both counters equal. -/
theorem onSchedule_of_countersAgree_drained : ∃ h₀ trace h, Hfsc.new 1000 = .ok h₀ ∧ Run CountersAgree h₀ trace h ∧
    h.classes[2]?.map (fun c => (c.rBytes, c.packets.length)) = some (100, 1) ∧ OnSchedule h := by
  let short : Hfsc → HfscOp → Bool := fun h op => match op with
    | .create .. => true
    | .destroy _ => false
    | .enqueue .. => h.classes.all fun c => c.fBytes == c.rBytes || c.rIsc.isNone
    | .dequeue _ => h.classes.all fun c => decide (c.packets.length ≤ 1)
  have enough (h : Hfsc) (op : HfscOp) (ok : short h op = true) : CountersAgree h op := by
    cases op with
    | create => trivial
    | destroy => cases ok
    | enqueue classid pkt now =>
      intro c atI realtime _
      have each := List.all_eq_true.mp ok c (List.mem_of_getElem? atI)
      simpa [Option.isSome_iff_ne_none.mp realtime] using each
    | dequeue now =>
      intro i c pkt next more atI _ packets
      have each := List.all_eq_true.mp ok c (List.mem_of_getElem? atI)
      simp [packets] at each
  obtain ⟨h₀, trace, h, made, run, seen⟩ := exists_run_of_exec (fun h op => short h op = true)
    1000
    [.create "a" "root" 0 true ⟨some ⟨0, 0, 5000⟩, none, ⟨0, 0, 1000⟩⟩,
      .enqueue 2 (flatPacket 100) 5, .dequeue 7, .enqueue 2 (flatPacket 60) 9]
    (fun r => r.2.classes[2]?.map fun c => (c.rBytes, c.packets.length)) (a := some (100, 1)) (by decide)
  have agree := run.mono enough
  exact ⟨h₀, trace, h, made, agree, seen, onSchedule_of_countersAgree made agree⟩

/-- After a real-time service of 100 bytes the eligible time is still the one
at 0 bytes, because `update_ed` reads a counter that moves later. -/
theorem eligible_behind_realtime_service : ∃ h₀ trace h, Hfsc.new 1000 = .ok h₀ ∧ Run LeafCalls h₀ trace h ∧
    h.classes[2]?.map (fun c => (c.eligible, c.rBytes)) = some (5, 100) ∧ ¬ OnSchedule h := by
  obtain ⟨h₀, trace, h, made, run, seen⟩ := exists_run_of_exec LeafCalls 1000
    [.create "a" "root" 0 true ⟨some ⟨0, 0, 5000⟩, none, ⟨0, 0, 1000⟩⟩,
      .enqueue 2 (flatPacket 100) 5, .enqueue 2 (flatPacket 100) 5, .dequeue 5]
    (fun r => r.2.classes[2]?.map fun c =>
      ((c.eligible, c.rBytes), (rtscY2x c.eRun c.rBytes).toOption, c.rIsc.isSome, c.packets.length))
    (a := some ((5, 100), some 160000005, true, 1)) (by decide)
  dsimp only at seen
  obtain ⟨c, atI, values⟩ := Option.map_eq_some_iff.mp seen
  simp only [Prod.mk.injEq] at values
  obtain ⟨⟨eligible, rBytes⟩, curve, realtime, length⟩ := values
  refine ⟨h₀, trace, h, made, run, by rw [atI, Option.map_some, eligible, rBytes], fun schedule => ?_⟩
  obtain ⟨pkt, rest, packets⟩ := List.exists_cons_of_length_eq_add_one (n := 0) length
  have due := (schedule 2 c atI pkt rest realtime packets).1
  rw [Except.ok_of_toOption curve, eligible] at due
  cases due

end R2.Hfsc
