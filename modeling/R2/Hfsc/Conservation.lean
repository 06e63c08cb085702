import R2.Base.Queues
import R2.Hfsc.Scan

namespace R2.Hfsc

/-- What a call did to the queues. -/
def queueEvent : HfscOp × HfscEvent → QueueEvent Nat Packet
  | (.enqueue classid pkt _, .enqueued true) => .put classid pkt
  | (_, .dequeued (some (classid, pkt))) => .take classid pkt
  | _ => .quiet

/-- The packets `enqueue` accepted for a class, in the order of the calls. -/
def accepted (i : Nat) (trace : List (HfscOp × HfscEvent)) : List Packet :=
  (trace.map queueEvent).filterMap (QueueEvent.putOf i)

/-- The packets `dequeue` popped from a class, in the order of the calls. -/
def served (i : Nat) (trace : List (HfscOp × HfscEvent)) : List Packet :=
  (trace.map queueEvent).filterMap (QueueEvent.takenOf i)

variable {h : Hfsc}

theorem queueOf_update {h' : Hfsc} {i : Nat} {leaf : Bool} {packets : List Packet}
    (cells : cellAt h' = Function.update (cellAt h) i (some (leaf, packets))) :
    queueOf h' = Function.update (queueOf h) i packets := by
  funext j
  rw [queueOf, cells]
  by_cases same : j = i
  · subst same
    rw [Function.update_self, Function.update_self]
    rfl
  · rw [Function.update_of_ne same, Function.update_of_ne same]
    rfl

/-- The scheduler refines a bank of queues. -/
theorem Stepped.queues {op : HfscOp} {event : HfscEvent} {h' : Hfsc} (sound : Sound h)
    (step : Stepped h op event h') : QueueEvent.Step (queueOf h) (queueEvent (op, event)) (queueOf h') := by
  have quiet {h' : Hfsc} (same : cellAt h' = cellAt h) : queueOf h' = queueOf h := by
    funext j
    rw [queueOf, queueOf, same]
  cases step with
  | @create _ _ _ _ _ _ h' step =>
    have same : queueOf h' = queueOf h := by
      rcases step.cells with same | cells
      · exact quiet same
      · rw [queueOf_update cells]
        refine Function.update_eq_self_iff.mpr ?_
        rw [queueOf, cellAt, List.getElem?_eq_none le_rfl]
        rfl
    rw [same]
    exact .quiet
  | spare => exact .quiet
  | enqueue step =>
    rcases step.cells sound with ⟨rfl, same⟩ | ⟨rfl, c, atI, _, cells⟩
    · rw [quiet same]
      exact .quiet
    · rw [queueOf_update cells, ← queueOf_eq atI]
      exact .put
  | dequeue step =>
    rcases step.cells sound with ⟨rfl, same⟩ | ⟨i, pkt, rest, c, rfl, atI, packets, cells⟩
    · rw [quiet same]
      exact .quiet
    · rw [queueOf_update cells]
      exact .take ((queueOf_eq atI).trans packets)

theorem Run.queues {start : Hfsc} {trace : List (HfscOp × HfscEvent)} (sound : Sound start)
    (run : Run Spares start trace h) : QueueEvent.Steps (queueOf start) (trace.map queueEvent) (queueOf h) := by
  induction run with
  | start => exact .start
  | next before spares step ih =>
    have sound' := before.sound sound
    rw [List.map_append, List.map_singleton]
    exact .next ih (((step_spec sound' spares).ok step).queues sound')

/-- Nothing is served exactly when nothing is queued. -/
theorem DequeueStep.none_iff {t : Nat} {served : Option (Nat × Packet)} {h' : Hfsc} (sound : Sound h)
    (queues : LeafQueues h) (step : DequeueStep h t served h') : served = none ↔ h.pktsQueued = 0 := by
  constructor
  · rintro rfl
    cases step.scan sound queues with
    | idle _ bottom => exact sound.idle queues bottom
  · intro zero
    rcases step.cells sound with ⟨none, _⟩ | ⟨i, pkt, rest, c, _, atI, packets, _⟩
    · exact none
    · have some := queued_pos atI (by rw [packets]; exact List.cons_ne_nil _ _)
      rw [← sound.counted] at some
      omega

theorem queueOf_new {bandwidth : Nat} (made : Hfsc.new bandwidth = .ok h) (i : Nat) : queueOf h i = [] := by
  unfold Hfsc.new at made
  obtain ⟨c, run, made⟩ := Except.bind_ok_iff.mp made
  cases Except.ok.inj made
  obtain ⟨_, _, _, _, _, _, _, rfl⟩ := Class.new_ok run
  match i with
  | 0 => rfl
  | 1 => rfl
  | _ + 2 => rfl

/-- In every run from a new scheduler whose calls hand packets to leaves only, each class gives out
what it took, in order, and what it has not given out yet is queued. The next call does not panic,
and a `dequeue` that returns finds no packet only when none is queued. -/
theorem conserves {bandwidth : Nat} {h₀ : Hfsc} {trace : List (HfscOp × HfscEvent)}
    (made : Hfsc.new bandwidth = .ok h₀) (run : Run LeafCalls h₀ trace h) :
    h.pktsQueued = queued h ∧
    (∀ i, accepted i trace = served i trace ++ queueOf h i) ∧
    (∀ op, LeafCalls h op → NoPanic (h.step op) (fun _ => True)) ∧
    ∀ now pkt h', h.dequeue now = .ok (pkt, h') → (pkt = none ↔ h.pktsQueued = 0) := by
  obtain ⟨sound, queues⟩ := run.leafQueues (Sound.new made) (leafQueues_new made)
  refine ⟨sound.counted, fun i => ?_, fun op calls => ?_, fun now pkt h' returned => ?_⟩
  · have spares := run.mono (fun _ _ calls => calls.spares)
    have conserved := (spares.queues (Sound.new made)).conserved i
    rwa [queueOf_new made, List.nil_append] at conserved
  · exact (step_spec sound calls.spares).mono fun _ _ => trivial
  · obtain ⟨⟨served, g⟩, from_run, returned⟩ := Except.bind_ok_iff.mp returned
    cases Except.ok.inj returned
    rw [← ((dequeueFrom_spec sound now).ok from_run).none_iff sound queues]
    exact Option.map_eq_none_iff

theorem conserves_two_packets : ∃ h₀ trace h, Hfsc.new 1000 = .ok h₀ ∧ Run LeafCalls h₀ trace h ∧
    ((accepted 2 trace).length, h.pktsQueued) = (2, 2) ∧ accepted 2 trace = served 2 trace ++ queueOf h 2 := by
  obtain ⟨h₀, trace, h, made, run, seen⟩ := exists_run_of_exec LeafCalls 1000
    [.create "a" "root" 0 true ⟨some ⟨0, 0, 5000⟩, none, ⟨0, 0, 1000⟩⟩,
      .create "b" "root" 0 true ⟨none, none, ⟨0, 0, 500⟩⟩,
      .enqueue 2 (flatPacket 100) 5, .enqueue 3 (flatPacket 100) 7, .dequeue 9, .enqueue 2 (flatPacket 60) 11]
    (fun r => ((accepted 2 r.1).length, r.2.pktsQueued)) (a := (2, 2)) (by decide)
  exact ⟨h₀, trace, h, made, run, seen, (conserves made run).2.1 2⟩

end R2.Hfsc
