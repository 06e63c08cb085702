import R2.Hfsc.Attended

namespace R2.Hfsc

/-- The deadline is read off the deadline curve at the bytes the class was charged for and its first
packet, short by at most `L` bytes. -/
def Lagged (L : Nat) (c : Class) : Prop := ∀ pkt rest, c.rIsc.isSome → c.packets = pkt :: rest →
  ∃ lag, lag ≤ L ∧ lag ≤ c.fBytes ∧ rtscY2x c.dRun (c.fBytes - lag + pkt.len) = .ok c.deadline

theorem taken_unserved {k : Nat} {op : HfscOp} {event : HfscEvent} (unserved : servedClass event ≠ some k) :
    taken k (op, event) = 0 := by
  cases event with
  | dequeued served =>
    cases served with
    | none => cases op <;> rfl
    | some pair =>
      have other : pair.1 ≠ k := fun same => unserved (congrArg some same)
      simp [taken, queueEvent, QueueEvent.takenOf, other]
  | enqueued accepted => cases op <;> cases accepted <;> rfl
  | _ => cases op <;> rfl

/-- Only the packet that was just taken is left out of a deadline. -/
theorem Attended.lagged {L k : Nat} {op : HfscOp} {event : HfscEvent} {c c' : Class}
    (attended : Attended k c event c') (lagged : Lagged L c) (short : ∀ pkt ∈ c.packets, pkt.len ≤ L)
    (bytes : c'.fBytes = c.fBytes + taken k (op, event)) : Lagged L c' := by
  intro first rest realtime shape
  cases attended with
  | waits unserved waits =>
    rw [taken_unserved unserved, Nat.add_zero] at bytes
    obtain ⟨more, behind, empty⟩ := waits.behind
    rw [waits.curve] at realtime
    rw [bytes, waits.line, waits.deadline]
    cases packets : c.packets with
    | nil =>
      rw [behind, empty packets, packets] at shape
      cases shape
    | cons pkt tail =>
      rw [behind, packets, List.cons_append] at shape
      cases shape
      exact lagged first tail realtime packets
  | enters _ single due =>
    have unserved : servedClass (.enqueued true) ≠ some k := nofun
    rw [taken_unserved unserved, Nat.add_zero] at bytes
    rw [single] at shape
    cases shape
    exact ⟨0, Nat.zero_le L, Nat.zero_le _, by rw [bytes, Nat.sub_zero]; exact due realtime⟩
  | @served pkt _ packets curve due =>
    have popped : taken k (op, .dequeued (some (k, pkt))) = pkt.len := by simp [taken, queueEvent, QueueEvent.takenOf]
    rw [popped] at bytes
    rw [curve] at realtime
    refine ⟨pkt.len, short pkt (packets ▸ List.mem_cons_self ..), by omega, ?_⟩
    rw [bytes, Nat.add_sub_cancel]
    exact due first rest shape realtime

variable {g h : Hfsc}

theorem Kept.childless {k : Nat} (kept : Kept g h) (childless : Childless h k) : Childless g k := by
  intro c member
  obtain ⟨j, atJ⟩ := List.mem_iff_getElem?.mp member
  obtain ⟨c', atC', shape⟩ := kept j c atJ
  rw [← Class.parent_of_shape shape]
  exact childless.parent_ne atC'

/-- No deadline is more than a packet behind. -/
structure Behind (L : Nat) (h : Hfsc) : Prop where
  ready : Ready L h
  lagged : ∀ (k : Nat) (c : Class), h.classes[k]? = some c → Childless h k → Lagged L c

/-- A class is there before a call, or it was created by it and has no packets. -/
theorem Stepped.found {k : Nat} {op : HfscOp} {event : HfscEvent} {c' : Class} {h' : Hfsc} (sound : Sound h)
    (step : Stepped h op event h') (atK : h'.classes[k]? = some c') :
    (∃ c, h.classes[k]? = some c) ∨ c'.packets = [] := by
  have same (shape : SameShape h h') : ∃ c, h.classes[k]? = some c := by
    obtain ⟨c, atC, _⟩ := shape.2 k c' atK
    exact ⟨c, atC⟩
  cases step with
  | create step =>
    cases step with
    | refused => exact .inl ⟨c', atK⟩
    | created _ _ _ _ made =>
      obtain ⟨_, _, _, _, _, _, _, rfl⟩ := Class.new_ok made
      rcases append_iff.mp atK with old | ⟨_, rfl⟩
      · exact .inl ⟨c', old⟩
      · exact .inr rfl
  | spare => exact .inl ⟨c', atK⟩
  | enqueue step => exact .inl (same (step.sameShape sound))
  | dequeue step => exact .inl (same (step.sameShape sound))

/-- The dummy and the root have no real-time curve. -/
theorem Tree.two_le_of_realtime (tree : Tree h) {k : Nat} {c : Class} (atK : h.classes[k]? = some c)
    (realtime : c.rIsc.isSome) : 2 ≤ k := by
  by_contra small
  have cases : k = 0 ∨ k = 1 := by omega
  rcases cases with rfl | rfl
  · obtain ⟨d, atD, _, _, _, curve⟩ := tree.dummy
    rw [atK] at atD
    cases atD
    simp [curve] at realtime
  · obtain ⟨r, atR, _, curve, _⟩ := tree.top
    rw [atK] at atR
    cases atR
    simp [curve] at realtime

theorem Stepped.behind {L : Nat} {op : HfscOp} {event : HfscEvent} {h' : Hfsc} (behind : Behind L h)
    (bounded : Bounded L h op) (step : Stepped h op event h') : Behind L h' := by
  obtain ⟨ready, lagged⟩ := behind
  refine ⟨step.ready ready bounded, fun k c' atK childless pkt rest realtime packets => ?_⟩
  have two := (step.sound ready.sound).tree.two_le_of_realtime atK realtime
  have before := (step.kept ready.sound).childless childless
  rcases step.found ready.sound atK with ⟨c, atC⟩ | empty
  · obtain ⟨c₁, atC₁, attended⟩ := step.attended ready.sound atC
    rw [atK] at atC₁
    cases atC₁
    have bytes := step.bytesAt ready.sound before two
    rw [bytesAt_eq atK, bytesAt_eq atC] at bytes
    exact attended.lagged (lagged k c atC before)
      (fun pkt member => ready.short k pkt (by rw [queueOf_eq atC]; exact member)) bytes pkt rest realtime packets
  · rw [empty] at packets
    cases packets

theorem Behind.new {L bandwidth : Nat} (made : Hfsc.new bandwidth = .ok h) : Behind L h := by
  refine ⟨.new made, fun k c atK _ pkt rest _ packets => ?_⟩
  have empty := queueOf_new (i := k) made
  rw [queueOf_eq atK, packets] at empty
  cases empty

/-- A call with packets of at most `L` bytes that does not look at the clock before `t`. -/
def Later (L t : Nat) (h : Hfsc) (op : HfscOp) : Prop := Bounded L h op ∧ ∀ now, op = .dequeue now → t ≤ now

instance (L t : Nat) (h : Hfsc) (op : HfscOp) : Decidable (Later L t h op) :=
  match op with
  | .dequeue now => decidable_of_iff (t ≤ now)
      ⟨fun late => ⟨⟨trivial, nofun⟩, fun _ same => by cases same; exact late⟩, fun later => later.2 now rfl⟩
  | .create .. => .isTrue ⟨⟨trivial, nofun⟩, nofun⟩
  | .enqueue classid pkt now => decidable_of_iff (Bounded L h (.enqueue classid pkt now))
      ⟨fun bounded => ⟨bounded, nofun⟩, And.left⟩
  | .destroy index => decidable_of_iff (Bounded L h (.destroy index)) ⟨fun bounded => ⟨bounded, nofun⟩, And.left⟩

/-- A class that is due stays due, under the same times, while it is not served. -/
theorem Attended.due {t j : Nat} {event : HfscEvent} {c c' : Class} {h' : Hfsc} (attended : Attended j c event c')
    (due : Due h t j c) (atJ : h'.classes[j]? = some c') (unserved : servedClass event ≠ some j) :
    Due h' t j c' ∧ c'.eligible = c.eligible ∧ c'.deadline = c.deadline := by
  obtain ⟨_, realtime, backlogged, ready, finite⟩ := due
  cases attended with
  | waits _ waits =>
    obtain ⟨more, behind, _⟩ := waits.behind
    refine ⟨⟨atJ, waits.curve ▸ realtime, ?_, waits.eligible ▸ ready, waits.deadline ▸ finite⟩, waits.eligible,
      waits.deadline⟩
    rw [behind]
    exact List.append_ne_nil_of_left_ne_nil backlogged more
  | enters empty => exact absurd empty backlogged
  | served => exact absurd rfl unserved

/-- What has become of a class `j` that was due in `g` and waits since. -/
structure Overtaken (L t j : Nat) (g h : Hfsc) (trace : List (HfscOp × HfscEvent)) (c : Class) : Prop where
  behind : Behind L h
  due : ∃ c', Due h t j c' ∧ c'.eligible = c.eligible ∧ c'.deadline = c.deadline
  bytes : ∀ k, 2 ≤ k → Childless h k → bytesAt h k = bytesAt g k + servedBytes k trace

theorem Overtaken.of_run {L t j : Nat} {trace : List (HfscOp × HfscEvent)} {c : Class} (behind : Behind L g)
    (due : Due g t j c) (stretch : Run (Later L t) g trace h) (unserved : ∀ e ∈ trace, servedClass e.2 ≠ some j) :
    Overtaken L t j g h trace c := by
  induction stretch with
  | start => exact ⟨behind, ⟨c, due, rfl, rfl⟩, fun _ _ _ => rfl⟩
  | @next trace h op event h' _ later run ih =>
    obtain ⟨behind, ⟨c₁, due₁, eligible, deadline⟩, bytes⟩ := ih fun e member => unserved e (by simp [member])
    have step := (step_spec behind.ready.sound later.1.1).ok run
    obtain ⟨c', atC', attended⟩ := step.attended behind.ready.sound due₁.1
    have next := attended.due due₁ atC' (unserved (op, event) (by simp))
    refine ⟨step.behind behind later.1, ⟨c', next.1, next.2.1.trans eligible, next.2.2.trans deadline⟩,
      fun k two childless => ?_⟩
    have before := (step.kept behind.ready.sound).childless childless
    rw [step.bytesAt behind.ready.sound before two, bytes k two before, servedBytes_next, Nat.add_assoc]
    rfl

/-- The state in the middle of a run. -/
theorem Run.split {permitted : Hfsc → HfscOp → Prop} {first last : List (HfscOp × HfscEvent)}
    {e : HfscOp × HfscEvent} (run : Run permitted g (first ++ e :: last) h) : ∃ u u', Run permitted g first u ∧
      permitted u e.1 ∧ u.step e.1 = .ok (e.2, u') ∧ Run permitted u' last h := by
  generalize whole : first ++ e :: last = trace at run
  induction run generalizing last with
  | start => exact absurd whole (by simp)
  | @next trace h op event h' run allowed step ih =>
    rcases List.eq_nil_or_concat last with rfl | ⟨rest, d, rfl⟩
    · obtain ⟨rfl, same⟩ := List.append_inj' whole rfl
      cases same
      exact ⟨h, h', run, allowed, step, .start⟩
    · rw [List.concat_eq_append, ← List.cons_append, ← List.append_assoc] at whole
      obtain ⟨before, same⟩ := List.append_inj' whole rfl
      cases same
      obtain ⟨u, u', early, permitted, middle, later⟩ := ih before
      exact ⟨u, u', early, permitted, middle, by rw [List.concat_eq_append]; exact later.next allowed step⟩

/-- The call of `dequeue` at `now`, after the calls `first`, serves in real time a class with a deadline
that is no later; and what a leaf was served in these calls was, up to one packet, due by then on its
own curve. -/
def ServedBefore (L t now deadline : Nat) (g h : Hfsc) (first : List (HfscOp × HfscEvent)) :
    Option (Nat × Packet) → Prop
  | none => False
  | some (k, pkt) => ∃ u d, Run (Later L t) g first u ∧ MostUrgent u now k ∧ u.classes[k]? = some d ∧
      d.deadline ≤ deadline ∧ (Childless h k → ∃ lag ≤ L, lag ≤ bytesAt g k + servedBytes k first ∧
        rtscY2x d.dRun (bytesAt g k + servedBytes k first - lag + pkt.len) = .ok d.deadline)

/-- Earliest deadline first, over any stretch of a run that starts with class `j` due at `t` and does not
serve it, at times from `t` on: nothing changes the times of `j`, and every `dequeue` serves in real time
a class with a deadline no later, that gets no more than was due to it by then and one packet. -/
theorem urgent_first {bandwidth L t j : Nat} {h₀ : Hfsc} {before trace : List (HfscOp × HfscEvent)} {c : Class}
    (made : Hfsc.new bandwidth = .ok h₀) (earlier : Run (Bounded L) h₀ before g) (due : Due g t j c)
    (stretch : Run (Later L t) g trace h) (unserved : ∀ e ∈ trace, servedClass e.2 ≠ some j) :
    (∃ c', Due h t j c' ∧ c'.eligible = c.eligible ∧ c'.deadline = c.deadline) ∧
    ∀ first now served last, trace = first ++ (.dequeue now, .dequeued served) :: last →
      ServedBefore L t now c.deadline g h first served := by
  have start : Behind L g := (earlier.invariant _ (.new made) fun _ _ _ _ bounded behind step =>
    ((step_spec behind.ready.sound bounded.1).ok step).behind behind bounded)
  refine ⟨(Overtaken.of_run start due stretch unserved).due, ?_⟩
  rintro first now served last rfl
  obtain ⟨u, u', run, later, returned, rest⟩ := stretch.split
  obtain ⟨behind, ⟨c₁, due₁, _, deadline⟩, bytes⟩ :=
    Overtaken.of_run start due run fun e member => unserved e (by simp [member])
  have stepped := (step_spec behind.ready.sound later.1.1).ok returned
  have onward : Kept u h := (stepped.kept behind.ready.sound).trans
    ((rest.mono fun _ _ later => later.1.1).kept (stepped.sound behind.ready.sound))
  have stillDue : Due u now j c₁ :=
    ⟨due₁.1, due₁.2.1, due₁.2.2.1, Nat.le_trans due₁.2.2.2.1 (later.2 now rfl), due₁.2.2.2.2⟩
  have least := getMinD_spec behind.ready.sound.tree behind.ready.sound.indexed now
  have busy (idle : getMinD u now = .ok 0) : False := by
    rcases least.ok idle with ⟨_, none⟩ | ⟨some, _⟩
    · exact none j c₁ stillDue
    · exact some rfl
  cases stepped with
  | dequeue step =>
    cases step with
    | idle idle => exact (busy idle).elim
    | linkshare idle => exact (busy idle).elim
    | @realtime k d pkt tail _ _ _ atMin some atK realtime packets _ _ =>
      have urgent : MostUrgent u now k := (least.ok atMin).resolve_left (fun none => some none.1) |>.2
      obtain ⟨d', first', order⟩ := id urgent
      have same : d' = d := Option.some.inj (first'.1.symm.trans atK)
      subst same
      refine ⟨u, d', run, urgent, atK, ?_, fun childless => ?_⟩
      · rcases order j c₁ stillDue with less | ⟨same, _⟩ <;> omega
      · have two := behind.ready.sound.tree.two_le_of_realtime atK realtime
        obtain ⟨lag, atMost, fits, due⟩ := behind.lagged k d' atK (onward.childless childless) pkt tail realtime packets
        rw [← bytesAt_eq atK, bytes k two (onward.childless childless)] at fits due
        exact ⟨lag, atMost, fits, due⟩

/-- Two packets of a faster class go first. -/
theorem urgent_first_two : ∃ h₀ g h before trace c, Hfsc.new 1000 = .ok h₀ ∧ Run (Bounded 100) h₀ before g ∧
    Due g 5 3 c ∧ Run (Later 100 5) g trace h ∧ trace.map (fun e => servedClass e.2) = [some 2, some 2] ∧
    (∃ c', Due h 5 3 c' ∧ c'.eligible = c.eligible ∧ c'.deadline = c.deadline) ∧
    ∀ first now served last, trace = first ++ (.dequeue now, .dequeued served) :: last →
      ServedBefore 100 5 now c.deadline g h first served := by
  have done : (do
      let h₀ ← Hfsc.new 1000
      let r₁ ← exec (Bounded 100) h₀ [.create "a" "root" 0 true ⟨some ⟨0, 0, 5000⟩, none, ⟨0, 0, 1000⟩⟩,
        .create "b" "root" 0 true ⟨some ⟨0, 0, 500⟩, none, ⟨0, 0, 1000⟩⟩, .enqueue 2 (flatPacket 100) 5,
        .enqueue 2 (flatPacket 100) 5, .enqueue 3 (flatPacket 100) 5] []
      let r ← exec (Later 100 5) r₁.2 [.dequeue 7, .dequeue 8] []
      let c ← r₁.2.classAt 3
      .ok (decide (c.rIsc.isSome ∧ c.packets ≠ [] ∧ c.eligible ≤ 5 ∧ c.deadline < htInfinity ∧
        r.1.map (fun e => servedClass e.2) = [some 2, some 2])) : Outcome Bool) = .ok true := by decide
  obtain ⟨h₀, made, done⟩ := Except.bind_ok_iff.mp done
  obtain ⟨⟨before, g⟩, earlier, done⟩ := Except.bind_ok_iff.mp done
  obtain ⟨⟨trace, h⟩, stretch, done⟩ := Except.bind_ok_iff.mp done
  obtain ⟨c, atC, done⟩ := Except.bind_ok_iff.mp done
  obtain ⟨realtime, backlogged, ready, finite, order⟩ := of_decide_eq_true (Except.ok.inj done)
  have run₁ := Run.start.exec earlier
  have run₂ := Run.start.exec stretch
  have due : Due g 5 3 c := ⟨classAt_ok.mp atC, realtime, backlogged, ready, finite⟩
  have unserved : ∀ e ∈ trace, servedClass e.2 ≠ some 3 := by
    intro e member mine
    have listed : servedClass e.2 ∈ trace.map fun e => servedClass e.2 := List.mem_map_of_mem member
    rw [order, mine] at listed
    simp at listed
  exact ⟨h₀, g, h, before, trace, c, made, run₁, due, run₂, order, urgent_first made run₁ due run₂ unserved⟩

end R2.Hfsc
