import R2.Hfsc.Offsets

namespace R2.Hfsc

variable {l : Ledger} {h g : Hfsc}

theorem Tracked.new {bandwidth : Nat} (made : Hfsc.new bandwidth = .ok h) : Tracked .fresh h := by
  unfold Hfsc.new at made
  obtain ⟨c, run, made⟩ := Except.bind_ok_iff.mp made
  cases Except.ok.inj made
  obtain ⟨_, _, _, _, _, _, _, rfl⟩ := Class.new_ok run
  have follows (i : Nat) (c : Class) (none : c.children = ∅) : Ledger.fresh.Follows i c :=
    ⟨by rw [none]; rfl, nofun, fun some => absurd rfl some, fun _ some => nomatch some⟩
  refine ⟨fun i c atI => ?_, fun _ _ => ⟨rfl, rfl⟩⟩
  match i with
  | 0 => cases atI; exact follows 0 _ rfl
  | 1 => cases atI; exact follows 1 _ rfl
  | _ + 2 => cases atI

theorem CreateStep.tracked {name parentName : String} {qlimit : Nat} {isLeaf : Bool} {curves : Curves}
    {result : Except String Unit} {h' : Hfsc} (step : CreateStep h name parentName qlimit isLeaf curves result h')
    (tracked : Tracked l h) : Tracked l h' := by
  cases step with
  | refused => exact tracked
  | created _ _ _ _ made =>
    obtain ⟨_, _, _, _, _, _, _, rfl⟩ := Class.new_ok made
    refine ⟨fun i c atI => ?_, fun i outside => ?_⟩
    · rcases append_iff.mp atI with atI | ⟨rfl, rfl⟩
      · exact tracked.listed i c atI
      · obtain ⟨active, offset⟩ := tracked.beyond _ (Nat.le_refl _)
        exact ⟨active, by rw [offset]; exact nofun, fun some => absurd active some,
          by rw [offset]; exact fun _ some => nomatch some⟩
    · rw [List.length_append] at outside
      exact tracked.beyond i (by omega)

theorem EnqueueStep.tracked {k now : Nat} {pkt : Packet} {accepted : Bool} {h' : Hfsc} (sound : Sound h)
    (tracked : Tracked l h) (step : EnqueueStep h k pkt now accepted h')
    (keeps : l.Along Ledger.Keeps (h.callLog (.enqueue k pkt now, .enqueued accepted))) :
    l.Along Ledger.OneOffset (h.callLog (.enqueue k pkt now, .enqueued accepted)) ∧
      Tracked (l.noteAll (h.callLog (.enqueue k pkt now, .enqueued accepted))) h' := by
  cases step with
  | refused => exact ⟨trivial, tracked⟩
  | dropped atK => exact ⟨trivial, tracked.setClass atK rfl rfl rfl⟩
  | @more c atK _ some =>
    have quiet : h.callLog (.enqueue k pkt now, .enqueued true) = [] := by
      simp only [callLog, queueOf_eq atK, List.isEmpty_eq_false_iff.mpr some]
      rfl
    rw [quiet]
    exact ⟨trivial, tracked.put atK rfl rfl rfl⟩
  | @first c g d d' atK _ empty run atD initialised =>
    have log : h.callLog (.enqueue k pkt now, .enqueued true) = initLog h.walkFuel h k := by
      simp only [callLog, queueOf_eq atK, empty, List.isEmpty_nil, if_true]
    rw [log] at keeps ⊢
    obtain ⟨inside, _⟩ := List.getElem?_eq_some_iff.mp atK
    obtain ⟨right, tracked'⟩ := initV_tracked (sound.entering atK empty) tracked
      (by simp only [walkFuel]; omega) run keeps
    obtain ⟨_, _, _, _, rfl⟩ := initEd_keeps initialised
    exact ⟨right, tracked'.put atD rfl rfl rfl⟩

theorem VminRaised.back (raised : VminRaised h g) (same : g.classes.length = h.classes.length) {j : Nat} {e : Class}
    (atJ : g.classes[j]? = some e) : ∃ e₀ v, h.classes[j]? = some e₀ ∧ e = e₀.withVmin v := by
  obtain ⟨inside, _⟩ := List.getElem?_eq_some_iff.mp atJ
  have atJ₀ : h.classes[j]? = some (h.classes.get ⟨j, by omega⟩) := List.getElem?_eq_getElem (by omega)
  obtain ⟨v, _, atJ'⟩ := raised j _ atJ₀
  exact ⟨_, v, atJ₀, Option.some.inj (atJ.symm.trans atJ')⟩

theorem Tracked.raised (tracked : Tracked l h) (raised : VminRaised h g)
    (same : g.classes.length = h.classes.length) : Tracked l g := by
  refine ⟨fun j e atJ => ?_, fun j outside => tracked.beyond j (same ▸ outside)⟩
  obtain ⟨e₀, v, atJ₀, rfl⟩ := raised.back same atJ
  exact (tracked.listed j e₀ atJ₀).congr (l.agree_refl j) rfl (fun _ => rfl) rfl

/-- A class is served: its packet is taken, and `update_v` walks up from it. -/
theorem Tracked.serves {k n len : Nat} {c d : Class} {pkt : Packet} {rest : List Packet} {el : KeyMap} {g' : Hfsc}
    (sound : Sound g) (tracked : Tracked l g) (raised : VminRaised h g) (same : g.classes.length = h.classes.length)
    (atK : g.classes[k]? = some c) (pos : 1 ≤ k) (packets : c.packets = pkt :: rest) (place : SamePlace d c)
    (left : d.packets = rest) (voff : d.voff = c.voff) (vmax : d.vmax = c.vmax)
    (run : updateV len g.walkFuel (g.put k d el n) k rest.isEmpty = .ok g') :
    Tracked (l.noteAll (if rest.isEmpty then idleLog h.walkFuel h k else [])) g' := by
  have fuel : g.walkFuel = h.walkFuel := congrArg (· + 1) same
  obtain ⟨inside, _⟩ := List.getElem?_eq_some_iff.mp atK
  rw [← fuel]
  have popped : Tracked l (g.put k d el n) := tracked.put atK place.children voff vmax
  refine updateV_tracked (sound.charging atK pos packets place left) popped (fun _ => ⟨?_, ?_⟩)
    (by simp only [walkFuel]; omega) run
  · intro e atE
    have isD : e = d := Option.some.inj (atE.symm.trans (setClass_self atK))
    obtain ⟨c₀, v, atK₀, rfl⟩ := raised.back same atK
    rw [isD, place.parent, place.nactive, place.vtime]
    exact ⟨c₀, atK₀, rfl, rfl, rfl⟩
  · intro j lower e atE
    obtain ⟨e₀, v, atJ₀, rfl⟩ := raised.back same ((setClass_other (by omega)).symm.trans atE)
    exact ⟨e₀, atJ₀, rfl, rfl, rfl, rfl⟩

theorem DequeueStep.tracked {t : Nat} {served : Option (Nat × Packet)} {h' : Hfsc} (sound : Sound h)
    (tracked : Tracked l h) (step : DequeueStep h t served h') :
    Tracked (l.noteAll (h.callLog (.dequeue t, .dequeued served))) h' := by
  have log {k : Nat} {pkt : Packet} {rest : List Packet} (queue : queueOf h k = pkt :: rest) :
      h.callLog (.dequeue t, .dequeued (some (k, pkt))) = if rest.isEmpty then idleLog h.walkFuel h k else [] := by
    simp only [callLog, queue, List.length_cons, Nat.add_eq_right, List.length_eq_zero_iff, List.isEmpty_iff]
  cases step with
  | idle _ atV => exact tracked.raised (sound.getMinV_effect atV).1 (length_of_fixed (sound.getMinV_ok.ok atV).1)
  | @realtime k c pkt rest d el g _ some atK _ packets next run =>
    obtain ⟨place, left⟩ := next.place
    obtain ⟨_, _, rfl⟩ := next.times
    rw [log ((queueOf_eq atK).trans packets)]
    have unmoved : VminRaised h h := fun _ c atJ => ⟨c.vmin, le_rfl, atJ⟩
    have served := tracked.serves sound unmoved rfl atK (Nat.pos_of_ne_zero some) packets place left rfl rfl run
    exact served.of_classes rfl
  | @linkshare k g c pkt rest d el g' _ atV some atK packets next run =>
    obtain ⟨fixed, sound', _⟩ := sound.getMinV_ok.ok atV
    have raised := (sound.getMinV_effect atV).1
    have same := length_of_fixed fixed
    obtain ⟨place, left⟩ := next.place
    obtain ⟨_, rfl⟩ := next.times
    obtain ⟨c₀, atK₀, held⟩ := lookup_of_fixed fixed atK
    rw [log ((queueOf_eq atK₀).trans ((Class.packets_of_fixed held).symm.trans packets))]
    have served := (tracked.raised raised same).serves sound' raised same atK (Nat.pos_of_ne_zero some) packets place
      left rfl rfl run
    exact served.of_classes rfl

theorem idleLog_right (fuel : Nat) (h : Hfsc) (k : Nat) (l : Ledger) :
    l.Along Ledger.OneOffset (idleLog fuel h k) := by
  induction fuel generalizing k l with
  | zero => exact trivial
  | succ fuel ih =>
    unfold idleLog
    split
    · exact trivial
    · split
      · exact trivial
      · split
        · exact ⟨trivial, ih _ _⟩
        · exact trivial

theorem Stepped.tracked {op : HfscOp} {event : HfscEvent} {h' : Hfsc} (sound : Sound h) (tracked : Tracked l h)
    (step : Stepped h op event h') (keeps : l.Along Ledger.Keeps (h.callLog (op, event))) :
    l.Along Ledger.OneOffset (h.callLog (op, event)) ∧ Tracked (l.noteAll (h.callLog (op, event))) h' := by
  cases step with
  | create step => exact ⟨trivial, step.tracked tracked⟩
  | spare => exact ⟨trivial, tracked⟩
  | enqueue step => exact step.tracked sound tracked keeps
  | @dequeue now served h' step =>
    refine ⟨?_, step.tracked sound tracked⟩
    cases served with
    | none => exact trivial
    | some pair =>
      simp only [callLog]
      split
      · exact idleLog_right ..
      · exact trivial

/-- Calls of `create_class`, `enqueue` and `dequeue`. -/
def Undestroyed (_ : Hfsc) : HfscOp → Prop
  | .destroy _ => False
  | _ => True

instance : ∀ h op, Decidable (Undestroyed h op)
  | _, .create .. => .isTrue trivial
  | _, .destroy _ => .isFalse id
  | _, .enqueue .. => .isTrue trivial
  | _, .dequeue _ => .isTrue trivial

theorem Undestroyed.spares {op : HfscOp} (calls : Undestroyed h op) : Spares h op := by
  cases op with
  | destroy => exact calls.elim
  | _ => trivial

/-- The periods of a run that goes on. -/
theorem Run.periods_append {permitted : Hfsc → HfscOp → Prop} {h₀ : Hfsc} {trace : List (HfscOp × HfscEvent)}
    (run : Run permitted h₀ trace h) (more : List (HfscOp × HfscEvent)) :
    periods h₀ (trace ++ more) = periods h₀ trace ++ periods h more := by
  induction run generalizing more with
  | start => rfl
  | @next trace h op event h' _ _ step ih =>
    rw [List.append_assoc, ih, ih [(op, event)], List.append_assoc]
    refine congrArg _ ?_
    simp only [List.singleton_append, periods, step, List.append_nil]

theorem Run.tracked {h₀ : Hfsc} {trace : List (HfscOp × HfscEvent)} (sound : Sound h₀) (tracked : Tracked l h₀)
    (run : Run Undestroyed h₀ trace h) (keeps : l.Along Ledger.Keeps (periods h₀ trace)) :
    l.Along Ledger.OneOffset (periods h₀ trace) ∧ Tracked (l.noteAll (periods h₀ trace)) h := by
  induction run with
  | start => exact ⟨trivial, tracked⟩
  | @next trace h op event h' before allowed step ih =>
    have log : periods h [(op, event)] = h.callLog (op, event) := by
      simp only [periods, step, List.append_nil]
    rw [before.periods_append, log, Ledger.along_append] at keeps
    rw [before.periods_append, log, Ledger.along_append, Ledger.noteAll_append]
    obtain ⟨right, tracked'⟩ := ih keeps.1
    have sound' := (before.mono fun _ _ calls => calls.spares).sound sound
    have stepped := (step_spec sound' allowed.spares).ok step
    obtain ⟨right', tracked''⟩ := stepped.tracked sound' tracked' keeps.2
    exact ⟨⟨right, right'⟩, tracked''⟩

/-- In a run in which no class is destroyed and a class that becomes active keeps the offset of its
children, all the offsets that `init_v` hands to the children of one backlog period are one offset, and
those of the next period are it plus the `vmax` of its end. -/
theorem one_offset_per_period {bandwidth : Nat} {h₀ : Hfsc} {trace : List (HfscOp × HfscEvent)}
    (made : Hfsc.new bandwidth = .ok h₀) (run : Run Undestroyed h₀ trace h)
    (keeps : Ledger.fresh.Along Ledger.Keeps (periods h₀ trace)) :
    Ledger.fresh.Along Ledger.OneOffset (periods h₀ trace) :=
  (run.tracked (.new made) (.new made) keeps).1

/-- A computed run, with its periods. -/
theorem exists_periods (bandwidth : Nat) (ops : List HfscOp) (seen : List PeriodEvent) (done : (do
      let h₀ ← Hfsc.new bandwidth
      let r ← exec Undestroyed h₀ ops []
      .ok (periods h₀ r.1)) = .ok seen) :
    ∃ h₀ trace h, Hfsc.new bandwidth = .ok h₀ ∧ Run Undestroyed h₀ trace h ∧ periods h₀ trace = seen := by
  obtain ⟨h₀, made, done⟩ := Except.bind_ok_iff.mp done
  obtain ⟨⟨trace, h⟩, executed, done⟩ := Except.bind_ok_iff.mp done
  exact ⟨h₀, trace, h, made, Run.start.exec executed, Except.ok.inj done⟩

/-- A class `p` under the root, with the children `a` and `b`. In its second
period `a` becomes active first, then `b`. -/
def twoPeriods (rateA rateB : Nat) : List HfscOp :=
  [.create "p" "root" 0 false ⟨none, none, ⟨0, 0, 500⟩⟩, .create "a" "p" 0 true ⟨none, none, ⟨0, 0, rateA⟩⟩,
    .create "b" "p" 0 true ⟨none, none, ⟨0, 0, rateB⟩⟩, .enqueue 3 (flatPacket 100) 1, .enqueue 3 (flatPacket 100) 1,
    .dequeue 2, .dequeue 3, .enqueue 3 (flatPacket 100) 4, .enqueue 4 (flatPacket 100) 5]

/-- The activation of `p` overwrites the offset that `a` has just taken, so `b`
takes another one. -/
theorem interior_offset_overwritten : ∃ h₀ trace h, Hfsc.new 1000 = .ok h₀ ∧ Run Undestroyed h₀ trace h ∧
    periods h₀ trace = [.activated 2 3 0 true, .activated 1 2 0 true, .idled 2 3 4000000000, .idled 1 2 1600000000,
      .activated 2 3 4000000000 false, .activated 1 2 1600000000 false, .activated 2 4 1600000000 true] ∧
    ¬Ledger.fresh.Along Ledger.OneOffset (periods h₀ trace) := by
  obtain ⟨h₀, trace, h, made, run, seen⟩ := exists_periods 1000 (twoPeriods 200 300)
    [.activated 2 3 0 true, .activated 1 2 0 true, .idled 2 3 4000000000, .idled 1 2 1600000000,
      .activated 2 3 4000000000 false, .activated 1 2 1600000000 false, .activated 2 4 1600000000 true] (by decide)
  refine ⟨h₀, trace, h, made, run, seen, ?_⟩
  rw [seen]
  decide

/-- With equal rates of `p` and `a` the offsets of both agree. -/
theorem one_offset_per_period_equal_rates : ∃ h₀ trace h, Hfsc.new 1000 = .ok h₀ ∧ Run Undestroyed h₀ trace h ∧
    periods h₀ trace = [.activated 2 3 0 true, .activated 1 2 0 true, .idled 2 3 1600000000, .idled 1 2 1600000000,
      .activated 2 3 1600000000 false, .activated 1 2 1600000000 true, .activated 2 4 1600000000 true] ∧
    Ledger.fresh.Along Ledger.OneOffset (periods h₀ trace) := by
  obtain ⟨h₀, trace, h, made, run, seen⟩ := exists_periods 1000 (twoPeriods 500 300)
    [.activated 2 3 0 true, .activated 1 2 0 true, .idled 2 3 1600000000, .idled 1 2 1600000000,
      .activated 2 3 1600000000 false, .activated 1 2 1600000000 true, .activated 2 4 1600000000 true] (by decide)
  refine ⟨h₀, trace, h, made, run, seen, one_offset_per_period made run ?_⟩
  rw [seen]
  decide

end R2.Hfsc
