import R2.Hfsc.Idling

namespace R2.Hfsc

/-- What a leaf may have been served, in 1024ths, by the virtual time it has
reached since its parent's `vmin` was `m`. `free` is what was not charged to
backlog periods that are over, `spare` a packet. -/
inductive Accounted (c : Class) (vmin ism spare free service m : Nat) : Prop
  | idle : c.nactive = 0 → service + 1024 * m ≤ 1024 * vmin + free → Accounted c vmin ism spare free service m
  | entered : 0 < c.nactive → service + 1024 * m ≤ 1024 * c.vtime + free → Accounted c vmin ism spare free service m
  | underway : 0 < c.nactive → c.vtime + c.voff = c.fRun.x + (c.fBytes - c.fRun.y) * ism / 1024 + c.vadj →
      service + 1024 * m + 1024 * c.voff ≤ 1024 * (c.fRun.x + c.vadj) + (c.fBytes - c.fRun.y) * ism + free + spare →
      Accounted c vmin ism spare free service m

variable {h h' : Hfsc} {i vmin ism spare free service m len : Nat} {c c' : Class}

/-- An active leaf is at most a packet ahead of its account. -/
theorem Accounted.active_le (accounted : Accounted c vmin ism spare free service m) (active : 0 < c.nactive) :
    service + 1024 * m ≤ 1024 * c.vtime + free + spare + 1023 := by
  cases accounted with
  | idle passive => omega
  | entered _ le => omega
  | underway _ place le => omega

theorem Accounted.away {vmin' : Nat} (accounted : Accounted c vmin ism spare free service m) (held : Held c c')
    (active : 0 < c'.nactive ↔ 0 < c.nactive) (le : vmin ≤ vmin') :
    Accounted c' vmin' ism spare free service m := by
  obtain ⟨vtime, fRun, voff, vadj, fBytes⟩ := held
  cases accounted with
  | idle passive account => exact .idle (by omega) (by omega)
  | entered pos account => exact .entered (active.mpr pos) (by rw [vtime]; exact account)
  | underway pos place account =>
    exact .underway (active.mpr pos) (by rw [vtime, voff, fRun, fBytes, vadj]; exact place)
      (by rw [voff, fRun, fBytes, vadj]; exact account)

theorem Accounted.enters (accounted : Accounted c vmin ism spare free service m) (passive : c.nactive = 0)
    (active : 0 < c'.nactive) (ahead : vmin ≤ c'.vtime) {vmin' : Nat} :
    Accounted c' vmin' ism spare free service m := by
  cases accounted with
  | idle _ account => exact .entered active (by omega)
  | entered pos => omega
  | underway pos => omega

/-- The first packet of a backlog period may be free, every later one is
charged. -/
theorem Accounted.served {vmin' : Nat} (accounted : Accounted c vmin ism spare free service m)
    (picked : Picked h h' i len c c') (line : c.fRun.Line ism) (reached : c.fRun.y ≤ c.fBytes)
    (short : len * ism ≤ spare) (before : 0 < c.nactive) (active : 0 < c'.nactive) :
    Accounted c' vmin' ism spare free (service + len * ism) m := by
  obtain ⟨_, ⟨fBytes, moved⟩, fRun, voff, _⟩ := picked
  rcases moved with ⟨passive, _⟩ | ⟨_, x, atX, le, vtime, vadj⟩
  · omega
  have x_eq := line.rtscY2x atX
  have further : c.fBytes + len - c.fRun.y = c.fBytes - c.fRun.y + len := by omega
  rw [further, Nat.add_mul] at x_eq
  refine .underway active ?_ ?_
  · rw [fRun, fBytes, voff, further, Nat.add_mul]
    omega
  · rw [fRun, fBytes, voff, further, Nat.add_mul]
    cases accounted with
    | idle passive => omega
    | entered _ account => omega
    | underway _ place account => omega

/-- The last packet of a backlog period is free. -/
theorem Accounted.drained (accounted : Accounted c vmin ism spare free service m) (short : len * ism ≤ spare)
    (before : 0 < c.nactive) (passive : c'.nactive = 0) :
    Accounted c' c.vtime ism spare (free + (2 * spare + 1024)) (service + len * ism) m := by
  have bound := accounted.active_le before
  exact .idle passive (by omega)

theorem drains_next (i length : Nat) (trace : List (HfscOp × HfscEvent)) (e : HfscOp × HfscEvent) :
    drains i length (trace ++ [e]) = drainStep i (drains i length trace) (queueEvent e) := by
  simp [drains]

theorem servedBytes_next (i : Nat) (trace : List (HfscOp × HfscEvent)) (e : HfscOp × HfscEvent) :
    servedBytes i (trace ++ [e]) = servedBytes i trace +
    ((QueueEvent.takenOf i (queueEvent e)).map Packet.len).getD 0 := by
  simp only [servedBytes, Hfsc.served, List.map_append, List.filterMap_append, List.sum_append]
  cases taken : QueueEvent.takenOf i (queueEvent e) <;> simp [taken]

/-- The replayed length is the length of the queue. -/
theorem drainStep_length {q q' : Nat → List Packet} {event : QueueEvent Nat Packet}
    (step : QueueEvent.Step q event q')
    {s : Nat × Nat} (length : s.1 = (q i).length) : (drainStep i s event).1 = (q' i).length := by
  obtain ⟨n, k⟩ := s
  cases step with
  | @put j a =>
    by_cases same : j = i
    · subst same
      simp only [drainStep, if_true, Function.update_self, List.length_append, List.length_singleton]
      exact congrArg (· + 1) length
    · simp only [drainStep, same, if_false, Function.update_of_ne (Ne.symm same)]
      exact length
  | @take j a rest shape =>
    by_cases same : j = i
    · subst same
      dsimp only at length
      simp only [drainStep, if_true, Function.update_self, length, shape, List.length_cons, Nat.add_sub_cancel]
    · simp only [drainStep, same, if_false, Function.update_of_ne (Ne.symm same)]
      exact length
  | quiet => exact length

/-- What holds in every state reached with packets of at most `L` bytes. -/
structure Ready (L : Nat) (h : Hfsc) : Prop where
  sound : Sound h
  floor : Floor h
  lined : Every Class.Lined h
  short : ∀ k, ∀ pkt ∈ queueOf h k, pkt.len ≤ L

theorem Stepped.ready {L : Nat} {op : HfscOp} {event : HfscEvent} (ready : Ready L h) (bounded : Bounded L h op)
    (stepped : Stepped h op event h') : Ready L h' := by
  obtain ⟨sound, floor, lined, short⟩ := ready
  refine ⟨stepped.sound sound, stepped.floor sound floor, stepped.lined sound lined, fun k pkt member => ?_⟩
  rcases (stepped.queues sound).mem member with old | put
  · exact short k pkt old
  · cases stepped with
    | create => cases put
    | spare => cases put
    | @enqueue k' pkt' now accepted h' _ =>
      cases accepted with
      | false => cases put
      | true =>
        cases put
        exact bounded.2 _ _ _ rfl
    | @dequeue now served h' _ =>
      cases served with
      | none => cases put
      | some => cases put

theorem Ready.of_run {L : Nat} {start : Hfsc} {trace : List (HfscOp × HfscEvent)} (ready : Ready L start)
    (run : Run (Bounded L) start trace h) : Ready L h :=
  run.invariant _ ready fun _ _ _ _ bounded ready step =>
    ((step_spec ready.sound bounded.1).ok step).ready ready bounded

theorem Ready.new {L bandwidth : Nat} (made : Hfsc.new bandwidth = .ok h) : Ready L h :=
  ⟨.new made, .new made, Lined.new made, fun k pkt member => by rw [queueOf_new made] at member; cases member⟩

/-- The account of leaf `i` while its sibling `j` waits at `vj`. -/
structure Ledger (L i j vj m : Nat) (g h : Hfsc) (trace : List (HfscOp × HfscEvent)) (c d p : Class) : Prop where
  ready : Ready L h
  atI : h.classes[i]? = some c
  atJ : h.classes[j]? = some d
  atP : h.classes[c.parent]? = some p
  waits : d.vtime = vj
  length : (drains i (queueOf g i).length trace).1 = (queueOf h i).length
  accounted : Accounted c p.vmin c.fIsc.ism2 (L * c.fIsc.ism2)
    ((drains i (queueOf g i).length trace).2 * (2 * (L * c.fIsc.ism2) + 1024)) (servedBytes i trace * c.fIsc.ism2) m
  bound : servedBytes i trace * c.fIsc.ism2 + 1024 * m ≤
    1024 * vj + ((drains i (queueOf g i).length trace).2 + 1) * (2 * (L * c.fIsc.ism2) + 1024)

/-- A class below the root with a single fair-share slope and without a
real-time curve. -/
structure Single (c : Class) : Prop where
  below : c.parent ≠ 0
  plain : c.rIsc = none
  convex : c.fIsc.sm1 ≤ c.fIsc.sm2
  flat : c.fIsc.dx = 0 ∧ c.fIsc.dy = 0
  finite : c.fIsc.ism2 ≠ htInfinity

theorem Single.of_shape (single : Single c) (shape : c'.shape = c.shape) : Single c' := by
  obtain ⟨below, plain, convex, flat, finite⟩ := single
  have curve := Class.fIsc_of_shape shape
  rw [← curve] at convex flat finite
  exact ⟨by rw [Class.parent_of_shape shape]; exact below, (Class.rIsc_of_shape shape).trans plain, convex,
    flat, finite⟩

theorem Single.line (single : Single c) (lined : c.Lined) : c.fRun.Line c.fIsc.ism2 ∧ c.fRun.y ≤ c.fBytes := by
  obtain ⟨dx, dy, slope, reached⟩ := lined single.convex
  exact ⟨⟨dx.trans single.flat.1, dy.trans single.flat.2, slope, single.finite⟩, reached⟩

theorem drainStep_away {e : QueueEvent Nat Packet} (away : ∀ pkt, e ≠ .take i pkt) (s : Nat × Nat) :
    (drainStep i s e).2 = s.2 ∧ QueueEvent.takenOf i e = none := by
  cases e with
  | put k pkt =>
    refine ⟨?_, rfl⟩
    simp only [drainStep]
    split <;> rfl
  | take k pkt =>
    have other : k ≠ i := fun same => away pkt (by rw [same])
    simp only [drainStep, QueueEvent.takenOf, other, if_false, and_self]
  | quiet => exact ⟨rfl, rfl⟩

/-- One call keeps the account. -/
theorem Ledger.next {L j vj m : Nat} {g : Hfsc} {trace : List (HfscOp × HfscEvent)} {d p : Class} {op : HfscOp}
    {event : HfscEvent} (ledger : Ledger L i j vj m g h trace c d p) (single : Single c)
    (siblings : d.parent = c.parent)
    (calls : Waiting L i j h op) (step : h.step op = .ok (event, h'))
    (overlooked : ∀ k, servedClass event = some k → j ∉ lineage h k) :
    ∃ c' d' p', Ledger L i j vj m g h' (trace ++ [(op, event)]) c' d' p' ∧ c'.shape = c.shape ∧
      d'.shape = d.shape := by
  obtain ⟨ready, atI, atJ, atP, waits, length, accounted, bound⟩ := ledger
  obtain ⟨sound, floor, lined, short⟩ := id ready
  obtain ⟨bounded, childless, d₁, atD₁, activeJ⟩ := calls
  rw [atJ] at atD₁
  cases atD₁
  have linkJ : Linked h c.parent (⟨d.vtime, j⟩, j) := ⟨d, atJ, siblings, activeJ, rfl⟩
  have nonempty : p.children.entries ≠ [] :=
    List.ne_nil_of_mem ((sound.wired.listed c.parent p atP (Nat.pos_of_ne_zero single.below) _).mpr linkJ)
  have stepped := (step_spec sound bounded.1).ok step
  obtain ⟨c', p', atC', atP', turn⟩ := stepped.turn sound floor childless atI single.below single.plain atP nonempty
  obtain ⟨d', atD', still⟩ := stepped.vtime_eq sound atJ activeJ overlooked
  obtain ⟨c₁, atC₁, shapeC⟩ := stepped.kept sound i c atI
  rw [atC'] at atC₁
  cases atC₁
  obtain ⟨d₁, atD₁, shapeD⟩ := stepped.kept sound j d atJ
  rw [atD'] at atD₁
  cases atD₁
  have queues := stepped.queues sound
  have parent := Class.parent_of_shape shapeC
  refine ⟨c', d', p',
    ⟨stepped.ready ready bounded, atC', atD', by rw [parent]; exact atP', still.trans waits, ?_, ?_, ?_⟩,
    shapeC, shapeD⟩
  · rw [drains_next]
    exact drainStep_length queues length
  · rw [drains_next, servedBytes_next, Class.fIsc_of_shape shapeC]
    generalize queueEvent (op, event) = e at turn queues
    generalize p'.vmin = pvmin at turn ⊢
    cases turn with
    | away notTaken held active le =>
      obtain ⟨count, taken⟩ := drainStep_away notTaken (drains i (queueOf g i).length trace)
      rw [count, taken]
      exact accounted.away held active le
    | enters notTaken passive active ahead =>
      obtain ⟨count, taken⟩ := drainStep_away notTaken (drains i (queueOf g i).length trace)
      rw [count, taken]
      exact accounted.enters passive active ahead
    | @served pkt c' picked drained =>
      obtain ⟨line, reached⟩ := single.line (lined i c atI)
      have fits : pkt.len * c.fIsc.ism2 ≤ L * c.fIsc.ism2 := Nat.mul_le_mul_right _ (short i pkt queues.taken)
      have before := (picked.least.class_eq atI).2.1
      rw [queueOf_eq atI] at length
      simp only [drainStep, QueueEvent.takenOf, if_true, length, Option.map_some, Option.getD_some]
      rw [Nat.add_mul]
      by_cases passive : c'.nactive = 0
      · rw [if_pos (drained.mp passive), Nat.succ_mul]
        exact accounted.drained fits before passive
      · rw [if_neg (fun one => passive (drained.mpr one))]
        exact accounted.served picked line reached fits before (Nat.pos_of_ne_zero passive)
  · rw [drains_next, servedBytes_next, Class.fIsc_of_shape shapeC]
    generalize queueEvent (op, event) = e at turn queues
    generalize p'.vmin = pvmin at turn
    cases turn with
    | away notTaken =>
      obtain ⟨count, taken⟩ := drainStep_away notTaken (drains i (queueOf g i).length trace)
      rw [count, taken]
      exact bound
    | enters notTaken =>
      obtain ⟨count, taken⟩ := drainStep_away notTaken (drains i (queueOf g i).length trace)
      rw [count, taken]
      exact bound
    | @served pkt c' picked drained =>
      have fits : pkt.len * c.fIsc.ism2 ≤ L * c.fIsc.ism2 := Nat.mul_le_mul_right _ (short i pkt queues.taken)
      have behind := picked.least.vtime_le atI linkJ
      have account := accounted.active_le (picked.least.class_eq atI).2.1
      have more : (drains i (queueOf g i).length trace).2 ≤
          (drainStep i (drains i (queueOf g i).length trace) (.take i pkt)).2 := by
        simp only [drainStep, if_true]
        split <;> omega
      have grows := Nat.mul_le_mul_right (2 * (L * c.fIsc.ism2) + 1024) more
      simp only [QueueEvent.takenOf, if_true, Option.map_some, Option.getD_some]
      generalize (drainStep i (drains i (queueOf g i).length trace) (.take i pkt)).2 = drained' at grows ⊢
      rw [Nat.add_mul (servedBytes i trace), Nat.succ_mul drained']
      dsimp only at behind
      omega

/-- The account opens at the parent's `vmin`. -/
theorem Ledger.start {L j : Nat} {d p : Class} (ready : Ready L h) (atI : h.classes[i]? = some c)
    (atJ : h.classes[j]? = some d) (atP : h.classes[c.parent]? = some p) (siblings : d.parent = c.parent)
    (active : Active h j) : Ledger L i j d.vtime p.vmin h h [] c d p := by
  obtain ⟨d₁, atD₁, activeJ⟩ := active
  rw [atJ] at atD₁
  cases atD₁
  have behind := ready.floor c.parent p atP (⟨d.vtime, j⟩, j) ⟨d, atJ, siblings, activeJ, rfl⟩
  refine ⟨ready, atI, atJ, atP, rfl, rfl, ?_, ?_⟩
  · simp only [drains, servedBytes, served, List.map_nil, List.foldl_nil, List.filterMap_nil, List.sum_nil,
      Nat.zero_mul]
    by_cases passive : c.nactive = 0
    · exact .idle passive (by omega)
    · have pos := Nat.pos_of_ne_zero passive
      have ahead := ready.floor c.parent p atP (⟨c.vtime, i⟩, i) ⟨c, atI, rfl, pos, rfl⟩
      exact .entered pos (by dsimp only at ahead; omega)
  · simp only [drains, servedBytes, served, List.map_nil, List.foldl_nil, List.filterMap_nil, List.sum_nil,
      Nat.zero_mul]
    dsimp only at behind
    omega

theorem Ledger.of_run {L j : Nat} {g : Hfsc} {trace : List (HfscOp × HfscEvent)} {d p : Class} (ready : Ready L g)
    (stretch : Run (Waiting L i j) g trace h) (active : Active h j) (overlooked : Overlooked h j trace)
    (atI : g.classes[i]? = some c) (atJ : g.classes[j]? = some d) (atP : g.classes[c.parent]? = some p)
    (siblings : d.parent = c.parent) (single : Single c) :
    ∃ c' d' p', Ledger L i j d.vtime p.vmin g h trace c' d' p' ∧ c'.shape = c.shape ∧ d'.shape = d.shape := by
  induction stretch with
  | start => exact ⟨c, d, p, .start ready atI atJ atP siblings active, rfl, rfl⟩
  | @next trace h op event h' run calls step ih =>
    have sound := (ready.of_run (run.mono fun _ _ calls => calls.1)).sound
    have kept := ((step_spec sound calls.1.1).ok step).kept sound
    have earlier : Overlooked h j trace := fun e member k served above =>
      overlooked e (List.mem_append_left _ member) k served (kept.lineage above)
    have now : ∀ k, servedClass event = some k → j ∉ lineage h k := fun k served above =>
      overlooked (op, event) (List.mem_append_right _ (List.mem_singleton_self _)) k served (kept.lineage above)
    obtain ⟨c', d', p', ledger, shapeC, shapeD⟩ := ih calls.2.2 earlier
    have parents : d'.parent = c'.parent := by
      rw [Class.parent_of_shape shapeC, Class.parent_of_shape shapeD]
      exact siblings
    obtain ⟨c'', d'', p'', ledger', shapeC', shapeD'⟩ :=
      ledger.next (single.of_shape shapeC) parents calls step now
    exact ⟨c'', d'', p'', ledger', shapeC'.trans shapeC, shapeD'.trans shapeD⟩

/-- While a sibling waits, a leaf is served no further than the sibling was
ahead of their parent's `vmin`, and two packets more for every backlog period
it has in the meantime. -/
theorem served_while_waiting {bandwidth L i j m2 : Nat} {h₀ g h : Hfsc} {before trace : List (HfscOp × HfscEvent)}
    {c d p : Class} (made : Hfsc.new bandwidth = .ok h₀) (earlier : Run (Bounded L) h₀ before g)
    (stretch : Run (Waiting L i j) g trace h) (active : Active h j) (overlooked : Overlooked h j trace)
    (atI : g.classes[i]? = some c) (atJ : g.classes[j]? = some d) (atP : g.classes[c.parent]? = some p)
    (siblings : d.parent = c.parent) (below : c.parent ≠ 0) (plain : c.rIsc = none) (pos : 0 < m2)
    (slope : sc2isc ⟨0, 0, m2⟩ = .ok c.fIsc) {x l : Nat} (atX : segY2x (servedBytes i trace) c.fIsc.ism2 = .ok x)
    (atL : segY2x L c.fIsc.ism2 = .ok l) :
    x ≤ d.vtime - p.vmin + ((drains i (queueOf g i).length trace).2 + 1) * (2 * l + 3) := by
  have curve := sc2isc_single slope
  have finite : c.fIsc.ism2 ≠ htInfinity := by rw [curve]; exact m2ism_finite pos
  have single : Single c := ⟨below, plain, by rw [curve]; simp [m2sm_zero], by rw [curve]; exact ⟨rfl, rfl⟩, finite⟩
  have ready := (Ready.new made).of_run earlier
  obtain ⟨c', d', p', ledger, shapeC, _⟩ := Ledger.of_run ready stretch active overlooked atI atJ atP siblings single
  have bound := ledger.bound
  rw [Class.fIsc_of_shape shapeC] at bound
  have x_eq := segY2x_ok atX finite
  have l_eq := segY2x_ok atL finite
  generalize (drains i (queueOf g i).length trace).2 = n at bound ⊢
  -- one period costs less than `2 * l + 3` whole units
  have period : 2 * (L * c.fIsc.ism2) + 1024 ≤ 1024 * (2 * l + 3) := by omega
  have periods := Nat.mul_le_mul_left (n + 1) period
  rw [Nat.mul_left_comm (n + 1) 1024] at periods
  omega

/-- Class `i` is served while its sibling `j` waits, until its queue ran empty
`drained` times and it is further ahead than two packets of either. -/
def Starves (L i j drained : Nat) : Prop :=
  ∃ h₀ g h before trace c d, Hfsc.new 1000 = .ok h₀ ∧ Run (Bounded L) h₀ before g ∧ Run (Waiting L i j) g trace h ∧
    Active h j ∧ Overlooked h j trace ∧ g.classes[i]? = some c ∧ g.classes[j]? = some d ∧
    (d.parent = c.parent ∧ c.parent ≠ 0 ∧ c.rIsc = none ∧ d.rIsc = none ∧
      sc2isc ⟨0, 0, 500⟩ = .ok c.fIsc ∧ sc2isc ⟨0, 0, 500⟩ = .ok d.fIsc) ∧
    (drains i (queueOf g i).length trace).2 = drained ∧
    ∃ x li lj, segY2x (servedBytes i trace) c.fIsc.ism2 = .ok x ∧ segY2x L c.fIsc.ism2 = .ok li ∧
      segY2x L d.fIsc.ism2 = .ok lj ∧ 2 * li + 2 * lj + 2 < x

theorem Starves.of_exec {L i j drained : Nat} (earlier stretch : List HfscOp) (done : (do
      let h₀ ← Hfsc.new 1000
      let r₁ ← exec (Bounded L) h₀ earlier []
      let r ← exec (Waiting L i j) r₁.2 stretch []
      let c ← r₁.2.classAt i
      let d ← r₁.2.classAt j
      let x ← segY2x (servedBytes i r.1) c.fIsc.ism2
      let li ← segY2x L c.fIsc.ism2
      let lj ← segY2x L d.fIsc.ism2
      .ok (decide (Active r.2 j ∧ Overlooked r.2 j r.1 ∧ (d.parent = c.parent ∧ c.parent ≠ 0 ∧ c.rIsc = none ∧
        d.rIsc = none ∧ sc2isc ⟨0, 0, 500⟩ = .ok c.fIsc ∧ sc2isc ⟨0, 0, 500⟩ = .ok d.fIsc) ∧
        (drains i (queueOf r₁.2 i).length r.1).2 = drained ∧ 2 * li + 2 * lj + 2 < x)) : Outcome Bool) = .ok true) :
    Starves L i j drained := by
  obtain ⟨h₀, made, done⟩ := Except.bind_ok_iff.mp done
  obtain ⟨⟨before, g⟩, earlier, done⟩ := Except.bind_ok_iff.mp done
  obtain ⟨⟨trace, h⟩, stretch, done⟩ := Except.bind_ok_iff.mp done
  obtain ⟨c, atI, done⟩ := Except.bind_ok_iff.mp done
  obtain ⟨d, atJ, done⟩ := Except.bind_ok_iff.mp done
  obtain ⟨x, atX, done⟩ := Except.bind_ok_iff.mp done
  obtain ⟨li, atLi, done⟩ := Except.bind_ok_iff.mp done
  obtain ⟨lj, atLj, done⟩ := Except.bind_ok_iff.mp done
  obtain ⟨active, overlooked, siblings, count, more⟩ := of_decide_eq_true (Except.ok.inj done)
  exact ⟨h₀, g, h, before, trace, c, d, made, Run.start.exec earlier, Run.start.exec stretch, active, overlooked,
    classAt_ok.mp atI, classAt_ok.mp atJ, siblings, count, x, li, lj, atX, atLi, atLj, more⟩

/-- A class that empties its queue with every packet is served for free, since
the last packet before it goes passive is not charged; and a class that joins
at the mean of `vmin` and the largest virtual time waits for a sibling that
never runs empty. -/
theorem idle_sibling_starves : Starves 100 2 3 5 ∧ Starves 100 2 3 0 := by
  constructor
  · refine .of_exec
      [.create "a" "root" 0 true ⟨none, none, ⟨0, 0, 500⟩⟩,
        .create "b" "root" 0 true ⟨none, none, ⟨0, 0, 500⟩⟩, .enqueue 3 (flatPacket 100) 1]
      [.enqueue 2 (flatPacket 100) 2, .dequeue 2, .enqueue 2 (flatPacket 100) 3, .dequeue 3,
        .enqueue 2 (flatPacket 100) 4, .dequeue 4, .enqueue 2 (flatPacket 100) 5, .dequeue 5,
        .enqueue 2 (flatPacket 100) 6, .dequeue 6] ?_
    decide
  · refine .of_exec
      [.create "a" "root" 0 true ⟨none, none, ⟨0, 0, 500⟩⟩,
        .create "b" "root" 0 true ⟨none, none, ⟨0, 0, 500⟩⟩, .create "c" "root" 0 true ⟨none, none, ⟨0, 0, 25⟩⟩,
        .enqueue 4 (flatPacket 100) 1, .enqueue 4 (flatPacket 100) 1, .enqueue 2 (flatPacket 100) 1,
        .enqueue 2 (flatPacket 100) 1, .enqueue 2 (flatPacket 100) 1, .enqueue 2 (flatPacket 100) 1,
        .enqueue 2 (flatPacket 100) 1, .enqueue 2 (flatPacket 100) 1, .enqueue 2 (flatPacket 100) 1,
        .dequeue 2, .dequeue 3, .enqueue 3 (flatPacket 100) 4]
      [.dequeue 5, .dequeue 6, .dequeue 7, .dequeue 8, .dequeue 9] ?_
    decide

theorem served_while_waiting_on_off : ∃ h₀ g h before trace c d p x l, Hfsc.new 1000 = .ok h₀ ∧
    Run (Bounded 100) h₀ before g ∧ Run (Waiting 100 2 3) g trace h ∧ Overlooked h 3 trace ∧
    g.classes[2]? = some c ∧ g.classes[3]? = some d ∧ g.classes[c.parent]? = some p ∧
    segY2x (servedBytes 2 trace) c.fIsc.ism2 = .ok x ∧ segY2x 100 c.fIsc.ism2 = .ok l ∧
    (servedBytes 2 trace, (drains 2 (queueOf g 2).length trace).2) = (200, 2) ∧
    x ≤ d.vtime - p.vmin + ((drains 2 (queueOf g 2).length trace).2 + 1) * (2 * l + 3) := by
  have done : (do
      let h₀ ← Hfsc.new 1000
      let r₁ ← exec (Bounded 100) h₀ [.create "a" "root" 0 true ⟨none, none, ⟨0, 0, 500⟩⟩,
        .create "b" "root" 0 true ⟨none, none, ⟨0, 0, 500⟩⟩, .enqueue 3 (flatPacket 100) 1] []
      let r ← exec (Waiting 100 2 3) r₁.2 [.enqueue 2 (flatPacket 100) 2, .dequeue 2, .enqueue 2 (flatPacket 100) 3,
        .dequeue 3] []
      let c ← r₁.2.classAt 2
      let d ← r₁.2.classAt 3
      let p ← r₁.2.classAt c.parent
      let x ← segY2x (servedBytes 2 r.1) c.fIsc.ism2
      let l ← segY2x 100 c.fIsc.ism2
      .ok (decide (Active r.2 3 ∧ Overlooked r.2 3 r.1 ∧ (d.parent = c.parent ∧ c.parent ≠ 0 ∧ c.rIsc = none ∧
        sc2isc ⟨0, 0, 500⟩ = .ok c.fIsc) ∧
        (servedBytes 2 r.1, (drains 2 (queueOf r₁.2 2).length r.1).2) = (200, 2))) : Outcome Bool) =
          .ok true := by decide
  obtain ⟨h₀, made, done⟩ := Except.bind_ok_iff.mp done
  obtain ⟨⟨before, g⟩, earlier, done⟩ := Except.bind_ok_iff.mp done
  obtain ⟨⟨trace, h⟩, stretch, done⟩ := Except.bind_ok_iff.mp done
  obtain ⟨c, atI, done⟩ := Except.bind_ok_iff.mp done
  obtain ⟨d, atJ, done⟩ := Except.bind_ok_iff.mp done
  obtain ⟨p, atP, done⟩ := Except.bind_ok_iff.mp done
  obtain ⟨x, atX, done⟩ := Except.bind_ok_iff.mp done
  obtain ⟨l, atL, done⟩ := Except.bind_ok_iff.mp done
  obtain ⟨active, overlooked, ⟨siblings, below, plain, slope⟩, seen⟩ := of_decide_eq_true (Except.ok.inj done)
  have run₁ := Run.start.exec earlier
  have run₂ := Run.start.exec stretch
  exact ⟨h₀, g, h, before, trace, c, d, p, x, l, made, run₁, run₂, overlooked, classAt_ok.mp atI, classAt_ok.mp atJ,
    classAt_ok.mp atP, atX, atL, seen, served_while_waiting made run₁ run₂ active overlooked (classAt_ok.mp atI)
      (classAt_ok.mp atJ) (classAt_ok.mp atP) siblings below plain (by decide) slope atX atL⟩

end R2.Hfsc
