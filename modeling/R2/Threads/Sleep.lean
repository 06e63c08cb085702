import R2.Threads.Queues
import R2.Threads.Replay

namespace R2.Threads

variable {n : Nat} {P : Type} {affinity : Nat → Fin n}

namespace System

/-- The thread has put a packet in the `thread_q` and has not yet written to the eventfd. -/
def Handing (sys : System n P) (u : Fin n) (i : Nat) : Prop :=
  ∃ d work, sys.phase u = .dispatching d work (.handed i)

/-- The producer of the newest packet has not yet written to the eventfd. -/
def NewestPending (sys : System n P) (i : Nat) : Prop :=
  ∃ p u, (sys.threadQ i).getLast? = some (p, u) ∧ sys.Handing u i

/-- Packets for an interface wake up the thread it is pinned to. -/
def Covered (affinity : Nat → Fin n) (sys : System n P) (i : Nat) : Prop :=
  sys.threadQ i = [] ∨ 0 < sys.efd (affinity i) ∨ sys.NewestPending i

/-- Messages to a thread wake it up. -/
def Heard (sys : System n P) (u : Fin n) : Prop := sys.channel u = [] ∨ 0 < sys.efd u ∨ sys.sender = some u

/-- No thread is blocked in `epoll_wait` on pending work. -/
def RestsSafely (affinity : Nat → Fin n) (sys : System n P) : Prop :=
  ∀ u, sys.phase u = .blocked → (∀ m, waitingIn (sys.graph u).vectors m = []) ∧ sys.Heard u ∧
    ∀ i, affinity i = u → sys.Covered affinity i

/-- Each interface of the thread whose packets would wake up nobody has its
`IfNode` in the thread's graph. -/
def Prepared (affinity : Nat → Fin n) (sys : System n P) (u : Fin n) : Prop :=
  ∀ i, affinity i = u → sys.Covered affinity i ∨ ∃ m, clientAt (sys.graph u) m = some (.ifNode i)

end System

/-- The node of the interface is still to come, or has still to look at its `thread_q`. -/
def AheadOf (g : Graph Client P) (node : Nat) (stage : Stage) (i : Nat) : Prop :=
  (∃ m > node, clientAt g m = some (.ifNode i)) ∨
    clientAt g node = some (.ifNode i) ∧ (stage = .draining ∨ stage = .threadQ)

/-- The thread is going to look at the `thread_q` before it sleeps. -/
def Ahead (g : Graph Client P) : Phase P → Nat → Prop
  | .blocked, _ => False
  | .woken, _ => True
  | .ready, _ => True
  | .running k _, i => ∃ m ≥ k, clientAt g m = some (.ifNode i)
  | .dispatching d _ stage, i => AheadOf g d.node stage i
  | .control _, _ => False

/-- A node that is passed has been through its `thread_q`. -/
theorem LocalStep.ahead {owner : Nat → Bool} {g g' : Graph Client P} {phase phase' : Phase P} {i : Nat}
    (step : LocalStep owner g phase g' phase') (own : owner i = true) (ahead : Ahead g phase i) :
    Ahead g' phase' i := by
  cases step with
  | interrupted => exact trivial
  | visit run =>
    obtain ⟨m, from', here⟩ := ahead
    unfold Graph.dispatch at run
    split at run
    · cases run
    · cases Except.ok.inj run
      rcases Nat.eq_or_lt_of_le from' with rfl | later
      · exact Or.inr ⟨here, Or.inl rfl⟩
      · exact Or.inl ⟨m, later, here⟩
  | @feature d stage d' stage' _ client step =>
    change AheadOf g d'.node stage' i
    rw [step.same.2]
    rcases ahead with later | ⟨here, _⟩
    · exact Or.inl later
    · cases Option.some.inj (client.symm.trans here)
  | @ifNode j d stage d' stage' _ client step =>
    change AheadOf g d'.node stage' i
    rw [step.same.2]
    rcases ahead with later | ⟨here, stage⟩
    · exact Or.inl later
    · refine Or.inr ⟨here, ?_⟩
      cases Client.ifNode.inj (Option.some.inj (client.symm.trans here))
      rw [own] at step
      cases step with
      | transmit => exact Or.inl rfl
      | drained => exact Or.inr rfl
      | idle => simp only [reduceCtorEq, or_self] at stage
      | queued => simp only [reduceCtorEq, or_self] at stage
      | receive => simp only [reduceCtorEq, or_self] at stage
  | finish client ending =>
    rcases ahead with ⟨m, later, here⟩ | ⟨here, stage⟩
    · exact ⟨m, later, here⟩
    · cases Option.some.inj (client.symm.trans here)
      cases ending with
      | ifNode => simp only [reduceCtorEq, or_self] at stage
  | leave =>
    obtain ⟨m, past, here⟩ := ahead
    unfold clientAt at here
    rw [List.getElem?_eq_none_iff.mpr past] at here
    cases here

/-- The thread neither writes to an eventfd nor goes to sleep. -/
theorem LocalStep.busy {owner : Nat → Bool} {g g' : Graph Client P} {phase phase' : Phase P}
    (step : LocalStep owner g phase g' phase') :
    (∀ d work i, phase ≠ .dispatching d work (.handed i)) ∧ phase' ≠ .blocked := by
  cases step with
  | interrupted => simp
  | visit => simp
  | feature _ step => cases step <;> simp
  | @ifNode i _ _ _ _ _ _ step =>
    generalize owner i = own at step
    cases step <;> simp
  | finish _ ending => cases ending <;> simp
  | leave => simp

/-- Every thread has looked at the packets that nobody will wake it up for, or
is going to. -/
structure Inv (affinity : Nat → Fin n) (sys : System n P) : Prop where
  locals : ∀ u, LocalOk (sys.graph u) (sys.phase u)
  heard : ∀ u, sys.phase u = .blocked → sys.Heard u
  covered : ∀ i, Ahead (sys.graph (affinity i)) (sys.phase (affinity i)) i ∨ sys.Covered affinity i

theorem Inv.restsSafely {sys : System n P} (inv : Inv affinity sys) : sys.RestsSafely affinity := by
  intro u blocked
  have queues := (inv.locals u).queues
  rw [blocked] at queues
  refine ⟨queues, inv.heard u blocked, fun i own => ?_⟩
  have covered := inv.covered i
  rw [own, blocked] at covered
  exact covered.resolve_left id

variable {sys sys' : System n P} {u : Fin n}

namespace System

@[simp] theorem move_self (sys : System n P) (u : Fin n) (phase : Phase P) : (sys.move u phase).phase u = phase :=
  Function.update_self ..

theorem move_of_ne {v : Fin n} (phase : Phase P) (other : v ≠ u) : (sys.move u phase).phase v = sys.phase v :=
  Function.update_of_ne other ..

theorem ring_self (sys : System n P) (u : Fin n) : (sys.ring u).efd u = sys.efd u + 1 := Function.update_self ..

theorem ring_le (sys : System n P) (u v : Fin n) : sys.efd v ≤ (sys.ring u).efd v := by
  by_cases same : v = u
  · subst same
    rw [ring_self]
    exact Nat.le_succ _
  · exact Nat.le_of_eq (Function.update_of_ne same ..).symm

/-- Only a thread that has just handed a packet off is about to write to an eventfd. -/
theorem quiet_of_eq {phase : Phase P} (here : sys.phase u = phase)
    (settled : ∀ d work i, phase ≠ .dispatching d work (.handed i)) (j : Nat) : ¬sys.Handing u j :=
  fun ⟨d, work, handing⟩ => settled d work j (here.symm.trans handing)

/-- A thread that is not about to write to an eventfd moves on. -/
theorem Covered.move {i : Nat} (covered : sys.Covered affinity i) (quiet : ¬sys.Handing u i)
    (others : ∀ v, v ≠ u → sys'.phase v = sys.phase v) (threadQ : sys'.threadQ i = sys.threadQ i)
    (efd : sys.efd (affinity i) ≤ sys'.efd (affinity i)) : sys'.Covered affinity i := by
  rcases covered with empty | rung | ⟨p, v, newest, d, work, handing⟩
  · exact Or.inl (threadQ.trans empty)
  · exact Or.inr (Or.inl (Nat.lt_of_lt_of_le rung efd))
  · have other : v ≠ u := fun same => quiet ⟨d, work, same ▸ handing⟩
    exact Or.inr (Or.inr ⟨p, v, threadQ ▸ newest, d, work, (others v other).trans handing⟩)

end System

namespace Inv

/-- One thread moves, and the others are woken up as before. -/
theorem frame (inv : Inv affinity sys) (graph : ∀ v, v ≠ u → sys'.graph v = sys.graph v)
    (phase : ∀ v, v ≠ u → sys'.phase v = sys.phase v) (heard : ∀ v, v ≠ u → sys.Heard v → sys'.Heard v)
    (covered : ∀ i, affinity i ≠ u → sys.Covered affinity i → sys'.Covered affinity i)
    (locals : LocalOk (sys'.graph u) (sys'.phase u)) (ownHeard : sys'.phase u = .blocked → sys'.Heard u)
    (ownCovered : ∀ i, affinity i = u → Ahead (sys'.graph u) (sys'.phase u) i ∨ sys'.Covered affinity i) :
    Inv affinity sys' where
  locals v := by
    by_cases same : v = u
    · exact same ▸ locals
    · rw [graph v same, phase v same]
      exact inv.locals v
  heard v blocked := by
    by_cases same : v = u
    · subst same
      exact ownHeard blocked
    · rw [phase v same] at blocked
      exact heard v same (inv.heard v blocked)
  covered i := by
    by_cases same : affinity i = u
    · rw [same]
      exact ownCovered i same
    · rw [graph _ same, phase _ same]
      exact (inv.covered i).imp id (covered i same)

/-- No thread moves. -/
theorem static (inv : Inv affinity sys) (graph : sys'.graph = sys.graph) (phase : sys'.phase = sys.phase)
    (heard : ∀ v, sys.Heard v → sys'.Heard v)
    (covered : ∀ i, sys.Covered affinity i → sys'.Covered affinity i) : Inv affinity sys' where
  locals v := by
    rw [graph, phase]
    exact inv.locals v
  heard v blocked := by
    rw [phase] at blocked
    exact heard v (inv.heard v blocked)
  covered i := by
    rw [graph, phase]
    exact (inv.covered i).imp id (covered i)

/-- One thread moves on its own. -/
theorem alone (inv : Inv affinity sys) (quiet : ∀ j, ¬sys.Handing u j)
    (graph : ∀ v, v ≠ u → sys'.graph v = sys.graph v)
    (phase : ∀ v, v ≠ u → sys'.phase v = sys.phase v) (heard : ∀ v, v ≠ u → sys.Heard v → sys'.Heard v)
    (efd : ∀ v, v ≠ u → sys'.efd v = sys.efd v) (threadQ : sys'.threadQ = sys.threadQ)
    (locals : LocalOk (sys'.graph u) (sys'.phase u)) (ownHeard : sys'.phase u = .blocked → sys'.Heard u)
    (ownCovered : ∀ i, affinity i = u → Ahead (sys'.graph u) (sys'.phase u) i ∨ sys'.Covered affinity i) :
    Inv affinity sys' :=
  inv.frame graph phase heard (fun i other covered => covered.move (quiet i) phase (congrFun threadQ i)
    (Nat.le_of_eq (efd _ other).symm)) locals ownHeard ownCovered

/-- A thread goes from one place in its loop to the next. -/
theorem move {phase : Phase P} (inv : Inv affinity sys) (quiet : ∀ j, ¬sys.Handing u j)
    (locals : LocalOk (sys.graph u) phase) (ownHeard : phase = .blocked → sys.Heard u)
    (ahead : ∀ i, affinity i = u → Ahead (sys.graph u) (sys.phase u) i →
      Ahead (sys.graph u) phase i ∨ sys.Covered affinity i) : Inv affinity (sys.move u phase) := by
  have covered : ∀ i, sys.Covered affinity i → (sys.move u phase).Covered affinity i := fun i covered =>
    covered.move (quiet i) (fun v other => System.move_of_ne phase other) rfl (Nat.le_refl _)
  refine inv.alone quiet (fun _ _ => rfl) (fun v other => System.move_of_ne phase other) (fun _ _ => id)
    (fun _ _ => rfl)
    rfl ?_ (fun blocked => ?_) fun i own => ?_
  · rw [System.move_self]
    exact locals
  · rw [System.move_self] at blocked
    exact ownHeard blocked
  · rw [System.move_self]
    have before := inv.covered i
    rw [own] at before
    rcases before with before | here
    · exact (ahead i own before).imp id (covered i)
    · exact Or.inr (covered i here)

/-- A packet goes to another thread, which is still to be woken up. -/
theorem handOff {i : Nat} {d d' : Dispatch P} {work : Bool} {p : P} (inv : Inv affinity sys)
    (here : sys.phase u = .dispatching d work .draining) (client : clientAt (sys.graph u) d.node = some (.ifNode i))
    (other : affinity i ≠ u) (run : d.pop = .ok (some p, d')) :
    Inv affinity ((sys.setThreadQ i (sys.threadQ i ++ [(p, u)])).move u (.dispatching d' work (.handed i))) := by
  have quiet := System.quiet_of_eq here (by simp)
  have locals := inv.locals u
  rw [here] at locals
  obtain ⟨_, _, _, node, _, length⟩ := Dispatch.pop_cases run
  have covered : ∀ j, sys.Covered affinity j →
      (sys.setThreadQ i (sys.threadQ i ++ [(p, u)]) |>.move u (.dispatching d' work (.handed i))).Covered
        affinity j := by
    intro j covered
    by_cases same : j = i
    · subst same
      refine Or.inr (Or.inr ⟨p, u, ?_, d', work, System.move_self ..⟩)
      change (Function.update sys.threadQ j _ j).getLast? = _
      rw [Function.update_self, List.getLast?_concat]
    · exact covered.move (quiet j) (fun v other => Function.update_of_ne other ..) (Function.update_of_ne same ..)
        (Nat.le_refl _)
  refine inv.frame (u := u) (fun _ _ => rfl) (fun v other => Function.update_of_ne other ..) (fun _ _ => id)
    (fun j _ => covered j) ?_ (fun blocked => ?_) fun j own => ?_
  · rw [System.move_self]
    exact ⟨locals.shaped, length.trans locals.queues.1, locals.queues.2.pop rfl run nofun⟩
  · rw [System.move_self] at blocked
    cases blocked
  · rw [System.move_self]
    have before := inv.covered j
    rw [own, here] at before
    rcases before with (later | ⟨same, _⟩) | before
    · exact Or.inl (Or.inl (node ▸ later))
    · cases Client.ifNode.inj (Option.some.inj (client.symm.trans same))
      exact absurd own other
    · exact Or.inr (covered j before)

/-- The thread of the interface is woken up for the packet. -/
theorem ring {i : Nat} {d : Dispatch P} {work : Bool} (inv : Inv affinity sys)
    (here : sys.phase u = .dispatching d work (.handed i)) :
    Inv affinity ((sys.ring (affinity i)).move u (.dispatching d work .draining)) := by
  have locals := inv.locals u
  rw [here] at locals
  have covered : ∀ j, sys.Covered affinity j →
      ((sys.ring (affinity i)).move u (.dispatching d work .draining)).Covered affinity j := by
    intro j covered
    by_cases same : affinity j = affinity i
    · have rung : 0 < (sys.ring (affinity i)).efd (affinity i) := by
        rw [System.ring_self]
        exact Nat.succ_pos _
      exact Or.inr (Or.inl (same ▸ rung))
    · refine covered.move (fun ⟨_, _, handing⟩ => ?_) (fun v other => Function.update_of_ne other ..) rfl
        (sys.ring_le ..)
      cases here.symm.trans handing
      exact same rfl
  refine inv.frame (u := u) (fun _ _ => rfl) (fun v other => Function.update_of_ne other ..)
    (fun v _ heard => heard.imp id (Or.imp (fun pos => Nat.lt_of_lt_of_le pos (sys.ring_le ..)) id))
      (fun j _ => covered j) ?_
    (fun blocked => ?_) fun j own => ?_
  · rw [System.move_self]
    exact ⟨locals.shaped, locals.queues⟩
  · rw [System.move_self] at blocked
    cases blocked
  · rw [System.move_self]
    have before := inv.covered j
    rw [own, here] at before
    rcases before with (later | ⟨_, stage⟩) | before
    · exact Or.inl (Or.inl later)
    · simp only [reduceCtorEq, or_self] at stage
    · exact Or.inr (covered j before)

/-- The owner takes a packet from the `thread_q`. -/
theorem takeThreadQ {i : Nat} {entry : P × Fin n} {rest : List (P × Fin n)} (inv : Inv affinity sys)
    (shape : sys.threadQ i = entry :: rest) : Inv affinity (sys.setThreadQ i rest) := by
  refine inv.static rfl rfl (fun _ => id) fun j covered => ?_
  by_cases same : j = i
  · subst same
    have now : (sys.setThreadQ j rest).threadQ j = rest := Function.update_self ..
    cases rest with
    | nil => exact Or.inl now
    | cons next rest =>
      rcases covered with empty | rung | ⟨p, v, newest, handing⟩
      · cases shape.symm.trans empty
      · exact Or.inr (Or.inl rung)
      · rw [shape, List.getLast?_cons_cons] at newest
        exact Or.inr (Or.inr ⟨p, v, now.symm ▸ newest, handing⟩)
  · rcases covered with empty | rung | ⟨p, v, newest, handing⟩
    · exact Or.inl ((Function.update_of_ne same ..).trans empty)
    · exact Or.inr (Or.inl rung)
    · exact Or.inr (Or.inr ⟨p, v, (congrArg _ (Function.update_of_ne same ..)).trans newest, handing⟩)

theorem send {msg : CtrlMsg} (inv : Inv affinity sys) (free : sys.sender = none) :
    Inv affinity { sys.setChannel u (sys.channel u ++ [msg]) with sender := some u } := by
  refine inv.static rfl rfl (fun v heard => ?_) fun _ => id
  by_cases same : v = u
  · subst same
    exact Or.inr (Or.inr rfl)
  · rcases heard with empty | rung | sent
    · exact Or.inl ((Function.update_of_ne same ..).trans empty)
    · exact Or.inr (Or.inl rung)
    · cases free.symm.trans sent

theorem signal (inv : Inv affinity sys) (sent : sys.sender = some u) :
    Inv affinity { sys.ring u with sender := none } := by
  refine inv.static rfl rfl (fun v heard => ?_) fun i covered => ?_
  · rcases heard with empty | rung | sent'
    · exact Or.inl empty
    · exact Or.inr (Or.inl (Nat.lt_of_lt_of_le rung (sys.ring_le ..)))
    · cases Option.some.inj (sent.symm.trans sent')
      refine Or.inr (Or.inl ?_)
      change 0 < (sys.ring u).efd u
      rw [System.ring_self]
      exact Nat.succ_pos _
  · exact covered.imp id (Or.imp (fun rung => Nat.lt_of_lt_of_le rung (sys.ring_le ..)) id)

/-- The eventfd is read, and everything is looked at again. -/
theorem read (inv : Inv affinity sys) (woken : sys.phase u = .woken) :
    Inv affinity ({ sys with efd := Function.update sys.efd u 0 }.move u .ready) := by
  have quiet := System.quiet_of_eq woken (by simp)
  refine inv.alone quiet (fun _ _ => rfl) (fun v other => Function.update_of_ne other ..) (fun v other heard => ?_)
    (fun v other => Function.update_of_ne other ..) rfl ?_ (fun blocked => ?_) fun i own => ?_
  · exact heard.imp id (Or.imp (fun rung => Nat.lt_of_lt_of_eq rung (Function.update_of_ne other ..).symm) id)
  · rw [System.move_self]
    exact ⟨(inv.locals u).shaped, trivial⟩
  · rw [System.move_self] at blocked
    cases blocked
  · rw [System.move_self]
    exact Or.inl trivial

theorem inner {g : Graph Client P} {phase : Phase P} (inv : Inv affinity sys)
    (step : LocalStep (fun i => affinity i = u) (sys.graph u) (sys.phase u) g phase) :
    Inv affinity ({ sys with graph := Function.update sys.graph u g }.move u phase) := by
  obtain ⟨settled, awake⟩ := step.busy
  have quiet := System.quiet_of_eq rfl settled
  refine inv.alone quiet (fun v other => Function.update_of_ne other ..)
    (fun v other => Function.update_of_ne other ..)
    (fun _ _ => id) (fun _ _ => rfl) rfl ?_ (fun blocked => ?_) fun i own => ?_
  · rw [System.move_self]
    change LocalOk (Function.update sys.graph u g u) phase
    rw [Function.update_self]
    exact step.ok (inv.locals u)
  · rw [System.move_self] at blocked
    exact absurd blocked awake
  · have before := inv.covered i
    rw [own] at before
    rcases before with ahead | covered
    · refine Or.inl ?_
      rw [System.move_self]
      change Ahead (Function.update sys.graph u g u) phase i
      rw [Function.update_self]
      exact step.ahead (decide_eq_true own) ahead
    · exact Or.inr (covered.move (quiet i) (fun v other => Function.update_of_ne other ..) rfl (Nat.le_refl _))

/-- A message is taken from the channel. -/
theorem receive {work : Bool} {msg : CtrlMsg} {rest : List CtrlMsg} (inv : Inv affinity sys)
    (here : sys.phase u = .control work) :
    Inv affinity { sys.setChannel u rest with graph := Function.update sys.graph u (msg.handle (sys.graph u)) } := by
  have quiet := System.quiet_of_eq here (by simp)
  have locals := inv.locals u
  rw [here] at locals
  obtain ⟨shaped, queues⟩ := msg.handle_queues locals.shaped
  refine inv.alone quiet (fun v other => Function.update_of_ne other ..) (fun _ _ => rfl) (fun v other heard => ?_)
    (fun _ _ => rfl) rfl ?_ (fun blocked => ?_) fun i own => ?_
  · exact heard.imp (Function.update_of_ne other ..).trans id
  · change LocalOk (Function.update sys.graph u _ u) (sys.phase u)
    rw [Function.update_self, here]
    refine ⟨shaped, fun m _ => ?_⟩
    rw [queues]
    by_cases inside : m < (sys.graph u).nodes.length
    · exact locals.queues m inside
    · exact Or.inl (waitingIn_past (by rw [locals.shaped]; exact not_lt.mp inside))
  · cases here.symm.trans blocked
  · have before := inv.covered i
    rw [own, here] at before
    exact Or.inr ((before.resolve_left id).move (quiet i) (fun _ _ => rfl) rfl (Nat.le_refl _))

end Inv

/-- Every step keeps the invariant; only a call of `Graph::run` has a condition. -/
theorem Step.inv {event : Event n} (step : Step affinity sys event sys') (inv : Inv affinity sys)
    (prepared : ∀ v, event = .start v → sys.Prepared affinity v) : Inv affinity sys' := by
  cases step with
  | @wake u blocked _ =>
    exact inv.move (System.quiet_of_eq blocked (by simp)) ⟨(inv.locals u).shaped, trivial⟩ nofun
      fun _ _ _ => Or.inl trivial
  | read woken => exact inv.read woken
  | @start u ready =>
    refine inv.move (System.quiet_of_eq ready (by simp)) ⟨(inv.locals u).shaped, nofun⟩ nofun fun i own _ => ?_
    rcases prepared u rfl i own with covered | ⟨m, here⟩
    · exact Or.inr covered
    · exact Or.inl ⟨m, Nat.zero_le m, here⟩
  | inner step => exact inv.inner step
  | handOff here client other run _ => exact inv.handOff here client other run
  | @handOffFull u i d work d' p here client other run _ =>
    have locals := inv.locals u
    rw [here] at locals
    obtain ⟨_, _, _, node, _, length⟩ := Dispatch.pop_cases run
    refine inv.move (System.quiet_of_eq here (by simp))
      ⟨locals.shaped, length.trans locals.queues.1, locals.queues.2.pop rfl run nofun⟩ nofun fun j own ahead => ?_
    rw [here] at ahead
    change AheadOf _ d'.node _ _ ∨ _
    rw [node]
    exact Or.inl ahead
  | ring here => exact inv.ring here
  | takeThreadQ _ _ shape => exact inv.takeThreadQ shape
  | @emptied u i d work here client empty =>
    have locals := inv.locals u
    rw [here] at locals
    refine inv.move (System.quiet_of_eq here (by simp)) ⟨locals.shaped, locals.queues⟩ nofun fun j own ahead => ?_
    rw [here] at ahead
    rcases ahead with later | ⟨same, _⟩
    · exact Or.inl (Or.inl later)
    · cases Client.ifNode.inj (Option.some.inj (client.symm.trans same))
      exact Or.inr (Or.inl empty)
  | receive here _ => exact inv.receive here
  | @again u here _ =>
    exact inv.move (System.quiet_of_eq here (by simp)) ⟨(inv.locals u).shaped, trivial⟩ nofun
      fun _ _ _ => Or.inl trivial
  | @sleep u here empty =>
    have locals := inv.locals u
    rw [here] at locals
    have cleared : Cleared (sys.graph u).vectors (sys.graph u).vectors.length false := locals.shaped ▸ locals.queues
    refine inv.move (System.quiet_of_eq here (by simp)) ⟨locals.shaped, cleared.all⟩ (fun _ => Or.inl empty)
      fun i _ ahead => ?_
    rw [here] at ahead
    exact absurd ahead id
  | send msg free => exact inv.send free
  | signal sent => exact inv.signal sent

theorem Initial.inv (initial : Initial sys) : Inv affinity sys where
  locals u := by
    rw [initial.phase]
    exact ⟨initial.shaped u, trivial⟩
  heard u _ := Or.inl (initial.channel u)
  covered i := Or.inr (Or.inl (initial.threadQ i))

end R2.Threads

namespace R2

open Threads

/-- Over every interleaving of the threads in which each thread, whenever it calls `Graph::run`, has the
`IfNode` of each of its interfaces whose packets would wake up nobody, no thread ever sleeps on pending
work: its queues are empty, and a message or a packet that it has not seen will wake it up. -/
theorem rests_when_prepared {n : Nat} {P : Type} {affinity : Nat → Fin n} {sys : Threads.System n P}
    (reached : Reached affinity (Threads.System.Prepared affinity) sys) : sys.RestsSafely affinity := by
  have inv : Inv affinity sys := by
    induction reached with
    | init initial => exact initial.inv
    | step _ step prepared ih => exact step.inv ih prepared
  exact inv.restsSafely

/-- The nodes of an interface, as the control thread sends them. -/
def interfaceNodes (i : Nat) : List CtrlMsg :=
  [.gnodeAdd (.ifNode i) ⟨"rx_tx:" ++ toString i, ["drop", "l2_eth_decap:" ++ toString i], ⟨0, 0⟩⟩,
    .gnodeAdd .feature ⟨"l2_eth_decap:" ++ toString i, ["drop", "l3_ipv4_parse"], ⟨0, 0⟩⟩,
    .gnodeAdd .feature ⟨"l2_eth_encap:" ++ toString i, ["drop", "rx_tx:" ++ toString i], ⟨0, 0⟩⟩]

/-- The graph of a thread that knows interface 1. -/
def firstGraph (thread : Nat) : Graph Client Nat :=
  let g := ((Graph.new thread .feature).add .feature ⟨"l3_ipv4_parse", ["drop", "l3_ipv4_fwd"], ⟨0, 0⟩⟩).add .feature
    ⟨"l3_ipv4_fwd", ["drop", "encapmux"], ⟨0, 0⟩⟩
  let g := g.add .feature ⟨"encapmux", ["l2_eth_encap:0", "l2_eth_encap:1", "l2_eth_encap:2"], ⟨0, 0⟩⟩
  (interfaceNodes 1).foldl CtrlMsg.handle g

/-- Two threads; interface 2 is pinned to the second. -/
def pinned (i : Nat) : Fin 2 := if i = 2 then 1 else 0

def twoThreads : Threads.System 2 Nat where
  graph u := firstGraph u
  phase _ := .ready
  channel _ := []
  efd _ := 0
  threadQ _ := []
  sender := none

section

variable (u : Fin 2)

/-- A node finds nothing to do. -/
def passFeature : List (Choice 2 Nat) := [.inner u .visit, .inner u .pop]

def passOwned : List (Choice 2 Nat) :=
  [.inner u .visit, .inner u .pop, .emptied u, .inner u .proceed, .inner u .proceed]

def passOther : List (Choice 2 Nat) := [.inner u .visit, .inner u .pop, .inner u .proceed, .inner u .proceed]

/-- A node hands its packet on over edge `l`. -/
def passOn (l : Nat) : List (Choice 2 Nat) :=
  [.inner u .visit, .inner u .pop, .inner u (.push l 7), .inner u .proceed, .inner u .pop]

def passFeatures (k : Nat) : List (Choice 2 Nat) := (List.replicate k (passFeature u)).flatten

end

/-- The second thread goes to sleep, interface 2 is created, and the first
thread takes its nodes. -/
def createSecond : List (Choice 2 Nat) :=
  [[.start 1], passFeatures 1 4, passOther 1, passFeatures 1 2, [.inner 1 .proceed, .sleep 1],
    (interfaceNodes 2).flatMap fun msg => [.send 0 msg, .signal 0, .send 1 msg, .signal 1],
    [.start 0], passFeatures 0 4, passOwned 0, passFeatures 0 2,
    [.inner 0 .proceed, .receive 0, .receive 0, .receive 0, .sleep 0]].flatten

/-- The first thread gets packet 7 on interface 1 and comes to the node of interface 2 with it. -/
def carryPacket : List (Choice 2 Nat) :=
  [[.wake 0, .read 0, .start 0], passFeatures 0 4,
    [.inner 0 .visit, .inner 0 .pop, .emptied 0, .inner 0 .proceed, .inner 0 (.push 1 7), .inner 0 .proceed],
    passOn 0 1, passFeatures 0 1, passOther 0, passFeatures 0 2, [.inner 0 .proceed, .again 0, .start 0],
    passFeatures 0 1, passOn 0 1, passOn 0 1, passOn 0 2, passOwned 0, passFeatures 0 2, passOther 0,
    passFeatures 0 1, passOn 0 1, [.inner 0 .proceed, .again 0, .start 0],
    passFeatures 0 4, passOwned 0, passFeatures 0 2, [.inner 0 .visit]].flatten

def forwardPacket : List (Choice 2 Nat) := carryPacket ++ [.handOff 0, .ring 0]

/-- The second thread wakes up, takes the nodes and goes to sleep again. -/
def sleepAgain : List (Choice 2 Nat) :=
  [[.wake 1, .read 1, .start 1], passFeatures 1 4, passOther 1, passFeatures 1 2,
    [.inner 1 .proceed, .receive 1, .receive 1, .receive 1, .sleep 1]].flatten

theorem twoThreads_initial : Initial twoThreads where
  shaped u := by revert u; decide
  queues u := by revert u; decide
  phase _ := rfl
  channel _ := rfl
  threadQ _ := rfl
  sender := rfl

/-- The second thread sleeps on the packet for its interface: it was handed off
before the thread had the `IfNode`, and nobody wakes it up. -/
theorem sleeps_on_handed_packet :
    ∃ sys : Threads.System 2 Nat, Reached pinned (fun _ _ => True) sys ∧ ¬sys.RestsSafely pinned := by
  have values : (replay pinned twoThreads (createSecond ++ forwardPacket ++ sleepAgain)).map (fun sys =>
      (sys.phase 1, sys.efd 1, sys.threadQ 2, (Choice.run pinned sys (.ring 0)).isSome)) =
        some (.blocked, 0, [(7, 0)], false) := by decide +kernel
  obtain ⟨sys, run, values⟩ := Option.map_eq_some_iff.mp values
  simp only [Prod.mk.injEq] at values
  obtain ⟨blocked, silent, packet, written⟩ := values
  refine ⟨sys, (Reached.init twoThreads_initial).replay (fun _ _ _ _ _ => trivial) run, fun safe => ?_⟩
  rcases (safe 1 blocked).2.2 2 rfl with empty | rung | ⟨p, u, newest, d, work, handing⟩
  · cases packet.symm.trans empty
  · exact absurd silent (Nat.ne_of_gt rung)
  · rw [packet] at newest
    cases newest
    rw [Choice.run, handing] at written
    cases written

/-- The second thread has its node this time: it takes the packet and goes to sleep. -/
def takePacket : List (Choice 2 Nat) :=
  [passFeatures 1 4, passOther 1, passFeatures 1 2, [.inner 1 .visit, .inner 1 .pop, .take 1, .emptied 1],
    [.inner 1 .proceed, .inner 1 .proceed], passFeatures 1 2, [.inner 1 .proceed, .sleep 1]].flatten

/-- A thread that has taken the nodes of its interface in time gets a packet from
another thread, sends it and goes to sleep. -/
theorem rests_after_hand_off : ∃ woken sys : Threads.System 2 Nat,
    Reached pinned (Threads.System.Prepared pinned) woken ∧ woken.threadQ 2 = [(7, 0)] ∧
    replay pinned woken (.start 1 :: takePacket) = some sys ∧ sys.phase 1 = .blocked ∧ sys.threadQ 2 = [] ∧
    sys.RestsSafely pinned := by
  have values : ((replay pinned twoThreads (createSecond ++ sleepAgain ++ carryPacket)).bind fun carried =>
      (replay pinned carried [.handOff 0, .ring 0, .wake 1, .read 1]).bind fun woken =>
        (replay pinned woken (.start 1 :: takePacket)).map fun sys =>
          (woken.threadQ 2, clientAt (woken.graph 1) 7, sys.phase 1, sys.threadQ 2)) =
      some ([(7, 0)], some (.ifNode 2), .blocked, []) := by decide +kernel
  obtain ⟨carried, carries, values⟩ := Option.bind_eq_some_iff.mp values
  obtain ⟨woken, wakes, values⟩ := Option.bind_eq_some_iff.mp values
  obtain ⟨sys, takes, values⟩ := Option.map_eq_some_iff.mp values
  simp only [Prod.mk.injEq] at values
  obtain ⟨packet, node, blocked, taken⟩ := values
  have reached : Reached pinned (Threads.System.Prepared pinned) carried :=
    (Reached.init twoThreads_initial).replay_empty (fun _ => rfl) (fun _ _ empty i _ => Or.inl (Or.inl (empty i)))
      (by decide +kernel) carries
  have handed := reached.replay (by simp [Choice.event]) wakes
  have prepared : woken.Prepared pinned 1 := by
    intro i own
    by_cases two : i = 2
    · subst two
      exact Or.inr ⟨7, node⟩
    · rw [pinned, if_neg two] at own
      cases own
  obtain ⟨started, starts, rest⟩ := Option.bind_eq_some_iff.mp takes
  have began := handed.step (Choice.run_sound starts) fun u event => by
    cases event
    exact prepared
  have last := began.replay (by simp [takePacket, passFeatures, passFeature, passOther, Choice.event]) rest
  exact ⟨woken, sys, handed, packet, takes, blocked, taken, rests_when_prepared last⟩

end R2
