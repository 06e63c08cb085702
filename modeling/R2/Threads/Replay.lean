import R2.Threads.Loop

namespace R2.Threads

variable {n : Nat} {P : Type}

/-- What a thread does next on its own, where it has a choice. -/
inductive Move (P : Type)
  | interrupted
  | visit
  | pop
  | push (l : Nat) (pkt : P)
  | proceed

/-- The outcome of a move that is possible. -/
def Move.run (owner : Nat → Bool) (g : Graph Client P) (phase : Phase P) (move : Move P) :
    Option (Graph Client P × Phase P) :=
  match move, phase with
  | .interrupted, .blocked => some (g, .ready)
  | .visit, .running k work =>
    match g.dispatch k with
    | .ok d => some (g, .dispatching d work .draining)
    | .error _ => none
  | .pop, .dispatching d work .draining =>
    match clientAt g d.node, d.pop with
    | some .feature, .ok (some _, d') => some (g, .dispatching d' work .forwarding)
    | some .feature, .ok (none, d') => some (g.collect d', .running (d.node + 1) (work || d'.work))
    | some (.ifNode i), .ok (some _, d') => if owner i then some (g, .dispatching d' work .draining) else none
    | some (.ifNode i), .ok (none, d') =>
      some (g, .dispatching d' work (if owner i then .threadQ else .scheduling))
    | _, _ => none
  | .push l pkt, .dispatching d work .forwarding =>
    match clientAt g d.node, d.push l pkt with
    | some .feature, .ok (_, d') => some (g, .dispatching d' work .forwarding)
    | _, _ => none
  | .push _ pkt, .dispatching d work (.receiving (left + 1)) =>
    match clientAt g d.node, d.push 1 pkt with
    | some (.ifNode _), .ok (_, d') => some (g, .dispatching d' work (.receiving left))
    | _, _ => none
  | .proceed, .dispatching d work .forwarding =>
    match clientAt g d.node with
    | some .feature => some (g, .dispatching d work .draining)
    | _ => none
  | .proceed, .dispatching d work .scheduling =>
    match clientAt g d.node with
    | some (.ifNode i) => some (g, .dispatching d work (.receiving (if owner i then vecSize else 0)))
    | _ => none
  | .proceed, .dispatching d work (.receiving _) =>
    match clientAt g d.node with
    | some (.ifNode _) => some (g.collect d, .running (d.node + 1) (work || d.work))
    | _ => none
  | .proceed, .running k work => if k = g.nodes.length then some (g, .control work) else none
  | _, _ => none

theorem Move.run_sound {owner : Nat → Bool} {g g' : Graph Client P} {phase phase' : Phase P} {move : Move P}
    (run : move.run owner g phase = some (g', phase')) : LocalStep owner g phase g' phase' := by
  unfold Move.run at run
  split at run
  · cases run
    exact .interrupted
  · split at run
    · cases run
      exact .visit ‹_›
    · cases run
  · split at run
    · cases run
      exact .feature ‹_› (.take ‹_›)
    · cases run
      exact .finish ‹_› (.feature ‹_›)
    · rename_i client _
      split at run
      · rename_i own
        cases run
        exact .ifNode client (own ▸ .transmit ‹_›)
      · cases run
    · rename_i i d client popped
      cases run
      refine .ifNode client ?_
      cases own : owner i with
      | true => exact .drained popped
      | false => exact .drainedOther popped
    · cases run
  · split at run
    · cases run
      exact .feature ‹_› (.forward ‹_›)
    · cases run
  · split at run
    · cases run
      exact .ifNode ‹_› (.receive ‹_›)
    · cases run
  · split at run
    · cases run
      exact .feature ‹_› .next
    · cases run
  · split at run
    · cases run
      exact .ifNode ‹_› .idle
    · cases run
  · split at run
    · cases run
      exact .finish ‹_› .ifNode
    · cases run
  · split at run
    · rename_i past
      cases run
      exact past ▸ .leave
    · cases run
  · cases run

/-- What happens next in a system. -/
inductive Choice (n : Nat) (P : Type)
  | wake (u : Fin n)
  | read (u : Fin n)
  | start (u : Fin n)
  | inner (u : Fin n) (move : Move P)
  | handOff (u : Fin n)
  | ring (u : Fin n)
  | take (u : Fin n)
  | emptied (u : Fin n)
  | receive (u : Fin n)
  | again (u : Fin n)
  | sleep (u : Fin n)
  | send (u : Fin n) (msg : CtrlMsg)
  | signal (u : Fin n)

def Choice.run (affinity : Nat → Fin n) (sys : System n P) : Choice n P → Option (System n P)
  | wake u =>
    match sys.phase u with
    | .blocked => if 0 < sys.efd u then some (sys.move u .woken) else none
    | _ => none
  | read u =>
    match sys.phase u with
    | .woken => some ({ sys with efd := Function.update sys.efd u 0 }.move u .ready)
    | _ => none
  | start u =>
    match sys.phase u with
    | .ready => some (sys.move u (.running 0 false))
    | _ => none
  | inner u move =>
    match move.run (fun i => affinity i = u) (sys.graph u) (sys.phase u) with
    | some (g, phase) => some ({ sys with graph := Function.update sys.graph u g }.move u phase)
    | none => none
  | handOff u =>
    match sys.phase u with
    | .dispatching d work .draining =>
      match clientAt (sys.graph u) d.node, d.pop with
      | some (.ifNode i), .ok (some p, d') =>
        if affinity i ≠ u ∧ (sys.threadQ i).length < vecSize then
          some ((sys.setThreadQ i (sys.threadQ i ++ [(p, u)])).move u (.dispatching d' work (.handed i)))
        else none
      | _, _ => none
    | _ => none
  | ring u =>
    match sys.phase u with
    | .dispatching d work (.handed i) => some ((sys.ring (affinity i)).move u (.dispatching d work .draining))
    | _ => none
  | take u =>
    match sys.phase u with
    | .dispatching d _ .threadQ =>
      match clientAt (sys.graph u) d.node with
      | some (.ifNode i) =>
        match sys.threadQ i with
        | _ :: rest => some (sys.setThreadQ i rest)
        | [] => none
      | _ => none
    | _ => none
  | emptied u =>
    match sys.phase u with
    | .dispatching d work .threadQ =>
      match clientAt (sys.graph u) d.node with
      | some (.ifNode i) =>
        match sys.threadQ i with
        | [] => some (sys.move u (.dispatching d work .scheduling))
        | _ => none
      | _ => none
    | _ => none
  | receive u =>
    match sys.phase u, sys.channel u with
    | .control _, msg :: rest =>
      some { sys.setChannel u rest with graph := Function.update sys.graph u (msg.handle (sys.graph u)) }
    | _, _ => none
  | again u =>
    match sys.phase u, sys.channel u with
    | .control true, [] => some (sys.move u .ready)
    | _, _ => none
  | sleep u =>
    match sys.phase u, sys.channel u with
    | .control false, [] => some (sys.move u .blocked)
    | _, _ => none
  | send u msg =>
    match sys.sender with
    | none => some { sys.setChannel u (sys.channel u ++ [msg]) with sender := some u }
    | some _ => none
  | signal u => if sys.sender = some u then some { sys.ring u with sender := none } else none

def Choice.event : Choice n P → Event n
  | start u => .start u
  | _ => .other

/-- Each choice is a step of the system. -/
theorem Choice.run_sound {affinity : Nat → Fin n} {sys sys' : System n P} {choice : Choice n P}
    (run : choice.run affinity sys = some sys') : Step affinity sys choice.event sys' := by
  unfold Choice.run at run
  split at run
  · split at run
    · split at run
      · cases run
        exact .wake ‹_› ‹_›
      · cases run
    · cases run
  · split at run
    · cases run
      exact .read ‹_›
    · cases run
  · split at run
    · cases run
      exact .start ‹_›
    · cases run
  · split at run
    · rename_i moved
      cases run
      exact .inner (Move.run_sound moved)
    · cases run
  · split at run
    · split at run
      · split at run
        · rename_i room
          cases run
          exact .handOff ‹_› ‹_› room.1 ‹_› room.2
        · cases run
      · cases run
    · cases run
  · split at run
    · cases run
      exact .ring ‹_›
    · cases run
  · split at run
    · split at run
      · split at run
        · cases run
          exact .takeThreadQ ‹_› ‹_› ‹_›
        · cases run
      · cases run
    · cases run
  · split at run
    · split at run
      · split at run
        · cases run
          exact .emptied ‹_› ‹_› ‹_›
        · cases run
      · cases run
    · cases run
  · split at run
    · cases run
      exact .receive ‹_› ‹_›
    · cases run
  · split at run
    · cases run
      exact .again ‹_› ‹_›
    · cases run
  · split at run
    · cases run
      exact .sleep ‹_› ‹_›
    · cases run
  · split at run
    · cases run
      exact .send _ ‹_›
    · cases run
  · split at run
    · cases run
      exact .signal ‹_›
    · cases run

/-- Whether a choice leaves the `thread_q`s alone. -/
def Choice.spares : Choice n P → Bool
  | handOff _ | take _ => false
  | _ => true

theorem Choice.run_threadQ {affinity : Nat → Fin n} {sys sys' : System n P} {choice : Choice n P}
    (spares : choice.spares = true) (run : choice.run affinity sys = some sys') : sys'.threadQ = sys.threadQ := by
  cases choice with
  | handOff => cases spares
  | take => cases spares
  | _ =>
    simp only [Choice.run] at run
    repeat' split at run
    all_goals
      cases run
      try rfl

/-- Choices in order. -/
def replay (affinity : Nat → Fin n) (sys : System n P) (choices : List (Choice n P)) : Option (System n P) :=
  choices.foldlM (Choice.run affinity) sys

/-- As long as nothing is handed over, only the starts of threads with empty queues matter. -/
theorem Reached.replay_empty {affinity : Nat → Fin n} {allowed : System n P → Fin n → Prop}
    {choices : List (Choice n P)} {sys sys' : System n P} (reached : Reached affinity allowed sys)
    (empty : ∀ i, sys.threadQ i = []) (allows : ∀ sys u, (∀ i, sys.threadQ i = []) → allowed sys u)
    (spares : ∀ choice ∈ choices, choice.spares = true) (run : replay affinity sys choices = some sys') :
    Reached affinity allowed sys' := by
  induction choices generalizing sys with
  | nil =>
    cases run
    exact reached
  | cons choice choices ih =>
    obtain ⟨between, first, rest⟩ := Option.bind_eq_some_iff.mp run
    obtain ⟨spared, spares⟩ := List.forall_mem_cons.mp spares
    have next := reached.step (Choice.run_sound first) fun u _ => allows sys u empty
    exact ih next (fun i => by rw [Choice.run_threadQ spared first, empty]) spares rest

theorem Reached.replay {affinity : Nat → Fin n} {allowed : System n P → Fin n → Prop} {choices : List (Choice n P)}
    {sys sys' : System n P} (reached : Reached affinity allowed sys)
    (starts : ∀ choice ∈ choices, ∀ u, choice.event = .start u → ∀ sys, allowed sys u)
    (run : replay affinity sys choices = some sys') : Reached affinity allowed sys' := by
  induction choices generalizing sys with
  | nil =>
    cases run
    exact reached
  | cons choice choices ih =>
    obtain ⟨between, first, rest⟩ := Option.bind_eq_some_iff.mp run
    have next := reached.step (Choice.run_sound first) fun u event =>
      starts choice (List.mem_cons_self ..) u event sys
    exact ih next (fun choice member => starts choice (List.mem_cons_of_mem _ member)) rest

end R2.Threads
