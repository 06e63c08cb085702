import R2.Control.Names
import R2.Graph.Clients
import R2.Threads.Sleep

namespace R2.Threads

variable {n : Nat} {P : Type} {affinity : Nat → Fin n}

/-- The queues of a thread's nodes, which a node has while it runs. -/
def Phase.vectors (g : Graph Client P) : Phase P → List (VecDeque P)
  | dispatching d _ _ => d.vectors
  | _ => g.vectors

def System.vectors (sys : System n P) (u : Fin n) : List (VecDeque P) := (sys.phase u).vectors (sys.graph u)

def System.waiting (sys : System n P) (u : Fin n) (m : Nat) : List P := waitingIn (sys.vectors u) m

/-- What happens to packets. -/
inductive Happening (n : Nat) (P : Type)
  /-- enters the queue of a node -/
  | entered (u : Fin n) (m : Nat) (p : P)
  /-- is taken by an `IfNode` and goes to its driver -/
  | sent (u : Fin n) (i : Nat) (p : P)
  /-- is taken by an `IfNode` and put in the `thread_q` -/
  | handed (u : Fin n) (i : Nat) (p : P)
  /-- is taken by an `IfNode`, found no room in the `thread_q` and is counted in `threadq_fail` -/
  | failed (u : Fin n) (i : Nat) (p : P)
  /-- is taken from the `thread_q` and goes to the driver -/
  | relayed (u : Fin n) (i : Nat) (entry : P × Fin n)

/-- One step of the system and what happens to packets in it. -/
inductive Does (affinity : Nat → Fin n) (sys : System n P) :
    List (Happening n P) → Event n → System n P → Prop
  | entered {u d work stage d' stage' m l p} : sys.phase u = .dispatching d work stage →
      LocalStep (fun i => affinity i = u) (sys.graph u) (.dispatching d work stage)
        (sys.graph u) (.dispatching d' work stage') →
      d.nodes[l]? = some m → d.push l p = .ok (true, d') →
      Does affinity sys [.entered u m p] .other (sys.move u (.dispatching d' work stage'))
  | sent {u i d work d' p} : sys.phase u = .dispatching d work .draining →
      clientAt (sys.graph u) d.node = some (.ifNode i) → affinity i = u → d.pop = .ok (some p, d') →
      Does affinity sys [.sent u i p] .other (sys.move u (.dispatching d' work .draining))
  | handed {u i d work d' p} : sys.phase u = .dispatching d work .draining →
      clientAt (sys.graph u) d.node = some (.ifNode i) → affinity i ≠ u → d.pop = .ok (some p, d') →
      (sys.threadQ i).length < vecSize →
      Does affinity sys [.handed u i p] .other
        ((sys.setThreadQ i (sys.threadQ i ++ [(p, u)])).move u (.dispatching d' work (.handed i)))
  | failed {u i d work d' p} : sys.phase u = .dispatching d work .draining →
      clientAt (sys.graph u) d.node = some (.ifNode i) → affinity i ≠ u → d.pop = .ok (some p, d') →
      vecSize ≤ (sys.threadQ i).length →
      Does affinity sys [.failed u i p] .other (sys.move u (.dispatching d' work .draining))
  | relayed {u i d work entry rest} : sys.phase u = .dispatching d work .threadQ →
      clientAt (sys.graph u) d.node = some (.ifNode i) → sys.threadQ i = entry :: rest →
      Does affinity sys [.relayed u i entry] .other (sys.setThreadQ i rest)
  /-- The queues of the interfaces stay as they are. -/
  | silent {event sys'} : Step affinity sys event sys' → sys'.threadQ = sys.threadQ →
      (∀ u m i, clientAt (sys'.graph u) m = some (.ifNode i) → sys'.waiting u m = sys.waiting u m) →
      Does affinity sys [] event sys'

/-- A graph whose nodes have the names that the code gives them. -/
structure Named (g : Graph Client P) : Prop where
  indexed : g.Indexed
  ifNode : ∀ node ∈ g.nodes, ∀ i, node.client = .ifNode i → node.name = Names.rxTx i

def CtrlMsg.Named : CtrlMsg → Prop
  | gnodeAdd client init => init.name ≠ dropName ∧ ∀ i, client = .ifNode i → init.name = Names.rxTx i
  | update => True

/-- A system after some steps, with what has happened to packets since the launch. -/
inductive Recorded (affinity : Nat → Fin n) (allowed : System n P → Fin n → Prop) :
    System n P → List (Happening n P) → Prop
  | init {sys} : Initial sys → (∀ u, Named (sys.graph u)) → Recorded affinity allowed sys []
  | step {sys past now event sys'} : Recorded affinity allowed sys past → Does affinity sys now event sys' →
      (∀ u, event = .start u → allowed sys u) → (∀ u, ∀ msg ∈ sys'.channel u, msg.Named) →
      Recorded affinity allowed sys' (past ++ now)

variable {sys sys' : System n P} {u : Fin n}

theorem push_true {d d' : Dispatch P} {l m : Nat} {p : P} (edge : d.nodes[l]? = some m)
    (run : d.push l p = .ok (true, d')) :
    waitingIn d'.vectors m = waitingIn d.vectors m ++ [p] ∧ m < d.vectors.length ∧
      ∀ k, k ≠ m → waitingIn d'.vectors k = waitingIn d.vectors k := by
  unfold Dispatch.push at run
  rw [edge] at run
  dsimp only at run
  split at run
  · rename_i q c here _
    have inside := (List.getElem?_eq_some_iff.mp here).1
    have entered : waitingIn (d.vectors.set m (q.pushBack p)) m = waitingIn d.vectors m ++ [p] := by
      rw [waitingIn, waitingIn, List.getElem?_set_self inside, here]
      rfl
    split at run
    · split at run
      · cases run
        exact ⟨entered, inside, fun k other => waitingIn_set other⟩
      · cases run
        exact ⟨entered, inside, fun k other => waitingIn_set other⟩
    · cases run
  · cases run

theorem push_false {d d' : Dispatch P} {l : Nat} {p : P} (run : d.push l p = .ok (false, d')) :
    d'.vectors = d.vectors := by
  unfold Dispatch.push at run
  split at run
  · cases run
  · split at run
    · split at run
      · dsimp only at run
        split at run <;> cases run
      · cases run
        rfl
    · cases run

theorem push_edge {d d' : Dispatch P} {l : Nat} {p : P} {pushed : Bool} (run : d.push l p = .ok (pushed, d')) :
    ∃ m, d.nodes[l]? = some m := by
  unfold Dispatch.push at run
  split at run
  · cases run
  · rename_i m edge
    exact ⟨m, edge⟩

theorem Does.step {now : List (Happening n P)} {event : Event n} (does : Does affinity sys now event sys') :
    Step affinity sys event sys' := by
  cases does with
  | entered here step =>
    have inner := Step.inner (here ▸ step)
    rw [Function.update_eq_self] at inner
    exact inner
  | @sent u i d work d' p here client own popped =>
    have step : LocalStep (fun i => affinity i = u) (sys.graph u) (.dispatching d work .draining)
        (sys.graph u) (.dispatching d' work .draining) :=
      .ifNode client (by rw [decide_eq_true own]; exact .transmit popped)
    have inner := Step.inner (here ▸ step)
    rw [Function.update_eq_self] at inner
    exact inner
  | handed here client other popped room => exact .handOff here client other popped room
  | failed here client other popped full => exact .handOffFull here client other popped full
  | relayed here client first => exact .takeThreadQ here client first
  | silent step => exact step

/-- What a step of a thread's own is to the queues of interfaces. -/
inductive Handles (owner : Nat → Bool) (g : Graph Client P) (phase : Phase P) (g' : Graph Client P) (phase' : Phase P) :
    Prop
  | entered {d work stage d' stage' m l p} : phase = .dispatching d work stage → g' = g →
      phase' = .dispatching d' work stage' → d.nodes[l]? = some m → d.push l p = .ok (true, d') →
      Handles owner g phase g' phase'
  | sent {i d work d' p} : phase = .dispatching d work .draining → g' = g →
      phase' = .dispatching d' work .draining → clientAt g d.node = some (.ifNode i) → owner i = true →
      d.pop = .ok (some p, d') → Handles owner g phase g' phase'
  | silent : (∀ m i, clientAt g' m = some (.ifNode i) →
      waitingIn (phase'.vectors g') m = waitingIn (phase.vectors g) m) → Handles owner g phase g' phase'

theorem pop_none {d d' : Dispatch P} (run : d.pop = .ok (none, d')) (m : Nat) :
    waitingIn d'.vectors m = waitingIn d.vectors m := by
  obtain ⟨head, tail, others, _⟩ := Dispatch.pop_cases run
  by_cases own : m = d.node
  · have empty := List.head?_eq_none_iff.mp head.symm
    rw [own, tail, empty]
    rfl
  · exact others m own

theorem LocalStep.handles {owner : Nat → Bool} {g g' : Graph Client P} {phase phase' : Phase P}
    (step : LocalStep owner g phase g' phase') : Handles owner g phase g' phase' := by
  cases step with
  | interrupted => exact .silent fun _ _ _ => rfl
  | visit run =>
    unfold Graph.dispatch at run
    split at run
    · cases run
    · cases run
      exact .silent fun _ _ _ => rfl
  | feature client step =>
    cases step with
    | take run =>
      refine .silent fun m i node => (Dispatch.pop_cases run).2.2.1 m ?_
      rintro rfl
      cases client.symm.trans node
    | @forward _ _ _ l p pushed run =>
      cases pushed with
      | true =>
        obtain ⟨m, edge⟩ := push_edge run
        exact .entered rfl rfl rfl edge run
      | false => exact .silent fun m _ _ => congrArg (waitingIn · m) (push_false run)
    | next => exact .silent fun _ _ _ => rfl
  | @ifNode i _ _ _ _ _ client step =>
    generalize own : owner i = mine at step
    cases step with
    | transmit run => exact .sent rfl rfl rfl client own run
    | drained run => exact .silent fun m _ _ => pop_none run m
    | drainedOther run => exact .silent fun m _ _ => pop_none run m
    | idle => exact .silent fun _ _ _ => rfl
    | queued => exact .silent fun m _ _ => congrArg (waitingIn · m) (Dispatch.wakeupIn_work _ 0).2.1
    | @receive _ _ _ _ p pushed _ run =>
      cases pushed with
      | true =>
        obtain ⟨m, edge⟩ := push_edge run
        exact .entered rfl rfl rfl edge run
      | false => exact .silent fun m _ _ => congrArg (waitingIn · m) (push_false run)
  | finish _ ending =>
    cases ending with
    | feature run => exact .silent fun m _ _ => pop_none run m
    | ifNode => exact .silent fun _ _ _ => rfl
  | leave => exact .silent fun _ _ _ => rfl

/-- A step of one thread leaves the queues of the others as they are. -/
theorem System.waiting_frame (sys sys' : System n P) (graph : ∀ v, v ≠ u → sys'.graph v = sys.graph v)
    (phase : ∀ v, v ≠ u → sys'.phase v = sys.phase v) {v : Fin n} {m : Nat}
    (own : waitingIn ((sys'.phase u).vectors (sys'.graph u)) m = waitingIn ((sys.phase u).vectors (sys.graph u)) m) :
    sys'.waiting v m = sys.waiting v m := by
  unfold System.waiting System.vectors
  by_cases other : v = u
  · rw [other]
    exact own
  · rw [graph v other, phase v other]

theorem System.waiting_move (sys sys' : System n P) {phase : Phase P} (same : sys'.graph = sys.graph)
    (phases : sys'.phase = sys.phase)
    (own : phase.vectors (sys.graph u) = (sys.phase u).vectors (sys.graph u)) (v : Fin n) (m : Nat) :
    (sys'.move u phase).waiting v m = sys.waiting v m := by
  refine System.waiting_frame sys _ (u := u) ?_ ?_ ?_
  · intro v _
    exact congrFun same v
  · intro v other
    rw [System.move_of_ne phase other, phases]
  · rw [System.move_self]
    exact congrArg (waitingIn · m) ((congrArg phase.vectors (congrFun same u)).trans own)

/-- Every step does something to packets, or leaves the queues of interfaces alone. -/
theorem Step.does {event : Event n} (step : Step affinity sys event sys')
    (shaped : ∀ u, (sys.graph u).vectors.length = (sys.graph u).nodes.length) :
    ∃ now, Does affinity sys now event sys' := by
  cases step with
  | wake here rung =>
    exact ⟨[], .silent (.wake here rung) rfl fun v m _ _ => System.waiting_move sys _ rfl rfl (by rw [here]; rfl) v m⟩
  | read here =>
    exact ⟨[], .silent (.read here) rfl fun v m _ _ => System.waiting_move sys _ rfl rfl (by rw [here]; rfl) v m⟩
  | start here =>
    exact ⟨[], .silent (.start here) rfl fun v m _ _ => System.waiting_move sys _ rfl rfl (by rw [here]; rfl) v m⟩
  | @inner u g phase own =>
    cases own.handles with
    | @entered d work stage d' stage' m l p before same after edge run =>
      subst after
      cases same
      rw [Function.update_eq_self]
      exact ⟨_, .entered before (before ▸ own) edge run⟩
    | sent before same after client mine run =>
      subst after
      cases same
      rw [Function.update_eq_self]
      exact ⟨_, .sent before client (of_decide_eq_true mine) run⟩
    | silent same =>
      refine ⟨[], .silent (.inner own) rfl fun v m i node => ?_⟩
      by_cases mine : v = u
      · subst mine
        have here : clientAt g m = some (.ifNode i) := by
          have changed : Function.update sys.graph v g v = g := Function.update_self ..
          exact changed ▸ node
        refine System.waiting_frame sys _ (u := v) ?_ ?_ ?_
        · intro w other
          exact Function.update_of_ne other ..
        · intro w other
          exact System.move_of_ne phase other
        rw [System.move_self]
        change waitingIn (phase.vectors (Function.update sys.graph v g v)) m = _
        rw [Function.update_self]
        exact same m i here
      · unfold System.waiting System.vectors
        rw [System.move_of_ne phase mine]
        change waitingIn ((sys.phase v).vectors (Function.update sys.graph u g v)) m = _
        rw [Function.update_of_ne mine]
  | handOff here client other popped room => exact ⟨_, .handed here client other popped room⟩
  | handOffFull here client other popped full => exact ⟨_, .failed here client other popped full⟩
  | ring here =>
    exact ⟨[], .silent (.ring here) rfl fun v m _ _ => System.waiting_move sys _ rfl rfl (by rw [here]; rfl) v m⟩
  | takeThreadQ here client first => exact ⟨_, .relayed here client first⟩
  | emptied here client empty =>
    exact ⟨[], .silent (.emptied here client empty) rfl fun v m _ _ =>
      System.waiting_move sys _ rfl rfl (by rw [here]; rfl) v m⟩
  | @receive u work msg rest here head =>
    refine ⟨[], .silent (.receive here head) rfl fun v m _ _ => ?_⟩
    refine System.waiting_frame sys _ (u := u) ?_ ?_ ?_
    · intro w other
      exact Function.update_of_ne other ..
    · intro _ _
      rfl
    change waitingIn ((sys.phase u).vectors (Function.update sys.graph u (msg.handle (sys.graph u)) u)) m = _
    rw [here, Function.update_self]
    exact (msg.handle_queues (shaped u)).2 m
  | again here empty =>
    exact ⟨[], .silent (.again here empty) rfl fun v m _ _ => System.waiting_move sys _ rfl rfl (by rw [here]; rfl) v m⟩
  | sleep here empty =>
    exact ⟨[], .silent (.sleep here empty) rfl fun v m _ _ => System.waiting_move sys _ rfl rfl (by rw [here]; rfl) v m⟩
  | send msg free => exact ⟨[], .silent (.send msg free) rfl fun _ _ _ _ => rfl⟩
  | signal sent => exact ⟨[], .silent (.signal sent) rfl fun _ _ _ _ => rfl⟩

end R2.Threads
