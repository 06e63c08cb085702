import R2.Threads.Loop

namespace R2

variable {γ P : Type}

/-- The packets that wait in a list of queues. -/
def waitingIn (vectors : List (VecDeque P)) (m : Nat) : List P := (vectors[m]?.map VecDeque.items).getD []

theorem waitingIn_set {vectors : List (VecDeque P)} {t m : Nat} {q : VecDeque P} (other : m ≠ t) :
    waitingIn (vectors.set t q) m = waitingIn vectors m := by
  rw [waitingIn, waitingIn, List.getElem?_set_ne (Ne.symm other)]

theorem waitingIn_past {vectors : List (VecDeque P)} {m : Nat} (past : vectors.length ≤ m) :
    waitingIn vectors m = [] := by
  rw [waitingIn, List.getElem?_eq_none_iff.mpr past]
  rfl

namespace Dispatch

variable {d d' : Dispatch P}

/-- `pop` takes the first packet of the node's own queue. -/
theorem pop_cases {p : Option P} (run : d.pop = .ok (p, d')) :
    p = (waitingIn d.vectors d.node).head? ∧ waitingIn d'.vectors d.node = (waitingIn d.vectors d.node).tail ∧
      (∀ m, m ≠ d.node → waitingIn d'.vectors m = waitingIn d.vectors m) ∧ d'.node = d.node ∧ d'.work = d.work ∧
        d'.vectors.length = d.vectors.length := by
  unfold pop at run
  split at run
  · cases run
  · rename_i q here
    cases Except.ok.inj run
    have own : waitingIn d.vectors d.node = q.items := by
      rw [waitingIn, here]
      rfl
    refine ⟨?_, ?_, fun m other => waitingIn_set other, rfl, rfl, List.length_set⟩
    · rw [own]
    · rw [own, waitingIn, List.getElem?_set_self (List.getElem?_eq_some_iff.mp here).1]
      rfl

/-- `push` to a node that has been visited or to the node itself asks for another round. -/
theorem push_cases {l : Nat} {p : P} {pushed : Bool} (run : d.push l p = .ok (pushed, d')) :
    d'.node = d.node ∧ d'.vectors.length = d.vectors.length ∧
      (d'.work = true ∨ d'.work = d.work ∧ ∀ m ≤ d.node, waitingIn d'.vectors m = waitingIn d.vectors m) := by
  unfold push at run
  split at run
  · cases run
  · rename_i t _
    split at run
    · split at run
      · dsimp only at run
        split at run
        · cases Except.ok.inj run
          exact ⟨rfl, List.length_set, Or.inl rfl⟩
        · cases Except.ok.inj run
          exact ⟨rfl, List.length_set, Or.inr ⟨rfl, fun m before => waitingIn_set (by omega)⟩⟩
      · cases Except.ok.inj run
        exact ⟨rfl, rfl, Or.inr ⟨rfl, fun _ _ => rfl⟩⟩
    · cases run

theorem wakeupIn_work (d : Dispatch P) (wakeup : Nat) :
    (d.wakeupIn wakeup).work = true ∧ (d.wakeupIn wakeup).vectors = d.vectors ∧
      (d.wakeupIn wakeup).node = d.node := by
  unfold wakeupIn
  split
  · split
    · exact ⟨‹_›, rfl, rfl⟩
    · exact ⟨‹_›, rfl, rfl⟩
  · exact ⟨rfl, rfl, rfl⟩

end Dispatch

namespace Threads

/-- The first `k` queues are empty, or there is more work to do. -/
def Cleared (vectors : List (VecDeque P)) (k : Nat) (work : Bool) : Prop :=
  ∀ m < k, waitingIn vectors m = [] ∨ work = true

theorem Cleared.worked (vectors : List (VecDeque P)) (k : Nat) : Cleared vectors k true := fun _ _ => Or.inr rfl

variable {d d' : Dispatch P} {stage stage' : Stage} {work : Bool} {client : Client} {owner : Bool}

/-- The passed nodes while `dispatch` of another runs. -/
def DispatchOk (d : Dispatch P) (stage : Stage) (work : Bool) : Prop :=
  Cleared d.vectors (if stage.drained then d.node + 1 else d.node) (work || d.work)

theorem DispatchOk.pop {p : Option P} (ok : DispatchOk d stage work) (undrained : stage.drained = false)
    (run : d.pop = .ok (p, d')) (rest : stage'.drained = true → p = none) : DispatchOk d' stage' work := by
  obtain ⟨head, tail, others, node, same, _⟩ := Dispatch.pop_cases run
  unfold DispatchOk at ok ⊢
  rw [undrained] at ok
  rw [same, node]
  intro m before
  by_cases own : m = d.node
  · subst own
    refine Or.inl ?_
    cases drained : stage'.drained with
    | false =>
      rw [drained] at before
      exact absurd before (Nat.lt_irrefl _)
    | true =>
      rw [tail]
      have none := rest drained
      rw [head, List.head?_eq_none_iff] at none
      rw [none]
      rfl
  · rw [others m own]
    refine ok m ?_
    simp only [Bool.false_eq_true, if_false]
    split at before <;> omega

theorem DispatchOk.push {l : Nat} {p : P} {pushed : Bool} (ok : DispatchOk d stage work)
    (run : d.push l p = .ok (pushed, d')) (same : stage'.drained = stage.drained) : DispatchOk d' stage' work := by
  obtain ⟨node, _, worked | ⟨sameWork, before⟩⟩ := Dispatch.push_cases run
  · unfold DispatchOk
    rw [worked, Bool.or_true]
    exact Cleared.worked _ _
  · unfold DispatchOk at ok ⊢
    rw [same, node, sameWork]
    intro m passed
    rw [before m (by split at passed <;> omega)]
    exact ok m passed

theorem DispatchStep.ok (step : DispatchStep client owner d stage d' stage') (ok : DispatchOk d stage work) :
    DispatchOk d' stage' work := by
  cases step with
  | take run => exact ok.pop rfl run nofun
  | forward run => exact ok.push run rfl
  | next => exact ok
  | transmit run => exact ok.pop rfl run nofun
  | drained run => exact ok.pop rfl run fun _ => rfl
  | drainedOther run => exact ok.pop rfl run fun _ => rfl
  | idle => exact ok
  | queued =>
    unfold DispatchOk
    rw [(d.wakeupIn_work 0).1, Bool.or_true]
    exact Cleared.worked _ _
  | receive run => exact ok.push run rfl

theorem DispatchStep.same (step : DispatchStep client owner d stage d' stage') :
    d'.vectors.length = d.vectors.length ∧ d'.node = d.node := by
  cases step with
  | take run => exact ⟨(Dispatch.pop_cases run).2.2.2.2.2, (Dispatch.pop_cases run).2.2.2.1⟩
  | forward run => exact ⟨(Dispatch.push_cases run).2.1, (Dispatch.push_cases run).1⟩
  | next => exact ⟨rfl, rfl⟩
  | transmit run => exact ⟨(Dispatch.pop_cases run).2.2.2.2.2, (Dispatch.pop_cases run).2.2.2.1⟩
  | drained run => exact ⟨(Dispatch.pop_cases run).2.2.2.2.2, (Dispatch.pop_cases run).2.2.2.1⟩
  | drainedOther run => exact ⟨(Dispatch.pop_cases run).2.2.2.2.2, (Dispatch.pop_cases run).2.2.2.1⟩
  | idle => exact ⟨rfl, rfl⟩
  | queued => exact ⟨congrArg List.length (d.wakeupIn_work 0).2.1, (d.wakeupIn_work 0).2.2⟩
  | receive run => exact ⟨(Dispatch.push_cases run).2.1, (Dispatch.push_cases run).1⟩

theorem DispatchEnd.cleared (ending : DispatchEnd client d stage d') (ok : DispatchOk d stage work) :
    Cleared d'.vectors (d.node + 1) (work || d'.work) ∧ d'.vectors.length = d.vectors.length := by
  cases ending with
  | feature run =>
    obtain ⟨_, _, _, node, _, length⟩ := Dispatch.pop_cases run
    have cleared : DispatchOk d' .scheduling work := ok.pop rfl run fun _ => rfl
    exact ⟨node ▸ cleared, length⟩
  | ifNode => exact ⟨ok, rfl⟩

variable {g g' : Graph Client P} {phase phase' : Phase P}

/-- The queues that a call of `Graph::run` has passed are empty, or it will
report work. -/
def QueuesOk (g : Graph Client P) : Phase P → Prop
  | .blocked => ∀ m, waitingIn g.vectors m = []
  | .woken => True
  | .ready => True
  | .running k work => Cleared g.vectors k work
  | .dispatching d work stage => d.vectors.length = g.nodes.length ∧ DispatchOk d stage work
  | .control work => Cleared g.vectors g.nodes.length work

/-- A thread whose nodes have their queues. -/
structure LocalOk (g : Graph Client P) (phase : Phase P) : Prop where
  shaped : g.vectors.length = g.nodes.length
  queues : QueuesOk g phase

theorem LocalStep.ok {owner : Nat → Bool} (step : LocalStep owner g phase g' phase') (ok : LocalOk g phase) :
    LocalOk g' phase' := by
  obtain ⟨shaped, queues⟩ := ok
  cases step with
  | interrupted => exact ⟨shaped, trivial⟩
  | visit run =>
    unfold Graph.dispatch at run
    split at run
    · cases run
    · cases Except.ok.inj run
      refine ⟨shaped, shaped, ?_⟩
      simp only [DispatchOk, Bool.or_false]
      exact queues
  | feature _ step => exact ⟨shaped, step.same.1.trans queues.1, step.ok queues.2⟩
  | ifNode _ step => exact ⟨shaped, step.same.1.trans queues.1, step.ok queues.2⟩
  | finish _ ending =>
    obtain ⟨cleared, length⟩ := ending.cleared queues.2
    exact ⟨length.trans queues.1, cleared⟩
  | leave => exact ⟨shaped, queues⟩

theorem waitingIn_concat (vectors : List (VecDeque P)) (capacity m : Nat) :
    waitingIn (vectors ++ [.withCapacity capacity]) m = waitingIn vectors m := by
  unfold waitingIn
  rw [List.getElem?_append]
  split
  · rfl
  · rename_i past
    rw [List.getElem?_eq_none_iff.mpr (not_lt.mp past)]
    cases m - vectors.length with
    | zero => rfl
    | succ k => rfl

/-- A message leaves the queues as they are. -/
theorem CtrlMsg.handle_queues (msg : CtrlMsg) (shaped : g.vectors.length = g.nodes.length) :
    (msg.handle g).vectors.length = (msg.handle g).nodes.length ∧
      ∀ m, waitingIn (msg.handle g).vectors m = waitingIn g.vectors m := by
  cases msg with
  | update => exact ⟨shaped, fun _ => rfl⟩
  | gnodeAdd client init =>
    have added : (g.add client init).vectors.length = (g.add client init).nodes.length ∧
        ∀ m, waitingIn (g.add client init).vectors m = waitingIn g.vectors m := by
      unfold Graph.add
      split
      · exact ⟨shaped, fun _ => rfl⟩
      · exact ⟨by simp only [List.length_append, shaped, List.length_singleton], waitingIn_concat _ _⟩
    exact ⟨added.1.trans (List.length_map _).symm, added.2⟩

theorem Cleared.all {vectors : List (VecDeque P)} (cleared : Cleared vectors vectors.length false) (m : Nat) :
    waitingIn vectors m = [] := by
  by_cases inside : m < vectors.length
  · exact (cleared m inside).resolve_right Bool.false_ne_true
  · exact waitingIn_past (not_lt.mp inside)

end Threads

end R2
