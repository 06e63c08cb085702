import R2.Base.Ensures
import R2.Graph.Edges

namespace R2

variable {γ P : Type}

/-- What a node can do with the queues. -/
inductive NodeCall (P : Type)
  | pop
  | push (l : Nat) (pkt : P)
  | wakeup (nsecs : Nat)
deriving DecidableEq, Repr

namespace Dispatch

def perform (d : Dispatch P) : NodeCall P → Outcome (Dispatch P)
  | .pop => do
    let (_, d) ← d.pop
    .ok d
  | .push l pkt => do
    let (_, d) ← d.push l pkt
    .ok d
  | .wakeup nsecs => .ok (d.wakeupIn nsecs)

end Dispatch

/-- What a node does when it is dispatched: the calls it makes, with its state
after them, from its thread and all it is handed. -/
abbrev Gclient (γ P : Type) := γ → Nat → Dispatch P → γ × List (NodeCall P)

namespace Graph

/-- The calls that node `n` makes. -/
def callsOf (client : Gclient γ P) (g : Graph γ P) (n : Nat) : List (NodeCall P) :=
  match g.nodes[n]?, g.dispatch n with
  | some node, .ok d => (client node.client g.thread d).2
  | _, _ => []

def dispatchNode (client : Gclient γ P) (g : Graph γ P) (n : Nat) : Outcome (Dispatch P × Graph γ P) :=
  match g.nodes[n]? with
  | none => .error .bounds
  | some node => do
    let d ← g.dispatch n
    let (state, calls) := client node.client g.thread d
    let d ← calls.foldlM Dispatch.perform d
    .ok (d, { g.collect d with nodes := g.nodes.set n { node with client := state } })

/-- One turn of the loop of `run`. -/
def runNode (client : Gclient γ P) (now : (Bool × Nat) × Graph γ P) (n : Nat) :
    Outcome ((Bool × Nat) × Graph γ P) := do
  let ((work, nsecs), g) := now
  let (d, g) ← g.dispatchNode client n
  if d.work then .ok ((true, if d.wakeup < nsecs then d.wakeup else nsecs), g)
  else .ok ((work, nsecs), g)

/-- Every node once. The freed packets that go back to the pool first are in no
queue of the graph. -/
def run (client : Gclient γ P) (g : Graph γ P) : Outcome ((Bool × Nat) × Graph γ P) :=
  (List.range g.nodes.length).foldlM (runNode client) ((false, usizeMax), g)

/-- The calls of all nodes that are dispatched in this order. -/
def callsOfAll (client : Gclient γ P) : List Nat → Graph γ P → List (NodeCall P)
  | [], _ => []
  | n :: ns, g =>
    g.callsOf client n ++
      match g.dispatchNode client n with
      | .ok (_, g) => callsOfAll client ns g
      | .error _ => []

/-- All calls in one run. -/
def runCalls (client : Gclient γ P) (g : Graph γ P) : List (NodeCall P) :=
  callsOfAll client (List.range g.nodes.length) g

end Graph

namespace Dispatch

/-- The packets that wait for a node. -/
def queue (d : Dispatch P) (m : Nat) : List P := (d.vectors[m]?.map VecDeque.items).getD []

/-- A dispatch in a graph of `size` nodes. -/
structure Shaped (d : Dispatch P) (size : Nat) : Prop where
  vectors : d.vectors.length = size
  counters : d.counters.length = size
  room : ∀ q ∈ d.vectors, 1 ≤ q.capacity
  inside : ∀ t ∈ d.nodes, t < size
  known : d.node < size

/-- There is work right now. -/
def Due (d : Dispatch P) : Prop := d.work = true ∧ d.wakeup = 0

/-- What calls leave of a dispatch: the time gets no later, and a packet that
arrives at a node up to this one is reported. -/
structure Keeps (d d' : Dispatch P) : Prop where
  node : d'.node = d.node
  nodes : d'.nodes = d.nodes
  sooner : d.work = true → d'.work = true ∧ d'.wakeup ≤ d.wakeup
  queued : ∀ m ≤ d.node, d'.queue m ≠ [] → d.queue m ≠ [] ∨ d'.Due

variable {d d' d'' : Dispatch P} {size : Nat}

theorem Due.kept (due : d.Due) (keeps : d.Keeps d') : d'.Due := by
  obtain ⟨work, soon⟩ := keeps.sooner due.1
  exact ⟨work, Nat.le_zero.mp (due.2 ▸ soon)⟩

theorem Keeps.refl (d : Dispatch P) : d.Keeps d := ⟨rfl, rfl, fun work => ⟨work, Nat.le_refl _⟩, fun _ _ => Or.inl⟩

theorem Keeps.trans (first : d.Keeps d') (second : d'.Keeps d'') : d.Keeps d'' where
  node := second.node.trans first.node
  nodes := second.nodes.trans first.nodes
  sooner work := by
    obtain ⟨work, soon⟩ := first.sooner work
    obtain ⟨work, sooner⟩ := second.sooner work
    exact ⟨work, sooner.trans soon⟩
  queued m before waiting := by
    rcases second.queued m (before.trans_eq first.node.symm) waiting with waiting | due
    · exact (first.queued m before waiting).imp_right fun due => due.kept second
    · exact Or.inr due

/-- A `pop` of a queue that is there. -/
theorem Shaped.pop_ok (shaped : d.Shaped size) : ∃ d', d.pop = .ok ((d.queue d.node).head?, d') ∧ d'.Shaped size ∧
    d.Keeps d' ∧ d'.queue d.node = (d.queue d.node).tail := by
  have known : d.node < d.vectors.length := shaped.vectors ▸ shaped.known
  have at_q : d.vectors[d.node]? = some d.vectors[d.node] := List.getElem?_eq_getElem known
  have own : d.queue d.node = d.vectors[d.node].items := by
    rw [queue, at_q]
    rfl
  let q : VecDeque P := { d.vectors[d.node] with items := d.vectors[d.node].items.tail }
  have popped : queue { d with vectors := d.vectors.set d.node q } d.node = (d.queue d.node).tail := by
    rw [queue, List.getElem?_set_self known, own]
    rfl
  refine ⟨{ d with vectors := d.vectors.set d.node q }, ?_, ⟨?_, shaped.counters, fun p member => ?_, shaped.inside,
    shaped.known⟩, ⟨rfl, rfl, fun work => ⟨work, Nat.le_refl _⟩, fun m _ waiting => Or.inl ?_⟩, popped⟩
  · rw [pop, at_q, own]
    rfl
  · exact List.length_set.trans shaped.vectors
  · rcases List.mem_or_eq_of_mem_set member with old | rfl
    · exact shaped.room p old
    · exact shaped.room d.vectors[d.node] (List.getElem_mem known)
  · by_cases same : m = d.node
    · subst same
      rw [popped] at waiting
      exact fun empty => waiting (by rw [empty, List.tail_nil])
    · rwa [queue, List.getElem?_set_ne (Ne.symm same)] at waiting

/-- A `push` over an edge that is there. -/
theorem Shaped.push_ok {l : Nat} (shaped : d.Shaped size) (edge : l < d.nodes.length) (pkt : P) :
    ∃ d', d.push l pkt = .ok (true, d') ∧ d'.Shaped size ∧ d.Keeps d' := by
  have inside := shaped.inside _ (List.getElem_mem edge)
  obtain ⟨t, at_t⟩ : ∃ t, d.nodes[l]? = some t := ⟨_, List.getElem?_eq_getElem edge⟩
  have inside := shaped.inside t (List.mem_of_getElem? at_t)
  obtain ⟨q, at_q⟩ : ∃ q, d.vectors[t]? = some q := ⟨_, List.getElem?_eq_getElem (shaped.vectors ▸ inside)⟩
  obtain ⟨c, at_c⟩ : ∃ c, d.counters[t]? = some c := ⟨_, List.getElem?_eq_getElem (shaped.counters ▸ inside)⟩
  have room : q.capacity ≥ 1 := shaped.room q (List.mem_of_getElem? at_q)
  have bigger : 1 ≤ (q.pushBack pkt).capacity := by
    unfold VecDeque.pushBack
    dsimp only
    split <;> omega
  let vectors := d.vectors.set t (q.pushBack pkt)
  let counters := d.counters.set t { c with enqed := c.enqed + 1 }
  have vectors_length : vectors.length = size := List.length_set.trans shaped.vectors
  have counters_length : counters.length = size := List.length_set.trans shaped.counters
  have rooms : ∀ p ∈ vectors, 1 ≤ p.capacity := by
    intro p member
    rcases List.mem_or_eq_of_mem_set member with old | rfl
    · exact shaped.room p old
    · exact bigger
  have others : ∀ m, m ≠ t → ((vectors[m]?.map VecDeque.items).getD []) = d.queue m := by
    intro m other
    rw [List.getElem?_set_ne (Ne.symm other), queue]
  by_cases back : t ≤ d.node
  · refine ⟨{ d with vectors, counters, work := true, wakeup := 0 }, ?_,
      ⟨vectors_length, counters_length, rooms, shaped.inside, shaped.known⟩,
      ⟨rfl, rfl, fun _ => ⟨rfl, Nat.zero_le _⟩, fun _ _ _ => Or.inr ⟨rfl, rfl⟩⟩⟩
    simp only [push, at_t, at_q, at_c, if_pos room, if_pos back]
    rfl
  · refine ⟨{ d with vectors, counters }, ?_, ⟨vectors_length, counters_length, rooms, shaped.inside, shaped.known⟩,
      ⟨rfl, rfl, fun work => ⟨work, Nat.le_refl _⟩, fun m before waiting => Or.inl ?_⟩⟩
    · simp only [push, at_t, at_q, at_c, if_pos room, if_neg back]
      rfl
    · rwa [← others m (by omega)]

theorem wakeupIn_spec (d : Dispatch P) (nsecs size : Nat) :
    (d.wakeupIn nsecs).work = true ∧ (d.wakeupIn nsecs).wakeup ≤ nsecs ∧ d.Keeps (d.wakeupIn nsecs) ∧
      (d.Shaped size → (d.wakeupIn nsecs).Shaped size) := by
  unfold wakeupIn
  split
  · rename_i work
    split
    · rename_i sooner
      exact ⟨work, Nat.le_refl _, ⟨rfl, rfl, fun _ => ⟨work, sooner.le⟩, fun _ _ => Or.inl⟩,
        fun shaped => ⟨shaped.vectors, shaped.counters, shaped.room, shaped.inside, shaped.known⟩⟩
    · exact ⟨work, not_lt.mp ‹_›, .refl d, id⟩
  · rename_i idle
    exact ⟨rfl, Nat.le_refl _, ⟨rfl, rfl, fun work => absurd work idle, fun _ _ => Or.inl⟩,
      fun shaped => ⟨shaped.vectors, shaped.counters, shaped.room, shaped.inside, shaped.known⟩⟩

/-- The edge of a push is there. -/
def Edged (d : Dispatch P) : NodeCall P → Prop
  | .push l _ => l < d.nodes.length
  | _ => True

theorem Keeps.edged {c : NodeCall P} (keeps : d.Keeps d') (edged : d.Edged c) : d'.Edged c := by
  cases c with
  | pop => trivial
  | push l pkt => exact edged.trans_eq (by rw [keeps.nodes])
  | wakeup nsecs => trivial

theorem Shaped.perform_ok {c : NodeCall P} (shaped : d.Shaped size) (edged : d.Edged c) :
    ∃ d', d.perform c = .ok d' ∧ d'.Shaped size ∧ d.Keeps d' := by
  cases c with
  | pop =>
    obtain ⟨d', popped, kept, keeps, -⟩ := shaped.pop_ok
    exact ⟨d', by rw [perform, popped]; rfl, kept, keeps⟩
  | push l pkt =>
    obtain ⟨d', pushed, kept, keeps⟩ := shaped.push_ok edged pkt
    exact ⟨d', by rw [perform, pushed]; rfl, kept, keeps⟩
  | wakeup nsecs =>
    obtain ⟨-, -, keeps, kept⟩ := d.wakeupIn_spec nsecs size
    exact ⟨_, rfl, kept shaped, keeps⟩

theorem Shaped.performs_ok {calls : List (NodeCall P)} (shaped : d.Shaped size) (edged : ∀ c ∈ calls, d.Edged c) :
    ∃ d', calls.foldlM perform d = .ok d' ∧ d'.Shaped size ∧ d.Keeps d' := by
  induction calls generalizing d with
  | nil => exact ⟨d, rfl, shaped, .refl d⟩
  | cons c calls ih =>
    obtain ⟨d₁, first, shaped₁, keeps₁⟩ := shaped.perform_ok (edged c (List.mem_cons_self ..))
    obtain ⟨d', rest, shaped', keeps⟩ := ih shaped₁ fun c' member =>
      keeps₁.edged (edged c' (List.mem_cons_of_mem _ member))
    exact ⟨d', by rw [List.foldlM_cons, first]; exact rest, shaped', keeps₁.trans keeps⟩

/-- One of the calls is a `pop` that finds no packet. -/
def Drains (d : Dispatch P) (calls : List (NodeCall P)) : Prop :=
  ∃ before after mid mid', calls = before ++ .pop :: after ∧ before.foldlM perform d = .ok mid ∧
    mid.pop = .ok (none, mid')

/-- The part of the calls from some place on. -/
theorem Shaped.resume {before after : List (NodeCall P)} (shaped : d.Shaped size)
    (edged : ∀ c ∈ before ++ after, d.Edged c) (run : (before ++ after).foldlM perform d = .ok d') :
    ∃ mid, before.foldlM perform d = .ok mid ∧ mid.Shaped size ∧ d.Keeps mid ∧ (∀ c ∈ after, mid.Edged c) ∧
      after.foldlM perform mid = .ok d' := by
  rw [List.foldlM_append] at run
  obtain ⟨mid, first, second⟩ := Except.bind_ok_iff.mp run
  obtain ⟨mid', first', shaped', keeps⟩ := shaped.performs_ok fun c member => edged c (List.mem_append_left _ member)
  cases Except.ok.inj (first.symm.trans first')
  exact ⟨mid, first, shaped', keeps, fun c member => keeps.edged (edged c (List.mem_append_right _ member)), second⟩

/-- What waits for a node that has drained its queue came after that. -/
theorem Shaped.drained {calls : List (NodeCall P)} (shaped : d.Shaped size) (edged : ∀ c ∈ calls, d.Edged c)
    (run : calls.foldlM perform d = .ok d') (drains : d.Drains calls) (waiting : d'.queue d.node ≠ []) : d'.Due := by
  obtain ⟨before, after, mid, mid', rfl, first, popped⟩ := drains
  obtain ⟨mid₀, first', shapedMid, keepsMid, edgedMid, run⟩ := shaped.resume edged run
  cases Except.ok.inj (first.symm.trans first')
  obtain ⟨mid₁, popped', shapedMid', keeps, own⟩ := shapedMid.pop_ok
  obtain ⟨none, rfl⟩ := Prod.mk.inj (Except.ok.inj (popped.symm.trans popped'))
  have empty : mid'.queue mid.node = [] := by rw [own, List.head?_eq_none_iff.mp none.symm, List.tail_nil]
  rw [List.foldlM_cons, perform, popped] at run
  obtain ⟨d₁, run', -, keepsRest⟩ := shapedMid'.performs_ok fun c member =>
    keeps.edged (edgedMid c (List.mem_cons_of_mem _ member))
  cases Except.ok.inj (run'.symm.trans run)
  rw [← keepsMid.node] at waiting
  exact (keepsRest.queued mid.node (le_of_eq keeps.node.symm) waiting).resolve_left (not_not_intro empty)

/-- A node is woken no later than it asked for. -/
theorem Shaped.asked {calls : List (NodeCall P)} {nsecs : Nat} (shaped : d.Shaped size)
    (edged : ∀ c ∈ calls, d.Edged c) (run : calls.foldlM perform d = .ok d') (asked : .wakeup nsecs ∈ calls) :
    d'.work = true ∧ d'.wakeup ≤ nsecs := by
  obtain ⟨before, after, rfl⟩ := List.append_of_mem asked
  obtain ⟨mid, -, shapedMid, keepsMid, edgedMid, run⟩ := shaped.resume edged run
  obtain ⟨work, soon, keeps, kept⟩ := mid.wakeupIn_spec nsecs size
  obtain ⟨d₁, run', -, keepsRest⟩ := (kept shapedMid).performs_ok fun c member =>
    keeps.edged (edgedMid c (List.mem_cons_of_mem _ member))
  rw [List.foldlM_cons] at run
  cases Except.ok.inj (run'.symm.trans run)
  obtain ⟨work, sooner⟩ := keepsRest.sooner work
  exact ⟨work, sooner.trans soon⟩

end Dispatch

/-- A node that empties its queue whenever it is dispatched, and pushes over
edges that it has. -/
structure Gclient.Draining (client : Gclient γ P) : Prop where
  edged : ∀ state thread d, ∀ c ∈ (client state thread d).2, d.Edged c
  drains : ∀ state thread d d', (client state thread d).2.foldlM Dispatch.perform d = .ok d' →
    d.Drains (client state thread d).2

namespace Graph

variable {client : Gclient γ P} {g : Graph γ P}

theorem Shaped.dispatch_ok {n : Nat} (shaped : g.Shaped) (known : n < g.nodes.length) :
    ∃ node d, g.nodes[n]? = some node ∧ g.dispatch n = .ok d ∧ d.Shaped g.nodes.length ∧ d.node = n ∧
      d.queue = g.queue ∧ d.nodes = node.nextNodes := by
  obtain ⟨node, here⟩ : ∃ node, g.nodes[n]? = some node := ⟨_, List.getElem?_eq_getElem known⟩
  refine ⟨node, _, here, dispatch_eq here, ⟨shaped.vectors, shaped.counters, shaped.room, fun t member => ?_, known⟩,
    rfl, rfl, rfl⟩
  obtain ⟨l, inside⟩ := List.mem_iff_getElem?.mp member
  exact shaped.inside n l t (Option.bind_eq_some_iff.mpr ⟨node, here, inside⟩)

/-- A node that is dispatched leaves no packet behind unreported. -/
theorem Shaped.dispatchNode_ok {n : Nat} (shaped : g.Shaped) (known : n < g.nodes.length)
    (draining : client.Draining) : ∃ d' g', g.dispatchNode client n = .ok (d', g') ∧ g'.Shaped ∧
      g'.nodes.length = g.nodes.length ∧ (∀ m < n, g'.queue m ≠ [] → g.queue m ≠ [] ∨ d'.Due) ∧
      (g'.queue n ≠ [] → d'.Due) ∧
      ∀ nsecs, .wakeup nsecs ∈ g.callsOf client n → d'.work = true ∧ d'.wakeup ≤ nsecs := by
  obtain ⟨node, d, here, handed, shaped_d, rfl, queue, nodes⟩ := shaped.dispatch_ok known
  have edged := draining.edged node.client g.thread d
  obtain ⟨d', run, shaped', keeps⟩ := shaped_d.performs_ok edged
  have calls : g.callsOf client d.node = (client node.client g.thread d).2 := by rw [callsOf, here, handed]
  let g' : Graph γ P :=
    { g.collect d' with nodes := g.nodes.set d.node { node with client := (client node.client g.thread d).1 } }
  have size : g'.nodes.length = g.nodes.length := List.length_set
  have edges : g'.edge = g.edge := by
    funext m l
    unfold edge
    by_cases same : m = d.node
    · subst same
      rw [List.getElem?_set_self known, here]
      rfl
    · rw [List.getElem?_set_ne (Ne.symm same)]
  refine ⟨d', g', ?_, ⟨?_, ?_, shaped'.room, fun m l t edge => ?_⟩, size, fun m before waiting =>
    ?_, fun waiting => ?_,
    fun nsecs asked => ?_⟩
  · rw [dispatchNode, here]
    dsimp only
    rw [handed, Except.ok_bind, run]
    rfl
  · exact shaped'.vectors.trans size.symm
  · exact shaped'.counters.trans size.symm
  · rw [edges] at edge
    exact (shaped.inside m l t edge).trans_eq size.symm
  · rw [← queue]
    exact keeps.queued m before.le waiting
  · exact shaped_d.drained edged run (draining.drains _ _ _ _ run) waiting
  · rw [calls] at asked
    exact shaped_d.asked edged run asked

/-- What waits for the first `n` nodes is reported. -/
def Reported (g : Graph γ P) (work : Bool) (nsecs n : Nat) : Prop :=
  ∀ m < n, g.queue m ≠ [] → work = true ∧ nsecs = 0

theorem Shaped.runNode_ok {n nsecs : Nat} {work : Bool} (shaped : g.Shaped) (known : n < g.nodes.length)
    (draining : client.Draining) (reported : g.Reported work nsecs n) : ∃ d' work' nsecs' g',
      g.dispatchNode client n = .ok (d', g') ∧ runNode client ((work, nsecs), g) n = .ok ((work', nsecs'), g') ∧
      g'.Shaped ∧ g'.nodes.length = g.nodes.length ∧ g'.Reported work' nsecs' (n + 1) ∧ nsecs' ≤ nsecs ∧
      ∀ asked, .wakeup asked ∈ g.callsOf client n → nsecs' ≤ asked := by
  obtain ⟨d', g', run, shaped', size, earlier, own, asked⟩ := shaped.dispatchNode_ok known draining
  have step : runNode client ((work, nsecs), g) n =
      if d'.work then .ok ((true, if d'.wakeup < nsecs then d'.wakeup else nsecs), g') else .ok
        ((work, nsecs), g') := by
    unfold runNode
    dsimp only
    rw [run, Except.ok_bind]
  have waits : ∀ m < n + 1, g'.queue m ≠ [] → (work = true ∧ nsecs = 0) ∨ d'.Due := by
    intro m before waiting
    rcases Nat.lt_succ_iff_lt_or_eq.mp before with before | rfl
    · exact (earlier m before waiting).imp_left (reported m before)
    · exact Or.inr (own waiting)
  by_cases busy : d'.work = true
  · rw [if_pos busy] at step
    refine ⟨d', _, _, g', run, step, shaped', size, fun m before waiting => ⟨rfl, ?_⟩, ?_, fun nsecs' call => ?_⟩
    · rcases waits m before waiting with ⟨_, now⟩ | ⟨_, now⟩
      · split <;> omega
      · split <;> omega
    · split <;> omega
    · have := (asked nsecs' call).2
      split <;> omega
  · rw [if_neg busy] at step
    refine ⟨d', _, _, g', run, step, shaped', size, fun m before waiting => ?_, Nat.le_refl _, fun nsecs' call => ?_⟩
    · exact (waits m before waiting).resolve_right fun due => busy due.1
    · exact absurd (asked nsecs' call).1 busy

/-- The loop of `run`, from node `n` on. -/
theorem Shaped.sweep_ok {n k nsecs : Nat} {work : Bool} (shaped : g.Shaped) (rest : n + k = g.nodes.length)
    (draining : client.Draining) (reported : g.Reported work nsecs n) : ∃ work' nsecs' g',
      (List.range' n k).foldlM (runNode client) ((work, nsecs), g) = .ok ((work', nsecs'), g') ∧ g'.Shaped ∧
      g'.Reported work' nsecs' g'.nodes.length ∧ nsecs' ≤ nsecs ∧
      ∀ asked, .wakeup asked ∈ callsOfAll client (List.range' n k) g → nsecs' ≤ asked := by
  induction k generalizing n nsecs work g with
  | zero =>
    rw [Nat.add_zero] at rest
    exact ⟨work, nsecs, g, rfl, shaped, rest ▸ reported, Nat.le_refl _, nofun⟩
  | succ k ih =>
    obtain ⟨d₁, work₁, nsecs₁, g₁, dispatched, step, shaped₁, size, reported₁, sooner₁, asked₁⟩ :=
      shaped.runNode_ok (by omega) draining reported
    obtain ⟨work', nsecs', g', run, shaped', reported', sooner, asked⟩ := ih shaped₁ (by omega) reported₁
    refine ⟨work', nsecs', g', ?_, shaped', reported', sooner.trans sooner₁, fun nsecs call => ?_⟩
    · rw [List.range'_succ, List.foldlM_cons, step]
      exact run
    · rw [List.range'_succ, callsOfAll, dispatched] at call
      rcases List.mem_append.mp call with first | later
      · exact sooner.trans (asked₁ nsecs first)
      · exact asked nsecs later

end Graph

/-- When all nodes drain their queues, `run` returns, it reports work for right
now when a packet still waits for any node, and it returns no later time than
any node asked for. -/
theorem run_reports_work {client : Gclient γ P} {g : Graph γ P} (shaped : g.Shaped) (draining : client.Draining) :
    ∃ work nsecs g', g.run client = .ok ((work, nsecs), g') ∧
      (∀ m, g'.queue m ≠ [] → work = true ∧ nsecs = 0) ∧
      ∀ asked, .wakeup asked ∈ g.runCalls client → nsecs ≤ asked := by
  obtain ⟨work, nsecs, g', run, shaped', reported, -, asked⟩ :=
    shaped.sweep_ok (Nat.zero_add _) draining (fun m before => absurd before (Nat.not_lt_zero m) :
      g.Reported false usizeMax 0)
  rw [← List.range_eq_range'] at run asked
  refine ⟨work, nsecs, g', run, fun m waiting => reported m ?_ waiting, asked⟩
  by_contra past
  refine waiting ?_
  rw [Graph.queue, List.getElem?_eq_none (by rw [shaped'.vectors]; omega)]
  rfl

namespace Dispatch

variable {d d' : Dispatch P}

theorem pop_queue {pkt : Option P} (run : d.pop = .ok (pkt, d')) :
    pkt = (d.queue d.node).head? ∧ d'.node = d.node ∧ d'.queue d.node = (d.queue d.node).tail := by
  unfold pop at run
  split at run
  · cases run
  · rename_i q here
    obtain ⟨rfl, rfl⟩ := Prod.mk.inj (Except.ok.inj run)
    have own : d.queue d.node = q.items := by
      rw [queue, here]
      rfl
    refine ⟨congrArg List.head? own.symm, rfl, ?_⟩
    rw [own, queue, List.getElem?_set_self (List.getElem?_eq_some_iff.mp here).1]
    rfl

/-- One `pop` more than packets wait drains the queue. -/
theorem drains_pops {k : Nat} {after : List (NodeCall P)} (count : (d.queue d.node).length = k)
    (run : (List.replicate (k + 1) NodeCall.pop ++ after).foldlM perform d = .ok d') :
    d.Drains (List.replicate (k + 1) .pop ++ after) := by
  induction k generalizing d with
  | zero =>
    obtain ⟨mid, first, -⟩ := Except.bind_ok_iff.mp run
    obtain ⟨⟨pkt, d₁⟩, popped, -⟩ := Except.bind_ok_iff.mp first
    have none := (pop_queue popped).1
    rw [List.length_eq_zero_iff.mp count, List.head?_nil] at none
    exact ⟨[], after, d, d₁, rfl, rfl, none ▸ popped⟩
  | succ k ih =>
    obtain ⟨mid, first, rest⟩ := Except.bind_ok_iff.mp run
    obtain ⟨⟨pkt, d₁⟩, popped, same⟩ := Except.bind_ok_iff.mp first
    cases Except.ok.inj same
    obtain ⟨-, node, tail⟩ := pop_queue popped
    have fewer : (mid.queue mid.node).length = k := by rw [node, tail, List.length_tail, count, Nat.add_sub_cancel]
    obtain ⟨before, after', mid₁, mid₂, calls, run₁, empty⟩ := ih fewer rest
    refine ⟨NodeCall.pop :: before, after', mid₁, mid₂, ?_, ?_, empty⟩
    · rw [List.replicate_succ, List.cons_append, calls, List.cons_append]
    · rw [List.foldlM_cons, first]
      exact run₁

end Dispatch

/-- A node that drops what it gets, makes a packet for its second edge, and asks
to be woken. -/
def producing : Gclient Unit Nat := fun state _ d =>
  (state, List.replicate ((d.queue d.node).length + 1) .pop ++
    ((if 1 < d.nodes.length then [.push 1 9] else []) ++ [.wakeup 50]))

theorem producing_draining : producing.Draining where
  edged state thread d c member := by
    rcases List.mem_append.mp member with pops | rest
    · cases List.eq_of_mem_replicate pops
      trivial
    · rcases List.mem_append.mp rest with pushes | wakes
      · split at pushes
        · cases List.mem_singleton.mp pushes
          assumption
        · cases pushes
      · cases List.mem_singleton.mp wakes
        trivial
  drains _ _ _ _ run := Dispatch.drains_pops rfl run

/-- A node whose second edge leads back to the drop node. -/
def returning : Graph Unit Nat := ((Graph.new 0 ()).add () ⟨"a", ["a", "drop"], ⟨0, 0⟩⟩).finalize

theorem run_reports_work_returned : ∃ g', returning.run producing = .ok ((true, 0), g') ∧ g'.queue 0 = [9] := by
  have reached : Graph.Reached (γ := Unit) (P := Nat) 0 () _ returning := .finalize (.add .new (by decide))
  obtain ⟨work, nsecs, g', run, reported, -⟩ := run_reports_work reached.resolves.shaped producing_draining
  obtain ⟨now, g₁, run₁, queue⟩ : ∃ now g₁, returning.run producing = .ok (now, g₁) ∧ g₁.queue 0 = [9] :=
    ⟨_, _, rfl, rfl⟩
  obtain ⟨rfl, rfl⟩ := Prod.mk.inj (Except.ok.inj (run.symm.trans run₁))
  obtain ⟨rfl, rfl⟩ := reported 0 (by rw [queue]; exact List.cons_ne_nil _ _)
  exact ⟨g', run, queue⟩

end R2
