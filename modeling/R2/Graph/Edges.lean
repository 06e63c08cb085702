import R2.Base.Queues
import R2.Graph.Graph

namespace R2

variable {γ P : Type}

/-- A node as it was registered. -/
structure NodeSpec (γ : Type) where
  client : γ
  name : String
  nextNames : List String
deriving DecidableEq, Repr

def Gnode.spec (node : Gnode γ) : NodeSpec γ := ⟨node.client, node.name, node.nextNames⟩

/-- What happens to a graph. -/
inductive GraphEvent (γ P : Type)
  | add (client : γ) (init : GnodeInit)
  | finalize
  | push (n l : Nat) (pkt : P)
  | pop (n : Nat) (pkt : Option P)

/-- The registered nodes, each name by the node that came first, and those that
the last `finalize` has seen. -/
structure Edges (γ : Type) where
  nodes : List (NodeSpec γ)
  linked : List (NodeSpec γ)

/-- The place of the node of this name. -/
def placeOf (nodes : List (NodeSpec γ)) (name : String) : Option Nat := nodes.findIdx? fun node => node.name = name

theorem getElem?_of_prefix {α : Type} {xs ys : List α} {i : Nat} {a : α} (h : xs <+: ys) (here : xs[i]? = some a) :
    ys[i]? = some a := by
  obtain ⟨rest, rfl⟩ := h
  rw [List.getElem?_append_left (List.getElem?_eq_some_iff.mp here).1, here]

theorem placeOf_some {nodes : List (NodeSpec γ)} {name : String} {i : Nat} (place : placeOf nodes name = some i) :
    ∃ node, nodes[i]? = some node ∧ node.name = name := by
  obtain ⟨inside, named, _⟩ := List.findIdx?_eq_some_iff_getElem.mp place
  exact ⟨nodes[i], List.getElem?_eq_getElem inside, of_decide_eq_true named⟩

theorem placeOf_concat (nodes : List (NodeSpec γ)) (spec : NodeSpec γ) (name : String) :
    placeOf (nodes ++ [spec]) name =
      (placeOf nodes name).or (if spec.name = name then some nodes.length else none) := by
  unfold placeOf
  rw [List.findIdx?_append]
  by_cases same : spec.name = name
  · simp [same]
  · simp [same]

/-- A name that is taken is not registered again. -/
def register (nodes : List (NodeSpec γ)) (spec : NodeSpec γ) : List (NodeSpec γ) :=
  if (placeOf nodes spec.name).isSome then nodes else nodes ++ [spec]

theorem register_prefix (nodes : List (NodeSpec γ)) (spec : NodeSpec γ) : nodes <+: register nodes spec := by
  unfold register
  split
  · exact List.prefix_rfl
  · exact List.prefix_append ..

namespace Edges

def new (dropNode : γ) : Edges γ := ⟨[⟨dropNode, dropName, []⟩], []⟩

def step (e : Edges γ) : GraphEvent γ P → Edges γ
  | .add client init => { e with nodes := register e.nodes ⟨client, init.name, init.nextNames⟩ }
  | .finalize => { e with linked := e.nodes }
  | .push .. => e
  | .pop .. => e

/-- Where a name leads: to the node of that name, or to the drop node. -/
def lookup (e : Edges γ) (name : String) : Nat := (placeOf e.linked name).getD 0

/-- Where the edges of node `n` lead. -/
def next (e : Edges γ) (n : Nat) : List Nat :=
  match e.linked[n]? with
  | some node => node.nextNames.map e.lookup
  | none => []

def target (e : Edges γ) (n l : Nat) : Option Nat := (e.next n)[l]?

/-- The edges after a history of a graph. -/
def after (dropNode : γ) (history : List (GraphEvent γ P)) : Edges γ := history.foldl step (new dropNode)

/-- What an event does to the queues when the edges are these. -/
def queueEvent (e : Edges γ) : GraphEvent γ P → QueueEvent Nat P
  | .push n l pkt =>
    match e.target n l with
    | some t => .put t pkt
    | none => .quiet
  | .pop n (some pkt) => .take n pkt
  | _ => .quiet

/-- What a history does to the queues, each push by the edges of its time. -/
def traffic (e : Edges γ) : List (GraphEvent γ P) → List (QueueEvent Nat P)
  | [] => []
  | event :: history => e.queueEvent event :: traffic (e.step event) history

theorem traffic_append (e : Edges γ) (history : List (GraphEvent γ P)) (event : GraphEvent γ P) :
    e.traffic (history ++ [event]) = e.traffic history ++ [(history.foldl step e).queueEvent event] := by
  induction history generalizing e with
  | nil => rfl
  | cons first history ih => exact congrArg (List.cons _) (ih _)

theorem after_append (dropNode : γ) (history : List (GraphEvent γ P)) (event : GraphEvent γ P) :
    after dropNode (history ++ [event]) = (after dropNode history).step event := List.foldl_append

theorem nodes_prefix_step (e : Edges γ) (event : GraphEvent γ P) : e.nodes <+: (e.step event).nodes := by
  cases event with
  | add client init => exact register_prefix ..
  | finalize => exact List.prefix_rfl
  | push n l pkt => exact List.prefix_rfl
  | pop n pkt => exact List.prefix_rfl

/-- A node that is registered keeps its place. -/
theorem nodes_prefix (e : Edges γ) (history : List (GraphEvent γ P)) :
    e.nodes <+: (history.foldl step e).nodes := by
  induction history generalizing e with
  | nil => exact List.prefix_rfl
  | cons event history ih => exact (nodes_prefix_step e event).trans (ih _)

end Edges

theorem setNext_eq (done old : List Nat) (index : Nat) :
    setNext (done ++ old) done.length index = done ++ [index] ++ old.tail := by
  cases old with
  | nil => simp [setNext]
  | cons next rest => simp [setNext]

/-- The loops of `finalize` write the index of each name in its place. -/
theorem foldl_setNext (index : String → Nat) (done : List Nat) {names : List String} {old : List Nat}
    (short : old.length ≤ names.length) :
    (names.zipIdx done.length).foldl (fun nodes (name, l) => setNext nodes l (index name)) (done ++ old) =
      done ++ names.map index := by
  induction names generalizing done old with
  | nil => rw [List.length_eq_zero_iff.mp (Nat.le_zero.mp short), List.zipIdx_nil, List.foldl_nil, List.map_nil]
  | cons name names ih =>
    have next := @ih (done ++ [index name]) old.tail (by rw [List.length_tail]; exact Nat.sub_le_of_le_add short)
    rw [List.length_append, List.length_singleton] at next
    rw [List.zipIdx_cons, List.foldl_cons]
    dsimp only
    rw [setNext_eq, next, List.map_cons, List.append_assoc]
    rfl

namespace Graph

/-- The node an edge leads to. -/
def edge (g : Graph γ P) (n l : Nat) : Option Nat := g.nodes[n]?.bind fun node => node.nextNodes[l]?

/-- The packets that wait for a node. -/
def queue (g : Graph γ P) (m : Nat) : List P := (g.vectors[m]?.map VecDeque.items).getD []

/-- Every node has its queue and its counters, and every edge a node. -/
structure Shaped (g : Graph γ P) : Prop where
  vectors : g.vectors.length = g.nodes.length
  counters : g.counters.length = g.nodes.length
  room : ∀ q ∈ g.vectors, 1 ≤ q.capacity
  inside : ∀ n l t, g.edge n l = some t → t < g.nodes.length

/-- The graph has these nodes, and its edges lead where their names say. -/
structure Resolves (g : Graph γ P) (e : Edges γ) : Prop where
  shaped : g.Shaped
  nodes : g.nodes.map Gnode.spec = e.nodes
  indices : ∀ name, g.indices name = placeOf e.nodes name
  first : placeOf e.nodes dropName = some 0
  linked : e.linked <+: e.nodes
  next : ∀ n (node : Gnode γ), g.nodes[n]? = some node → node.nextNodes = e.next n

theorem edge_eq {g : Graph γ P} {n l t : Nat} (edge : g.edge n l = some t) :
    ∃ node, g.nodes[n]? = some node ∧ node.nextNodes[l]? = some t := Option.bind_eq_some_iff.mp edge

theorem dispatch_eq {g : Graph γ P} {n : Nat} {node : Gnode γ} (here : g.nodes[n]? = some node) :
    g.dispatch n = .ok ⟨n, g.vectors, g.counters, node.nextNodes, false, usizeMax⟩ := by
  rw [dispatch, here]

theorem Shaped.push_set {g : Graph γ P} {n l t : Nat} (shaped : g.Shaped) (edge : g.edge n l = some t) (pkt : P) :
    ∃ q c, g.vectors[t]? = some q ∧ g.counters[t]? = some c ∧ g.push n l pkt = .ok (true, { g with
      vectors := g.vectors.set t (q.pushBack pkt)
      counters := g.counters.set t { c with enqed := c.enqed + 1 } }) := by
  obtain ⟨node, here, next⟩ := edge_eq edge
  have inside := shaped.inside n l t edge
  obtain ⟨q, atQ⟩ : ∃ q, g.vectors[t]? = some q := ⟨_, List.getElem?_eq_getElem (shaped.vectors ▸ inside)⟩
  obtain ⟨c, atC⟩ : ∃ c, g.counters[t]? = some c := ⟨_, List.getElem?_eq_getElem (shaped.counters ▸ inside)⟩
  have room := shaped.room q (List.mem_of_getElem? atQ)
  refine ⟨q, c, atQ, atC, ?_⟩
  unfold push
  rw [dispatch_eq here, Except.ok_bind]
  simp only [Dispatch.push, next, atQ, atC, ge_iff_le, room, if_true]
  split
  · rfl
  · rfl

theorem queue_set {g : Graph γ P} {t : Nat} {q : VecDeque P} (here : g.vectors[t]? = some q) (q' : VecDeque P)
    (counters : List GnodeCntrs) :
    Graph.queue { g with vectors := g.vectors.set t q', counters } = Function.update g.queue t q'.items := by
  funext m
  unfold queue
  by_cases same : m = t
  · subst same
    rw [Function.update_self, List.getElem?_set_self (List.getElem?_eq_some_iff.mp here).1]
    rfl
  · rw [Function.update_of_ne same, List.getElem?_set_ne (Ne.symm same)]

theorem queue_eq {g : Graph γ P} {t : Nat} {q : VecDeque P} (here : g.vectors[t]? = some q) :
    g.queue t = q.items := by
  rw [queue, here]
  rfl

/-- A packet that goes over an edge is queued at the node it leads to, and
nothing else of the graph is touched. -/
theorem Shaped.push_eq {g : Graph γ P} {n l t : Nat} (shaped : g.Shaped) (edge : g.edge n l = some t) (pkt : P) :
    ∃ vectors counters, g.push n l pkt = .ok (true, { g with vectors, counters }) ∧
      counters.length = g.counters.length ∧ vectors.length = g.vectors.length ∧ (∀ q ∈ vectors, 1 ≤ q.capacity) ∧
        Graph.queue { g with vectors, counters } = Function.update g.queue t (g.queue t ++ [pkt]) := by
  obtain ⟨q, c, atQ, atC, pushed⟩ := shaped.push_set edge pkt
  have room := shaped.room q (List.mem_of_getElem? atQ)
  refine ⟨_, _, pushed, List.length_set, List.length_set, fun q' member => ?_, ?_⟩
  · rcases List.mem_or_eq_of_mem_set member with old | rfl
    · exact shaped.room q' old
    · unfold VecDeque.pushBack
      dsimp only
      split <;> omega
  · rw [queue_set atQ, queue_eq atQ]
    rfl

/-- A packet is only ever handed on over an edge. -/
theorem push_ok_edge {g g' : Graph γ P} {n l : Nat} {pkt : P} {pushed : Bool}
    (run : g.push n l pkt = .ok (pushed, g')) :
    ∃ t, g.edge n l = some t := by
  obtain ⟨d, from', run⟩ := Except.bind_ok_iff.mp run
  unfold dispatch at from'
  split at from'
  · cases from'
  · rename_i node here
    cases Except.ok.inj from'
    obtain ⟨⟨_, d⟩, run, _⟩ := Except.bind_ok_iff.mp run
    unfold Dispatch.push at run
    split at run
    · cases run
    · rename_i t next
      exact ⟨t, Option.bind_eq_some_iff.mpr ⟨node, here, next⟩⟩

theorem Shaped.pop_set {g : Graph γ P} {n : Nat} (shaped : g.Shaped) (known : n < g.nodes.length) :
    ∃ q, g.vectors[n]? = some q ∧ g.pop n = .ok ((g.queue n).head?, { g with
      vectors := g.vectors.set n { q with items := q.items.tail } }) := by
  obtain ⟨node, here⟩ : ∃ node, g.nodes[n]? = some node := ⟨_, List.getElem?_eq_getElem known⟩
  obtain ⟨q, atQ⟩ : ∃ q, g.vectors[n]? = some q := ⟨_, List.getElem?_eq_getElem (shaped.vectors ▸ known)⟩
  refine ⟨q, atQ, ?_⟩
  unfold pop
  rw [dispatch_eq here, Except.ok_bind]
  simp only [Dispatch.pop, atQ, VecDeque.popFront, Except.ok_bind, queue_eq atQ]
  rfl

/-- A node takes the packets of its own queue, the oldest first. -/
theorem Shaped.pop_eq {g : Graph γ P} {n : Nat} (shaped : g.Shaped) (known : n < g.nodes.length) :
    ∃ vectors, g.pop n = .ok ((g.queue n).head?, { g with vectors }) ∧ vectors.length = g.vectors.length ∧
      (∀ q ∈ vectors, 1 ≤ q.capacity) ∧
        Graph.queue { g with vectors } = Function.update g.queue n (g.queue n).tail := by
  obtain ⟨q, atQ, popped⟩ := shaped.pop_set known
  refine ⟨_, popped, List.length_set, fun q' member => ?_, ?_⟩
  · rcases List.mem_or_eq_of_mem_set member with old | rfl
    · exact shaped.room q' old
    · exact shaped.room q (List.mem_of_getElem? atQ)
  · rw [queue_eq atQ]
    exact queue_set atQ { q with items := q.items.tail } g.counters

theorem pop_ok_known {g g' : Graph γ P} {n : Nat} {pkt : Option P} (run : g.pop n = .ok (pkt, g')) :
    n < g.nodes.length := by
  obtain ⟨d, from', _⟩ := Except.bind_ok_iff.mp run
  unfold dispatch at from'
  split at from'
  · cases from'
  · exact (List.getElem?_eq_some_iff.mp ‹_›).1

variable {g g' : Graph γ P} {e : Edges γ}

namespace Resolves

theorem index_eq (h : g.Resolves e) (name : String) : g.index name = (placeOf e.nodes name).getD 0 := by
  unfold index
  rw [h.indices]
  cases placeOf e.nodes name with
  | none => rfl
  | some i => rfl

theorem spec_of (h : g.Resolves e) {n : Nat} {node : Gnode γ} (here : g.nodes[n]? = some node) :
    e.nodes[n]? = some node.spec := by
  rw [← h.nodes, List.getElem?_map, here]
  rfl

theorem linked_spec (h : g.Resolves e) {n : Nat} {node : Gnode γ} {spec : NodeSpec γ} (here : g.nodes[n]? = some node)
    (linked : e.linked[n]? = some spec) : spec = node.spec := by
  have same : e.nodes[n]? = some spec := getElem?_of_prefix h.linked linked
  exact Option.some.inj (same.symm.trans (h.spec_of here))

/-- The edges of the graph lead where the names say. -/
theorem edge_target (h : g.Resolves e) (n l : Nat) : g.edge n l = e.target n l := by
  unfold edge Edges.target
  cases here : g.nodes[n]? with
  | none =>
    have long : g.nodes.length ≤ n := List.getElem?_eq_none_iff.mp here
    have none : e.linked[n]? = none := by
      have := h.linked.length_le
      rw [← h.nodes, List.length_map] at this
      exact List.getElem?_eq_none_iff.mpr (by omega)
    rw [Edges.next, none]
    rfl
  | some node => rw [Option.bind_some, h.next n node here]

theorem length_eq (h : g.Resolves e) : e.nodes.length = g.nodes.length := by
  rw [← h.nodes, List.length_map]

theorem unlinked (h : g.Resolves e) : e.next g.nodes.length = [] := by
  have none : e.linked[g.nodes.length]? = none := List.getElem?_eq_none_iff.mpr (h.length_eq ▸ h.linked.length_le)
  rw [Edges.next, none]

theorem next_length_le (h : g.Resolves e) {n : Nat} {node : Gnode γ} (here : g.nodes[n]? = some node) :
    node.nextNodes.length ≤ node.nextNames.length := by
  rw [h.next n node here, Edges.next]
  split
  · rename_i spec linked
    rw [h.linked_spec here linked, List.length_map]
    exact Nat.le_refl _
  · exact Nat.zero_le _

theorem new (thread : Nat) (dropNode : γ) : (new thread dropNode : Graph γ P).Resolves (Edges.new dropNode) where
  shaped := {
    vectors := rfl
    counters := rfl
    room := fun q member => by
      rw [List.mem_singleton.mp member]
      exact (by decide : 1 ≤ vecSize)
    inside := fun n l t edge => by
      obtain ⟨node, here, next⟩ := edge_eq edge
      cases List.mem_singleton.mp (List.mem_of_getElem? here)
      cases next }
  nodes := rfl
  indices name := by
    change Function.update (fun _ => none) dropName (some 0) name = _
    by_cases same : name = dropName
    · subst same
      rfl
    · rw [Function.update_of_ne same]
      exact (List.findIdx?_eq_none_iff.mpr fun node member => by
        rw [List.mem_singleton.mp member]
        exact decide_eq_false (Ne.symm same)).symm
  first := rfl
  linked := List.nil_prefix
  next n node here := by
    cases List.mem_singleton.mp (List.mem_of_getElem? here)
    rfl

theorem add {client : γ} {init : GnodeInit} (h : g.Resolves e) (name : init.name ≠ dropName) :
    (g.add client init).Resolves (e.step (.add client init : GraphEvent γ P)) := by
  have index := h.index_eq init.name
  cases place : placeOf e.nodes init.name with
  | some i =>
    have kept : register e.nodes ⟨client, init.name, init.nextNames⟩ = e.nodes := by
      unfold register
      rw [place]
      rfl
    have other : i ≠ 0 := by
      rintro rfl
      obtain ⟨node, here, named⟩ := placeOf_some place
      obtain ⟨first, here', drop⟩ := placeOf_some h.first
      rw [← named, ← drop, Option.some.inj (here.symm.trans here')] at name
      exact name rfl
    rw [place] at index
    have same : g.add client init = g := if_pos (by rw [index]; exact other)
    simp only [Edges.step, kept, same]
    exact h
  | none =>
    have grown : register e.nodes ⟨client, init.name, init.nextNames⟩ =
        e.nodes ++ [⟨client, init.name, init.nextNames⟩] := by
      unfold register
      rw [place]
      rfl
    rw [place] at index
    have added : g.add client init = _ := if_neg (not_not.mpr index)
    simp only [Edges.step, grown, added]
    have old : ∀ n (node : Gnode γ), (g.nodes ++ [⟨client, init.name, init.nextNames, []⟩])[n]? = some node →
        g.nodes[n]? = some node ∨ n = g.nodes.length ∧ node.nextNodes = [] := by
      intro n node here
      rw [List.getElem?_append] at here
      split at here
      · exact Or.inl here
      · obtain ⟨inside, rfl⟩ := List.getElem?_eq_some_iff.mp here
        rw [List.length_singleton] at inside
        refine Or.inr ⟨by omega, ?_⟩
        simp only [List.getElem_singleton]
    exact {
      shaped := {
        vectors := by simp only [List.length_append, h.shaped.vectors, List.length_singleton]
        counters := by simp only [List.length_append, h.shaped.counters, List.length_singleton]
        room := fun q member => by
          rcases List.mem_append.mp member with before | new
          · exact h.shaped.room q before
          · rw [List.mem_singleton.mp new]
            exact (by decide : 1 ≤ vecSize)
        inside := fun n l t edge => by
          obtain ⟨node, here, next⟩ := edge_eq edge
          rw [List.length_append, List.length_singleton]
          rcases old n node here with before | ⟨_, none⟩
          · exact Nat.lt_succ_of_lt (h.shaped.inside n l t (Option.bind_eq_some_iff.mpr ⟨node, before, next⟩))
          · rw [none] at next
            cases next }
      nodes := by
        rw [List.map_append, h.nodes]
        rfl
      indices := fun name => by
        change Function.update g.indices init.name _ name = _
        rw [placeOf_concat]
        by_cases same : init.name = name
        · subst same
          rw [place, Option.none_or, if_pos rfl, Function.update_self, h.length_eq]
        · rw [if_neg same, Option.or_none, Function.update_of_ne (Ne.symm same), h.indices]
      first := by
        rw [placeOf_concat, h.first]
        rfl
      linked := h.linked.trans (List.prefix_append ..)
      next := fun n node here => by
        rcases old n node here with before | ⟨rfl, none⟩
        · exact h.next n node before
        · exact none.trans h.unlinked.symm }

theorem finalize (h : g.Resolves e) : g.finalize.Resolves (e.step (.finalize : GraphEvent γ P)) := by
  have resolved : ∀ (n : Nat) (node : Gnode γ), g.finalize.nodes[n]? = some node →
      ∃ before : Gnode γ, g.nodes[n]? = some before ∧ node.spec = before.spec ∧
        node.nextNodes = before.nextNames.map fun name => (placeOf e.nodes name).getD 0 := by
    intro n node here
    obtain ⟨before, was, rfl⟩ := Option.map_eq_some_iff.mp ((List.getElem?_map ..).symm.trans here)
    refine ⟨before, was, rfl, ?_⟩
    have loops :
        before.nextNames.zipIdx.foldl (fun nodes (name, l) => setNext nodes l (g.index name)) before.nextNodes =
        before.nextNames.map g.index := foldl_setNext g.index [] (h.next_length_le was)
    exact loops.trans (List.map_congr_left fun name _ => h.index_eq name)
  have inside : ∀ name, (placeOf e.nodes name).getD 0 < g.nodes.length := by
    intro name
    rw [← h.length_eq]
    obtain ⟨_, first, _⟩ := placeOf_some h.first
    cases place : placeOf e.nodes name with
    | none => exact (List.getElem?_eq_some_iff.mp first).1
    | some i =>
      obtain ⟨_, here, _⟩ := placeOf_some place
      exact (List.getElem?_eq_some_iff.mp here).1
  exact {
    shaped := {
      vectors := h.shaped.vectors.trans (List.length_map _).symm
      counters := h.shaped.counters.trans (List.length_map _).symm
      room := h.shaped.room
      inside := fun n l t edge => by
        obtain ⟨node, here, next⟩ := edge_eq edge
        obtain ⟨before, _, _, nodes⟩ := resolved n node here
        rw [nodes, List.getElem?_map] at next
        obtain ⟨name, _, rfl⟩ := Option.map_eq_some_iff.mp next
        exact (inside name).trans_eq (List.length_map _).symm }
    nodes := by
      rw [Graph.finalize, List.map_map, Edges.step, ← h.nodes]
      rfl
    indices := h.indices
    first := h.first
    linked := List.prefix_rfl
    next := fun n node here => by
      obtain ⟨before, here, _, nodes⟩ := resolved n node here
      rw [nodes, Edges.next]
      simp only [Edges.step, h.spec_of here]
      rfl }

/-- Traffic changes nothing but the queues and the counters. -/
theorem traffic {vectors : List (VecDeque P)} {counters : List GnodeCntrs} (h : g.Resolves e)
    (sameVectors : vectors.length = g.vectors.length) (sameCounters : counters.length = g.counters.length)
    (room : ∀ q ∈ vectors, 1 ≤ q.capacity) : Graph.Resolves { g with vectors, counters } e where
  shaped := ⟨sameVectors.trans h.shaped.vectors, sameCounters.trans h.shaped.counters, room, h.shaped.inside⟩
  nodes := h.nodes
  indices := h.indices
  first := h.first
  linked := h.linked
  next := h.next

end Resolves

/-- A graph after some events. -/
inductive Reached (thread : Nat) (dropNode : γ) : List (GraphEvent γ P) → Graph γ P → Prop
  | new : Reached thread dropNode [] (Graph.new thread dropNode)
  | add {history g client init} : Reached thread dropNode history g → init.name ≠ dropName →
      Reached thread dropNode (history ++ [.add client init]) (g.add client init)
  | finalize {history g} : Reached thread dropNode history g →
      Reached thread dropNode (history ++ [.finalize]) g.finalize
  | push {history g n l pkt pushed g'} : Reached thread dropNode history g → g.push n l pkt = .ok (pushed, g') →
      Reached thread dropNode (history ++ [.push n l pkt]) g'
  | pop {history g n pkt g'} : Reached thread dropNode history g → g.pop n = .ok (pkt, g') →
      Reached thread dropNode (history ++ [.pop n pkt]) g'

/-- Edge `l` of node `n` delivers to the queue of node `t` and to no other. -/
def Delivers (g : Graph γ P) (n l t : Nat) : Prop :=
  ∀ pkt, ∃ g', g.push n l pkt = .ok (true, g') ∧ g'.queue = Function.update g.queue t (g.queue t ++ [pkt])

theorem Shaped.delivers {n l t : Nat} (shaped : g.Shaped) (edge : g.edge n l = some t) : g.Delivers n l t := by
  intro pkt
  obtain ⟨vectors, counters, pushed, _, _, _, queue⟩ := shaped.push_eq edge pkt
  exact ⟨_, pushed, queue⟩

theorem clone_shaped (shaped : g.Shaped) (thread : Nat) (cloneClient : γ → γ) :
    (g.clone thread cloneClient).Shaped ∧ (g.clone thread cloneClient).edge = g.edge := by
  have edges : (g.clone thread cloneClient).edge = g.edge := by
    funext n l
    unfold edge clone
    dsimp only
    rw [List.getElem?_map]
    cases g.nodes[n]? with
    | none => rfl
    | some node => rfl
  refine ⟨⟨?_, ?_, fun q member => ?_, fun n l t edge => ?_⟩, edges⟩
  · simp only [clone, List.length_map]
  · simp only [clone, List.length_map]
  · obtain ⟨_, _, rfl⟩ := List.mem_map.mp member
    exact (by decide : 1 ≤ vecSize)
  · rw [edges] at edge
    exact (shaped.inside n l t edge).trans_eq (List.length_map _).symm

theorem clone_queue (g : Graph γ P) (thread : Nat) (cloneClient : γ → γ) (m : Nat) :
    (g.clone thread cloneClient).queue m = [] := by
  unfold queue clone
  dsimp only
  rw [List.getElem?_map]
  cases g.nodes[m]? with
  | none => rfl
  | some node => rfl

variable {thread : Nat} {dropNode : γ} {history : List (GraphEvent γ P)}

theorem Reached.resolves (reached : Reached thread dropNode history g) :
    g.Resolves (Edges.after dropNode history) := by
  induction reached with
  | new => exact .new thread dropNode
  | add _ name ih =>
    rw [Edges.after_append]
    exact ih.add name
  | finalize _ ih =>
    rw [Edges.after_append]
    exact ih.finalize
  | @push history g n l pkt pushed g' _ run ih =>
    rw [Edges.after_append]
    obtain ⟨t, edge⟩ := push_ok_edge run
    obtain ⟨vectors, counters, run', sameCounters, sameVectors, room, _⟩ := ih.shaped.push_eq edge pkt
    cases Except.ok.inj (run.symm.trans run')
    exact ih.traffic sameVectors sameCounters room
  | @pop history g n pkt g' _ run ih =>
    rw [Edges.after_append]
    obtain ⟨vectors, run', sameVectors, room, _⟩ := ih.shaped.pop_eq (pop_ok_known run)
    cases Except.ok.inj (run.symm.trans run')
    exact ih.traffic sameVectors rfl room

theorem add_queue (g : Graph γ P) (client : γ) (init : GnodeInit) : (g.add client init).queue = g.queue := by
  unfold add
  split
  · rfl
  · funext m
    unfold queue
    dsimp only
    rw [List.getElem?_append]
    split
    · rfl
    · rename_i past
      rw [List.getElem?_eq_none_iff.mpr (not_lt.mp past)]
      cases m - g.vectors.length with
      | zero => rfl
      | succ k => rfl

theorem new_queue (thread : Nat) (dropNode : γ) : (Graph.new thread dropNode : Graph γ P).queue = fun _ => [] := by
  funext m
  cases m with
  | zero => rfl
  | succ m => rfl

/-- The queues move as the edges and the pops say. -/
theorem Reached.steps (reached : Reached thread dropNode history g) :
    QueueEvent.Steps (fun _ => []) ((Edges.new dropNode).traffic history) g.queue := by
  induction reached with
  | new =>
    rw [new_queue]
    exact .start
  | add _ _ ih =>
    rw [Edges.traffic_append, add_queue]
    exact ih.next .quiet
  | finalize _ ih =>
    rw [Edges.traffic_append]
    exact ih.next .quiet
  | @push history g n l pkt pushed g' before run ih =>
    have resolves := before.resolves
    obtain ⟨t, edge⟩ := push_ok_edge run
    obtain ⟨_, run', queue⟩ := resolves.shaped.delivers edge pkt
    cases Except.ok.inj (run.symm.trans run')
    rw [resolves.edge_target] at edge
    have put : (Edges.after dropNode history).queueEvent (.push n l pkt) = .put t pkt := by
      simp only [Edges.queueEvent, edge]
    rw [Edges.traffic_append, queue]
    exact ih.next (put ▸ .put)
  | @pop history g n pkt g' before run ih =>
    obtain ⟨_, run', _, _, queue⟩ := before.resolves.shaped.pop_eq (pop_ok_known run)
    cases Except.ok.inj (run.symm.trans run')
    rw [Edges.traffic_append, queue]
    cases waiting : g.queue n with
    | nil =>
      have same : Function.update g.queue n [] = g.queue := by rw [← waiting, Function.update_eq_self]
      rw [List.tail_nil, same]
      exact ih.next .quiet
    | cons first rest => exact ih.next (.take waiting)

end Graph

/-- Every edge delivers to the node that was first registered under its name
before the last `finalize`, and to the drop node when there is none; every node
takes what its queue got, in order; and a clone has the same edges. -/
theorem graph_delivers_by_name {thread : Nat} {dropNode : γ} {history : List (GraphEvent γ P)} {g : Graph γ P}
    (reached : Graph.Reached thread dropNode history g) :
    g.nodes.map Gnode.spec = (Edges.after dropNode history).nodes ∧
      (∀ more : List (GraphEvent γ P),
        (Edges.after dropNode history).nodes <+: (Edges.after dropNode (history ++ more)).nodes) ∧
      (∀ n l t, (Edges.after dropNode history).target n l = some t → g.Delivers n l t) ∧
      (∀ n < g.nodes.length, ∃ g', g.pop n = .ok ((g.queue n).head?, g') ∧
        g'.queue = Function.update g.queue n (g.queue n).tail) ∧
      (∀ m, ((Edges.new dropNode).traffic history).filterMap (QueueEvent.putOf m) =
        ((Edges.new dropNode).traffic history).filterMap (QueueEvent.takenOf m) ++ g.queue m) ∧
      ∀ thread' cloneClient, (∀ n l t, (Edges.after dropNode history).target n l = some t →
        (g.clone thread' cloneClient).Delivers n l t) ∧ ∀ m, (g.clone thread' cloneClient).queue m = [] := by
  have resolves := reached.resolves
  have shaped := resolves.shaped
  refine ⟨resolves.nodes, fun more => ?_, fun n l t target => ?_, fun n known => ?_, fun m => ?_,
    fun thread' cloneClient => ⟨fun n l t target => ?_, fun m => g.clone_queue thread' cloneClient m⟩⟩
  · rw [Edges.after, Edges.after, List.foldl_append]
    exact Edges.nodes_prefix _ more
  · exact shaped.delivers ((resolves.edge_target n l).trans target)
  · obtain ⟨vectors, run, _, _, queue⟩ := shaped.pop_eq known
    exact ⟨_, run, queue⟩
  · exact reached.steps.conserved m
  · obtain ⟨clone, edges⟩ := Graph.clone_shaped shaped thread' cloneClient
    refine clone.delivers ?_
    rw [edges, resolves.edge_target, target]

/-- Node `a` names `b` before it is there, and a second `a` changes nothing. -/
def forwardReference : List (GraphEvent String Nat) :=
  [.add "first" ⟨"a", ["b", "drop", "c"], ⟨0, 0⟩⟩, .finalize, .add "second" ⟨"b", [], ⟨0, 0⟩⟩,
    .add "third" ⟨"a", ["c"], ⟨0, 0⟩⟩, .finalize]

theorem graph_delivers_forward : ∃ g : Graph String Nat, Graph.Reached 0 "drop" forwardReference g ∧
    g.Delivers 1 0 2 ∧ g.Delivers 1 2 0 ∧ g.nodes.map Gnode.client = ["drop", "first", "second"] := by
  have reached : Graph.Reached (P := Nat) 0 "drop" forwardReference _ :=
    .finalize (.add (.add (.finalize (.add .new (by decide))) (by decide)) (by decide))
  obtain ⟨nodes, _, delivers, _⟩ := graph_delivers_by_name reached
  refine ⟨_, reached, delivers 1 0 2 rfl, delivers 1 2 0 rfl, ?_⟩
  have clients := congrArg (List.map NodeSpec.client) nodes
  rw [List.map_map] at clients
  exact clients

end R2
