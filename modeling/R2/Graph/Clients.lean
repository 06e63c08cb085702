import R2.Graph.Edges

namespace R2.Graph

variable {γ P : Type}

/-- The client that a message under this name reaches; the first node is out of
reach of messages. -/
def client (g : Graph γ P) (name : String) : Option γ :=
  if g.index name = 0 then none else g.nodes[g.index name]?.map Gnode.client

/-- `control_msg`, with what the client does to itself. -/
def controlMsg (g : Graph γ P) (name : String) (handle : γ → Outcome γ) : Outcome (Bool × Graph γ P) :=
  let index := g.index name
  if index = 0 then .ok (false, g)
  else
    match g.nodes[index]? with
    | none => .error .bounds
    | some node => do
      let client ← handle node.client
      .ok (true, { g with nodes := g.nodes.set index { node with client } })

def setClient (g : Graph γ P) (name : String) (client : γ) : Graph γ P :=
  { g with nodes := g.nodes.modify (g.index name) fun node => { node with client } }

/-- The clients of some names replaced one after the other. -/
def tell (g : Graph γ P) (name : String) (change : γ → Option γ) : Option (Graph γ P) := do
  let c ← g.client name
  let c ← change c
  some (g.setClient name c)

/-- The names of the nodes are distinct, and the table of names is theirs. -/
structure Indexed (g : Graph γ P) : Prop where
  named : ∀ name k, g.indices name = some k → ∃ node, g.nodes[k]? = some node ∧ node.name = name
  index : ∀ k node, g.nodes[k]? = some node → g.indices node.name = some k
  first : g.indices dropName = some 0

@[simp] theorem thread_add (g : Graph γ P) (c : γ) (init : GnodeInit) : (g.add c init).thread = g.thread := by
  unfold add
  split <;> rfl

@[simp] theorem thread_finalize (g : Graph γ P) : g.finalize.thread = g.thread := rfl

section Clone

variable (g : Graph γ P) (thread : Nat) (h : γ → γ)

@[simp] theorem index_clone (name : String) : (g.clone thread h).index name = g.index name := rfl

theorem client_clone (name : String) : (g.clone thread h).client name = (g.client name).map h := by
  unfold client
  rw [index_clone]
  split
  · rfl
  · simp only [clone, List.getElem?_map, Option.map_map]
    rfl

/-- Where a clone of a client has the clone itself for its clone, so has a graph. -/
theorem clone_clone (again : ∀ c, h (h c) = h c) (other : Nat) :
    (g.clone thread h).clone other h = g.clone other h := by
  have nodes : (g.nodes.map fun node => { node with client := h node.client }).map
      (fun node => { node with client := h node.client }) =
        g.nodes.map fun node => { node with client := h node.client } := by
    rw [List.map_map]
    exact List.map_congr_left fun node _ => congrArg (fun c => ({ node with client := c } : Gnode γ)) (again _)
  simp only [clone, nodes]
  simp only [List.map_const', List.length_map]

theorem clone_add (c : γ) (init : GnodeInit) :
    (g.add c init).clone thread h = (g.clone thread h).add (h c) { init with cntrs := ⟨0, 0⟩ } := by
  unfold add
  rw [index_clone]
  split
  · rfl
  · simp only [clone, List.map_append, List.map_cons, List.map_nil, List.length_map]

theorem clone_finalize : g.finalize.clone thread h = (g.clone thread h).finalize := by
  simp only [clone, finalize, List.map_map]
  rfl

theorem clone_setClient (name : String) (c : γ) :
    (g.setClient name c).clone thread h = (g.clone thread h).setClient name (h c) := by
  have nodes : (g.nodes.modify (g.index name) fun node => { node with client := c }).map
      (fun node => { node with client := h node.client }) =
        (g.nodes.map fun node => { node with client := h node.client }).modify (g.index name)
          fun node => { node with client := h c } := by
    apply List.ext_getElem?
    intro k
    simp only [List.getElem?_map, List.getElem?_modify]
    cases g.nodes[k]? with
    | none => rfl
    | some node =>
      by_cases here : g.index name = k
      · simp [here]
      · simp [here]
  unfold setClient
  rw [index_clone]
  simp only [clone, nodes]
  simp only [List.map_const', List.length_modify]

end Clone

section Indexed

variable {g : Graph γ P} {name : String} {c : γ}

theorem Indexed.client_some (indexed : g.Indexed) (found : g.client name = some c) :
    ∃ node, g.nodes[g.index name]? = some node ∧ node.name = name ∧ node.client = c ∧ g.index name ≠ 0 := by
  unfold client at found
  split at found
  · cases found
  · rename_i other
    obtain ⟨node, here, same⟩ := Option.map_eq_some_iff.mp found
    refine ⟨node, here, ?_, same, other⟩
    unfold Graph.index at here other
    split at here
    · rename_i k known
      obtain ⟨node', there, named⟩ := indexed.named name k known
      rw [Option.some.inj (here.symm.trans there)]
      exact named
    · rename_i unknown
      rw [unknown] at other
      exact absurd rfl other

theorem Indexed.client_of (indexed : g.Indexed) {k : Nat} {node : Gnode γ} (here : g.nodes[k]? = some node)
    (other : node.name ≠ dropName) : g.client node.name = some node.client := by
  have known := indexed.index k node here
  have index : g.index node.name = k := by rw [Graph.index, known]
  have positive : k ≠ 0 := by
    rintro rfl
    obtain ⟨first, there, named⟩ := indexed.named dropName 0 indexed.first
    rw [Option.some.inj (here.symm.trans there)] at other
    exact other named
  rw [client, index, if_neg positive, here]
  rfl

theorem Indexed.client_none (indexed : g.Indexed) (other : name ≠ dropName) :
    g.client name = none ↔ g.indices name = none := by
  constructor
  · intro unknown
    cases known : g.indices name with
    | none => rfl
    | some k =>
      obtain ⟨node, here, named⟩ := indexed.named name k known
      have found := indexed.client_of here (named ▸ other)
      rw [named, unknown] at found
      cases found
  · intro unknown
    rw [client, Graph.index, unknown]
    rfl

theorem Indexed.index_eq_zero (indexed : g.Indexed) (other : name ≠ dropName) :
    g.index name = 0 ↔ g.client name = none := by
  constructor
  · intro zero
    rw [client, if_pos zero]
  · intro unknown
    rw [Graph.index, (indexed.client_none other).mp unknown]

theorem Indexed.client_drop (indexed : g.Indexed) : g.client dropName = none := by
  rw [client, Graph.index, indexed.first]
  rfl

theorem new_nodes (thread : Nat) (dropNode : γ) :
    (new thread dropNode : Graph γ P).nodes = [⟨dropNode, dropName, [], []⟩] := rfl

theorem new_indices (thread : Nat) (dropNode : γ) :
    (new thread dropNode : Graph γ P).indices = Function.update (fun _ => none) dropName (some 0) := rfl

theorem Indexed.new (thread : Nat) (dropNode : γ) : (new thread dropNode : Graph γ P).Indexed where
  named name k known := by
    rw [new_indices, Function.update_apply] at known
    split at known
    · rename_i same
      cases Option.some.inj known
      exact ⟨_, rfl, same.symm⟩
    · cases known
  index k node here := by
    rw [new_nodes] at here
    rw [new_indices]
    cases k with
    | zero =>
      cases Option.some.inj here
      exact Function.update_self ..
    | succ k => cases here
  first := by rw [new_indices, Function.update_self]

theorem Indexed.add (indexed : g.Indexed) (c : γ) {init : GnodeInit} (other : init.name ≠ dropName) :
    (g.add c init).Indexed := by
  unfold Graph.add
  split
  · exact indexed
  · rename_i taken
    have fresh : g.indices init.name = none :=
      (indexed.client_none other).mp ((indexed.index_eq_zero other).mp (not_not.mp taken))
    refine ⟨fun name k known => ?_, fun k node here => ?_, ?_⟩
    · simp only [Function.update_apply] at known
      split at known
      · rename_i same
        cases Option.some.inj known
        exact ⟨_, List.getElem?_concat_length, same.symm⟩
      · obtain ⟨node, here, named⟩ := indexed.named name k known
        exact ⟨node, getElem?_of_prefix (List.prefix_append ..) here, named⟩
    · dsimp only at here ⊢
      rw [List.getElem?_append] at here
      split at here
      · have known := indexed.index k node here
        rw [Function.update_of_ne, known]
        intro same
        rw [same, fresh] at known
        cases known
      · have last : k = g.nodes.length := by
          have := (List.getElem?_eq_some_iff.mp here).1
          simp only [List.length_cons, List.length_nil] at this
          omega
        subst last
        rw [Nat.sub_self] at here
        cases Option.some.inj here
        exact Function.update_self ..
    · exact (Function.update_of_ne (Ne.symm other) ..).trans indexed.first

theorem Indexed.map {g' : Graph γ P} (indexed : g.Indexed) {change : Nat → Gnode γ → Gnode γ}
    (nodes : ∀ k, g'.nodes[k]? = g.nodes[k]?.map (change k)) (names : ∀ k node, (change k node).name = node.name)
    (indices : g'.indices = g.indices) : g'.Indexed where
  named name k known := by
    obtain ⟨node, here, named⟩ := indexed.named name k (indices ▸ known)
    exact ⟨change k node, by rw [nodes, here]; rfl, (names k node).trans named⟩
  index k node here := by
    rw [nodes] at here
    obtain ⟨old, there, rfl⟩ := Option.map_eq_some_iff.mp here
    rw [indices, names]
    exact indexed.index k old there
  first := indices ▸ indexed.first

theorem Indexed.clone (indexed : g.Indexed) (thread : Nat) (h : γ → γ) : (g.clone thread h).Indexed :=
  indexed.map (fun _ => List.getElem?_map) (fun _ _ => rfl) rfl

theorem Indexed.finalize (indexed : g.Indexed) : g.finalize.Indexed :=
  indexed.map (fun _ => List.getElem?_map) (fun _ _ => rfl) rfl

theorem Indexed.setClient (indexed : g.Indexed) (name : String) (c : γ) : (g.setClient name c).Indexed := by
  refine @Indexed.map _ _ g _ indexed
    (fun k node => if g.index name = k then { node with client := c } else node) (fun k => ?_) (fun k node => ?_) rfl
  · rw [Graph.setClient, List.getElem?_modify]
    cases g.nodes[k]? <;> rfl
  · split <;> rfl

theorem client_finalize (name : String) : g.finalize.client name = g.client name := by
  change (if g.index name = 0 then none else _) = _
  simp only [client, finalize, List.getElem?_map, Option.map_map]
  rfl

/-- A name that is taken keeps its client. -/
theorem Indexed.client_add (indexed : g.Indexed) (c : γ) {init : GnodeInit} (other : init.name ≠ dropName)
    (name : String) :
    (g.add c init).client name = if name = init.name then some ((g.client name).getD c) else g.client name := by
  by_cases taken : g.index init.name = 0
  · have unknown := (indexed.index_eq_zero other).mp taken
    have added : g.add c init = { g with
        nodes := g.nodes ++ [⟨c, init.name, init.nextNames, []⟩]
        vectors := g.vectors ++ [.withCapacity vecSize]
        counters := g.counters ++ [init.cntrs]
        indices := Function.update g.indices init.name (some g.nodes.length) } := if_neg (not_not.mpr taken)
    by_cases same : name = init.name
    · subst same
      have last : (g.add c init).nodes[g.nodes.length]? = some ⟨c, init.name, init.nextNames, []⟩ := by
        rw [added]
        exact List.getElem?_concat_length
      rw [if_pos rfl, unknown]
      exact (indexed.add c other).client_of last other
    · have index : (g.add c init).index name = g.index name := by
        simp only [added, Graph.index, Function.update_of_ne same]
      rw [if_neg same, client, client, index]
      split
      · rfl
      · rename_i known
        obtain ⟨k, there⟩ : ∃ k, g.indices name = some k := by
          cases there : g.indices name with
          | none =>
            rw [Graph.index, there] at known
            exact absurd rfl known
          | some k => exact ⟨k, rfl⟩
        obtain ⟨node, here, _⟩ := indexed.named name k there
        have index' : g.index name = k := by rw [Graph.index, there]
        rw [index', here, added, getElem?_of_prefix (List.prefix_append ..) here]
  · have added : g.add c init = g := if_pos taken
    rw [added]
    split
    · rename_i same
      subst same
      cases known : g.client init.name with
      | none => exact absurd ((indexed.index_eq_zero other).mpr known) taken
      | some d => rfl
    · rfl

theorem Indexed.client_setClient (indexed : g.Indexed) {name : String} (known : (g.client name).isSome) (c : γ)
    (other : String) :
    (g.setClient name c).client other = if other = name then some c else g.client other := by
  obtain ⟨d, found⟩ := Option.isSome_iff_exists.mp known
  obtain ⟨node, here, named, _, positive⟩ := indexed.client_some found
  have index (name' : String) : (g.setClient name c).index name' = g.index name' := rfl
  by_cases same : other = name
  · subst same
    rw [if_pos rfl, client, index, if_neg positive, Graph.setClient, List.getElem?_modify_eq, here]
    rfl
  · rw [if_neg same, client, client, index]
    split
    · rfl
    · rename_i elsewhere
      have apart : g.index name ≠ g.index other := by
        intro clash
        cases there : g.client other with
        | none =>
          by_cases drop : other = dropName
          · rw [Graph.index, drop, indexed.first] at elsewhere
            exact elsewhere rfl
          · exact elsewhere ((indexed.index_eq_zero drop).mpr there)
        | some e =>
          obtain ⟨node', here', named', _⟩ := indexed.client_some there
          rw [← clash, here] at here'
          cases Option.some.inj here'
          exact same (named'.symm.trans named)
      rw [Graph.setClient]
      simp only [List.getElem?_modify, if_neg apart, Option.map_eq_map, Option.map_id']

end Indexed

section Messages

variable {g g' : Graph γ P} {name : String} {c : γ}

theorem controlMsg_known (found : g.client name = some c) (handle : γ → Outcome γ) :
    g.controlMsg name handle = (handle c).map fun c => (true, g.setClient name c) := by
  unfold client at found
  split at found
  · cases found
  · rename_i positive
    obtain ⟨node, here, rfl⟩ := Option.map_eq_some_iff.mp found
    have set (c : γ) : g.nodes.set (g.index name) { node with client := c } =
        g.nodes.modify (g.index name) fun node => { node with client := c } := by
      apply List.ext_getElem?
      intro k
      rw [List.getElem?_modify]
      by_cases same : g.index name = k
      · subst same
        rw [List.getElem?_set_self (List.getElem?_eq_some_iff.mp here).1, here]
        simp only [if_true, Option.map_eq_map, Option.map_some]
      · rw [List.getElem?_set_ne same]
        simp only [if_neg same, Option.map_eq_map, Option.map_id']
    simp only [controlMsg, if_neg positive, here, set]
    rfl

theorem tell_some {change : γ → Option γ} (done : g.tell name change = some g') :
    ∃ c d, g.client name = some c ∧ change c = some d ∧ g' = g.setClient name d := by
  obtain ⟨c, found, done⟩ := Option.bind_eq_some_iff.mp done
  obtain ⟨d, changed, done⟩ := Option.bind_eq_some_iff.mp done
  exact ⟨c, d, found, changed, (Option.some.inj done).symm⟩

/-- Nothing changes when a client is replaced by itself. -/
theorem setClient_self (found : g.client name = some c) : g.setClient name c = g := by
  unfold client at found
  split at found
  · cases found
  · obtain ⟨node, here, rfl⟩ := Option.map_eq_some_iff.mp found
    have same : (g.nodes.modify (g.index name) fun old => { old with client := node.client }) = g.nodes := by
      apply List.ext_getElem?
      intro k
      rw [List.getElem?_modify]
      by_cases at_ : g.index name = k
      · subst at_
        rw [here]
        simp only [if_true, Option.map_eq_map, Option.map_some]
      · simp only [if_neg at_, Option.map_eq_map, Option.map_id']
    rw [setClient, same]

end Messages

end R2.Graph
