import R2.Graph.Edges

namespace R2

variable {γ P : Type}

theorem mem_setNext {nodes : List Nat} {l index t : Nat} (member : t ∈ setNext nodes l index) :
    t ∈ nodes ∨ t = 0 ∨ t = index := by
  rcases List.mem_or_eq_of_mem_set member with old | rfl
  · split at old
    · rcases List.mem_append.mp old with old | fill
      · exact Or.inl old
      · exact Or.inr (Or.inl (List.eq_of_mem_replicate fill))
    · exact Or.inl old
  · exact Or.inr (Or.inr rfl)

theorem mem_foldl_setNext {index : String → Nat} {names : List (String × Nat)} {nodes : List Nat} {t : Nat}
    (member : t ∈ names.foldl (fun nodes (name, l) => setNext nodes l (index name)) nodes) :
    t ∈ nodes ∨ t = 0 ∨ ∃ name, t = index name := by
  induction names generalizing nodes with
  | nil => exact Or.inl member
  | cons first names ih =>
    rcases ih member with old | here
    · exact (mem_setNext old).imp_right fun here => here.imp_right fun here => ⟨_, here⟩
    · exact Or.inr here

namespace Graph

variable {g g' : Graph γ P}

/-- The counters of a node. -/
def cntrs (g : Graph γ P) (m : Nat) : GnodeCntrs := (g.counters[m]?).getD ⟨0, 0⟩

theorem index_eq_getD (g : Graph γ P) (name : String) : g.index name = (g.indices name).getD 0 := by
  unfold index
  cases g.indices name with
  | none => rfl
  | some i => rfl

theorem cntrs_set {t : Nat} {c : GnodeCntrs} (here : g.counters[t]? = some c) (c' : GnodeCntrs)
    (vectors : List (VecDeque P)) :
    Graph.cntrs { g with vectors, counters := g.counters.set t c' } = Function.update g.cntrs t c' := by
  funext m
  unfold cntrs
  by_cases same : m = t
  · subst same
    rw [Function.update_self, List.getElem?_set_self (List.getElem?_eq_some_iff.mp here).1]
    rfl
  · rw [Function.update_of_ne same, List.getElem?_set_ne (Ne.symm same)]

theorem cntrs_eq {t : Nat} {c : GnodeCntrs} (here : g.counters[t]? = some c) : g.cntrs t = c := by
  rw [cntrs, here]
  rfl

theorem add_cntrs (g : Graph γ P) (client : γ) {init : GnodeInit} (fresh : init.cntrs = ⟨0, 0⟩) :
    (g.add client init).cntrs = g.cntrs := by
  unfold add
  split
  · rfl
  · funext m
    unfold cntrs
    rw [fresh, List.getElem?_append]
    split
    · rfl
    · rename_i past
      rw [List.getElem?_eq_none_iff.mpr (not_lt.mp past)]
      cases m - g.counters.length with
      | zero => rfl
      | succ k => rfl

theorem clone_cntrs (g : Graph γ P) (thread : Nat) (cloneClient : γ → γ) (m : Nat) :
    (g.clone thread cloneClient).cntrs m = ⟨0, 0⟩ := by
  unfold cntrs clone
  dsimp only
  rw [List.getElem?_map]
  cases g.nodes[m]? with
  | none => rfl
  | some node => rfl

/-- Whatever names and edges a graph got, they are places of its nodes. -/
structure Placed (g : Graph γ P) : Prop where
  shaped : g.Shaped
  indices : ∀ name, g.index name < g.nodes.length

theorem Placed.new (thread : Nat) (dropNode : γ) : (Graph.new thread dropNode : Graph γ P).Placed where
  shaped := (Resolves.new thread dropNode).shaped
  indices name := by
    have resolves := Resolves.new (P := P) thread dropNode
    rw [resolves.index_eq]
    cases place : placeOf (Edges.new dropNode).nodes name with
    | none => exact Nat.one_pos
    | some i =>
      obtain ⟨node, here, -⟩ := placeOf_some place
      exact (List.getElem?_eq_some_iff.mp here).1

theorem Placed.add (placed : g.Placed) (client : γ) (init : GnodeInit) : (g.add client init).Placed := by
  unfold Graph.add
  split
  · exact placed
  · refine ⟨⟨?_, ?_, fun q member => ?_, fun n l t edge => ?_⟩, fun name => ?_⟩
    · simp only [List.length_append, placed.shaped.vectors, List.length_singleton]
    · simp only [List.length_append, placed.shaped.counters, List.length_singleton]
    · rcases List.mem_append.mp member with before | new
      · exact placed.shaped.room q before
      · rw [List.mem_singleton.mp new]
        exact (by decide : 1 ≤ vecSize)
    · obtain ⟨node, here, next⟩ := edge_eq edge
      rw [List.length_append, List.length_singleton]
      rw [List.getElem?_append] at here
      split at here
      · exact Nat.lt_succ_of_lt (placed.shaped.inside n l t (Option.bind_eq_some_iff.mpr ⟨node, here, next⟩))
      · cases List.mem_singleton.mp (List.mem_of_getElem? here)
        cases next
    · rw [List.length_append, List.length_singleton]
      rw [index_eq_getD]
      dsimp only
      by_cases same : name = init.name
      · subst same
        rw [Function.update_self]
        exact Nat.lt_succ_self _
      · rw [Function.update_of_ne same, ← index_eq_getD]
        exact Nat.lt_succ_of_lt (placed.indices name)

theorem Placed.finalize (placed : g.Placed) : g.finalize.Placed := by
  have size : g.finalize.nodes.length = g.nodes.length := List.length_map _
  refine ⟨⟨placed.shaped.vectors.trans size.symm, placed.shaped.counters.trans size.symm, placed.shaped.room,
    fun n l t edge => ?_⟩, fun name => (placed.indices name).trans_eq size.symm⟩
  obtain ⟨node, here, next⟩ := edge_eq edge
  obtain ⟨before, was, rfl⟩ := Option.map_eq_some_iff.mp ((List.getElem?_map ..).symm.trans here)
  rw [size]
  rcases mem_foldl_setNext (List.mem_of_getElem? next) with old | rfl | ⟨name, rfl⟩
  · obtain ⟨k, old⟩ := List.mem_iff_getElem?.mp old
    exact placed.shaped.inside n k t (Option.bind_eq_some_iff.mpr ⟨before, was, old⟩)
  · exact (Nat.zero_le _).trans_lt (placed.indices dropName)
  · exact placed.indices name

theorem Placed.clone (placed : g.Placed) (thread : Nat) (cloneClient : γ → γ) :
    (g.clone thread cloneClient).Placed where
  shaped := (clone_shaped placed.shaped thread cloneClient).1
  indices name := (placed.indices name).trans_eq (List.length_map _).symm

theorem Placed.traffic {vectors : List (VecDeque P)} {counters : List GnodeCntrs} (placed : g.Placed)
    (sameVectors : vectors.length = g.vectors.length) (sameCounters : counters.length = g.counters.length)
    (room : ∀ q ∈ vectors, 1 ≤ q.capacity) : Graph.Placed { g with vectors, counters } :=
  ⟨⟨sameVectors.trans placed.shaped.vectors, sameCounters.trans placed.shaped.counters, room, placed.shaped.inside⟩,
    placed.indices⟩

end Graph

/-- A step of a graph: what it was, what happened, what a push returned, and
what it is now. -/
structure GraphStep (γ P : Type) where
  before : Graph γ P
  event : GraphEvent γ P
  pushed : Bool
  after : Graph γ P

/-- The steps that lead to a graph, from the time it was made or cloned; a node
is added with new counters. -/
inductive Graph.Runs : List (GraphStep γ P) → Graph γ P → Prop
  | new {thread dropNode} : Runs [] (Graph.new thread dropNode)
  | clone {steps g thread cloneClient} : Runs steps g → Runs [] (g.clone thread cloneClient)
  | add {steps g client init} : Runs steps g → init.cntrs = ⟨0, 0⟩ →
      Runs (steps ++ [⟨g, .add client init, true, g.add client init⟩]) (g.add client init)
  | finalize {steps g} : Runs steps g → Runs (steps ++ [⟨g, .finalize, true, g.finalize⟩]) g.finalize
  | push {steps g n l pkt pushed g'} : Runs steps g → g.push n l pkt = .ok (pushed, g') →
      Runs (steps ++ [⟨g, .push n l pkt, pushed, g'⟩]) g'
  | pop {steps g n pkt g'} : Runs steps g → g.pop n = .ok (pkt, g') →
      Runs (steps ++ [⟨g, .pop n pkt, true, g'⟩]) g'

namespace GraphStep

/-- What a push must do: a full queue drops the packet, any other takes it. -/
def Pushes (s : GraphStep γ P) (t : Nat) (pkt : P) : Prop :=
  if vecSize ≤ (s.before.queue t).length then
    s.pushed = false ∧ s.after.queue = s.before.queue ∧ s.after.cntrs =
      Function.update s.before.cntrs t ⟨(s.before.cntrs t).enqed, (s.before.cntrs t).drops + 1⟩
  else
    s.pushed = true ∧ s.after.queue = Function.update s.before.queue t (s.before.queue t ++ [pkt]) ∧
      s.after.cntrs = Function.update s.before.cntrs t ⟨(s.before.cntrs t).enqed + 1, (s.before.cntrs t).drops⟩

/-- The law of the queues: what a push must do, and the bound. -/
def Lawful (s : GraphStep γ P) : Prop :=
  (∀ n l pkt t, s.event = .push n l pkt → s.before.edge n l = some t → s.Pushes t pkt) ∧
    ∀ m, (s.after.queue m).length ≤ vecSize

/-- A push finds room. -/
def Fits (s : GraphStep γ P) : Prop :=
  ∀ n l pkt t, s.event = .push n l pkt → s.before.edge n l = some t → (s.before.queue t).length < vecSize

/-- Node `m` takes a packet. -/
def takes (m : Nat) (s : GraphStep γ P) : Bool :=
  match s.event with
  | .pop n (some _) => n = m
  | _ => false

/-- What a step really does to the queues and the counters. -/
structure Actual (s : GraphStep γ P) : Prop where
  pushes : ∀ n l pkt t, s.event = .push n l pkt → s.before.edge n l = some t → s.pushed = true ∧
    s.after.queue = Function.update s.before.queue t (s.before.queue t ++ [pkt]) ∧
    s.after.cntrs = Function.update s.before.cntrs t ⟨(s.before.cntrs t).enqed + 1, (s.before.cntrs t).drops⟩
  edged : ∀ n l pkt, s.event = .push n l pkt → ∃ t, s.before.edge n l = some t
  others : (∀ n l pkt, s.event ≠ .push n l pkt) → ∀ m, (s.after.queue m).length ≤ (s.before.queue m).length

variable {s : GraphStep γ P}

theorem Actual.fits (actual : s.Actual) (lawful : s.Lawful) : s.Fits := by
  intro n l pkt t event edge
  by_contra full
  have law := lawful.1 n l pkt t event edge
  unfold Pushes at law
  rw [if_pos (not_lt.mp full)] at law
  exact Bool.false_ne_true (law.1.symm.trans (actual.pushes n l pkt t event edge).1)

theorem Actual.lawful (actual : s.Actual) (bounded : ∀ m, (s.before.queue m).length ≤ vecSize) (fits : s.Fits) :
    s.Lawful := by
  refine ⟨fun n l pkt t event edge => ?_, fun m => ?_⟩
  · unfold Pushes
    rw [if_neg (not_le.mpr (fits n l pkt t event edge))]
    exact actual.pushes n l pkt t event edge
  · by_cases push : ∃ n l pkt, s.event = .push n l pkt
    · obtain ⟨n, l, pkt, event⟩ := push
      obtain ⟨t, edge⟩ := actual.edged n l pkt event
      have room := fits n l pkt t event edge
      rw [(actual.pushes n l pkt t event edge).2.1]
      by_cases same : m = t
      · subst same
        rw [Function.update_self, List.length_append, List.length_singleton]
        exact room
      · rw [Function.update_of_ne same]
        exact bounded m
    · refine (actual.others (fun n l pkt event => push ⟨n, l, pkt, event⟩) m).trans (bounded m)

end GraphStep

namespace Graph.Runs

variable {steps : List (GraphStep γ P)} {g : Graph γ P}

theorem placed (runs : Runs steps g) : g.Placed := by
  induction runs with
  | new => exact .new _ _
  | clone _ ih => exact ih.clone _ _
  | add _ _ ih => exact ih.add _ _
  | finalize _ ih => exact ih.finalize
  | @push steps g n l pkt pushed g' _ run ih =>
    obtain ⟨t, edge⟩ := push_ok_edge run
    obtain ⟨vectors, counters, run', sameCounters, sameVectors, room, _⟩ := ih.shaped.push_eq edge pkt
    cases Except.ok.inj (run.symm.trans run')
    exact ih.traffic sameVectors sameCounters room
  | @pop steps g n pkt g' _ run ih =>
    obtain ⟨vectors, run', sameVectors, room, _⟩ := ih.shaped.pop_eq (pop_ok_known run)
    cases Except.ok.inj (run.symm.trans run')
    exact ih.traffic sameVectors rfl room

end Graph.Runs

namespace GraphStep

variable {s : GraphStep γ P} {g g' : Graph γ P} {n l : Nat}

theorem Actual.push {pkt : P} {pushed : Bool} (placed : g.Placed) (run : g.push n l pkt = .ok (pushed, g')) :
    Actual ⟨g, .push n l pkt, pushed, g'⟩ where
  pushes n' l' pkt' t event edge := by
    cases event
    obtain ⟨q, c, atQ, atC, run'⟩ := placed.shaped.push_set edge pkt
    obtain ⟨rfl, rfl⟩ := Prod.mk.inj (Except.ok.inj (run.symm.trans run'))
    refine ⟨rfl, ?_, ?_⟩
    · rw [Graph.queue_eq atQ]
      exact Graph.queue_set atQ _ _
    · rw [Graph.cntrs_eq atC]
      exact Graph.cntrs_set atC _ _
  edged n l pkt event := by
    cases event
    exact Graph.push_ok_edge run
  others none := absurd rfl (none n l pkt)

/-- A step that is no push leaves no queue longer. -/
theorem Actual.other (none : ∀ n l pkt, s.event ≠ .push n l pkt)
    (shrinks : ∀ m, (s.after.queue m).length ≤ (s.before.queue m).length) : s.Actual where
  pushes n l pkt _ event := absurd event (none n l pkt)
  edged n l pkt event := absurd event (none n l pkt)
  others _ := shrinks

theorem pop_shrinks {pkt : Option P} (placed : g.Placed) (run : g.pop n = .ok (pkt, g')) (m : Nat) :
    (g'.queue m).length ≤ (g.queue m).length := by
  obtain ⟨vectors, run', -, -, queue⟩ := placed.shaped.pop_eq (Graph.pop_ok_known run)
  cases Except.ok.inj (run.symm.trans run')
  rw [queue]
  by_cases same : m = n
  · subst same
    rw [Function.update_self, List.length_tail]
    exact Nat.sub_le ..
  · rw [Function.update_of_ne same]

end GraphStep

namespace Graph.Runs

variable {steps : List (GraphStep γ P)} {g : Graph γ P}

theorem actual (runs : Runs steps g) : ∀ s ∈ steps, s.Actual := by
  induction runs with
  | new => nofun
  | clone _ _ => nofun
  | add _ _ ih =>
    refine List.forall_mem_append.mpr ⟨ih, List.forall_mem_singleton.mpr (.other nofun fun m => ?_)⟩
    dsimp only
    rw [add_queue]
  | finalize _ ih =>
    exact List.forall_mem_append.mpr ⟨ih, List.forall_mem_singleton.mpr (.other nofun fun _ => Nat.le_refl _)⟩
  | push runs run ih =>
    exact List.forall_mem_append.mpr ⟨ih, List.forall_mem_singleton.mpr (.push runs.placed run)⟩
  | pop runs run ih =>
    exact List.forall_mem_append.mpr ⟨ih, List.forall_mem_singleton.mpr
      (.other nofun (GraphStep.pop_shrinks runs.placed run))⟩

/-- While every push finds room, every step obeys the law and no queue outgrows
its size. -/
theorem lawful (runs : Runs steps g) (fits : ∀ s ∈ steps, s.Fits) :
    (∀ s ∈ steps, s.Lawful) ∧ ∀ m, (g.queue m).length ≤ vecSize := by
  have next : ∀ {steps : List (GraphStep γ P)} {s : GraphStep γ P}, (∀ s' ∈ steps ++ [s], s'.Actual) →
      (∀ s' ∈ steps ++ [s], s'.Fits) →
      ((∀ s' ∈ steps, s'.Fits) → (∀ s' ∈ steps, s'.Lawful) ∧ ∀ m, (s.before.queue m).length ≤ vecSize) →
      (∀ s' ∈ steps ++ [s], s'.Lawful) ∧ ∀ m, (s.after.queue m).length ≤ vecSize := by
    intro steps s actual fits ih
    obtain ⟨before, bounded⟩ := ih fun s' member => fits s' (List.mem_append_left _ member)
    have own : s ∈ steps ++ [s] := List.mem_append_right _ (List.mem_singleton_self s)
    have now := (actual s own).lawful bounded (fits s own)
    exact ⟨List.forall_mem_append.mpr ⟨before, List.forall_mem_singleton.mpr now⟩, now.2⟩
  induction runs with
  | new =>
    refine ⟨nofun, fun m => ?_⟩
    rw [new_queue]
    exact Nat.zero_le _
  | clone _ _ =>
    refine ⟨nofun, fun m => ?_⟩
    rw [clone_queue]
    exact Nat.zero_le _
  | add runs fresh ih => exact next (Runs.add runs fresh).actual fits ih
  | finalize runs ih => exact next (Runs.finalize runs).actual fits ih
  | push runs run ih => exact next (Runs.push runs run).actual fits ih
  | pop runs run ih => exact next (Runs.pop runs run).actual fits ih

/-- What was queued at a node has been taken or still waits. -/
theorem enqed_eq (runs : Runs steps g) (m : Nat) :
    (g.cntrs m).enqed = steps.countP (GraphStep.takes m) + (g.queue m).length := by
  induction runs with
  | new =>
    rw [new_queue]
    cases m with
    | zero => rfl
    | succ m => rfl
  | clone _ _ =>
    rw [clone_queue, clone_cntrs]
    rfl
  | add _ fresh ih =>
    rw [List.countP_append, add_cntrs _ _ fresh, add_queue, ih]
    rfl
  | finalize _ ih =>
    rw [List.countP_append]
    exact ih
  | @push steps g n l pkt pushed g' runs run ih =>
    obtain ⟨t, edge⟩ := push_ok_edge run
    obtain ⟨-, queue, cntrs⟩ := (GraphStep.Actual.push runs.placed run).pushes n l pkt t rfl edge
    dsimp only at queue cntrs
    have quiet : [(⟨g, .push n l pkt, pushed, g'⟩ : GraphStep γ P)].countP (GraphStep.takes m) = 0 := rfl
    rw [List.countP_append, quiet, queue, cntrs]
    by_cases same : m = t
    · subst same
      rw [Function.update_self, Function.update_self, List.length_append, List.length_singleton]
      dsimp only
      omega
    · rw [Function.update_of_ne same, Function.update_of_ne same, ih]
      rfl
  | @pop steps g n pkt g' runs run ih =>
    obtain ⟨vectors, run', -, -, queue⟩ := runs.placed.shaped.pop_eq (pop_ok_known run)
    obtain ⟨rfl, rfl⟩ := Prod.mk.inj (Except.ok.inj (run.symm.trans run'))
    have counters : Graph.cntrs { g with vectors } m = g.cntrs m := rfl
    rw [List.countP_append, queue, counters, ih, List.countP_singleton]
    by_cases same : m = n
    · subst same
      rw [Function.update_self]
      cases waiting : g.queue m with
      | nil => rfl
      | cons pkt rest =>
        have taken : GraphStep.takes m ⟨g, .pop m (some pkt), true, { g with vectors }⟩ = true := decide_eq_true rfl
        rw [List.head?_cons, if_pos taken, List.tail_cons, List.length_cons]
        omega
    · rw [Function.update_of_ne same]
      cases (g.queue n).head? with
      | none => rfl
      | some pkt =>
        have other : ¬GraphStep.takes m ⟨g, .pop n (some pkt), true, { g with vectors }⟩ = true :=
          fun taken => same (of_decide_eq_true taken).symm
        rw [if_neg other, Nat.add_zero]

end Graph.Runs

/-- The queues are bounded, and every push does what it must, exactly while no
push finds a full queue. What was queued at a node was taken or waits, always. -/
theorem queues_bounded_iff {steps : List (GraphStep γ P)} {g : Graph γ P} (runs : Graph.Runs steps g) :
    ((∀ s ∈ steps, s.Lawful) ↔ ∀ s ∈ steps, s.Fits) ∧
      ∀ m, (g.cntrs m).enqed = steps.countP (GraphStep.takes m) + (g.queue m).length :=
  ⟨⟨fun lawful s member => (runs.actual s member).fits (lawful s member), fun fits => (runs.lawful fits).1⟩,
    runs.enqed_eq⟩

/-- Node 1 has filled the queue of the drop node. -/
theorem queue_filled {k : Nat} (within : k ≤ vecSize) : ∃ (steps : List (GraphStep Unit Nat)) (g : Graph Unit Nat),
    Graph.Runs steps g ∧ g.edge 1 0 = some 0 ∧ (g.queue 0).length = k ∧ ∀ s ∈ steps, s.Fits := by
  induction k with
  | zero =>
    let g₀ : Graph Unit Nat := Graph.new 0 ()
    let g₁ := g₀.add () ⟨"a", ["drop"], ⟨0, 0⟩⟩
    have runs : Graph.Runs (([] ++ [⟨g₀, .add () ⟨"a", ["drop"], ⟨0, 0⟩⟩, true, g₁⟩]) ++
        [⟨g₁, .finalize, true, g₁.finalize⟩]) g₁.finalize := .finalize (.add .new rfl)
    refine ⟨_, _, runs, rfl, rfl, fun s member n l pkt t event => ?_⟩
    rcases List.mem_append.mp member with first | second
    · rcases List.mem_append.mp first with none | first
      · cases none
      · rw [List.mem_singleton.mp first] at event
        cases event
    · rw [List.mem_singleton.mp second] at event
      cases event
  | succ k ih =>
    obtain ⟨steps, g, runs, edge, length, fits⟩ := ih (Nat.le_of_succ_le within)
    obtain ⟨vectors, counters, run, -, -, -, queue⟩ := runs.placed.shaped.push_eq edge 7
    refine ⟨_, _, .push runs run, edge, ?_, List.forall_mem_append.mpr ⟨fits, List.forall_mem_singleton.mpr ?_⟩⟩
    · rw [queue, Function.update_self, List.length_append, length]
      rfl
    · intro n l pkt t event edge'
      cases event
      rw [Option.some.inj (edge'.symm.trans edge)]
      exact length ▸ within

/-- The push that finds 256 packets queues one more. -/
theorem full_queue_grows : ∃ (steps : List (GraphStep Unit Nat)) (s : GraphStep Unit Nat),
    Graph.Runs (steps ++ [s]) s.after ∧ (s.before.queue 0).length = 256 ∧ s.pushed = true ∧
      (s.after.queue 0).length = 257 ∧ (s.after.cntrs 0).drops = (s.before.cntrs 0).drops ∧ ¬s.Lawful := by
  obtain ⟨steps, g, runs, edge, length, -⟩ := queue_filled (Nat.le_refl vecSize)
  obtain ⟨vectors, counters, run, -, -, -, queue⟩ := runs.placed.shaped.push_eq edge 7
  obtain ⟨-, -, cntrs⟩ := (GraphStep.Actual.push runs.placed run).pushes 1 0 7 0 rfl edge
  have longer : (Graph.queue { g with vectors, counters } 0).length = 257 := by
    rw [queue, Function.update_self, List.length_append, length]
    rfl
  refine ⟨steps, ⟨g, .push 1 0 7, true, _⟩, .push runs run, length, rfl, longer, ?_, fun lawful => ?_⟩
  · dsimp only at cntrs ⊢
    rw [cntrs, Function.update_self]
  · have bound := lawful.2 0
    dsimp only at bound
    rw [longer] at bound
    exact absurd bound (by decide)

/-- 256 packets fit. -/
theorem queues_bounded_filled : ∃ (steps : List (GraphStep Unit Nat)) (g : Graph Unit Nat), Graph.Runs steps g ∧
    (∀ s ∈ steps, s.Lawful) ∧ (g.cntrs 0).enqed = steps.countP (GraphStep.takes 0) + 256 := by
  obtain ⟨steps, g, runs, -, length, fits⟩ := queue_filled (Nat.le_refl vecSize)
  obtain ⟨lawful, enqed⟩ := queues_bounded_iff runs
  exact ⟨steps, g, runs, lawful.mpr fits, (enqed 0).trans (by rw [length]; rfl)⟩

end R2
