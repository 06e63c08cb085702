import R2.Threads.Happening

namespace R2.Threads

variable {n : Nat} {P : Type} {affinity : Nat → Fin n}

section Fit

variable {owner : Nat → Bool} {g g' : Graph Client P} {phase phase' : Phase P} {m k : Nat} {client : Client}

theorem clientAt_some (found : clientAt g m = some client) :
    ∃ node, g.nodes[m]? = some node ∧ node.client = client :=
  Option.map_eq_some_iff.mp found

/-- An interface has one node in a graph. -/
theorem Named.unique (named : Named g) {i : Nat} (here : clientAt g m = some (.ifNode i))
    (there : clientAt g k = some (.ifNode i)) : m = k := by
  obtain ⟨node, at_, same⟩ := clientAt_some here
  obtain ⟨node', at', same'⟩ := clientAt_some there
  have name := named.ifNode node (List.mem_of_getElem? at_) i same
  have name' := named.ifNode node' (List.mem_of_getElem? at') i same'
  have index := named.indexed.index m node at_
  rw [name, ← name', named.indexed.index k node' at'] at index
  exact (Option.some.inj index).symm

theorem clientAt_handle (msg : CtrlMsg) (found : clientAt g m = some client) :
    clientAt (msg.handle g) m = some client := by
  obtain ⟨node, here, same⟩ := clientAt_some found
  cases msg with
  | update => exact found
  | gnodeAdd c init =>
    obtain ⟨node', there, same'⟩ : ∃ node', (g.add c init).nodes[m]? = some node' ∧ node'.client = node.client := by
      unfold Graph.add
      split
      · exact ⟨node, here, rfl⟩
      · exact ⟨node, getElem?_of_prefix (List.prefix_append ..) here, rfl⟩
    unfold CtrlMsg.handle clientAt Graph.finalize
    rw [List.getElem?_map, there]
    exact congrArg some (same'.trans same)

theorem Named.new (thread : Nat) : Named (Graph.new thread .feature : Graph Client P) := by
  refine ⟨.new thread Client.feature, ?_⟩
  intro node member i same
  cases List.mem_singleton.mp member
  cases same

theorem Named.add (named : Named g) {init : GnodeInit} (other : init.name ≠ dropName)
    (rxTx : ∀ i, client = .ifNode i → init.name = Names.rxTx i) : Named (g.add client init) := by
  refine ⟨named.indexed.add client other, ?_⟩
  intro node member i same
  unfold Graph.add at member
  split at member
  · exact named.ifNode node member i same
  · rcases List.mem_append.mp member with old | new
    · exact named.ifNode node old i same
    · cases List.mem_singleton.mp new
      exact rxTx i same

theorem Named.finalize (named : Named g) : Named g.finalize := by
  refine ⟨named.indexed.finalize, ?_⟩
  intro node member i same
  obtain ⟨before, inside, rfl⟩ := List.mem_map.mp member
  exact named.ifNode before inside i same

theorem Named.handle (named : Named g) {msg : CtrlMsg} (sound : msg.Named) : Named (msg.handle g) := by
  cases msg with
  | update => exact named
  | gnodeAdd c init => exact (named.add sound.1 sound.2).finalize

/-- A thread's graph, and its queues while a node runs; only the owner of an
interface comes to take packets from its `thread_q`. -/
structure Fit (owner : Nat → Bool) (g : Graph Client P) (phase : Phase P) : Prop where
  graph : g.vectors.length = g.nodes.length
  vectors : (phase.vectors g).length = g.nodes.length
  named : Named g
  owner : ∀ d work i, phase = .dispatching d work .threadQ → clientAt g d.node = some (.ifNode i) → owner i = true

theorem Fit.rest (fit : Fit owner g phase) (resting : phase'.vectors g = g.vectors)
    (elsewhere : ∀ d work, phase' ≠ .dispatching d work .threadQ) : Fit owner g phase' where
  graph := fit.graph
  vectors := by rw [resting]; exact fit.graph
  named := fit.named
  owner d work i here := absurd here (elsewhere d work)

theorem Fit.dispatch {d d' : Dispatch P} {work work' : Bool} {stage stage' : Stage}
    (fit : Fit owner g (.dispatching d work stage)) (length : d'.vectors.length = d.vectors.length)
    (own : stage' = .threadQ → ∀ i, clientAt g d'.node = some (.ifNode i) → owner i = true) :
    Fit owner g (.dispatching d' work' stage') where
  graph := fit.graph
  vectors := length.trans fit.vectors
  named := fit.named
  owner e v i here := by
    cases here
    exact own rfl i

theorem Named.collect (named : Named g) (d : Dispatch P) : Named (g.collect d) :=
  ⟨⟨named.indexed.named, named.indexed.index, named.indexed.first⟩, named.ifNode⟩

theorem LocalStep.fit (step : LocalStep owner g phase g' phase') (fit : Fit owner g phase) :
    Fit owner g' phase' := by
  cases step with
  | interrupted => exact fit.rest rfl nofun
  | visit run =>
    unfold Graph.dispatch at run
    split at run
    · cases run
    · cases run
      exact fit.rest rfl nofun
  | feature client step =>
    refine fit.dispatch step.same.1 fun last i node => ?_
    rw [step.same.2, client] at node
    cases node
  | @ifNode i d stage d' stage' work client step =>
    refine fit.dispatch step.same.1 fun last j node => ?_
    rw [step.same.2, client] at node
    cases node
    generalize own : owner i = mine at step
    cases step with
    | drained => rfl
    | transmit => rfl
    | drainedOther => cases last
    | idle => cases last
    | queued => cases last
    | receive => cases last
  | @finish _ d _ d' work _ ending =>
    have length : d'.vectors.length = d.vectors.length := by
      cases ending with
      | feature run => exact (Dispatch.pop_cases run).2.2.2.2.2
      | ifNode => rfl
    have graph : (g.collect d').vectors.length = (g.collect d').nodes.length := length.trans fit.vectors
    exact ⟨graph, graph, fit.named.collect d', nofun⟩
  | leave => exact fit.rest rfl nofun

end Fit

variable {sys sys' : System n P} {u : Fin n}

/-- Every thread's graph is in order. -/
def Fits (affinity : Nat → Fin n) (sys : System n P) : Prop :=
  ∀ u, Fit (fun i => affinity i = u) (sys.graph u) (sys.phase u)

theorem Fits.move (fits : Fits affinity sys) {phase : Phase P} (graph : sys'.graph = sys.graph)
    (phases : sys'.phase = sys.phase) (own : Fit (fun i => affinity i = u) (sys.graph u) phase) :
    Fits affinity (sys'.move u phase) := by
  intro v
  have same : (sys'.move u phase).graph v = sys.graph v := congrFun graph v
  by_cases here : v = u
  · subst here
    rw [same, System.move_self]
    exact own
  · rw [same, System.move_of_ne phase here, phases]
    exact fits v

theorem Step.fits {event : Event n} (step : Step affinity sys event sys') (fits : Fits affinity sys)
    (messages : ∀ u, ∀ msg ∈ sys.channel u, msg.Named) : Fits affinity sys' := by
  cases step with
  | wake => exact fits.move rfl rfl ((fits _).rest rfl nofun)
  | read => exact fits.move rfl rfl ((fits _).rest rfl nofun)
  | start => exact fits.move rfl rfl ((fits _).rest rfl nofun)
  | @inner u g phase step =>
    have own := step.fit (fits u)
    intro v
    by_cases here : v = u
    · subst here
      have graph : Function.update sys.graph v g v = g := Function.update_self ..
      rw [System.move_self]
      change Fit _ (Function.update sys.graph v g v) phase
      rw [graph]
      exact own
    · rw [System.move_of_ne phase here]
      change Fit _ (Function.update sys.graph u g v) (sys.phase v)
      rw [Function.update_of_ne here]
      exact fits v
  | @handOff u _ _ _ _ _ here client other popped =>
    have own := fits u
    rw [here] at own
    exact fits.move rfl rfl (own.dispatch (Dispatch.pop_cases popped).2.2.2.2.2 nofun)
  | @handOffFull u _ _ _ _ _ here client other popped =>
    have own := fits u
    rw [here] at own
    exact fits.move rfl rfl (own.dispatch (Dispatch.pop_cases popped).2.2.2.2.2 nofun)
  | @ring u _ _ _ here =>
    have own := fits u
    rw [here] at own
    exact fits.move rfl rfl (own.dispatch rfl nofun)
  | takeThreadQ => exact fits
  | @emptied u _ _ _ here =>
    have own := fits u
    rw [here] at own
    exact fits.move rfl rfl (own.dispatch rfl nofun)
  | @receive u work msg rest here head =>
    intro v
    by_cases same : v = u
    · subst same
      have sound := messages v msg (by rw [head]; exact List.mem_cons_self ..)
      have graph : (msg.handle (sys.graph v)).vectors.length = (msg.handle (sys.graph v)).nodes.length :=
        (msg.handle_queues (fits v).graph).1
      have graphs : Function.update sys.graph v (msg.handle (sys.graph v)) v = msg.handle (sys.graph v) :=
        Function.update_self ..
      change Fit _ (Function.update sys.graph v (msg.handle (sys.graph v)) v) (sys.phase v)
      rw [graphs, here]
      exact ⟨graph, graph, (fits v).named.handle sound, nofun⟩
    · change Fit _ (Function.update sys.graph u (msg.handle (sys.graph u)) v) (sys.phase v)
      rw [Function.update_of_ne same]
      exact fits v
  | again => exact fits.move rfl rfl ((fits _).rest rfl nofun)
  | sleep => exact fits.move rfl rfl ((fits _).rest rfl nofun)
  | send => exact fits
  | signal => exact fits

theorem LocalStep.nodes {owner : Nat → Bool} {g g' : Graph Client P} {phase phase' : Phase P}
    (step : LocalStep owner g phase g' phase') : g'.nodes = g.nodes := by
  cases step <;> rfl

/-- No node leaves its graph. -/
theorem Step.grows {event : Event n} (step : Step affinity sys event sys') (v : Fin n) {m : Nat} {c : Client}
    (found : clientAt (sys.graph v) m = some c) : clientAt (sys'.graph v) m = some c := by
  cases step with
  | @inner u g phase own =>
    change clientAt (Function.update sys.graph u g v) m = some c
    by_cases here : v = u
    · subst here
      rw [Function.update_self, clientAt, own.nodes]
      exact found
    · rw [Function.update_of_ne here]
      exact found
  | @receive u work msg rest here head =>
    change clientAt (Function.update sys.graph u (msg.handle (sys.graph u)) v) m = some c
    by_cases here : v = u
    · subst here
      rw [Function.update_self]
      exact clientAt_handle msg found
    · rw [Function.update_of_ne here]
      exact found
  | _ => exact found

theorem clientAt_none {g : Graph Client P} {m : Nat} : clientAt g m = none ↔ g.nodes.length ≤ m := by
  rw [clientAt, Option.map_eq_none_iff, List.getElem?_eq_none_iff]

end R2.Threads
