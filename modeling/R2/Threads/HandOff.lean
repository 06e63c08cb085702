import R2.Threads.Fits

namespace R2.Threads

variable {n : Nat} {P : Type} {affinity : Nat → Fin n} {sys sys' : System n P} {u : Fin n}

section Ledger

/-- The packet that enters the queue of node `m` of thread `u`. -/
def Happening.into (u : Fin n) (m : Nat) : Happening n P → Option P
  | entered v k p => if v = u ∧ k = m then some p else none
  | _ => none

/-- The packet that the `IfNode` of interface `i` takes in thread `u`, and
whether it has a place for it. -/
def Happening.fate (u : Fin n) (i : Nat) : Happening n P → Option (P × Bool)
  | sent v j p => if v = u ∧ j = i then some (p, true) else none
  | handed v j p => if v = u ∧ j = i then some (p, true) else none
  | failed v j p => if v = u ∧ j = i then some (p, false) else none
  | _ => none

/-- The packet that the driver of interface `i` gets, with the thread whose
`IfNode` took it. -/
def Happening.output (i : Nat) : Happening n P → Option (P × Fin n)
  | sent v j p => if j = i then some (p, v) else none
  | relayed _ j entry => if j = i then some entry else none
  | _ => none

/-- The driver is used by the thread that the interface is pinned to, and the
`thread_q` by the others. -/
def Happening.Placed (affinity : Nat → Fin n) : Happening n P → Prop
  | entered .. => True
  | sent u i _ => affinity i = u
  | handed u i _ => affinity i ≠ u
  | failed u i _ => affinity i ≠ u
  | relayed u i _ => affinity i = u

def entered (u : Fin n) (m : Nat) (past : List (Happening n P)) : List P := past.filterMap (Happening.into u m)

def fates (u : Fin n) (i : Nat) (past : List (Happening n P)) : List (P × Bool) := past.filterMap (Happening.fate u i)

def output (i : Nat) (past : List (Happening n P)) : List (P × Fin n) := past.filterMap (Happening.output i)

/-- The packets with a place. -/
def kept (fates : List (P × Bool)) : List P := (fates.filter Prod.snd).map Prod.fst

/-- The packets that come from thread `u`. -/
def ofThread (u : Fin n) (entries : List (P × Fin n)) : List P :=
  (entries.filter fun entry => entry.2 = u).map Prod.fst

theorem kept_append (xs ys : List (P × Bool)) : kept (xs ++ ys) = kept xs ++ kept ys := by
  rw [kept, List.filter_append, List.map_append]
  rfl

theorem ofThread_append (u : Fin n) (xs ys : List (P × Fin n)) :
    ofThread u (xs ++ ys) = ofThread u xs ++ ofThread u ys := by
  rw [ofThread, List.filter_append, List.map_append]
  rfl

theorem ofThread_eq_nil {u : Fin n} {entries : List (P × Fin n)} (other : ∀ entry ∈ entries, entry.2 ≠ u) :
    ofThread u entries = [] := by
  rw [ofThread, List.filter_eq_nil_iff.mpr fun entry member => by simpa using other entry member]
  rfl

/-- Every packet that an interface has accepted is where its thread has put it,
in order. -/
structure Kept (affinity : Nat → Fin n) (sys : System n P) (past : List (Happening n P)) : Prop where
  inside : ∀ u m, (sys.graph u).nodes.length ≤ m → entered u m past = []
  absent : ∀ u i, (∀ m, clientAt (sys.graph u) m ≠ some (.ifNode i)) → fates u i past = []
  queue : ∀ u m i, clientAt (sys.graph u) m = some (.ifNode i) →
    entered u m past = (fates u i past).map Prod.fst ++ sys.waiting u m
  driver : ∀ u i, kept (fates u i past) = ofThread u (output i past ++ sys.threadQ i)
  others : ∀ i, ∀ entry ∈ sys.threadQ i, affinity i ≠ entry.2
  room : ∀ i, (sys.threadQ i).length ≤ vecSize
  placed : ∀ h ∈ past, h.Placed affinity

variable {past now : List (Happening n P)} {h : Happening n P}

theorem entered_append (u : Fin n) (m : Nat) : entered u m (past ++ now) = entered u m past ++ entered u m now :=
  List.filterMap_append ..

theorem fates_append (u : Fin n) (i : Nat) : fates u i (past ++ now) = fates u i past ++ fates u i now :=
  List.filterMap_append ..

theorem output_append (i : Nat) : output i (past ++ now) = output i past ++ output i now :=
  List.filterMap_append ..

theorem filterMap_none {α β : Type} {f : α → Option β} {a : α} (none : f a = none) : [a].filterMap f = [] := by
  rw [List.filterMap_cons, none]
  rfl

theorem filterMap_ite {α β : Type} {f : α → Option β} {a : α} {b : β} {c : Prop} [Decidable c]
    (value : f a = if c then some b else none) : [a].filterMap f = if c then [b] else [] := by
  rw [List.filterMap_cons, value]
  by_cases holds : c
  · rw [if_pos holds, if_pos holds]
    rfl
  · rw [if_neg holds, if_neg holds]
    rfl

theorem entered_none {m : Nat} (none : h.into u m = none) : entered u m [h] = [] := filterMap_none none

theorem fates_none {i : Nat} (none : h.fate u i = none) : fates u i [h] = [] := filterMap_none none

theorem output_none {i : Nat} (none : h.output i = none) : output i [h] = [] := filterMap_none none

section Singleton

variable (u v : Fin n) (m k i j : Nat) (p : P) (entry : P × Fin n)

theorem entered_entered : entered v k [.entered u m p] = if u = v ∧ m = k then [p] else [] := filterMap_ite rfl

theorem output_sent : output j [.sent u i p] = if i = j then [(p, u)] else [] := filterMap_ite rfl

theorem output_relayed : output j [.relayed u i entry] = if i = j then [entry] else [] := filterMap_ite rfl

theorem kept_fates {b : Bool} {holds : Prop} [Decidable holds]
    (fate : h.fate v j = if holds then some (p, b) else none) :
    kept (fates v j [h]) = if holds then kept [(p, b)] else [] := by
  rw [fates, filterMap_ite fate]
  split <;> rfl

theorem kept_sent : kept (fates v j [.sent u i p]) = if u = v ∧ i = j then [p] else [] :=
  kept_fates (b := true) v j p rfl

theorem kept_handed : kept (fates v j [.handed u i p]) = if u = v ∧ i = j then [p] else [] :=
  kept_fates (b := true) v j p rfl

theorem kept_failed : kept (fates v j [.failed u i p]) = [] := (kept_fates v j p rfl).trans (ite_self _)

theorem ofThread_singleton : ofThread v [(p, u)] = if u = v then [p] else [] := by
  by_cases same : u = v
  · rw [if_pos same, ofThread, List.filter_cons_of_pos (by simpa using same)]
    rfl
  · rw [if_neg same, ofThread_eq_nil]
    intro entry member
    cases List.mem_singleton.mp member
    exact same

end Singleton

theorem Kept.placed_append (kept : Kept affinity sys past) (placed : h.Placed affinity) :
    ∀ g ∈ past ++ [h], g.Placed affinity := by
  intro g member
  rcases List.mem_append.mp member with old | new
  · exact kept.placed g old
  · cases List.mem_singleton.mp new
    exact placed

theorem System.waiting_dispatching {d : Dispatch P} {work : Bool} {stage : Stage}
    (here : sys.phase u = .dispatching d work stage) (m : Nat) : sys.waiting u m = waitingIn d.vectors m := by
  rw [System.waiting, System.vectors, here]
  rfl

/-- An `IfNode` takes a packet from its queue. -/
theorem Kept.pop {d d' : Dispatch P} {work b : Bool} {stage' : Stage} {i : Nat} {p : P}
    (kept_ : Kept affinity sys past) (fits : Fits affinity sys) (here : sys.phase u = .dispatching d work .draining)
    (client : clientAt (sys.graph u) d.node = some (.ifNode i)) (popped : d.pop = .ok (some p, d'))
    (graph : sys'.graph = sys.graph) (phase : sys'.phase = Function.update sys.phase u (.dispatching d' work stage'))
    (into : ∀ v m, h.into v m = none) (fate : ∀ v j, h.fate v j = if u = v ∧ i = j then some (p, b) else none)
    (driver : ∀ v j, kept (fates v j past) ++ kept (fates v j [h]) =
      ofThread v (output j past ++ output j [h] ++ sys'.threadQ j))
    (others : ∀ j, ∀ entry ∈ sys'.threadQ j, affinity j ≠ entry.2) (room : ∀ j, (sys'.threadQ j).length ≤ vecSize)
    (placed : h.Placed affinity) :
    Kept affinity sys' (past ++ [h]) := by
  obtain ⟨head, tail, rest, _⟩ := Dispatch.pop_cases popped
  have still : ∀ v m, entered v m (past ++ [h]) = entered v m past := by
    intro v m
    rw [entered_append, entered_none (into v m), List.append_nil]
  have now : sys'.phase u = .dispatching d' work stage' := by rw [phase, Function.update_self]
  refine ⟨?_, ?_, ?_, ?_, others, room, kept_.placed_append placed⟩
  · intro v m past_
    rw [still]
    exact kept_.inside v m (graph ▸ past_)
  · intro v j absent
    rw [graph] at absent
    have other : ¬(u = v ∧ i = j) := by
      rintro ⟨rfl, rfl⟩
      exact absent d.node client
    rw [fates_append, kept_.absent v j absent, fates, filterMap_ite (fate v j), if_neg other, List.append_nil]
  · intro v m j node
    rw [graph] at node
    rw [still, kept_.queue v m j node, fates_append, List.map_append, List.append_assoc]
    congr 1
    rw [fates, filterMap_ite (fate v j)]
    by_cases same : u = v ∧ i = j
    · obtain ⟨rfl, rfl⟩ := same
      cases (fits u).named.unique client node
      have first := List.head?_eq_some_iff.mp head.symm
      obtain ⟨ps, first⟩ := first
      rw [if_pos ⟨rfl, rfl⟩, System.waiting_dispatching here, System.waiting_dispatching now, tail, first]
      rfl
    · rw [if_neg same]
      by_cases thread : u = v
      · subst thread
        rw [System.waiting_dispatching here, System.waiting_dispatching now, rest]
        · rfl
        · rintro rfl
          rw [client] at node
          cases node
          exact same ⟨rfl, rfl⟩
      · unfold System.waiting System.vectors
        rw [graph, phase, Function.update_of_ne (Ne.symm thread)]
        rfl
  · intro v j
    rw [fates_append, kept_append, output_append]
    exact driver v j

section Take

variable {d d' : Dispatch P} {work : Bool} {i : Nat} {p : P}

theorem Kept.sent (kept_ : Kept affinity sys past) (fits : Fits affinity sys)
    (here : sys.phase u = .dispatching d work .draining) (client : clientAt (sys.graph u) d.node = some (.ifNode i))
    (own : affinity i = u) (popped : d.pop = .ok (some p, d')) :
    Kept affinity (sys.move u (.dispatching d' work .draining)) (past ++ [.sent u i p]) := by
  refine kept_.pop fits here client popped rfl rfl (fun _ _ => rfl) (fun _ _ => rfl) ?_ kept_.others kept_.room own
  intro v j
  have before := kept_.driver v j
  change kept (fates v j past) ++ _ = ofThread v (output j past ++ _ ++ sys.threadQ j)
  rw [ofThread_append] at before
  rw [before, ofThread_append, ofThread_append, kept_sent, output_sent]
  by_cases interface : i = j
  · subst interface
    rw [if_pos rfl, ofThread_singleton]
    by_cases thread : u = v
    · subst thread
      have queue : ofThread u (sys.threadQ i) = [] := ofThread_eq_nil fun entry member same =>
        kept_.others i entry member (own.trans same.symm)
      rw [if_pos ⟨rfl, rfl⟩, if_pos rfl, queue, List.append_nil, List.append_nil]
    · rw [if_neg (thread ·.1), if_neg thread, List.append_nil, List.append_nil]
  · rw [if_neg (interface ·.2), if_neg interface, List.append_nil]
    exact congrArg (· ++ _) (List.append_nil _).symm

theorem Kept.handed (kept_ : Kept affinity sys past) (fits : Fits affinity sys)
    (here : sys.phase u = .dispatching d work .draining) (client : clientAt (sys.graph u) d.node = some (.ifNode i))
    (other : affinity i ≠ u) (popped : d.pop = .ok (some p, d')) (room : (sys.threadQ i).length < vecSize) :
    Kept affinity ((sys.setThreadQ i (sys.threadQ i ++ [(p, u)])).move u (.dispatching d' work (.handed i)))
      (past ++ [.handed u i p]) := by
  refine kept_.pop fits here client popped rfl rfl (fun _ _ => rfl) (fun _ _ => rfl) ?_ ?_ ?_ other
  · intro v j
    have before := kept_.driver v j
    change _ = ofThread v (_ ++ _ ++ Function.update sys.threadQ i (sys.threadQ i ++ [(p, u)]) j)
    rw [output_none rfl, List.append_nil, before, kept_handed, ofThread_append, ofThread_append]
    by_cases interface : i = j
    · subst interface
      rw [Function.update_self, ofThread_append, ofThread_singleton, List.append_assoc]
      by_cases thread : u = v
      · rw [if_pos ⟨thread, rfl⟩, if_pos thread]
      · rw [if_neg (thread ·.1), if_neg thread]
    · rw [if_neg (interface ·.2), Function.update_of_ne (Ne.symm interface), List.append_nil]
  · intro j entry member
    change entry ∈ Function.update sys.threadQ i (sys.threadQ i ++ [(p, u)]) j at member
    by_cases interface : j = i
    · subst interface
      rw [Function.update_self] at member
      rcases List.mem_append.mp member with old | new
      · exact kept_.others j entry old
      · cases List.mem_singleton.mp new
        exact other
    · rw [Function.update_of_ne interface] at member
      exact kept_.others j entry member
  · intro j
    change (Function.update sys.threadQ i (sys.threadQ i ++ [(p, u)]) j).length ≤ vecSize
    by_cases interface : j = i
    · subst interface
      rw [Function.update_self, List.length_append]
      exact room
    · rw [Function.update_of_ne interface]
      exact kept_.room j

theorem Kept.failed (kept_ : Kept affinity sys past) (fits : Fits affinity sys)
    (here : sys.phase u = .dispatching d work .draining) (client : clientAt (sys.graph u) d.node = some (.ifNode i))
    (other : affinity i ≠ u) (popped : d.pop = .ok (some p, d')) :
    Kept affinity (sys.move u (.dispatching d' work .draining)) (past ++ [.failed u i p]) := by
  refine kept_.pop fits here client popped rfl rfl (fun _ _ => rfl) (fun _ _ => rfl) ?_ kept_.others kept_.room other
  intro v j
  rw [kept_failed, List.append_nil, output_none rfl, List.append_nil]
  exact kept_.driver v j

end Take

theorem Kept.relayed {i : Nat} {entry : P × Fin n} {rest : List (P × Fin n)} (kept_ : Kept affinity sys past)
    (own : affinity i = u) (first : sys.threadQ i = entry :: rest) :
    Kept affinity (sys.setThreadQ i rest) (past ++ [.relayed u i entry]) := by
  refine ⟨?_, ?_, ?_, ?_, ?_, ?_, kept_.placed_append own⟩
  · intro v m past_
    rw [entered_append, kept_.inside v m past_, entered_none rfl]
    rfl
  · intro v j absent
    rw [fates_append, kept_.absent v j absent, fates_none rfl]
    rfl
  · intro v m j node
    rw [entered_append, entered_none rfl, List.append_nil, fates_append, fates_none rfl, List.append_nil]
    exact kept_.queue v m j node
  · intro v j
    have before := kept_.driver v j
    rw [fates_append, fates_none rfl, List.append_nil, before, output_append]
    change _ = ofThread v (_ ++ _ ++ Function.update sys.threadQ i rest j)
    by_cases interface : i = j
    · subst interface
      rw [output_relayed, if_pos rfl, Function.update_self, first, List.append_assoc]
      rfl
    · rw [output_relayed, if_neg interface, Function.update_of_ne (Ne.symm interface), List.append_nil]
  · intro j old member
    change old ∈ Function.update sys.threadQ i rest j at member
    by_cases interface : j = i
    · subst interface
      rw [Function.update_self] at member
      exact kept_.others j old (by rw [first]; exact List.mem_cons_of_mem _ member)
    · rw [Function.update_of_ne interface] at member
      exact kept_.others j old member
  · intro j
    have before := kept_.room j
    change (Function.update sys.threadQ i rest j).length ≤ vecSize
    by_cases interface : j = i
    · subst interface
      rw [first, List.length_cons] at before
      rw [Function.update_self]
      omega
    · rw [Function.update_of_ne interface]
      exact before

theorem Kept.entered {d d' : Dispatch P} {work : Bool} {stage stage' : Stage} {m l : Nat} {p : P}
    (kept_ : Kept affinity sys past) (fits : Fits affinity sys) (here : sys.phase u = .dispatching d work stage)
    (edge : d.nodes[l]? = some m) (run : d.push l p = .ok (true, d')) :
    Kept affinity (sys.move u (.dispatching d' work stage')) (past ++ [.entered u m p]) := by
  obtain ⟨grown, inside, rest⟩ := push_true edge run
  have own := (fits u).vectors
  rw [here] at own
  refine ⟨?_, ?_, ?_, ?_, kept_.others, kept_.room, kept_.placed_append trivial⟩
  · intro v k past_
    have other : ¬(u = v ∧ m = k) := by
      rintro ⟨rfl, rfl⟩
      exact absurd past_ (Nat.not_le.mpr (own ▸ inside))
    rw [entered_append, kept_.inside v k past_, entered_entered, if_neg other]
    rfl
  · intro v j absent
    rw [fates_append, kept_.absent v j absent, fates_none rfl]
    rfl
  · intro v k j node
    rw [entered_append, fates_append, fates_none rfl, List.append_nil, kept_.queue v k j node, List.append_assoc,
      entered_entered]
    congr 1
    by_cases same : u = v ∧ m = k
    · obtain ⟨rfl, rfl⟩ := same
      rw [System.waiting_dispatching here, System.waiting_dispatching (System.move_self ..), grown,
        if_pos ⟨rfl, rfl⟩]
    · rw [if_neg same, List.append_nil]
      by_cases thread : u = v
      · subst thread
        rw [System.waiting_dispatching here, System.waiting_dispatching (System.move_self ..)]
        exact (rest k fun again => same ⟨rfl, again.symm⟩).symm
      · unfold System.waiting System.vectors
        rw [System.move_of_ne _ (Ne.symm thread)]
        rfl
  · intro v j
    rw [fates_append, fates_none rfl, List.append_nil, output_append, output_none rfl, List.append_nil]
    exact kept_.driver v j

theorem Kept.silent {event : Event n} (kept_ : Kept affinity sys past) (fits : Fits affinity sys)
    (fits' : Fits affinity sys') (step : Step affinity sys event sys') (queues : sys'.threadQ = sys.threadQ)
    (same : ∀ u m i, clientAt (sys'.graph u) m = some (.ifNode i) → sys'.waiting u m = sys.waiting u m) :
    Kept affinity sys' past := by
  refine ⟨?_, ?_, ?_, ?_, ?_, ?_, kept_.placed⟩
  · intro v m past_
    refine kept_.inside v m (clientAt_none.mp ?_)
    cases found : clientAt (sys.graph v) m with
    | none => rfl
    | some c =>
      have still := step.grows v found
      rw [clientAt_none.mpr past_] at still
      cases still
  · intro v i absent
    refine kept_.absent v i ?_
    intro m found
    exact absent m (step.grows v found)
  · intro v m i node
    rw [same v m i node]
    cases found : clientAt (sys.graph v) m with
    | none =>
      -- A new node has got nothing, and its interface had no node before.
      have past_ := clientAt_none.mp found
      have absent : ∀ k, clientAt (sys.graph v) k ≠ some (.ifNode i) := by
        intro k older
        cases (fits' v).named.unique node (step.grows v older)
        cases found.symm.trans older
      rw [kept_.inside v m past_, kept_.absent v i absent]
      exact (waitingIn_past ((fits v).vectors.trans_le past_)).symm
    | some c =>
      cases (step.grows v found).symm.trans node
      exact kept_.queue v m i found
  · rw [queues]
    exact kept_.driver
  · rw [queues]
    exact kept_.others
  · rw [queues]
    exact kept_.room

theorem Kept.step {event : Event n} (kept_ : Kept affinity sys past) (fits : Fits affinity sys)
    (fits' : Fits affinity sys') (does : Does affinity sys now event sys') : Kept affinity sys' (past ++ now) := by
  cases does with
  | entered here _ edge run => exact kept_.entered fits here edge run
  | sent here client own popped => exact kept_.sent fits here client own popped
  | handed here client other popped room => exact kept_.handed fits here client other popped room
  | failed here client other popped => exact kept_.failed fits here client other popped
  | @relayed u i d work entry rest here client first =>
    exact kept_.relayed (of_decide_eq_true ((fits u).owner d work i here client)) first
  | silent step queues same =>
    rw [List.append_nil]
    exact kept_.silent fits fits' step queues same

end Ledger

section Run

variable {allowed : System n P → Fin n → Prop} {past : List (Happening n P)}

theorem Recorded.messages (recorded : Recorded affinity allowed sys past) :
    ∀ u, ∀ msg ∈ sys.channel u, msg.Named := by
  cases recorded with
  | init initial named =>
    intro u msg member
    rw [initial.channel u] at member
    cases member
  | step _ _ _ messages => exact messages

theorem Recorded.fits (recorded : Recorded affinity allowed sys past) : Fits affinity sys := by
  induction recorded with
  | init initial named =>
    intro u
    rw [initial.phase u]
    exact ⟨initial.shaped u, initial.shaped u, named u, nofun⟩
  | step before does _ _ ih => exact does.step.fits ih before.messages

/-- Every step of an actual run can be recorded. -/
theorem Recorded.next {event : Event n} (recorded : Recorded affinity allowed sys past)
    (step : Step affinity sys event sys') (starts : ∀ u, event = .start u → allowed sys u)
    (messages : ∀ u, ∀ msg ∈ sys'.channel u, msg.Named) :
    ∃ now, Recorded affinity allowed sys' (past ++ now) := by
  obtain ⟨now, does⟩ := step.does fun u => (recorded.fits u).graph
  exact ⟨now, recorded.step does starts messages⟩

/-- What a choice sends has the names that the code gives. -/
def Choice.Named : Choice n P → Prop
  | send _ msg => msg.Named
  | _ => True

theorem Choice.run_messages {choice : Choice n P} (run : choice.run affinity sys = some sys') (named : choice.Named)
    (messages : ∀ u, ∀ msg ∈ sys.channel u, msg.Named) : ∀ u, ∀ msg ∈ sys'.channel u, msg.Named := by
  cases choice with
  | receive u =>
    simp only [Choice.run] at run
    split at run
    · rename_i msg rest _ head
      cases run
      intro v m member
      change m ∈ Function.update sys.channel u rest v at member
      by_cases same : v = u
      · subst same
        rw [Function.update_self] at member
        exact messages v m (by rw [head]; exact List.mem_cons_of_mem _ member)
      · rw [Function.update_of_ne same] at member
        exact messages v m member
    · cases run
  | send u msg =>
    simp only [Choice.run] at run
    split at run
    · cases run
      intro v m member
      change m ∈ Function.update sys.channel u (sys.channel u ++ [msg]) v at member
      by_cases same : v = u
      · subst same
        rw [Function.update_self] at member
        rcases List.mem_append.mp member with old | new
        · exact messages v m old
        · cases List.mem_singleton.mp new
          exact named
      · rw [Function.update_of_ne same] at member
        exact messages v m member
    · cases run
  | _ =>
    simp only [Choice.run] at run
    repeat' split at run
    all_goals
      cases run
      try exact messages

/-- The record of choices in order. -/
theorem Recorded.replay {choices : List (Choice n P)} (recorded : Recorded affinity allowed sys past)
    (starts : ∀ choice ∈ choices, ∀ u, choice.event = .start u → ∀ sys, allowed sys u)
    (named : ∀ choice ∈ choices, choice.Named) (run : replay affinity sys choices = some sys') :
    ∃ past', Recorded affinity allowed sys' past' := by
  induction choices generalizing sys past with
  | nil =>
    cases run
    exact ⟨past, recorded⟩
  | cons choice choices ih =>
    obtain ⟨between, first, rest⟩ := Option.bind_eq_some_iff.mp run
    have sound := Choice.run_messages first (named choice (List.mem_cons_self ..)) recorded.messages
    obtain ⟨now, next⟩ := recorded.next (Choice.run_sound first)
      (fun u event => starts choice (List.mem_cons_self ..) u event sys) sound
    exact ih next (fun choice member => starts choice (List.mem_cons_of_mem _ member))
      (fun choice member => named choice (List.mem_cons_of_mem _ member)) rest

theorem Recorded.kept (recorded : Recorded affinity allowed sys past) : Kept affinity sys past := by
  induction recorded with
  | @init sys initial named =>
    have empty : ∀ u m, sys.waiting u m = [] := by
      intro u m
      unfold System.waiting System.vectors waitingIn
      rw [initial.phase u]
      change ((sys.graph u).vectors[m]?.map VecDeque.items).getD [] = []
      cases here : (sys.graph u).vectors[m]? with
      | none => rfl
      | some q => exact initial.queues u q (List.mem_of_getElem? here)
    refine ⟨fun _ _ _ => rfl, fun _ _ _ => rfl, ?_, ?_, ?_, ?_, nofun⟩
    · intro u m i _
      rw [empty]
      rfl
    · intro u i
      rw [initial.threadQ i]
      rfl
    · intro i entry member
      rw [initial.threadQ i] at member
      cases member
    · intro i
      rw [initial.threadQ i]
      exact Nat.zero_le _
  | step before does _ messages ih =>
    exact ih.step before.fits (does.step.fits before.fits before.messages) does

theorem Recorded.inv (recorded : Recorded affinity allowed sys past)
    (prepared : ∀ sys u, allowed sys u → sys.Prepared affinity u) : Inv affinity sys := by
  induction recorded with
  | init initial _ => exact initial.inv
  | step _ does starts _ ih => exact does.step.inv ih fun u event => prepared _ u (starts u event)

/-- Nothing is left in the queues when all threads sleep and nobody wakes them up. -/
theorem Recorded.rests (recorded : Recorded affinity allowed sys past)
    (prepared : ∀ sys u, allowed sys u → sys.Prepared affinity u) (asleep : ∀ u, sys.phase u = .blocked)
    (unwoken : ∀ u, sys.efd u = 0) : (∀ u m, sys.waiting u m = []) ∧ ∀ i, sys.threadQ i = [] := by
  have safely := (recorded.inv prepared).restsSafely
  refine ⟨?_, ?_⟩
  · intro u m
    rw [System.waiting, System.vectors, asleep u]
    exact (safely u (asleep u)).1 m
  · intro i
    rcases (safely (affinity i) (asleep _)).2.2 i rfl with empty | rung | ⟨p, u, newest, d, work, handing⟩
    · exact empty
    · rw [unwoken] at rung
      cases rung
    · rw [asleep u] at handing
      cases handing

/-- Whatever the threads do meanwhile, a packet that a thread has for an
interface goes to the driver once, in the thread that the interface is pinned to
and in order with the thread's others, or is counted as lost; none is left when
the threads sleep. -/
theorem handed_off_once {u : Fin n} {m i : Nat} (recorded : Recorded affinity allowed sys past)
    (node : clientAt (sys.graph u) m = some (.ifNode i)) :
    entered u m past = (fates u i past).map Prod.fst ++ sys.waiting u m ∧
      kept (fates u i past) = ofThread u (output i past ++ sys.threadQ i) ∧
      (sys.threadQ i).length ≤ vecSize ∧ (∀ h ∈ past, h.Placed affinity) ∧
      ((∀ sys v, allowed sys v → sys.Prepared affinity v) → (∀ v, sys.phase v = .blocked ∧ sys.efd v = 0) →
        entered u m past = (fates u i past).map Prod.fst ∧ kept (fates u i past) = ofThread u (output i past)) := by
  obtain ⟨_, _, queue, driver, _, room, placed⟩ := recorded.kept
  refine ⟨queue u m i node, driver u i, room i, placed, ?_⟩
  intro prepared asleep
  obtain ⟨waiting, handed⟩ := recorded.rests prepared (fun v => (asleep v).1) fun v => (asleep v).2
  refine ⟨?_, ?_⟩
  · rw [queue u m i node, waiting, List.append_nil]
  · rw [driver, handed, List.append_nil]

theorem ne_dropName {s t : String} (first : s.toList.head? ≠ some 'd') (some : s.toList.head?.isSome) :
    s ++ t ≠ dropName := by
  intro same
  have heads := congrArg (fun name => name.toList.head?) same
  rw [String.toList_append, List.head?_append, Option.or_of_isSome some] at heads
  exact first heads

theorem interfaceNodes_named (i : Nat) : ∀ msg ∈ interfaceNodes i, msg.Named := by
  intro msg member
  simp only [interfaceNodes, List.mem_cons, List.not_mem_nil, or_false] at member
  rcases member with rfl | rfl | rfl
  · refine ⟨ne_dropName (by decide) (by decide), ?_⟩
    rintro _ ⟨⟩
    rfl
  · exact ⟨ne_dropName (by decide) (by decide), nofun⟩
  · exact ⟨ne_dropName (by decide) (by decide), nofun⟩

theorem Named.foldl {msgs : List CtrlMsg} {g : Graph Client P} (named : Named g) (sound : ∀ msg ∈ msgs, msg.Named) :
    Named (msgs.foldl CtrlMsg.handle g) := by
  induction msgs generalizing g with
  | nil => exact named
  | cons msg msgs ih =>
    have named := named.handle (sound msg (List.mem_cons_self ..))
    exact ih named fun msg member => sound msg (List.mem_cons_of_mem _ member)

theorem firstGraph_named (thread : Nat) : Named (firstGraph thread) := by
  have none : ∀ name i, Client.feature = .ifNode i → name = Names.rxTx i := by
    intro _ _ same
    cases same
  refine Named.foldl ?_ (interfaceNodes_named 1)
  exact (((Named.new thread).add (by decide) (none _)).add (by decide) (none _)).add (by decide) (none _)

def Choice.sends (msgs : List CtrlMsg) : Choice n P → Bool
  | send _ msg => msgs.contains msg
  | _ => true

theorem createSecond_named : ∀ choice ∈ createSecond ++ forwardPacket, choice.Named := by
  intro choice member
  cases choice with
  | send u msg =>
    have sends : (createSecond ++ forwardPacket).all (Choice.sends (interfaceNodes 2)) = true := by decide
    have known := List.all_eq_true.mp sends _ member
    exact interfaceNodes_named 2 msg (List.contains_iff_mem.mp known)
  | _ => exact trivial

theorem handed_off_once_seven : ∃ (sys : System 2 Nat) (past : List (Happening 2 Nat)),
    Recorded pinned (fun _ _ => True) sys past ∧ sys.threadQ 2 = [(7, 0)] ∧ 7 ∈ entered 0 7 past := by
  have values : (replay pinned twoThreads (createSecond ++ forwardPacket)).map (fun sys =>
      (sys.threadQ 2, clientAt (sys.graph 0) 7)) = some ([(7, 0)], some (.ifNode 2)) := by decide +kernel
  obtain ⟨sys, run, values⟩ := Option.map_eq_some_iff.mp values
  obtain ⟨packet, node⟩ := Prod.mk.inj values
  obtain ⟨past, recorded⟩ := (Recorded.init twoThreads_initial fun u => firstGraph_named u).replay
    (fun _ _ _ _ _ => trivial) createSecond_named run
  obtain ⟨queue, driver, _⟩ := handed_off_once recorded node
  refine ⟨sys, past, recorded, packet, ?_⟩
  have handed : 7 ∈ kept (fates 0 2 past) := by
    rw [driver, packet, ofThread_append]
    exact List.mem_append_right _ (List.mem_cons_self ..)
  obtain ⟨f, member, same⟩ := List.mem_map.mp handed
  rw [queue]
  exact List.mem_append_left _ (List.mem_map.mpr ⟨f, (List.mem_filter.mp member).1, same⟩)

end Run

end R2.Threads
