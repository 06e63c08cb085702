import Mathlib.Algebra.Order.BigOperators.Group.Finset
import R2.Base.TwoCopy
import R2.Route.Update

namespace R2

def V4Table.side : V4Table → Bool
  | table1 => false
  | table2 => true

def V4Table.ofSide : Bool → V4Table
  | false => table1
  | true => table2

theorem V4Table.side_other (table : V4Table) : table.other.side = !table.side := by cases table <;> rfl

theorem V4Table.ofSide_side (table : V4Table) : ofSide table.side = table := by cases table <;> rfl

theorem V4Table.side_inj {table table' : V4Table} : table.side = table'.side ↔ table = table' := by
  refine ⟨fun same => ?_, fun same => same ▸ rfl⟩
  rw [← ofSide_side table, same, ofSide_side]

/-- The table a message refers to. -/
def R2Msg.side? : R2Msg → Option Bool
  | .ipv4TableAdd table => some table.side
  | _ => none

theorem R2Msg.side?_eq {msg : R2Msg} {table : V4Table} :
    msg.side? = some table.side ↔ msg.refersTo table = true := by
  cases msg <;> simp [side?, refersTo, V4Table.side_inj]

variable {T : Type} {n : Nat}

namespace IPv4Ctx

theorem deref_write (ctx : IPv4Ctx T) (table : V4Table) (value : IPv4Table T) (which : V4Table) :
    (fun side => { ctx.write table value with which := which }.deref (.ofSide side)) =
      Function.update (fun side => ctx.deref (.ofSide side)) table.side value := by
  funext side
  cases table <;> cases side <;> rfl

theorem write_which (ctx : IPv4Ctx T) (table : V4Table) (value : IPv4Table T) :
    { ctx.write table value with which := ctx.which } = ctx.write table value := by cases table <;> rfl

theorem deref_write_of_ne {ctx : IPv4Ctx T} {table table' : V4Table} {value : IPv4Table T} (ne : table' ≠ table) :
    (ctx.write table value).deref table' = ctx.deref table' := by
  cases table <;> cases table' <;> first | rfl | exact absurd rfl ne

end IPv4Ctx

namespace System

/-- The messages of a thread, in the order it takes them. -/
def inbox (sys : System T n) (t : Fin n) : List R2Msg := (sys.hand t).toList ++ sys.channel t

def phase : Control n → TwoCopy.Phase (Fin n) RouteOp
  | .idle => .idle
  | .broadcasting op todo => .publishing op todo
  | .spinning op => .draining op

/-- The two-copy protocol that the control thread and the forwarding threads run. -/
def abs (sys : System T n) : TwoCopy.State (Fin n) (IPv4Table T) RouteOp where
  copy side := sys.ipv4.deref (.ofSide side)
  active := sys.ipv4.which.side
  phase := phase sys.control
  held t := (sys.node t).table.side
  inFlight t := (sys.inbox t).filterMap R2Msg.side?

theorem phase_idle {control : Control n} : phase control = .idle ↔ control = .idle := by
  cases control <;> simp [phase]

theorem abs_copy (sys : System T n) (table : V4Table) : sys.abs.copy table.side = sys.ipv4.deref table := by
  simp only [abs, V4Table.ofSide_side]

theorem abs_active_other (sys : System T n) : sys.ipv4.which.other.side = !sys.abs.active := V4Table.side_other _

theorem not_mem_inFlight {sys : System T n} {t : Fin n} {table : V4Table} :
    table.side ∉ sys.abs.inFlight t ↔ ∀ msg ∈ sys.inbox t, msg.refersTo table = false := by
  simp only [abs, List.mem_filterMap, not_exists, not_and, R2Msg.side?_eq, Bool.not_eq_true]

/-- No thread, and no message of one, refers to the table. -/
def Unreferenced (sys : System T n) (table : V4Table) : Prop :=
  ∀ t, (sys.node t).table ≠ table ∧ ∀ msg ∈ sys.inbox t, msg.refersTo table = false

theorem threadRefs_eq_zero {sys : System T n} {table : V4Table} {t : Fin n} :
    sys.threadRefs table t = 0 ↔
      (sys.node t).table ≠ table ∧ ∀ msg ∈ sys.inbox t, msg.refersTo table = false := by
  rw [threadRefs, Nat.add_assoc, ← List.countP_append, Nat.add_eq_zero_iff, List.countP_eq_zero]
  simp only [inbox, ite_eq_right_iff, one_ne_zero, imp_false, ne_eq, Bool.not_eq_true]

theorem ownRefs_eq_zero {sys : System T n} {table : V4Table} :
    sys.ownRefs table = 0 ↔
      ∀ op todo, sys.abs.phase = .publishing op todo → sys.abs.active ≠ table.side := by
  cases control : sys.control with
  | broadcasting op todo => simp [ownRefs, control, abs, phase, V4Table.side_inj]
  | _ => simp [ownRefs, control, abs, phase]

/-- `Arc::get_mut` succeeds exactly when nobody else refers to the table. -/
theorem strongCount_eq_one {sys : System T n} {table : V4Table} :
    sys.strongCount table = 1 ↔ sys.abs.Free table.side := by
  have count : sys.strongCount table = 1 ↔ sys.ownRefs table = 0 ∧ ∑ t, sys.threadRefs table t = 0 := by
    unfold strongCount
    omega
  rw [count, ownRefs_eq_zero, Finset.sum_eq_zero_iff, and_comm]
  refine and_congr (forall_congr' fun t => ?_) Iff.rfl
  simp only [Finset.mem_univ, true_implies]
  rw [threadRefs_eq_zero, not_mem_inFlight]
  exact and_congr V4Table.side_inj.not.symm Iff.rfl

theorem getMut_eq_some {sys : System T n} {table : V4Table} {value : IPv4Table T} :
    sys.getMut table = some value ↔ sys.abs.Free table.side ∧ value = sys.ipv4.deref table := by
  unfold getMut
  split
  · rename_i one
    simp only [strongCount_eq_one.mp one, Option.some.injEq, true_and, eq_comm]
  · rename_i more
    simp only [mt strongCount_eq_one.mpr more, reduceCtorEq, false_and]

theorem Free.unreferenced {sys : System T n} {table : V4Table} (free : sys.abs.Free table.side) :
    sys.Unreferenced table := fun t =>
  ⟨fun same => (free.1 t).1 (V4Table.side_inj.mpr same), not_mem_inFlight.mp (free.1 t).2⟩

theorem inbox_sendTo (sys : System T n) (t : Fin n) :
    (sys.sendTo t).inbox = Function.update sys.inbox t (sys.inbox t ++ [.ipv4TableAdd sys.ipv4.which]) := by
  funext u
  by_cases same : u = t
  · subst same
    simp only [inbox, sendTo, Function.update_self, List.append_assoc]
  · simp only [inbox, sendTo, Function.update_of_ne same]

theorem inbox_receive {sys : System T n} {t : Fin n} {msg : R2Msg} {rest : List R2Msg}
    (empty : sys.hand t = none) (waiting : sys.channel t = msg :: rest) :
    ({ sys with
        hand := Function.update sys.hand t (some msg)
        channel := Function.update sys.channel t rest } : System T n).inbox = sys.inbox := by
  funext u
  by_cases same : u = t
  · subst same
    simp only [inbox, Function.update_self, empty, waiting, Option.toList_some, Option.toList_none, List.nil_append,
      List.singleton_append]
  · simp only [inbox, Function.update_of_ne same]

theorem inbox_install (sys : System T n) (t : Fin n) (nodes : Fin n → IPv4Fwd) :
    ({ sys with node := nodes, hand := Function.update sys.hand t none } : System T n).inbox =
      Function.update sys.inbox t (sys.channel t) := by
  funext u
  by_cases same : u = t
  · subst same
    simp only [inbox, Function.update_self, Option.toList_none, List.nil_append]
  · simp only [inbox, Function.update_of_ne same]

theorem inFlight_update {boxes : Fin n → List R2Msg} {t : Fin n} {box : List R2Msg} :
    (fun u => (Function.update boxes t box u).filterMap R2Msg.side?) =
      Function.update (fun u => (boxes u).filterMap R2Msg.side?) t (box.filterMap R2Msg.side?) :=
  funext fun u => Function.apply_update (fun _ box => box.filterMap R2Msg.side?) boxes t box u

theorem held_update {nodes : Fin n → IPv4Fwd} {t : Fin n} {node : IPv4Fwd} :
    (fun u => (Function.update nodes t node u).table.side) =
      Function.update (fun u => (nodes u).table.side) t node.table.side :=
  funext fun u => Function.apply_update (fun _ (node : IPv4Fwd) => node.table.side) nodes t node u

theorem dispatch_abs {sys : System T n} {t : Fin n} {node : IPv4Fwd} (same : node.table = (sys.node t).table) :
    { sys with node := Function.update sys.node t node }.abs = sys.abs := by
  simp only [abs, held_update, same, Function.update_eq_self]
  rfl

variable [IpLookupTable T]

/-- The table an action gets mutable access to. -/
def mutated (sys : System T n) : Action n → Option V4Table
  | .call _ => some sys.ipv4.which.other
  | .spin => (sys.getMut sys.ipv4.which.other).map fun _ => sys.ipv4.which.other
  | _ => none

/-- The update of the table that is not in use, in terms of the protocol. -/
theorem abs_write (sys : System T n) (op : RouteOp) (which : V4Table) (control : Control n) :
    ({ sys with
        ipv4 := { sys.ipv4.write sys.ipv4.which.other (op.run (sys.ipv4.deref sys.ipv4.which.other)) with
          which := which }
        control := control } : System T n).abs =
      { sys.abs.write (!sys.abs.active) (op.run (sys.abs.copy (!sys.abs.active))) with
        active := which.side, phase := phase control } := by
  have active : (!sys.abs.active) = sys.ipv4.which.other.side := (V4Table.side_other _).symm
  rw [active, abs_copy]
  simp only [abs, TwoCopy.State.write, IPv4Ctx.deref_write]
  rfl

theorem beginUpdate_eq_ok {sys sys' : System T n} {op : RouteOp} :
    sys.beginUpdate op = .ok sys' ↔ ∃ table, sys.getMut sys.ipv4.which.other = some table ∧
      sys' = { sys with
        ipv4 := { sys.ipv4.write sys.ipv4.which.other (op.run table) with which := sys.ipv4.which.other }
        control := .broadcasting op (List.finRange n) } := by
  unfold beginUpdate
  dsimp only
  split
  · rename_i busy
    simp only [busy, reduceCtorEq, false_and, exists_false]
  · rename_i table found
    simp only [found, Except.ok.injEq, Option.some.injEq, exists_eq_left', eq_comm]

theorem beginUpdate_simulates {sys sys' : System T n} {op : RouteOp} (idle : sys.control = .idle)
    (run : sys.beginUpdate op = .ok sys') :
    TwoCopy.Step RouteOp.run (List.finRange n) sys.abs (.begin op) sys'.abs := by
  obtain ⟨table, found, rfl⟩ := beginUpdate_eq_ok.mp run
  obtain ⟨free, rfl⟩ := getMut_eq_some.mp found
  rw [abs_write, V4Table.side_other]
  exact .begin op (phase_idle.mpr idle) (V4Table.side_other _ ▸ free)

theorem spin_simulates {sys : System T n} {op : RouteOp} (spinning : sys.control = .spinning op) :
    sys.getMut sys.ipv4.which.other = none ∧ sys.spin op = sys ∨
      (sys.spin op).control = .idle ∧
        TwoCopy.Step RouteOp.run (List.finRange n) sys.abs .finish (sys.spin op).abs := by
  unfold spin
  dsimp only
  split
  · rename_i busy
    exact Or.inl ⟨busy, rfl⟩
  · rename_i table found
    obtain ⟨free, rfl⟩ := getMut_eq_some.mp found
    rw [← IPv4Ctx.write_which, abs_write]
    refine Or.inr ⟨rfl, .finish ?_ (V4Table.side_other _ ▸ free)⟩
    simp only [abs, spinning, phase]

theorem Step.unreferenced {sys sys' : System T n} {action : Action n} {table : V4Table}
    (step : Step sys action sys') (mutates : sys.mutated action = some table) : sys.Unreferenced table := by
  cases step with
  | call idle run =>
    cases Option.some.inj mutates
    obtain ⟨value, found, _⟩ := beginUpdate_eq_ok.mp run
    exact Free.unreferenced (getMut_eq_some.mp found).1
  | spin spinning =>
    obtain ⟨value, found, rfl⟩ := Option.map_eq_some_iff.mp mutates
    exact Free.unreferenced (getMut_eq_some.mp found).1
  | _ => cases mutates

theorem Step.deref {sys sys' : System T n} {action : Action n} {table : V4Table} (step : Step sys action sys')
    (untouched : sys.mutated action ≠ some table) : sys'.ipv4.deref table = sys.ipv4.deref table := by
  cases step with
  | call idle run =>
    obtain ⟨value, _, rfl⟩ := beginUpdate_eq_ok.mp run
    exact IPv4Ctx.deref_write_of_ne fun same => untouched (congrArg some same.symm)
  | @spin op spinning =>
    unfold System.spin
    dsimp only
    split
    · rfl
    · rename_i value found
      refine IPv4Ctx.deref_write_of_ne fun same => untouched ?_
      rw [mutated, found, same]
      rfl
  | _ => rfl

/-- What an action begins. -/
def Action.begun : Action n → List RouteOp
  | .call op => [op]
  | _ => []

/-- `add_or_del_route` returns in the turn of its loop that leaves it idle. -/
def returns : Action n → Control n → Nat
  | .spin, .idle => 1
  | _, _ => 0

theorem send_simulates {sys : System T n} {op : RouteOp} {t : Fin n} {todo : List (Fin n)}
    (broadcasting : sys.control = .broadcasting op (t :: todo)) :
    TwoCopy.Step RouteOp.run (List.finRange n) sys.abs (.send t)
      { sys.sendTo t with control := .broadcasting op todo }.abs := by
  have sent : { sys.sendTo t with control := .broadcasting op todo }.abs =
      { sys.abs with
        inFlight := Function.update sys.abs.inFlight t (sys.abs.inFlight t ++ [sys.abs.active])
        phase := .publishing op todo } := by
    have boxes : { sys.sendTo t with control := .broadcasting op todo }.inbox = _ := inbox_sendTo sys t
    simp only [abs, boxes, inFlight_update, List.filterMap_append]
    rfl
  rw [sent]
  exact .send (congrArg phase broadcasting)

theorem install_simulates {sys : System T n} {t : Fin n} {msg : R2Msg} {node : IPv4Fwd}
    (inHand : sys.hand t = some msg) (installed : (sys.node t).controlMsg msg = .ok node) :
    TwoCopy.Step RouteOp.run (List.finRange n) sys.abs (.deliver t)
      { sys with node := Function.update sys.node t node, hand := Function.update sys.hand t none }.abs := by
  cases msg with
  | ipv4TableAdd table =>
    cases Except.ok.inj installed
    have first : sys.abs.inFlight t = table.side :: (sys.channel t).filterMap R2Msg.side? := by
      simp only [abs, inbox, inHand]
      rfl
    have moved : TwoCopy.Step RouteOp.run (List.finRange n) sys.abs (.deliver t) _ := .deliver first
    simpa only [abs, inbox_install, inFlight_update, held_update] using moved
  | _ => cases installed

/-- Every step is a step of the two-copy protocol or one that it does not see. -/
theorem Step.simulates {sys sys' : System T n} {action : Action n} (step : Step sys action sys') :
    sys'.abs = sys.abs ∧ action.begun = [] ∧ returns action sys'.control = 0 ∨
      ∃ e, TwoCopy.Step RouteOp.run (List.finRange n) sys.abs e sys'.abs ∧
        e.issued = action.begun ∧ e.completed = returns action sys'.control := by
  cases step with
  | call idle run => exact Or.inr ⟨_, beginUpdate_simulates idle run, rfl, rfl⟩
  | send broadcasting => exact Or.inr ⟨_, send_simulates broadcasting, rfl, rfl⟩
  | sent broadcasting => exact Or.inr ⟨.sent, .sent (congrArg phase broadcasting), rfl, rfl⟩
  | spin spinning =>
    rcases spin_simulates spinning with ⟨_, same⟩ | ⟨idle, finishes⟩
    · exact Or.inl ⟨by rw [same], rfl, by rw [same, spinning]; rfl⟩
    · exact Or.inr ⟨.finish, finishes, rfl, by rw [idle]; rfl⟩
  | receive empty waiting => exact Or.inl ⟨by simp only [abs, inbox_receive empty waiting], rfl, rfl⟩
  | install inHand installed => exact Or.inr ⟨_, install_simulates inHand installed, rfl, rfl⟩
  | dispatch empty looked => exact Or.inl ⟨dispatch_abs (IPv4Fwd.dispatchOne_table looked), rfl, rfl⟩

/-- The updates begun in a run, in order. -/
def begun (trace : List (Action n × System T n)) : List RouteOp := trace.flatMap fun entry => entry.1.begun

/-- How many of them have returned. -/
def completed (trace : List (Action n × System T n)) : Nat :=
  (trace.map fun entry => returns entry.1 entry.2.control).sum

theorem Run.inv {trace : List (Action n × System T n)} {sys : System T n} (run : Run (System.start n) trace sys) :
    TwoCopy.Inv RouteOp.run IPv4Table.new (begun trace) (completed trace) sys.abs := by
  induction run with
  | start => exact .idle rfl (fun side => by cases side <;> rfl) fun t => ⟨rfl, rfl⟩
  | @next trace sys action sys' run step ih =>
    have ops : begun (trace ++ [(action, sys')]) = begun trace ++ action.begun := by
      simp only [begun, List.flatMap_append, List.flatMap_cons, List.flatMap_nil, List.append_nil]
    have done : completed (trace ++ [(action, sys')]) = completed trace + returns action sys'.control := by
      simp only [completed, List.map_append, List.sum_append, List.map_cons, List.map_nil, List.sum_singleton]
    rw [ops, done]
    rcases step.simulates with ⟨same, none, zero⟩ | ⟨e, step, issued, completed⟩
    · rw [same, none, zero, List.append_nil]
      exact ih
    · rw [← issued, ← completed]
      exact ih.step (List.nodup_finRange n) List.mem_finRange step

end System

/-- What an operation does to the finite map of routes. -/
def RouteOp.apply (op : RouteOp) (routes : Routes) : Routes :=
  Function.update routes (op.ip.masked op.masklen) (if op.add then some op.leaf else none)

/-- The routes after a list of operations on an empty table. -/
def routesAfter (ops : List RouteOp) : Routes := ops.foldl (fun routes op => op.apply routes) fun _ => none

section Lawful

variable [IpLookupTable T] [LawfulLookup T]

def IPv4Table.routes (table : IPv4Table T) : Routes := LawfulLookup.routes table.root

theorem RouteOp.run_routes {op : RouteOp} (short : op.masklen ≤ 32) (table : IPv4Table T) :
    (op.run table).routes = op.apply table.routes := by
  cases add : op.add with
  | true =>
    simp only [run, apply, add, if_true]
    exact LawfulLookup.routes_insert table.root op.ip op.masklen op.leaf short
  | false =>
    simp only [run, apply, add, Bool.false_eq_true, if_false]
    exact LawfulLookup.routes_remove table.root op.ip op.masklen short

theorem result_routes {ops : List RouteOp} (short : ∀ op ∈ ops, op.masklen ≤ 32) :
    (TwoCopy.result RouteOp.run (IPv4Table.new (T := T)) ops).routes = routesAfter ops := by
  induction ops using List.reverseRecOn with
  | nil => exact LawfulLookup.routes_new
  | append_singleton ops op ih =>
    rw [TwoCopy.result_append, RouteOp.run_routes (short op (by simp)),
      ih fun op member => short op (by simp [member])]
    simp only [routesAfter, List.foldl_append, List.foldl_cons, List.foldl_nil]

/-- The update of routes is linearizable: the standby table is always free to
change, a table changes only while no forwarding thread can see it, every lookup
sees the operations up to some point with all completed ones among them, and
once no operation is pending both tables and all threads agree on all of them. -/
theorem routeUpdates_linearizable {trace : List (System.Action n × System T n)} {sys : System T n}
    (run : System.Run (.start n) trace sys) (short : ∀ op ∈ System.begun trace, op.masklen ≤ 32) :
    (sys.control = .idle → ∀ op, ∃ sys', sys.beginUpdate op = .ok sys') ∧
    (∀ action sys' table, System.Step sys action sys' →
      (sys.mutated action = some table → sys.Unreferenced table) ∧
      (sys.mutated action ≠ some table → sys'.ipv4.deref table = sys.ipv4.deref table)) ∧
    (∀ t, ∃ k, System.completed trace ≤ k ∧ k ≤ (System.begun trace).length ∧
      (sys.ipv4.deref (sys.node t).table).routes = routesAfter ((System.begun trace).take k) ∧
      ∀ ip, IpLookupTable.longestMatch (sys.ipv4.deref (sys.node t).table).root ip =
        (routesAfter ((System.begun trace).take k)).longestMatch ip) ∧
    (sys.control = .idle →
      System.completed trace = (System.begun trace).length ∧
      (∀ table, (sys.ipv4.deref table).routes = routesAfter (System.begun trace)) ∧
      ∀ t, (sys.node t).table = sys.ipv4.which ∧
        ∀ table, ∀ msg ∈ sys.inbox t, msg.refersTo table = false) := by
  have inv := run.inv
  refine ⟨fun idle op => ?_, fun action sys' table step => ⟨step.unreferenced, step.deref⟩, fun t => ?_,
    fun idle => ?_⟩
  · have free := inv.idle_free (System.phase_idle.mpr idle)
    rw [← System.abs_active_other] at free
    exact ⟨_, System.beginUpdate_eq_ok.mpr ⟨_, System.getMut_eq_some.mpr ⟨free, rfl⟩, rfl⟩⟩
  · obtain ⟨k, atLeast, atMost, copy⟩ := inv.reads (sys.node t).table.side
    have routes : (sys.ipv4.deref (sys.node t).table).routes = routesAfter ((System.begun trace).take k) := by
      rw [← System.abs_copy, copy, result_routes fun op member => short op (List.mem_of_mem_take member)]
    exact ⟨k, atLeast, atMost, routes, fun ip => by rw [LawfulLookup.longestMatch_eq, ← routes]; rfl⟩
  · obtain ⟨all, agree, settled⟩ := inv.settled (System.phase_idle.mpr idle)
    refine ⟨all, fun table => ?_, fun t => ⟨V4Table.side_inj.mp (settled t).1, fun table => ?_⟩⟩
    · rw [← System.abs_copy, agree, result_routes short]
    · rw [← System.not_mem_inFlight, (settled t).2]
      exact List.not_mem_nil

end Lawful

/-- Nothing keeps `add_or_del_route` in its loop once the threads have taken
their messages. -/
theorem System.Run.spin_returns [IpLookupTable T] {trace : List (Action n × System T n)} {sys : System T n}
    {op : RouteOp} (run : Run (System.start n) trace sys) (spinning : sys.control = .spinning op)
    (drained : ∀ t, sys.inbox t = []) : (sys.spin op).control = .idle := by
  have free : sys.abs.Free (!sys.abs.active) :=
    run.inv.drained_free (congrArg phase spinning) fun t => by simp only [abs, drained, List.filterMap_nil]
  rw [← abs_active_other] at free
  simp only [System.spin, getMut_eq_some.mpr ⟨free, rfl⟩]

/-- A plain list in the place of `treebitmap`. -/
structure RouteList where
  entries : List (Prefix × IPv4Leaf)

namespace RouteList

def lookup (t : RouteList) : Routes := fun key => t.entries.lookup key

instance : IpLookupTable RouteList where
  new := ⟨[]⟩
  insert t ip len leaf := (t.lookup (ip.masked len), ⟨(ip.masked len, leaf) :: t.entries⟩)
  remove t ip len := (t.lookup (ip.masked len), ⟨t.entries.filter fun entry => entry.1 ≠ ip.masked len⟩)
  longestMatch t := t.lookup.longestMatch

theorem lookup_filter (entries : List (Prefix × IPv4Leaf)) (gone key : Prefix) :
    (entries.filter fun entry => entry.1 ≠ gone).lookup key = if key = gone then none else entries.lookup key := by
  induction entries with
  | nil => simp only [List.filter_nil, List.lookup_nil, ite_self]
  | cons entry entries ih =>
    obtain ⟨found, leaf⟩ := entry
    by_cases same : found = gone
    · rw [List.filter_cons_of_neg (by simpa using same), ih, List.lookup_cons]
      by_cases here : key = gone
      · rw [if_pos here, if_pos here]
      · rw [if_neg here, if_neg here, beq_false_of_ne fun hit => here (hit.trans same)]
    · rw [List.filter_cons_of_pos (by simpa using same), List.lookup_cons, List.lookup_cons, ih]
      by_cases here : key = gone
      · rw [if_pos here, if_pos here, beq_false_of_ne fun hit => same (hit.symm.trans here)]
      · rw [if_neg here, if_neg here]

instance : LawfulLookup RouteList where
  routes := lookup
  routes_new := rfl
  routes_insert t ip len leaf _ := by
    funext key
    by_cases here : key = ip.masked len
    · subst here
      simp only [Function.update_self, lookup, IpLookupTable.insert, List.lookup_cons_self]
    · simp only [Function.update_of_ne here, lookup, IpLookupTable.insert, List.lookup_cons, beq_false_of_ne here]
  routes_remove t ip len _ := by
    funext key
    simp only [lookup, IpLookupTable.remove, lookup_filter, Function.update_apply]
  longestMatch_eq _ _ := rfl

end RouteList

def sampleRoute : RouteOp := ⟨⟨10, 1, 0, 0⟩, 16, ⟨10, 1, 0, 1⟩, 3, true⟩

theorem sampleRoute_run : ∃ trace, ∃ sys : System RouteList 2,
    System.Run (.start 2) trace sys ∧ System.begun trace = [sampleRoute] ∧ System.completed trace = 1 ∧
      sys.control = .idle ∧ sys.ipv4.which = .table2 := by
  refine ⟨_, _, .next (.next (.next (.next (.next (.next (.next (.next (.next .start
    (.call rfl rfl : System.Step _ (.call sampleRoute) _)) (.send rfl)) (.receive (t := 0) rfl rfl)) (.send rfl))
    (.sent rfl)) (.install (t := 0) rfl rfl)) (.receive (t := 1) rfl rfl))
    (.install (t := 1) rfl rfl)) (.spin rfl), ?_⟩
  exact ⟨rfl, rfl, rfl, rfl⟩

/-- One route reaches both threads and both tables. -/
theorem routeUpdates_linearizable_two_threads : ∃ trace, ∃ sys : System RouteList 2,
    System.Run (.start 2) trace sys ∧ System.begun trace = [sampleRoute] ∧
      (∀ table, (sys.ipv4.deref table).routes = routesAfter [sampleRoute]) ∧ ∀ t, (sys.node t).table = .table2 := by
  obtain ⟨trace, sys, run, ops, _, idle, which⟩ := sampleRoute_run
  have short : ∀ op ∈ System.begun trace, op.masklen ≤ 32 := by
    rw [ops]
    decide
  obtain ⟨_, _, _, settled⟩ := routeUpdates_linearizable run short
  obtain ⟨_, tables, threads⟩ := settled idle
  exact ⟨trace, sys, run, ops, fun table => ops ▸ tables table, fun t => which ▸ (threads t).1⟩

end R2
