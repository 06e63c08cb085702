import R2.Fleet.Settled

namespace R2.Fleet

open Control

variable {n : Nat} {T σ : Type}

def Msg.table? : Msg T → Option V4Table
  | ipv4TableAdd which _ => some which
  | _ => none

section Actions

/-- No update of the routes is half done: what comes next of one goes to the first
thread. -/
def Between : List (Action n T) → Prop
  | [] => True
  | .send t msg :: actions => match msg.table? with
    | some _ => t.val = 0
    | none => Between actions
  | .await _ :: _ => False

/-- Every update sends `table`, which is not in use, and waits for the other one,
which the next update sends then; `which` is in use at the end. -/
def Rotates (which : V4Table) : V4Table → List (Action n T) → Prop
  | table, [] => which = table.other
  | table, .send _ msg :: actions => match msg.table? with
    | some sent => sent = table ∧ ¬Between actions ∧ Rotates which table actions
    | none => Rotates which table actions
  | table, .await old :: actions => old = table.other ∧ Rotates which old actions

/-- These actions send something other than routes. -/
def Aside (actions : List (Action n T)) : Prop :=
  ∀ action ∈ actions, ∃ t msg, action = .send t msg ∧ msg.table? = none

variable {which table : V4Table} {xs ys actions : List (Action n T)} {threads : List (Fin n)} {msg : Msg T}

theorem Aside.append (first : Aside xs) (second : Aside ys) : Aside (xs ++ ys) :=
  fun action member => (List.mem_append.mp member).elim (first action) (second action)

theorem aside_sends (threads : List (Fin n)) (other : msg.table? = none) : Aside (threads.map (.send · msg)) := by
  intro action member
  obtain ⟨t, _, rfl⟩ := List.mem_map.mp member
  exact ⟨t, msg, rfl, other⟩

theorem aside_broadcast (other : msg.clone.table? = none) : Aside (broadcast msg : List (Action n T)) :=
  aside_sends _ other

/-- What goes out for a new interface. -/
theorem aside_interface {opened node own : Msg T} (owner : Fin n) (intf : Interface)
    (opens : opened.clone.table? = none) (clones : node.table? = none) (owned : own.table? = none) :
    Aside (broadcast opened ++ threads.map (.send · node) ++ [.send owner own] ++ createEthNodes intf) :=
  (((aside_broadcast opens).append (aside_sends _ clones)).append (aside_sends [owner] owned)).append
    ((aside_broadcast rfl).append (aside_broadcast rfl))

theorem Aside.between (aside : Aside xs) : Between (xs ++ actions) ↔ Between actions := by
  induction xs with
  | nil => exact Iff.rfl
  | cons action xs ih =>
    obtain ⟨⟨t, msg, rfl, other⟩, later⟩ := List.forall_mem_cons.mp aside
    rw [List.cons_append, Between, other]
    exact ih later

theorem Aside.rotates (aside : Aside xs) : Rotates which table (xs ++ actions) ↔ Rotates which table actions := by
  induction xs with
  | nil => exact Iff.rfl
  | cons action xs ih =>
    obtain ⟨⟨t, msg, rfl, other⟩, later⟩ := List.forall_mem_cons.mp aside
    rw [List.cons_append, Rotates, other]
    exact ih later

theorem other_other (table : V4Table) : table.other.other = table := by cases table <;> rfl

theorem other_ne (table : V4Table) : table ≠ table.other := by cases table <;> exact nofun

theorem eq_of_ne_other {table old : V4Table} (apart : table ≠ old.other) : table = old := by
  cases table <;> cases old <;> first | rfl | exact absurd rfl apart

/-- A broadcast that has begun is no longer at the first thread. -/
theorem not_between_sends {routes : IPv4Table T} (begun : ∀ t ∈ threads, t.val ≠ 0) (old : V4Table) :
    ¬Between (threads.map (.send · (.ipv4TableAdd table routes)) ++ .await old :: actions) := by
  cases threads with
  | nil => exact id
  | cons t threads => exact begun t (List.mem_cons_self ..)

theorem rotates_sends {routes : IPv4Table T} {old : V4Table} (begun : ∀ t ∈ threads.tail, t.val ≠ 0)
    (swap : old = table.other) (after : Rotates which old actions) :
    Rotates which table (threads.map (.send · (.ipv4TableAdd table routes)) ++ .await old :: actions) := by
  induction threads with
  | nil => exact ⟨swap, after⟩
  | cons t threads ih =>
    refine ⟨rfl, not_between_sends begun _, ih fun u member => ?_⟩
    exact begun u (List.mem_of_mem_tail member)

/-- The threads behind the first one. -/
theorem finRange_tail {t : Fin n} (member : t ∈ (List.finRange n).tail) : t.val ≠ 0 := by
  cases n with
  | zero => exact t.elim0
  | succ k =>
    rw [List.finRange_succ, List.tail_cons] at member
    obtain ⟨u, _, rfl⟩ := List.mem_map.mp member
    exact Nat.succ_ne_zero u

/-- An update sends the table that is not in use to one thread after the other. -/
theorem addOrDelRoute_actions [IpLookupTable T] (r2 : Ctx T) (ip : Ipv4Addr) (masklen : Nat) (nhop : Ipv4Addr)
    (ifindex : Nat) (add : Bool) : (addOrDelRoute (n := n) r2 ip masklen nhop ifindex add).2 =
    ((List.finRange n).map fun t => .send t (.ipv4TableAdd r2.ipv4.which.other
      ((Control.addOrDelRoute r2 ip masklen nhop ifindex add).1.ipv4.deref r2.ipv4.which.other))) ++
        [.await r2.ipv4.which] := by
  have sent : (Control.addOrDelRoute r2 ip masklen nhop ifindex add).1.ipv4.which = r2.ipv4.which.other :=
    addOrDelRoute_which ..
  unfold addOrDelRoute broadcast
  dsimp only
  rw [sent]
  rfl

theorem rotates_update [IpLookupTable T] {r2 : Ctx T} {ip : Ipv4Addr} {masklen : Nat} {nhop : Ipv4Addr} {ifindex : Nat}
    {add : Bool} (standby : r2.ipv4.which.other = table) (after : Rotates which r2.ipv4.which actions) :
    Rotates which table ((addOrDelRoute (n := n) r2 ip masklen nhop ifindex add).2 ++ actions) := by
  subst standby
  rw [addOrDelRoute_actions, List.append_assoc]
  exact rotates_sends (fun _ => finRange_tail) (other_other _).symm after

/-- The updates of a call, one after the other. -/
theorem Called.rotates [IpLookupTable T] {r2 r2' : Ctx T} {sections : List (List (Action n T))}
    (called : Called r2 r2' sections) : Rotates r2'.ipv4.which r2.ipv4.which.other sections.flatten := by
  have nothing : Rotates r2.ipv4.which r2.ipv4.which.other ([] : List (Action n T)) := (other_other _).symm
  cases called with
  | addIf owner =>
    refine Aside.rotates ?_ |>.mpr nothing
    exact aside_interface owner _ rfl rfl rfl
  | addIp => exact (aside_broadcast rfl).rotates.mpr (rotates_update rfl (addOrDelRoute_which ..))
  | @changeIp ifname intf addr masklen r2₁ deleted _ _ run =>
    cases run
    refine (aside_broadcast rfl).rotates.mpr ?_
    rw [List.flatten_cons, List.append_assoc]
    refine rotates_update rfl (rotates_update ?_ (addOrDelRoute_which ..))
    exact (congrArg V4Table.other (addOrDelRoute_which ..)).trans (other_other _)
  | addClass => exact (aside_broadcast rfl).rotates.mpr nothing
  | route => exact rotates_update rfl (addOrDelRoute_which ..)

end Actions

section Spare

variable {fleet fleet' : Fleet n T σ} {goal : Graph (Node T) Packet} {table : V4Table} {base : Fin n → V4Table}

theorem Uses.found {f : Forwarder T σ} (uses : Uses f.shared table) :
    ∃ node routes, f.graph.client Names.l3Ipv4Fwd = some (.ipv4Fwd node routes) := by
  obtain ⟨node, routes, cloned, _⟩ := uses
  rw [Forwarder.client_shared] at cloned
  obtain ⟨c, found, clones⟩ := Option.map_eq_some_iff.mp cloned
  cases c <;> cases clones
  exact ⟨_, _, found⟩

theorem released_iff (uses : ∀ t, Uses (fleet.thread t).shared (base t)) :
    fleet.Released table ↔ ∀ t, (∀ routes, .ipv4TableAdd table routes ∉ fleet.channel t) ∧ base t ≠ table := by
  refine forall_congr' fun t => and_congr_right fun _ => ⟨fun apart => ?_, fun apart node routes found => ?_⟩
  · obtain ⟨node, routes, found⟩ := (uses t).found
    exact (uses t).own found ▸ apart node routes found
  · rw [(uses t).own found]
    exact apart

theorem inUse_ne {old : V4Table} {msgs : List (Msg T)} (apart : ∀ routes, .ipv4TableAdd table routes ∉ msgs)
    (other : old ≠ table) : inUse old msgs ≠ table := by
  induction msgs generalizing old with
  | nil => exact other
  | cons msg msgs ih =>
    have later : ∀ routes, .ipv4TableAdd table routes ∉ msgs := fun routes member =>
      apart routes (List.mem_cons_of_mem _ member)
    cases msg with
    | ipv4TableAdd which routes => exact ih later fun same => apart routes (same ▸ List.mem_cons_self ..)
    | _ => exact ih later other

/-- Between two updates nobody but the control threads has the table that the next
one changes. -/
def Spare (fleet : Fleet n T σ) : Prop :=
  ∃ table, Rotates fleet.r2.ipv4.which table (fleet.locked ++ fleet.later.flatten) ∧
    (Between (fleet.locked ++ fleet.later.flatten) → fleet.Released table)

theorem Spare.turn (spare : Spare fleet) (inv : Inv fleet goal) (ready : Ready fleet) (turn : Turn fleet fleet') :
    Spare fleet' := by
  obtain ⟨table, rotates, released⟩ := spare
  cases turn with
  | lock free next =>
    rw [free, next] at rotates released
    exact ⟨table, rotates, released⟩
  | @report report reports free head =>
    rw [free] at rotates released
    have aside : Aside (broadcast (.ethMacAdd report) : List (Action n T)) := aside_sends _ rfl
    exact ⟨table, aside.rotates.mpr rotates, fun between => released (aside.between.mp between)⟩
  | @send t msg locked head =>
    rw [head, List.cons_append] at rotates released
    simp only [Rotates, Between] at rotates released
    cases kind : msg.table? with
    | some sent =>
      rw [kind] at rotates
      exact ⟨table, rotates.2.2, fun between => absurd between rotates.2.1⟩
    | none =>
      rw [kind] at rotates released
      refine ⟨table, rotates, fun between u => ⟨fun routes member => ?_, (released between u).2⟩⟩
      dsimp only at member
      by_cases same : u = t
      · subst same
        rw [Function.update_self, List.mem_append] at member
        rcases member with old | new
        · exact (released between u).1 routes old
        · rw [← List.mem_singleton.mp new] at kind
          cases kind
      · rw [Function.update_of_ne same] at member
        exact (released between u).1 routes member
  | @await old locked head alone =>
    rw [head, List.cons_append] at rotates
    exact ⟨old, rotates.2, fun _ => alone⟩
  | @receive t msg rest f head run =>
    obtain ⟨base, uses, _⟩ := ready
    refine ⟨table, rotates, fun between => (released_iff (uses_receive inv uses head run)).mpr fun u => ?_⟩
    have before := (released_iff uses).mp (released between) u
    by_cases same : u = t
    · subst same
      rw [head] at before
      simp only [Function.update_self]
      exact ⟨fun routes member => before.1 routes (List.mem_cons_of_mem _ member),
        inUse_ne (fun routes same => before.1 routes (List.mem_singleton.mp same ▸ List.mem_cons_self ..)) before.2⟩
    · simp only [Function.update_of_ne same]
      exact before

theorem Spare.standby (spare : Spare fleet) (free : fleet.locked = []) (idle : fleet.later = []) :
    fleet.Released fleet.r2.ipv4.which.other := by
  obtain ⟨table, rotates, released⟩ := spare
  rw [free, idle] at rotates released
  rw [show fleet.r2.ipv4.which = table.other from rotates, other_other]
  exact released trivial

variable [IpLookupTable T]

theorem Spare.start (pool : Fin n → σ) : Spare (Fleet.start pool : Fleet n T σ) :=
  ⟨.table2, rfl, fun _ => (released_iff (uses_start pool)).mpr fun _ => ⟨fun _ => List.not_mem_nil, nofun⟩⟩

theorem Spare.step [PacketPool σ] (spare : Spare fleet) (inv : Inv fleet goal) (ready : Ready fleet)
    (step : Step fleet fleet') : Spare fleet' := by
  cases step with
  | @call c r2 locked later free idle run =>
    have released := spare.standby free idle
    rcases handle_cases (n := n) inv.tidy c with ⟨_, _, _, refused⟩ | ⟨_, sections, done, called⟩
    · rw [refused] at run
      cases run
    · cases (Except.ok.inj (done.symm.trans run) : (_, Except.ok sections) = _)
      exact ⟨_, called.rotates, fun _ => released⟩
  | @refused c r2 text free idle run =>
    rcases handle_cases (n := n) inv.tidy c with ⟨_, _, _, refused⟩ | ⟨_, _, done, _⟩
    · cases Except.ok.inj (refused.symm.trans run)
      exact spare
    · rw [done] at run
      cases run
  | frame owns found run =>
    obtain ⟨table, rotates, released⟩ := spare
    obtain ⟨base, uses, _⟩ := ready
    exact ⟨table, rotates, fun between =>
      (released_iff (uses_frame inv uses found run)).mpr ((released_iff uses).mp (released between))⟩
  | turn turn => exact spare.turn inv ready turn

theorem Reached.spare [PacketPool σ] (reached : Reached fleet) : Spare fleet := by
  induction reached with
  | start pool some => exact Spare.start pool
  | step before step ih =>
    obtain ⟨goal, holds⟩ := before.holds
    exact ih.step holds.inv holds.ready step

/-- A route update finds the standby table free, whatever the threads were doing
before: when a call begins, when `handle_add_ip` takes the lock again, and when its
second update follows the first. -/
theorem standby_free [PacketPool σ] (reached : Reached fleet) :
    (fleet.locked = [] → fleet.later = [] → fleet.Released fleet.r2.ipv4.which.other) ∧
      ∀ table routes actions, fleet.locked ++ fleet.later.flatten = broadcast (.ipv4TableAdd table routes) ++ actions →
        fleet.Released table := by
  refine ⟨reached.spare.standby, fun sent routes actions next => ?_⟩
  obtain ⟨table, rotates, released⟩ := reached.spare
  obtain ⟨goal, holds⟩ := reached.holds
  obtain ⟨k, rfl⟩ := Nat.exists_eq_succ_of_ne_zero (Nat.ne_of_gt (Nat.zero_lt_of_lt holds.inv.tidy.lastThread))
  rw [next, broadcast, List.finRange_succ, List.map_cons, List.cons_append] at rotates released
  obtain ⟨same, _⟩ := (rotates : sent = table ∧ _)
  subst same
  exact released rfl

theorem route_called : ∃ (fleet : Fleet 2 RouteList PktsHeap) (table old : V4Table) (routes : IPv4Table RouteList),
    Reached fleet ∧ fleet.locked = broadcast (.ipv4TableAdd table routes) ++ [.await old] ∧ fleet.later = [] ∧
      ∀ t, fleet.channel t = [] := by
  obtain ⟨fleet, reached, quiet, r2, _⟩ := port_open
  exact ⟨_, _, _, _, reached.step (.call quiet.1 quiet.2.1 (r2 ▸ handle_addTen)), rfl, rfl, quiet.2.2.2⟩

theorem standby_free_two : ∃ (fleet : Fleet 2 RouteList PktsHeap) (table : V4Table) (routes : IPv4Table RouteList)
    (actions : List (Action 2 RouteList)), Reached fleet ∧
      fleet.locked ++ fleet.later.flatten = broadcast (.ipv4TableAdd table routes) ++ actions ∧
        fleet.Released table := by
  obtain ⟨fleet, table, old, routes, reached, locked, later, _⟩ := route_called
  have next : fleet.locked ++ fleet.later.flatten = broadcast (.ipv4TableAdd table routes) ++ [.await old] := by
    rw [locked, later, List.flatten_nil, List.append_nil]
  exact ⟨fleet, table, routes, _, reached, next, (standby_free reached).2 _ _ _ next⟩

end Spare

end R2.Fleet
