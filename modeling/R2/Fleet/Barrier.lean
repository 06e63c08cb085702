import R2.Fleet.Standby

namespace R2.Fleet

open Control

variable {n : Nat} {T σ : Type}

section Channel

/-- Every table on its way is another than the one before it. -/
def Strictly : V4Table → List (Msg T) → Prop
  | _, [] => True
  | old, msg :: msgs => msg.table? ≠ some old ∧ Strictly (msg.table?.getD old) msgs

variable {old : V4Table} {msg : Msg T} {msgs : List (Msg T)}

theorem inUse_cons (old : V4Table) (msg : Msg T) (msgs : List (Msg T)) :
    inUse old (msg :: msgs) = inUse (msg.table?.getD old) msgs := by
  cases msg <;> rfl

theorem strictly_append : Strictly old (msgs ++ [msg]) ↔ Strictly old msgs ∧ msg.table? ≠ some (inUse old msgs) := by
  induction msgs generalizing old with
  | nil => exact ⟨fun both => ⟨trivial, both.1⟩, fun both => ⟨both.2, trivial⟩⟩
  | cons first msgs ih =>
    rw [List.cons_append, Strictly, Strictly, ih, inUse_cons]
    exact and_assoc.symm

/-- A thread that has a table, and has only this one under way, has none under way. -/
theorem Strictly.none (strictly : Strictly old msgs) (only : ∀ msg ∈ msgs, msg.table? ≠ some old.other) :
    ∀ msg ∈ msgs, msg.table? = none := by
  induction msgs with
  | nil => exact nofun
  | cons msg msgs ih =>
    obtain ⟨first, later⟩ := List.forall_mem_cons.mp only
    have none : msg.table? = Option.none := by
      cases kind : msg.table? with
      | none => rfl
      | some which =>
        rw [kind] at first
        have apart := strictly.1
        rw [kind] at apart
        cases which <;> cases old <;> simp [V4Table.other] at first apart
    have rest := strictly.2
    rw [none] at rest
    exact List.forall_mem_cons.mpr ⟨none, ih rest later⟩

end Channel

section Actions

/-- No thread is sent the table that was the last one it was sent; `cur` are these. -/
def Alternates : (Fin n → V4Table) → List (Action n T) → Prop
  | _, [] => True
  | cur, .send t msg :: actions =>
    msg.table? ≠ some (cur t) ∧ Alternates (Function.update cur t (msg.table?.getD (cur t))) actions
  | cur, .await _ :: actions => Alternates cur actions

/-- When it comes to wait for a table, the other one is the last that it has sent to
every thread; `cur` are the channels. -/
def Closes : (Fin n → List (Msg T)) → List (Action n T) → Prop
  | _, [] => True
  | cur, .send t msg :: actions => Closes (Function.update cur t (cur t ++ [msg])) actions
  | cur, .await old :: actions =>
    (∀ t msg, (cur t).getLast? = some msg → msg.table? = some old.other) ∧ Closes cur actions

variable {table old : V4Table} {xs ys actions : List (Action n T)} {threads : List (Fin n)} {msg : Msg T}

theorem Aside.alternates {cur : Fin n → V4Table} (aside : Aside xs) :
    Alternates cur (xs ++ actions) ↔ Alternates cur actions := by
  induction xs with
  | nil => exact Iff.rfl
  | cons action xs ih =>
    obtain ⟨⟨t, msg, rfl, other⟩, later⟩ := List.forall_mem_cons.mp aside
    rw [List.cons_append, Alternates, other, Option.getD_none, Function.update_eq_self, ← ih later]
    exact and_iff_right nofun

theorem alternates_sends {routes : IPv4Table T} {cur : Fin n → V4Table} (distinct : threads.Nodup)
    (fresh : ∀ t ∈ threads, cur t ≠ table)
    (after : ∀ cur' : Fin n → V4Table, (∀ t, cur' t = if t ∈ threads then table else cur t) → Alternates cur' actions) :
    Alternates cur (threads.map (.send · (.ipv4TableAdd table routes)) ++ actions) := by
  induction threads generalizing cur with
  | nil => exact after cur fun t => (if_neg List.not_mem_nil).symm
  | cons u rest ih =>
    obtain ⟨apart, distinct⟩ := List.nodup_cons.mp distinct
    obtain ⟨first, later⟩ := List.forall_mem_cons.mp fresh
    refine ⟨fun same => first (Option.some.inj same).symm, ih distinct (fun t member => ?_) fun cur' same => ?_⟩
    · have other : t ≠ u := fun same => apart (same ▸ member)
      rw [Function.update_of_ne other]
      exact later t member
    · refine after cur' fun t => ?_
      rw [same t]
      by_cases here : t = u
      · subst here
        rw [if_neg apart, Function.update_self, if_pos (List.mem_cons_self ..)]
        rfl
      · simp only [Function.update_of_ne here, List.mem_cons, here, false_or]

theorem closes_mono {cur cur' : Fin n → List (Msg T)} (less : ∀ t, cur' t <:+ cur t) (closes : Closes cur actions) :
    Closes cur' actions := by
  induction actions generalizing cur cur' with
  | nil => trivial
  | cons action actions ih =>
    cases action with
    | send t msg =>
      refine ih (fun u => ?_) closes
      by_cases same : u = t
      · subst same
        rw [Function.update_self, Function.update_self]
        obtain ⟨before, whole⟩ := less u
        exact ⟨before, by rw [← whole, List.append_assoc]⟩
      · rw [Function.update_of_ne same, Function.update_of_ne same]
        exact less u
    | await old =>
      refine ⟨fun t msg last => closes.1 t msg ?_, ih less closes.2⟩
      obtain ⟨before, whole⟩ := less t
      rw [← whole, List.getLast?_append, last]
      rfl

/-- They close whatever the channels had. -/
def Sealed (actions : List (Action n T)) : Prop := ∀ cur, Closes cur actions

theorem closes_append {cur : Fin n → List (Msg T)} (first : Closes cur xs) (second : Sealed ys) :
    Closes cur (xs ++ ys) := by
  induction xs generalizing cur with
  | nil => exact second cur
  | cons action xs ih =>
    cases action with
    | send t msg => exact ih first
    | await old => exact ⟨first.1, ih first.2⟩

theorem Aside.sealed (aside : Aside xs) : Sealed xs := by
  induction xs with
  | nil => exact fun _ => trivial
  | cons action xs ih =>
    obtain ⟨⟨t, msg, rfl, _⟩, later⟩ := List.forall_mem_cons.mp aside
    exact fun cur => ih later _

theorem closes_sends {cur : Fin n → List (Msg T)} (sent : msg.table? = some old.other) (second : Sealed actions)
    (others : ∀ t ∉ threads, ∀ msg, (cur t).getLast? = some msg → msg.table? = some old.other) :
    Closes cur (threads.map (.send · msg) ++ .await old :: actions) := by
  induction threads generalizing cur with
  | nil => exact ⟨fun t => others t List.not_mem_nil, second cur⟩
  | cons u rest ih =>
    refine ih fun t outside msg' last => ?_
    by_cases same : t = u
    · subst same
      rw [Function.update_self, List.getLast?_concat] at last
      cases last
      exact sent
    · rw [Function.update_of_ne same] at last
      exact others t (by simp [same, outside]) msg' last

end Actions

section Called

variable [IpLookupTable T] {r2 r2' : Ctx T} {ip : Ipv4Addr} {masklen : Nat} {nhop : Ipv4Addr} {ifindex : Nat}
  {add : Bool} {cur : Fin n → V4Table} {actions : List (Action n T)} {sections : List (List (Action n T))}

theorem alternates_update (held : ∀ t, cur t = r2.ipv4.which)
    (after : ∀ cur' : Fin n → V4Table, (∀ t, cur' t = r2.ipv4.which.other) → Alternates cur' actions) :
    Alternates cur ((addOrDelRoute r2 ip masklen nhop ifindex add).2 ++ actions) := by
  rw [addOrDelRoute_actions, List.append_assoc]
  refine alternates_sends (List.nodup_finRange n) (fun t _ => ?_) fun cur' same => after cur' fun t => ?_
  · rw [held]
    exact other_ne _
  · rw [same, if_pos (List.mem_finRange t)]

theorem sealed_update : Sealed (addOrDelRoute (n := n) r2 ip masklen nhop ifindex add).2 := by
  intro cur
  rw [addOrDelRoute_actions]
  exact closes_sends rfl (fun _ => trivial) fun t outside => absurd (List.mem_finRange t) outside

theorem Called.alternates (called : Called r2 r2' sections) (held : ∀ t, cur t = r2.ipv4.which) :
    Alternates cur sections.flatten := by
  cases called with
  | addIf owner =>
    refine Aside.alternates ?_ |>.mpr trivial
    exact aside_interface owner _ rfl rfl rfl
  | addIp => exact (aside_broadcast rfl).alternates.mpr (alternates_update held fun _ _ => trivial)
  | changeIp _ _ run =>
    cases run
    refine (aside_broadcast rfl).alternates.mpr ?_
    rw [List.flatten_cons, List.append_assoc]
    exact alternates_update held fun _ held' =>
      alternates_update (fun t => (held' t).trans (addOrDelRoute_which ..).symm) fun _ _ => trivial
  | addClass => exact (aside_broadcast rfl).alternates.mpr trivial
  | route => exact alternates_update held fun _ _ => trivial

theorem Called.sealed (called : Called r2 r2' sections) : ∀ actions ∈ sections, Sealed actions := by
  have all {msg : Msg T} (other : msg.clone.table? = none) : Sealed (broadcast msg : List (Action n T)) :=
    (aside_broadcast other).sealed
  have none : ∀ actions ∈ ([] : List (List (Action n T))), Sealed actions := nofun
  cases called with
  | addIf owner =>
    refine List.forall_mem_cons.mpr ⟨Aside.sealed ?_, none⟩
    exact aside_interface owner _ rfl rfl rfl
  | addIp => exact List.forall_mem_cons.mpr ⟨all rfl, List.forall_mem_cons.mpr ⟨sealed_update, none⟩⟩
  | changeIp _ _ run =>
    cases run
    refine List.forall_mem_cons.mpr ⟨all rfl, List.forall_mem_cons.mpr ⟨fun cur => ?_, none⟩⟩
    exact closes_append (sealed_update cur) sealed_update
  | addClass => exact List.forall_mem_cons.mpr ⟨all rfl, none⟩
  | route => exact List.forall_mem_cons.mpr ⟨sealed_update, none⟩

end Called

section Orderly

variable {fleet fleet' : Fleet n T σ} {goal : Graph (Node T) Packet} {base : Fin n → V4Table} {old : V4Table}

/-- The order of what is under way to the threads, which have the tables `base`. -/
structure Orderly (fleet : Fleet n T σ) (base : Fin n → V4Table) : Prop where
  uses : ∀ t, Uses (fleet.thread t).shared (base t)
  strictly : ∀ t, Strictly (base t) (fleet.channel t)
  alternates : Alternates (fun t => inUse (base t) (fleet.channel t)) (fleet.locked ++ fleet.later.flatten)
  closes : Closes fleet.channel fleet.locked
  sealed : ∀ actions ∈ fleet.later, Sealed actions

theorem Orderly.turn (orderly : Orderly fleet base) (inv : Inv fleet goal) (turn : Turn fleet fleet') :
    ∃ base', Orderly fleet' base' := by
  obtain ⟨uses, strictly, alternates, closes, sealed⟩ := orderly
  cases turn with
  | lock free next =>
    rw [free, next] at alternates
    rw [next] at sealed
    obtain ⟨first, rest⟩ := List.forall_mem_cons.mp sealed
    exact ⟨base, uses, strictly, alternates, first _, rest⟩
  | report free head =>
    rw [free] at alternates
    refine ⟨base, uses, strictly, (aside_broadcast rfl).alternates.mpr alternates, ?_, sealed⟩
    exact (aside_broadcast rfl).sealed _
  | @send t msg locked head =>
    rw [head] at alternates closes
    refine ⟨base, uses, fun u => ?_, ?_, closes, sealed⟩
    · by_cases same : u = t
      · subst same
        dsimp only
        rw [Function.update_self]
        exact strictly_append.mpr ⟨strictly u, alternates.1⟩
      · dsimp only
        rw [Function.update_of_ne same]
        exact strictly u
    · have after := inUse_send base fleet.channel t msg
      rw [inUse_cons] at after
      exact after ▸ alternates.2
  | await head released =>
    rw [head] at alternates closes
    exact ⟨base, uses, strictly, alternates, closes.2, sealed⟩
  | @receive t msg rest f head run =>
    refine ⟨_, uses_receive inv uses head run, fun u => ?_, inUse_receive base head ▸ alternates,
      closes_mono (fun u => ?_) closes, sealed⟩
    · by_cases same : u = t
      · subst same
        have before := strictly u
        rw [head] at before
        simp only [Function.update_self]
        rw [inUse_cons]
        exact before.2
      · simp only [Function.update_of_ne same]
        exact strictly u
    · by_cases same : u = t
      · subst same
        dsimp only
        rw [Function.update_self, head]
        exact List.suffix_cons ..
      · dsimp only
        rw [Function.update_of_ne same]

/-- Nobody has the table that was waited for, so everybody has taken the other one,
and behind that nothing was sent. -/
theorem Orderly.drained (orderly : Orderly fleet base) {rest : List (Action n T)}
    (waits : fleet.locked = .await old :: rest) (free : fleet.Released old) (t : Fin n) : fleet.channel t = [] := by
  obtain ⟨none, other⟩ := (released_iff orderly.uses).mp free t
  have taken : base t = old.other := eq_of_ne_other (by rw [other_other]; exact other)
  have gone : ∀ msg ∈ fleet.channel t, msg.table? = Option.none := by
    refine (orderly.strictly t).none fun msg member same => ?_
    rw [taken, other_other] at same
    cases msg with
    | ipv4TableAdd which routes =>
      cases Option.some.inj same
      exact none routes member
    | _ => cases same
  have closes := orderly.closes
  rw [waits] at closes
  cases last : (fleet.channel t).getLast? with
  | none => exact List.getLast?_eq_none_iff.mp last
  | some msg =>
    have sent := closes.1 t msg last
    rw [gone msg (List.mem_of_getLast? last)] at sent
    cases sent

variable [IpLookupTable T]

theorem Orderly.start (pool : Fin n → σ) : Orderly (Fleet.start pool : Fleet n T σ) fun _ => .table1 where
  uses := uses_start pool
  strictly _ := trivial
  alternates := trivial
  closes := trivial
  sealed := nofun

theorem Orderly.step [PacketPool σ] (orderly : Orderly fleet base) (spare : Spare fleet) (inv : Inv fleet goal)
    (step : Step fleet fleet') : ∃ base', Orderly fleet' base' := by
  cases step with
  | @call c r2 locked later free idle run =>
    have held (t : Fin n) : inUse (base t) (fleet.channel t) = fleet.r2.ipv4.which := by
      have released := (released_iff orderly.uses).mp (spare.standby free idle) t
      exact eq_of_ne_other (inUse_ne released.1 released.2)
    rcases handle_cases (n := n) inv.tidy c with ⟨_, _, _, refused⟩ | ⟨_, sections, done, called⟩
    · rw [refused] at run
      cases run
    · cases (Except.ok.inj (done.symm.trans run) : (_, Except.ok sections) = _)
      obtain ⟨first, rest⟩ := List.forall_mem_cons.mp called.sealed
      exact ⟨base, orderly.uses, orderly.strictly, called.alternates held, first _, rest⟩
  | refused free idle run =>
    exact ⟨base, orderly.uses, orderly.strictly, orderly.alternates, orderly.closes, orderly.sealed⟩
  | frame owns found run =>
    exact ⟨base, uses_frame inv orderly.uses found run, orderly.strictly, orderly.alternates, orderly.closes,
      orderly.sealed⟩
  | turn turn => exact orderly.turn inv turn

theorem Reached.orderly [PacketPool σ] (reached : Reached fleet) : ∃ base, Orderly fleet base := by
  induction reached with
  | start pool some => exact ⟨_, Orderly.start pool⟩
  | step before step ih =>
    obtain ⟨base, orderly⟩ := ih
    obtain ⟨goal, holds⟩ := before.holds
    exact orderly.step before.spare holds.inv step

end Orderly

end R2.Fleet
