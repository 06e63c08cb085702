import Mathlib.Algebra.BigOperators.Fin
import R2.Base.Settling
import R2.Fleet.Agree

namespace R2.Fleet

open Control

variable {n : Nat} {T σ : Type}

section Tables

/-- The table of a thread that had this one, once it has taken these messages. -/
def inUse (table : V4Table) : List (Msg T) → V4Table
  | [] => table
  | .ipv4TableAdd which _ :: msgs => inUse which msgs
  | _ :: msgs => inUse table msgs

theorem inUse_append (table : V4Table) (xs ys : List (Msg T)) : inUse table (xs ++ ys) = inUse (inUse table xs) ys := by
  induction xs generalizing table with
  | nil => rfl
  | cons msg xs ih => cases msg <;> exact ih _

theorem inUse_send (base : Fin n → V4Table) (channel : Fin n → List (Msg T)) (t : Fin n) (msg : Msg T) :
    (fun u => inUse (base u) (Function.update channel t (channel t ++ [msg]) u)) =
      Function.update (fun u => inUse (base u) (channel u)) t (inUse (inUse (base t) (channel t)) [msg]) := by
  funext u
  by_cases same : u = t
  · subst same
    rw [Function.update_self, Function.update_self, inUse_append]
  · rw [Function.update_of_ne same, Function.update_of_ne same]

theorem inUse_receive (base : Fin n → V4Table) {channel : Fin n → List (Msg T)} {t : Fin n} {msg : Msg T}
    {rest : List (Msg T)} (head : channel t = msg :: rest) :
    (fun u => inUse (Function.update base t (inUse (base t) [msg]) u) (Function.update channel t rest u)) =
      fun u => inUse (base u) (channel u) := by
  funext u
  by_cases same : u = t
  · subst same
    rw [Function.update_self, Function.update_self, head, ← inUse_append]
    rfl
  · rw [Function.update_of_ne same, Function.update_of_ne same]

/-- When it comes to wait for a table, every thread has been sent the other one;
`cur` are the tables of the threads once they have taken what was sent before. -/
def Waits (cur : Fin n → V4Table) : List (Action n T) → Prop
  | [] => True
  | .send t msg :: actions => Waits (Function.update cur t (inUse (cur t) [msg])) actions
  | .await table :: actions => (∀ t, cur t ≠ table) ∧ Waits cur actions

/-- What it waits for does not depend on what the threads had before. -/
def Guarded (actions : List (Action n T)) : Prop := ∀ cur, Waits cur actions

variable {cur : Fin n → V4Table} {xs ys : List (Action n T)} {msg : Msg T}

theorem Waits.append (first : Waits cur xs) (second : Guarded ys) : Waits cur (xs ++ ys) := by
  induction xs generalizing cur with
  | nil => exact second cur
  | cons action xs ih =>
    cases action with
    | send t msg => exact ih first
    | await table => exact ⟨first.1, ih first.2⟩

theorem Guarded.append (first : Guarded xs) (second : Guarded ys) : Guarded (xs ++ ys) :=
  fun cur => (first cur).append second

/-- Some sends of one message. -/
theorem waits_sends {threads : List (Fin n)} (distinct : threads.Nodup) (msg : Msg T) :
    Waits cur (threads.map (.send · msg) ++ xs) ↔
      Waits (fun t => if t ∈ threads then inUse (cur t) [msg] else cur t) xs := by
  induction threads generalizing cur with
  | nil => simp only [List.map_nil, List.nil_append, List.not_mem_nil, if_false]
  | cons u rest ih =>
    obtain ⟨apart, distinct⟩ := List.nodup_cons.mp distinct
    rw [List.map_cons, List.cons_append, Waits, ih distinct]
    refine iff_of_eq (congrArg (Waits · xs) (funext fun t => ?_))
    by_cases same : t = u
    · subst same
      rw [if_neg apart, Function.update_self, if_pos (List.mem_cons_self ..)]
    · simp only [Function.update_of_ne same, List.mem_cons, same, false_or]

theorem waits_broadcast (msg : Msg T) :
    Waits cur (broadcast msg ++ xs) ↔ Waits (fun t => inUse (cur t) [msg.clone]) xs := by
  rw [broadcast, waits_sends (List.nodup_finRange n)]
  simp only [List.mem_finRange, if_true]

/-- Sends alone wait for nothing. -/
theorem guarded_sends (threads : List (Fin n)) (msg : Msg T) : Guarded (threads.map (.send · msg)) := by
  induction threads with
  | nil => exact fun _ => trivial
  | cons u rest ih => exact fun cur => ih _

theorem addOrDelRoute_which [IpLookupTable T] (r2 : Ctx T) (ip : Ipv4Addr) (masklen : Nat) (nhop : Ipv4Addr)
    (ifindex : Nat) (add : Bool) :
    (Control.addOrDelRoute r2 ip masklen nhop ifindex add).1.ipv4.which = r2.ipv4.which.other := by
  unfold Control.addOrDelRoute
  cases r2.ipv4.which <;> rfl

theorem addOrDelRoute_guarded [IpLookupTable T] {r2 r2' : Ctx T} {ip : Ipv4Addr} {masklen : Nat} {nhop : Ipv4Addr}
    {ifindex : Nat} {add : Bool} {actions : List (Action n T)}
    (run : addOrDelRoute r2 ip masklen nhop ifindex add = (r2', actions)) : Guarded actions := by
  cases run
  intro cur
  rw [waits_broadcast]
  refine ⟨fun t => ?_, trivial⟩
  change (Control.addOrDelRoute r2 ip masklen nhop ifindex add).1.ipv4.which ≠ r2.ipv4.which
  rw [addOrDelRoute_which]
  cases r2.ipv4.which <;> simp [V4Table.other]

/-- No call waits for a table that it has not replaced. -/
theorem Called.guarded [IpLookupTable T] {r2 r2' : Ctx T} {sections : List (List (Action n T))}
    (called : Called r2 r2' sections) : Guarded sections.flatten := by
  have nil : Guarded ([] : List (Action n T)) := fun _ => trivial
  have all (msg : Msg T) : Guarded (broadcast msg : List (Action n T)) := guarded_sends _ _
  cases called with
  | addIf owner =>
    refine Guarded.append ?_ nil
    exact (((all _).append (guarded_sends _ _)).append (guarded_sends [owner] _)).append ((all _).append (all _))
  | addIp => exact (all _).append ((addOrDelRoute_guarded rfl).append nil)
  | changeIp _ _ run =>
    exact (all _).append (((addOrDelRoute_guarded run).append (addOrDelRoute_guarded rfl)).append nil)
  | addClass => exact (all _).append nil
  | route => exact (addOrDelRoute_guarded rfl).append nil

end Tables

section Uses

variable {v v' : Graph (Node T) Packet} {table : V4Table} {msg : Msg T}

/-- The `IPv4Fwd` of a graph has this table. -/
def Uses (v : Graph (Node T) Packet) (table : V4Table) : Prop :=
  ∃ node routes, v.client Client.ipv4Fwd.name = some (.ipv4Fwd node routes) ∧ node.table = table

theorem Uses.apply (uses : Uses v table) (coherent : Coherent v) (applied : msg.apply v = some v') :
    Uses v' (inUse table [msg]) := by
  obtain ⟨node, routes, found, rfl⟩ := uses
  have kept (known : msg.recipients ≠ []) (other : Client.ipv4Fwd ∉ msg.recipients) : Uses v' node.table := by
    obtain ⟨_, _, others⟩ := coherent.apply_known applied known
    have apart : ∀ r ∈ msg.recipients, Client.ipv4Fwd.name ≠ r.name := fun r member clash =>
      other (Client.name_injective clash ▸ member)
    exact ⟨node, routes, (others _ apart).trans found, rfl⟩
  cases msg with
  | gnodeAdd new init =>
    unfold Msg.apply at applied
    dsimp only at applied
    split at applied
    · rename_i fits
      cases Option.some.inj applied
      refine ⟨node, routes, ?_, rfl⟩
      rw [Graph.client_finalize, coherent.indexed.client_add new fits.2.1, found]
      split <;> rfl
    · cases applied
  | epollAdd fd thread =>
    cases Option.some.inj applied
    exact ⟨node, routes, found, rfl⟩
  | ipv4TableAdd which routes' =>
    obtain ⟨_, taken, _⟩ := coherent.apply_known applied (List.cons_ne_nil _ _)
    obtain ⟨c, d, before, accepted, after⟩ := taken .ipv4Fwd (List.mem_cons_self ..)
    cases Option.some.inj (found.symm.trans before)
    cases Option.some.inj accepted
    exact ⟨_, _, after, rfl⟩
  | modifyInterface => exact kept (List.cons_ne_nil _ _) (by simp [Msg.recipients])
  | ethMacAdd => exact kept (List.cons_ne_nil _ _) (by simp [Msg.recipients])
  | classAdd => exact kept (List.cons_ne_nil _ _) (by simp [Msg.recipients])

theorem Uses.own {f : Forwarder T σ} {node : IPv4Fwd} {routes : IPv4Table T} (uses : Uses f.shared table)
    (found : f.graph.client Names.l3Ipv4Fwd = some (.ipv4Fwd node routes)) : node.table = table := by
  obtain ⟨node', routes', cloned, rfl⟩ := uses
  rw [Forwarder.client_shared] at cloned
  change f.graph.client Client.ipv4Fwd.name = _ at found
  rw [found] at cloned
  cases Option.some.inj cloned
  rfl

end Uses

section Ready

/-- Whatever table the control threads come to wait for, the threads let go of it
by then. -/
def Ready (fleet : Fleet n T σ) : Prop :=
  ∃ base : Fin n → V4Table, (∀ t, Uses (fleet.thread t).shared (base t)) ∧
    Waits (fun t => inUse (base t) (fleet.channel t)) (fleet.locked ++ fleet.later.flatten)

variable [IpLookupTable T] [PacketPool σ] {fleet fleet' : Fleet n T σ} {goal goal' : Graph (Node T) Packet}

omit [PacketPool σ] in
theorem uses_start (pool : Fin n → σ) (t : Fin n) :
    Uses ((start pool : Fleet n T σ).thread t).shared .table1 := by
  refine ⟨⟨.table1, 0, 0⟩, (Ctx.new n : Ctx T).ipv4.deref .table1, ?_, rfl⟩
  change (launch (Ctx.new n) (pool t) t).shared.client _ = _
  rw [launch_shared, Graph.client_clone, (createNodes_clients _).2]
  rfl

omit [PacketPool σ] in
theorem Ready.start (pool : Fin n → σ) : Ready (Fleet.start pool : Fleet n T σ) :=
  ⟨fun _ => .table1, uses_start pool, trivial⟩

omit [IpLookupTable T] [PacketPool σ] in
theorem inUse_clone (table : V4Table) (msg : Msg T) : inUse table [msg.clone] = inUse table [msg] := by
  cases msg <;> rfl

omit [IpLookupTable T] [PacketPool σ] in
theorem uses_receive {base : Fin n → V4Table} {t : Fin n} {msg : Msg T} {rest : List (Msg T)} {f : Forwarder T σ}
    (inv : Inv fleet goal) (uses : ∀ u, Uses (fleet.thread u).shared (base u)) (head : fleet.channel t = msg :: rest)
    (run : (fleet.thread t).receive msg = .ok f) (u : Fin n) :
    Uses (Function.update fleet.thread t f u).shared (Function.update base t (inUse (base t) [msg]) u) := by
  obtain ⟨v, applied, taken⟩ := inv.receive head
  obtain ⟨rfl, _⟩ := taken.ok run
  by_cases same : u = t
  · subst same
    simp only [Function.update_self]
    rw [← inUse_clone]
    exact (uses u).apply (inv.coherent u) applied
  · simp only [Function.update_of_ne same]
    exact uses u

omit [IpLookupTable T] [PacketPool σ] in
theorem Ready.turn (ready : Ready fleet) (inv : Inv fleet goal) (turn : Turn fleet fleet') : Ready fleet' := by
  obtain ⟨base, uses, waits⟩ := ready
  cases turn with
  | lock free next =>
    rw [free, next] at waits
    exact ⟨base, uses, waits⟩
  | report free head =>
    rw [free] at waits
    exact ⟨base, uses, (waits_broadcast _).mpr waits⟩
  | @send t msg locked head =>
    rw [head] at waits
    exact ⟨base, uses, inUse_send base fleet.channel t msg ▸ waits⟩
  | await head released =>
    rw [head] at waits
    exact ⟨base, uses, waits.2⟩
  | @receive t msg rest f head run =>
    exact ⟨_, uses_receive inv uses head run, inUse_receive base head ▸ waits⟩

/-- A frame leaves the thread with its table. -/
theorem uses_frame {base : Fin n → V4Table} {t : Fin n} {i : Nat} {path path' : Path T σ} {frame : List UInt8}
    (inv : Inv fleet goal) (uses : ∀ u, Uses (fleet.thread u).shared (base u))
    (found : (fleet.thread t).path i = some path) (run : path.receive frame = .ok path') (u : Fin n) :
    Uses (Function.update fleet.thread t ((fleet.thread t).put i path') u).shared (base u) := by
  have sound := inv.sound t
  obtain ⟨node, _, _, atDecap, _, _⟩ := Forwarder.path_some found
  have sender : path.decap.sender = ⟨true, []⟩ := sound.nodes _ _ atDecap
  obtain ⟨news, learns⟩ := Path.receive_learns (by rw [sender]) run
  obtain ⟨shared, _⟩ := Forwarder.put_shared sound found learns
  by_cases same : u = t
  · subst same
    rw [Function.update_self, shared]
    exact uses u
  · rw [Function.update_of_ne same]
    exact uses u

theorem Ready.step (ready : Ready fleet) (inv : Inv fleet goal) (step : Step fleet fleet') : Ready fleet' := by
  cases step with
  | @call c r2 locked later free idle run =>
    obtain ⟨base, uses, _⟩ := ready
    refine ⟨base, uses, ?_⟩
    rcases handle_cases (n := n) inv.tidy c with ⟨_, _, _, refused⟩ | ⟨_, sections, done, called⟩
    · rw [refused] at run
      cases run
    · cases (Except.ok.inj (done.symm.trans run) : (_, Except.ok sections) = _)
      exact called.guarded _
  | refused free idle run => exact ready
  | frame owns found run =>
    obtain ⟨base, uses, waits⟩ := ready
    exact ⟨base, uses_frame inv uses found run, waits⟩
  | turn turn => exact ready.turn inv turn

end Ready

section Work

/-- What is left to do. A report takes a message to every thread. -/
def work (fleet : Fleet n T σ) : Nat :=
  ∑ t, (fleet.channel t).length + 2 * (fleet.locked ++ fleet.later.flatten).length + fleet.later.length +
    (2 * n + 1) * fleet.reports.length

def Quiet (fleet : Fleet n T σ) : Prop :=
  fleet.locked = [] ∧ fleet.later = [] ∧ fleet.reports = [] ∧ ∀ t, fleet.channel t = []

theorem Quiet.inbox {fleet : Fleet n T σ} (quiet : Quiet fleet) (t : Fin n) : fleet.inbox t = [] := by
  rw [Fleet.inbox, quiet.1, quiet.2.1, quiet.2.2.2 t]
  rfl

variable {fleet fleet' : Fleet n T σ} {goal : Graph (Node T) Packet}

/-- The length of the channels when one of them changes. -/
theorem sum_update (channel : Fin n → List (Msg T)) (t : Fin n) (msgs : List (Msg T)) :
    ∑ u, (Function.update channel t msgs u).length + (channel t).length =
      ∑ u, (channel u).length + msgs.length := by
  have split (f : Fin n → Nat) := Finset.add_sum_erase Finset.univ f (Finset.mem_univ t)
  have rest : ∑ u ∈ Finset.univ.erase t, (Function.update channel t msgs u).length =
      ∑ u ∈ Finset.univ.erase t, (channel u).length :=
    Finset.sum_congr rfl fun u other => by rw [Function.update_of_ne (Finset.ne_of_mem_erase other)]
  have after := split fun u => (Function.update channel t msgs u).length
  have before := split fun u => (channel u).length
  simp only [Function.update_self] at after
  rw [← after, ← before, rest]
  omega

/-- What the threads do by themselves sends nothing but what was to be sent and
what was reported. -/
theorem Turn.inbox_subset (turn : Turn fleet fleet') {t : Fin n} {msg : Msg T} (member : msg ∈ fleet'.inbox t) :
    msg ∈ fleet.inbox t ∨ ∃ m, msg = .ethMacAdd m := by
  cases turn with
  | lock free next => exact Or.inl (Fleet.inbox_lock free next t ▸ member)
  | @report report reports free head =>
    change msg ∈ fleet.channel t ++ sentTo t (broadcast (.ethMacAdd report) ++ fleet.later.flatten) at member
    rw [sentTo_append, sentTo_broadcast, List.mem_append, List.mem_append] at member
    have before : fleet.inbox t = fleet.channel t ++ sentTo t fleet.later.flatten := by
      rw [Fleet.inbox, free, List.nil_append]
    rw [before, List.mem_append]
    rcases member with old | mac | later
    · exact Or.inl (Or.inl old)
    · exact Or.inr ⟨report, List.mem_singleton.mp mac⟩
    · exact Or.inl (Or.inr later)
  | send head => exact Or.inl (Fleet.inbox_send head t ▸ member)
  | await head released => exact Or.inl (Fleet.inbox_await head t ▸ member)
  | @receive u msg' rest f head run =>
    obtain ⟨inbox, after⟩ := Fleet.inbox_receive head f
    rw [after] at member
    by_cases same : t = u
    · subst same
      rw [Function.update_self] at member
      exact Or.inl (inbox ▸ List.mem_cons_of_mem _ member)
    · rw [Function.update_of_ne same] at member
      exact Or.inl member

theorem Turn.less (turn : Turn fleet fleet') : work fleet' < work fleet := by
  cases turn with
  | lock free next =>
    unfold work
    simp only [free, next, List.flatten_cons, List.nil_append, List.length_append, List.length_cons]
    omega
  | report free head =>
    unfold work
    simp only [free, head, broadcast, List.nil_append, List.length_append, List.length_cons, List.length_map,
      List.length_finRange, Nat.mul_add, Nat.mul_one]
    omega
  | @send t msg locked head =>
    have sum := sum_update fleet.channel t (fleet.channel t ++ [msg])
    rw [List.length_append, List.length_singleton] at sum
    unfold work
    simp only [head, List.cons_append, List.length_cons]
    omega
  | await head released =>
    unfold work
    simp only [head, List.cons_append, List.length_cons]
    omega
  | @receive t msg rest f head run =>
    have sum := sum_update fleet.channel t rest
    rw [head, List.length_cons] at sum
    unfold work
    dsimp only
    omega

/-- Once the threads have taken what was sent, nobody has the table that is waited for. -/
theorem Ready.released (ready : Ready fleet) {table : V4Table} {actions : List (Action n T)}
    (waiting : fleet.locked = .await table :: actions) (empty : ∀ t, fleet.channel t = []) :
    fleet.Released table := by
  obtain ⟨base, uses, waits⟩ := ready
  rw [waiting] at waits
  refine fun t => ⟨fun routes member => ?_, fun node routes found => ?_⟩
  · rw [empty t] at member
    exact absurd member List.not_mem_nil
  · have other : inUse (base t) (fleet.channel t) ≠ table := waits.1 t
    rw [empty t] at other
    rw [(uses t).own found]
    exact other

variable [IpLookupTable T]

omit [IpLookupTable T] in
/-- While there is something to do, something can be done. -/
theorem progress [IpLookupTable T] (inv : Inv fleet goal) (ready : Ready fleet)
    (mild : ∀ t, ∀ msg ∈ fleet.inbox t, msg.Mild) : Quiet fleet ∨ ∃ fleet', Turn fleet fleet' := by
  by_cases busy : ∃ t, fleet.channel t ≠ []
  · obtain ⟨t, some⟩ := busy
    obtain ⟨msg, rest, head⟩ := List.exists_cons_of_ne_nil some
    obtain ⟨v, applied, taken⟩ := inv.receive head
    have calm := Forwarder.receive_mild (inv.sound t) applied
      (mild t msg (by rw [Fleet.inbox, head]; exact List.mem_cons_self ..))
    obtain ⟨f, run, _⟩ := calm.returns taken
    exact Or.inr ⟨_, .receive head run⟩
  · have empty (t : Fin n) : fleet.channel t = [] := by
      by_contra some
      exact busy ⟨t, some⟩
    cases locked : fleet.locked with
    | cons action actions =>
      cases action with
      | send t msg => exact Or.inr ⟨_, .send locked⟩
      | await table => exact Or.inr ⟨_, .await locked (ready.released locked empty)⟩
    | nil =>
      cases later : fleet.later with
      | cons actions sections => exact Or.inr ⟨_, .lock locked later⟩
      | nil =>
        cases reports : fleet.reports with
        | cons report reports' => exact Or.inr ⟨_, .report locked reports⟩
        | nil => exact Or.inl ⟨locked, later, reports, empty⟩

end Work

end R2.Fleet
