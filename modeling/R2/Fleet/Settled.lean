import R2.Control.Connected
import R2.Fleet.Drivers
import R2.Path.Refines

namespace R2.Fleet

open Control

variable {n : Nat} {T σ : Type}

/-- All that holds of a fleet whose threads head for `goal`. -/
structure Holds [IpLookupTable T] (fleet : Fleet n T σ) (goal : Graph (Node T) Packet) : Prop where
  inv : Inv fleet goal
  spread : Spread fleet
  ready : Ready fleet
  watched : Watched fleet

section Reached

variable [IpLookupTable T] {fleet fleet' : Fleet n T σ} {goal : Graph (Node T) Packet}

theorem Holds.turn (holds : Holds fleet goal) (turn : Turn fleet fleet') : Holds fleet' goal :=
  ⟨holds.inv.turn turn, holds.spread.turn holds.inv turn, holds.ready.turn holds.inv turn,
    holds.watched.turn holds.inv turn⟩

theorem Reached.holds [PacketPool σ] (reached : Reached fleet) : ∃ goal, Holds fleet goal := by
  induction reached with
  | start pool some => exact ⟨_, Inv.start pool some, Spread.start pool, Ready.start pool, Watched.start pool⟩
  | step _ step ih =>
    obtain ⟨goal, inv, spread, ready, watched⟩ := ih
    obtain ⟨goal', inv'⟩ := inv.step step
    exact ⟨goal', inv', spread.step inv step inv', ready.step inv step, watched.step inv step⟩

end Reached

section Receives

variable {f : Forwarder T σ} {t : Nat} {goal : Graph (Node T) Packet}

/-- A thread that takes what is under way to it shows what the others will. -/
theorem Forwarder.receives {msgs : List (Msg T)} (sound : f.Sound t) (own : ∀ msg ∈ msgs, msg.Sound t)
    (mild : ∀ msg ∈ msgs, msg.Mild)
    (heads : (msgs.map Msg.clone).foldlM (fun v msg => msg.apply v) f.shared = some goal) :
    ∃ f', msgs.foldlM Forwarder.receive f = .ok f' ∧ f'.shared = goal := by
  induction msgs generalizing f with
  | nil => exact ⟨f, rfl, Option.some.inj heads⟩
  | cons msg rest ih =>
    rw [List.map_cons, List.foldlM_cons] at heads
    obtain ⟨v, applied, heads⟩ := Option.bind_eq_some_iff.mp heads
    have taken := Forwarder.receive_apply sound (own msg (List.mem_cons_self ..)) applied
    have calm := Forwarder.receive_mild sound applied (mild msg (List.mem_cons_self ..))
    obtain ⟨f₁, run, _⟩ := calm.returns taken
    obtain ⟨rfl, sound₁⟩ := taken.ok run
    obtain ⟨f', runs, shared⟩ := ih sound₁ (fun msg member => own msg (List.mem_cons_of_mem _ member))
      (fun msg member => mild msg (List.mem_cons_of_mem _ member)) heads
    exact ⟨f', by rw [List.foldlM_cons, run]; exact runs, shared⟩

end Receives

section Turns

theorem Forwarder.receive_packets (f : Forwarder T σ) (msg : Msg T) :
    Partially (f.receive msg) fun f' => f'.pool = f.pool ∧ f'.tx = f.tx := by
  have tell (f : Forwarder T σ) (name : String) (msg : Msg T) :
      Partially (f.tell name msg) fun f' => f'.pool = f.pool ∧ f'.tx = f.tx :=
    (partially_true _).bind fun _ _ => ⟨rfl, rfl⟩
  by_cases targets : msg.targets = []
  · cases msg with
    | gnodeAdd => exact ⟨rfl, rfl⟩
    | epollAdd fd thread =>
      have either (f' : Forwarder T σ) (same : f' = f ∨ f' = { f with fds := f.fds ++ fd.toList }) :
          f'.pool = f.pool ∧ f'.tx = f.tx := by
        rcases same with rfl | rfl <;> exact ⟨rfl, rfl⟩
      refine either _ ?_
      split
      · exact Or.inr rfl
      · exact Or.inl rfl
    | _ => cases targets
  · rw [Forwarder.receive_targets targets]
    exact Ensures.foldlM ⟨rfl, rfl⟩ fun f' name _ same => (tell f' name msg).mono fun _ more =>
      ⟨more.1.trans same.1, more.2.trans same.2⟩

/-- What the threads do by themselves leaves the control threads' knowledge and
the packets alone. -/
theorem Turn.keeps {fleet fleet' : Fleet n T σ} (turn : Turn fleet fleet') : fleet'.r2 = fleet.r2 ∧
    ∀ t, (fleet'.thread t).pool = (fleet.thread t).pool ∧ (fleet'.thread t).tx = (fleet.thread t).tx := by
  cases turn with
  | @receive u msg rest f head run =>
    refine ⟨rfl, fun t => ?_⟩
    by_cases same : t = u
    · subst same
      simp only [Function.update_self]
      exact ((fleet.thread t).receive_packets msg).ok run
    · simp only [Function.update_of_ne same, and_self]
  | _ => exact ⟨rfl, fun _ => ⟨rfl, rfl⟩⟩

end Turns

section Runs

variable [IpLookupTable T] [PacketPool σ] {fleet fleet' : Fleet n T σ}

theorem Reached.turns {k : Nat} (reached : Reached fleet) (turns : Steps Turn k fleet fleet') : Reached fleet' :=
  turns.keeps (fun _ _ reached turn => reached.step (.turn turn)) reached

/-- A control thread can send all that comes next. -/
theorem Reached.sends {actions rest : List (Action n T)} (reached : Reached fleet)
    (locked : fleet.locked = actions ++ rest) (sends : ∀ action ∈ actions, ∃ t msg, action = .send t msg) :
    Reached { fleet with locked := rest, channel := fun t => fleet.channel t ++ sentTo t actions } := by
  induction actions generalizing fleet with
  | nil =>
    have same : (fun t => fleet.channel t ++ sentTo t ([] : List (Action n T))) = fleet.channel :=
      funext fun t => List.append_nil _
    have none : fleet.locked = rest := locked
    rw [same, ← none]
    exact reached
  | cons action actions ih =>
    obtain ⟨⟨u, msg, rfl⟩, more⟩ := List.forall_mem_cons.mp sends
    have after := ih (reached.step (.turn (.send locked))) rfl more
    refine (congrArg (fun channel => Reached { fleet with locked := rest, channel }) (funext fun t => ?_)).mp after
    dsimp only
    rw [sentTo]
    by_cases here : u = t
    · subst here
      rw [if_pos rfl, Function.update_self, List.append_assoc, List.singleton_append]
    · rw [if_neg here, Function.update_of_ne (Ne.symm here)]

omit [IpLookupTable T] in
theorem broadcast_sends (msg : Msg T) :
    ∀ action ∈ (broadcast msg : List (Action n T)), ∃ t msg', action = .send t msg' :=
  List.forall_mem_map.mpr fun t _ => ⟨t, _, rfl⟩

/-- A thread can take all that has been sent to it. -/
theorem Reached.takes (reached : Reached fleet) {t : Fin n} {msgs : List (Msg T)} (channel : fleet.channel t = msgs)
    (mild : ∀ msg ∈ msgs, msg.Mild) : ∃ f, msgs.foldlM Forwarder.receive (fleet.thread t) = .ok f ∧ Reached
      { fleet with thread := Function.update fleet.thread t f, channel := Function.update fleet.channel t [] } := by
  induction msgs generalizing fleet with
  | nil =>
    refine ⟨_, rfl, ?_⟩
    rw [Function.update_eq_self, ← channel, Function.update_eq_self]
    exact reached
  | cons msg rest ih =>
    obtain ⟨mild, later⟩ := List.forall_mem_cons.mp mild
    obtain ⟨goal, holds⟩ := reached.holds
    obtain ⟨v, applied, taken⟩ := holds.inv.receive channel
    obtain ⟨f, run, _⟩ := (Forwarder.receive_mild (holds.inv.sound t) applied mild).returns taken
    obtain ⟨f', runs, after⟩ := ih (reached.step (.turn (.receive channel run))) (Function.update_self ..) later
    simp only [Function.update_idem, Function.update_self] at runs after
    exact ⟨f', by rw [List.foldlM_cons, run]; exact runs, after⟩

end Runs

section Example

def openPort : Call := .addIf (.ok 7) "eth0" 1 "00:00:00:00:00:01"

def eth0 : Interface := newInterface "eth0" 1 [0, 0, 0, 0, 0, 1] maxHeadroom

def openedCtx : Ctx RouteList :=
  { (Ctx.new 2 : Ctx RouteList) with ifd := { (Ctx.new 2 : Ctx RouteList).ifd with lastThread := 1 }.add "eth0" 1 eth0 }

def openPortSends : List (Action 2 RouteList) :=
  broadcast (.epollAdd (some 7) 0) ++
    [.send ⟨1, Nat.one_lt_two⟩ (.gnodeAdd (.ifNode (IfNode.new (some 0) eth0 7).clone) (cloneInit (ifNodeInit 1))),
      .send ⟨0, Nat.two_pos⟩ (.gnodeAdd (.ifNode (IfNode.new (some 0) eth0 7)) (ifNodeInit 1))] ++
    createEthNodes eth0

theorem handle_openPort : handle (Ctx.new 2) openPort = .ok (openedCtx, .ok [openPortSends]) := rfl

def addTen : Call := .addRoute "10.0.0.0/8" "10.0.0.1" "eth0"

def tenRouted : Ctx RouteList × List (Action 2 RouteList) :=
  addOrDelRoute openedCtx ⟨10, 0, 0, 0⟩ 8 ⟨10, 0, 0, 1⟩ 1 true

theorem handle_addTen : handle openedCtx addTen = .ok (tenRouted.1, .ok [tenRouted.2]) := by
  have mask : ipMaskDecode "10.0.0.0/8" = some (⟨10, 0, 0, 0⟩, 8) := by decide +kernel
  have nhop : ipv4FromStr "10.0.0.1".toList = some ⟨10, 0, 0, 1⟩ := by decide +kernel
  have listed : openedCtx.ifd.interfaces "eth0" = some eth0 :=
    show Function.update (fun _ => none) "eth0" (some eth0) "eth0" = _ from Function.update_self ..
  simp only [addTen, handle, handleRoute, mask, nhop, listed]
  rfl

/-- Two threads that are being told of an interface. -/
theorem port_opened : ∃ fleet : Fleet 2 RouteList PktsHeap, Reached fleet ∧ (∀ t, ∀ msg ∈ fleet.inbox t, msg.Mild) ∧
    fleet.r2 = openedCtx ∧ fleet.locked = [] ∧ fleet.later = [] ∧ (∀ t, (fleet.channel t).length = 4) ∧
    ∀ t, (fleet.thread t).pool = deepHeap ∧ (fleet.thread t).tx = [] := by
  have started : Reached (start fun _ => deepHeap : Fleet 2 RouteList PktsHeap) := .start _ Nat.two_pos
  have all : ∀ action ∈ openPortSends, ∃ t msg, action = .send t msg := by
    simp only [openPortSends, createEthNodes, List.forall_mem_append, List.forall_mem_cons]
    exact ⟨⟨broadcast_sends _, ⟨_, _, rfl⟩, ⟨_, _, rfl⟩, List.forall_mem_nil _⟩, broadcast_sends _, broadcast_sends _⟩
  have told := (started.step (.call rfl rfl handle_openPort)).sends (List.append_nil _).symm all
  refine ⟨_, told, Fin.forall_fin_two.mpr ⟨?_, ?_⟩, rfl, rfl, rfl, Fin.forall_fin_two.mpr ⟨rfl, rfl⟩,
    fun t => ⟨rfl, rfl⟩⟩
  · exact List.forall_mem_cons.mpr ⟨trivial, List.forall_mem_cons.mpr ⟨trivial, List.forall_mem_cons.mpr ⟨trivial,
      List.forall_mem_singleton.mpr trivial⟩⟩⟩
  · exact List.forall_mem_cons.mpr ⟨trivial, List.forall_mem_cons.mpr ⟨trivial, List.forall_mem_cons.mpr ⟨trivial,
      List.forall_mem_singleton.mpr trivial⟩⟩⟩

end Example

section Results

variable {fleet fleet' : Fleet n T σ} {goal : Graph (Node T) Packet}

/-- Every interface has its owner once nothing is under way. -/
theorem Inv.owned (inv : Inv fleet goal) (empty : ∀ t, fleet.inbox t = []) {i : Nat}
    (known : (fleet.r2.ifd.idx2name i).isSome) : ∃ t, (fleet.thread t).Owns i := by
  obtain ⟨name, named⟩ := Option.isSome_iff_exists.mp known
  obtain ⟨owner, intf, addr, masklen, inside, _, index, port⟩ := inv.matched.known i name named
  refine ⟨⟨owner, inside⟩, (Forwarder.owns_iff (inv.sound _)).mpr
    ⟨Fleet.pinned owner (setV4addr intf addr masklen), ?_, rfl⟩⟩
  have shared : (fleet.thread ⟨owner, inside⟩).shared = goal := inv.heads.settled (empty _)
  rw [shared, ← index]
  exact port.rxTx

/-- A thread has the nodes that the next message is for. -/
theorem Inv.targets [IpLookupTable T] (inv : Inv fleet goal) {t : Fin n} {msg : Msg T} {rest : List (Msg T)}
    (head : fleet.channel t = msg :: rest) (name : String) (member : name ∈ msg.targets) :
    ((fleet.thread t).graph.client name).isSome := by
  obtain ⟨v, applied, _⟩ := inv.receive head
  rw [Msg.clone_of_targets (List.ne_nil_of_mem member)] at applied
  rw [msg.targets_eq] at member
  obtain ⟨r, recipient, rfl⟩ := List.mem_map.mp member
  obtain ⟨_, taken, _⟩ := (inv.coherent t).apply_known applied (List.ne_nil_of_mem recipient)
  obtain ⟨_, _, found, _⟩ := taken r recipient
  rw [Forwarder.client_shared] at found
  obtain ⟨_, here, _⟩ := Option.map_eq_some_iff.mp found
  rw [here]
  rfl

theorem Turn.mild (turn : Turn fleet fleet') (mild : ∀ t, ∀ msg ∈ fleet.inbox t, msg.Mild) :
    ∀ t, ∀ msg ∈ fleet'.inbox t, msg.Mild := by
  intro t msg member
  rcases turn.inbox_subset member with old | ⟨m, rfl⟩
  · exact mild t msg old
  · trivial

/-- However the threads take turns, they come to rest in what they head for. -/
theorem Holds.settles [IpLookupTable T] (holds : Holds fleet goal) (mild : ∀ t, ∀ msg ∈ fleet.inbox t, msg.Mild) :
    Settles Turn (work fleet) (fun fleet' => Holds fleet' goal ∧ Quiet fleet') fleet := by
  refine Settles.of_work (P := fun fleet' => Holds fleet' goal ∧ ∀ t, ∀ msg ∈ fleet'.inbox t, msg.Mild)
    (fun _ _ ⟨holds, mild⟩ turn => ⟨holds.turn turn, turn.mild mild⟩) (fun _ _ turn => turn.less)
    (fun _ ⟨holds, mild⟩ => ?_) ⟨holds, mild⟩
  exact (progress holds.inv holds.ready mild).imp_left fun quiet => ⟨holds, quiet⟩

/-- What one thread knows at rest its owner has heard, and so does every other. -/
theorem Spread.settled (spread : Spread fleet) (quiet : Quiet fleet) {i : Nat} (t u : Fin n) {r s : Client}
    (member : r ∈ [Client.ethDecap i, .ethEncap i]) (member' : s ∈ [Client.ethDecap i, .ethEncap i]) :
    (fleet.thread t).macs r = (fleet.thread u).macs s := by
  have all (t u : Fin n) {r s : Client} (member : r ∈ [Client.ethDecap i, .ethEncap i])
      (member' : s ∈ [Client.ethDecap i, .ethEncap i]) {ip : Ipv4Addr} {raw : EthMacRaw}
      (known : (fleet.thread t).macs r ip = some raw) : (fleet.thread u).macs s ip = some raw := by
    obtain ⟨_, w, heard⟩ := spread.origin ⟨i, ip, raw⟩ (.known t r member known)
    rcases spread.spread w _ heard with reported | everywhere
    · rw [quiet.2.2.1] at reported
      exact absurd reported List.not_mem_nil
    · rcases everywhere u with sent | knows
      · rw [quiet.inbox u] at sent
        exact absurd sent List.not_mem_nil
      · exact knows s member'
  funext ip
  cases known : (fleet.thread t).macs r ip with
  | some raw => exact (all t u member member' known).symm
  | none =>
    cases known' : (fleet.thread u).macs s ip with
    | none => rfl
    | some raw =>
      rw [all u t member' member known'] at known
      cases known

variable [IpLookupTable T] [PacketPool σ]

/-- The threads can come to rest; they forget nothing, and the packets stay where they are. -/
theorem Reached.rest (reached : Reached fleet) (mild : ∀ t, ∀ msg ∈ fleet.inbox t, msg.Mild) :
    ∃ fleet', Reached fleet' ∧ Quiet fleet' ∧ fleet'.r2 = fleet.r2 ∧
      (∀ t, (fleet'.thread t).pool = (fleet.thread t).pool ∧ (fleet'.thread t).tx = (fleet.thread t).tx) ∧
      ∀ t r ip raw, (fleet.thread t).macs r ip = some raw → (fleet'.thread t).macs r ip = some raw := by
  obtain ⟨goal, holds⟩ := reached.holds
  obtain ⟨k, fleet', turns, _, quiet⟩ := (holds.settles mild).reaches
  have kept := turns.keeps (P := fun last => Holds last goal ∧ last.r2 = fleet.r2 ∧
      (∀ t, (last.thread t).pool = (fleet.thread t).pool ∧ (last.thread t).tx = (fleet.thread t).tx) ∧
      ∀ t r ip raw, (fleet.thread t).macs r ip = some raw → (last.thread t).macs r ip = some raw)
    (fun _ _ ⟨holds, r2, packets, knows⟩ turn => ⟨holds.turn turn, turn.keeps.1.trans r2,
      fun t => ⟨(turn.keeps.2 t).1.trans (packets t).1, (turn.keeps.2 t).2.trans (packets t).2⟩,
      fun t r ip raw known => holds.inv.turn_keeps turn (knows t r ip raw known)⟩)
    ⟨holds, rfl, fun _ => ⟨rfl, rfl⟩, fun _ _ _ _ => id⟩
  exact ⟨fleet', reached.turns turns, quiet, kept.2⟩

/-- Two threads that have been told of an interface. -/
theorem port_open : ∃ fleet : Fleet 2 RouteList PktsHeap, Reached fleet ∧ Quiet fleet ∧ fleet.r2 = openedCtx ∧
    ∀ t, (fleet.thread t).pool = deepHeap ∧ (fleet.thread t).tx = [] := by
  obtain ⟨fleet, reached, mild, r2, _, _, _, packets⟩ := port_opened
  obtain ⟨fleet', reached', quiet, kept, same, _⟩ := reached.rest mild
  exact ⟨fleet', reached', quiet, kept.trans r2,
    fun t => ⟨(same t).1.trans (packets t).1, (same t).2.trans (packets t).2⟩⟩

/-- In every reachable state there is one configuration, that of the control threads, which every thread
comes to share once it has taken what is under way to it, in whatever order the others go on. That
holds of a thread whose messages are all `Mild`: no `add_class` among them makes it panic. -/
theorem threads_follow_control (reached : Reached fleet) : ∃ goal, Matches n fleet.r2 goal ∧
    ∀ t, (∀ msg ∈ fleet.inbox t, msg.Mild) →
      ∃ f, (fleet.inbox t).foldlM Forwarder.receive (fleet.thread t) = .ok f ∧ f.shared = goal := by
  obtain ⟨goal, inv, _⟩ := reached.holds
  exact ⟨goal, inv.matched, fun t mild => Forwarder.receives (inv.sound t) (inv.inbox t) mild (inv.heads t)⟩

theorem threads_follow_control_two : ∃ fleet : Fleet 2 RouteList PktsHeap, ∃ f f',
    (fleet.inbox 0).foldlM Forwarder.receive (fleet.thread 0) = .ok f ∧
    (fleet.inbox 1).foldlM Forwarder.receive (fleet.thread 1) = .ok f' ∧ f.shared = f'.shared ∧
    (f.shared.client (Names.rxTx 1)).isSome := by
  obtain ⟨fleet, reached, mild, r2, _⟩ := port_opened
  obtain ⟨goal, matched, heads⟩ := threads_follow_control reached
  obtain ⟨f, run, shared⟩ := heads 0 (mild 0)
  obtain ⟨f', run', shared'⟩ := heads 1 (mild 1)
  obtain ⟨owner, intf, index, port⟩ := matched.hasPort (i := 1) (by rw [r2]; rfl)
  refine ⟨fleet, f, f', run, run', shared.trans shared'.symm, ?_⟩
  rw [shared]
  have rxTx := port.rxTx
  rw [index] at rxTx
  exact Option.isSome_of_eq_some rxTx

/-- From every reachable state in which the messages under way are `Mild`, so that none makes its thread
panic, the threads come to rest however they take turns. Then all of them share one configuration,
the one of the control threads. -/
theorem fleet_settles (reached : Reached fleet) (mild : ∀ t, ∀ msg ∈ fleet.inbox t, msg.Mild) :
    ∃ goal, Matches n fleet.r2 goal ∧
      Settles Turn (work fleet) (fun fleet' => Quiet fleet' ∧ ∀ t, (fleet'.thread t).shared = goal) fleet := by
  obtain ⟨goal, holds⟩ := reached.holds
  obtain ⟨bounded, stuck⟩ := holds.settles mild
  refine ⟨goal, holds.inv.matched, bounded, fun k fleet' steps last => ?_⟩
  obtain ⟨holds', quiet⟩ := stuck k fleet' steps last
  exact ⟨quiet, fun t => holds'.inv.heads.settled (quiet.inbox t)⟩

theorem fleet_settles_two : ∃ fleet fleet' : Fleet 2 RouteList PktsHeap, ∃ k ≤ work fleet,
    Steps Turn k fleet fleet' ∧ Quiet fleet' ∧ (fleet'.thread 0).shared = (fleet'.thread 1).shared := by
  obtain ⟨fleet, reached, mild, _⟩ := port_opened
  obtain ⟨goal, _, settles⟩ := fleet_settles reached mild
  obtain ⟨k, fleet', steps, quiet, shared⟩ := settles.reaches
  exact ⟨fleet, fleet', k, settles.bounded k fleet' steps, steps, quiet, (shared 0).trans (shared 1).symm⟩

/-- In every reachable state an interface has one owner, which alone has its socket and its scheduler,
and a thread with nothing under way to it watches exactly the sockets it has. Once nothing is under
way to anyone, every interface has its owner. -/
theorem interfaces_owned_once (reached : Reached fleet) :
    (∀ i t u, (fleet.thread t).Owns i → (fleet.thread u).Owns i → t = u) ∧
    (∀ t i node, (fleet.thread t).graph.client (Names.rxTx i) = some (.ifNode node) →
      (node.driver.isSome ↔ (fleet.thread t).Owns i) ∧ (¬(fleet.thread t).Owns i → node = node.clone)) ∧
    (∀ t, fleet.inbox t = [] → (fleet.thread t).fds = drivers (fleet.thread t).graph) ∧
    ((∀ t, fleet.inbox t = []) → ∀ i, (fleet.r2.ifd.idx2name i).isSome → ∃ t, (fleet.thread t).Owns i) := by
  obtain ⟨goal, inv, _, _, watched⟩ := reached.holds
  refine ⟨fun i t u => inv.owner_unique, fun t i node found => ?_, fun t empty => ?_, fun empty i known => ?_⟩
  · have sound : node.Sound t := (inv.sound t).nodes _ _ found
    have owns : (fleet.thread t).Owns i ↔ node.affinity = some t.val := by
      rw [← IfNode.ownerThread_iff sound, ← (inv.sound t).place]
      refine ⟨fun ⟨node', found', own⟩ => ?_, fun own => ⟨node, found, own⟩⟩
      cases Option.some.inj (found.symm.trans found')
      exact own
    rw [owns]
    refine ⟨⟨fun driven => ?_, sound.owner⟩, sound.other⟩
    by_contra elsewhere
    rw [sound.other elsewhere] at driven
    cases driven
  · have same := watched t
    rw [empty, List.filterMap_nil, List.filterMap_nil, List.append_nil, List.append_nil] at same
    exact same
  · exact inv.owned empty known

theorem interfaces_owned_once_two : ∃ fleet : Fleet 2 RouteList PktsHeap, ∃ t, (fleet.thread t).Owns 1 ∧
    (∀ u, (fleet.thread u).Owns 1 → u = t) ∧ (fleet.thread t).fds = drivers (fleet.thread t).graph := by
  obtain ⟨fleet, reached, quiet, r2, _⟩ := port_open
  obtain ⟨unique, _, watched, owned⟩ := interfaces_owned_once reached
  obtain ⟨t, owns⟩ := owned quiet.inbox 1 (by rw [r2]; rfl)
  exact ⟨fleet, t, owns, fun u owns' => unique 1 u t owns' owns, watched t (quiet.inbox t)⟩

end Results

end R2.Fleet
