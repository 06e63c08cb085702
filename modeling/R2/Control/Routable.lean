import Mathlib.Logic.Relation
import R2.Control.Wired
import R2.Route.Linear

namespace R2.Control

section Learn

variable {T : Type} {known known' : Nat → Prop}

/-- What a thread knows once it has taken a message. -/
def learn (known : Nat → Prop) : CtrlMsg T → Nat → Prop
  | .gnodeAdd node _ => fun i => known i ∨ node = .ethEncap i
  | _ => known

theorem learn_mono (more : ∀ i, known i → known' i) (msg : CtrlMsg T) (i : Nat) (here : learn known msg i) :
    learn known' msg i := by
  cases msg with
  | gnodeAdd node init => exact here.imp_left (more i)
  | epollAdd => exact more i here
  | ipv4TableAdd => exact more i here
  | modifyInterface => exact more i here

theorem learn_foldl_mono (msgs : List (CtrlMsg T)) (more : ∀ i, known i → known' i) (i : Nat)
    (here : msgs.foldl learn known i) : msgs.foldl learn known' i := by
  induction msgs generalizing known known' with
  | nil => exact more i here
  | cons msg rest ih => exact ih (learn_mono more msg) here

theorem le_learn (msg : CtrlMsg T) (i : Nat) (here : known i) : learn known msg i := by
  cases msg with
  | gnodeAdd node init => exact Or.inl here
  | epollAdd => exact here
  | ipv4TableAdd => exact here
  | modifyInterface => exact here

end Learn

/-- `treebitmap` finds only leaves that were put in. -/
class KeepsLeaves (T : Type) [IpLookupTable T] where
  stored : T → IPv4Leaf → Prop
  stored_new : ∀ leaf, ¬stored IpLookupTable.new leaf
  stored_insert : ∀ (t : T) (ip : Ipv4Addr) (len : Nat) (new leaf : IPv4Leaf),
    stored (IpLookupTable.insert t ip len new).2 leaf → leaf = new ∨ stored t leaf
  stored_remove : ∀ (t : T) (ip : Ipv4Addr) (len : Nat) (leaf : IPv4Leaf),
    stored (IpLookupTable.remove t ip len).2 leaf → stored t leaf
  longestMatch_stored : ∀ (t : T) (ip found : Ipv4Addr) (len : Nat) (leaf : IPv4Leaf),
    IpLookupTable.longestMatch t ip = some (found, len, leaf) → stored t leaf

variable {T : Type} [IpLookupTable T] [KeepsLeaves T]

/-- Every route of the table leads to a known interface that `EncapMux` has an edge for. -/
def Served (known : Nat → Prop) (table : IPv4Table T) : Prop :=
  ∀ leaf, KeepsLeaves.stored table.root leaf → ∃ nhop i, leaf = ⟨.adjacency nhop i⟩ ∧ i < maxInterfaces ∧ known i

section Served

variable {known known' : Nat → Prop} {table : IPv4Table T}

theorem Served.mono (served : Served known table) (more : ∀ i, known i → known' i) : Served known' table := by
  intro leaf stored
  obtain ⟨nhop, i, rfl, small, here⟩ := served leaf stored
  exact ⟨nhop, i, rfl, small, more i here⟩

theorem Served.new (known : Nat → Prop) : Served known (.new : IPv4Table T) :=
  fun leaf stored => absurd stored (KeepsLeaves.stored_new leaf)

theorem Served.run (served : Served known table) {op : RouteOp}
    (target : op.add = true → op.ifindex < maxInterfaces ∧ known op.ifindex) : Served known (op.run table) := by
  intro leaf stored
  unfold RouteOp.run at stored
  split at stored
  · rename_i add
    rcases KeepsLeaves.stored_insert _ _ _ _ _ stored with rfl | old
    · exact ⟨op.nhop, op.ifindex, rfl, target add⟩
    · exact served leaf old
  · exact served leaf (KeepsLeaves.stored_remove _ _ _ _ stored)

/-- What `IPv4Fwd` sends to `EncapMux` leads to such an interface. -/
theorem Served.dispatchOne (served : Served known table) {node node' : IPv4Fwd} {p p' : Packet}
    {pushed : List (IPv4Fwd.Next × Packet)} (run : node.dispatchOne table p = .ok (node', pushed))
    (sent : (.encapMux, p') ∈ pushed) : p'.outIfindex < maxInterfaces ∧ known p'.outIfindex := by
  obtain ⟨⟨iphdr, hdrlen⟩, _, run⟩ := Except.bind_ok_iff.mp run
  dsimp only at run
  split at run
  · cases run
    cases sent
  · obtain ⟨daddr, _, run⟩ := Except.bind_ok_iff.mp run
    split at run
    · rename_i found len leaf hit
      obtain ⟨nhop, i, rfl, small, here⟩ := served leaf (KeepsLeaves.longestMatch_stored _ _ _ _ _ hit)
      cases run
      have same : p'.outIfindex = i := by
        rw [(Prod.mk.inj (List.mem_singleton.mp sent)).2]
        split <;> rfl
      exact same ▸ ⟨small, here⟩
    · cases run
      cases sent

end Served

section Messages

def Fits (known : Nat → Prop) : CtrlMsg T → Prop
  | .gnodeAdd node init => init.name = node.name ∧ node ≠ .drop
  | .ipv4TableAdd table => Served known table
  | _ => True

/-- No table of these messages comes before the nodes that its routes lead to. -/
def Follows (known : Nat → Prop) : List (CtrlMsg T) → Prop
  | [] => True
  | msg :: rest => Fits known msg ∧ Follows (learn known msg) rest

variable {known known' : Nat → Prop}

theorem Fits.mono {msg : CtrlMsg T} (fits : Fits known msg) (more : ∀ i, known i → known' i) : Fits known' msg := by
  cases msg with
  | gnodeAdd node init => exact fits
  | epollAdd => exact fits
  | ipv4TableAdd table => exact Served.mono fits more
  | modifyInterface => exact fits

theorem Follows.mono {msgs : List (CtrlMsg T)} (follows : Follows known msgs) (more : ∀ i, known i → known' i) :
    Follows known' msgs := by
  induction msgs generalizing known known' with
  | nil => exact follows
  | cons msg rest ih => exact ⟨follows.1.mono more, ih follows.2 (learn_mono more msg)⟩

theorem Follows.append {msgs more : List (CtrlMsg T)} (follows : Follows known msgs)
    (next : Follows (msgs.foldl learn known) more) : Follows known (msgs ++ more) := by
  induction msgs generalizing known with
  | nil => exact next
  | cons msg rest ih => exact ⟨follows.1, ih follows.2 next⟩

/-- A thread that takes a message which fits is wired and knows what it says. -/
theorem receive_inv {f f' : ForwardThread T} {msg : CtrlMsg T} (wired : ∃ specs, Wired f.graph specs)
    (served : Served (Knows f.graph) f.table) (fits : Fits (Knows f.graph) msg) (run : f.receive msg = .ok f') :
    (∃ specs, Wired f'.graph specs) ∧ Served (Knows f'.graph) f'.table ∧
      ∀ i, learn (Knows f.graph) msg i → Knows f'.graph i := by
  obtain ⟨specs, wired⟩ := wired
  cases msg with
  | gnodeAdd node init =>
    cases run
    obtain ⟨wired', knows⟩ := wired.add fits.1 fits.2
    exact ⟨wired', served.mono fun i here => knows i (Or.inl here), knows⟩
  | epollAdd thread =>
    cases run
    exact ⟨⟨specs, wired⟩, served, fun _ here => here⟩
  | ipv4TableAdd table =>
    rw [wired.receive_table] at run
    cases run
    exact ⟨⟨specs, wired⟩, fits, fun _ here => here⟩
  | modifyInterface intf =>
    obtain ⟨_, _, run⟩ := Except.bind_ok_iff.mp run
    obtain ⟨_, _, run⟩ := Except.bind_ok_iff.mp run
    obtain ⟨_, _, run⟩ := Except.bind_ok_iff.mp run
    cases run
    exact ⟨⟨specs, wired⟩, served, fun _ here => here⟩

end Messages

section Calls

/-- An interface has this index. -/
def Registered (r2 : Ctx T) (i : Nat) : Prop := ∃ name, r2.ifd.idx2name i = some name

/-- The interfaces have their indices and the routes lead to interfaces. -/
structure Sound (r2 : Ctx T) : Prop where
  interfaces : ∀ name intf, r2.ifd.interfaces name = some intf → Registered r2 intf.ifindex
  tables : ∀ table, Served (Registered r2) (r2.ipv4.deref table)

/-- The address or the route is for an interface that `EncapMux` has an edge for. -/
def InRange (r2 : Ctx T) : ApiCall → Prop
  | .addIp name _ => ∀ intf, r2.ifd.interfaces name = some intf → intf.ifindex < maxInterfaces
  | .addRoute _ _ name => ∀ intf, r2.ifd.interfaces name = some intf → intf.ifindex < maxInterfaces
  | _ => True

/-- A call is sound and its messages say what it did. -/
structure Announces (r2 r2' : Ctx T) (msgs : List (CtrlMsg T)) : Prop where
  sound : Sound r2'
  grows : ∀ i, Registered r2 i → Registered r2' i
  follows : ∀ known : Nat → Prop, (∀ i, Registered r2 i → known i) → Follows known msgs
  learned : ∀ known : Nat → Prop, (∀ i, Registered r2 i → known i) → ∀ i, Registered r2' i → msgs.foldl learn known i

variable {r2 r2' : Ctx T} {msgs : List (CtrlMsg T)}

theorem new_sound (nthreads : Nat) : Sound (Ctx.new nthreads : Ctx T) where
  interfaces _ _ found := nomatch found
  tables table := by cases table <;> exact .new _

theorem addOrDelRoute_announces (sound : Sound r2) (ip : Ipv4Addr) (masklen : Nat) (nhop : Ipv4Addr) {ifindex : Nat}
    {add : Bool} (target : add = true → ifindex < maxInterfaces ∧ Registered r2 ifindex) :
    Announces r2 (addOrDelRoute r2 ip masklen nhop ifindex add).1
    [(addOrDelRoute r2 ip masklen nhop ifindex add).2] := by
  have after : ∀ table,
      Served (Registered r2) ((addOrDelRoute r2 ip masklen nhop ifindex add).1.ipv4.deref table) := by
    intro table
    rw [addOrDelRoute_deref]
    exact (sound.tables table).run target
  obtain ⟨table, msg⟩ := addOrDelRoute_msg r2 ip masklen nhop ifindex add
  rw [msg]
  exact ⟨⟨sound.interfaces, after⟩, fun _ here => here, fun known more => ⟨(after table).mono more, trivial⟩,
    fun _ more => more⟩

theorem addRoute_announces (sound : Sound r2) (ip : Ipv4Addr) (masklen : Nat) (nhop : Ipv4Addr) {ifindex : Nat}
    (target : ifindex < maxInterfaces ∧ Registered r2 ifindex) :
    Announces r2 (addRoute r2 ip masklen nhop ifindex).1 [(addRoute r2 ip masklen nhop ifindex).2] :=
  addOrDelRoute_announces sound ip masklen nhop fun _ => target

theorem delRoute_announces (sound : Sound r2) (ip : Ipv4Addr) (masklen : Nat) (nhop : Ipv4Addr) (ifindex : Nat) :
    Announces r2 (delRoute r2 ip masklen nhop ifindex).1 [(delRoute r2 ip masklen nhop ifindex).2] :=
  addOrDelRoute_announces sound ip masklen nhop nofun

theorem Announces.trans {r2'' : Ctx T} {msgs' : List (CtrlMsg T)} (first : Announces r2 r2' msgs)
    (second : Announces r2' r2'' msgs') : Announces r2 r2'' (msgs ++ msgs') where
  sound := second.sound
  grows i here := second.grows i (first.grows i here)
  follows known more := (first.follows known more).append (second.follows _ (first.learned known more))
  learned known more := by
    rw [List.foldl_append]
    exact second.learned _ (first.learned known more)

theorem Sound.modifyInterface (sound : Sound r2) (intf : Interface) : Announces r2 r2 [.modifyInterface intf] :=
  ⟨sound, fun _ here => here, fun _ _ => ⟨trivial, trivial⟩, fun _ more => more⟩

theorem handleAddIf_announces {sock : Except Int Unit} {name mac : String} {ifindex : Int} (sound : Sound r2)
    (run : handleAddIf r2 sock name ifindex mac = (r2', .ok msgs)) : Announces r2 r2' msgs := by
  obtain ⟨l2Addr, thread, _, freeName, freeIndex, rfl, rfl⟩ := handleAddIf_ok run
  have grows : ∀ i, Registered r2 i →
      ∃ name', Function.update r2.ifd.idx2name (toUsize ifindex) (some name) i = some name' := by
    intro i ⟨name', here⟩
    have other : i ≠ toUsize ifindex := fun same => by
      rw [same, freeIndex] at here
      cases here
    exact ⟨name', (Function.update_of_ne other ..).trans here⟩
  refine ⟨⟨fun name' intf found => ?_, fun table => (sound.tables table).mono grows⟩, grows,
    fun known more => ⟨trivial, ⟨rfl, nofun⟩, ⟨rfl, nofun⟩, ⟨rfl, nofun⟩, trivial⟩, fun known more i here => ?_⟩
  · change Function.update r2.ifd.interfaces name _ name' = _ at found
    by_cases here : name' = name
    · subst here
      rw [Function.update_self] at found
      cases found
      exact ⟨name', Function.update_self ..⟩
    · rw [Function.update_of_ne here] at found
      exact grows _ (sound.interfaces name' intf found)
  · by_cases new : i = toUsize ifindex
    · exact Or.inr (congrArg Client.ethEncap new.symm)
    · obtain ⟨name', here⟩ := here
      exact Or.inl (Or.inl (Or.inl (more i ⟨name', (Function.update_of_ne new ..).symm.trans here⟩)))

/-- Every call that succeeds within the range announces what it did. -/
theorem handle_announces {call : ApiCall} (sound : Sound r2) (inRange : InRange r2 call)
    (run : handle r2 call = (r2', .ok msgs)) : Announces r2 r2' msgs := by
  cases call with
  | addIf sock name ifindex mac => exact handleAddIf_announces sound run
  | addIp name ipAndMask =>
    obtain ⟨intf, addr, masklen, found, _, _, _, done⟩ := handleAddIp_ok run
    have target := And.intro (inRange intf found) (sound.interfaces name intf found)
    rcases done with ⟨_, rfl, rfl⟩ | ⟨_, r2₁, msg, deleted, rfl, rfl⟩
    · exact (sound.modifyInterface _).trans (addRoute_announces sound addr masklen zeroIp target)
    · have undone := delRoute_announces sound intf.ipv4Addr intf.maskLen zeroIp intf.ifindex
      rw [deleted] at undone
      have redone := addRoute_announces undone.sound addr masklen zeroIp ⟨target.1, undone.grows _ target.2⟩
      exact (sound.modifyInterface _).trans (undone.trans redone)
  | addRoute ipMask nhop name =>
    change handleRoute addRoute r2 ipMask nhop name = _ at run
    obtain ⟨ip, mask, nhopIp, intf, found, rfl, rfl⟩ := handleRoute_ok run
    exact addRoute_announces sound ip mask nhopIp ⟨inRange intf found, sound.interfaces name intf found⟩
  | delRoute ipMask nhop name =>
    change handleRoute delRoute r2 ipMask nhop name = _ at run
    obtain ⟨ip, mask, nhopIp, intf, found, rfl, rfl⟩ := handleRoute_ok run
    exact delRoute_announces sound ip mask nhopIp intf.ifindex

end Calls

/-- What a thread has of the routes and of the graph is sound once it has taken
its messages, and at each message on the way. -/
structure ThreadInv (r2 : Ctx T) (f : ForwardThread T) (msgs : List (CtrlMsg T)) : Prop where
  wired : ∃ specs, Wired f.graph specs
  served : Served (Knows f.graph) f.table
  follows : Follows (Knows f.graph) msgs
  learned : ∀ i, Registered r2 i → msgs.foldl learn (Knows f.graph) i

section ThreadInv

variable {r2 r2' : Ctx T} {f f' : ForwardThread T} {msgs more : List (CtrlMsg T)}

theorem ThreadInv.launch (nthreads t : Nat) : ThreadInv (.new nthreads : Ctx T) (launch t) [] where
  wired := ⟨firstSpecs, launch_wired t⟩
  served := .new _
  follows := trivial
  learned _ := fun ⟨_, here⟩ => nomatch here

theorem ThreadInv.told (inv : ThreadInv r2 f msgs) (call : Announces r2 r2' more) :
    ThreadInv r2' f (msgs ++ more) where
  wired := inv.wired
  served := inv.served
  follows := inv.follows.append (call.follows _ inv.learned)
  learned i here := by
    rw [List.foldl_append]
    exact call.learned _ inv.learned i here

theorem ThreadInv.receive {msg : CtrlMsg T} (inv : ThreadInv r2 f (msg :: msgs)) (run : f.receive msg = .ok f') :
    ThreadInv r2 f' msgs ∧ ∀ i, Knows f.graph i → Knows f'.graph i := by
  obtain ⟨wired, served, knows⟩ := receive_inv inv.wired inv.served inv.follows.1 run
  exact ⟨⟨wired, served, inv.follows.2.mono knows, fun i here => learn_foldl_mono msgs knows i (inv.learned i here)⟩,
    fun i here => knows i (le_learn msg i here)⟩

/-- The packets that go around in a thread change nothing of this. -/
theorem ThreadInv.traffic {g : Graph Client Packet} (inv : ThreadInv r2 f msgs) (nodes : g.nodes = f.graph.nodes)
    (wired : ∃ specs, Wired g specs) : ThreadInv r2 { f with graph := g } msgs := by
  have same : Knows g = Knows f.graph := by
    funext i
    rw [Knows, nodes, Knows]
  refine ⟨wired, ?_, ?_, ?_⟩
  · exact same ▸ inv.served
  · exact same ▸ inv.follows
  · exact same ▸ inv.learned

end ThreadInv

namespace Plane

variable {plane plane' : Plane T} {nthreads : Nat}

structure Inv (plane : Plane T) : Prop where
  sound : Sound plane.r2
  thread : ∀ t, ThreadInv plane.r2 (plane.thread t) (plane.channel t)

theorem start_inv (nthreads : Nat) : (start nthreads : Plane T).Inv := ⟨new_sound nthreads, .launch nthreads⟩

/-- A push or a pop of a thread changes its queues and counters only. -/
theorem push_wired {g g' : Graph Client Packet} {n l : Nat} {pkt : Packet} {pushed : Bool}
    (wired : ∃ specs, Wired g specs)
    (run : g.push n l pkt = .ok (pushed, g')) : g'.nodes = g.nodes ∧ ∃ specs, Wired g' specs := by
  obtain ⟨specs, wired⟩ := wired
  obtain ⟨t, edge⟩ := Graph.push_ok_edge run
  obtain ⟨vectors, counters, pushes, sameCounters, sameVectors, room, _⟩ := wired.resolves.shaped.push_eq edge pkt
  cases run.symm.trans pushes
  exact ⟨rfl, specs, wired.traffic sameVectors sameCounters room⟩

theorem pop_wired {g g' : Graph Client Packet} {n : Nat} {pkt : Option Packet} (wired : ∃ specs, Wired g specs)
    (run : g.pop n = .ok (pkt, g')) : g'.nodes = g.nodes ∧ ∃ specs, Wired g' specs := by
  obtain ⟨specs, wired⟩ := wired
  obtain ⟨vectors, pops, sameVectors, room, _⟩ := wired.resolves.shaped.pop_eq (Graph.pop_ok_known run)
  cases run.symm.trans pops
  exact ⟨rfl, specs, wired.traffic sameVectors rfl room⟩

/-- Whatever one thread does, the others stay as they are. -/
theorem Inv.update {t : Nat} {f : ForwardThread T} {msgs : List (CtrlMsg T)} (inv : plane.Inv)
    (own : ThreadInv plane.r2 f msgs) (knows : ∀ i, Knows (plane.thread t).graph i → Knows f.graph i) :
    let next : Plane T :=
      { plane with thread := Function.update plane.thread t f, channel := Function.update plane.channel t msgs }
    next.Inv ∧ ∀ t' i, Knows (plane.thread t').graph i → Knows (next.thread t').graph i := by
  refine ⟨⟨inv.sound, fun t' => ?_⟩, fun t' i here => ?_⟩
  · dsimp only
    by_cases same : t' = t
    · subst same
      rw [Function.update_self, Function.update_self]
      exact own
    · rw [Function.update_of_ne same, Function.update_of_ne same]
      exact inv.thread t'
  · dsimp only
    by_cases same : t' = t
    · subst same
      rw [Function.update_self]
      exact knows i here
    · rw [Function.update_of_ne same]
      exact here

/-- A step keeps all this, and no thread forgets an interface. -/
theorem Step.inv (step : Step InRange plane plane') (inv : plane.Inv) :
    plane'.Inv ∧ ∀ t i, Knows (plane.thread t).graph i → Knows (plane'.thread t).graph i := by
  cases step with
  | call inRange run =>
    have call := handle_announces inv.sound inRange run
    exact ⟨⟨call.sound, fun t => (inv.thread t).told call⟩, fun _ _ here => here⟩
  | refused run =>
    obtain ⟨thread, rfl⟩ := handle_error run
    have call : Announces plane.r2 { plane.r2 with ifd := { plane.r2.ifd with lastThread := thread } } [] :=
      ⟨⟨inv.sound.interfaces, inv.sound.tables⟩, fun _ here => here, fun _ _ => trivial, fun _ more => more⟩
    exact ⟨⟨call.sound, fun t => (inv.thread t).told call⟩, fun _ _ here => here⟩
  | @receive t msg rest f waiting run =>
    have before := inv.thread t
    rw [waiting] at before
    obtain ⟨own, knows⟩ := before.receive run
    exact inv.update own knows
  | @push t n l pkt pushed g run =>
    have before := inv.thread t
    obtain ⟨nodes, wired⟩ := push_wired before.wired run
    have after := inv.update (before.traffic nodes wired) fun i here => by rwa [Knows, nodes]
    rwa [Function.update_eq_self] at after
  | @pop t n pkt g run =>
    have before := inv.thread t
    obtain ⟨nodes, wired⟩ := pop_wired before.wired run
    have after := inv.update (before.traffic nodes wired) fun i here => by rwa [Knows, nodes]
    rwa [Function.update_eq_self] at after

theorem Reached.inv (reached : Reached InRange nthreads plane) : plane.Inv := by
  induction reached with
  | start => exact start_inv nthreads
  | step _ step ih => exact (step.inv ih).1

/-- What holds in a plane that is reached holds later on. -/
theorem later_inv (inv : plane.Inv) (later : Relation.ReflTransGen (Step InRange) plane plane') :
    plane'.Inv ∧ ∀ t i, Knows (plane.thread t).graph i → Knows (plane'.thread t).graph i := by
  induction later with
  | refl => exact ⟨inv, fun _ _ here => here⟩
  | tail _ step ih =>
    obtain ⟨inv', knows⟩ := step.inv ih.1
    exact ⟨inv', fun t i here => knows t i (ih.2 t i here)⟩

end Plane

/-- As long as addresses and routes are given only to interfaces below
`MAX_INTERFACES`, a packet that `IPv4Fwd` sends to `EncapMux` has an edge there
that leads to the `EthEncap` of its interface, then and ever after. -/
theorem encapMux_in_range {nthreads t : Nat} {plane plane' : Plane T} {node node' : IPv4Fwd} {p p' : Packet}
    {pushed : List (IPv4Fwd.Next × Packet)} (reached : Plane.Reached InRange nthreads plane)
    (run : node.dispatchOne (plane.thread t).table p = .ok (node', pushed)) (sent : (.encapMux, p') ∈ pushed)
    (later : Relation.ReflTransGen (Plane.Step InRange) plane plane') :
    let g := (plane'.thread t).graph
    ∃ mux, g.nodes[3]? = some mux ∧ mux.client = .encapMux ∧ p'.outIfindex < mux.nextNodes.length ∧
      ∃ k encap, k ≠ 0 ∧ g.nodes[k]? = some encap ∧ encap.client = .ethEncap p'.outIfindex ∧
        g.Delivers 3 p'.outIfindex k := by
  obtain ⟨small, known⟩ := (reached.inv.thread t).served.dispatchOne run sent
  obtain ⟨inv, knows⟩ := Plane.later_inv reached.inv later
  obtain ⟨specs, wired⟩ := (inv.thread t).wired
  obtain ⟨mux, here, client, length⟩ := wired.mux_node
  exact ⟨mux, here, client, length ▸ small, wired.delivers small (knows t _ known)⟩

section Example

instance : KeepsLeaves RouteList where
  stored t leaf := ∃ key, (key, leaf) ∈ t.entries
  stored_new _ := fun ⟨_, member⟩ => nomatch member
  stored_insert t ip len new leaf := fun ⟨key, member⟩ => by
    rcases List.mem_cons.mp member with same | old
    · exact Or.inl (congrArg Prod.snd same)
    · exact Or.inr ⟨key, old⟩
  stored_remove t ip len leaf := fun ⟨key, member⟩ => ⟨key, List.mem_of_mem_filter member⟩
  longestMatch_stored t ip found len leaf hit := by
    obtain ⟨length, _, hit⟩ := List.exists_of_findSome?_eq_some hit
    obtain ⟨leaf', here, same⟩ := Option.map_eq_some_iff.mp hit
    cases same
    obtain ⟨before, after, entries, _⟩ := List.lookup_eq_some_iff.mp here
    exact ⟨_, entries ▸ List.mem_append_right before (List.mem_cons_self ..)⟩

def setUpAt (ifindex : Int) : ApiCall := .addIf (.ok ()) "eth0" ifindex "00:00:00:00:00:01"

def routeVia : ApiCall := .addRoute "10.1.0.0/16" "10.1.0.9" "eth0"

/-- A header of a packet to 10.1.2.3. -/
def routedPacket : Packet where
  ptr := 0
  particle := [⟨0, List.replicate 16 0 ++ [10, 1, 2, 3], 0, 20, Nat.zero_le _⟩]
  length := 20
  l2 := 0
  l2Len := 0
  l3 := 0
  l3Len := 20
  inIfindex := 0
  outIfindex := 0
  outL3addr := zeroIp

/-- A thread takes all messages that wait for it. -/
theorem Plane.Reached.drain {allowed : Ctx RouteList → ApiCall → Prop} {nthreads t : Nat} {plane : Plane RouteList}
    {msgs : List (CtrlMsg RouteList)} {f : ForwardThread RouteList} (reached : Plane.Reached allowed nthreads plane)
    (waiting : plane.channel t = msgs) (run : msgs.foldlM ForwardThread.receive (plane.thread t) = .ok f) :
    ∃ plane', Plane.Reached allowed nthreads plane' ∧ plane'.thread t = f := by
  induction msgs generalizing plane with
  | nil =>
    cases run
    exact ⟨plane, reached, rfl⟩
  | cons msg rest ih =>
    obtain ⟨f', first, run⟩ := Except.bind_ok_iff.mp run
    refine ih (reached.step (.receive waiting first)) (Function.update_self ..) ?_
    dsimp only
    rw [Function.update_self]
    exact run

theorem routed_plane {allowed : Ctx RouteList → ApiCall → Prop} (ifindex : Int)
    (adds : ∀ r2, allowed r2 (setUpAt ifindex))
    (routes : ∀ r2 : Ctx RouteList, r2.ifd.interfaces "eth0" =
      some (newInterface "eth0" (toUsize ifindex) [0, 0, 0, 0, 0, 1]
      maxHeadroom) → allowed r2 routeVia) :
    ∃ plane, Plane.Reached allowed 2 plane ∧ (∃ specs, Wired (plane.thread 0).graph specs) ∧
      ∀ node, ∃ p, p.outIfindex = toUsize ifindex ∧
        IPv4Fwd.dispatchOne node (plane.thread 0).table routedPacket = .ok (node, [(.encapMux, p)]) := by
  have first : Plane.Reached allowed 2 _ :=
    .step .start (.call (adds _) (show handle _ (setUpAt ifindex) = _ from rfl))
  have second : Plane.Reached allowed 2 _ := .step first (.call (routes _ rfl) (show handle _ routeVia = _ from rfl))
  have node := @Wired.add _ _ createNodes_wired (.ifNode (toUsize ifindex)) (ifNodeInit (toUsize ifindex)) rfl nofun
  obtain ⟨⟨_, node⟩, _⟩ := node
  have decap := @Wired.add _ _ node (.ethDecap (toUsize ifindex)) (ethDecapInit (toUsize ifindex)) rfl nofun
  obtain ⟨⟨_, decap⟩, _⟩ := decap
  have encap := @Wired.add _ _ decap (.ethEncap (toUsize ifindex)) (ethEncapInit (toUsize ifindex)) rfl nofun
  obtain ⟨⟨_, encap⟩, _⟩ := encap
  let leaf : IPv4Leaf := ⟨.adjacency ⟨10, 1, 0, 9⟩ (toUsize ifindex)⟩
  let table : IPv4Table RouteList := ⟨⟨[(Ipv4Addr.masked ⟨10, 1, 0, 0⟩ 16, leaf)]⟩⟩
  have run : ForwardThread.receive ⟨_, .new⟩ _ = _ := encap.receive_table table
  obtain ⟨plane, reached, thread⟩ := second.drain (t := 0) rfl run
  refine ⟨plane, reached, ?_, fun node => ?_⟩
  · rw [thread]
    exact ⟨_, encap⟩
  · rw [thread]
    exact ⟨{ routedPacket with outIfindex := toUsize ifindex, outL3addr := ⟨10, 1, 0, 9⟩ }, rfl, rfl⟩

/-- An interface of index 4096 is accepted, and its packets have no edge in `EncapMux`. -/
theorem encapMux_out_of_range : ∃ plane : Plane RouteList, Plane.Reached (fun _ _ => True) 2 plane ∧ ∃ node p p',
    IPv4Fwd.dispatchOne node (plane.thread 0).table p = .ok (node, [(.encapMux, p')]) ∧
    p'.outIfindex = maxInterfaces ∧
      (plane.thread 0).graph.push 3 p'.outIfindex p' = .error .bounds := by
  obtain ⟨plane, reached, ⟨specs, wired⟩, sends⟩ :=
    @routed_plane (fun _ _ => True) maxInterfaces (fun _ => trivial) fun _ _ => trivial
  obtain ⟨p', index, run⟩ := sends ⟨.table1, 0, 0⟩
  have same : p'.outIfindex = maxInterfaces := index
  exact ⟨plane, reached, _, _, p', run, same, wired.push_beyond same.ge p'⟩

theorem encapMux_in_range_one : ∃ plane : Plane RouteList, ∃ p' : Packet, p'.outIfindex = 1 ∧
    ∃ k encap, k ≠ 0 ∧ (plane.thread 0).graph.nodes[k]? = some encap ∧ encap.client = .ethEncap p'.outIfindex ∧
      (plane.thread 0).graph.Delivers 3 p'.outIfindex k := by
  have inRange : ∀ r2 : Ctx RouteList, r2.ifd.interfaces "eth0" =
      some (newInterface "eth0" (toUsize 1) [0, 0, 0, 0, 0, 1] maxHeadroom) → InRange r2 routeVia := by
    intro r2 found intf here
    cases found.symm.trans here
    decide
  obtain ⟨plane, reached, _, sends⟩ := routed_plane 1 (fun _ => trivial) inRange
  obtain ⟨p', index, run⟩ := sends ⟨.table1, 0, 0⟩
  obtain ⟨_, _, _, _, there⟩ := encapMux_in_range reached run (List.mem_singleton_self _) .refl
  exact ⟨plane, p', index, there⟩

end Example

end R2.Control
