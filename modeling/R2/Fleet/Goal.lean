import R2.Fleet.Config

namespace R2.Fleet

open Control

variable {T σ : Type}

/-- Which node it is. -/
def Node.kind : Node T → Client
  | drop => .drop
  | ipv4Parse _ => .ipv4Parse
  | ipv4Fwd .. => .ipv4Fwd
  | encapMux => .encapMux
  | ifNode node => .ifNode node.intf.ifindex
  | ethDecap node => .ethDecap node.intf.ifindex
  | ethEncap node => .ethEncap node.intf.ifindex

theorem Node.name_eq (c : Node T) : c.name = c.kind.name := by cases c <;> rfl

/-- The nodes that a message is for. -/
def Msg.recipients : Msg T → List Client
  | gnodeAdd .. | epollAdd .. => []
  | ipv4TableAdd .. => [.ipv4Fwd]
  | modifyInterface intf => [.ethDecap intf.ifindex, .ethEncap intf.ifindex, .ifNode intf.ifindex]
  | ethMacAdd msg => [.ethDecap msg.ifindex, .ethEncap msg.ifindex]
  | classAdd c => [.ifNode c.ifindex]

theorem Msg.targets_eq (msg : Msg T) : msg.targets = msg.recipients.map Client.name := by cases msg <;> rfl

section Apply

variable {v v' : Graph (Node T) Packet} {msg : Msg T} {name : String} {c d : Node T}

theorem Node.accept_kind (accepted : c.accept msg = some d) (member : c.kind ∈ msg.recipients) :
    d.kind = c.kind := by
  cases c with
  | drop => cases accepted
  | encapMux => cases accepted
  | ipv4Parse node => cases accepted
  | ipv4Fwd node table =>
    cases msg with
    | ipv4TableAdd which table =>
      cases Option.some.inj accepted
      rfl
    | _ => cases accepted
  | ifNode node =>
    cases msg with
    | modifyInterface intf =>
      cases Option.some.inj accepted
      simp only [Msg.recipients, kind, List.mem_cons, reduceCtorEq, false_or, Client.ifNode.injEq,
        List.not_mem_nil, or_false] at member
      rw [kind, kind, member]
    | classAdd c =>
      cases Option.some.inj accepted
      rfl
    | _ => cases accepted
  | ethDecap node =>
    cases msg with
    | modifyInterface intf =>
      cases Option.some.inj accepted
      simp only [Msg.recipients, kind, List.mem_cons, reduceCtorEq, Client.ethDecap.injEq, List.not_mem_nil,
        or_false] at member
      rw [kind, kind, member]
    | ethMacAdd msg =>
      cases Option.some.inj accepted
      rfl
    | _ => cases accepted
  | ethEncap node =>
    cases msg with
    | modifyInterface intf =>
      cases Option.some.inj accepted
      simp only [Msg.recipients, kind, List.mem_cons, reduceCtorEq, false_or, Client.ethEncap.injEq,
        List.not_mem_nil, or_false] at member
      rw [kind, kind, member]
    | ethMacAdd msg =>
      cases Option.some.inj accepted
      rfl
    | _ => cases accepted

theorem Coherent.setClient (coherent : Coherent v) (found : v.client name = some c) (named : d.name = name) :
    Coherent (v.setClient name d) where
  indexed := coherent.indexed.setClient name d
  named other e there := by
    rw [coherent.indexed.client_setClient (by rw [found]; rfl)] at there
    split at there
    · rename_i same
      rw [same, ← Option.some.inj there, named]
    · exact coherent.named other e there

theorem Coherent.kind (coherent : Coherent v) {r : Client} (found : v.client r.name = some c) : c.kind = r :=
  Client.name_injective (c.name_eq.symm.trans (coherent.named _ c found))

/-- What one node does with a message. -/
theorem Coherent.tell (coherent : Coherent v) {r : Client} (recipient : r ∈ msg.recipients)
    (told : v.tell r.name (·.accept msg) = some v') :
    Coherent v' ∧ ∃ c d, v.client r.name = some c ∧ c.accept msg = some d ∧
      ∀ other, v'.client other = if other = r.name then some d else v.client other := by
  obtain ⟨c, d, found, accepted, rfl⟩ := Graph.tell_some told
  have kind := coherent.kind found
  have named : d.name = r.name := by rw [d.name_eq, Node.accept_kind accepted (kind ▸ recipient), kind]
  exact ⟨coherent.setClient found named, c, d, found, accepted,
    coherent.indexed.client_setClient (by rw [found]; rfl) d⟩

/-- Each recipient takes the message for itself. -/
theorem Coherent.tells (coherent : Coherent v) {recipients : List Client} (distinct : recipients.Nodup)
    (all : ∀ r ∈ recipients, r ∈ msg.recipients)
    (told : (recipients.map Client.name).foldlM (fun v name => v.tell name (·.accept msg)) v = some v') :
    Coherent v' ∧ (∀ r ∈ recipients, ∃ c d, v.client r.name = some c ∧ c.accept msg = some d ∧
        v'.client r.name = some d) ∧
      ∀ other, (∀ r ∈ recipients, other ≠ r.name) → v'.client other = v.client other := by
  induction recipients generalizing v with
  | nil =>
    cases Option.some.inj told
    exact ⟨coherent, fun _ member => absurd member List.not_mem_nil, fun _ _ => rfl⟩
  | cons r rest ih =>
    rw [List.map_cons, List.foldlM_cons] at told
    obtain ⟨v₁, first, told⟩ := Option.bind_eq_some_iff.mp told
    obtain ⟨coherent₁, c, d, found, accepted, after⟩ := coherent.tell (all r (List.mem_cons_self ..)) first
    obtain ⟨apart, distinct⟩ := List.nodup_cons.mp distinct
    obtain ⟨coherent', taken, others⟩ := ih coherent₁ distinct (fun s member => all s (List.mem_cons_of_mem _ member))
      told
    have differ (s : Client) (member : s ∈ rest) : r.name ≠ s.name := fun same =>
      apart (Client.name_injective same ▸ member)
    refine ⟨coherent', fun s member => ?_, fun other elsewhere => ?_⟩
    · rcases List.mem_cons.mp member with rfl | member
      · exact ⟨c, d, found, accepted, (others _ differ).trans ((after _).trans (if_pos rfl))⟩
      · obtain ⟨c', d', found', accepted', after'⟩ := taken s member
        rw [after, if_neg (Ne.symm (differ s member))] at found'
        exact ⟨c', d', found', accepted', after'⟩
    · rw [others other fun s member => elsewhere s (List.mem_cons_of_mem _ member), after,
        if_neg (elsewhere r (List.mem_cons_self ..))]

theorem Msg.recipients_nodup (msg : Msg T) : msg.recipients.Nodup := by
  cases msg <;> simp [recipients]

/-- What a message that is not for a new node does. -/
theorem Coherent.apply_known (coherent : Coherent v) (applied : msg.apply v = some v') (known : msg.recipients ≠ []) :
    Coherent v' ∧ (∀ r ∈ msg.recipients, ∃ c d, v.client r.name = some c ∧ c.accept msg = some d ∧
        v'.client r.name = some d) ∧
      ∀ other, (∀ r ∈ msg.recipients, other ≠ r.name) → v'.client other = v.client other := by
  have targets : msg.targets ≠ [] := by
    rw [msg.targets_eq]
    exact fun none => known (List.map_eq_nil_iff.mp none)
  rw [Msg.apply_targets targets, msg.targets_eq] at applied
  exact coherent.tells msg.recipients_nodup (fun _ member => member) applied

theorem Coherent.add (coherent : Coherent v) {init : GnodeInit} (named : init.name = c.name)
    (other : init.name ≠ dropName) : Coherent (v.add c init) := by
  refine ⟨coherent.indexed.add c other, fun name d found => ?_⟩
  rw [coherent.indexed.client_add c other] at found
  split at found
  · rename_i same
    cases known : v.client name with
    | none =>
      rw [known] at found
      rw [← Option.some.inj found, same]
      exact named.symm
    | some e =>
      rw [known] at found
      exact Option.some.inj found ▸ coherent.named name e known
  · exact coherent.named name d found

theorem Coherent.finalize (coherent : Coherent v) : Coherent v.finalize where
  indexed := coherent.indexed.finalize
  named name d found := coherent.named name d (Graph.client_finalize (g := v) name ▸ found)

/-- A node of a new kind. -/
theorem Coherent.add_fresh (coherent : Coherent v) {init : GnodeInit} (named : init.name = c.kind.name)
    (other : c.kind ≠ .drop) (fresh : v.client c.kind.name = none) : Coherent (v.add c init) ∧
      ∀ r : Client, (v.add c init).client r.name = if r = c.kind then some c else v.client r.name := by
  have name : init.name = c.name := named.trans c.name_eq.symm
  have apart : init.name ≠ dropName := fun same => other (Client.name_injective (named.symm.trans same))
  refine ⟨coherent.add name apart, fun r => ?_⟩
  rw [coherent.indexed.client_add c apart]
  by_cases same : r = c.kind
  · rw [if_pos same, if_pos (by rw [same, named]), same, fresh]
    rfl
  · rw [if_neg same, if_neg fun clash => same (Client.name_injective (clash.trans named))]

theorem Coherent.apply (coherent : Coherent v) (applied : msg.apply v = some v') : Coherent v' := by
  cases msg with
  | gnodeAdd node init =>
    unfold Msg.apply at applied
    dsimp only at applied
    split at applied
    · rename_i fits
      cases Option.some.inj applied
      exact (coherent.add fits.1 fits.2.1).finalize
    · cases applied
  | epollAdd fd t =>
    cases Option.some.inj applied
    exact coherent
  | ipv4TableAdd which table => exact (coherent.apply_known applied (List.cons_ne_nil _ _)).1
  | modifyInterface intf => exact (coherent.apply_known applied (List.cons_ne_nil _ _)).1
  | ethMacAdd msg => exact (coherent.apply_known applied (List.cons_ne_nil _ _)).1
  | classAdd c => exact (coherent.apply_known applied (List.cons_ne_nil _ _)).1

theorem Coherent.tells_ok (coherent : Coherent v) {recipients : List Client} (distinct : recipients.Nodup)
    (all : ∀ r ∈ recipients, r ∈ msg.recipients)
    (knows : ∀ r ∈ recipients, ∃ c d, v.client r.name = some c ∧ c.accept msg = some d) :
    ∃ v', (recipients.map Client.name).foldlM (fun v name => v.tell name (·.accept msg)) v = some v' := by
  induction recipients generalizing v with
  | nil => exact ⟨v, rfl⟩
  | cons r rest ih =>
    obtain ⟨c, d, found, accepted⟩ := knows r (List.mem_cons_self ..)
    have told : v.tell r.name (·.accept msg) = some (v.setClient r.name d) := by
      rw [Graph.tell, found]
      change (c.accept msg).bind _ = _
      rw [accepted]
      rfl
    obtain ⟨apart, distinct⟩ := List.nodup_cons.mp distinct
    obtain ⟨coherent₁, _, _, _, _, after⟩ := coherent.tell (all r (List.mem_cons_self ..)) told
    have knows₁ : ∀ s ∈ rest, ∃ c e, (v.setClient r.name d).client s.name = some c ∧ c.accept msg = some e := by
      intro s member
      obtain ⟨c', d', found', accepted'⟩ := knows s (List.mem_cons_of_mem _ member)
      have other : s.name ≠ r.name := fun same => apart (Client.name_injective same ▸ member)
      exact ⟨c', d', by rw [after, if_neg other, found'], accepted'⟩
    obtain ⟨v', rest'⟩ := ih coherent₁ distinct (fun s member => all s (List.mem_cons_of_mem _ member)) knows₁
    exact ⟨v', by rw [List.map_cons, List.foldlM_cons, told]; exact rest'⟩

/-- A message that every recipient knows can be applied. -/
theorem Coherent.apply_ok (coherent : Coherent v)
    (knows : ∀ r ∈ msg.recipients, ∃ c d, v.client r.name = some c ∧ c.accept msg = some d)
    (known : msg.recipients ≠ []) : ∃ v', msg.apply v = some v' := by
  have targets : msg.targets ≠ [] := by
    rw [msg.targets_eq]
    exact fun none => known (List.map_eq_nil_iff.mp none)
  rw [Msg.apply_targets targets, msg.targets_eq]
  exact coherent.tells_ok msg.recipients_nodup (fun _ member => member) knows

/-- A node that is there stays there. -/
theorem Coherent.apply_isSome (coherent : Coherent v) (applied : msg.apply v = some v') {r : Client}
    (known : (v.client r.name).isSome) : (v'.client r.name).isSome := by
  have told (some : msg.recipients ≠ []) : (v'.client r.name).isSome := by
    obtain ⟨_, taken, others⟩ := coherent.apply_known applied some
    by_cases member : r ∈ msg.recipients
    · obtain ⟨_, d, _, _, after⟩ := taken r member
      rw [after]
      rfl
    · rw [others r.name fun s here clash => member (Client.name_injective clash ▸ here)]
      exact known
  cases msg with
  | gnodeAdd node init =>
    unfold Msg.apply at applied
    dsimp only at applied
    split at applied
    · rename_i fits
      cases Option.some.inj applied
      rw [Graph.client_finalize, coherent.indexed.client_add node fits.2.1]
      split
      · rfl
      · exact known
    · cases applied
  | epollAdd fd t =>
    cases Option.some.inj applied
    exact known
  | ipv4TableAdd => exact told (List.cons_ne_nil _ _)
  | modifyInterface => exact told (List.cons_ne_nil _ _)
  | ethMacAdd => exact told (List.cons_ne_nil _ _)
  | classAdd => exact told (List.cons_ne_nil _ _)

/-- A message that leaves each recipient's clone as it is leaves all as it is. -/
theorem apply_still (still : ∀ r ∈ msg.recipients, ∃ c, v.client r.name = some c ∧ c.accept msg = some c)
    (known : msg.recipients ≠ []) : msg.apply v = some v := by
  have targets : msg.targets ≠ [] := by
    rw [msg.targets_eq]
    exact fun none => known (List.map_eq_nil_iff.mp none)
  rw [Msg.apply_targets targets, msg.targets_eq]
  generalize msg.recipients = recipients at still
  induction recipients with
  | nil => rfl
  | cons r rest ih =>
    obtain ⟨c, found, accepted⟩ := still r (List.mem_cons_self ..)
    have told : v.tell r.name (·.accept msg) = some v := by
      rw [Graph.tell, found]
      change (c.accept msg).bind _ = _
      rw [accepted]
      exact congrArg some (Graph.setClient_self found)
    rw [List.map_cons, List.foldlM_cons, told]
    exact ih fun s member => still s (List.mem_cons_of_mem _ member)

end Apply

/-- The clone of the interface node of an interface that this thread owns. -/
def pinned (owner : Nat) (intf : Interface) : IfNode := ⟨⟨intf⟩, some owner, newSched, none, 0⟩

/-- The three nodes of an interface. -/
structure HasPort (v : Graph (Node T) Packet) (owner : Nat) (intf : Interface) : Prop where
  rxTx : v.client (Client.ifNode intf.ifindex).name = some (.ifNode (pinned owner intf))
  decap : v.client (Client.ethDecap intf.ifindex).name = some (.ethDecap (ethDecapNew intf))
  encap : v.client (Client.ethEncap intf.ifindex).name = some (.ethEncap (ethEncapNew intf))

def NoPort (v : Graph (Node T) Packet) (i : Nat) : Prop :=
  v.client (Client.ifNode i).name = none ∧ v.client (Client.ethDecap i).name = none ∧
    v.client (Client.ethEncap i).name = none

/-- The threads share what the control threads have sent them: the table in use
and the nodes of the interfaces that were added, each with an address of its own. -/
structure Matches (n : Nat) (r2 : Ctx T) (v : Graph (Node T) Packet) : Prop where
  coherent : Coherent v
  parse : v.client Client.ipv4Parse.name = some (.ipv4Parse ⟨0⟩)
  fwd : v.client Client.ipv4Fwd.name =
    some (.ipv4Fwd ⟨r2.ipv4.which, 0, 0⟩ (r2.ipv4.deref r2.ipv4.which))
  known : ∀ i name, r2.ifd.idx2name i = some name → ∃ owner intf addr masklen, owner < n ∧
    r2.ifd.interfaces name = some intf ∧ intf.ifindex = i ∧ HasPort v owner (setV4addr intf addr masklen)
  unknown : ∀ i, r2.ifd.idx2name i = none → NoPort v i

section Matches

variable {n : Nat} {r2 r2' : Ctx T} {v v' : Graph (Node T) Packet} {i : Nat} {intf : Interface}

theorem Matches.hasPort (matched : Matches n r2 v) (known : (r2.ifd.idx2name i).isSome) :
    ∃ owner intf, intf.ifindex = i ∧ HasPort v owner intf := by
  obtain ⟨name, here⟩ := Option.isSome_iff_exists.mp known
  obtain ⟨owner, intf, addr, masklen, _, _, index, port⟩ := matched.known i name here
  exact ⟨owner, setV4addr intf addr masklen, index, port⟩

/-- The routes go out. -/
theorem Matches.table (matched : Matches n r2 v) (same : r2'.ifd = r2.ifd) :
    ∃ v', (Msg.ipv4TableAdd r2'.ipv4.which (r2'.ipv4.deref r2'.ipv4.which)).apply v = some v' ∧
      Matches n r2' v' := by
  have knows : ∀ r ∈ (Msg.ipv4TableAdd r2'.ipv4.which (r2'.ipv4.deref r2'.ipv4.which)).recipients,
      ∃ c d, v.client r.name = some c ∧
        c.accept (.ipv4TableAdd r2'.ipv4.which (r2'.ipv4.deref r2'.ipv4.which)) = some d := by
    intro r member
    rw [List.mem_singleton.mp member]
    exact ⟨_, _, matched.fwd, rfl⟩
  obtain ⟨v', applied⟩ := matched.coherent.apply_ok knows (List.cons_ne_nil _ _)
  obtain ⟨coherent, taken, others⟩ := matched.coherent.apply_known applied (List.cons_ne_nil _ _)
  have kept (r : Client) (other : r ≠ .ipv4Fwd) : v'.client r.name = v.client r.name :=
    others r.name fun s member clash => other (Client.name_injective (List.mem_singleton.mp member ▸ clash))
  obtain ⟨c, d, found, accepted, after⟩ := taken .ipv4Fwd (List.mem_cons_self ..)
  rw [matched.fwd] at found
  cases Option.some.inj found
  cases Option.some.inj accepted
  refine ⟨v', applied, coherent, (kept _ (by simp)).trans matched.parse, after, fun i name known => ?_,
    fun i unknown => ?_⟩
  · obtain ⟨owner, intf, addr, masklen, inside, listed, index, port⟩ := matched.known i name (same ▸ known)
    exact ⟨owner, intf, addr, masklen, inside, same ▸ listed, index, (kept _ (by simp)).trans port.rxTx,
      (kept _ (by simp)).trans port.decap, (kept _ (by simp)).trans port.encap⟩
  · obtain ⟨rxTx, decap, encap⟩ := matched.unknown i (same ▸ unknown)
    exact ⟨(kept _ (by simp)).trans rxTx, (kept _ (by simp)).trans decap, (kept _ (by simp)).trans encap⟩

/-- An interface gets another address. -/
theorem Matches.modify {ifname : String} {old : Interface} {addr : Ipv4Addr} {masklen : Nat}
    (matched : Matches n r2 v) (found : r2.ifd.interfaces ifname = some old)
    (named : r2.ifd.idx2name old.ifindex = some ifname) (new : intf = setV4addr old addr masklen) :
    ∃ v', (Msg.modifyInterface intf).apply v = some v' ∧ Matches n r2 v' := by
  obtain ⟨owner, old', addr', masklen', inside, listed, _, port⟩ := matched.known _ ifname named
  cases Option.some.inj (listed.symm.trans found)
  have same : intf.ifindex = old.ifindex := by rw [new]; rfl
  have rxTx := port.rxTx
  have decap := port.decap
  have encap := port.encap
  change v.client (Client.ifNode old.ifindex).name = _ at rxTx
  change v.client (Client.ethDecap old.ifindex).name = _ at decap
  change v.client (Client.ethEncap old.ifindex).name = _ at encap
  rw [← same] at rxTx decap encap
  have knows : ∀ r ∈ (Msg.modifyInterface intf : Msg T).recipients, ∃ c d, v.client r.name = some c ∧
      c.accept (.modifyInterface intf) = some d := by
    intro r member
    simp only [Msg.recipients, List.mem_cons, List.not_mem_nil, or_false] at member
    rcases member with rfl | rfl | rfl
    · exact ⟨_, _, decap, rfl⟩
    · exact ⟨_, _, encap, rfl⟩
    · exact ⟨_, _, rxTx, rfl⟩
  obtain ⟨v', applied⟩ := matched.coherent.apply_ok knows (List.cons_ne_nil _ _)
  obtain ⟨coherent, taken, others⟩ := matched.coherent.apply_known applied (List.cons_ne_nil _ _)
  have kept (r : Client) (other : r ∉ (Msg.modifyInterface intf : Msg T).recipients) :
      v'.client r.name = v.client r.name :=
    others r.name fun s member clash => other (Client.name_injective clash ▸ member)
  refine ⟨v', applied, coherent, ?_, ?_, fun i name here => ?_, fun i here => ?_⟩
  · exact (kept _ (by simp [Msg.recipients])).trans matched.parse
  · exact (kept _ (by simp [Msg.recipients])).trans matched.fwd
  · by_cases this : i = intf.ifindex
    · subst this
      cases Option.some.inj (here.symm.trans (same ▸ named))
      refine ⟨owner, old, addr, masklen, inside, found, same.symm, ?_⟩
      rw [← new]
      refine ⟨?_, ?_, ?_⟩
      · obtain ⟨c, d, at_, accepted, after⟩ := taken (.ifNode intf.ifindex) (by simp [Msg.recipients])
        cases Option.some.inj (at_.symm.trans rxTx)
        cases Option.some.inj accepted
        exact after
      · obtain ⟨c, d, at_, accepted, after⟩ := taken (.ethDecap intf.ifindex) (by simp [Msg.recipients])
        cases Option.some.inj (at_.symm.trans decap)
        cases Option.some.inj accepted
        exact after
      · obtain ⟨c, d, at_, accepted, after⟩ := taken (.ethEncap intf.ifindex) (by simp [Msg.recipients])
        cases Option.some.inj (at_.symm.trans encap)
        cases Option.some.inj accepted
        exact after
    · obtain ⟨owner', intf', addr', masklen', inside', listed', rfl, port'⟩ := matched.known i name here
      have other : (setV4addr intf' addr' masklen').ifindex ≠ intf.ifindex := this
      exact ⟨owner', intf', addr', masklen', inside', listed', rfl,
        (kept _ (by simp [Msg.recipients, other])).trans port'.rxTx,
        (kept _ (by simp [Msg.recipients, other])).trans port'.decap,
        (kept _ (by simp [Msg.recipients, other])).trans port'.encap⟩
  · have other : i ≠ intf.ifindex := by
      rintro rfl
      rw [same, named] at here
      cases here
    obtain ⟨rxTx', decap', encap'⟩ := matched.unknown i here
    exact ⟨(kept _ (by simp [Msg.recipients, other])).trans rxTx',
      (kept _ (by simp [Msg.recipients, other])).trans decap',
      (kept _ (by simp [Msg.recipients, other])).trans encap'⟩

/-- New addresses are no news to what the threads share. -/
theorem apply_mac {msg : EthMacAddMsg} {decap : EthDecap} {encap : EthEncap}
    (atDecap : v.client (Client.ethDecap msg.ifindex).name = some (.ethDecap decap))
    (atEncap : v.client (Client.ethEncap msg.ifindex).name = some (.ethEncap encap)) :
    (Msg.ethMacAdd msg).apply v = some v := by
  refine apply_still (fun r member => ?_) (List.cons_ne_nil _ _)
  simp only [Msg.recipients, List.mem_cons, List.not_mem_nil, or_false] at member
  rcases member with rfl | rfl
  · exact ⟨_, atDecap, rfl⟩
  · exact ⟨_, atEncap, rfl⟩

theorem Matches.class (matched : Matches n r2 v) {c : ClassAddMsg} (known : (r2.ifd.idx2name c.ifindex).isSome) :
    (Msg.classAdd c).apply v = some v := by
  obtain ⟨owner, intf, index, port⟩ := matched.hasPort known
  refine apply_still (fun r member => ?_) (List.cons_ne_nil _ _)
  rw [List.mem_singleton.mp member]
  exact ⟨_, index ▸ port.rxTx, rfl⟩

theorem Coherent.apply_fresh {c : Node T} {init : GnodeInit} (coherent : Coherent v)
    (named : init.name = c.kind.name) (other : c.kind ≠ .drop) (fresh : v.client c.kind.name = none) :
    ∃ v', (Msg.gnodeAdd c init).apply v = some v' ∧ Coherent v' ∧
      ∀ r : Client, v'.client r.name = if r = c.kind then some c else v.client r.name := by
  have apart : init.name ≠ dropName := fun same => other (Client.name_injective (named.symm.trans same))
  obtain ⟨coherent', clients⟩ := coherent.add_fresh named other fresh
  refine ⟨_, if_pos ⟨named.trans c.name_eq.symm, apart, by rw [named, fresh]; rfl⟩, coherent'.finalize, fun r => ?_⟩
  rw [Graph.client_finalize, clients]

/-- A new interface, which has no address yet. -/
theorem Matches.port {owner : Nat} {name : String} {fd : Option Int} (matched : Matches n r2 v)
    (fresh : r2.ifd.idx2name intf.ifindex = none) (inside : owner < n) (ipv4 : r2'.ipv4 = r2.ipv4)
    (unset : intf = setV4addr intf zeroIp 0)
    (added : r2'.ifd.idx2name = Function.update r2.ifd.idx2name intf.ifindex (some name))
    (listed : r2'.ifd.interfaces = Function.update r2.ifd.interfaces name (some intf))
    (unused : r2.ifd.interfaces name = none) :
    ∃ v', [Msg.epollAdd fd owner, .gnodeAdd (.ifNode (pinned owner intf)) (ifNodeInit intf.ifindex),
      .gnodeAdd (.ethDecap (ethDecapNew intf)) (ethDecapInit intf.ifindex),
      .gnodeAdd (.ethEncap (ethEncapNew intf)) (ethEncapInit intf.ifindex)].foldlM (fun v msg => msg.apply v) v =
        some v' ∧ Matches n r2' v' := by
  obtain ⟨noRxTx, noDecap, noEncap⟩ := matched.unknown _ fresh
  obtain ⟨v₁, first, coherent₁, clients₁⟩ := @Coherent.apply_fresh T v (.ifNode (pinned owner intf))
    (ifNodeInit intf.ifindex) matched.coherent rfl (by simp [Node.kind]) noRxTx
  obtain ⟨v₂, second, coherent₂, clients₂⟩ := @Coherent.apply_fresh T v₁ (.ethDecap (ethDecapNew intf))
    (ethDecapInit intf.ifindex) coherent₁ rfl (by simp [Node.kind])
    (by rw [clients₁, if_neg (by simp [Node.kind])]; exact noDecap)
  obtain ⟨v₃, third, coherent₃, clients₃⟩ := @Coherent.apply_fresh T v₂ (.ethEncap (ethEncapNew intf))
    (ethEncapInit intf.ifindex) coherent₂ rfl (by simp [Node.kind])
    (by rw [clients₂, if_neg (by simp [Node.kind]), clients₁, if_neg (by simp [Node.kind])]; exact noEncap)
  have kept (r : Client) (other : r ∉ [Client.ifNode intf.ifindex, .ethDecap intf.ifindex, .ethEncap intf.ifindex]) :
      v₃.client r.name = v.client r.name := by
    simp only [List.mem_cons, List.not_mem_nil, or_false, not_or] at other
    rw [clients₃, if_neg (by simpa [Node.kind, ethEncapNew] using other.2.2), clients₂,
      if_neg (by simpa [Node.kind, ethDecapNew] using other.2.1), clients₁,
      if_neg (by simpa [Node.kind, pinned] using other.1)]
  refine ⟨v₃, ?_, coherent₃, ?_, ?_, fun i name' known => ?_, fun i unknown => ?_⟩
  · simp only [List.foldlM_cons, List.foldlM_nil]
    change ((Msg.gnodeAdd (.ifNode (pinned owner intf)) (ifNodeInit intf.ifindex)).apply v).bind _ = _
    rw [first]
    change ((Msg.gnodeAdd (.ethDecap (ethDecapNew intf)) (ethDecapInit intf.ifindex)).apply v₁).bind _ = _
    rw [second]
    change ((Msg.gnodeAdd (.ethEncap (ethEncapNew intf)) (ethEncapInit intf.ifindex)).apply v₂).bind _ = _
    rw [third]
    rfl
  · exact (kept _ (by simp)).trans matched.parse
  · rw [ipv4]
    exact (kept _ (by simp)).trans matched.fwd
  · by_cases same : i = intf.ifindex
    · subst same
      rw [added, Function.update_self] at known
      cases known
      refine ⟨owner, intf, zeroIp, 0, inside, by rw [listed, Function.update_self], rfl, ?_⟩
      rw [← unset]
      refine ⟨?_, ?_, ?_⟩
      · rw [clients₃, if_neg (by simp [Node.kind]), clients₂, if_neg (by simp [Node.kind])]
        exact (clients₁ _).trans (if_pos rfl)
      · rw [clients₃, if_neg (by simp [Node.kind])]
        exact (clients₂ _).trans (if_pos rfl)
      · exact (clients₃ _).trans (if_pos rfl)
    · rw [added, Function.update_of_ne same] at known
      obtain ⟨owner', intf', addr', masklen', inside', listed', rfl, port⟩ := matched.known i name' known
      have other : (setV4addr intf' addr' masklen').ifindex ≠ intf.ifindex := same
      have apart : name' ≠ name := by
        rintro rfl
        rw [unused] at listed'
        cases listed'
      exact ⟨owner', intf', addr', masklen', inside', by rw [listed, Function.update_of_ne apart, listed'], rfl,
        (kept _ (by simp [other])).trans port.rxTx, (kept _ (by simp [other])).trans port.decap,
        (kept _ (by simp [other])).trans port.encap⟩
  · have other : i ≠ intf.ifindex := by
      rintro rfl
      rw [added, Function.update_self] at unknown
      cases unknown
    rw [added, Function.update_of_ne other] at unknown
    obtain ⟨rxTx, decap, encap⟩ := matched.unknown i unknown
    exact ⟨(kept _ (by simp [other])).trans rxTx, (kept _ (by simp [other])).trans decap,
      (kept _ (by simp [other])).trans encap⟩

end Matches

end R2.Fleet
