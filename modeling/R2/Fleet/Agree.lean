import R2.Fleet.Macs

namespace R2.Fleet

open Control

variable {n : Nat} {T σ : Type}

section Owners

variable {f : Forwarder T σ} {v v' : Graph (Node T) Packet} {msg : Msg T} {t i : Nat} {owner : Option Nat}

/-- The interface node of interface `i` is tied to this thread. -/
def Pinned (i : Nat) (owner : Option Nat) (v : Graph (Node T) Packet) : Prop :=
  ∃ node : IfNode, v.client (Client.ifNode i).name = some (.ifNode node) ∧ node.affinity = owner

theorem Node.accept_pinned {node : IfNode} {d : Node T} (accepted : (ifNode node).accept msg = some d) :
    ∃ node', d = ifNode node' ∧ node'.affinity = node.affinity := by
  cases msg with
  | modifyInterface intf => exact ⟨_, (Option.some.inj accepted).symm, rfl⟩
  | classAdd c => exact ⟨_, (Option.some.inj accepted).symm, rfl⟩
  | _ => cases accepted

theorem Pinned.apply (pinned : Pinned i owner v) (coherent : Coherent v) (applied : msg.apply v = some v') :
    Pinned i owner v' := by
  obtain ⟨node, found, tied⟩ := pinned
  have told (known : msg.recipients ≠ []) : Pinned i owner v' := by
    obtain ⟨_, taken, others⟩ := coherent.apply_known applied known
    by_cases member : Client.ifNode i ∈ msg.recipients
    · obtain ⟨c, d, before, accepted, after⟩ := taken _ member
      cases Option.some.inj (found.symm.trans before)
      obtain ⟨node', rfl, same⟩ := Node.accept_pinned accepted
      exact ⟨node', after, same.trans tied⟩
    · have other : ∀ r ∈ msg.recipients, (Client.ifNode i).name ≠ r.name := fun r here clash =>
        member (Client.name_injective clash ▸ here)
      exact ⟨node, (others _ other).trans found, tied⟩
  cases msg with
  | gnodeAdd new init =>
    unfold Msg.apply at applied
    dsimp only at applied
    split at applied
    · rename_i fits
      cases Option.some.inj applied
      refine ⟨node, ?_, tied⟩
      rw [Graph.client_finalize, coherent.indexed.client_add new fits.2.1, found]
      split <;> rfl
    · cases applied
  | epollAdd fd thread =>
    cases Option.some.inj applied
    exact ⟨node, found, tied⟩
  | ipv4TableAdd => exact told (List.cons_ne_nil _ _)
  | modifyInterface => exact told (List.cons_ne_nil _ _)
  | ethMacAdd => exact told (List.cons_ne_nil _ _)
  | classAdd => exact told (List.cons_ne_nil _ _)

/-- Whether a thread owns an interface can be told from what it shares. -/
theorem Forwarder.owns_iff (sound : f.Sound t) : f.Owns i ↔ Pinned i (some t) f.shared := by
  constructor
  · rintro ⟨node, found, own⟩
    have tied := (IfNode.ownerThread_iff (sound.nodes _ _ found)).mp (sound.place ▸ own)
    exact ⟨node.clone, by rw [Forwarder.client_shared]; exact congrArg _ found, tied⟩
  · rintro ⟨node, cloned, tied⟩
    rw [Forwarder.client_shared] at cloned
    obtain ⟨c, found, same⟩ := Option.map_eq_some_iff.mp cloned
    cases c with
    | ifNode node' =>
      cases same
      exact ⟨node', found, by rw [sound.place]; exact (IfNode.ownerThread_iff (sound.nodes _ _ found)).mpr tied⟩
    | _ => cases same

variable [IpLookupTable T] [PacketPool σ] {fleet fleet' : Fleet n T σ} {goal : Graph (Node T) Packet}

omit [IpLookupTable T] [PacketPool σ] in
/-- The threads that own an interface are tied to it in the end. -/
theorem Inv.pinned (inv : Inv fleet goal) {t : Fin n} (owns : (fleet.thread t).Owns i) : Pinned i (some t) goal :=
  (inv.heads.keeps (P := fun v => Coherent v ∧ Pinned i (some t.val) v) t
    (fun _ _ _ ⟨coherent, pinned⟩ applied => ⟨coherent.apply applied, pinned.apply coherent applied⟩)
    ⟨inv.coherent t, (Forwarder.owns_iff (inv.sound t)).mp owns⟩).2

omit [IpLookupTable T] [PacketPool σ] in
/-- No interface has two owners. -/
theorem Inv.owner_unique (inv : Inv fleet goal) {t u : Fin n} (owns : (fleet.thread t).Owns i)
    (owns' : (fleet.thread u).Owns i) : t = u := by
  obtain ⟨node, found, tied⟩ := inv.pinned owns
  obtain ⟨node', found', tied'⟩ := inv.pinned owns'
  cases Option.some.inj (found.symm.trans found')
  exact Fin.ext (Option.some.inj (tied.symm.trans tied'))

end Owners

section Spread

/-- The nodes at the two ends of the interface that an address belongs to. -/
def ends (m : EthMacAddMsg) : List Client := [.ethDecap m.ifindex, .ethEncap m.ifindex]

theorem ends_ifindex {m m' : EthMacAddMsg} {r : Client} (here : r ∈ ends m) (there : r ∈ ends m') :
    m.ifindex = m'.ifindex := by
  simp only [ends, List.mem_cons, List.not_mem_nil, or_false] at here there
  rcases here with rfl | rfl <;> simpa using there

/-- Thread `t` has learned the address at both ends. -/
def Knows (fleet : Fleet n T σ) (t : Fin n) (m : EthMacAddMsg) : Prop :=
  ∀ r ∈ ends m, (fleet.thread t).macs r m.ip = some m.mac

/-- Where an address can be met. -/
inductive Met (fleet : Fleet n T σ) (m : EthMacAddMsg) : Prop
  | reported : m ∈ fleet.reports → Met fleet m
  | sent (t : Fin n) : .ethMacAdd m ∈ fleet.inbox t → Met fleet m
  | known (t : Fin n) (r : Client) : r ∈ ends m → (fleet.thread t).macs r m.ip = some m.mac → Met fleet m

/-- The thread that owns the interface has heard the address. -/
def Heard (fleet : Fleet n T σ) (t : Fin n) (m : EthMacAddMsg) : Prop :=
  (fleet.thread t).Owns m.ifindex ∧ (fleet.thread t).macs (.ethDecap m.ifindex) m.ip = some m.mac

theorem Heard.met {fleet : Fleet n T σ} {t : Fin n} {m : EthMacAddMsg} (heard : Heard fleet t m) : Met fleet m :=
  .known t _ (List.mem_cons_self ..) heard.2

/-- An address comes from the thread that owns the interface, and what that thread
has heard is on its way to every other. -/
structure Spread (fleet : Fleet n T σ) : Prop where
  origin : ∀ m, Met fleet m → m.mac.bytes.length = ethAlen ∧ ∃ t, Heard fleet t m
  spread : ∀ t m, Heard fleet t m → m ∈ fleet.reports ∨ ∀ u, .ethMacAdd m ∈ fleet.inbox u ∨ Knows fleet u m

variable {fleet fleet' : Fleet n T σ} {goal : Graph (Node T) Packet}

/-- Two addresses that are met for one next hop are the same. -/
theorem Spread.agrees (spread : Spread fleet) (inv : Inv fleet goal) {m m' : EthMacAddMsg} (met : Met fleet m)
    (met' : Met fleet m') (ifindex : m.ifindex = m'.ifindex) (ip : m.ip = m'.ip) : m.mac = m'.mac := by
  obtain ⟨_, t, owns, known⟩ := spread.origin m met
  obtain ⟨_, u, owns', known'⟩ := spread.origin m' met'
  rw [← ifindex] at owns' known'
  cases inv.owner_unique owns owns'
  rw [← ip, known] at known'
  exact Option.some.inj known'

/-- Nothing is forgotten, what is new is reported, and what was under way still is
or has arrived. -/
theorem Spread.grow (spread : Spread fleet) (inv' : Inv fleet' goal)
    (heard : ∀ t m, Heard fleet t m → Heard fleet' t m) (knows : ∀ t m, Knows fleet t m → Knows fleet' t m)
    (new : ∀ m, Met fleet' m →
      Met fleet m ∨ m ∈ fleet'.reports ∧ m.mac.bytes.length = ethAlen ∧ ∃ t, Heard fleet' t m)
    (reports : ∀ m ∈ fleet.reports, m ∈ fleet'.reports ∨ ∀ t, .ethMacAdd m ∈ fleet'.inbox t)
    (inbox : ∀ t m, .ethMacAdd m ∈ fleet.inbox t → .ethMacAdd m ∈ fleet'.inbox t ∨ Knows fleet' t m) :
    Spread fleet' where
  origin m met := by
    rcases new m met with old | ⟨_, whole, source⟩
    · obtain ⟨whole, t, before⟩ := spread.origin m old
      exact ⟨whole, t, heard t m before⟩
    · exact ⟨whole, source⟩
  spread t m here := by
    rcases new m here.met with old | ⟨reported, _⟩
    · obtain ⟨_, u, before⟩ := spread.origin m old
      cases inv'.owner_unique here.1 (heard u m before).1
      rcases spread.spread t m before with member | all
      · exact (reports m member).imp_right fun sent u => Or.inl (sent u)
      · exact Or.inr fun u => (all u).elim (inbox u m) fun known => Or.inr (knows u m known)
    · exact Or.inl reported

/-- The threads are as they were, and no addresses come or go. -/
theorem Spread.of_eq (spread : Spread fleet) (inv' : Inv fleet' goal) (threads : fleet'.thread = fleet.thread)
    (reports : fleet'.reports = fleet.reports)
    (inbox : ∀ t m, .ethMacAdd m ∈ fleet'.inbox t ↔ .ethMacAdd m ∈ fleet.inbox t) : Spread fleet' := by
  refine spread.grow inv' (fun t m heard => ?_) (fun t m knows => ?_) (fun m met => Or.inl ?_)
    (fun m member => Or.inl (reports ▸ member)) (fun t m member => Or.inl ((inbox t m).mpr member))
  · unfold Heard
    rw [threads]
    exact heard
  · unfold Knows
    rw [threads]
    exact knows
  · cases met with
    | reported member => exact .reported (reports ▸ member)
    | sent t member => exact .sent t ((inbox t m).mp member)
    | known t r member known => exact .known t r member (threads ▸ known)

theorem Spread.report {report : EthMacAddMsg} {reports : List EthMacAddMsg} (spread : Spread fleet)
    (free : fleet.locked = []) (head : fleet.reports = report :: reports)
    (inv' : Inv { fleet with locked := broadcast (.ethMacAdd report), reports } goal) :
    Spread { fleet with locked := broadcast (.ethMacAdd report), reports } := by
  have inbox (t : Fin n) (m : EthMacAddMsg) :
      .ethMacAdd m ∈ Fleet.inbox { fleet with locked := broadcast (.ethMacAdd report), reports } t ↔
        .ethMacAdd m ∈ fleet.inbox t ∨ m = report := by
    have before : fleet.inbox t = fleet.channel t ++ sentTo t fleet.later.flatten := by
      rw [Fleet.inbox, free, List.nil_append]
    change .ethMacAdd m ∈ fleet.channel t ++ sentTo t (broadcast (.ethMacAdd report) ++ fleet.later.flatten) ↔ _
    rw [sentTo_append, sentTo_broadcast, before]
    simp only [List.mem_append, List.mem_singleton, Msg.clone, Msg.ethMacAdd.injEq]
    exact ⟨fun member => by tauto, fun member => by tauto⟩
  have split (m : EthMacAddMsg) : m ∈ fleet.reports ↔ m = report ∨ m ∈ reports := by rw [head, List.mem_cons]
  refine spread.grow inv' (fun _ _ heard => heard) (fun _ _ knows => knows) (fun m met => Or.inl ?_)
    (fun m member => ?_) (fun t m member => Or.inl ((inbox t m).mpr (Or.inl member)))
  · cases met with
    | reported member => exact .reported ((split m).mpr (Or.inr member))
    | sent t member =>
      rcases (inbox t m).mp member with old | rfl
      · exact .sent t old
      · exact .reported ((split m).mpr (Or.inl rfl))
    | known t r member known => exact .known t r member known
  · rcases (split m).mp member with rfl | member
    · exact Or.inr fun t => (inbox t m).mpr (Or.inr rfl)
    · exact Or.inl member

end Spread

section Receive

variable {f f' : Forwarder T σ} {t : Nat} {msg : Msg T} {v : Graph (Node T) Packet} {r : Client} {ip : Ipv4Addr}
variable {raw : EthMacRaw}

/-- A message makes a thread forget nothing. -/
theorem Forwarder.receive_keeps (macs : ∀ s, f'.macs s = if s ∈ msg.recipients then msg.teach (f.macs s) else f.macs s)
    (known : f.macs r ip = some raw) : f'.macs r ip = some raw := by
  rw [macs]
  split
  · exact Msg.teach_known msg known
  · exact known

/-- It learns what the message has to teach at most. -/
theorem Forwarder.receive_learns (macs : ∀ s, f'.macs s = if s ∈ msg.recipients then msg.teach (f.macs s) else f.macs s)
    {m : EthMacAddMsg} (member : r ∈ ends m) (known : f'.macs r m.ip = some m.mac) :
    f.macs r m.ip = some m.mac ∨ msg = .ethMacAdd m := by
  rw [macs] at known
  split at known
  · rename_i recipient
    refine (Msg.teach_some known).imp_right fun ⟨m', same, ip, raw⟩ => ?_
    subst same
    have ifindex := ends_ifindex recipient member
    obtain ⟨index', ip', raw'⟩ := m'
    cases ifindex
    cases ip
    cases raw
    rfl
  · exact Or.inl known

variable {fleet : Fleet n T σ} {goal : Graph (Node T) Packet}

/-- A thread that takes a message makes nobody forget. -/
theorem Inv.receive_keeps {t : Fin n} {rest : List (Msg T)} (inv : Inv fleet goal)
    (head : fleet.channel t = msg :: rest) (run : (fleet.thread t).receive msg = .ok f) (u : Fin n)
    (known : (fleet.thread u).macs r ip = some raw) : (Function.update fleet.thread t f u).macs r ip = some raw := by
  obtain ⟨v, applied, _⟩ := inv.receive head
  have own := inv.inbox t msg (by rw [(Fleet.inbox_receive head f).1]; exact List.mem_cons_self ..)
  by_cases same : u = t
  · subst same
    rw [Function.update_self]
    exact Forwarder.receive_keeps ((Forwarder.receive_macs (inv.sound u) own applied).ok run) known
  · rw [Function.update_of_ne same]
    exact known

/-- A thread takes a message. -/
theorem Spread.receive {t : Fin n} {rest : List (Msg T)} (spread : Spread fleet)
    (inv : Inv fleet goal) (head : fleet.channel t = msg :: rest) (run : (fleet.thread t).receive msg = .ok f)
    (inv' : Inv { fleet with
      thread := Function.update fleet.thread t f, channel := Function.update fleet.channel t rest } goal) :
    Spread { fleet with
      thread := Function.update fleet.thread t f, channel := Function.update fleet.channel t rest } := by
  obtain ⟨v, applied, taken⟩ := inv.receive head
  obtain ⟨rfl, sound⟩ := taken.ok run
  obtain ⟨inbox, after⟩ := Fleet.inbox_receive head f
  have own := inv.inbox t msg (by rw [inbox]; exact List.mem_cons_self ..)
  have macs := (Forwarder.receive_macs (inv.sound t) own applied).ok run
  have keeps (u : Fin n) {r : Client} {ip : Ipv4Addr} {raw : EthMacRaw} :=
    @Inv.receive_keeps _ _ _ _ _ r ip raw _ _ _ _ inv head run u
  have owner (u : Fin n) {i : Nat} (owns : (fleet.thread u).Owns i) : (Function.update fleet.thread t f u).Owns i := by
    by_cases same : u = t
    · subst same
      rw [Function.update_self]
      exact (Forwarder.owns_iff sound).mpr
        (((Forwarder.owns_iff (inv.sound u)).mp owns).apply (inv.coherent u) applied)
    · rw [Function.update_of_ne same]
      exact owns
  refine spread.grow inv' (fun u m heard => ⟨owner u heard.1, keeps u heard.2⟩)
    (fun u m knows r member => keeps u (knows r member)) (fun m met => Or.inl ?_) (fun _ => Or.inl)
    fun u m member => ?_
  · cases met with
    | reported member => exact .reported member
    | sent u member =>
      rw [after] at member
      by_cases same : u = t
      · subst same
        rw [Function.update_self] at member
        exact .sent u (by rw [inbox]; exact List.mem_cons_of_mem _ member)
      · rw [Function.update_of_ne same] at member
        exact .sent u member
    | known u r member known =>
      change (Function.update fleet.thread t f u).macs _ _ = _ at known
      by_cases same : u = t
      · subst same
        rw [Function.update_self] at known
        rcases Forwarder.receive_learns macs member known with old | rfl
        · exact .known u r member old
        · exact .sent u (by rw [inbox]; exact List.mem_cons_self ..)
      · rw [Function.update_of_ne same] at known
        exact .known u r member known
  · rw [after]
    by_cases same : u = t
    · subst same
      rw [Function.update_self]
      have met := Met.sent u member
      rw [inbox, List.mem_cons] at member
      rcases member with rfl | later
      · refine Or.inr fun r here => ?_
        change (Function.update fleet.thread u f u).macs _ _ = _
        rw [Function.update_self, macs, if_pos (show r ∈ (Msg.ethMacAdd m : Msg T).recipients from here)]
        exact Msg.teach_self (spread.origin m met).1 fun raw known =>
          spread.agrees inv (.known (m := ⟨m.ifindex, m.ip, raw⟩) u r here known) met rfl rfl
      · exact Or.inl later
    · rw [Function.update_of_ne same]
      exact Or.inl member

end Receive

section Frame

variable [IpLookupTable T] [PacketPool σ] {fleet fleet' : Fleet n T σ} {goal goal' : Graph (Node T) Packet}

/-- A frame makes the owner of the interface learn, and it reports what is new. -/
theorem Spread.frame {t : Fin n} {i : Nat} {path path' : Path T σ} {frame : List UInt8} (spread : Spread fleet)
    (inv : Inv fleet goal) (owns : (fleet.thread t).Owns i) (found : (fleet.thread t).path i = some path)
    (run : path.receive frame = .ok path')
    (inv' : Inv { fleet with
      thread := Function.update fleet.thread t ((fleet.thread t).put i path')
      reports := fleet.reports ++ learned path'.decap.sender.sent } goal') :
    Spread { fleet with
      thread := Function.update fleet.thread t ((fleet.thread t).put i path')
      reports := fleet.reports ++ learned path'.decap.sender.sent } := by
  have sound := inv.sound t
  obtain ⟨node, _, _, atDecap, _, _⟩ := Forwarder.path_some found
  have sender : path.decap.sender = ⟨true, []⟩ := sound.nodes _ _ atDecap
  have ifindex := Forwarder.decap_ifindex (inv.coherent t) atDecap
  obtain ⟨news, learns⟩ := Path.receive_learns (by rw [sender]) run
  obtain ⟨shared, sound'⟩ := Forwarder.put_shared sound found learns
  have told : learned path'.decap.sender.sent = news := by
    rw [learns.decap.sender, sender, List.nil_append, learned_map]
  have before : (fleet.thread t).macs (.ethDecap i) = path.decap.mac := Forwarder.macs_known atDecap
  have macs := @Forwarder.put_macs T σ (fleet.thread t) t i path path' sound found
  have keeps (u : Fin n) {r : Client} {ip : Ipv4Addr} {raw : EthMacRaw}
      (known : (fleet.thread u).macs r ip = some raw) :
      (Function.update fleet.thread t ((fleet.thread t).put i path') u).macs r ip = some raw := by
    by_cases same : u = t
    · subst same
      rw [Function.update_self, macs]
      split
      · rename_i here
        exact (learns.decap.mac ip raw).mpr (Or.inl (by rw [← before, ← here]; exact known))
      · exact known
    · rw [Function.update_of_ne same]
      exact known
  have owner (u : Fin n) {j : Nat} (owned : (fleet.thread u).Owns j) :
      (Function.update fleet.thread t ((fleet.thread t).put i path') u).Owns j := by
    by_cases same : u = t
    · subst same
      rw [Function.update_self, Forwarder.owns_iff sound', shared]
      exact (Forwarder.owns_iff sound).mp owned
    · rw [Function.update_of_ne same]
      exact owned
  have fresh (m : EthMacAddMsg) (member : m ∈ news) : m ∈ fleet.reports ++ learned path'.decap.sender.sent ∧
      m.mac.bytes.length = ethAlen ∧ ∃ t', Heard { fleet with
        thread := Function.update fleet.thread t ((fleet.thread t).put i path')
        reports := fleet.reports ++ learned path'.decap.sender.sent } t' m := by
    obtain ⟨index, whole⟩ := learns.decap.news m member
    refine ⟨List.mem_append_right _ (told ▸ member), whole, t, ?_, ?_⟩
    · rw [index, ifindex]
      exact owner t owns
    · change (Function.update fleet.thread t _ t).macs _ _ = _
      rw [Function.update_self, macs, if_pos (by rw [index, ifindex])]
      refine (learns.decap.mac m.ip m.mac).mpr (Or.inr ?_)
      rw [← index]
      exact member
  refine spread.grow inv' (fun u m heard => ⟨owner u heard.1, keeps u heard.2⟩)
    (fun u m knows r member => keeps u (knows r member)) (fun m met => ?_)
    (fun m member => Or.inl (List.mem_append_left _ member)) (fun _ _ => Or.inl)
  cases met with
  | reported member =>
    rcases List.mem_append.mp member with old | new
    · exact Or.inl (.reported old)
    · exact Or.inr (fresh m (told ▸ new))
  | sent u member => exact Or.inl (.sent u member)
  | known u r member known =>
    change (Function.update fleet.thread t ((fleet.thread t).put i path') u).macs _ _ = _ at known
    by_cases same : u = t
    · subst same
      rw [Function.update_self, macs] at known
      split at known
      · rename_i here
        rcases (learns.decap.mac m.ip m.mac).mp known with old | new
        · exact Or.inl (.known u r member (by rw [here, before]; exact old))
        · refine Or.inr (fresh m ?_)
          subst here
          have index := @ends_ifindex _ ⟨i, m.ip, m.mac⟩ _ member (List.mem_cons_self ..)
          rw [ifindex] at new
          change m.ifindex = i at index
          rw [← index] at new
          exact new
      · exact Or.inl (.known u r member known)
    · rw [Function.update_of_ne same] at known
      exact Or.inl (.known u r member known)

end Frame

section Reached

variable [IpLookupTable T] [PacketPool σ] {fleet fleet' : Fleet n T σ} {goal goal' : Graph (Node T) Packet}

omit [PacketPool σ] in
/-- The calls send no addresses of neighbours. -/
theorem Called.no_macs {r2 r2' : Ctx T} {sections : List (List (Action n T))} (called : Called r2 r2' sections)
    (t : Fin n) (m : EthMacAddMsg) : .ethMacAdd m ∉ sentTo t sections.flatten := by
  have routes {r2 r2' : Ctx T} {actions : List (Action n T)} {ip : Ipv4Addr} {masklen ifindex : Nat}
      {nhop : Ipv4Addr} {add : Bool} (run : addOrDelRoute r2 ip masklen nhop ifindex add = (r2', actions)) :
      .ethMacAdd m ∉ sentTo t actions := by
    cases run
    rw [sentTo_append, sentTo_broadcast]
    simp [sentTo, Msg.clone]
  cases called with
  | addIf owner =>
    simp only [List.flatten_cons, List.flatten_nil, sentTo_append, sentTo_broadcast, createEthNodes,
      sentTo_sends ((List.nodup_finRange n).filter _), List.mem_append, not_or]
    refine ⟨⟨⟨⟨by simp [Msg.clone], ?_⟩, ?_⟩, by simp [Msg.clone], by simp [Msg.clone]⟩, by simp [sentTo]⟩
    · split <;> simp [Msg.clone]
    · unfold sentTo
      split <;> simp [sentTo]
  | addIp =>
    simp only [List.flatten_cons, List.flatten_nil, sentTo_append, sentTo_broadcast, List.mem_append, not_or]
    exact ⟨by simp [Msg.clone], routes rfl, by simp [sentTo]⟩
  | changeIp _ _ run =>
    simp only [List.flatten_cons, List.flatten_nil, sentTo_append, sentTo_broadcast, List.mem_append, not_or]
    exact ⟨by simp [Msg.clone], ⟨routes run, routes rfl⟩, by simp [sentTo]⟩
  | addClass =>
    simp only [List.flatten_cons, List.flatten_nil, sentTo_append, sentTo_broadcast, List.mem_append, not_or]
    exact ⟨by simp [Msg.clone], by simp [sentTo]⟩
  | route =>
    simp only [List.flatten_cons, List.flatten_nil, sentTo_append, List.mem_append, not_or]
    exact ⟨routes rfl, by simp [sentTo]⟩

omit [PacketPool σ] in
theorem Spread.start (pool : Fin n → σ) : Spread (start pool : Fleet n T σ) := by
  have unmet (m : EthMacAddMsg) : ¬Met (Fleet.start pool : Fleet n T σ) m := by
    intro met
    cases met with
    | reported member => exact List.not_mem_nil member
    | sent t member => exact List.not_mem_nil member
    | known t r member known =>
      have none : (launch (Ctx.new n : Ctx T) (pool t) t).shared.client r.name = none := by
        rw [launch_shared, Graph.client_clone, (createNodes_clients _).2]
        simp only [ends, List.mem_cons, List.not_mem_nil, or_false] at member
        rcases member with rfl | rfl <;> rfl
      rw [Forwarder.client_shared, Option.map_eq_none_iff] at none
      change (launch (Ctx.new n) (pool t) t).macs r m.ip = _ at known
      rw [Forwarder.macs, none] at known
      cases known
  exact ⟨fun m met => absurd met (unmet m), fun t m heard => absurd heard.met (unmet m)⟩

omit [IpLookupTable T] [PacketPool σ] in
theorem Spread.turn (spread : Spread fleet) (inv : Inv fleet goal) (turn : Turn fleet fleet') : Spread fleet' := by
  have inv' := inv.turn turn
  cases turn with
  | lock free next =>
    refine spread.of_eq inv' rfl rfl fun t m => ?_
    rw [Fleet.inbox_lock free next]
  | report free head => exact spread.report free head inv'
  | send head =>
    refine spread.of_eq inv' rfl rfl fun t m => ?_
    rw [Fleet.inbox_send head]
  | await head released =>
    refine spread.of_eq inv' rfl rfl fun t m => ?_
    rw [Fleet.inbox_await head]
  | receive head run => exact spread.receive inv head run inv'

omit [IpLookupTable T] [PacketPool σ] in
theorem Inv.turn_keeps (inv : Inv fleet goal) (turn : Turn fleet fleet') {t : Fin n} {r : Client} {ip : Ipv4Addr}
    {raw : EthMacRaw} (known : (fleet.thread t).macs r ip = some raw) : (fleet'.thread t).macs r ip = some raw := by
  cases turn with
  | receive head run => exact inv.receive_keeps head run t known
  | _ => exact known

/-- Every step keeps it. -/
theorem Spread.step (spread : Spread fleet) (inv : Inv fleet goal) (step : Step fleet fleet')
    (inv' : Inv fleet' goal') : Spread fleet' := by
  cases step with
  | @call c r2 locked later free idle run =>
    refine spread.of_eq inv' rfl rfl fun t m => ?_
    rcases handle_cases (n := n) inv.tidy c with ⟨_, _, _, refused⟩ | ⟨_, sections, done, called⟩
    · rw [refused] at run
      cases run
    · cases (Except.ok.inj (done.symm.trans run) : (_, Except.ok sections) = _)
      have none := called.no_macs t m
      rw [List.flatten_cons] at none
      have before : fleet.inbox t = fleet.channel t := by
        rw [Fleet.inbox, free, idle]
        exact List.append_nil _
      rw [before]
      change _ ∈ fleet.channel t ++ _ ↔ _
      rw [List.mem_append, or_iff_left none]
  | refused free idle run => exact spread.of_eq inv' rfl rfl fun _ _ => Iff.rfl
  | frame owns found run => exact spread.frame inv owns found run inv'
  | turn turn => exact spread.turn inv turn

end Reached

end R2.Fleet
