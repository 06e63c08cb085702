import R2.Fleet.Goal

namespace R2.Fleet

open Control

variable {n : Nat} {T : Type}

/-- What the control threads rely on in their own context. -/
structure Tidy (n : Nat) (r2 : Ctx T) : Prop where
  nthreads : r2.nthreads = n
  lastThread : r2.ifd.lastThread < n
  interfaces : ∀ name intf, r2.ifd.interfaces name = some intf →
    r2.ifd.name2idx name = some intf.ifindex ∧ r2.ifd.idx2name intf.ifindex = some name

theorem Tidy.next {r2 : Ctx T} (tidy : Tidy n r2) (thread : Nat) :
    Tidy n { r2 with ifd := { r2.ifd with lastThread := (thread + 1) % r2.nthreads } } :=
  ⟨tidy.nthreads, tidy.nthreads ▸ Nat.mod_lt _ (tidy.nthreads ▸ Nat.zero_lt_of_lt tidy.lastThread), tidy.interfaces⟩

section Tells

/-- The actions send every thread messages that say this. -/
def Tells (actions : List (Action n T)) (common : List (Msg T)) : Prop :=
  ∀ t, (sentTo t actions).map Msg.clone = common ∧ ∀ msg ∈ sentTo t actions, msg.Sound t

theorem sentTo_append (t : Fin n) (xs ys : List (Action n T)) : sentTo t (xs ++ ys) = sentTo t xs ++ sentTo t ys := by
  induction xs with
  | nil => rfl
  | cons action xs ih =>
    cases action with
    | await table => exact ih
    | send u msg =>
      by_cases same : u = t
      · simp only [List.cons_append, sentTo, if_pos same, ih]
      · simp only [List.cons_append, sentTo, if_neg same, ih]

theorem sentTo_sends {threads : List (Fin n)} (distinct : threads.Nodup) (t : Fin n) (msg : Msg T) :
    sentTo t (threads.map fun u => .send u msg) = if t ∈ threads then [msg] else [] := by
  induction threads with
  | nil => rfl
  | cons u rest ih =>
    obtain ⟨apart, distinct⟩ := List.nodup_cons.mp distinct
    have rest' := ih distinct
    rw [List.map_cons, sentTo, rest']
    by_cases same : u = t
    · subst same
      rw [if_pos rfl, if_neg apart, if_pos (List.mem_cons_self ..)]
    · simp only [if_neg same, List.mem_cons, Ne.symm same, false_or]

theorem Tells.append {xs ys : List (Action n T)} {common more : List (Msg T)} (first : Tells xs common)
    (second : Tells ys more) : Tells (xs ++ ys) (common ++ more) := by
  intro t
  rw [sentTo_append, List.map_append, (first t).1, (second t).1]
  refine ⟨rfl, fun msg member => ?_⟩
  rcases List.mem_append.mp member with here | there
  · exact (first t).2 msg here
  · exact (second t).2 msg there

theorem sentTo_broadcast (t : Fin n) (msg : Msg T) : sentTo t (broadcast msg) = [msg.clone] := by
  rw [broadcast, sentTo_sends (List.nodup_finRange n), if_pos (List.mem_finRange t)]

/-- A broadcast told the same to everybody. -/
theorem Tells.broadcast {msg : Msg T} (sound : ∀ t : Fin n, msg.clone.Sound t) :
    Tells (broadcast msg : List (Action n T)) [msg.clone] := by
  intro t
  rw [sentTo_broadcast]
  refine ⟨congrArg (fun msg => [msg]) msg.clone_clone, fun msg' member => ?_⟩
  rw [List.mem_singleton.mp member]
  exact sound t

theorem Tells.await (table : V4Table) : Tells ([.await table] : List (Action n T)) [] :=
  fun _ => ⟨rfl, fun _ member => absurd member List.not_mem_nil⟩

/-- The owner of an interface gets the driver and the others get clones. -/
theorem Tells.unicasts (owner : Fin n) (intf : Interface) (fd : Int) (init : GnodeInit) :
    Tells ((((List.finRange n).filter (· ≠ owner)).map fun t =>
        .send t (Msg.clone (.gnodeAdd (.ifNode (IfNode.new (some owner) intf fd)) init))) ++
      [.send owner (.gnodeAdd (.ifNode (IfNode.new (some owner) intf fd)) init)])
      [(.gnodeAdd (.ifNode (pinned owner intf)) (cloneInit init) : Msg T)] := by
  intro t
  rw [sentTo_append, sentTo_sends ((List.nodup_finRange n).filter _)]
  by_cases same : t = owner
  · subst same
    rw [if_neg (by simp), List.nil_append, sentTo, if_pos rfl]
    refine ⟨rfl, fun msg member => ?_⟩
    rw [List.mem_singleton.mp member]
    exact ⟨⟨rfl, newSched_sound, newSched_idle, newSched_rooted, fun _ => rfl, fun elsewhere => absurd rfl elsewhere⟩,
      trivial⟩
  · rw [if_pos (by simp [same]), sentTo, if_neg (Ne.symm same)]
    refine ⟨rfl, fun msg member => ?_⟩
    rw [List.mem_singleton.mp member]
    refine ⟨⟨rfl, newSched_sound, newSched_idle, newSched_rooted, fun own => ?_, fun _ => rfl⟩, trivial⟩
    exact absurd (Fin.ext (Option.some.inj own)).symm same

end Tells

section Called

variable {r2 r2' : Ctx T} {v : Graph (Node T) Packet}

/-- What a call that returns has found, and what it does. -/
inductive Called [IpLookupTable T] (r2 : Ctx T) : Ctx T → List (List (Action n T)) → Prop
  | addIf {name : String} {ifindex : Nat} {l2Addr : List UInt8} {fd : Int} (owner : Fin n) :
      owner.val = r2.ifd.lastThread → l2Addr.length = ethAlen → r2.ifd.name2idx name = none →
      r2.ifd.idx2name ifindex = none → Called r2
        { r2 with
          ifd := ({ r2.ifd with lastThread := (r2.ifd.lastThread + 1) % r2.nthreads } : IfdCtx).add name ifindex
            (newInterface name ifindex l2Addr maxHeadroom) }
        [broadcast (.epollAdd (some fd) owner) ++
          (((List.finRange n).filter (· ≠ owner)).map fun t => .send t (Msg.clone (.gnodeAdd
            (.ifNode (IfNode.new (some owner) (newInterface name ifindex l2Addr maxHeadroom) fd))
            (ifNodeInit ifindex)))) ++
          [.send owner (.gnodeAdd
            (.ifNode (IfNode.new (some owner) (newInterface name ifindex l2Addr maxHeadroom) fd))
            (ifNodeInit ifindex))] ++
          createEthNodes (newInterface name ifindex l2Addr maxHeadroom)]
  | addIp {ifname : String} {intf : Interface} {addr : Ipv4Addr} {masklen : Nat} :
      r2.ifd.interfaces ifname = some intf → intf.ipv4Addr = zeroIp →
      Called r2 (addOrDelRoute (n := n) r2 addr masklen zeroIp intf.ifindex true).1
        [broadcast (.modifyInterface (setV4addr intf addr masklen)),
          (addOrDelRoute r2 addr masklen zeroIp intf.ifindex true).2]
  | changeIp {ifname : String} {intf : Interface} {addr : Ipv4Addr} {masklen : Nat} {r2₁ deleted} :
      r2.ifd.interfaces ifname = some intf → intf.ipv4Addr ≠ zeroIp →
      addOrDelRoute r2 intf.ipv4Addr intf.maskLen zeroIp intf.ifindex false = (r2₁, deleted) →
      Called r2 (addOrDelRoute (n := n) r2₁ addr masklen zeroIp intf.ifindex true).1
        [broadcast (.modifyInterface (setV4addr intf addr masklen)),
          deleted ++ (addOrDelRoute r2₁ addr masklen zeroIp intf.ifindex true).2]
  | addClass {ifname : String} {intf : Interface} {c : ClassAddMsg} :
      r2.ifd.interfaces ifname = some intf → c.ifindex = intf.ifindex → Called r2 r2 [broadcast (.classAdd c)]
  | route {ip : Ipv4Addr} {masklen : Nat} {nhop : Ipv4Addr} {ifname : String} {intf : Interface} {add : Bool} :
      r2.ifd.interfaces ifname = some intf →
      Called r2 (addOrDelRoute (n := n) r2 ip masklen nhop intf.ifindex add).1
        [(addOrDelRoute r2 ip masklen nhop intf.ifindex add).2]

variable {sections : List (List (Action n T))} {text : String}

/-- The control threads find the thread for a new interface. -/
theorem handleAddIf_cases (tidy : Tidy n r2) [IpLookupTable T] (sock : Except Int Int) (name : String) (ifindex : Int)
    (mac : String) :
    (∃ thread text, thread < n ∧ handleAddIf (n := n) r2 sock name ifindex mac =
      .ok ({ r2 with ifd := { r2.ifd with lastThread := thread } }, .error text)) ∨
    ∃ r2' sections, handleAddIf (n := n) r2 sock name ifindex mac = .ok (r2', .ok sections) ∧
      Called r2 r2' sections := by
  unfold handleAddIf
  cases read : strToMac mac with
  | none => exact Or.inl ⟨r2.ifd.lastThread, _, tidy.lastThread, rfl⟩
  | some l2Addr =>
    dsimp only
    by_cases taken : (r2.ifd.name2idx name).isSome ∨ (r2.ifd.idx2name (toUsize ifindex)).isSome
    · rw [if_pos taken]
      exact Or.inl ⟨r2.ifd.lastThread, _, tidy.lastThread, rfl⟩
    · rw [if_neg taken]
      rw [not_or, Option.not_isSome_iff_eq_none, Option.not_isSome_iff_eq_none] at taken
      unfold createInterfaceNode
      rw [dif_pos tidy.lastThread]
      cases sock with
      | error errno => exact Or.inl ⟨_, _, (tidy.next r2.ifd.lastThread).lastThread, rfl⟩
      | ok fd =>
        exact Or.inr ⟨_, _, rfl, .addIf ⟨r2.ifd.lastThread, tidy.lastThread⟩ rfl (strToMac_length read) taken.1 taken.2⟩

theorem handleRoute_cases [IpLookupTable T] (r2 : Ctx T) (add : Bool) (ipMask nhop ifname : String) :
    (∃ text, handleRoute (n := n) r2 add ipMask nhop ifname = (r2, .error text)) ∨
    ∃ r2' sections, handleRoute (n := n) r2 add ipMask nhop ifname = (r2', .ok sections) ∧
      Called r2 r2' sections := by
  unfold handleRoute
  split
  · exact Or.inl ⟨_, rfl⟩
  · split
    · exact Or.inl ⟨_, rfl⟩
    · split
      · exact Or.inl ⟨_, rfl⟩
      · rename_i intf found
        exact Or.inr ⟨_, _, rfl, .route found⟩

theorem handleAddIp_cases [IpLookupTable T] (r2 : Ctx T) (ifname ipAndMask : String) :
    (∃ text, handleAddIp (n := n) r2 ifname ipAndMask = (r2, .error text)) ∨
    ∃ r2' sections, handleAddIp (n := n) r2 ifname ipAndMask = (r2', .ok sections) ∧ Called r2 r2' sections := by
  unfold handleAddIp
  split
  · exact Or.inl ⟨_, rfl⟩
  · rename_i intf found
    split
    · exact Or.inl ⟨_, rfl⟩
    · rename_i addr masklen _
      dsimp only [getV4addr]
      split
      · exact Or.inl ⟨_, rfl⟩
      · by_cases unset : intf.ipv4Addr = zeroIp
        · rw [if_neg (not_not_intro unset)]
          exact Or.inr ⟨_, _, rfl, .addIp found unset⟩
        · rw [if_pos unset]
          exact Or.inr ⟨_, _, rfl, .changeIp found unset rfl⟩

theorem handleAddClass_cases [IpLookupTable T] (r2 : Ctx T) (ifname name parent : String) (qlimit : Int)
    (isLeaf : Bool) (curves : CurvesApi) :
    (∃ text, handleAddClass (n := n) r2 ifname name parent qlimit isLeaf curves = (r2, .error text)) ∨
    ∃ r2' sections, handleAddClass (n := n) r2 ifname name parent qlimit isLeaf curves = (r2', .ok sections) ∧
      Called r2 r2' sections := by
  unfold handleAddClass
  split
  · exact Or.inl ⟨_, rfl⟩
  · rename_i intf found
    exact Or.inr ⟨_, _, rfl, .addClass found rfl⟩

/-- A call fails without a trace but for the next thread in turn, or it does what
`Called` told; it does not panic. -/
theorem handle_cases [IpLookupTable T] (tidy : Tidy n r2) (c : Call) :
    (∃ thread text, thread < n ∧
      handle (n := n) r2 c = .ok ({ r2 with ifd := { r2.ifd with lastThread := thread } }, .error text)) ∨
    ∃ r2' sections, handle (n := n) r2 c = .ok (r2', .ok sections) ∧ Called r2 r2' sections := by
  have lift {reply : Reply n T} (either : (∃ text, reply = (r2, .error text)) ∨
      ∃ r2' sections, reply = (r2', .ok sections) ∧ Called r2 r2' sections) :
      (∃ thread text, thread < n ∧ (.ok reply : Outcome (Reply n T)) =
        .ok ({ r2 with ifd := { r2.ifd with lastThread := thread } }, .error text)) ∨
      ∃ r2' sections, (.ok reply : Outcome (Reply n T)) = .ok (r2', .ok sections) ∧ Called r2 r2' sections := by
    rcases either with ⟨text, same⟩ | ⟨r2', sections, same, called⟩
    · exact Or.inl ⟨r2.ifd.lastThread, text, tidy.lastThread, congrArg Except.ok same⟩
    · exact Or.inr ⟨r2', sections, congrArg Except.ok same, called⟩
  cases c with
  | addIf sock name ifindex mac => exact handleAddIf_cases tidy sock name ifindex mac
  | addIp ifname ipAndMask => exact lift (handleAddIp_cases r2 ifname ipAndMask)
  | addClass ifname name parent qlimit isLeaf curves =>
    exact lift (handleAddClass_cases r2 ifname name parent qlimit isLeaf curves)
  | addRoute ipMask nhop ifname => exact lift (handleRoute_cases r2 true ipMask nhop ifname)
  | delRoute ipMask nhop ifname => exact lift (handleRoute_cases r2 false ipMask nhop ifname)

theorem apply_one (msg : Msg T) (v : Graph (Node T) Packet) :
    [msg].foldlM (fun v msg => msg.apply v) v = msg.apply v := by
  rw [List.foldlM_cons]
  change (msg.apply v).bind some = _
  cases msg.apply v <;> rfl

/-- These actions send routes only. -/
def OnlyRoutes (actions : List (Action n T)) : Prop :=
  ∀ t, ∀ msg ∈ sentTo t actions, ∃ which table, msg = .ipv4TableAdd which table

/-- What one change of the routes does. -/
theorem addOrDelRoute_spec [IpLookupTable T] (matched : Matches n r2 v) (ip : Ipv4Addr) (masklen : Nat)
    (nhop : Ipv4Addr) (ifindex : Nat) (add : Bool) {actions : List (Action n T)}
    (run : addOrDelRoute r2 ip masklen nhop ifindex add = (r2', actions)) :
    ∃ common v', Tells actions common ∧ OnlyRoutes actions ∧
      common.foldlM (fun v msg => msg.apply v) v = some v' ∧ Matches n r2' v' := by
  cases run
  obtain ⟨v', applied, matched'⟩ := @Matches.table T n r2
    (addOrDelRoute (n := n) r2 ip masklen nhop ifindex add).1 v matched rfl
  refine ⟨_, v', Tells.append (@Tells.broadcast n T (.ipv4TableAdd _ _) fun _ => trivial) (Tells.await _),
    fun t msg member => ?_, ?_, matched'⟩
  · rw [sentTo_append, sentTo_broadcast] at member
    exact ⟨_, _, List.mem_singleton.mp member⟩
  · rw [List.append_nil]
    exact (apply_one _ v).trans applied

/-- An interface that is known stays known. -/
theorem Called.known [IpLookupTable T] (called : Called r2 r2' sections) {i : Nat}
    (known : (r2.ifd.idx2name i).isSome) : (r2'.ifd.idx2name i).isSome := by
  cases called with
  | @addIf name ifindex l2Addr fd owner last six unused fresh =>
    change (Function.update r2.ifd.idx2name ifindex (some name) i).isSome
    rw [Function.update_apply]
    split
    · rfl
    · exact known
  | addIp => exact known
  | @changeIp ifname intf addr masklen r2₁ deleted found set run =>
    cases run
    exact known
  | addClass => exact known
  | route => exact known

/-- A call leaves the context as the control threads rely on it. -/
theorem Called.tidy [IpLookupTable T] (called : Called r2 r2' sections) (tidy : Tidy n r2) : Tidy n r2' := by
  cases called with
  | @addIf name ifindex l2Addr fd owner last six unused fresh =>
    refine ⟨tidy.nthreads, (tidy.next _).lastThread, fun other intf found => ?_⟩
    change Function.update r2.ifd.name2idx name (some ifindex) other = _ ∧
      Function.update r2.ifd.idx2name ifindex (some name) intf.ifindex = _
    change Function.update r2.ifd.interfaces name (some (newInterface name ifindex l2Addr maxHeadroom)) other =
      some intf at found
    by_cases here : other = name
    · subst here
      rw [Function.update_self] at found
      cases Option.some.inj found
      exact ⟨Function.update_self .., Function.update_self ..⟩
    · rw [Function.update_of_ne here] at found
      obtain ⟨index, named⟩ := tidy.interfaces other intf found
      have apart : intf.ifindex ≠ ifindex := by
        rintro rfl
        rw [fresh] at named
        cases named
      exact ⟨(Function.update_of_ne here ..).trans index, (Function.update_of_ne apart ..).trans named⟩
  | addIp => exact ⟨tidy.nthreads, tidy.lastThread, tidy.interfaces⟩
  | changeIp _ _ run =>
    cases run
    exact ⟨tidy.nthreads, tidy.lastThread, tidy.interfaces⟩
  | addClass => exact tidy
  | route => exact ⟨tidy.nthreads, tidy.lastThread, tidy.interfaces⟩

/-- What a call does, seen by the threads and by the control threads. -/
theorem Called.spec [IpLookupTable T] (called : Called r2 r2' sections) (tidy : Tidy n r2) (matched : Matches n r2 v) :
    ∃ first later common v', sections = first :: later ∧ OnlyRoutes later.flatten ∧
      Tells (first ++ later.flatten) common ∧ common.foldlM (fun v msg => msg.apply v) v = some v' ∧
      Matches n r2' v' := by
  have none : OnlyRoutes ([] : List (Action n T)) := fun _ _ member => absurd member List.not_mem_nil
  cases called with
  | @addIf name ifindex l2Addr fd owner last six unused fresh =>
    have free : r2.ifd.interfaces name = Option.none := by
      cases listed : r2.ifd.interfaces name with
      | none => rfl
      | some intf =>
        rw [(tidy.interfaces name intf listed).1] at unused
        cases unused
    obtain ⟨v', applied, matched'⟩ := @Matches.port T n r2
      { r2 with
        ifd := ({ r2.ifd with lastThread := (r2.ifd.lastThread + 1) % r2.nthreads } : IfdCtx).add name ifindex
          (newInterface name ifindex l2Addr maxHeadroom) } v (newInterface name ifindex l2Addr maxHeadroom)
      owner name (some fd) matched fresh owner.isLt rfl rfl rfl rfl free
    refine ⟨_, [], _, v', rfl, none, ?_, applied, matched'⟩
    rw [List.flatten_nil, List.append_nil, List.append_assoc, List.append_assoc, ← List.append_assoc _ [_]]
    have epoll := @Tells.broadcast n T (.epollAdd (some fd) owner) fun _ => trivial
    have rxTx := @Tells.unicasts n T owner (newInterface name ifindex l2Addr maxHeadroom) fd (ifNodeInit ifindex)
    have decap := @Tells.broadcast n T (.gnodeAdd (.ethDecap (ethDecapNew (newInterface name ifindex l2Addr
      maxHeadroom))) (ethDecapInit ifindex)) fun _ => ⟨rfl, rfl⟩
    have encap := @Tells.broadcast n T (.gnodeAdd (.ethEncap (ethEncapNew (newInterface name ifindex l2Addr
      maxHeadroom))) (ethEncapInit ifindex)) fun _ => ⟨trivial, rfl⟩
    exact epoll.append (rxTx.append (decap.append encap))
  | @addIp ifname intf addr masklen found unset =>
    obtain ⟨v₁, modified, matched₁⟩ := @Matches.modify T n r2 v (setV4addr intf addr masklen) ifname intf addr
      masklen matched found (tidy.interfaces ifname intf found).2 rfl
    obtain ⟨common, v', told, routes, applied, matched'⟩ :=
      addOrDelRoute_spec (n := n) matched₁ addr masklen zeroIp intf.ifindex true rfl
    refine ⟨_, _, .modifyInterface (setV4addr intf addr masklen) :: common, v', rfl, ?_, ?_, ?_, matched'⟩
    · rw [List.flatten_cons, List.flatten_nil, List.append_nil]
      exact routes
    · rw [List.flatten_cons, List.flatten_nil, List.append_nil]
      exact (@Tells.broadcast n T (.modifyInterface (setV4addr intf addr masklen)) fun _ => trivial).append told
    · rw [List.foldlM_cons]
      change (Msg.apply v (.modifyInterface _)).bind _ = _
      rw [modified]
      exact applied
  | @changeIp ifname intf addr masklen r2₁ deleted found set run =>
    obtain ⟨v₁, modified, matched₁⟩ := @Matches.modify T n r2 v (setV4addr intf addr masklen) ifname intf addr
      masklen matched found (tidy.interfaces ifname intf found).2 rfl
    obtain ⟨common₁, v₂, told₁, routes₁, applied₁, matched₂⟩ :=
      addOrDelRoute_spec matched₁ intf.ipv4Addr intf.maskLen zeroIp intf.ifindex false run
    obtain ⟨common₂, v', told₂, routes₂, applied₂, matched'⟩ :=
      addOrDelRoute_spec (n := n) matched₂ addr masklen zeroIp intf.ifindex true rfl
    refine ⟨_, _, .modifyInterface (setV4addr intf addr masklen) :: (common₁ ++ common₂), v', rfl, ?_, ?_, ?_, matched'⟩
    · rw [List.flatten_cons, List.flatten_nil, List.append_nil]
      intro t msg member
      rw [sentTo_append, List.mem_append] at member
      exact member.elim (routes₁ t msg) (routes₂ t msg)
    · rw [List.flatten_cons, List.flatten_nil, List.append_nil]
      exact (@Tells.broadcast n T (.modifyInterface (setV4addr intf addr masklen)) fun _ => trivial).append
        (told₁.append told₂)
    · rw [List.foldlM_cons]
      change (Msg.apply v (.modifyInterface _)).bind _ = _
      rw [modified]
      change (common₁ ++ common₂).foldlM _ v₁ = _
      rw [List.foldlM_append, applied₁]
      exact applied₂
  | @addClass ifname intf c found same =>
    have known : (r2.ifd.idx2name intf.ifindex).isSome := by rw [(tidy.interfaces ifname intf found).2]; rfl
    refine ⟨_, [], [.classAdd c], v, rfl, none, ?_, ?_, matched⟩
    · rw [List.flatten_nil, List.append_nil]
      exact @Tells.broadcast n T (.classAdd c) fun _ => trivial
    · exact (apply_one _ v).trans (matched.class (same ▸ known))
  | @route ip masklen nhop ifname intf add found =>
    obtain ⟨common, v', told, _, applied, matched'⟩ :=
      addOrDelRoute_spec (n := n) matched ip masklen nhop intf.ifindex add rfl
    refine ⟨_, [], common, v', rfl, none, ?_, applied, matched'⟩
    rw [List.flatten_nil, List.append_nil]
    exact told

end Called

end R2.Fleet
