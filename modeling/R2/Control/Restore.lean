import R2.Control.Dump
import R2.Control.Masks

namespace R2.Control

open Json (Plain Parses)

variable {T : Type} [IpLookupTable T]

section Calls

variable {r2 : Ctx T}

omit [IpLookupTable T] in
/-- Either no route is touched, or all of the request could be read. -/
theorem handleRoute_cases (run : Ctx T → Ipv4Addr → Nat → Ipv4Addr → Nat → Ctx T × CtrlMsg T)
    (ipMask nhop ifname : String) : (handleRoute run r2 ipMask nhop ifname).1 = r2 ∨
      ∃ ip mask nhopIp intf, ipMaskDecode ipMask = some (ip, mask) ∧ ipv4FromStr nhop.toList = some nhopIp ∧
        r2.ifd.interfaces ifname = some intf ∧
        (handleRoute run r2 ipMask nhop ifname).1 = (run r2 ip mask nhopIp intf.ifindex).1 := by
  unfold handleRoute
  split
  · exact .inl rfl
  · rename_i ip mask decoded
    split
    · exact .inl rfl
    · rename_i nhopIp known
      split
      · exact .inl rfl
      · rename_i intf found
        exact .inr ⟨ip, mask, nhopIp, intf, decoded, known, found, rfl⟩

theorem handleAddIp_ifd (ifname ipAndMask : String) :
    (handleAddIp r2 ifname ipAndMask).1.ifd = r2.ifd ∧ (handleAddIp r2 ifname ipAndMask).1.nthreads = r2.nthreads := by
  unfold handleAddIp
  split
  · exact ⟨rfl, rfl⟩
  · split
    · exact ⟨rfl, rfl⟩
    · split
      · exact ⟨rfl, rfl⟩
      · dsimp only
        split <;> exact ⟨rfl, rfl⟩

end Calls

/-- The calls that register an interface. -/
def ApiCall.registers : ApiCall → Bool
  | addIf .. => true
  | _ => false

/-- What `add_if` does to the interfaces does not depend on the routes. -/
theorem handle_ifd {r2 r2' : Ctx T} (ifd : r2.ifd = r2'.ifd) (nthreads : r2.nthreads = r2'.nthreads) (call : ApiCall) :
    (handle r2 call).1.ifd = (if call.registers then (handle r2' call).1 else r2').ifd ∧
      (handle r2 call).1.nthreads = (if call.registers then (handle r2' call).1 else r2').nthreads := by
  cases call with
  | addIf sock name ifindex mac =>
    simp only [ApiCall.registers, if_true, handle, handleAddIf, createInterfaceNode, ← ifd, ← nthreads]
    cases strToMac mac with
    | none => exact ⟨ifd, nthreads⟩
    | some l2Addr =>
      dsimp only
      split
      · exact ⟨ifd, nthreads⟩
      · cases sock <;> exact ⟨rfl, rfl⟩
  | addIp ifname ipAndMask =>
    exact ⟨(handleAddIp_ifd ifname ipAndMask).1.trans ifd, (handleAddIp_ifd ifname ipAndMask).2.trans nthreads⟩
  | addRoute ipMask nhop ifname =>
    rcases handleRoute_cases (T := T) addRoute ipMask nhop ifname with same | ⟨_, _, _, _, _, _, _, same⟩ <;>
      exact ⟨(congrArg Ctx.ifd same).trans ifd, (congrArg Ctx.nthreads same).trans nthreads⟩
  | delRoute ipMask nhop ifname =>
    rcases handleRoute_cases (T := T) delRoute ipMask nhop ifname with same | ⟨_, _, _, _, _, _, _, same⟩ <;>
      exact ⟨(congrArg Ctx.ifd same).trans ifd, (congrArg Ctx.nthreads same).trans nthreads⟩

/-- The interfaces come from the calls that register them. -/
theorem serve_ifd (nthreads : Nat) (calls : List ApiCall) :
    (serve (Ctx.new nthreads : Ctx T) calls).ifd =
        (serve (Ctx.new nthreads : Ctx T) (calls.filter ApiCall.registers)).ifd ∧
      (serve (Ctx.new nthreads : Ctx T) calls).nthreads =
        (serve (Ctx.new nthreads : Ctx T) (calls.filter ApiCall.registers)).nthreads := by
  induction calls using List.reverseRecOn with
  | nil => exact ⟨rfl, rfl⟩
  | append_singleton calls call ih =>
    have last := handle_ifd ih.1 ih.2 call
    rw [serve_append, List.filter_append]
    cases registers : call.registers with
    | true =>
      rw [if_pos registers] at last
      rwa [List.filter_cons_of_pos registers, List.filter_nil, serve_append]
    | false =>
      rw [if_neg (by simp [registers])] at last
      rwa [List.filter_cons_of_neg (by simp [registers]), List.filter_nil, List.append_nil]

omit [IpLookupTable T] in
theorem handleAddIf_ipv4 (r2 : Ctx T) (sock : Except Int Unit) (name : String) (ifindex : Int) (mac : String) :
    (handleAddIf r2 sock name ifindex mac).1.ipv4 = r2.ipv4 := by
  unfold handleAddIf
  split
  · rfl
  · split
    · rfl
    · cases sock <;> rfl

/-- Registering interfaces leaves the tables empty. -/
theorem serve_registers {nthreads : Nat} {calls : List ApiCall} (registers : ∀ call ∈ calls, call.registers = true) :
    (serve (Ctx.new nthreads : Ctx T) calls).ipv4 = .new := by
  induction calls using List.reverseRecOn with
  | nil => rfl
  | append_singleton calls call ih =>
    rw [serve_append]
    have before := ih fun call member => registers call (by simp [member])
    have last := registers call (by simp)
    cases call with
    | addIf sock name ifindex mac => exact (handleAddIf_ipv4 ..).trans before
    | _ => cases last

variable [LawfulLookup T]

/-- The route is for a prefix, and goes out of an interface that is registered. -/
def Known (ifd : IfdCtx) (key : Prefix) (leaf : IPv4Leaf) : Prop :=
  key.len ≤ 32 ∧ key.addr.masked key.len = key ∧
    ∃ nhop name intf, ifd.interfaces name = some intf ∧ leaf = ⟨.adjacency nhop intf.ifindex⟩

/-- What every history leaves in the context. -/
structure Listed (r2 : Ctx T) : Prop where
  numbered : ∀ name intf, r2.ifd.interfaces name = some intf →
    r2.ifd.name2idx name = some intf.ifindex ∧ r2.ifd.idx2name intf.ifindex = some name
  same : ∀ table table', (r2.ipv4.deref table).routes = (r2.ipv4.deref table').routes
  known : ∀ table key leaf, (r2.ipv4.deref table).routes key = some leaf → Known r2.ifd key leaf

namespace Listed

variable {r2 : Ctx T}

theorem new (nthreads : Nat) : Listed (Ctx.new nthreads : Ctx T) where
  numbered _ _ found := nomatch found
  same table table' := by cases table <;> cases table' <;> rfl
  known table key leaf found := by
    have none : ((Ctx.new nthreads : Ctx T).ipv4.deref table).routes = fun _ => none := by
      cases table <;> exact LawfulLookup.routes_new
    rw [none] at found
    cases found

theorem addOrDelRoute (listed : Listed r2) {ip nhop : Ipv4Addr} {masklen : Nat} {name : String} {intf : Interface}
    {add : Bool} (short : masklen ≤ 32) (found : r2.ifd.interfaces name = some intf) :
    Listed (addOrDelRoute r2 ip masklen nhop intf.ifindex add).1 where
  numbered := listed.numbered
  same table table' := by
    rw [addOrDelRoute_deref, addOrDelRoute_deref, RouteOp.run_routes short, RouteOp.run_routes short,
      listed.same table table']
  known table key leaf has := by
    rw [addOrDelRoute_deref, RouteOp.run_routes short, RouteOp.apply] at has
    by_cases here : key = ip.masked masklen
    · subst here
      rw [Function.update_self] at has
      split at has
      · cases has
        exact ⟨short, ip.masked_masked masklen, nhop, name, intf, found, rfl⟩
      · cases has
    · rw [Function.update_of_ne here] at has
      exact listed.known table key leaf has

theorem handleRoute (listed : Listed r2) {add : Bool} {ipMask nhop ifname : String}
    (fine : ¬OversizedRoute r2 ipMask nhop ifname) :
    Listed (handleRoute (fun r2 ip mask nhop i => Control.addOrDelRoute r2 ip mask nhop i add) r2 ipMask nhop
      ifname).1 := by
  rcases handleRoute_cases (T := T) (fun r2 ip mask nhop i => Control.addOrDelRoute r2 ip mask nhop i add)
    ipMask nhop ifname with same | ⟨ip, mask, nhopIp, intf, decoded, known, found, same⟩
  · rwa [same]
  · rw [same]
    refine listed.addOrDelRoute (Nat.not_lt.mp fun long => fine ?_) found
    exact ⟨⟨ip, mask, LongPrefix.decoded.mp ⟨decoded, long⟩⟩, ⟨nhopIp, known⟩, intf, found⟩

theorem handleAddIf (listed : Listed r2) {sock : Except Int Unit} {name mac : String} {ifindex : Int} {r2' : Ctx T}
    {msgs : List (CtrlMsg T)} (run : handleAddIf r2 sock name ifindex mac = (r2', .ok msgs)) : Listed r2' := by
  obtain ⟨l2Addr, thread, _, freeName, freeIndex, rfl, _⟩ := handleAddIf_ok run
  have other {name' : String} {intf : Interface} (found : r2.ifd.interfaces name' = some intf) :
      name' ≠ name ∧ intf.ifindex ≠ toUsize ifindex := by
    obtain ⟨byName, byIndex⟩ := listed.numbered name' intf found
    refine ⟨?_, ?_⟩
    · rintro rfl
      rw [freeName] at byName
      cases byName
    · intro taken
      rw [taken, freeIndex] at byIndex
      cases byIndex
  refine ⟨fun name' intf found => ?_, listed.same, fun table key leaf has => ?_⟩
  · change Function.update r2.ifd.interfaces name _ name' = _ at found
    change Function.update r2.ifd.name2idx name _ name' = _ ∧ Function.update r2.ifd.idx2name _ _ _ = _
    by_cases here : name' = name
    · subst here
      rw [Function.update_self] at found ⊢
      cases found
      exact ⟨rfl, Function.update_self ..⟩
    · rw [Function.update_of_ne here] at found
      rw [Function.update_of_ne here, Function.update_of_ne (other found).2]
      exact listed.numbered name' intf found
  · obtain ⟨short, whole, nhop, name', intf, found, same⟩ := listed.known table key leaf has
    refine ⟨short, whole, nhop, name', intf, ?_, same⟩
    change Function.update r2.ifd.interfaces name _ name' = _
    rw [Function.update_of_ne (other found).1]
    exact found

theorem handleAddIp (listed : Listed r2) (masked : Masked r2) {ifname ipAndMask : String} {r2' : Ctx T}
    {msgs : List (CtrlMsg T)} (run : handleAddIp r2 ifname ipAndMask = (r2', .ok msgs))
    (fine : ¬Oversized r2 (.addIp ifname ipAndMask)) : Listed r2' := by
  obtain ⟨intf, addr, masklen, found, decoded, usable, _, done⟩ := handleAddIp_ok run
  have short : masklen ≤ 32 := Nat.not_lt.mp fun long =>
    fine ⟨⟨addr, masklen, LongPrefix.decoded.mp ⟨decoded, long⟩, usable⟩, intf, found⟩
  rcases done with ⟨_, rfl, _⟩ | ⟨_, r2₁, msg, first, rfl, _⟩
  · exact listed.addOrDelRoute short found
  · cases first
    exact (listed.addOrDelRoute (masked ifname intf found) found).addOrDelRoute short found

theorem handle (listed : Listed r2) (masked : Masked r2) {call : ApiCall} (fine : ¬Oversized r2 call) :
    Listed (handle r2 call).1 := by
  rcases run : Control.handle r2 call with ⟨r2', text | msgs⟩
  · obtain ⟨thread, rfl⟩ := handle_error run
    exact ⟨listed.numbered, listed.same, listed.known⟩
  · cases call with
    | addIf sock name ifindex mac => exact listed.handleAddIf run
    | addIp ifname ipAndMask => exact listed.handleAddIp masked run fine
    | addRoute ipMask nhop ifname => exact (congrArg Prod.fst run) ▸ listed.handleRoute fine
    | delRoute ipMask nhop ifname => exact (congrArg Prod.fst run) ▸ listed.handleRoute fine

end Listed

/-- No request of the history has a mask that is too long and nothing else wrong with it. -/
def Sized (nthreads : Nat) (calls : List ApiCall) : Prop := ∀ before call after, calls = before ++ call :: after →
  ¬Oversized (serve (Ctx.new nthreads : Ctx T) before) call

theorem serve_listed {nthreads : Nat} {calls : List ApiCall} (fine : Sized (T := T) nthreads calls) :
    Listed (serve (Ctx.new nthreads : Ctx T) calls) := by
  induction calls using List.reverseRecOn with
  | nil => exact .new nthreads
  | append_singleton calls call ih =>
    rw [serve_append]
    refine (ih fun before call' after split => ?_).handle (serve_masked nthreads calls) (fine calls call [] rfl)
    exact fine before call' (after ++ [call]) (by rw [split, List.append_assoc, List.cons_append])

/-- The line is a route that can be added again. -/
structure Row.Of (row : Row) (ifd : IfdCtx) (routes : Routes) : Prop where
  short : row.masklen ≤ 32
  whole : row.ip.masked row.masklen = row.key
  named : ∃ intf, ifd.interfaces row.ifname = some intf ∧ intf.ifindex = row.ifindex
  route : routes row.key = some row.leaf

omit [LawfulLookup T] in
theorem Row.handle_call {r2 : Ctx T} {row : Row} {routes : Routes} (good : row.Of r2.ifd routes) :
    handle r2 row.call = ((addRoute r2 row.ip row.masklen row.nhop row.ifindex).1,
      .ok [(addRoute r2 row.ip row.masklen row.nhop row.ifindex).2]) := by
  obtain ⟨intf, found, index⟩ := good.named
  have decoded : ipMaskDecode (String.ofList (row.ip.dotted ++ '/' :: Nat.toDigits 10 row.masklen)) =
      some (row.ip, row.masklen) :=
    ipMaskDecode_iff.mpr ⟨by have short := good.short; omega, _, Decimal.toDigits row.masklen,
      .inl (String.toList_ofList)⟩
  have known : ipv4FromStr (String.ofList row.nhop.dotted).toList = some row.nhop :=
    ipv4FromStr_iff.mpr String.toList_ofList
  simp only [Row.call, handle, handleAddRoute, handleRoute, decoded, known, found, index]

/-- The calls of some lines bring their routes back, and nothing else. -/
theorem serve_rows {r2 : Ctx T} {rows : List Row} {routes : Routes} (good : ∀ row ∈ rows, row.Of r2.ifd routes)
    (empty : ∀ table key, (r2.ipv4.deref table).routes key = none) :
    (serve r2 (rows.map Row.call)).ifd = r2.ifd ∧ ∀ table key,
      ((serve r2 (rows.map Row.call)).ipv4.deref table).routes key = routes key ∨
        (∀ row ∈ rows, row.key ≠ key) ∧ ((serve r2 (rows.map Row.call)).ipv4.deref table).routes key = none := by
  induction rows using List.reverseRecOn with
  | nil => exact ⟨rfl, fun table key => .inr ⟨by simp, empty table key⟩⟩
  | append_singleton rows row ih =>
    obtain ⟨ifd, tables⟩ := ih fun row member => good row (by simp [member])
    have last := good row (by simp)
    rw [List.map_append, List.map_singleton, serve_append, Row.handle_call (ifd ▸ last)]
    refine ⟨ifd, fun table key => ?_⟩
    rw [addRoute, addOrDelRoute_deref, RouteOp.run_routes last.short, RouteOp.apply]
    by_cases here : key = row.ip.masked row.masklen
    · subst here
      rw [Function.update_self, last.whole, last.route]
      exact .inl rfl
    · rw [Function.update_of_ne here]
      refine (tables table key).imp_right (And.imp_left fun apart row' member => ?_)
      rcases List.mem_append.mp member with old | new
      · exact apart row' old
      · rw [List.mem_singleton.mp new, ← last.whole]
        exact Ne.symm here

section Iter

variable [IpLookupIter T] [LawfulIter T] {r2 : Ctx T}

theorem mem_rows {table : V4Table} {row : Row} : row ∈ rows r2 table ↔
    (r2.ipv4.deref table).routes row.key = some row.leaf ∧ row.ifname = ifnameOf r2 row.ifindex := by
  rw [rows, List.mem_filterMap]
  constructor
  · rintro ⟨⟨ip, masklen, leaf⟩, member, line⟩
    obtain ⟨nhop, ifindex, rfl⟩ := rowOf_adjacency line
    cases line
    exact ⟨(LawfulIter.mem_iter ..).mp member, rfl⟩
  · rintro ⟨route, name⟩
    refine ⟨(row.ip, row.masklen, row.leaf), (LawfulIter.mem_iter ..).mpr route, ?_⟩
    simp only [rowOf, Row.leaf, ← name]

/-- Every entry has a line. -/
theorem Listed.lines (listed : Listed r2) (table : V4Table) :
    ∀ entry ∈ IpLookupIter.iter (r2.ipv4.deref table).root, ∃ row, rowOf r2 entry = some row := by
  rintro ⟨ip, masklen, leaf⟩ member
  obtain ⟨_, _, nhop, _, intf, _, rfl⟩ := listed.known table _ _ ((LawfulIter.mem_iter ..).mp member)
  exact ⟨_, rfl⟩

theorem Listed.rows_of (listed : Listed r2) {table : V4Table} {row : Row} (member : row ∈ rows r2 table)
    (table' : V4Table) : row.Of r2.ifd (r2.ipv4.deref table').routes := by
  obtain ⟨route, name⟩ := mem_rows.mp member
  obtain ⟨short, whole, nhop, name', intf, found, same⟩ := listed.known table _ _ route
  have index : intf.ifindex = row.ifindex := by
    simp only [Row.leaf, IPv4Leaf.mk.injEq, Fwd.adjacency.injEq] at same
    exact same.2.symm
  refine ⟨short, whole, ⟨intf, ?_, index⟩, listed.same table' table ▸ route⟩
  rwa [name, ifnameOf, IfdCtx.getName, ← index, (listed.numbered name' intf found).2]

/-- A member of an object, by its name. -/
def member (name : String) : Json → Option Json
  | .object ms => ms.lookup name.toList
  | _ => none

/-- The call that adds the route of an object of the file. -/
def routeCall (line : Json) : Option ApiCall :=
  match member "prefix" line, member "masklen" line, member "nhop" line, member "ifname" line with
  | some (.string ip), some (.number masklen), some (.string nhop), some (.string ifname) =>
    some (.addRoute (String.ofList (ip ++ '/' :: masklen)) (String.ofList nhop) (String.ofList ifname))
  | _, _, _, _ => none

omit [IpLookupTable T] [LawfulLookup T] [IpLookupIter T] [LawfulIter T] in
theorem Row.routeCall_json (row : Row) : routeCall row.json = some row.call := by
  simp [routeCall, member, Row.json, Row.fields, Row.call, List.lookup_cons]

/-- The router after a restart: the interfaces are registered again, and the routes of the objects added. -/
def restart (nthreads : Nat) (calls : List ApiCall) (lines : List Json) : Ctx T :=
  serve (Ctx.new nthreads) (calls.filter ApiCall.registers ++ lines.filterMap routeCall)

omit [IpLookupIter T] [LawfulIter T] in
theorem handleShowOne_congr {r2' : Ctx T} {table table' : IPv4Table T} (ifd : r2'.ifd = r2.ifd)
    (routes : table'.routes = table.routes) (addr : Ipv4Addr) :
    handleShowOne r2' table' addr = handleShowOne r2 table addr := by
  have found : IpLookupTable.longestMatch table'.root addr = IpLookupTable.longestMatch table.root addr := by
    rw [LawfulLookup.longestMatch_eq, LawfulLookup.longestMatch_eq]
    exact congrArg (fun routes => Routes.longestMatch routes addr) routes
  simp only [handleShowOne, ifnameOf, found, ifd]

omit [LawfulIter T] in
/-- The same interfaces and the same routes give the same answers. -/
theorem handleShow_congr {r2' : Ctx T} {create : Except String Unit}
    {write : ByteArray → ByteArray → Except String Nat} {text filename : String}
    (same : ∀ table, r2'.ifd = r2.ifd ∧ (r2'.ipv4.deref table).routes = (r2.ipv4.deref table).routes)
    (one : text ≠ "all") :
    handleShow r2' create write text filename = handleShow r2 create write text filename := by
  have answer (table : V4Table) (addr : Ipv4Addr) := handleShowOne_congr (same table).1 (same table).2 addr
  unfold handleShow
  cases ipv4FromStr text.toList with
  | none => rw [if_neg one, if_neg one]
  | some addr => simp only [answer]

/-- The lines of either table bring both tables back. -/
theorem Listed.restarts {nthreads : Nat} {calls : List ApiCall} (listed : Listed r2)
    (history : serve (Ctx.new nthreads) calls = r2) (table table' : V4Table) :
    (restart nthreads calls ((rows r2 table).map Row.json) : Ctx T).ifd = r2.ifd ∧
      ((restart nthreads calls ((rows r2 table).map Row.json) : Ctx T).ipv4.deref table').routes =
        (r2.ipv4.deref table').routes := by
  have again : ((rows r2 table).map Row.json).filterMap routeCall = (rows r2 table).map Row.call := by
    rw [List.filterMap_map, ← List.filterMap_eq_map]
    exact List.filterMap_congr fun row _ => row.routeCall_json
  have empty (calls : List ApiCall) (registers : ∀ call ∈ calls, call.registers = true) (table : V4Table)
      (key : Prefix) : ((serve (Ctx.new nthreads : Ctx T) calls).ipv4.deref table).routes key = none := by
    rw [serve_registers registers]
    cases table <;> exact congrFun LawfulLookup.routes_new key
  have ifd := (serve_ifd (T := T) nthreads calls).1
  rw [history] at ifd
  obtain ⟨same, tables⟩ := serve_rows
    (fun row member => ifd ▸ listed.rows_of member table')
    (empty (calls.filter ApiCall.registers) fun call member => (List.mem_filter.mp member).2)
  rw [restart, again, serve, List.foldl_append, ← serve, ← serve]
  refine ⟨same.trans ifd.symm, funext fun key => ?_⟩
  rcases tables table' key with restored | ⟨apart, none⟩
  · exact restored
  · rw [none]
    cases route : (r2.ipv4.deref table').routes key with
    | none => rfl
    | some leaf =>
      obtain ⟨_, _, nhop, _, intf, _, rfl⟩ := listed.known table' key leaf route
      refine absurd rfl
        (apart ⟨key.addr, key.len, nhop, ifnameOf r2 intf.ifindex, intf.ifindex⟩ (mem_rows.mpr ⟨?_, rfl⟩))
      rw [listed.same table table']
      exact route

/-- From the file of the dump, read as JSON, the routes come back after a restart. The history has no
oversized mask, interface names have nothing that JSON escapes, and the file takes all that is written to
it. With the interfaces registered as before, adding the lines of either table leaves both tables with all
their routes, and every `show` but that of "all" with its answer. -/
theorem dump_restores {nthreads : Nat} {calls : List ApiCall} (history : serve (Ctx.new nthreads) calls = r2)
    (fine : Sized (T := T) nthreads calls)
    (plain : ∀ name intf, r2.ifd.interfaces name = some intf → ∀ c ∈ name.toList, Plain c)
    {write : ByteArray → ByteArray → Except String Nat} (whole : Whole write) (filename : String) :
    ∃ file : String, ∃ lines lines', handleShow r2 (.ok ()) write "all" filename = (.ok "", some file.toByteArray) ∧
      Parses file.toList (.object [("table1".toList, .array lines), ("table2".toList, .array lines')]) ∧
      ∀ dumped ∈ [lines, lines'],
        (∀ table, ((restart nthreads calls dumped : Ctx T).ipv4.deref table).routes = (r2.ipv4.deref table).routes) ∧
        ∀ create write text filename, text ≠ "all" →
          handleShow (restart nthreads calls dumped : Ctx T) create write text filename =
            handleShow r2 create write text filename := by
  subst history
  have listed := serve_listed fine
  obtain ⟨file, dumped, parsed⟩ := dump_parses whole listed.lines fun table row member c inside => by
    obtain ⟨intf, found, _⟩ := (listed.rows_of member table).named
    exact plain row.ifname intf found c inside
  have noAddress : ipv4FromStr "all".toList = none := by decide +kernel
  refine ⟨file, _, _, ?_, parsed, ?_⟩
  · rw [handleShow, noAddress, ← dumped]
    exact if_pos rfl
  · have restored (table : V4Table) := listed.restarts rfl table
    simp only [List.mem_cons, List.not_mem_nil, or_false, forall_eq_or_imp, forall_eq]
    exact ⟨⟨fun table' => (restored .table1 table').2, fun _ _ _ _ => handleShow_congr (restored .table1)⟩,
      fun table' => (restored .table2 table').2, fun _ _ _ _ => handleShow_congr (restored .table2)⟩

end Iter

section Example

def twoRoutes : List ApiCall := [.addIf (.ok ()) "eth0" 1 "02:00:00:00:00:01", .addIp "eth0" "10.1.0.1/16",
  .addRoute "10.2.0.0/16" "10.1.0.2" "eth0"]

omit [IpLookupTable T] [LawfulLookup T] in
theorem not_long {s : String} {ip ip' : Ipv4Addr} {m m' : Nat} (decoded : ipMaskDecode s = some (ip, m))
    (short : m ≤ 32) : ¬LongPrefix s ip' m' := by
  intro long
  obtain ⟨decoded', above⟩ := LongPrefix.decoded.mpr long
  rw [decoded] at decoded'
  cases decoded'
  omega

theorem twoRoutes_sized : Sized (T := RouteList) 2 twoRoutes := by
  have address : ipMaskDecode "10.1.0.1/16" = some (⟨10, 1, 0, 1⟩, 16) := by decide +kernel
  have route : ipMaskDecode "10.2.0.0/16" = some (⟨10, 2, 0, 0⟩, 16) := by decide +kernel
  have each : ∀ call ∈ twoRoutes, ∀ r2 : Ctx RouteList, ¬Oversized r2 call := by
    simp only [twoRoutes, List.mem_cons, List.not_mem_nil, or_false, forall_eq_or_imp, forall_eq, Oversized]
    refine ⟨fun _ wrong => wrong, ?_, ?_⟩
    · rintro _ ⟨⟨_, _, long, _⟩, _⟩
      exact not_long address (by decide) long
    · rintro _ ⟨⟨_, _, long⟩, _⟩
      exact not_long route (by decide) long
  intro before call after split
  exact each call (split ▸ by simp) _

/-- An address and a route of one interface come back. -/
theorem dump_restores_two_routes :
    ∃ file : String, ∃ lines lines', handleShow (serve (Ctx.new 2 : Ctx RouteList) twoRoutes) (.ok ())
        (fun _ bytes => .ok bytes.size) "all" "routes" = (.ok "", some file.toByteArray) ∧
      Parses file.toList (.object [("table1".toList, .array lines), ("table2".toList, .array lines')]) ∧
      ∀ dumped ∈ [lines, lines'],
        (∀ table, ((restart 2 twoRoutes dumped : Ctx RouteList).ipv4.deref table).routes =
          ((serve (Ctx.new 2 : Ctx RouteList) twoRoutes).ipv4.deref table).routes) ∧
        ∀ create write text filename, text ≠ "all" →
          handleShow (restart 2 twoRoutes dumped : Ctx RouteList) create write text filename =
            handleShow (serve (Ctx.new 2 : Ctx RouteList) twoRoutes) create write text filename := by
  refine dump_restores rfl twoRoutes_sized (fun name intf found => ?_) (fun _ _ => rfl) "routes"
  rw [(serve_ifd 2 twoRoutes).1] at found
  change Function.update (fun _ => none) "eth0" _ name = _ at found
  by_cases here : name = "eth0"
  · simp [here, Plain]
  · rw [Function.update_of_ne here] at found
    cases found

end Example

end R2.Control
