import R2.Control.Api
import R2.Route.Linear

namespace R2.Control

variable {T : Type} [IpLookupTable T]

/-- The context after calls that all succeeded. -/
inductive Run (start : Ctx T) : List ApiCall → Ctx T → Prop
  | start : Run start [] start
  | next {calls r2 call r2' msgs} : Run start calls r2 → handle r2 call = (r2', .ok msgs) →
      Run start (calls ++ [call]) r2'

/-- The calls that set up an interface and its address. -/
def ApiCall.setsUp : ApiCall → Bool
  | addIf .. => true
  | addIp .. => true
  | _ => false

/-- The address that a call gives to an interface. -/
def ApiCall.gives (name : String) : ApiCall → Option (Ipv4Addr × Nat)
  | addIp ifname ipAndMask => if ifname = name then ipMaskDecode ipAndMask else none
  | _ => none

/-- The addresses an interface was given, the last one last. -/
def given (name : String) (calls : List ApiCall) : List (Ipv4Addr × Nat) := calls.filterMap (ApiCall.gives name)

/-- The prefix of an address. -/
def subnet (addr : Ipv4Addr × Nat) : Prefix := addr.1.masked addr.2

def Overlap (a b : Ipv4Addr × Nat) : Prop := ∃ ip : Ipv4Addr, ip.masked a.2 = subnet a ∧ ip.masked b.2 = subnet b

theorem Overlap.of_eq {a b : Ipv4Addr × Nat} (same : subnet a = subnet b) : Overlap a b := by
  have len : a.2 = b.2 := congrArg Prefix.len same
  exact ⟨a.1, rfl, len ▸ same⟩

/-- No two interfaces are ever given overlapping prefixes. -/
def Apart (calls : List ApiCall) : Prop :=
  ∀ name name', name ≠ name' → ∀ a ∈ given name calls, ∀ b ∈ given name' calls, ¬Overlap a b

def connected (ifindex : Nat) : IPv4Leaf := ⟨.adjacency zeroIp ifindex⟩

theorem connected_inj {i j : Nat} (same : connected i = connected j) : i = j := by
  unfold connected at same
  cases same
  rfl

theorem given_append (name : String) (calls : List ApiCall) (call : ApiCall) :
    given name (calls ++ [call]) = given name calls ++ (call.gives name).toList := by
  rw [given, List.filterMap_append, given]
  cases gives : call.gives name with
  | none => rw [List.filterMap_cons_none gives]; rfl
  | some addr => rw [List.filterMap_cons_some gives]; rfl

variable [LawfulLookup T]

/-- What the calls leave in the context. -/
structure Inv (r2 : Ctx T) (calls : List ApiCall) : Prop where
  numbered : ∀ name intf, r2.ifd.interfaces name = some intf →
    r2.ifd.name2idx name = some intf.ifindex ∧ r2.ifd.idx2name intf.ifindex = some name ∧ getV4addr intf = (zeroIp, 0)
  met : ∀ name, given name calls ≠ [] → ∃ intf, r2.ifd.interfaces name = some intf
  heard : ∀ name ipAndMask, .addIp name ipAndMask ∈ calls → given name calls ≠ []
  nonzero : ∀ name, ∀ addr ∈ given name calls, addr.1 ≠ zeroIp
  routes : ∀ table p leaf, (r2.ipv4.deref table).routes p = some leaf ↔
    ∃ name intf, r2.ifd.interfaces name = some intf ∧
    leaf = connected intf.ifindex ∧ ∃ addr ∈ given name calls, p = subnet addr

section Steps

variable {r2 r2' : Ctx T} {calls : List ApiCall} {msgs : List (CtrlMsg T)}

theorem new_inv (nthreads : Nat) : Inv (Ctx.new nthreads : Ctx T) [] where
  numbered _ _ found := nomatch found
  met _ some := absurd rfl some
  heard _ _ member := nomatch member
  nonzero _ _ member := nomatch member
  routes table p leaf := by
    have none : ((Ctx.new nthreads : Ctx T).ipv4.deref table).routes = fun _ => none := by
      cases table <;> exact LawfulLookup.routes_new
    rw [none]
    exact ⟨nofun, fun ⟨_, _, found, _⟩ => nomatch found⟩

theorem handleAddIf_inv {sock : Except Int Unit} {name mac : String} {ifindex : Int} (inv : Inv r2 calls)
    (run : handleAddIf r2 sock name ifindex mac = (r2', .ok msgs)) :
    Inv r2' (calls ++ [.addIf sock name ifindex mac]) := by
  obtain ⟨l2Addr, thread, _, freeName, freeIndex, rfl, _⟩ := handleAddIf_ok run
  have same : ∀ name', given name' (calls ++ [.addIf sock name ifindex mac]) = given name' calls := fun name' => by
    rw [given_append]
    exact List.append_nil _
  have absent : r2.ifd.interfaces name = none := by
    cases found : r2.ifd.interfaces name with
    | none => rfl
    | some intf =>
      have named := (inv.numbered name intf found).1
      rw [freeName] at named
      cases named
  have none : given name calls = [] := by
    by_contra some
    obtain ⟨intf, found⟩ := inv.met name some
    rw [absent] at found
    cases found
  refine ⟨fun name' intf found => ?_, fun name' some => ?_, fun name' ipAndMask member => ?_, fun name' => ?_,
    fun table p leaf => ?_⟩
  · change Function.update r2.ifd.interfaces name _ name' = _ at found
    change Function.update r2.ifd.name2idx name _ name' = _ ∧ Function.update r2.ifd.idx2name _ _ _ = _ ∧ _
    by_cases here : name' = name
    · subst here
      rw [Function.update_self] at found ⊢
      cases found
      exact ⟨rfl, Function.update_self .., rfl⟩
    · rw [Function.update_of_ne here] at found ⊢
      obtain ⟨named, indexed, blank⟩ := inv.numbered name' intf found
      have other : intf.ifindex ≠ toUsize ifindex := fun eq => by
        rw [eq, freeIndex] at indexed
        cases indexed
      rw [Function.update_of_ne other]
      exact ⟨named, indexed, blank⟩
  · rw [same] at some
    have here : name' ≠ name := fun eq => some (eq ▸ none)
    obtain ⟨intf, found⟩ := inv.met name' some
    exact ⟨intf, (Function.update_of_ne here ..).trans found⟩
  · rw [same]
    exact inv.heard name' ipAndMask ((List.mem_append.mp member).resolve_right (by simp))
  · rw [same]
    exact inv.nonzero name'
  · refine (inv.routes table p leaf).trans ?_
    simp only [same]
    refine exists_congr fun name' => ?_
    by_cases here : name' = name
    · subst here
      simp only [none, List.not_mem_nil, false_and, exists_false, and_false]
    · change _ ↔ ∃ intf, Function.update r2.ifd.interfaces name _ name' = _ ∧ _
      rw [Function.update_of_ne here]

theorem handleAddIp_inv {name ipAndMask : String} (inv : Inv r2 calls)
    (run : handleAddIp r2 name ipAndMask = (r2', .ok msgs)) (apart : Apart (calls ++ [.addIp name ipAndMask]))
    (short : ∀ addr ∈ given name (calls ++ [.addIp name ipAndMask]), addr.2 ≤ 32) :
    Inv r2' (calls ++ [.addIp name ipAndMask]) := by
  obtain ⟨intf, addr, masklen, found, decoded, usable, _, done⟩ := handleAddIp_ok run
  have blank := (inv.numbered name intf found).2.2
  rcases done with ⟨_, rfl, _⟩ | ⟨set, _⟩
  · have mine : given name (calls ++ [.addIp name ipAndMask]) = given name calls ++ [(addr, masklen)] := by
      rw [given_append, ApiCall.gives, if_pos rfl, decoded]
      rfl
    have others : ∀ name', name ≠ name' → given name' (calls ++ [.addIp name ipAndMask]) = given name' calls := by
      intro name' other
      rw [given_append, ApiCall.gives, if_neg other]
      exact List.append_nil _
    have fits : masklen ≤ 32 := short (addr, masklen) (mine ▸ List.mem_append_right _ (List.mem_singleton_self _))
    refine ⟨inv.numbered, fun name' some => ?_, fun name' text member => ?_, fun name' => ?_, fun table p leaf => ?_⟩
    · by_cases here : name = name'
      · exact ⟨intf, here ▸ found⟩
      · rw [others name' here] at some
        exact inv.met name' some
    · by_cases here : name = name'
      · rw [← here, mine]
        exact List.append_ne_nil_of_right_ne_nil _ (List.cons_ne_nil _ _)
      · rw [others name' here]
        refine inv.heard name' text ((List.mem_append.mp member).resolve_right fun last => ?_)
        cases List.mem_singleton.mp last
        exact here rfl
    · by_cases here : name = name'
      · subst here
        rw [mine]
        intro a member
        rcases List.mem_append.mp member with old | last
        · exact inv.nonzero name a old
        · rw [List.mem_singleton.mp last]
          exact usable
      · rw [others name' here]
        exact inv.nonzero name'
    · have updated : ((addRoute r2 addr masklen zeroIp intf.ifindex).1.ipv4.deref table).routes =
          Function.update (r2.ipv4.deref table).routes (subnet (addr, masklen)) (some (connected intf.ifindex)) := by
        rw [addRoute, addOrDelRoute_deref, RouteOp.run_routes fits]
        rfl
      rw [updated]
      by_cases here : p = subnet (addr, masklen)
      · subst here
        rw [Function.update_self]
        constructor
        · intro same
          refine ⟨name, intf, found, (Option.some.inj same).symm, (addr, masklen), ?_, rfl⟩
          exact mine ▸ List.mem_append_right _ (List.mem_singleton_self _)
        · rintro ⟨name', intf', found', rfl, addr', member, same⟩
          by_cases own : name = name'
          · subst own
            obtain rfl : intf = intf' := Option.some.inj (found.symm.trans found')
            rfl
          · have new : (addr, masklen) ∈ given name (calls ++ [.addIp name ipAndMask]) :=
              mine ▸ List.mem_append_right _ (List.mem_singleton_self _)
            exact absurd (Overlap.of_eq same) (apart name name' own _ new _ member)
      · rw [Function.update_of_ne here, inv.routes table p leaf]
        refine exists_congr fun name' => exists_congr fun intf' =>
          and_congr_right fun _ => and_congr_right fun _ => ?_
        refine exists_congr fun addr' => and_congr_left fun same => ?_
        by_cases own : name = name'
        · subst own
          rw [mine, List.mem_append, List.mem_singleton]
          exact ⟨Or.inl, fun either => either.resolve_right fun eq => here (eq ▸ same)⟩
        · rw [others name' own]
  · exact absurd (congrArg Prod.fst blank) set

theorem given_subset {name : String} (calls : List ApiCall) (call : ApiCall) :
    given name calls ⊆ given name (calls ++ [call]) := by
  rw [given_append]
  exact List.subset_append_left ..

theorem Run.inv {nthreads : Nat} (run : Run (Ctx.new nthreads : Ctx T) calls r2)
    (own : ∀ call ∈ calls, call.setsUp = true)
    (apart : Apart calls) (short : ∀ name, ∀ addr ∈ given name calls, addr.2 ≤ 32) : Inv r2 calls := by
  induction run with
  | start => exact new_inv nthreads
  | @next calls r2 call r2' msgs _ step ih =>
    have before := ih (fun c member => own c (List.mem_append_left _ member))
      (fun name name' other a inside b inside' =>
        apart name name' other a (given_subset calls call inside) b (given_subset calls call inside'))
      fun name a inside => short name a (given_subset calls call inside)
    have kind := own call (List.mem_append_right _ (List.mem_singleton_self _))
    cases call with
    | addIf sock name ifindex mac => exact handleAddIf_inv before step
    | addIp name ipAndMask => exact handleAddIp_inv before step apart (short name)
    | addRoute => cases kind
    | delRoute => cases kind

end Steps

/-- Both tables have, for each interface, the prefix it was given last as its
only connected route. -/
def Replaced (r2 : Ctx T) (calls : List ApiCall) : Prop :=
  ∀ name intf, r2.ifd.interfaces name = some intf → ∀ table p,
    (r2.ipv4.deref table).routes p = some (connected intf.ifindex) ↔ (given name calls).getLast?.map subnet = some p

/-- The record of each interface has the address it was given last. -/
def Recorded (r2 : Ctx T) (calls : List ApiCall) : Prop :=
  ∀ name intf, r2.ifd.interfaces name = some intf → ∀ addr, (given name calls).getLast? = some addr →
    getV4addr intf = addr

section Law

variable {r2 : Ctx T} {calls : List ApiCall}

/-- The connected routes of an interface are all the prefixes it was ever given. -/
theorem Inv.connected_iff (inv : Inv r2 calls) {name : String} {intf : Interface}
    (found : r2.ifd.interfaces name = some intf) (table : V4Table) (p : Prefix) :
    (r2.ipv4.deref table).routes p = some (connected intf.ifindex) ↔ ∃ addr ∈ given name calls, p = subnet addr := by
  rw [inv.routes]
  constructor
  · rintro ⟨name', intf', found', same, addr, member, here⟩
    have indexed := (inv.numbered name intf found).2.1
    rw [connected_inj same, (inv.numbered name' intf' found').2.1] at indexed
    cases indexed
    exact ⟨addr, member, here⟩
  · rintro ⟨addr, member, here⟩
    exact ⟨name, intf, found, rfl, addr, member, here⟩

theorem Inv.replaced_iff (inv : Inv r2 calls) :
    Replaced r2 calls ↔ ∀ name, ∀ a ∈ given name calls, ∀ b ∈ given name calls, subnet a = subnet b := by
  constructor
  · intro replaced name a inside b inside'
    obtain ⟨intf, found⟩ := inv.met name (List.ne_nil_of_mem inside)
    have last := fun p => (inv.connected_iff found .table1 p).symm.trans (replaced name intf found .table1 p)
    exact Option.some.inj (((last _).mp ⟨a, inside, rfl⟩).symm.trans ((last _).mp ⟨b, inside', rfl⟩))
  · intro same name intf found table p
    rw [inv.connected_iff found, Option.map_eq_some_iff]
    constructor
    · rintro ⟨a, inside, rfl⟩
      obtain ⟨b, last⟩ := Option.ne_none_iff_exists'.mp (mt List.getLast?_eq_none_iff.mp (List.ne_nil_of_mem inside))
      exact ⟨b, last, same name b (List.mem_of_getLast? last) a inside⟩
    · rintro ⟨b, last, rfl⟩
      exact ⟨b, List.mem_of_getLast? last, rfl⟩

/-- No address is ever recorded. -/
theorem Inv.not_recorded (inv : Inv r2 calls) {name : String} (some : given name calls ≠ []) :
    ¬Recorded r2 calls := by
  intro recorded
  obtain ⟨intf, found⟩ := inv.met name some
  obtain ⟨addr, last⟩ := Option.ne_none_iff_exists'.mp (mt List.getLast?_eq_none_iff.mp some)
  have blank := (inv.numbered name intf found).2.2
  rw [recorded name intf found addr last] at blank
  exact inv.nonzero name addr (List.mem_of_getLast? last) (congrArg Prod.fst blank)

end Law

/-- Once an address was given the law of connected routes is broken: no record
has the address that was broadcast, and the tables replace nothing, so they are
right only where each interface was always given the same prefix. -/
theorem connected_route_not_replaced {nthreads : Nat} {calls : List ApiCall} {r2 : Ctx T}
    (run : Run (Ctx.new nthreads : Ctx T) calls r2) (own : ∀ call ∈ calls, call.setsUp = true) (apart : Apart calls)
    (short : ∀ name, ∀ addr ∈ given name calls, addr.2 ≤ 32) :
    ((∃ name ipAndMask, .addIp name ipAndMask ∈ calls) → ¬(Replaced r2 calls ∧ Recorded r2 calls)) ∧
    (Replaced r2 calls ↔ ∀ name, ∀ a ∈ given name calls, ∀ b ∈ given name calls, subnet a = subnet b) ∧
    ∀ name ipAndMask r2' msgs, handle r2 (.addIp name ipAndMask) = (r2', .ok msgs) →
      ∃ intf record addr, .modifyInterface intf ∈ msgs ∧ ipMaskDecode ipAndMask = some addr ∧ getV4addr intf = addr ∧
        r2'.ifd.interfaces name = some record ∧ getV4addr record = (zeroIp, 0) := by
  have inv := run.inv own apart short
  refine ⟨fun ⟨name, text, member⟩ law => inv.not_recorded (inv.heard name text member) law.2, inv.replaced_iff,
    fun name text r2' msgs step => ?_⟩
  obtain ⟨record, addr, masklen, found, decoded, _, _, done⟩ := handleAddIp_ok step
  have blank := (inv.numbered name record found).2.2
  rcases done with ⟨_, rfl, rfl⟩ | ⟨set, _⟩
  · exact ⟨_, record, (addr, masklen), List.mem_cons_self .., decoded, rfl, found, blank⟩
  · exact absurd (congrArg Prod.fst blank) set

section Example

def setUp : ApiCall := .addIf (.ok ()) "eth0" 1 "00:00:00:00:00:01"

def firstAddress : ApiCall := .addIp "eth0" "10.1.0.1/16"

def secondAddress : ApiCall := .addIp "eth0" "10.2.0.1/16"

theorem twoAddresses_run : ∃ r2 : Ctx RouteList, Run (Ctx.new 2) [setUp, firstAddress, secondAddress] r2 ∧
    r2.ipv4.table1.routes (subnet (⟨10, 1, 0, 1⟩, 16)) = some (connected 1) ∧
    r2.ipv4.table1.routes (subnet (⟨10, 2, 0, 1⟩, 16)) = some (connected 1) ∧
    (r2.ifd.interfaces "eth0").map getV4addr = some (zeroIp, 0) := by
  have first : Run (Ctx.new 2 : Ctx RouteList) [setUp] _ := .next .start (show handle _ setUp = _ from rfl)
  have second : Run _ [setUp, firstAddress] _ := .next first (show handle _ firstAddress = _ from rfl)
  have third : Run _ [setUp, firstAddress, secondAddress] _ := .next second (show handle _ secondAddress = _ from rfl)
  exact ⟨_, third, rfl, rfl, rfl⟩

theorem given_eth0 : given "eth0" [setUp, firstAddress, secondAddress] =
    [(⟨10, 1, 0, 1⟩, 16), (⟨10, 2, 0, 1⟩, 16)] := rfl

theorem given_other {name : String} (other : name ≠ "eth0") :
    given name [setUp, firstAddress, secondAddress] = [] := by
  have none : ∀ call ∈ [setUp, firstAddress, secondAddress], call.gives name = none := by
    simp only [List.mem_cons, List.not_mem_nil, or_false, forall_eq_or_imp, forall_eq]
    exact ⟨rfl, if_neg (Ne.symm other), if_neg (Ne.symm other)⟩
  exact List.filterMap_eq_nil_iff.mpr none

theorem twoAddresses_apart : Apart [setUp, firstAddress, secondAddress] := by
  intro name name' other a inside b inside'
  by_cases here : name = "eth0"
  · rw [given_other (here ▸ other.symm)] at inside'
    cases inside'
  · rw [given_other here] at inside
    cases inside

theorem twoAddresses_masks : ∀ name, ∀ addr ∈ given name [setUp, firstAddress, secondAddress],
    1 ≤ addr.2 ∧ addr.2 ≤ 32 := by
  intro name addr inside
  by_cases here : name = "eth0"
  · subst here
    rw [given_eth0] at inside
    simp only [List.mem_cons, List.not_mem_nil, or_false] at inside
    rcases inside with rfl | rfl <;> decide
  · rw [given_other here] at inside
    cases inside

theorem twoAddresses_short (name : String) :
    ∀ addr ∈ given name [setUp, firstAddress, secondAddress], addr.2 ≤ 32 :=
  fun addr inside => (twoAddresses_masks name addr inside).2

/-- The second address leaves the first one's route, and the record has neither. -/
theorem second_address_keeps_route : ∃ r2 : Ctx RouteList, Run (Ctx.new 2) [setUp, firstAddress, secondAddress] r2 ∧
    Apart [setUp, firstAddress, secondAddress] ∧
    (∀ name, ∀ addr ∈ given name [setUp, firstAddress, secondAddress], 1 ≤ addr.2 ∧ addr.2 ≤ 32) ∧
    ¬Replaced r2 [setUp, firstAddress, secondAddress] ∧ ¬Recorded r2 [setUp, firstAddress, secondAddress] := by
  obtain ⟨r2, run, old, new, record⟩ := twoAddresses_run
  obtain ⟨intf, found, blank⟩ := Option.map_eq_some_iff.mp record
  have inv := run.inv (by decide) twoAddresses_apart twoAddresses_short
  refine ⟨r2, run, twoAddresses_apart, twoAddresses_masks, fun replaced => ?_,
    inv.not_recorded (inv.heard "eth0" "10.1.0.1/16" (by simp [firstAddress]))⟩
  have same := inv.replaced_iff.mp replaced "eth0" (⟨10, 1, 0, 1⟩, 16) (by simp [given_eth0]) (⟨10, 2, 0, 1⟩, 16)
    (by simp [given_eth0])
  revert same
  decide

theorem connected_route_not_replaced_twice :
    ∃ r2 : Ctx RouteList, Run (Ctx.new 2) [setUp, firstAddress, secondAddress] r2 ∧
    ¬(Replaced r2 [setUp, firstAddress, secondAddress] ∧ Recorded r2 [setUp, firstAddress, secondAddress]) := by
  obtain ⟨r2, run, _⟩ := twoAddresses_run
  exact ⟨r2, run, (connected_route_not_replaced run (by decide) twoAddresses_apart twoAddresses_short).1
    ⟨"eth0", "10.1.0.1/16", by simp [firstAddress]⟩⟩

end Example

end R2.Control
