import R2.Control.Names
import R2.Fwd.Decode
import R2.Graph.Graph
import R2.Route.Update

namespace R2.Control

def maxInterfaces : Nat := 4 * 1024
def maxHeadroom : Nat := 100
def etherMtu : Nat := 1500

/-- `i32 as usize` -/
def toUsize (n : Int) : Nat := (n % 2 ^ 64).toNat

def newInterface (ifname : String) (ifindex : Nat) (l2Addr : List UInt8) (headroom : Nat) : Interface :=
  ⟨ifname, ifindex, 10 * 1024 * 1024 * 1024, etherMtu, zeroIp, 0, l2Addr, headroom⟩

def getV4addr (intf : Interface) : Ipv4Addr × Nat := (intf.ipv4Addr, intf.maskLen)

def setV4addr (intf : Interface) (addr : Ipv4Addr) (maskLen : Nat) : Interface :=
  { intf with ipv4Addr := addr, maskLen }

/-- The clients of graph nodes, by their kind and their interface. -/
inductive Client
  | drop
  | ipv4Parse
  | ipv4Fwd
  | encapMux
  | ifNode (ifindex : Nat)
  | ethDecap (ifindex : Nat)
  | ethEncap (ifindex : Nat)
deriving DecidableEq, Repr

/-- The messages of the modelled calls to all forwarding threads; a table comes
with the routes it has while the threads hold it. -/
inductive CtrlMsg (T : Type)
  | gnodeAdd (node : Client) (init : GnodeInit)
  | epollAdd (thread : Nat)
  | ipv4TableAdd (table : IPv4Table T)
  | modifyInterface (intf : Interface)

structure IfdCtx where
  lastThread : Nat
  name2idx : String → Option Nat
  idx2name : Nat → Option String
  interfaces : String → Option Interface

namespace IfdCtx

def new : IfdCtx := ⟨0, fun _ => none, fun _ => none, fun _ => none⟩

def add (ifd : IfdCtx) (ifname : String) (ifindex : Nat) (interface : Interface) : IfdCtx :=
  { ifd with
    interfaces := Function.update ifd.interfaces ifname (some interface)
    name2idx := Function.update ifd.name2idx ifname (some ifindex)
    idx2name := Function.update ifd.idx2name ifindex (some ifname) }

end IfdCtx

/-- The context of the control threads. -/
structure Ctx (T : Type) where
  nthreads : Nat
  ifd : IfdCtx
  ipv4 : IPv4Ctx T

section

variable {T : Type}

def Ctx.new [IpLookupTable T] (nthreads : Nat) : Ctx T := ⟨nthreads, .new, .new⟩

def ifNodeInit (ifindex : Nat) : GnodeInit := ⟨Names.rxTx ifindex, [dropName, Names.l2EthDecap ifindex], ⟨0, 0⟩⟩

def ethDecapInit (ifindex : Nat) : GnodeInit :=
  ⟨Names.l2EthDecap ifindex, [dropName, Names.l3Ipv4Parse, Names.rxTx ifindex], ⟨0, 0⟩⟩

def ethEncapInit (ifindex : Nat) : GnodeInit := ⟨Names.l2EthEncap ifindex, [dropName, Names.rxTx ifindex], ⟨0, 0⟩⟩

def createEthNodes (intf : Interface) : List (CtrlMsg T) :=
  [.gnodeAdd (.ethDecap intf.ifindex) (ethDecapInit intf.ifindex),
    .gnodeAdd (.ethEncap intf.ifindex) (ethEncapInit intf.ifindex)]

/-- `sock` is what `RawSock::new` returns, an error number if it fails. -/
def createInterfaceNode (r2 : Ctx T) (sock : Except Int Unit) (ifname : String) (ifindex : Nat)
    (l2Addr : List UInt8) :
    Ctx T × Except Int (List (CtrlMsg T)) :=
  let interface := newInterface ifname ifindex l2Addr maxHeadroom
  let thread := r2.ifd.lastThread
  let r2 := { r2 with ifd := { r2.ifd with lastThread := (thread + 1) % r2.nthreads } }
  match sock with
  | .error errno => (r2, .error (-errno))
  | .ok () =>
    ({ r2 with ifd := r2.ifd.add ifname ifindex interface },
      .ok ([.epollAdd thread, .gnodeAdd (.ifNode ifindex) (ifNodeInit ifindex)] ++ createEthNodes interface))

/-- A call either fails with a text or returns, with the messages it sent. -/
abbrev Reply (T : Type) := Ctx T × Except String (List (CtrlMsg T))

def handleAddIf (r2 : Ctx T) (sock : Except Int Unit) (name : String) (ifindex : Int) (mac : String) : Reply T :=
  match strToMac mac with
  | none => (r2, .error "Unable to decode mac address")
  | some l2Addr =>
    if (r2.ifd.name2idx name).isSome ∨ (r2.ifd.idx2name (toUsize ifindex)).isSome then
      (r2, .error ("Interface " ++ name ++ ", index " ++ toString ifindex ++ " exists"))
    else
      match createInterfaceNode r2 sock name (toUsize ifindex) l2Addr with
      | (r2, .error errno) => (r2, .error ("Cannot create interface, errno " ++ toString errno))
      | (r2, .ok msgs) => (r2, .ok msgs)

/-- An `add_if` that succeeds finds the name and the index free. -/
theorem handleAddIf_ok {r2 r2' : Ctx T} {sock : Except Int Unit} {name mac : String} {ifindex : Int}
    {msgs : List (CtrlMsg T)}
    (run : handleAddIf r2 sock name ifindex mac = (r2', .ok msgs)) :
    ∃ l2Addr thread, strToMac mac = some l2Addr ∧ r2.ifd.name2idx name = none ∧
    r2.ifd.idx2name (toUsize ifindex) = none ∧
      r2' = { r2 with
        ifd := ({ r2.ifd with lastThread := thread } : IfdCtx).add name (toUsize ifindex)
          (newInterface name (toUsize ifindex) l2Addr maxHeadroom) } ∧
      msgs = [.epollAdd r2.ifd.lastThread, .gnodeAdd (.ifNode (toUsize ifindex)) (ifNodeInit (toUsize ifindex)),
        .gnodeAdd (.ethDecap (toUsize ifindex)) (ethDecapInit (toUsize ifindex)),
        .gnodeAdd (.ethEncap (toUsize ifindex)) (ethEncapInit (toUsize ifindex))] := by
  unfold handleAddIf at run
  cases mac : strToMac mac with
  | none =>
    rw [mac] at run
    cases run
  | some l2Addr =>
    rw [mac] at run
    dsimp only at run
    split at run
    · cases run
    · rename_i free
      rw [not_or, Option.not_isSome_iff_eq_none, Option.not_isSome_iff_eq_none] at free
      cases sock with
      | error errno => cases run
      | ok =>
        cases run
        exact ⟨l2Addr, _, rfl, free.1, free.2, rfl, rfl⟩

variable [IpLookupTable T]

/-- `add_or_del_route` from its call to its return, when the threads have let go
of the table that was in use. -/
def addOrDelRoute (r2 : Ctx T) (ip : Ipv4Addr) (masklen : Nat) (nhop : Ipv4Addr) (ifindex : Nat) (add : Bool) :
    Ctx T × CtrlMsg T :=
  let op : RouteOp := ⟨ip, masklen, nhop, ifindex, add⟩
  let standby := r2.ipv4.which.other
  let ipv4 := { r2.ipv4.write standby (op.run (r2.ipv4.deref standby)) with which := standby }
  let msg := .ipv4TableAdd (ipv4.deref standby)
  let old := standby.other
  ({ r2 with ipv4 := ipv4.write old (op.run (ipv4.deref old)) }, msg)

def addRoute (r2 : Ctx T) (ip : Ipv4Addr) (masklen : Nat) (nhop : Ipv4Addr) (ifindex : Nat) : Ctx T × CtrlMsg T :=
  addOrDelRoute r2 ip masklen nhop ifindex true

def delRoute (r2 : Ctx T) (ip : Ipv4Addr) (masklen : Nat) (nhop : Ipv4Addr) (ifindex : Nat) : Ctx T × CtrlMsg T :=
  addOrDelRoute r2 ip masklen nhop ifindex false

def handleAddIp (r2 : Ctx T) (ifname ipAndMask : String) : Reply T :=
  match r2.ifd.interfaces ifname with
  | none => (r2, .error ("Cannot find interface " ++ ifname))
  | some intf =>
    match ipMaskDecode ipAndMask with
    | none => (r2, .error ("Bad IP/MASK " ++ ipAndMask))
    | some (addr, masklen) =>
      if addr = zeroIp ∨ masklen = 0 then (r2, .error ("ZERO IP/MASK " ++ ipAndMask))
      else
        let (curAddr, curMasklen) := getV4addr intf
        let newIntf := setV4addr intf addr masklen
        let msgs := [.modifyInterface newIntf]
        let (r2, msgs) := if curAddr ≠ zeroIp then
            let (r2, msg) := delRoute r2 curAddr curMasklen zeroIp intf.ifindex
            (r2, msgs ++ [msg])
          else (r2, msgs)
        let (r2, msg) := addRoute r2 addr masklen zeroIp intf.ifindex
        (r2, .ok (msgs ++ [msg]))

/-- `handle_add_route` and `handle_del_route` up to the call that tells them apart. -/
def handleRoute (run : Ctx T → Ipv4Addr → Nat → Ipv4Addr → Nat → Ctx T × CtrlMsg T) (r2 : Ctx T)
    (ipMask nhop ifname : String) : Reply T :=
  match ipMaskDecode ipMask with
  | none => (r2, .error "Unable to decode IP/MASK")
  | some (ip, mask) =>
    match ipv4FromStr nhop.toList with
    | none => (r2, .error "Unable to decode NHOP")
    | some nhopIp =>
      match r2.ifd.interfaces ifname with
      | none => (r2, .error ("Cannot find interface " ++ ifname))
      | some intf =>
        let (r2, msg) := run r2 ip mask nhopIp intf.ifindex
        (r2, .ok [msg])

def handleAddRoute (r2 : Ctx T) (ipMask nhop ifname : String) : Reply T := handleRoute addRoute r2 ipMask nhop ifname

def handleDelRoute (r2 : Ctx T) (ipMask nhop ifname : String) : Reply T := handleRoute delRoute r2 ipMask nhop ifname

omit [IpLookupTable T] in
theorem handleRoute_ok {r2 r2' : Ctx T} {msgs : List (CtrlMsg T)}
    {run : Ctx T → Ipv4Addr → Nat → Ipv4Addr → Nat → Ctx T × CtrlMsg T} 
    {ipMask nhop ifname : String} (done : handleRoute run r2 ipMask nhop ifname = (r2', .ok msgs)) :
    ∃ ip mask nhopIp intf, r2.ifd.interfaces ifname = some intf ∧ r2' = (run r2 ip mask nhopIp intf.ifindex).1 ∧
      msgs = [(run r2 ip mask nhopIp intf.ifindex).2] := by
  unfold handleRoute at done
  split at done
  · cases done
  · split at done
    · cases done
    · split at done
      · cases done
      · rename_i intf found
        cases done
        exact ⟨_, _, _, intf, found, rfl, rfl⟩

omit [IpLookupTable T] in
theorem handleRoute_error {r2 r2' : Ctx T} {text : String}
    (run : Ctx T → Ipv4Addr → Nat → Ipv4Addr → Nat → Ctx T × CtrlMsg T)
    {ipMask nhop ifname : String} (done : handleRoute run r2 ipMask nhop ifname = (r2', .error text)) :
    ∃ thread, r2' = { r2 with ifd := { r2.ifd with lastThread := thread } } := by
  unfold handleRoute at done
  split at done
  · cases done
    exact ⟨_, rfl⟩
  · split at done
    · cases done
      exact ⟨_, rfl⟩
    · split at done
      · cases done
        exact ⟨_, rfl⟩
      · cases done

/-- After `add_or_del_route` both tables have seen the operation. -/
theorem addOrDelRoute_deref (r2 : Ctx T) (ip : Ipv4Addr) (masklen : Nat) (nhop : Ipv4Addr) (ifindex : Nat)
    (add : Bool)
    (table : V4Table) : (addOrDelRoute r2 ip masklen nhop ifindex add).1.ipv4.deref table =
      (⟨ip, masklen, nhop, ifindex, add⟩ : RouteOp).run (r2.ipv4.deref table) := by
  unfold addOrDelRoute
  cases r2.ipv4.which <;> cases table <;> rfl

/-- The message of `add_or_del_route` has the table as it is afterwards. -/
theorem addOrDelRoute_msg (r2 : Ctx T) (ip : Ipv4Addr) (masklen : Nat) (nhop : Ipv4Addr) (ifindex : Nat)
    (add : Bool) :
    ∃ table, (addOrDelRoute r2 ip masklen nhop ifindex add).2 =
      .ipv4TableAdd ((addOrDelRoute r2 ip masklen nhop ifindex add).1.ipv4.deref table) := by
  refine ⟨r2.ipv4.which.other, ?_⟩
  unfold addOrDelRoute
  cases r2.ipv4.which <;> rfl

theorem handleAddIp_ok {r2 r2' : Ctx T} {ifname ipAndMask : String} {msgs : List (CtrlMsg T)}
    (run : handleAddIp r2 ifname ipAndMask = (r2', .ok msgs)) :
    ∃ intf addr masklen, r2.ifd.interfaces ifname = some intf ∧ ipMaskDecode ipAndMask = some (addr, masklen) ∧
      addr ≠ zeroIp ∧ masklen ≠ 0 ∧
      ((intf.ipv4Addr = zeroIp ∧ r2' = (addRoute r2 addr masklen zeroIp intf.ifindex).1 ∧
          msgs = [.modifyInterface (setV4addr intf addr masklen), (addRoute r2 addr masklen zeroIp intf.ifindex).2]) ∨
        (intf.ipv4Addr ≠ zeroIp ∧ ∃ r2₁ msg, delRoute r2 intf.ipv4Addr intf.maskLen zeroIp intf.ifindex = (r2₁, msg) ∧
          r2' = (addRoute r2₁ addr masklen zeroIp intf.ifindex).1 ∧
          msgs = [.modifyInterface (setV4addr intf addr masklen), msg,
            (addRoute r2₁ addr masklen zeroIp intf.ifindex).2])) := by
  unfold handleAddIp at run
  cases found : r2.ifd.interfaces ifname with
  | none =>
    rw [found] at run
    cases run
  | some intf =>
    rw [found] at run
    cases decoded : ipMaskDecode ipAndMask with
    | none =>
      rw [decoded] at run
      cases run
    | some pair =>
      obtain ⟨addr, masklen⟩ := pair
      rw [decoded] at run
      dsimp only [getV4addr] at run
      split at run
      · cases run
      · rename_i usable
        rw [not_or] at usable
        refine ⟨intf, addr, masklen, rfl, rfl, usable.1, usable.2, ?_⟩
        by_cases unset : intf.ipv4Addr = zeroIp
        · rw [if_neg (not_not_intro unset)] at run
          cases run
          exact Or.inl ⟨unset, rfl, rfl⟩
        · rw [if_pos unset] at run
          cases run
          exact Or.inr ⟨unset, _, _, rfl, rfl, rfl⟩

inductive ApiCall
  | addIf (sock : Except Int Unit) (name : String) (ifindex : Int) (mac : String)
  | addIp (ifname ipAndMask : String)
  | addRoute (ipMask nhop ifname : String)
  | delRoute (ipMask nhop ifname : String)

def handle (r2 : Ctx T) : ApiCall → Reply T
  | .addIf sock name ifindex mac => handleAddIf r2 sock name ifindex mac
  | .addIp ifname ipAndMask => handleAddIp r2 ifname ipAndMask
  | .addRoute ipMask nhop ifname => handleAddRoute r2 ipMask nhop ifname
  | .delRoute ipMask nhop ifname => handleDelRoute r2 ipMask nhop ifname

/-- A call that fails leaves the interfaces and the routes as they are. -/
theorem handle_error {r2 r2' : Ctx T} {call : ApiCall} {text : String} (run : handle r2 call = (r2', .error text)) :
    ∃ thread, r2' = { r2 with ifd := { r2.ifd with lastThread := thread } } := by
  cases call with
  | addIf sock name ifindex mac =>
    change handleAddIf r2 sock name ifindex mac = _ at run
    unfold handleAddIf at run
    split at run
    · cases run
      exact ⟨_, rfl⟩
    · split at run
      · cases run
        exact ⟨_, rfl⟩
      · cases sock with
        | error errno =>
          cases run
          exact ⟨_, rfl⟩
        | ok => cases run
  | addIp name ipAndMask =>
    change handleAddIp r2 name ipAndMask = _ at run
    unfold handleAddIp at run
    split at run
    · cases run
      exact ⟨_, rfl⟩
    · split at run
      · cases run
        exact ⟨_, rfl⟩
      · split at run
        · cases run
          exact ⟨_, rfl⟩
        · cases run
  | addRoute ipMask nhop name => exact handleRoute_error addRoute run
  | delRoute ipMask nhop name => exact handleRoute_error delRoute run

end

end R2.Control
