import R2.Fleet.Nodes

namespace R2.Fleet

open Control

/-- What a control thread does while it holds the lock. -/
inductive Action (n : Nat) (T : Type)
  /-- `unicast` -/
  | send (t : Fin n) (msg : Msg T)
  /-- spins until the control threads are the only ones that have this table -/
  | await (table : V4Table)

section

variable {n : Nat} {T : Type}

def broadcast (msg : Msg T) : List (Action n T) := (List.finRange n).map fun t => .send t msg.clone

def createEthNodes (intf : Interface) : List (Action n T) :=
  broadcast (.gnodeAdd (.ethDecap (ethDecapNew intf)) (ethDecapInit intf.ifindex)) ++
    broadcast (.gnodeAdd (.ethEncap (ethEncapNew intf)) (ethEncapInit intf.ifindex))

/-- `sock` is what `RawSock::new` returns: the descriptor or an error number. -/
def createInterfaceNode (r2 : Ctx T) (sock : Except Int Int) (ifname : String) (ifindex : Nat) (l2Addr : List UInt8) :
    Outcome (Ctx T × Except Int (List (Action n T))) :=
  let interface := newInterface ifname ifindex l2Addr maxHeadroom
  let thread := r2.ifd.lastThread
  let r2 := { r2 with ifd := { r2.ifd with lastThread := (thread + 1) % r2.nthreads } }
  if inside : thread < n then
    match sock with
    | .error errno => .ok (r2, .error (-errno))
    | .ok fd =>
      let intf := IfNode.new (some thread) interface fd
      let msg : Msg T := .gnodeAdd (.ifNode intf) (ifNodeInit ifindex)
      let owner : Fin n := ⟨thread, inside⟩
      .ok ({ r2 with ifd := r2.ifd.add ifname ifindex interface },
        .ok (broadcast (.epollAdd intf.fd thread) ++
          ((List.finRange n).filter (· ≠ owner)).map (fun t => .send t msg.clone) ++
          [.send owner msg] ++ createEthNodes interface))
  else .error .bounds

/-- A call either fails with a text or returns, with what it does each time it
holds the lock. -/
abbrev Reply (n : Nat) (T : Type) := Ctx T × Except String (List (List (Action n T)))

def handleAddIf (r2 : Ctx T) (sock : Except Int Int) (name : String) (ifindex : Int) (mac : String) :
    Outcome (Reply n T) :=
  match strToMac mac with
  | none => .ok (r2, .error "Unable to decode mac address")
  | some l2Addr =>
    if (r2.ifd.name2idx name).isSome ∨ (r2.ifd.idx2name (toUsize ifindex)).isSome then
      .ok (r2, .error ("Interface " ++ name ++ ", index " ++ toString ifindex ++ " exists"))
    else do
      let (r2, created) ← createInterfaceNode r2 sock name (toUsize ifindex) l2Addr
      match created with
      | .error errno => .ok (r2, .error ("Cannot create interface, errno " ++ toString errno))
      | .ok actions => .ok (r2, .ok [actions])

def handleAddClass (r2 : Ctx T) (ifname name parent : String) (qlimit : Int) (isLeaf : Bool) (curves : CurvesApi) :
    Reply n T :=
  match r2.ifd.interfaces ifname with
  | none => (r2, .error ("Cannot find interface " ++ ifname))
  | some intf =>
    (r2, .ok [broadcast (.classAdd ⟨intf.ifindex, name, parent, toUsize qlimit, isLeaf, unwrapCurves curves⟩)])

variable [IpLookupTable T]

/-- `add_or_del_route`: the new routes go out with the table that was not in use,
and the other table follows once it is free. -/
def addOrDelRoute (r2 : Ctx T) (ip : Ipv4Addr) (masklen : Nat) (nhop : Ipv4Addr) (ifindex : Nat) (add : Bool) :
    Ctx T × List (Action n T) :=
  let old := r2.ipv4.which
  let r2 := (Control.addOrDelRoute r2 ip masklen nhop ifindex add).1
  (r2, broadcast (.ipv4TableAdd r2.ipv4.which (r2.ipv4.deref r2.ipv4.which)) ++ [.await old])

/-- The lock is let go between the message and the routes. -/
def handleAddIp (r2 : Ctx T) (ifname ipAndMask : String) : Reply n T :=
  match r2.ifd.interfaces ifname with
  | none => (r2, .error ("Cannot find interface " ++ ifname))
  | some intf =>
    match ipMaskDecode ipAndMask with
    | none => (r2, .error ("Bad IP/MASK " ++ ipAndMask))
    | some (addr, masklen) =>
      if addr = zeroIp ∨ masklen = 0 then (r2, .error ("ZERO IP/MASK " ++ ipAndMask))
      else
        let (curAddr, curMasklen) := getV4addr intf
        let msg : List (Action n T) := broadcast (.modifyInterface (setV4addr intf addr masklen))
        let (r2, deleted) :=
          if curAddr ≠ zeroIp then addOrDelRoute r2 curAddr curMasklen zeroIp intf.ifindex false else (r2, [])
        let (r2, added) := addOrDelRoute r2 addr masklen zeroIp intf.ifindex true
        (r2, .ok [msg, deleted ++ added])

/-- `handle_add_route` and `handle_del_route` -/
def handleRoute (r2 : Ctx T) (add : Bool) (ipMask nhop ifname : String) : Reply n T :=
  match ipMaskDecode ipMask with
  | none => (r2, .error "Unable to decode IP/MASK")
  | some (ip, mask) =>
    match ipv4FromStr nhop.toList with
    | none => (r2, .error "Unable to decode NHOP")
    | some nhopIp =>
      match r2.ifd.interfaces ifname with
      | none => (r2, .error ("Cannot find interface " ++ ifname))
      | some intf =>
        let (r2, actions) := addOrDelRoute r2 ip mask nhopIp intf.ifindex add
        (r2, .ok [actions])

inductive Call
  | addIf (sock : Except Int Int) (name : String) (ifindex : Int) (mac : String)
  | addIp (ifname ipAndMask : String)
  | addClass (ifname name parent : String) (qlimit : Int) (isLeaf : Bool) (curves : CurvesApi)
  | addRoute (ipMask nhop ifname : String)
  | delRoute (ipMask nhop ifname : String)

def handle (r2 : Ctx T) : Call → Outcome (Reply n T)
  | .addIf sock name ifindex mac => handleAddIf r2 sock name ifindex mac
  | .addIp ifname ipAndMask => .ok (handleAddIp r2 ifname ipAndMask)
  | .addClass ifname name parent qlimit isLeaf curves =>
    .ok (handleAddClass r2 ifname name parent qlimit isLeaf curves)
  | .addRoute ipMask nhop ifname => .ok (handleRoute r2 true ipMask nhop ifname)
  | .delRoute ipMask nhop ifname => .ok (handleRoute r2 false ipMask nhop ifname)

end

end R2.Fleet
