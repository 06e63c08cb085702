import Mathlib.Logic.Function.Basic
import R2.Packet.Packet

namespace R2

/-- The mbufs of a mempool, in the order of its memory. -/
abbrev Mbuf := Nat

/-- The fields of `rte_mbuf` that are used here; `raw` is the memory behind the
two words `dpdk_init_mbuf` writes. -/
structure RteMbuf where
  refcnt : Nat
  dataOff : Nat
  dataLen : Nat
  pktLen : Nat
  raw : List UInt8

/-- `headroom` is the `RTE_PKTMBUF_HEADROOM` of the library. -/
structure RteMempool where
  free : List Mbuf
  mbuf : Mbuf → RteMbuf
  bufAddr : Mbuf → Nat
  headroom : Nat

def RteMempool.modify (mp : RteMempool) (m : Mbuf) (f : RteMbuf → RteMbuf) : RteMempool :=
  { mp with mbuf := Function.update mp.mbuf m (f (mp.mbuf m)) }

theorem RteMempool.modify_refcnt (mp : RteMempool) (m n : Mbuf) (f : RteMbuf → RteMbuf) :
    ((mp.modify m f).mbuf n).refcnt = if n = m then (f (mp.mbuf m)).refcnt else (mp.mbuf n).refcnt := by
  by_cases here : n = m
  · subst here
    rw [if_pos rfl]
    exact congrArg RteMbuf.refcnt (Function.update_self ..)
  · rw [if_neg here]
    exact congrArg RteMbuf.refcnt (Function.update_of_ne here ..)

/-- Other fields may change. -/
theorem RteMempool.modify_refcnt_same (mp : RteMempool) (m n : Mbuf) {f : RteMbuf → RteMbuf}
    (same : ∀ b, (f b).refcnt = b.refcnt) : ((mp.modify m f).mbuf n).refcnt = (mp.mbuf n).refcnt := by
  rw [modify_refcnt, same]
  split
  · subst n
    rfl
  · rfl

/-- The enqueue of the mempool, without a look at the reference count. -/
def dpdkMbufFree (mp : RteMempool) (m : Mbuf) : RteMempool :=
  { mp with free := m :: mp.free }

def dpdkMbufAlloc (mp : RteMempool) : Option (Mbuf × RteMempool) :=
  match mp.free with
  | [] => none
  | m :: rest => some (m, { mp with free := rest })

def headroomSteal : Nat := 8 + 8

/-- `HEADROOM` -/
def RteMempool.ownHeadroom (mp : RteMempool) : Nat := mp.headroom - headroomSteal

/-- The particle allocated for mbuf `m` has the number of `m`. -/
def boxPart (mp : RteMempool) (m : Mbuf) : Particle :=
  ⟨m, (mp.mbuf m).raw, 0, 0, Particle.empty_le⟩

/-- The mbuf address in the words before the particle's buffer. -/
def mbufOf (part : Particle) : Mbuf := part.ptr

structure PktsDpdk where
  dpdkPool : RteMempool
  allocFail : Nat
  pkts : List Packet
  particleSz : Nat

namespace PktsDpdk

/-- Every mbuf of a new mempool has one reference. -/
def new (numPkts numParts particleSz : Nat) (bufAddr : Mbuf → Nat) (headroom : Nat) :
    Outcome PktsDpdk :=
  if numPkts ≤ numParts then
    .ok {
      dpdkPool := ⟨List.range numParts, fun _ => ⟨1, 0, 0, 0, List.replicate particleSz 0⟩, bufAddr, headroom⟩
      allocFail := 0
      pkts := (List.range numPkts).reverse.map fun k => ⟨k, [], 0, 0, 0, 0, 0, 0, 0, zeroIp⟩
      particleSz }
  else .error .assertion

def particle (pool : PktsDpdk) (headroom : Nat) : Outcome (Option Particle × PktsDpdk) :=
  if headroom ≤ pool.dpdkPool.ownHeadroom then
    match dpdkMbufAlloc pool.dpdkPool with
    | some (m, mp) => .ok (some (boxPart mp m), { pool with dpdkPool := mp })
    | none => .ok (none, { pool with allocFail := pool.allocFail + 1 })
  else .error .assertion

/-- The particle has been taken off its chain; its bytes stay in the mbuf. -/
def freePart (pool : PktsDpdk) (part : Particle) : PktsDpdk :=
  let mp := pool.dpdkPool.modify (mbufOf part) fun m => { m with raw := part.raw }
  { pool with dpdkPool := dpdkMbufFree mp (mbufOf part) }

def freePkt (pool : PktsDpdk) (pkt : Packet) : Outcome PktsDpdk :=
  if pkt.hasPart then .error .assertion else .ok { pool with pkts := pkt :: pool.pkts }

def pkt (pool : PktsDpdk) (headroom : Nat) : Outcome (Option Packet × PktsDpdk) :=
  if headroom ≤ pool.dpdkPool.ownHeadroom then do
    let (part, pool) ← pool.particle headroom
    match part with
    | some p =>
      match pool.pkts with
      | pkt :: rest => .ok (some (pkt.reinit p), { pool with pkts := rest })
      | [] => .ok (none, pool.freePart p)
    | none => .ok (none, { pool with allocFail := pool.allocFail + 1 })
  else .error .assertion

def pktWithParticles (pool : PktsDpdk) (part : Particle) : Option Packet × PktsDpdk :=
  match pool.pkts with
  | pkt :: rest => (some (pkt.reinit part), { pool with pkts := rest })
  | [] => (none, { pool with allocFail := pool.allocFail + 1 }.freePart part)

/-- `PacketPool::free` -/
def free (pool : PktsDpdk) (pkt : Packet) : Outcome PktsDpdk :=
  (pkt.particle.foldl freePart pool).freePkt { pkt with particle := [] }

end PktsDpdk

/-- What the ports hold of the mempool: mbufs to receive into, and one reference
for each mbuf handed over for transmission. -/
structure Pmd where
  rx : List Mbuf
  tx : List Mbuf

/-- What R2 takes from DPDK: the burst functions of a driver, for one mbuf each, and the end of a
reference. `sent` is what the transmission returns, and `frame` what the port has received. The laws
are what the documentation of DPDK has: a port keeps one reference of an mbuf that it accepts, an mbuf
that is received comes from the ring, and the last reference ends with an enqueue. -/
structure PortDriver where
  dpdkTxOne : Pmd → Mbuf → Nat → Pmd
  dpdkRxOne : Pmd → RteMempool → Option (List UInt8) → Option Mbuf × Pmd × RteMempool
  rtePktmbufFree : RteMempool → Mbuf → RteMempool
  accepts : ∀ pmd m, dpdkTxOne pmd m 1 = { pmd with tx := m :: pmd.tx }
  refuses : ∀ pmd m sent, sent ≠ 1 → dpdkTxOne pmd m sent = pmd
  receives : ∀ pmd mp frame got pmd' mp', dpdkRxOne pmd mp frame = (got, pmd', mp') →
    (got.toList ++ pmd'.rx).Perm pmd.rx ∧ pmd'.tx = pmd.tx ∧ mp'.free = mp.free ∧
      ∀ m, (mp'.mbuf m).refcnt = (mp.mbuf m).refcnt
  frees : ∀ mp m, rtePktmbufFree mp m =
    if (mp.mbuf m).refcnt = 1 then dpdkMbufFree mp m else mp.modify m fun b => { b with refcnt := b.refcnt - 1 }

/-- A driver that writes a frame into an mbuf behind the whole headroom. -/
def ringDriver : PortDriver where
  dpdkTxOne pmd m sent := if sent = 1 then { pmd with tx := m :: pmd.tx } else pmd
  dpdkRxOne pmd mp frame :=
    match frame, pmd.rx with
    | some bytes, m :: rx =>
      (some m, { pmd with rx },
        mp.modify m fun b =>
          { b with
            dataOff := mp.headroom % 2 ^ 16, dataLen := bytes.length % 2 ^ 16, pktLen := bytes.length % 2 ^ 32
            raw := overwrite b.raw mp.ownHeadroom bytes })
    | _, _ => (none, pmd, mp)
  rtePktmbufFree mp m :=
    if (mp.mbuf m).refcnt = 1 then dpdkMbufFree mp m else mp.modify m fun b => { b with refcnt := b.refcnt - 1 }
  accepts _ _ := rfl
  refuses _ _ _ failed := if_neg failed
  receives pmd mp frame got pmd' mp' run := by
    split at run
    · rename_i bytes m rx shape
      cases run
      exact ⟨.of_eq shape.symm, rfl, rfl, fun n => mp.modify_refcnt_same m n fun _ => rfl⟩
    · cases run
      exact ⟨.refl _, rfl, rfl, fun _ => rfl⟩
  frees _ _ := rfl

structure Dpdk where
  initDone : Bool
  initFail : Nat
  noPkts : Nat
  sendErr : Nat
  recvErr : Nat

namespace Dpdk

/-- The port is started by its first message; `started` is the outcome of that. -/
def init (dpdk : Dpdk) (started : Bool) : Bool × Dpdk :=
  if dpdk.initDone then (true, dpdk)
  else if started then (true, { dpdk with initDone := true })
  else (false, { dpdk with initFail := dpdk.initFail + 1 })

/-- The packet returned, and the one that goes out of scope. -/
def recvmsg (driver : PortDriver) (dpdk : Dpdk) (started : Bool) (frame : Option (List UInt8)) (headroom : Nat)
    (pool : PktsDpdk) (pmd : Pmd) : Outcome (Option Packet × Option Packet × Dpdk × PktsDpdk × Pmd) :=
  match dpdk.init started with
  | (false, dpdk) => .ok (none, none, dpdk, pool, pmd)
  | (true, dpdk) =>
    if headroom > pool.dpdkPool.ownHeadroom then
      .ok (none, none, dpdk, pool, pmd)
    else
      match driver.dpdkRxOne pmd pool.dpdkPool frame with
      | (none, pmd, mp) => .ok (none, none, dpdk, { pool with dpdkPool := mp }, pmd)
      | (some m, pmd, mp) =>
        if (mp.mbuf m).dataOff ≠ mp.headroom % 2 ^ 16 then
          .error .assertion
        else
          match { pool with dpdkPool := mp }.pktWithParticles ((boxPart mp m).reinit mp.ownHeadroom) with
          | (none, pool) => .ok (none, none, { dpdk with noPkts := dpdk.noPkts + 1 }, pool, pmd)
          | (some pkt, pool) => do
            let (moved, pkt) ← pkt.moveTail (mp.mbuf m).dataLen
            if moved = (mp.mbuf m).dataLen then
              .ok (some pkt, none, dpdk, pool, pmd)
            else
              .ok (none, some pkt, { dpdk with recvErr := dpdk.recvErr + 1 }, pool, pmd)

/-- The address of the bytes that `pkt.data(0).unwrap()` returns. -/
def dataPtr (mp : RteMempool) (pkt : Packet) : Outcome Nat := do
  match ← pkt.data 0, pkt.particle.find? fun p => 0 < p.len with
  | some _, some p => .ok (mp.bufAddr (mbufOf p) + headroomSteal + p.head)
  | _, _ => .error .unwrap

/-- `sent` is what `dpdk_tx_one` returns. The packet goes out of scope. The reference count is an `i16`. -/
def sendmsg (driver : PortDriver) (dpdk : Dpdk) (started : Bool) (sent : Nat) (pool : PktsDpdk) (pmd : Pmd)
    (pkt : Packet) : Outcome (Nat × Dpdk × PktsDpdk × Pmd) :=
  match dpdk.init started with
  | (false, dpdk) => .ok (0, dpdk, pool, pmd)
  | (true, dpdk) => do
    let first ← pkt.first
    let m := mbufOf first
    let data ← dataPtr pool.dpdkPool pkt
    let off ← sub64 data (pool.dpdkPool.bufAddr m)
    let len := pkt.len
    let refcnt ← checkedAdd 15 .overflow (pool.dpdkPool.mbuf m).refcnt 1
    let mp := pool.dpdkPool.modify m fun b =>
      { b with dataOff := off % 2 ^ 16, dataLen := len % 2 ^ 16, pktLen := len % 2 ^ 32, refcnt }
    let pmd := driver.dpdkTxOne pmd m sent
    if sent ≠ 1 then
      .ok (0, { dpdk with sendErr := dpdk.sendErr + 1 }, { pool with dpdkPool := dpdkMbufFree mp m }, pmd)
    else
      .ok (len, dpdk, { pool with dpdkPool := mp }, pmd)

end Dpdk

end R2
