import R2.Dpdk.Mbufs

namespace R2.Dpdk

/-- A pool, the ports that use it, its return queue, and the packets that
somebody has. -/
structure System where
  pool : PktsDpdk
  pmd : Pmd
  ports : Nat → Dpdk
  queue : List Packet
  flight : List Packet

/-- Where an mbuf can be taken from or is in use: one that is listed twice is
twice in the mempool or shared, at the latest when the queue has been reclaimed. -/
def System.mbufs (s : System) : List Mbuf :=
  s.pool.dpdkPool.free ++ s.pmd.rx ++ (s.queue ++ s.flight).flatMap Packet.mbufs

/-- The states of a pool of `numParts` mbufs; `results` are the values that
`dpdk_tx_one` has returned. A port takes mbufs to receive into and gives up
references of transmissions at any time, and the mempool hands out its mbufs in
any order. -/
inductive Reached (driver : PortDriver) (numPkts numParts capacity : Nat) : List Nat → System → Prop
  | new {particleSz bufAddr headroom} {pool : PktsDpdk} :
      PktsDpdk.new numPkts numParts particleSz bufAddr headroom = .ok pool →
      Reached driver numPkts numParts capacity [] ⟨pool, ⟨[], []⟩, fun _ => ⟨false, 0, 0, 0, 0⟩, [], []⟩
  | pkt {results s headroom} {pkt : Option Packet} {pool : PktsDpdk} :
      Reached driver numPkts numParts capacity results s →
      s.pool.pkt headroom = .ok (pkt, pool) →
      Reached driver numPkts numParts capacity results { s with pool, flight := pkt.toList ++ s.flight }
  | particle {results s headroom} {part : Option Particle} {pool : PktsDpdk} {pkt pkt' : Packet} :
      Reached driver numPkts numParts capacity results s → pkt ∈ s.flight →
      s.pool.particle headroom = .ok (part, pool) → pkt'.mbufs.Perm (part.toList.map mbufOf ++ pkt.mbufs) →
      Reached driver numPkts numParts capacity results { s with pool, flight := pkt' :: s.flight.erase pkt }
  | edit {results s} {pkt pkt' : Packet} : Reached driver numPkts numParts capacity results s → pkt ∈ s.flight →
      pkt'.mbufs = pkt.mbufs →
      Reached driver numPkts numParts capacity results { s with flight := pkt' :: s.flight.erase pkt }
  | recvmsg {results s i started frame headroom dpdk pmd} {pkt gone : Option Packet} {pool : PktsDpdk} :
      Reached driver numPkts numParts capacity results s →
      (s.ports i).recvmsg driver started frame headroom s.pool s.pmd = .ok (pkt, gone, dpdk, pool, pmd) →
      (s.queue ++ gone.toList).length ≤ capacity →
      Reached driver numPkts numParts capacity results
        ⟨pool, pmd, Function.update s.ports i dpdk, s.queue ++ gone.toList, pkt.toList ++ s.flight⟩
  | sendmsg {results s i started sent len dpdk pmd} {pkt : Packet} {pool : PktsDpdk} :
      Reached driver numPkts numParts capacity results s → pkt ∈ s.flight →
      (s.ports i).sendmsg driver started sent s.pool s.pmd pkt = .ok (len, dpdk, pool, pmd) →
      (s.queue ++ [pkt]).length ≤ capacity →
      Reached driver numPkts numParts capacity (if ((s.ports i).init started).1 then sent :: results else results)
        ⟨pool, pmd, Function.update s.ports i dpdk, s.queue ++ [pkt], s.flight.erase pkt⟩
  | drop {results s} {pkt : Packet} : Reached driver numPkts numParts capacity results s → pkt ∈ s.flight →
      (s.queue ++ [pkt]).length ≤ capacity →
      Reached driver numPkts numParts capacity results
        { s with queue := s.queue ++ [pkt], flight := s.flight.erase pkt }
  | reclaim {results s pkt rest} {pool : PktsDpdk} : Reached driver numPkts numParts capacity results s →
      s.queue = pkt :: rest → s.pool.free pkt = .ok pool →
      Reached driver numPkts numParts capacity results { s with pool, queue := rest }
  | refill {results s m mp} : Reached driver numPkts numParts capacity results s →
      dpdkMbufAlloc s.pool.dpdkPool = some (m, mp) →
      Reached driver numPkts numParts capacity results
        { s with pool := { s.pool with dpdkPool := mp }, pmd := { s.pmd with rx := m :: s.pmd.rx } }
  | sent {results s m} : Reached driver numPkts numParts capacity results s → m ∈ s.pmd.tx →
      Reached driver numPkts numParts capacity results
        { s with
          pool := { s.pool with dpdkPool := driver.rtePktmbufFree s.pool.dpdkPool m }
          pmd := { s.pmd with tx := s.pmd.tx.erase m } }
  | reorder {results s free} : Reached driver numPkts numParts capacity results s → free.Perm s.pool.dpdkPool.free →
      Reached driver numPkts numParts capacity results
        { s with pool := { s.pool with dpdkPool := { s.pool.dpdkPool with free } } }

/-- How often the packets hold an mbuf. -/
def holds (m : Mbuf) (pkts : List Packet) : Nat := (pkts.flatMap Packet.mbufs).count m

theorem holds_append (m : Mbuf) (pkts pkts' : List Packet) :
    holds m (pkts ++ pkts') = holds m pkts + holds m pkts' := by
  simp only [holds, List.flatMap_append, List.count_append]

theorem holds_cons (m : Mbuf) (pkt : Packet) (pkts : List Packet) :
    holds m (pkt :: pkts) = pkt.mbufs.count m + holds m pkts := by
  simp only [holds, List.flatMap_cons, List.count_append]

theorem holds_nil (m : Mbuf) : holds m [] = 0 := rfl

theorem holds_erase (m : Mbuf) {pkt : Packet} {pkts : List Packet} (member : pkt ∈ pkts) :
    holds m pkts = pkt.mbufs.count m + holds m (pkts.erase pkt) := by
  rw [← holds_cons]
  exact ((List.perm_cons_erase member).flatMap_right _).count_eq m

/-- Each mbuf of the mempool is in one place, and counts the references that
the ports have to it besides its own. -/
structure Owned (numParts : Nat) (s : System) : Prop where
  once : ∀ m, s.pool.dpdkPool.free.count m + s.pmd.rx.count m + holds m s.queue + holds m s.flight =
    (List.range numParts).count m
  refs : ∀ m, s.pool.refcnt m = 1 + s.pmd.tx.count m

variable {driver : PortDriver} {numPkts numParts capacity : Nat} {results : List Nat} {s : System}

theorem Owned.perm (owned : Owned numParts s) : s.mbufs.Perm (List.range numParts) := by
  refine List.perm_iff_count.mpr fun m => ?_
  have once := owned.once m
  rw [System.mbufs, List.count_append, List.count_append, List.flatMap_append, List.count_append]
  exact (Nat.add_assoc ..).symm.trans once

theorem new_owned {particleSz headroom : Nat} {bufAddr : Mbuf → Nat} {pool : PktsDpdk} (ports : Nat → Dpdk)
    (run : PktsDpdk.new numPkts numParts particleSz bufAddr headroom = .ok pool) :
    Owned numParts ⟨pool, ⟨[], []⟩, ports, [], []⟩ := by
  unfold PktsDpdk.new at run
  split at run
  · cases run
    exact ⟨fun m => rfl, fun m => rfl⟩
  · cases run

/-- The pool gives mbufs to packets, or takes them back. -/
theorem Owned.gives {pool : PktsDpdk} {ports : Nat → Dpdk} {queue flight : List Packet} (owned : Owned numParts s)
    (refs : ∀ m, pool.refcnt m = s.pool.refcnt m)
    (moved : ∀ m, pool.dpdkPool.free.count m + holds m queue + holds m flight =
      s.pool.dpdkPool.free.count m + holds m s.queue + holds m s.flight) :
    Owned numParts ⟨pool, s.pmd, ports, queue, flight⟩ where
  once m := by
    have once := owned.once m
    have moved := moved m
    dsimp only
    omega
  refs m := (refs m).trans (owned.refs m)

/-- As long as every transmission succeeds, every step keeps the mbufs apart. -/
theorem Reached.owned (reached : Reached driver numPkts numParts capacity results s)
    (succeeded : ∀ r ∈ results, r = 1) : Owned numParts s := by
  induction reached with
  | new run => exact new_owned _ run
  | @pkt results s headroom pkt pool _ run ih =>
    have gives := PktsDpdk.pkt_gives run
    refine (ih succeeded).gives gives.refcnt fun m => ?_
    have moved : holds m pkt.toList + pool.dpdkPool.free.count m = s.pool.dpdkPool.free.count m :=
      List.count_append.symm.trans (gives.free.count_eq m)
    rw [holds_append, ← moved]
    omega
  | @particle results s headroom part pool pkt pkt' _ member run kept ih =>
    have gives := PktsDpdk.particle_gives run
    refine (ih succeeded).gives gives.refcnt fun m => ?_
    have moved := gives.free.count_eq m
    have chain := kept.count_eq m
    rw [List.count_append] at moved chain
    rw [holds_cons, holds_erase m member]
    omega
  | edit _ member kept ih =>
    refine (ih succeeded).gives (fun _ => rfl) fun m => ?_
    rw [holds_cons, holds_erase m member, kept]
  | @recvmsg results s i started frame headroom dpdk pmd pkt gone pool _ run room ih =>
    obtain ⟨moved, tx, refs⟩ := Dpdk.recvmsg_mbufs run
    have owned := ih succeeded
    refine ⟨fun m => ?_, fun m => ?_⟩
    · have once := owned.once m
      have moved : holds m (pkt.toList ++ gone.toList) + pool.dpdkPool.free.count m + pmd.rx.count m =
          s.pool.dpdkPool.free.count m + s.pmd.rx.count m := by
        simpa only [List.count_append, holds] using moved.count_eq m
      dsimp only
      rw [holds_append] at moved ⊢
      rw [holds_append]
      omega
    · dsimp only
      rw [refs, tx]
      exact owned.refs m
  | @sendmsg results s i started sent len dpdk pmd pkt pool _ member run room ih =>
    rcases Dpdk.sendmsg_mbufs run with ⟨down, rfl, rfl⟩ | ⟨up, m, first, refs, rx, outcome⟩
    · rw [down] at succeeded
      refine (ih succeeded).gives (fun _ => rfl) fun m => ?_
      rw [holds_append, holds_cons, holds_nil, holds_erase m member]
      omega
    · rw [up] at succeeded
      have owned := ih fun r older => succeeded r (List.mem_cons_of_mem _ older)
      have one := succeeded sent (List.mem_cons_self ..)
      rcases outcome with ⟨_, free, tx⟩ | ⟨failed, _⟩
      · refine ⟨fun n => ?_, fun n => ?_⟩
        · have once := owned.once n
          have moved := holds_erase n member
          dsimp only
          rw [holds_append, holds_cons, holds_nil, free, rx]
          omega
        · dsimp only
          rw [refs, owned.refs n, tx, List.count_cons]
          by_cases here : n = m
          · subst here
            simp only [if_true, beq_self_eq_true]
            omega
          · simp only [if_neg here, beq_eq_false_iff_ne.mpr (Ne.symm here)]
            rfl
      · exact absurd one failed
  | @drop results s pkt _ member room ih =>
    refine (ih succeeded).gives (fun _ => rfl) fun m => ?_
    rw [holds_append, holds_cons, holds_nil, holds_erase m member]
    omega
  | reclaim _ shape run ih =>
    have gives := PktsDpdk.free_gives run
    refine (ih succeeded).gives (fun m => (gives.refcnt m).symm) fun m => ?_
    have moved := gives.free.count_eq m
    rw [List.count_append] at moved
    rw [shape, holds_cons]
    omega
  | @refill results s m mp _ taken ih =>
    have owned := ih succeeded
    unfold dpdkMbufAlloc at taken
    split at taken
    · cases taken
    · rename_i k rest waiting
      cases taken
      refine ⟨fun n => ?_, owned.refs⟩
      have once := owned.once n
      rw [waiting] at once
      dsimp only
      rw [List.count_cons] at once ⊢
      omega
  | @sent results s m _ member ih =>
    have owned := ih succeeded
    have held := owned.refs m
    have positive := List.count_pos_iff.mpr member
    have shared : (s.pool.dpdkPool.mbuf m).refcnt ≠ 1 := by
      unfold PktsDpdk.refcnt at held
      omega
    rw [driver.frees, if_neg shared]
    refine ⟨owned.once, fun n => ?_⟩
    have refs := owned.refs n
    simp only [PktsDpdk.refcnt, RteMempool.modify_refcnt, List.count_erase] at refs ⊢
    by_cases here : n = m
    · subst here
      simp only [if_true, beq_self_eq_true]
      omega
    · simp only [if_neg here, beq_eq_false_iff_ne.mpr (Ne.symm here)]
      exact refs
  | reorder _ perm ih =>
    refine (ih succeeded).gives (fun _ => rfl) fun m => ?_
    rw [perm.count_eq m]

/-- What the reclaim loop of `Graph::run` puts back. -/
theorem frees_count (pkts : List Packet) (pool : PktsDpdk) : ∃ pool', pkts.foldlM PktsDpdk.free pool = .ok pool' ∧
    ∀ m, pool'.dpdkPool.free.count m = pool.dpdkPool.free.count m + holds m pkts := by
  induction pkts generalizing pool with
  | nil => exact ⟨pool, rfl, fun _ => rfl⟩
  | cons pkt rest ih =>
    obtain ⟨pool₁, freed⟩ : ∃ pool₁, pool.free pkt = .ok pool₁ := ⟨_, rfl⟩
    obtain ⟨pool', run, counts⟩ := ih pool₁
    refine ⟨pool', ?_, fun m => ?_⟩
    · rw [List.foldlM_cons, freed]
      exact run
    · have back : pkt.mbufs.count m + pool.dpdkPool.free.count m = pool₁.dpdkPool.free.count m :=
        List.count_append.symm.trans ((PktsDpdk.free_gives freed).free.count_eq m)
      rw [counts, holds_cons, ← back]
      omega

/-- With any DPDK that keeps the laws of `PortDriver`: as long as `dpdk_tx_one` returns 1, every mbuf is
in one place. The first time it does not, `sendmsg` has enqueued an mbuf that the packet still holds,
and the reclaim loop enqueues it a second time. -/
theorem mbufs_owned_once (reached : Reached driver numPkts numParts capacity results s)
    (succeeded : ∀ r ∈ results, r = 1) :
    s.mbufs.Nodup ∧
    ∀ i started sent len dpdk pool pmd, ∀ pkt ∈ s.flight,
      (s.ports i).sendmsg driver started sent s.pool s.pmd pkt = .ok (len, dpdk, pool, pmd) →
      ((s.ports i).init started).1 = true → sent ≠ 1 →
      ∃ pool', (s.queue ++ [pkt]).foldlM PktsDpdk.free pool = .ok pool' ∧
        ∃ m ∈ pkt.mbufs, 2 ≤ pool'.dpdkPool.free.count m := by
  refine ⟨(reached.owned succeeded).perm.nodup_iff.mpr List.nodup_range, ?_⟩
  intro i started sent len dpdk pool pmd pkt _ run up failed
  obtain ⟨pool', reclaimed, counts⟩ := frees_count (s.queue ++ [pkt]) pool
  refine ⟨pool', reclaimed, ?_⟩
  rcases Dpdk.sendmsg_mbufs run with ⟨down, _⟩ | ⟨_, m, first, _, _, ⟨one, _⟩ | ⟨_, free, _⟩⟩
  · rw [up] at down
    cases down
  · exact absurd one failed
  · refine ⟨m, first, ?_⟩
    have again := List.count_pos_iff.mpr first
    rw [counts, free, List.count_cons_self, holds_append, holds_cons]
    omega

/-- A packet of one byte in the mbuf `m`. -/
def oneByte (k : Nat) (m : Mbuf) : Packet :=
  ⟨k, [⟨m, [7, 0, 0, 0], 0, 1, Nat.zero_le 1⟩], 1, 0, 0, 0, 0, 0, 0, zeroIp⟩

/-- A packet is transmitted, reclaimed and allocated again before the port is done with it. -/
theorem mbufs_owned_once_sent : ∃ s s', Reached ringDriver 2 2 2 [1] s ∧ s.pmd.tx = [0] ∧ s.flight = [oneByte 1 0] ∧
    s.mbufs.Nodup ∧ Reached ringDriver 2 2 2 [1] s' ∧ s'.pmd.tx = [] ∧ s'.mbufs.Nodup ∧
    ∃ pool', 2 ≤ pool'.dpdkPool.free.count 0 ∧
      ∃ len dpdk pool, (s.ports 0).sendmsg ringDriver true 0 s.pool s.pmd (oneByte 1 0) = .ok (len, dpdk, pool, s.pmd) ∧
        (s.queue ++ [oneByte 1 0]).foldlM PktsDpdk.free pool = .ok pool' := by
  have fresh := @Reached.new ringDriver 2 2 2 4 (fun m => 4096 * m) 128 _ rfl
  have taken := @Reached.pkt _ _ _ _ _ _ 0 _ _ fresh rfl
  have filled := @Reached.edit _ _ _ _ _ _ _ (oneByte 1 0) taken (List.mem_cons_self ..) rfl
  have sent := @Reached.sendmsg _ _ _ _ _ _ 0 true 1 _ _ _ _ _ filled (List.mem_cons_self ..) rfl (by decide)
  have freed := sent.reclaim rfl rfl
  have again := @Reached.pkt _ _ _ _ _ _ 0 _ _ freed rfl
  have refilled := @Reached.edit _ _ _ _ _ _ _ (oneByte 1 0) again (List.mem_cons_self ..) rfl
  have done := refilled.sent (List.mem_cons_self ..)
  obtain ⟨apart, first⟩ := mbufs_owned_once refilled (by decide)
  obtain ⟨pool', reclaimed, m, member, twice⟩ :=
    first 0 true 0 _ _ _ _ (oneByte 1 0) (List.mem_cons_self ..) rfl rfl (by decide)
  cases List.mem_singleton.mp member
  exact ⟨_, _, refilled, rfl, rfl, apart, done, rfl, (mbufs_owned_once done (by decide)).1, pool', twice,
    _, _, _, rfl, reclaimed⟩

/-- After a failed transmission two packets share an mbuf. -/
theorem mbuf_shared : ∃ s, Reached ringDriver 2 2 2 [0] s ∧ s.pmd.tx = [] ∧
    s.flight.map (fun k => (k.ptr, k.mbufs)) = [(0, [0]), (1, [0])] ∧ ¬s.mbufs.Nodup := by
  have fresh := @Reached.new ringDriver 2 2 2 4 (fun m => 4096 * m) 128 _ rfl
  have taken := @Reached.pkt _ _ _ _ _ _ 0 _ _ fresh rfl
  have filled := @Reached.edit _ _ _ _ _ _ _ (oneByte 1 0) taken (List.mem_cons_self ..) rfl
  have failed := @Reached.sendmsg _ _ _ _ _ _ 0 true 0 _ _ _ _ _ filled (List.mem_cons_self ..) rfl (by decide)
  have freed := failed.reclaim rfl rfl
  have again := @Reached.pkt _ _ _ _ _ _ 0 _ _ freed rfl
  have shared := @Reached.pkt _ _ _ _ _ _ 0 _ _ again rfl
  exact ⟨_, shared, rfl, rfl, by decide⟩

end R2.Dpdk
