import Mathlib.Data.List.Nodup
import R2.Dpdk.Pool

namespace R2

/-- The mbufs of a packet's particles. -/
def Packet.mbufs (pkt : Packet) : List Mbuf := pkt.particle.map mbufOf

namespace PktsDpdk

def refcnt (pool : PktsDpdk) (m : Mbuf) : Nat := (pool.dpdkPool.mbuf m).refcnt

/-- The pool parts with some mbufs; no reference count changes. -/
structure Gives (pool pool' : PktsDpdk) (ms : List Mbuf) : Prop where
  free : (ms ++ pool'.dpdkPool.free).Perm pool.dpdkPool.free
  refcnt : ∀ m, pool'.refcnt m = pool.refcnt m

variable {pool pool' : PktsDpdk} {headroom : Nat}

theorem particle_gives {part : Option Particle} (run : pool.particle headroom = .ok (part, pool')) :
    pool.Gives pool' (part.toList.map mbufOf) := by
  unfold particle at run
  split at run
  · unfold dpdkMbufAlloc at run
    cases waiting : pool.dpdkPool.free with
    | nil =>
      rw [waiting] at run
      cases run
      exact ⟨.refl _, fun _ => rfl⟩
    | cons m rest =>
      rw [waiting] at run
      cases run
      exact ⟨.of_eq waiting.symm, fun _ => rfl⟩
  · cases run

theorem freePart_gives (pool : PktsDpdk) (part : Particle) : (pool.freePart part).Gives pool [mbufOf part] := by
  refine ⟨.refl _, fun m => ?_⟩
  exact (pool.dpdkPool.modify_refcnt_same (mbufOf part) m (f :=
    fun b => { b with raw := part.raw }) fun _ => rfl).symm

theorem Gives.trans {pool'' : PktsDpdk} {ms ns : List Mbuf} (first : pool.Gives pool' ms)
    (second : pool'.Gives pool'' ns) :
    pool.Gives pool'' (ms ++ ns) where
  free := by
    rw [List.append_assoc]
    exact (second.free.append_left ms).trans first.free
  refcnt m := (second.refcnt m).trans (first.refcnt m)

theorem freeParts_gives (parts : List Particle) (pool : PktsDpdk) :
    (parts.foldl freePart pool).Gives pool (parts.map mbufOf) := by
  induction parts generalizing pool with
  | nil => exact ⟨.refl _, fun _ => rfl⟩
  | cons p rest ih =>
    have all := (ih (pool.freePart p)).trans (freePart_gives pool p)
    exact ⟨(List.perm_append_comm.append_right _).trans all.free, all.refcnt⟩

theorem pkt_gives {pkt : Option Packet} (run : pool.pkt headroom = .ok (pkt, pool')) :
    pool.Gives pool' (pkt.toList.flatMap Packet.mbufs) := by
  unfold PktsDpdk.pkt at run
  split at run
  · obtain ⟨⟨part, pool₁⟩, taken, run⟩ := Except.bind_ok_iff.mp run
    have gives := particle_gives taken
    cases part with
    | none =>
      cases run
      exact ⟨gives.free, gives.refcnt⟩
    | some p =>
      dsimp only at run
      split at run
      · cases run
        exact ⟨gives.free, gives.refcnt⟩
      · cases run
        have back := freePart_gives pool₁ p
        exact ⟨back.free.symm.trans gives.free, fun m => (back.refcnt m).symm.trans (gives.refcnt m)⟩
  · cases run

theorem pktWithParticles_gives {pkt : Option Packet} {part : Particle}
    (run : pool.pktWithParticles part = (pkt, pool')) :
    (pkt.toList.flatMap Packet.mbufs ++ pool'.dpdkPool.free).Perm (mbufOf part :: pool.dpdkPool.free) ∧
      ∀ m, pool'.refcnt m = pool.refcnt m := by
  unfold pktWithParticles at run
  split at run
  · cases run
    exact ⟨.refl _, fun _ => rfl⟩
  · cases run
    have back := freePart_gives { pool with allocFail := pool.allocFail + 1 } part
    exact ⟨back.free.symm, fun m => (back.refcnt m).symm⟩

theorem free_gives {pkt : Packet} (run : pool.free pkt = .ok pool') : pool'.Gives pool pkt.mbufs := by
  unfold free freePkt at run
  split at run
  · cases run
  · cases run
    have back := freeParts_gives pkt.particle pool
    exact ⟨back.free, back.refcnt⟩

end PktsDpdk

namespace Dpdk

variable {driver : PortDriver} {dpdk dpdk' : Dpdk} {started : Bool} {pool pool' : PktsDpdk} {pmd pmd' : Pmd}

theorem withLast_mbufs {α : Type} {f : Particle → Outcome (α × Particle)} {a : α} {chain chain' : List Particle}
    (run : Packet.withLast f chain = .ok (a, chain')) (keeps : ∀ p b q, f p = .ok (b, q) → q.ptr = p.ptr) :
    chain'.map mbufOf = chain.map mbufOf := by
  induction chain generalizing a chain' with
  | nil => cases run
  | cons p rest ih =>
    cases rest with
    | nil =>
      obtain ⟨⟨b, q⟩, moved, run⟩ := Except.bind_ok_iff.mp run
      cases run
      exact congrArg (fun m => [m]) (keeps p _ q moved)
    | cons q rest =>
      obtain ⟨⟨b, chain₁⟩, moved, run⟩ := Except.bind_ok_iff.mp run
      cases run
      exact congrArg (mbufOf p :: ·) (ih moved)

theorem moveTail_mbufs {pkt pkt' : Packet} {mv moved : Int} (run : pkt.moveTail mv = .ok (moved, pkt')) :
    pkt'.mbufs = pkt.mbufs := by
  unfold Packet.moveTail at run
  obtain ⟨⟨got, chain⟩, last, run⟩ := Except.bind_ok_iff.mp run
  have same : chain.map mbufOf = pkt.mbufs := withLast_mbufs last fun p b q moved => by
    have same : q = (p.moveTail mv).2 := (congrArg Prod.snd (Except.ok.inj moved)).symm
    rw [same]
    unfold Particle.moveTail
    dsimp only
    split <;> rfl
  dsimp only at run
  split at run <;> cases run <;> exact same

/-- An mbuf that is received goes from the port to a packet, or back to the mempool. -/
theorem recvmsg_mbufs {frame : Option (List UInt8)} {headroom : Nat} {pkt gone : Option Packet}
    (run : dpdk.recvmsg driver started frame headroom pool pmd = .ok (pkt, gone, dpdk', pool', pmd')) :
    ((pkt.toList ++ gone.toList).flatMap Packet.mbufs ++ pool'.dpdkPool.free ++ pmd'.rx).Perm
      (pool.dpdkPool.free ++ pmd.rx) ∧
      pmd'.tx = pmd.tx ∧ ∀ m, pool'.refcnt m = pool.refcnt m := by
  unfold recvmsg at run
  split at run
  · cases run
    exact ⟨.refl _, rfl, fun _ => rfl⟩
  · split at run
    · cases run
      exact ⟨.refl _, rfl, fun _ => rfl⟩
    · split at run
      · rename_i received
        obtain ⟨rx, tx, free, refs⟩ := driver.receives _ _ _ _ _ _ received
        cases run
        exact ⟨free ▸ rx.append_left _, tx, refs⟩
      · rename_i m pmd₁ mp received
        obtain ⟨rx, tx, free, refs⟩ := driver.receives _ _ _ _ _ _ received
        have arrived : ∀ (pkt : Option Packet) (ms : List Mbuf),
            { pool with dpdkPool := mp }.pktWithParticles ((boxPart mp m).reinit mp.ownHeadroom) = (pkt, pool') →
            ms = pkt.toList.flatMap Packet.mbufs →
            (ms ++ pool'.dpdkPool.free ++ pmd₁.rx).Perm (pool.dpdkPool.free ++ pmd.rx) ∧
              pmd₁.tx = pmd.tx ∧ ∀ m, pool'.refcnt m = pool.refcnt m := by
          rintro pkt ms taken rfl
          obtain ⟨moved, kept⟩ := PktsDpdk.pktWithParticles_gives taken
          refine ⟨(moved.append_right _).trans ?_, tx, fun n => (kept n).trans (refs n)⟩
          rw [← free]
          exact List.perm_middle.symm.trans (rx.append_left _)
        split at run
        · cases run
        · split at run
          · rename_i taken
            cases run
            exact arrived none _ taken rfl
          · rename_i k pool₁ taken
            obtain ⟨⟨moved, k'⟩, tail, run⟩ := Except.bind_ok_iff.mp run
            have same := moveTail_mbufs tail
            dsimp only at run
            split at run
            · cases run
              exact arrived (some k) _ taken (congrArg (· ++ []) same)
            · cases run
              exact arrived (some k) _ taken (congrArg (· ++ []) same)

/-- What `sendmsg` does once the port is up: another reference to the packet's
first mbuf, and an enqueue of it when the transmission fails. -/
theorem sendmsg_mbufs {sent len : Nat} {pkt : Packet}
    (run : dpdk.sendmsg driver started sent pool pmd pkt = .ok (len, dpdk', pool', pmd')) :
    (dpdk.init started).1 = false ∧ pool' = pool ∧ pmd' = pmd ∨
    (dpdk.init started).1 = true ∧ ∃ m ∈ pkt.mbufs,
      (∀ n, pool'.refcnt n = pool.refcnt n + if n = m then 1 else 0) ∧ pmd'.rx = pmd.rx ∧
      (sent = 1 ∧ pool'.dpdkPool.free = pool.dpdkPool.free ∧ pmd'.tx = m :: pmd.tx ∨
        sent ≠ 1 ∧ pool'.dpdkPool.free = m :: pool.dpdkPool.free ∧ pmd'.tx = pmd.tx) := by
  unfold sendmsg at run
  split at run
  · rename_i down
    cases run
    exact Or.inl ⟨congrArg Prod.fst down, rfl, rfl⟩
  · rename_i up
    obtain ⟨p, first, run⟩ := Except.bind_ok_iff.mp run
    obtain ⟨_, _, run⟩ := Except.bind_ok_iff.mp run
    obtain ⟨_, _, run⟩ := Except.bind_ok_iff.mp run
    obtain ⟨refcnt, sum, run⟩ := Except.bind_ok_iff.mp run
    obtain ⟨_, rfl⟩ := checkedAdd_ok.mp sum
    have member : mbufOf p ∈ pkt.mbufs := by
      unfold Packet.first at first
      split at first
      · cases first
      · rename_i shape
        cases first
        rw [Packet.mbufs, shape]
        exact List.mem_cons_self ..
    have counted : ∀ n, (if n = mbufOf p then (pool.dpdkPool.mbuf (mbufOf p)).refcnt + 1
        else (pool.dpdkPool.mbuf n).refcnt) = pool.refcnt n + if n = mbufOf p then 1 else 0 := by
      intro n
      split
      · subst n
        rfl
      · rfl
    refine Or.inr ⟨congrArg Prod.fst up, mbufOf p, member, ?_⟩
    dsimp only at run
    split at run
    · rename_i failed
      cases run
      refine ⟨fun n => ?_, ?_, Or.inr ⟨failed, rfl, ?_⟩⟩
      · simp only [PktsDpdk.refcnt, dpdkMbufFree, RteMempool.modify_refcnt]
        exact counted n
      · rw [driver.refuses _ _ _ failed]
      · rw [driver.refuses _ _ _ failed]
    · rename_i succeeded
      have one : sent = 1 := not_not.mp succeeded
      cases run
      refine ⟨fun n => ?_, ?_, Or.inl ⟨one, rfl, ?_⟩⟩
      · simp only [PktsDpdk.refcnt, RteMempool.modify_refcnt]
        exact counted n
      · rw [one, driver.accepts]
      · rw [one, driver.accepts]

end Dpdk

end R2
