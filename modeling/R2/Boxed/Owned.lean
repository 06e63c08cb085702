import Mathlib.Data.List.Nodup
import R2.Boxed.Heap

namespace R2.Boxed

/-- The particles that the links lead to. -/
inductive Chain (h : Heap) : Option BoxPart → List BoxPart → Prop
  | nil : Chain h none []
  | cons {p rest} : Chain h (h.part p).next rest → Chain h (some p) (p :: rest)

/-- Only the links of the chain itself matter. -/
theorem Chain.kept {h h' : Heap} {start : Option BoxPart} {chain : List BoxPart} (links : Chain h start chain)
    (same : ∀ p ∈ chain, (h'.part p).next = (h.part p).next) : Chain h' start chain := by
  induction links with
  | nil => exact .nil
  | @cons p rest _ ih =>
    refine .cons ?_
    rw [same p (List.mem_cons_self ..)]
    exact ih fun q member => same q (List.mem_cons_of_mem _ member)

/-- The packets and particles of a pool: each packet is in the pool or held with
the chain of its particles, and each particle is in the pool or in one chain. -/
structure Owned (pkts : List BoxPkt) (parts : List BoxPart) (h : Heap)
    (held : List (BoxPkt × List BoxPart)) : Prop where
  packets : (h.pkts ++ held.map Prod.fst).Perm pkts
  particles : (h.particles ++ held.flatMap Prod.snd).Perm parts
  chained : ∀ e ∈ held, Chain h (h.pkt e.1).particle e.2 ∧ e.2 ≠ []
  empty : ∀ k ∈ h.pkts, (h.pkt k).particle = none

namespace Owned

variable {pkts : List BoxPkt} {parts : List BoxPart} {h h' : Heap} {held : List (BoxPkt × List BoxPart)}
  {k : BoxPkt} {chain chain' : List BoxPart}

theorem perm {held' : List (BoxPkt × List BoxPart)} (owned : Owned pkts parts h held) (perm : held.Perm held') :
    Owned pkts parts h held' where
  packets := ((perm.symm.map _).append_left _).trans owned.packets
  particles := ((perm.symm.flatMap_right _).append_left _).trans owned.particles
  chained e member := owned.chained e (perm.mem_iff.mpr member)
  empty := owned.empty

/-- The packet at hand is no other packet, and its particles are in no other chain. -/
theorem apart (owned : Owned pkts parts h ((k, chain) :: held)) (nodupPkts : pkts.Nodup) (nodupParts : parts.Nodup) :
    (∀ j ∈ h.pkts, j ≠ k) ∧ (∀ p ∈ h.particles, p ∉ chain) ∧
      ∀ e ∈ held, e.1 ≠ k ∧ ∀ p ∈ e.2, p ∉ h.particles ∧ p ∉ chain := by
  have packets := owned.packets.nodup_iff.mpr nodupPkts
  have particles := owned.particles.nodup_iff.mpr nodupParts
  rw [List.map_cons, List.nodup_append'] at packets
  rw [List.flatMap_cons, List.nodup_append'] at particles
  obtain ⟨_, once, separate⟩ := packets
  obtain ⟨_, chains, pool⟩ := particles
  obtain ⟨_, _, others⟩ := List.nodup_append'.mp chains
  refine ⟨fun j member same => ?_, fun p member mine => ?_,
    fun e member => ⟨fun same => ?_, fun p inside => ⟨?_, ?_⟩⟩⟩
  · exact separate member (same ▸ List.mem_cons_self ..)
  · exact pool member (List.mem_append_left _ mine)
  · exact (List.nodup_cons.mp once).1 (List.mem_map.mpr ⟨e, member, same⟩)
  · intro waits
    exact pool waits (List.mem_append_right _ (List.mem_flatMap.mpr ⟨e, member, inside⟩))
  · intro mine
    exact others mine (List.mem_flatMap.mpr ⟨e, member, inside⟩)

/-- The chain of one packet changes, by particles of the pool. -/
theorem focus (owned : Owned pkts parts h ((k, chain) :: held)) (nodupPkts : pkts.Nodup) (nodupParts : parts.Nodup)
    (samePkts : h'.pkts = h.pkts) (moved : (h'.particles ++ chain').Perm (h.particles ++ chain))
    (others : ∀ j, j ≠ k → (h'.pkt j).particle = (h.pkt j).particle)
    (links : ∀ p, p ∉ h.particles → p ∉ chain → (h'.part p).next = (h.part p).next)
    (chained : Chain h' (h'.pkt k).particle chain') (nonempty : chain' ≠ []) :
    Owned pkts parts h' ((k, chain') :: held) := by
  obtain ⟨pool, _, apart⟩ := owned.apart nodupPkts nodupParts
  refine ⟨?_, ?_, fun e member => ?_, fun j member => ?_⟩
  · rw [samePkts]
    exact owned.packets
  · refine List.Perm.trans ?_ owned.particles
    simp only [List.flatMap_cons, ← List.append_assoc]
    exact moved.append_right _
  · rcases List.mem_cons.mp member with rfl | old
    · exact ⟨chained, nonempty⟩
    · obtain ⟨other, separate⟩ := apart e old
      obtain ⟨before, nonempty⟩ := owned.chained e (List.mem_cons_of_mem _ old)
      rw [others e.1 other]
      exact ⟨before.kept fun p inside => links p (separate p inside).1 (separate p inside).2, nonempty⟩
  · rw [samePkts] at member
    rw [others j (pool j member)]
    exact owned.empty j member

/-- Contents may change as long as no link does. -/
theorem edit (owned : Owned pkts parts h held) (samePkts : h'.pkts = h.pkts) (sameParts : h'.particles = h.particles)
    (links : ∀ p, (h'.part p).next = (h.part p).next) (firsts : ∀ j, (h'.pkt j).particle = (h.pkt j).particle) :
    Owned pkts parts h' held where
  packets := samePkts ▸ owned.packets
  particles := sameParts ▸ owned.particles
  chained e member := by
    obtain ⟨chained, nonempty⟩ := owned.chained e member
    rw [firsts]
    exact ⟨chained.kept fun p _ => links p, nonempty⟩
  empty j member := by
    rw [firsts]
    exact owned.empty j (samePkts ▸ member)

end Owned

/-- What a client that asks for too much headroom runs into. -/
def Reckless (e : Fault) : Prop := e = .overflow ∨ e = .bounds

theorem copyFromSlice_reckless (raw : List UInt8) (lo hi : Nat) (bytes : List UInt8) :
    Ensures Reckless (copyFromSlice raw lo hi bytes) fun _ => True := by
  unfold copyFromSlice
  exact Ensures.ite (fun _ => trivial) fun _ => Or.inr rfl

theorem prepend_reckless (p : Particle) (bytes : List UInt8) : Ensures Reckless (p.prepend bytes) fun _ => True := by
  unfold Particle.prepend
  refine Ensures.ite (fun _ => ?_) fun _ => ?_
  · exact (copyFromSlice_reckless ..).bind fun _ _ => trivial
  · exact (copyFromSlice_reckless ..).bind fun _ _ => trivial

theorem append_reckless (p : Particle) (bytes : List UInt8) :
    Ensures Reckless (p.append bytes) fun r => r.1 ≤ bytes.length := by
  unfold Particle.append
  have room : Ensures Reckless (sub64 p.raw.length p.tail) _ := checkedSub_ensures (Or.inl rfl)
  refine room.bind fun _ _ => ?_
  exact (copyFromSlice_reckless ..).bind fun _ _ => Nat.min_le_right ..

section

variable {h h' : Heap} {start : Option BoxPart} {p q z : BoxPart} {chain : List BoxPart}

/-- `last_particle` ends at the end of the chain. -/
theorem Chain.last {fuel : Nat} (links : Chain h (some p) chain) (enough : chain.length ≤ fuel) :
    ∃ last, chain.getLast? = some last ∧ h.lastParticle fuel p = .ok last := by
  induction fuel generalizing p chain with
  | zero =>
    cases links with
    | cons => cases enough
  | succ fuel ih =>
    cases links with
    | @cons _ rest links =>
      unfold Heap.lastParticle
      cases next : (h.part p).next with
      | none =>
        rw [next] at links
        cases links
        exact ⟨p, rfl, rfl⟩
      | some q =>
        rw [next] at links
        obtain ⟨last, final, run⟩ := ih links (Nat.le_of_succ_le_succ enough)
        refine ⟨last, ?_, run⟩
        rw [List.getLast?_cons, final]
        rfl

/-- A particle is linked behind the last one. -/
theorem Chain.extend (links : Chain h start chain) (final : chain.getLast? = some z) (nodup : chain.Nodup)
    (same : ∀ p ∈ chain, p ≠ z → (h'.part p).next = (h.part p).next) (linked : (h'.part z).next = some q)
    (ends : (h'.part q).next = none) : Chain h' start (chain ++ [q]) := by
  induction links with
  | nil => cases final
  | @cons p rest links ih =>
    refine .cons ?_
    cases rest with
    | nil =>
      obtain rfl : p = z := Option.some.inj final
      rw [linked]
      exact .cons (ends ▸ .nil)
    | cons next rest =>
      rw [List.getLast?_cons_cons] at final
      obtain ⟨absent, nodup⟩ := List.nodup_cons.mp nodup
      have other : p ≠ z := fun eq => absent (eq ▸ List.mem_of_getLast? final)
      rw [same p (List.mem_cons_self ..) other]
      exact ih final nodup fun q member => same q (List.mem_cons_of_mem _ member)

end

namespace Owned

variable {pkts : List BoxPkt} {parts : List BoxPart} {h h' : Heap} {held : List (BoxPkt × List BoxPart)}
  {k : BoxPkt} {chain : List BoxPart}

theorem first (owned : Owned pkts parts h ((k, chain) :: held)) : ∃ p rest, chain = p :: rest ∧ h.first k = .ok p ∧
    Chain h (some p) chain := by
  obtain ⟨links, nonempty⟩ := owned.chained (k, chain) (List.mem_cons_self ..)
  dsimp only at links nonempty
  cases here : (h.pkt k).particle with
  | none =>
    rw [here] at links
    cases links
    exact absurd rfl nonempty
  | some p =>
    rw [here] at links
    cases links with
    | cons links =>
      refine ⟨p, _, rfl, ?_, .cons links⟩
      rw [Heap.first, here]

theorem nodup_chain (owned : Owned pkts parts h ((k, chain) :: held)) (nodup : parts.Nodup) :
    chain.Nodup ∧ chain.length ≤ parts.length := by
  have particles := owned.particles
  rw [List.flatMap_cons] at particles
  refine ⟨?_, ?_⟩
  · have all := particles.nodup_iff.mpr nodup
    exact (List.nodup_append'.mp (List.nodup_append'.mp all).2.1).1
  · rw [← particles.length_eq, List.length_append, List.length_append]
    exact Nat.le_trans (Nat.le_add_right ..) (Nat.le_add_left ..)

theorem setPart (owned : Owned pkts parts h held) (p : BoxPart) (part : Particle) :
    Owned pkts parts (h.setPart p part) held := owned.edit rfl rfl (h.setPart_next p · part) fun _ => rfl

end Owned

/-- A pool that is out of particles counts the failure. -/
theorem Heap.particle_none {h h' : Heap} {headroom : Nat} (run : h.particle headroom = (none, h')) :
    h' = { h with allocFail := h.allocFail + 1 } := by
  unfold Heap.particle at run
  split at run
  · exact (Prod.mk.inj run).2.symm
  · cases run

theorem Heap.particle_some {h h' : Heap} {headroom : Nat} {q : BoxPart} (run : h.particle headroom = (some q, h')) :
    h.particles = q :: h'.particles ∧ h' = { h with
      particles := h'.particles, part := Function.update h.part q ⟨(h.part q).part.reinit headroom, none⟩ } := by
  unfold Heap.particle at run
  split at run
  · cases run
  · rename_i p rest shape
    cases run
    exact ⟨shape, rfl⟩

end R2.Boxed
