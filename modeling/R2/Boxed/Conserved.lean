import R2.Boxed.Growth

namespace R2.Boxed

variable {pkts : List BoxPkt} {parts : List BoxPart} {h h' : Heap} {held : List (BoxPkt × List BoxPart)}
  {k : BoxPkt} {chain : List BoxPart}

theorem setLength_owned (owned : Owned pkts parts h held) (k : BoxPkt) (length : Nat) :
    Owned pkts parts (h.setLength k length) held :=
  owned.edit rfl rfl (fun _ => rfl) fun j => h.setLength_particle k j length

theorem prepend_owned (nodupPkts : pkts.Nodup) (nodupParts : parts.Nodup)
    (owned : Owned pkts parts h ((k, chain) :: held))
    (bytes : List UInt8) :
    Ensures Reckless (h.prepend k bytes) fun r => ∃ chain', Owned pkts parts r.2 ((k, chain') :: held) := by
  unfold Heap.prepend
  refine (prependLoop_owned nodupPkts nodupParts owned (by split <;> omega)).bind fun r post => ?_
  obtain ⟨chain', owned⟩ := post
  refine Ensures.ite (fun _ => ?_) fun _ => ⟨chain', owned⟩
  have sum : Ensures Reckless (add64 (r.2.pkt k).length bytes.length) _ := checkedAdd_ensures (Or.inl rfl)
  exact sum.bind fun _ _ => ⟨chain', setLength_owned owned k _⟩

theorem append_owned (nodupPkts : pkts.Nodup) (nodupParts : parts.Nodup)
    (owned : Owned pkts parts h ((k, chain) :: held))
    (bytes : List UInt8) :
    Ensures Reckless (h.append parts.length k bytes) fun r =>
      ∃ chain', Owned pkts parts r.2 ((k, chain') :: held) := by
  unfold Heap.append
  refine (appendLoop_owned nodupPkts nodupParts owned (Nat.zero_le _) (by omega)).bind fun r post => ?_
  obtain ⟨chain', owned⟩ := post
  refine Ensures.ite (fun _ => ?_) fun _ => ⟨chain', owned⟩
  have sum : Ensures Reckless (add64 (r.2.pkt k).length bytes.length) _ := checkedAdd_ensures (Or.inl rfl)
  exact sum.bind fun _ _ => ⟨chain', setLength_owned owned k _⟩

/-- What is in the pool is held by nobody. -/
theorem Owned.pool_apart (owned : Owned pkts parts h held) (nodupPkts : pkts.Nodup) (nodupParts : parts.Nodup) :
    h.pkts.Nodup ∧ ∀ e ∈ held, e.1 ∉ h.pkts ∧ ∀ p ∈ e.2, p ∉ h.particles := by
  obtain ⟨once, _, packets⟩ := List.nodup_append'.mp (owned.packets.nodup_iff.mpr nodupPkts)
  obtain ⟨_, _, particles⟩ := List.nodup_append'.mp (owned.particles.nodup_iff.mpr nodupParts)
  refine ⟨once, fun e member => ⟨fun waits => ?_, fun p inside waits => ?_⟩⟩
  · exact packets waits (List.mem_map_of_mem member)
  · exact particles waits (List.mem_flatMap.mpr ⟨e, member, inside⟩)

/-- A new packet has one particle of the pool. -/
theorem alloc_some {headroom : Nat} (nodupPkts : pkts.Nodup) (nodupParts : parts.Nodup)
    (owned : Owned pkts parts h held)
    (run : h.alloc headroom = (some k, h')) : ∃ p, Owned pkts parts h' ((k, [p]) :: held) := by
  obtain ⟨once, apart⟩ := owned.pool_apart nodupPkts nodupParts
  unfold Heap.alloc at run
  split at run
  · cases run
  · rename_i j rest shape
    split at run
    · rename_i p h₁ taken
      cases run
      obtain ⟨sameParts, same⟩ := Heap.particle_some taken
      have sameParts : h.particles = p :: h₁.particles := sameParts
      refine ⟨p, ?_, ?_, fun e member => ?_, fun i member => ?_⟩
      · refine List.Perm.trans ?_ owned.packets
        rw [shape, same]
        exact List.perm_middle
      · refine List.Perm.trans ?_ owned.particles
        rw [sameParts]
        exact List.perm_middle
      · rcases List.mem_cons.mp member with rfl | old
        · refine ⟨?_, by simp⟩
          simp only [Heap.reinit, Function.update_self]
          refine .cons ?_
          rw [same]
          simp only [Function.update_self]
          exact .nil
        · obtain ⟨pooled, separate⟩ := apart e old
          obtain ⟨links, nonempty⟩ := owned.chained e old
          have other : e.1 ≠ k := fun eq => pooled (shape ▸ eq ▸ List.mem_cons_self ..)
          refine ⟨?_, nonempty⟩
          simp only [Heap.reinit, Function.update_of_ne other]
          rw [same]
          refine links.kept fun q inside => congrArg PartCell.next (Function.update_of_ne (fun eq => ?_) ..)
          exact separate q inside (sameParts ▸ eq ▸ List.mem_cons_self ..)
      · have waits : i ∈ rest := by
          rw [same] at member
          exact member
        rw [shape] at once
        have other : i ≠ k := fun eq => (List.nodup_cons.mp once).1 (eq ▸ waits)
        simp only [Heap.reinit, Function.update_of_ne other]
        rw [same]
        exact owned.empty i (shape ▸ List.mem_cons_of_mem _ waits)
    · cases run

/-- A failed allocation puts the packet back. -/
theorem alloc_none {headroom : Nat} (owned : Owned pkts parts h held) (run : h.alloc headroom = (none, h')) :
    Owned pkts parts h' held := by
  unfold Heap.alloc at run
  split at run
  · cases run
    exact owned.edit rfl rfl (fun _ => rfl) fun _ => rfl
  · rename_i j rest shape
    split at run
    · cases run
    · rename_i h₁ taken
      cases run
      rw [Heap.particle_none taken]
      exact owned.edit shape.symm rfl (fun _ => rfl) fun _ => rfl

/-- The loop of `free` takes the chain apart. -/
theorem freeParts_ok {fuel : Nat} {start : Option BoxPart} (links : Chain h start chain) (nodup : chain.Nodup)
    (enough : chain.length ≤ fuel) :
    ∃ part, Heap.freeParts fuel start h = .ok { h with part, particles := chain.reverse ++ h.particles } ∧
      ∀ p, p ∉ chain → part p = h.part p := by
  induction fuel generalizing h start chain with
  | zero =>
    cases links with
    | nil => exact ⟨h.part, rfl, fun _ _ => rfl⟩
    | cons => cases enough
  | succ fuel ih =>
    cases links with
    | nil => exact ⟨h.part, rfl, fun _ _ => rfl⟩
    | @cons p rest links =>
      obtain ⟨absent, nodup⟩ := List.nodup_cons.mp nodup
      have freed : (h.setNext p none).freePart p =
          .ok { h.setNext p none with particles := p :: h.particles } := by
        unfold Heap.freePart
        rw [Heap.setNext_self]
        rfl
      have kept : Chain { h.setNext p none with particles := p :: h.particles } (h.part p).next rest :=
        links.kept fun q member =>
          congrArg PartCell.next (h.setNext_of_ne none fun eq => absent (eq ▸ member))
      obtain ⟨part, run, others⟩ := ih kept nodup (Nat.le_of_succ_le_succ enough)
      refine ⟨part, ?_, fun q outside => ?_⟩
      · unfold Heap.freeParts
        rw [freed, Except.ok_bind, run]
        simp only [List.reverse_cons, List.append_assoc, List.singleton_append]
        rfl
      · rw [List.mem_cons, not_or] at outside
        rw [others q outside.2]
        exact h.setNext_of_ne none outside.1

/-- A packet that is freed goes back to the pool with all its particles. -/
theorem free_owned (nodupPkts : pkts.Nodup) (nodupParts : parts.Nodup)
    (owned : Owned pkts parts h ((k, chain) :: held)) :
    ∃ h', h.free parts.length k = .ok h' ∧ Owned pkts parts h' held := by
  obtain ⟨pool, _, apart⟩ := owned.apart nodupPkts nodupParts
  obtain ⟨nodup, short⟩ := owned.nodup_chain nodupParts
  obtain ⟨links, _⟩ := owned.chained (k, chain) (List.mem_cons_self ..)
  have links' : Chain (h.setFirst k none) (h.pkt k).particle chain := links.kept fun _ _ => rfl
  obtain ⟨part, run, others⟩ := freeParts_ok links' nodup short
  refine ⟨{ h.setFirst k none with part, particles := chain.reverse ++ h.particles, pkts := k :: h.pkts }, ?_, ?_, ?_,
    fun e member => ?_, fun j member => ?_⟩
  · unfold Heap.free
    dsimp only
    rw [run, Except.ok_bind]
    unfold Heap.freePkt
    rw [if_neg]
    · rfl
    · simp
  · refine List.Perm.trans ?_ owned.packets
    exact List.perm_middle.symm
  · refine List.Perm.trans ?_ owned.particles
    rw [List.flatMap_cons, ← List.append_assoc]
    refine List.Perm.append_right _ ?_
    exact List.perm_append_comm.trans ((List.reverse_perm chain).append_left _)
  · obtain ⟨other, separate⟩ := apart e member
    obtain ⟨before, nonempty⟩ := owned.chained e (List.mem_cons_of_mem _ member)
    refine ⟨?_, nonempty⟩
    change Chain _ ((h.setFirst k none).pkt e.1).particle e.2
    rw [Heap.setFirst_of_ne _ _ other]
    exact before.kept fun p inside => congrArg PartCell.next (others p (separate p inside).2)
  · change ((h.setFirst k none).pkt j).particle = none
    rcases List.mem_cons.mp member with rfl | old
    · exact h.setFirst_self j none
    · rw [Heap.setFirst_of_ne _ _ (pool j old)]
      exact owned.empty j old

/-- What the other calls on a packet do: they move its bounds and write its
bytes, and leave the links alone. -/
structure Edits (h h' : Heap) : Prop where
  pkts : h'.pkts = h.pkts
  particles : h'.particles = h.particles
  next : ∀ p, (h'.part p).next = (h.part p).next
  particle : ∀ k, (h'.pkt k).particle = (h.pkt k).particle

/-- The states of a pool and its return queue under the calls of any thread. -/
inductive Reached (numPkts numParts particleSz capacity : Nat) : System → Prop
  | new {h : Heap} : Heap.new numPkts numParts particleSz = .ok h →
      Reached numPkts numParts particleSz capacity ⟨h, [], []⟩
  | alloc {s headroom} {k : BoxPkt} {h : Heap} : Reached numPkts numParts particleSz capacity s →
      s.heap.alloc headroom = (some k, h) →
      Reached numPkts numParts particleSz capacity { s with heap := h, flight := k :: s.flight }
  | allocFails {s headroom} {h : Heap} : Reached numPkts numParts particleSz capacity s →
      s.heap.alloc headroom = (none, h) →
      Reached numPkts numParts particleSz capacity { s with heap := h }
  | prepend {s bytes done} {k : BoxPkt} {h : Heap} : Reached numPkts numParts particleSz capacity s → k ∈ s.flight →
      s.heap.prepend k bytes = .ok (done, h) → Reached numPkts numParts particleSz capacity { s with heap := h }
  | append {s bytes done} {k : BoxPkt} {h : Heap} : Reached numPkts numParts particleSz capacity s → k ∈ s.flight →
      s.heap.append numParts k bytes = .ok (done, h) →
      Reached numPkts numParts particleSz capacity { s with heap := h }
  | edit {s} {h : Heap} : Reached numPkts numParts particleSz capacity s → Edits s.heap h →
      Reached numPkts numParts particleSz capacity { s with heap := h }
  | drop {s s'} {k : BoxPkt} : Reached numPkts numParts particleSz capacity s → k ∈ s.flight →
      s.drop capacity k = .ok s' →
      Reached numPkts numParts particleSz capacity s'
  | reclaim {s s'} : Reached numPkts numParts particleSz capacity s → s.reclaim numParts = .ok s' →
      Reached numPkts numParts particleSz capacity s'

/-- The packets that are held wait in the return queue or are in flight. -/
def Kept (numPkts numParts : Nat) (s : System) (held : List (BoxPkt × List BoxPart)) : Prop :=
  Owned (List.range numPkts) (List.range numParts) s.heap held ∧ (held.map Prod.fst).Perm (s.queue ++ s.flight)

section

variable {numPkts numParts particleSz capacity : Nat} {s s' : System}

/-- A packet outside the pool, with its chain. -/
theorem Kept.split (kept : Kept numPkts numParts s held) (member : k ∈ s.queue ++ s.flight) :
    ∃ chain rest, Kept numPkts numParts s ((k, chain) :: rest) := by
  obtain ⟨owned, outside⟩ := kept
  obtain ⟨e, inside, rfl⟩ := List.mem_map.mp (outside.mem_iff.mpr member)
  have front := List.perm_cons_erase inside
  exact ⟨e.2, held.erase e, owned.perm front, (front.symm.map _).trans outside⟩

theorem new_owned {h : Heap} (run : Heap.new numPkts numParts particleSz = .ok h) :
    Owned (List.range numPkts) (List.range numParts) h [] := by
  unfold Heap.new at run
  split at run
  · cases run
    refine ⟨?_, ?_, nofun, fun _ _ => rfl⟩
    · rw [List.map_nil, List.append_nil]
      exact List.reverse_perm _
    · rw [List.flatMap_nil, List.append_nil]
      exact List.reverse_perm _
  · cases run

/-- The return queue has room for every packet in flight. -/
theorem Kept.drop_ok (kept : Kept numPkts numParts s held) (large : numPkts ≤ capacity) (member : k ∈ s.flight) :
    s.drop capacity k = .ok { s with queue := s.queue ++ [k], flight := s.flight.erase k } := by
  obtain ⟨owned, outside⟩ := kept
  have total := owned.packets.length_eq
  have split := outside.length_eq
  simp only [List.length_append, List.length_map, List.length_range] at total split
  have some : 0 < s.flight.length := List.length_pos_of_mem member
  exact if_pos (by omega)

theorem Kept.drop (kept : Kept numPkts numParts s held) (member : k ∈ s.flight) :
    Kept numPkts numParts { s with queue := s.queue ++ [k], flight := s.flight.erase k } held := by
  refine ⟨kept.1, kept.2.trans ?_⟩
  rw [List.append_assoc]
  exact (List.perm_cons_erase member).append_left _

/-- A turn of the reclaim loop succeeds. -/
theorem Kept.reclaim (kept : Kept numPkts numParts s held) :
    ∃ s', s.reclaim numParts = .ok s' ∧ ∃ held', Kept numPkts numParts s' held' := by
  cases waiting : s.queue with
  | nil =>
    refine ⟨s, ?_, held, kept⟩
    rw [System.reclaim, waiting]
  | cons k rest =>
    have member : k ∈ s.queue ++ s.flight := by
      rw [waiting]
      exact List.mem_cons_self ..
    obtain ⟨chain, held', owned, outside⟩ := kept.split member
    obtain ⟨h', run, owned'⟩ := free_owned (List.nodup_range) (List.nodup_range) owned
    rw [List.length_range] at run
    refine ⟨{ s with heap := h', queue := rest }, ?_, held', owned', ?_⟩
    · rw [System.reclaim, waiting]
      dsimp only
      rw [run, Except.ok_bind]
    · rw [waiting, List.map_cons] at outside
      exact List.Perm.cons_inv outside

theorem Kept.prepend (kept : Kept numPkts numParts s held) (member : k ∈ s.flight) (bytes : List UInt8) :
    Ensures Reckless (s.heap.prepend k bytes) fun r =>
      ∃ held', Kept numPkts numParts { s with heap := r.2 } held' := by
  obtain ⟨chain, rest, owned, outside⟩ := kept.split (List.mem_append_right _ member)
  refine (prepend_owned List.nodup_range List.nodup_range owned bytes).mono fun r post => ?_
  obtain ⟨chain', owned⟩ := post
  exact ⟨_, owned, outside⟩

theorem Kept.append (kept : Kept numPkts numParts s held) (member : k ∈ s.flight) (bytes : List UInt8) :
    Ensures Reckless (s.heap.append numParts k bytes) fun r =>
      ∃ held', Kept numPkts numParts { s with heap := r.2 } held' := by
  obtain ⟨chain, rest, owned, outside⟩ := kept.split (List.mem_append_right _ member)
  have ran := append_owned List.nodup_range List.nodup_range owned bytes
  rw [List.length_range] at ran
  refine ran.mono fun r post => ?_
  obtain ⟨chain', owned⟩ := post
  exact ⟨_, owned, outside⟩

/-- Every call keeps the pool. -/
theorem Reached.kept (reached : Reached numPkts numParts particleSz capacity s) :
    ∃ held, Kept numPkts numParts s held := by
  induction reached with
  | new run => exact ⟨[], new_owned run, .refl _⟩
  | alloc _ run ih =>
    obtain ⟨held, owned, outside⟩ := ih
    obtain ⟨p, owned⟩ := alloc_some List.nodup_range List.nodup_range owned run
    exact ⟨_, owned, (outside.cons _).trans List.perm_middle.symm⟩
  | allocFails _ run ih =>
    obtain ⟨held, owned, outside⟩ := ih
    exact ⟨held, alloc_none owned run, outside⟩
  | prepend _ member run ih =>
    obtain ⟨held, kept⟩ := ih
    exact (kept.prepend member _).ok run
  | append _ member run ih =>
    obtain ⟨held, kept⟩ := ih
    exact (kept.append member _).ok run
  | edit _ edits ih =>
    obtain ⟨held, owned, outside⟩ := ih
    exact ⟨held, owned.edit edits.pkts edits.particles edits.next edits.particle, outside⟩
  | drop _ member run ih =>
    obtain ⟨held, kept⟩ := ih
    unfold System.drop at run
    split at run
    · cases run
      exact ⟨held, kept.drop member⟩
    · cases run
  | reclaim _ run ih =>
    obtain ⟨held, kept⟩ := ih
    obtain ⟨s₁, ran, post⟩ := kept.reclaim
    rw [run] at ran
    cases ran
    exact post

end

/-- Packets and particles are conserved, and nothing on the way back to the pool
fails; a growing packet can only run into too large a headroom. -/
theorem pool_conserved {numPkts numParts particleSz capacity : Nat} {s : System} (large : numPkts ≤ capacity)
    (reached : Reached numPkts numParts particleSz capacity s) :
    (s.heap.pkts ++ s.queue ++ s.flight).Perm (List.range numPkts) ∧
    (∃ held : List (BoxPkt × List BoxPart), (held.map Prod.fst).Perm (s.queue ++ s.flight) ∧
      (s.heap.particles ++ held.flatMap Prod.snd).Perm (List.range numParts) ∧
      ∀ e ∈ held, Chain s.heap (s.heap.pkt e.1).particle e.2) ∧
    (∀ k ∈ s.heap.pkts, (s.heap.pkt k).particle = none) ∧
    (∀ k ∈ s.flight, ∃ s', s.drop capacity k = .ok s') ∧
    (∃ s', s.reclaim numParts = .ok s') ∧
    ∀ k ∈ s.flight, ∀ bytes, Ensures Reckless (s.heap.prepend k bytes) (fun _ => True) ∧
      Ensures Reckless (s.heap.append numParts k bytes) fun _ => True := by
  obtain ⟨held, kept⟩ := reached.kept
  obtain ⟨owned, outside⟩ := kept
  refine ⟨?_, ?_, owned.empty, fun k member => ⟨_, Kept.drop_ok ⟨owned, outside⟩ large member⟩, ?_,
    fun k member bytes => ?_⟩
  · rw [List.append_assoc]
    exact (outside.symm.append_left _).trans owned.packets
  · exact ⟨held, outside, owned.particles, fun e member => (owned.chained e member).1⟩
  · obtain ⟨s', run, _⟩ := Kept.reclaim ⟨owned, outside⟩
    exact ⟨s', run⟩
  · have kept : Kept numPkts numParts s held := ⟨owned, outside⟩
    exact ⟨(kept.prepend member bytes).mono fun _ _ => trivial, (kept.append member bytes).mono fun _ _ => trivial⟩

/-- A packet that has grown by a second particle comes back from the return queue. -/
theorem pool_conserved_grown :
    ∃ s s' : System, s.heap.particles = [] ∧ s.queue = [0] ∧ s.reclaim 2 = .ok s' ∧ s'.heap.pkts = [0] ∧
      (s.heap.pkts ++ s.queue ++ s.flight).Perm (List.range 1) ∧
      (s'.heap.pkts ++ s'.queue ++ s'.flight).Perm (List.range 1) := by
  have fresh : Reached 1 2 4 1 _ := .new rfl
  have taken := @Reached.alloc _ _ _ _ _ 0 _ _ fresh rfl
  have grown := @Reached.append _ _ _ _ _ [1, 2, 3, 4, 5] _ _ _ taken (List.mem_cons_self ..) rfl
  have freed := grown.drop (List.mem_cons_self ..) rfl
  have back := freed.reclaim rfl
  exact ⟨_, _, rfl, rfl, rfl, rfl, (pool_conserved (Nat.le_refl 1) freed).1, (pool_conserved (Nat.le_refl 1) back).1⟩

end R2.Boxed
