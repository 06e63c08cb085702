import R2.Boxed.Owned

namespace R2.Boxed

variable {pkts : List BoxPkt} {parts : List BoxPart} {h h' : Heap} {held : List (BoxPkt × List BoxPart)}
  {k : BoxPkt} {chain : List BoxPart}

namespace Owned

/-- A failed allocation changes nothing but the counter. -/
theorem particle_none {headroom : Nat} (owned : Owned pkts parts h held) (run : h.particle headroom = (none, h')) :
    Owned pkts parts h' held := by
  rw [Heap.particle_none run]
  exact owned.edit rfl rfl (fun _ => rfl) fun _ => rfl

/-- A particle of the pool becomes the first of the chain. -/
theorem pushFirst {headroom : Nat} {p q : BoxPart} (owned : Owned pkts parts h ((k, chain) :: held))
    (nodupPkts : pkts.Nodup) (nodupParts : parts.Nodup) (here : (h.pkt k).particle = some p)
    (run : h.particle headroom = (some q, h')) :
    Owned pkts parts ((h'.setFirst k (some q)).setNext q (some p)) ((k, q :: chain) :: held) := by
  obtain ⟨shape, same⟩ := Heap.particle_some run
  obtain ⟨_, fresh, _⟩ := owned.apart nodupPkts nodupParts
  have waits : q ∈ h.particles := shape ▸ List.mem_cons_self ..
  have links := (owned.chained _ (List.mem_cons_self ..)).1
  rw [here] at links
  have others : ∀ r, r ≠ q → (((h'.setFirst k (some q)).setNext q (some p)).part r).next = (h.part r).next := by
    intro r other
    rw [Heap.setNext_of_ne _ _ other, same]
    exact congrArg PartCell.next (Function.update_of_ne other ..)
  refine owned.focus nodupPkts nodupParts ?_ ?_ (fun j other => ?_)
    (fun r outside _ => others r fun eq => outside (eq ▸ waits))
    ?_ (by simp)
  · rw [same]
    rfl
  · rw [shape]
    exact List.perm_middle
  · rw [same]
    exact congrArg PktCell.particle (Heap.setFirst_of_ne _ _ other)
  · have start : ((((h'.setFirst k (some q)).setNext q (some p))).pkt k).particle = some q := h'.setFirst_self k _
    rw [start]
    refine .cons ?_
    rw [Heap.setNext_self]
    exact links.kept fun r member => others r fun eq => fresh q waits (eq ▸ member)

/-- A particle of the pool becomes the last of the chain. -/
theorem pushParticle {headroom : Nat} {q : BoxPart} (owned : Owned pkts parts h ((k, chain) :: held))
    (nodupPkts : pkts.Nodup) (nodupParts : parts.Nodup) (run : h.particle headroom = (some q, h')) :
    ∃ h'', h'.pushParticle parts.length k q = .ok h'' ∧ h''.particles = h'.particles ∧
      Owned pkts parts h'' ((k, chain ++ [q]) :: held) := by
  obtain ⟨shape, same⟩ := Heap.particle_some run
  obtain ⟨_, fresh, _⟩ := owned.apart nodupPkts nodupParts
  obtain ⟨nodup, short⟩ := owned.nodup_chain nodupParts
  have waits : q ∈ h.particles := shape ▸ List.mem_cons_self ..
  have absent : q ∉ chain := fresh q waits
  have links := (owned.chained _ (List.mem_cons_self ..)).1
  obtain ⟨p, rest, rfl, first, links'⟩ := owned.first
  have next : ∀ r, r ≠ q → (h'.part r).next = (h.part r).next := by
    intro r other
    rw [same]
    exact congrArg PartCell.next (Function.update_of_ne other ..)
  have before : Chain h' (some p) (p :: rest) := links'.kept fun r member => next r fun eq => absent (eq ▸ member)
  obtain ⟨z, final, last⟩ := before.last short
  have member := List.mem_of_getLast? final
  have apart : q ≠ z := fun eq => absent (eq ▸ member)
  have samePkt : h'.pkt = h.pkt := by rw [same]
  refine ⟨h'.setNext z (some q), ?_, rfl, owned.focus nodupPkts nodupParts ?_ ?_ (fun j _ => ?_)
    (fun r outside unchained => ?_) ?_ (by simp)⟩
  · have first' : h'.first k = .ok p := by rw [Heap.first_ok, samePkt, ← Heap.first_ok, first]
    rw [Heap.pushParticle, first', Except.ok_bind, last, Except.ok_bind]
  · rw [same]
    rfl
  · rw [shape]
    have back := List.perm_append_singleton q (h'.particles ++ (p :: rest))
    rw [List.append_assoc] at back
    exact back
  · change (h'.pkt j).particle = _
    rw [samePkt]
  · have other : r ≠ z := fun eq => unchained (eq.symm ▸ member)
    rw [Heap.setNext_of_ne _ _ other, next r fun eq => outside (eq.symm ▸ waits)]
  · change Chain _ (h'.pkt k).particle _
    rw [samePkt]
    have ends : (h'.part q).next = none := by
      rw [same]
      simp only [Function.update_self]
    refine links.extend final nodup (fun r inside other => ?_) (h'.setNext_self z _) ?_
    · rw [Heap.setNext_of_ne _ _ other, next r fun eq => absent (eq ▸ inside)]
    · rw [Heap.setNext_of_ne _ _ apart, ends]

end Owned

/-- The loop of `prepend` ends, and the chain has grown in front. -/
theorem prependLoop_owned {bytes : List UInt8} {fuel l : Nat} (nodupPkts : pkts.Nodup) (nodupParts : parts.Nodup)
    (owned : Owned pkts parts h ((k, chain) :: held))
    (enough : h.particles.length + (if l = 0 then 1 else 2) ≤ fuel) :
    Ensures Reckless (Heap.prependLoop bytes k fuel l h) fun r =>
      ∃ chain', Owned pkts parts r.2 ((k, chain') :: held) := by
  induction fuel generalizing h l chain with
  | zero => split at enough <;> omega
  | succ fuel ih =>
    refine Ensures.ite (fun _ => ⟨chain, owned⟩) fun left => ?_
    rw [if_neg left] at enough
    obtain ⟨p, rest, rfl, first, _⟩ := owned.first
    rw [first, Except.ok_bind]
    refine (prepend_reckless _ _).bind fun placed _ => ?_
    obtain ⟨n, part⟩ := placed
    have owned := owned.setPart p part
    refine Ensures.ite (fun _ => ?_) fun done => ?_
    · cases run : (h.setPart p part).particle (h.setPart p part).particleSz with
      | mk found h₁ =>
        cases found with
        | none => exact ⟨_, owned.particle_none run⟩
        | some q =>
          obtain ⟨shape, same⟩ := Heap.particle_some run
          have first₁ : h₁.first k = .ok p := by
            rw [Heap.first_ok, same]
            exact Heap.first_ok.mp first
          dsimp only
          rw [first₁, Except.ok_bind]
          refine ih (owned.pushFirst nodupPkts nodupParts (Heap.first_ok.mp first) run) ?_
          have fewer : h.particles.length = h₁.particles.length + 1 := congrArg List.length shape
          change h₁.particles.length + _ ≤ fuel
          split <;> omega
    · refine ih owned ?_
      have empty : l - n = 0 := by omega
      rw [if_pos empty]
      change h.particles.length + 1 ≤ fuel
      omega

/-- The loop of `append` ends, and the chain has grown at its end. -/
theorem appendLoop_owned {bytes : List UInt8} {fuel offset : Nat} (nodupPkts : pkts.Nodup) (nodupParts : parts.Nodup)
    (owned : Owned pkts parts h ((k, chain) :: held)) (placed : offset ≤ bytes.length)
    (enough : h.particles.length + (bytes.length - offset) + 1 ≤ fuel) :
    Ensures Reckless (Heap.appendLoop bytes parts.length k fuel offset h) fun r =>
      ∃ chain', Owned pkts parts r.2 ((k, chain') :: held) := by
  induction fuel generalizing h offset chain with
  | zero => omega
  | succ fuel ih =>
    refine Ensures.ite (fun _ => ⟨chain, owned⟩) fun left => ?_
    obtain ⟨p, rest, rfl, first, links⟩ := owned.first
    obtain ⟨z, _, last⟩ := links.last (owned.nodup_chain nodupParts).2
    rw [first, Except.ok_bind, last, Except.ok_bind]
    refine (append_reckless _ _).bind fun wrote few => ?_
    obtain ⟨n, part⟩ := wrote
    have few : n ≤ bytes.length - offset := Nat.le_trans few (by simp [window])
    have owned := owned.setPart z part
    refine Ensures.ite (fun full => ?_) fun some => ?_
    · cases run : (h.setPart z part).particle 0 with
      | mk found h₁ =>
        cases found with
        | none => exact ⟨_, owned.particle_none run⟩
        | some q =>
          obtain ⟨shape, _⟩ := Heap.particle_some run
          obtain ⟨h₂, pushed, same, owned⟩ := owned.pushParticle nodupPkts nodupParts run
          dsimp only
          rw [pushed, Except.ok_bind]
          refine ih owned (by omega) ?_
          have fewer : h.particles.length = h₁.particles.length + 1 := congrArg List.length shape
          rw [same]
          omega
    · refine ih owned (by omega) ?_
      change h.particles.length + _ + 1 ≤ fuel
      omega

end R2.Boxed
