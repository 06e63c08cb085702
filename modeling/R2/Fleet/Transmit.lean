import R2.Fleet.Settled

namespace R2.Fleet

open Control

section Transmit

variable {thread : Nat} {node : IfNode} {pkts : List Packet} {tx : Tx}

/-- The gate of the scheduler is open for what comes to the driver of the owner. -/
theorem IfNode.Sound.sendmsg (sound : node.Sound thread) (own : node.ownerThread thread = true) (p : Packet) :
    node.sendmsg tx p = .ok { tx with sent := tx.sent ++ [p] } := by
  have gate := sound.idle.hasClasses sound.sched.tree
  obtain ⟨fd, driven⟩ := Option.isSome_iff_exists.mp (sound.owner ((IfNode.ownerThread_iff sound).mp own))
  rw [IfNode.sendmsg, gate, Except.ok_bind, driven]
  rfl

theorem IfNode.Sound.sends (sound : node.Sound thread) (own : node.ownerThread thread = true) :
    pkts.foldlM node.sendmsg tx = .ok { tx with sent := tx.sent ++ pkts } := by
  induction pkts generalizing tx with
  | nil => rw [List.append_nil]; rfl
  | cons p pkts ih =>
    rw [List.foldlM_cons, sound.sendmsg own, Except.ok_bind, ih]
    simp only [List.append_assoc, List.singleton_append]

end Transmit

section Class

variable {T σ : Type} {f f' : Forwarder T σ} {t : Nat} {c : ClassAddMsg} {node : IfNode}

/-- A class below the root is created, or there already. -/
theorem IfNode.Sound.named {node' : IfNode} (sound : node.Sound t) (own : node.ownerThread t = true)
    (root : c.parent = "root") (run : node.controlMsg t (.classAdd c : Msg T) = .ok node') :
    (node'.sched.classNames.lookup c.name).isSome ∧ node'.ownerThread t = true := by
  obtain ⟨r, top, _⟩ := sound.sched.tree.top
  have used := (sound.sched.tree.index 1 r top (Nat.le_refl 1)).2
  rw [IfNode.controlMsg, if_pos own] at run
  obtain ⟨⟨created, sched⟩, made, run⟩ := Except.bind_ok_iff.mp run
  have there : (sched.classNames.lookup c.name).isSome := by
    unfold Hfsc.createClass at made
    rw [root, sound.rooted] at made
    dsimp only at made
    rw [top, sound.sched.tree.free] at made
    dsimp only at made
    rw [used] at made
    split at made
    · rename_i known
      cases made
      exact known
    · rw [if_neg (by decide)] at made
      obtain ⟨made', _, made⟩ := Except.bind_ok_iff.mp made
      cases made
      rw [AList.lookup_insert]
      rfl
  cases created with
  | ok => cases run; exact ⟨there, own⟩
  | error => cases run; exact ⟨there, own⟩

end Class

section Results

variable {n : Nat} {T σ : Type} [IpLookupTable T] [PacketPool σ] {fleet : Fleet n T σ}

end Results

end R2.Fleet
