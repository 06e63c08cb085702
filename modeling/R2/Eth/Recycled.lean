import Mathlib.Data.List.Forall2
import R2.Eth.Framed
import R2.Eth.Resolution

namespace R2

/-- The packets are the same from the link header to the tail; only what else is
in the buffer may differ. -/
def Packet.Alike (p q : Packet) : Prop :=
  p = q ∨ ∃ part raw, p.particle = [part] ∧ q = { p with particle := [{ part with raw := raw }] } ∧
    window raw p.l2 part.tail = window part.raw p.l2 part.tail

namespace EthDecap

variable {σ : Type} [PacketPool σ]

/-- Both runs do the same. -/
def SameRun : Outcome (EthDecap × List (Next × Packet) × σ) → Outcome (EthDecap × List (Next × Packet) × σ) → Prop
  | .ok (node, pushed, pool), .ok (node', pushed', pool') =>
    node = node' ∧ pool = pool' ∧ List.Forall₂ (fun a b => a.1 = b.1 ∧ a.2.Alike b.2) pushed pushed'
  | .error e, .error e' => e = e'
  | _, _ => False

section Runs

variable {node : EthDecap} {pool : σ} {p : Packet} {ptr head : Nat} {before before' frame after after' : List UInt8}

theorem pulledPacket_alike {before' after' : List UInt8} (same : before.length = before'.length)
    (long : etherHdrLen ≤ frame.length) :
    (pulledPacket p ptr before frame after long).Alike (pulledPacket p ptr before' frame after' long) := by
  have place : ∀ before after : List UInt8,
      window (before ++ frame ++ after) before.length (before.length + frame.length) = frame := by
    intro before after
    rw [window, List.take_append_of_le_length (by rw [List.length_append]), ← List.length_append, List.take_length,
      List.drop_left]
  refine Or.inr ⟨_, before' ++ frame ++ after', rfl, ?_, ?_⟩
  · simp only [pulledPacket, same]
  · change window (before' ++ frame ++ after') before.length (before.length + frame.length) =
      window (before ++ frame ++ after) before.length (before.length + frame.length)
    rw [place, same, place]

omit [PacketPool σ] in
theorem SameRun.refl (run : Outcome (EthDecap × List (Next × Packet) × σ)) : SameRun run run := by
  cases run with
  | error e => exact rfl
  | ok out => exact ⟨rfl, rfl, List.forall₂_same.mpr fun _ _ => ⟨rfl, Or.inl rfl⟩⟩

omit [PacketPool σ] in
theorem SameRun.of_ok {run : Outcome (EthDecap × List (Next × Packet) × σ)}
    (same : SameRun run (.ok (node, [], pool))) :
    run = .ok (node, [], pool) := by
  cases run with
  | error e => cases same
  | ok out =>
    obtain ⟨node', pushed, pool'⟩ := out
    obtain ⟨rfl, rfl, none⟩ := same
    cases none
    rfl

omit [PacketPool σ] in
theorem SameRun.map_node {β : Type} {run run' : Outcome (EthDecap × List (Next × Packet) × σ)}
    (same : SameRun run run')
    (f : EthDecap → β) : run.map (fun out => f out.1) = run'.map fun out => f out.1 := by
  cases run with
  | error e =>
    cases run' with
    | error e' => exact congrArg Except.error same
    | ok out' => cases same
  | ok out =>
    cases run' with
    | error e' => cases same
    | ok out' => exact congrArg (fun node => Except.ok (f node)) same.1

/-- Only what `process_arp` makes of the buffers can tell two runs apart. -/
theorem dispatchOne_same (long : etherHdrLen ≤ frame.length) (head : before.length = before'.length)
    (arp : readBe16 frame EthOffsets.ethTypeOff.off = .ok ethTypeArp →
      node.processArp pool (frame ++ after) = node.processArp pool (frame ++ after')) :
    SameRun (node.dispatchOne pool (p.framed ptr before frame after))
      (node.dispatchOne pool (p.framed ptr before' frame after')) := by
  rw [dispatchOne_framed long, dispatchOne_framed long]
  obtain ⟨type, hasType⟩ := @readBe16_ok EthOffsets.ethTypeOff.off frame long
  rw [hasType, Except.ok_bind, Except.ok_bind]
  by_cases isArp : type = ethTypeArp
  · rw [if_pos isArp, if_pos isArp, arp (isArp ▸ hasType)]
    exact .refl _
  · rw [if_neg isArp, if_neg isArp]
    cases slice node.intf.l2Addr 0 ethAlen with
    | error e => exact .refl _
    | ok l2Addr =>
      cases slice frame EthOffsets.ethDaddrOff.off (EthOffsets.ethDaddrOff.off + ethAlen) with
      | error e => exact .refl _
      | ok daddr =>
        simp only [Except.ok_bind]
        split
        · exact .refl _
        · split
          · exact ⟨rfl, rfl, .cons ⟨rfl, pulledPacket_alike head long⟩ .nil⟩
          · exact .refl _

theorem dispatchOne_unknown (long : etherHdrLen ≤ frame.length)
    (isArp : readBe16 frame EthOffsets.ethTypeOff.off = .ok ethTypeArp) :
    node.dispatchOne pool (p.framed ptr before frame after) = .ok (node.unknownArp, [], pool) ↔
      EthOffsets.ethOpcodeOff.off + 2 ≤ (frame ++ after).length ∧ UnknownArp node.intf (frame ++ after) := by
  rw [dispatchOne_framed long, isArp, Except.ok_bind, if_pos rfl]
  constructor
  · intro run
    obtain ⟨⟨node', arp, pool'⟩, ran, run⟩ := Except.bind_ok_iff.mp run
    have none : arp = none := by
      cases arp with
      | none => rfl
      | some pkt => cases run
    cases none
    cases run
    refine ⟨?_, .of_run ran⟩
    by_contra short
    rw [processArp_short (Nat.lt_of_not_le short)] at ran
    cases ran
  · intro ⟨opcode, unknown⟩
    rw [processArp_unknown opcode unknown]
    rfl

theorem getElem?_padded {x : UInt8} {room i : Nat} (beyond : frame.length ≤ i) (inside : i < room) :
    (frame ++ List.replicate (room - frame.length) x)[i]? = some x := by
  rw [List.getElem?_append_right beyond, List.getElem?_replicate, if_pos (by omega)]

/-- A frame that lacks a byte `process_arp` looks at can be followed by bytes
that make it unknown. -/
theorem unknown_completion (intf : Interface) {room : Nat} (more : frame.length ≤ room)
    (lacks : frame.length < EthOffsets.ethOpcodeOff.off + 2 ∧ EthOffsets.ethOpcodeOff.off + 2 ≤ room ∨
      frame.length < arpBytes ∧ arpBytes ≤ room) :
    ∃ after, (frame ++ after).length = room ∧ UnknownArp intf (frame ++ after) := by
  have length : ∀ x : UInt8, (frame ++ List.replicate (room - frame.length) x).length = room := by
    intro x
    rw [List.length_append, List.length_replicate]
    omega
  by_cases noOpcode : frame.length < EthOffsets.ethOpcodeOff.off + 2
  · -- the second byte of the opcode is missing
    have reaches : EthOffsets.ethOpcodeOff.off + 1 < room := by
      rcases lacks with ⟨_, inside⟩ | ⟨_, inside⟩
      · exact inside
      · exact Nat.lt_of_lt_of_le (by decide) inside
    refine ⟨_, length 0, Or.inl fun arp => ?_⟩
    have low := @getElem?_padded frame 0 room (EthOffsets.ethOpcodeOff.off + 1) (Nat.le_of_lt_succ noOpcode) reaches
    have value : ∀ op,
        readBe16 (frame ++ List.replicate (room - frame.length) 0) EthOffsets.ethOpcodeOff.off = .ok op →
        op % 256 = 0 := by
      intro op read
      obtain ⟨hi, _, read⟩ := Except.bind_ok_iff.mp read
      rw [index, low] at read
      cases read
      rw [fromBeBytes, UInt8.toNat_zero, Nat.add_zero, Nat.mul_mod_left]
    rcases arp.2 with req | reply
    · exact absurd (value _ req) (by decide)
    · exact absurd (value _ reply) (by decide)
  · -- the last byte of the target address is missing
    obtain ⟨short, inside⟩ := lacks.resolve_left fun both => noOpcode both.1
    refine ⟨_, length (intf.ipv4Addr.d + 1), Or.inr ⟨(length _).symm ▸ inside, Or.inl fun same => ?_⟩⟩
    have last := @getElem?_padded frame (intf.ipv4Addr.d + 1) room (EthOffsets.ethTargetIpOff.off + 3)
      (Nat.le_of_lt_succ short) inside
    have read := congrArg (fun bytes => bytes[3]?) same
    rw [getElem?_window, if_pos (by decide), last] at read
    have equal : intf.ipv4Addr.d + 1 = intf.ipv4Addr.d := Option.some.inj read
    simp at equal

theorem dispatch_single (q : Packet) : node.dispatch pool [q] = node.dispatchOne pool q := by
  rw [dispatch]
  cases node.dispatchOne pool q with
  | error e => rfl
  | ok out =>
    change Except.ok (out.1, out.2.1 ++ [], out.2.2) = _
    rw [List.append_nil]

/-- The frame has every byte that the node looks at. -/
def Whole (frame : List UInt8) : Prop :=
  readBe16 frame EthOffsets.ethTypeOff.off ≠ .ok ethTypeArp ∨ arpBytes ≤ frame.length ∨
    EthOffsets.ethOpcodeOff.off + 2 ≤ frame.length ∧ ¬IsArpIpv4 frame

/-- The frame is whole, or else what follows it, in a buffer with this room from
the head on, cannot change what the node does: the room ends before the next
byte it looks at, or no bytes there make a request or a reply for it. -/
def Settled (intf : Interface) (frame : List UInt8) (room : Nat) : Prop :=
  Whole frame ∨ room < EthOffsets.ethOpcodeOff.off + 2 ∨
    EthOffsets.ethOpcodeOff.off + 2 ≤ frame.length ∧ room < arpBytes ∨
    ∀ after, (frame ++ after).length = room → UnknownArp intf (frame ++ after)

/-- The runs of the node on the frame in any two buffers are the same. -/
def FrameOnly (node : EthDecap) (pool : σ) (p : Packet) (ptr head : Nat) (frame : List UInt8)
    (room room' : Nat) : Prop :=
  ∀ before before' after after' : List UInt8, before.length = head → before'.length = head →
    (frame ++ after).length = room → (frame ++ after').length = room' →
    SameRun (node.dispatch pool [p.framed ptr before frame after])
      (node.dispatch pool [p.framed ptr before' frame after'])

theorem isArpIpv4_append (opcode : EthOffsets.ethOpcodeOff.off + 2 ≤ frame.length) :
    IsArpIpv4 (frame ++ after) ↔ IsArpIpv4 frame := by
  rw [IsArpIpv4, readBe16_append opcode, readBe16_append (Nat.le_trans (by decide) opcode), IsArpIpv4]

theorem not_whole : ¬Whole frame ↔
    readBe16 frame EthOffsets.ethTypeOff.off = .ok ethTypeArp ∧ frame.length < arpBytes ∧
    (EthOffsets.ethOpcodeOff.off + 2 ≤ frame.length → IsArpIpv4 frame) := by
  simp only [Whole, ne_eq, not_or, not_and, not_not, not_le]

theorem Whole.same (whole : Whole frame) (long : etherHdrLen ≤ frame.length) (head : before.length = before'.length) :
    SameRun (node.dispatchOne pool (p.framed ptr before frame after))
      (node.dispatchOne pool (p.framed ptr before' frame after')) := by
  refine dispatchOne_same long head fun isArp => ?_
  rcases whole with other | all | ⟨opcode, other⟩
  · exact absurd isArp other
  · rw [processArp_append all, processArp_append all]
  · have unknown : ∀ after, node.processArp pool (frame ++ after) = .ok (node.unknownArp, none, pool) := by
      intro after
      exact processArp_unknown (by rw [List.length_append]; omega)
        (Or.inl fun arp => other ((isArpIpv4_append opcode).mp arp))
    rw [unknown, unknown]

theorem Settled.same {room : Nat} (settled : Settled node.intf frame room) (long : etherHdrLen ≤ frame.length)
    (head : before.length = before'.length) (size : (frame ++ after).length = room)
    (size' : (frame ++ after').length = room) :
    SameRun (node.dispatchOne pool (p.framed ptr before frame after))
      (node.dispatchOne pool (p.framed ptr before' frame after')) := by
  rcases settled with whole | small | ⟨opcode, small⟩ | unknown
  · exact whole.same long head
  · refine dispatchOne_same long head fun _ => ?_
    rw [processArp_short (by omega), processArp_short (by omega)]
  · by_cases arp : IsArpIpv4 frame
    · refine dispatchOne_same long head fun _ => ?_
      have beyond : ∀ after, (frame ++ after).length = room →
          node.processArp pool (frame ++ after) = .error .bounds :=
        fun after size => processArp_beyond ((isArpIpv4_append opcode).mpr arp) (by omega)
      rw [beyond after size, beyond after' size']
    · exact Whole.same (Or.inr (Or.inr ⟨opcode, arp⟩)) long head
  · refine dispatchOne_same long head fun _ => ?_
    by_cases opcode : EthOffsets.ethOpcodeOff.off + 2 ≤ room
    · rw [processArp_unknown (by omega) (unknown after size), processArp_unknown (by omega) (unknown after' size')]
    · rw [processArp_short (by omega), processArp_short (by omega)]

/-- A run on bytes that are unknown tells that those of the other run are too. -/
theorem FrameOnly.unknown {room room' : Nat} (only : FrameOnly node pool p ptr head frame room room')
    (long : etherHdrLen ≤ frame.length) (isArp : readBe16 frame EthOffsets.ethTypeOff.off = .ok ethTypeArp)
    (size : (frame ++ after).length = room) (size' : (frame ++ after').length = room')
    (opcode : EthOffsets.ethOpcodeOff.off + 2 ≤ room') (unknown : UnknownArp node.intf (frame ++ after')) :
    EthOffsets.ethOpcodeOff.off + 2 ≤ room ∧ UnknownArp node.intf (frame ++ after) := by
  have same := only (List.replicate head 0) (List.replicate head 0) after after' List.length_replicate
    List.length_replicate size size'
  have run : node.dispatchOne pool (p.framed ptr (List.replicate head 0) frame after') =
      .ok (node.unknownArp, [], pool) :=
    (dispatchOne_unknown long isArp).mpr ⟨by omega, unknown⟩
  rw [dispatch_single, dispatch_single, run] at same
  obtain ⟨opcode, unknown⟩ := (dispatchOne_unknown long isArp).mp same.of_ok
  exact ⟨by omega, unknown⟩

theorem frameOnly_iff (long : etherHdrLen ≤ frame.length) :
    (∀ room room', frame.length ≤ room → frame.length ≤ room' → FrameOnly node pool p ptr head frame room room') ↔
      Whole frame := by
  constructor
  · intro only
    by_contra lacking
    obtain ⟨isArp, short, arp⟩ := not_whole.mp lacking
    obtain ⟨after, size, unknown⟩ := unknown_completion node.intf (Nat.le_of_lt short) (Or.inr ⟨short, Nat.le_refl _⟩)
    obtain ⟨opcode, none⟩ := (only frame.length arpBytes (Nat.le_refl _) (Nat.le_of_lt short)).unknown long isArp
      (congrArg List.length (List.append_nil frame)) size (by decide) unknown
    rw [List.append_nil] at none
    rcases none with other | ⟨all, _⟩
    · exact other (arp opcode)
    · omega
  · intro whole room room' _ _ before before' after after' head head' _ _
    rw [dispatch_single, dispatch_single]
    exact whole.same long (head.trans head'.symm)

theorem frameOnly_iff_settled (long : etherHdrLen ≤ frame.length) {room : Nat} (fits : frame.length ≤ room) :
    FrameOnly node pool p ptr head frame room room ↔ Settled node.intf frame room := by
  constructor
  · intro only
    by_contra unsettled
    rw [Settled, not_or, not_or, not_or, not_whole, not_and, not_lt, not_lt] at unsettled
    obtain ⟨⟨isArp, short, _⟩, opcode, body, known⟩ := unsettled
    obtain ⟨after', size', unknown⟩ := unknown_completion node.intf fits (by
      by_cases noOpcode : frame.length < EthOffsets.ethOpcodeOff.off + 2
      · exact Or.inl ⟨noOpcode, opcode⟩
      · exact Or.inr ⟨short, body (Nat.le_of_not_lt noOpcode)⟩)
    exact known fun after size => (only.unknown long isArp size size' opcode unknown).2
  · intro settled before before' after after' head head' size size'
    rw [dispatch_single, dispatch_single]
    exact settled.same long (head.trans head'.symm) size size'

/-- A packet and the same packet in another buffer. -/
def Recycled (q q' : Packet) : Prop :=
  ∃ (p : Packet) (ptr : Nat) (before before' frame after after' : List UInt8), q = p.framed ptr before frame after ∧
    q' = p.framed ptr before' frame after' ∧ before.length = before'.length ∧ etherHdrLen ≤ frame.length ∧ Whole frame

omit [PacketPool σ] in
/-- Runs that are the same go on the same. -/
theorem SameRun.append {run run' : Outcome (EthDecap × List (Next × Packet) × σ)}
    {next next' : EthDecap → σ → Outcome (EthDecap × List (Next × Packet) × σ)} (same : SameRun run run')
    (rest : ∀ node pool, SameRun (next node pool) (next' node pool)) :
    SameRun
      (do
        let (node, pushed, pool) ← run
        let (node, more, pool) ← next node pool
        .ok (node, pushed ++ more, pool))
      (do
        let (node, pushed, pool) ← run'
        let (node, more, pool) ← next' node pool
        .ok (node, pushed ++ more, pool)) := by
  cases run with
  | error e =>
    cases run' with
    | error e' => exact same
    | ok out' => cases same
  | ok out =>
    cases run' with
    | error e' => cases same
    | ok out' =>
      obtain ⟨node, pushed, pool⟩ := out
      obtain ⟨node', pushed', pool'⟩ := out'
      obtain ⟨rfl, rfl, alike⟩ := same
      have more := rest node pool
      simp only [Except.ok_bind]
      cases first : next node pool with
      | error e =>
        cases second : next' node pool with
        | error e' =>
          rw [first, second] at more
          exact more
        | ok out' =>
          rw [first, second] at more
          cases more
      | ok out =>
        cases second : next' node pool with
        | error e' =>
          rw [first, second] at more
          cases more
        | ok out' =>
          rw [first, second] at more
          exact ⟨more.1, more.2.1, List.rel_append alike more.2.2⟩

/-- A queue of whole frames is handled alike in any buffers. -/
theorem dispatch_same {queue queue' : List Packet} (alike : List.Forall₂ Recycled queue queue') (node : EthDecap)
    (pool : σ) :
    SameRun (node.dispatch pool queue) (node.dispatch pool queue') := by
  induction alike generalizing node pool with
  | nil => exact .refl _
  | cons first _ ih =>
    obtain ⟨p, ptr, before, before', frame, after, after', rfl, rfl, head, long, whole⟩ := first
    exact (whole.same long head).append ih

end Runs

end EthDecap

open EthDecap in
/-- What the node does with a frame depends on nothing else in the buffer exactly
when the frame has every byte that the node looks at, be it as long as its type
and its opcode ask for. In buffers of one size it is enough that no bytes after
the frame can make it a request or a reply for the node. -/
theorem ethDecap_frame_only_iff {σ : Type} [PacketPool σ] {node : EthDecap} {pool : σ} {p : Packet} {ptr head : Nat}
    {frame : List UInt8} (long : etherHdrLen ≤ frame.length) :
    ((∀ room room', frame.length ≤ room → frame.length ≤ room' → FrameOnly node pool p ptr head frame room room') ↔
      Whole frame) ∧
    (∀ room, frame.length ≤ room → (FrameOnly node pool p ptr head frame room room ↔ Settled node.intf frame room)) ∧
    ∀ (node : EthDecap) (pool : σ) (queue queue' : List Packet), List.Forall₂ Recycled queue queue' →
      SameRun (node.dispatch pool queue) (node.dispatch pool queue') :=
  ⟨frameOnly_iff long, fun _ fits => frameOnly_iff_settled long fits,
    fun node pool _ _ alike => dispatch_same alike node pool⟩

section Example

/-- The header of an ARP frame without its body. -/
def shortArp : List UInt8 := [2, 0, 0, 0, 0, 2] ++ [2, 0, 0, 0, 0, 9] ++ [0x08, 0x06]

/-- The body of an earlier reply to `hostY`. -/
def staleReply : List UInt8 :=
  [0, 1, 8, 0, 6, 4, 0, 2] ++ [2, 0, 0, 0, 0, 9] ++ [10, 0, 0, 9] ++ hostY.l2Addr ++ hostY.ipv4Addr.octets

def freshY : EthDecap := ⟨hostY, fun _ => none, ⟨true, []⟩, 0, 0, 0, 0, 0⟩

theorem shortArp_not_whole : ¬EthDecap.Whole shortArp :=
  EthDecap.not_whole.mpr ⟨rfl, by decide, fun long => absurd long (by decide)⟩

/-- A header alone has the node learn the address that an earlier packet left in
the buffer, and nothing in a buffer of zeros. -/
theorem short_arp_learns_stale :
    (freshY.dispatch fullHeap [(received []).framed 0 [] shortArp staleReply]).map
      (fun out => (out.1.sender.sent, out.1.cnt.unknownArp)) =
        .ok ([.ethMacAdd ⟨3, ⟨10, 0, 0, 9⟩, ⟨[2, 0, 0, 0, 0, 9]⟩⟩], 0) ∧
    (freshY.dispatch fullHeap [(received []).framed 0 [] shortArp (List.replicate 28 0)]).map
      (fun out => (out.1.sender.sent, out.1.cnt.unknownArp)) = .ok ([], 1) ∧
    ¬EthDecap.FrameOnly freshY fullHeap (received []) 0 0 shortArp 42 42 := by
  have stale : (freshY.dispatch fullHeap [(received []).framed 0 [] shortArp staleReply]).map
      (fun out => (out.1.sender.sent, out.1.cnt.unknownArp)) =
        .ok ([.ethMacAdd ⟨3, ⟨10, 0, 0, 9⟩, ⟨[2, 0, 0, 0, 0, 9]⟩⟩], 0) := rfl
  have zeros : (freshY.dispatch fullHeap [(received []).framed 0 [] shortArp (List.replicate 28 0)]).map
      (fun out => (out.1.sender.sent, out.1.cnt.unknownArp)) = .ok ([], 1) := rfl
  refine ⟨stale, zeros, fun only => ?_⟩
  have same := only [] [] staleReply (List.replicate 28 0) rfl rfl rfl rfl
  have sent := stale.symm.trans ((same.map_node fun node => (node.sender.sent, node.cnt.unknownArp)).trans zeros)
  cases sent

theorem ethDecap_frame_only_short : ¬∀ room room', shortArp.length ≤ room → shortArp.length ≤ room' →
    EthDecap.FrameOnly freshY fullHeap (received []) 0 0 shortArp room room' :=
  fun only => shortArp_not_whole ((ethDecap_frame_only_iff (by decide)).1.mp only)

end Example

end R2
