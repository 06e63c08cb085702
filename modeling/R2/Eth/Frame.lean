import R2.Eth.Node
import R2.Packet.Room

namespace R2

theorem writeFields_ok {fields : List (Field UInt8)} {raw : List UInt8} {start : Nat} (laid : Laid start fields)
    (fits : start + (recordBytes fields).length ≤ raw.length) : ∃ raw', writeFields raw fields = .ok raw' ∧
      raw'.length = raw.length ∧
      window raw' 0 (start + (recordBytes fields).length) = window raw 0 start ++ recordBytes fields := by
  induction fields generalizing raw start with
  | nil => exact ⟨raw, rfl, rfl, (List.append_nil _).symm⟩
  | cons f rest ih =>
    obtain ⟨rfl, size, laid⟩ := laid
    rw [recordBytes_cons, List.length_append, size] at fits
    have room : f.off + f.bytes.length ≤ raw.length := by omega
    have length := overwrite_length room
    have written : copyFromSlice raw f.off (f.off + f.len) f.bytes = .ok (overwrite raw f.off f.bytes) := by
      rw [copyFromSlice, if_pos ⟨by omega, by omega, by omega⟩]
    have grown := overwrite_extends room
    rw [size] at grown
    obtain ⟨raw', run, length', whole⟩ := ih laid (by omega : _ ≤ (overwrite raw f.off f.bytes).length)
    refine ⟨raw', ?_, length'.trans length, ?_⟩
    · rw [writeFields, written, Except.ok_bind, run]
    · rw [recordBytes_cons, List.length_append, size, ← Nat.add_assoc, whole, grown, List.append_assoc]

/-- The ARP frame for the given roles. -/
def arpFrame (opcode : Nat) (daddr saddr : List UInt8) (senderIp : Ipv4Addr) (targetMac targetIp : List UInt8) :
    List UInt8 :=
  recordBytes (arpFields opcode daddr saddr senderIp targetMac ++ [targetField targetIp])

section Arp

variable {daddr saddr targetMac targetIp : List UInt8}

theorem arp_laid (opcode : Nat) (senderIp : Ipv4Addr) (dst : daddr.length = ethAlen) (src : saddr.length = ethAlen)
    (tgt : targetMac.length = ethAlen) (ip : targetIp.length = 4) :
    Laid 0 (arpFields opcode daddr saddr senderIp targetMac ++ [targetField targetIp]) :=
  ⟨rfl, dst, rfl, src, rfl, rfl, rfl, rfl, rfl, rfl, rfl, rfl, rfl, rfl, rfl, rfl, rfl, src, rfl, rfl, rfl, tgt,
    rfl, ip, trivial⟩

theorem arpFrame_length (opcode : Nat) (senderIp : Ipv4Addr) (dst : daddr.length = ethAlen)
    (src : saddr.length = ethAlen) (tgt : targetMac.length = ethAlen) (ip : targetIp.length = 4) :
    (arpFrame opcode daddr saddr senderIp targetMac targetIp).length = arpBytes :=
  (arp_laid opcode senderIp dst src tgt ip).length

/-- What the readers of `EthDecap` find in a header. -/
structure ReadsArp (mac : List UInt8) (opcode : Nat) (saddr : List UInt8) (senderIp : Ipv4Addr)
    (targetMac targetIp : List UInt8) : Prop where
  ethtype : readBe16 mac EthOffsets.ethTypeOff.off = .ok ethTypeArp
  proto : readBe16 mac EthOffsets.ethProtoOff.off = .ok ethTypeIpv4
  opcode : readBe16 mac EthOffsets.ethOpcodeOff.off = .ok opcode
  senderMac : slice mac EthOffsets.ethSenderMacOff.off (EthOffsets.ethSenderMacOff.off + ethAlen) = .ok saddr
  senderIp : readIp mac EthOffsets.ethSenderIpOff.off = .ok senderIp
  targetMac : slice mac EthOffsets.ethTargetMacOff.off (EthOffsets.ethTargetMacOff.off + ethAlen) = .ok targetMac
  targetIp : slice mac EthOffsets.ethTargetIpOff.off (EthOffsets.ethTargetIpOff.off + 4) = .ok targetIp

/-- The decoder reads back what the encoder wrote, at each of its offsets. -/
theorem arpFrame_reads {opcode : Nat} (senderIp : Ipv4Addr) (dst : daddr.length = ethAlen)
    (src : saddr.length = ethAlen) (tgt : targetMac.length = ethAlen) (ip : targetIp.length = 4)
    (op : opcode < 2 ^ 16) (junk : List UInt8) :
    ReadsArp (arpFrame opcode daddr saddr senderIp targetMac targetIp ++ junk) opcode saddr senderIp targetMac
      targetIp := by
  have length := arpFrame_length opcode senderIp dst src tgt ip
  have field (i : Nat) {f : Field UInt8}
      (at_i : (arpFields opcode daddr saddr senderIp targetMac ++ [targetField targetIp])[i]? = some f) :
      window (arpFrame opcode daddr saddr senderIp targetMac targetIp ++ junk) f.off (f.off + f.len) = f.bytes := by
    have laid : Laid ([] : List UInt8).length (arpFields opcode daddr saddr senderIp targetMac ++
      [targetField targetIp]) := arp_laid opcode senderIp dst src tgt ip
    exact laid.read (List.mem_of_getElem? at_i)
  have fits {off len : Nat} (within : off + len ≤ arpBytes) :
      off + len ≤ (arpFrame opcode daddr saddr senderIp targetMac targetIp ++ junk).length := by
    rw [List.length_append, length]
    omega
  have ethtype := field 2 rfl
  have proto := field 4 rfl
  have code := field 7 rfl
  have senderMac := field 8 rfl
  have sender := field 9 rfl
  have target := field 10 rfl
  have targetIp := field 11 rfl
  exact {
    ethtype := readBe16_of_window ethtype (by decide)
    proto := readBe16_of_window proto (by decide)
    opcode := readBe16_of_window code op
    senderMac := slice_of_window senderMac (fits (by decide))
    senderIp := readIp_of_window sender
    targetMac := slice_of_window target (fits (by decide))
    targetIp := slice_of_window targetIp (fits (by decide)) }

end Arp

end R2
