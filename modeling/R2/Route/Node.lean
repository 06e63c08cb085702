import R2.Fwd.Ipv4
import R2.Fwd.Msg
import R2.Packet.Packet

namespace R2

/-- `table` is the `Arc` of one of the control thread's two tables. -/
structure IPv4Fwd where
  table : V4Table
  noRoute : Nat
  invalidL3 : Nat

namespace IPv4Fwd

inductive Next
  | drop
  | encapMux
deriving DecidableEq, Repr

variable {T : Type} [IpLookupTable T]

/-- One turn of the loop of `dispatch`, with what it pushes; `table` is what the
node's `Arc` points to. -/
def dispatchOne (node : IPv4Fwd) (table : IPv4Table T) (p : Packet) : Outcome (IPv4Fwd × List (Next × Packet)) := do
  let (iphdr, hdrlen) ← p.getL3
  if hdrlen < iphdrMinLen then
    .ok ({ node with invalidL3 := node.invalidL3 + 1 }, [])
  else do
    let daddr ← readIp iphdr iphdrDaddrOff
    match IpLookupTable.longestMatch table.root daddr with
    | some (_, _, leaf) =>
      match leaf.next with
      | .adjacency nhop ifindex =>
        let p := { p with outIfindex := ifindex, outL3addr := nhop }
        let p := if p.outL3addr = zeroIp then { p with outL3addr := daddr } else p
        .ok (node, [(.encapMux, p)])
      | _ => .ok ({ node with noRoute := node.noRoute + 1 }, [])
    | none => .ok ({ node with noRoute := node.noRoute + 1 }, [])

def controlMsg (node : IPv4Fwd) : R2Msg → Outcome IPv4Fwd
  | .ipv4TableAdd table => .ok { node with table := table }
  | _ => .error .panicked

theorem dispatchOne_table {node node' : IPv4Fwd} {table : IPv4Table T} {p : Packet} {pushed : List (Next × Packet)}
    (run : node.dispatchOne table p = .ok (node', pushed)) : node'.table = node.table := by
  obtain ⟨⟨iphdr, hdrlen⟩, _, run⟩ := Except.bind_ok_iff.mp run
  dsimp only at run
  split at run
  · cases Except.ok.inj run
    rfl
  · obtain ⟨daddr, _, run⟩ := Except.bind_ok_iff.mp run
    split at run
    · split at run <;> cases Except.ok.inj run <;> rfl
    · cases Except.ok.inj run
      rfl

end IPv4Fwd

end R2
