import R2.Eth.Exchange
import R2.Path.Nodes

namespace R2

/-- What holds of the value if there is one. -/
abbrev Partially {α : Type} (x : Outcome α) (post : α → Prop) : Prop := Ensures (fun _ => True) x post

theorem partially_true {α : Type} (x : Outcome α) : Partially x fun _ => True := by
  cases x <;> trivial

theorem copy_length {bytes out : List UInt8} {off len : Nat} (run : slice bytes off (off + len) = .ok out) :
    out.length = len := by
  unfold slice at run
  split at run
  · rename_i inside
    cases Except.ok.inj run
    rw [window_length inside.2, Nat.add_sub_cancel_left]
  · cases run

namespace EthDecap

/-- The node has learned these addresses and has sent them to the control thread. -/
structure Learns (node : EthDecap) (news : List EthMacAddMsg) (node' : EthDecap) : Prop where
  intf : node'.intf = node.intf
  mac : ∀ ip raw, node'.mac ip = some raw ↔ node.mac ip = some raw ∨ ⟨node.intf.ifindex, ip, raw⟩ ∈ news
  sender : node'.sender = { node.sender with sent := node.sender.sent ++ news.map .ethMacAdd }
  news : ∀ m ∈ news, m.ifindex = node.intf.ifindex ∧ m.mac.bytes.length = ethAlen

variable {node node' node'' : EthDecap} {news more : List EthMacAddMsg}

theorem Learns.refl (node : EthDecap) : node.Learns [] node where
  intf := rfl
  mac _ _ := (or_iff_left List.not_mem_nil).symm
  sender := by rw [List.map_nil, List.append_nil]
  news _ member := absurd member List.not_mem_nil

/-- Counters do not matter. -/
theorem Learns.counted (learns : node.Learns news node') (cnt : Cnt) : node.Learns news { node' with cnt } :=
  ⟨learns.intf, learns.mac, learns.sender, learns.news⟩

theorem Learns.trans (first : node.Learns news node') (second : node'.Learns more node'') :
    node.Learns (news ++ more) node'' where
  intf := second.intf.trans first.intf
  mac ip raw := by rw [second.mac, first.mac, first.intf, List.mem_append, or_assoc]
  sender := by rw [second.sender, first.sender, List.map_append, List.append_assoc]
  news m member := by
    rcases List.mem_append.mp member with old | new
    · exact first.news m old
    · exact first.intf ▸ second.news m new

theorem macLearn_learns (ip : Ipv4Addr) {mac : List UInt8} (connected : node.sender.connected = true)
    (length : mac.length = ethAlen) : ∃ news, node.Learns news (node.macLearn ip mac) := by
  cases known : node.mac ip with
  | some raw =>
    have same : node.macLearn ip mac = node := by simp only [macLearn, known]
    exact ⟨[], same.symm ▸ Learns.refl node⟩
  | none =>
    have sent : node.sender.send (.ethMacAdd ⟨node.intf.ifindex, ip, ⟨mac⟩⟩) =
        (true, { node.sender with sent := node.sender.sent ++ [.ethMacAdd ⟨node.intf.ifindex, ip, ⟨mac⟩⟩] }) := by
      simp only [Sender.send, connected, if_true]
    have learned : node.macLearn ip mac = { node with
        mac := node.mac.orInsert ip ⟨mac⟩
        sender := { node.sender with sent := node.sender.sent ++ [.ethMacAdd ⟨node.intf.ifindex, ip, ⟨mac⟩⟩] } } := by
      simp only [macLearn, known, sent, if_true]
    refine ⟨[⟨node.intf.ifindex, ip, ⟨mac⟩⟩], ?_⟩
    rw [learned]
    refine ⟨rfl, fun ip' raw => ?_, rfl, fun m member => ?_⟩
    · simp only [MacTable.orInsert, known, List.mem_singleton, EthMacAddMsg.mk.injEq, true_and]
      by_cases same : ip' = ip
      · simp only [same, if_true, known, reduceCtorEq, false_or, true_and, Option.some.injEq, eq_comm]
      · simp only [same, if_false, false_and, or_false]
    · rw [List.mem_singleton.mp member]
      exact ⟨rfl, length⟩

section

variable {σ : Type} [PacketPool σ]

theorem processArpReply_learns (connected : node.sender.connected = true) (mac : List UInt8) :
    Partially (node.processArpReply mac) fun node' => ∃ news, node.Learns news node' := by
  have unknown : ∃ news, node.Learns news node.unknownArp := ⟨[], (Learns.refl node).counted _⟩
  refine (partially_true _).bind fun dstIp _ => Ensures.ite (fun _ => unknown) fun _ => ?_
  refine (partially_true _).bind fun dstMac _ => (partially_true _).bind fun l2Addr _ => ?_
  refine Ensures.ite (fun _ => unknown) fun _ => ?_
  refine (partially_true _).bind fun srcIp _ => (partially_true _).with_run.bind fun srcMac run => ?_
  exact macLearn_learns srcIp connected (copy_length run.1)

theorem processArpReq_learns (connected : node.sender.connected = true) (pool : σ) (mac : List UInt8) :
    Partially (node.processArpReq pool mac) fun out => ∃ news, node.Learns news out.1 := by
  have unknown : ∃ news, node.Learns news node.unknownArp := ⟨[], (Learns.refl node).counted _⟩
  refine (partially_true _).bind fun dstIp _ => Ensures.ite (fun _ => unknown) fun _ => ?_
  refine (partially_true _).bind fun srcIp _ => (partially_true _).with_run.bind fun srcMac run => ?_
  exact (partially_true _).bind fun _ _ => macLearn_learns srcIp connected (copy_length run.1)

theorem processArp_learns (connected : node.sender.connected = true) (pool : σ) (mac : List UInt8) :
    Partially (node.processArp pool mac) fun out => ∃ news, node.Learns news out.1 := by
  refine (partially_true _).bind fun op _ => (partially_true _).bind fun proto _ => ?_
  refine Ensures.ite (fun _ => ?_) fun _ => Ensures.ite (fun _ => ?_) fun _ => ?_
  · exact (processArpReply_learns connected mac).bind fun _ learns => learns
  · exact processArpReq_learns connected pool mac
  · exact ⟨[], (Learns.refl node).counted _⟩

/-- Whatever the packet, the node does no more than to learn addresses. -/
theorem dispatchOne_learns (connected : node.sender.connected = true) (pool : σ) (p : Packet) :
    Partially (node.dispatchOne pool p) fun out => ∃ news, node.Learns news out.1 := by
  refine (partially_true _).bind fun (pulled, p) _ => Ensures.ite (fun _ => trivial) fun _ => ?_
  refine (partially_true _).bind fun (mac, _) _ => (partially_true _).bind fun ethtype _ => ?_
  refine Ensures.ite (fun _ => ?_) fun _ => ?_
  · exact (processArp_learns connected pool mac).bind fun _ learns => learns
  · refine (partially_true _).bind fun l2Addr _ => (partially_true _).bind fun daddr _ => ?_
    refine Ensures.ite (fun _ => ⟨[], (Learns.refl node).counted _⟩) fun _ => Ensures.ite (fun _ => ?_) fun _ => ?_
    · exact ⟨[], Learns.refl node⟩
    · exact ⟨[], (Learns.refl node).counted _⟩

end

end EthDecap

namespace Path

variable {T σ : Type}

/-- What a frame changes of the nodes on its way. -/
structure Learns (path path' : Path T σ) (news : List EthMacAddMsg) : Prop where
  ifNode : path'.ifNode = path.ifNode
  decap : path.decap.Learns news path'.decap
  fwd : path'.fwd.table = path.fwd.table
  table : path'.table = path.table
  encap : path'.encap = path.encap

variable {path path' path'' : Path T σ} {news : List EthMacAddMsg}

theorem Learns.refl (path : Path T σ) : path.Learns path [] := ⟨rfl, .refl _, rfl, rfl, rfl⟩

theorem Learns.trans {more : List EthMacAddMsg} (first : path.Learns path' news) (second : path'.Learns path'' more) :
    path.Learns path'' (news ++ more) :=
  ⟨second.ifNode.trans first.ifNode, first.decap.trans second.decap, second.fwd.trans first.fwd,
    second.table.trans first.table, second.encap.trans first.encap⟩

variable [IpLookupTable T] [PacketPool σ]

omit [IpLookupTable T] in
/-- The nodes behind `EthDecap` learn nothing. -/
theorem atEncap_still (path : Path T σ) (p : Packet) :
    Partially (path.atEncap p) fun path' => path.Learns path' [] := by
  refine (partially_true _).bind fun (index, p) _ => ?_
  dsimp only
  split
  · exact .refl path
  · exact (partially_true _).bind fun _ _ => ⟨rfl, .refl _, rfl, rfl, rfl⟩

theorem atFwd_still (path : Path T σ) (p : Packet) : Partially (path.atFwd p) fun path' => path.Learns path' [] := by
  refine (partially_true _).with_run.bind fun (fwd, pushed) run => ?_
  have start : path.Learns { path with fwd } [] := ⟨rfl, .refl _, IPv4Fwd.dispatchOne_table run.1, rfl, rfl⟩
  refine Ensures.foldlM start fun s (next, q) _ still => ?_
  cases next with
  | drop => exact still
  | encapMux => exact (atEncap_still s q).mono fun _ => still.trans

theorem atParse_still (path : Path T σ) (p : Packet) :
    Partially (path.atParse p) fun path' => path.Learns path' [] := by
  refine (partially_true _).bind fun (parse, pushed) _ => ?_
  have start : path.Learns { path with parse } [] := ⟨rfl, .refl _, rfl, rfl, rfl⟩
  refine Ensures.foldlM start fun s (next, q) _ still => ?_
  cases next with
  | drop => exact still
  | l3Ipv4Fwd => exact (atFwd_still s q).mono fun _ => still.trans

theorem atDecap_learns (connected : path.decap.sender.connected = true) (p : Packet) :
    Partially (path.atDecap p) fun path' => ∃ news, path.Learns path' news := by
  refine (EthDecap.dispatchOne_learns connected path.pool p).bind fun (decap, pushed, pool) ⟨news, learns⟩ => ?_
  have start : path.Learns { path with decap, pool } news := ⟨rfl, learns, rfl, rfl, rfl⟩
  refine Ensures.foldlM ⟨news, start⟩ fun s (next, q) _ ⟨news, learns⟩ => ?_
  cases next with
  | drop => exact ⟨news, learns⟩
  | tx => exact ⟨news, learns.ifNode, learns.decap, learns.fwd, learns.table, learns.encap⟩
  | l3Ipv4Parse => exact (atParse_still s q).mono fun _ still => ⟨_, learns.trans still⟩

/-- Of what the threads share, a frame changes the addresses that `EthDecap` knows. -/
theorem receive_learns {frame : List UInt8} (connected : path.decap.sender.connected = true)
    (run : path.receive frame = .ok path') : ∃ news, path.Learns path' news := by
  have all : Partially (path.receive frame) fun path' => ∃ news, path.Learns path' news := by
    refine (partially_true _).bind fun (pushed, pool) _ => ?_
    have start : path.Learns { path with pool } [] := ⟨rfl, .refl _, rfl, rfl, rfl⟩
    refine Ensures.foldlM ⟨[], start⟩ fun s (next, q) _ ⟨news, learns⟩ => ?_
    cases next with
    | drop => exact ⟨news, learns⟩
    | l2EthDecap =>
      have still : s.decap.sender.connected = true := by rw [learns.decap.sender]; exact connected
      exact (atDecap_learns still q).mono fun _ ⟨more, again⟩ => ⟨_, learns.trans again⟩
  exact all.ok run

end Path

end R2
