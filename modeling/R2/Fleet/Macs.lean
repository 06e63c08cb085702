import R2.Fleet.Shared

namespace R2.Fleet

open Control

variable {T σ : Type}

/-- The addresses that a node has learned. -/
def Node.macs : Node T → MacTable
  | ethDecap node => node.mac
  | ethEncap node => node.mac
  | _ => fun _ => none

/-- What a node that takes the message knows then. -/
def Msg.teach (table : MacTable) : Msg T → MacTable
  | ethMacAdd m => if m.mac.bytes.length < ethAlen then table else table.orInsert m.ip m.mac
  | _ => table

def Forwarder.macs (f : Forwarder T σ) (r : Client) : MacTable :=
  match f.graph.client r.name with
  | some c => c.macs
  | none => fun _ => none

section Teach

variable {msg : Msg T} {table : MacTable} {ip : Ipv4Addr} {raw : EthMacRaw}

/-- An address that is known is never replaced. -/
theorem Msg.teach_known (msg : Msg T) (known : table ip = some raw) : msg.teach table ip = some raw := by
  cases msg with
  | ethMacAdd m =>
    unfold teach
    dsimp only
    split
    · exact known
    · rw [MacTable.orInsert_apply]
      split
      · rename_i here
        rw [← here, known]
        rfl
      · exact known
  | _ => exact known

theorem Msg.teach_some (taught : msg.teach table ip = some raw) :
    table ip = some raw ∨ ∃ m, msg = .ethMacAdd m ∧ m.ip = ip ∧ m.mac = raw := by
  cases msg with
  | ethMacAdd m =>
    unfold teach at taught
    dsimp only at taught
    split at taught
    · exact Or.inl taught
    · rw [MacTable.orInsert_apply] at taught
      split at taught
      · rename_i here
        rw [here]
        cases known : table m.ip with
        | some old => exact Or.inl (by rw [known] at taught; exact taught)
        | none => exact Or.inr ⟨m, rfl, rfl, by rw [known] at taught; exact Option.some.inj taught⟩
      · exact Or.inl taught
  | _ => exact Or.inl taught

/-- A whole address is known after the message, if another was not known before. -/
theorem Msg.teach_self {m : EthMacAddMsg} (whole : m.mac.bytes.length = ethAlen)
    (agrees : ∀ raw, table m.ip = some raw → raw = m.mac) : (ethMacAdd m : Msg T).teach table m.ip = some m.mac := by
  cases known : table m.ip with
  | some raw => exact Msg.teach_known _ (agrees raw known ▸ known)
  | none =>
    unfold teach
    dsimp only
    rw [if_neg (Nat.not_lt.mpr whole.ge)]
    exact MacTable.orInsert_vacant known

end Teach

section Receive

variable {f : Forwarder T σ} {thread : Nat} {msg : Msg T} {c d : Node T} {v : Graph (Node T) Packet} {r : Client}

theorem Node.controlMsg_macs (accepted : c.clone.accept msg = some d) :
    Partially (c.controlMsg thread msg) fun c' => c'.macs = msg.teach c.macs := by
  cases c with
  | drop => cases accepted
  | encapMux => cases accepted
  | ipv4Parse node => cases accepted
  | ipv4Fwd node table =>
    cases msg with
    | ipv4TableAdd which table => rfl
    | _ => cases accepted
  | ethEncap node =>
    cases msg with
    | modifyInterface intf => rfl
    | ethMacAdd m =>
      change (node.macAdd m.ip m.mac).mac = _
      unfold EthEncap.macAdd Msg.teach
      dsimp only
      split <;> rfl
    | _ => cases accepted
  | ethDecap node =>
    cases msg with
    | modifyInterface intf => rfl
    | ethMacAdd m =>
      change (node.macAdd m.ip m.mac).mac = _
      unfold EthDecap.macAdd Msg.teach
      dsimp only
      split <;> rfl
    | _ => cases accepted
  | ifNode node =>
    cases msg with
    | modifyInterface intf => rfl
    | classAdd c => exact (partially_true _).bind fun _ _ => rfl
    | _ => cases accepted

/-- A thread with one client replaced. -/
theorem Forwarder.macs_setClient (indexed : f.graph.Indexed) (found : f.graph.client r.name = some c) (s : Client) :
    Forwarder.macs { f with graph := f.graph.setClient r.name d } s = if s = r then d.macs else f.macs s := by
  unfold macs
  dsimp only
  rw [indexed.client_setClient (by rw [found]; rfl)]
  by_cases same : s = r
  · rw [if_pos same, if_pos (congrArg Client.name same)]
  · rw [if_neg same, if_neg fun clash => same (Client.name_injective clash)]

theorem Forwarder.macs_known (found : f.graph.client r.name = some c) : f.macs r = c.macs := by
  rw [macs, found]

theorem Forwarder.tell_macs (sound : f.Sound thread) (told : f.shared.tell r.name (·.accept msg) = some v) :
    Partially (f.tell r.name msg) fun f' => ∀ s, f'.macs s = if s = r then msg.teach (f.macs r) else f.macs s := by
  obtain ⟨_, d, cloned, accepted, rfl⟩ := Graph.tell_some told
  rw [f.client_shared] at cloned
  obtain ⟨c, found, rfl⟩ := Option.map_eq_some_iff.mp cloned
  unfold tell
  rw [Graph.controlMsg_known found, sound.place]
  have handled := @Node.controlMsg_macs _ thread _ _ _ accepted
  cases run : c.controlMsg thread msg with
  | error e => trivial
  | ok c' =>
    intro s
    rw [Forwarder.macs_known found, ← handled.ok run]
    exact Forwarder.macs_setClient sound.indexed found s

theorem Forwarder.tells_macs {recipients : List Client} (distinct : recipients.Nodup) (sound : f.Sound thread)
    (told : (recipients.map Client.name).foldlM (fun v name => v.tell name (·.accept msg)) f.shared = some v) :
    Partially ((recipients.map Client.name).foldlM (fun f name => f.tell name msg) f) fun f' =>
      ∀ s, f'.macs s = if s ∈ recipients then msg.teach (f.macs s) else f.macs s := by
  induction recipients generalizing f with
  | nil => exact fun s => (if_neg List.not_mem_nil).symm
  | cons r rest ih =>
    obtain ⟨apart, distinct⟩ := List.nodup_cons.mp distinct
    rw [List.map_cons, List.foldlM_cons] at told ⊢
    obtain ⟨v', first, later⟩ := Option.bind_eq_some_iff.mp told
    refine (Forwarder.tell_macs sound first).with_run.bind fun f' ⟨run, step⟩ => ?_
    obtain ⟨rfl, kept, _⟩ := (Forwarder.tell_apply sound first).ok run
    refine (ih distinct kept later).mono fun f'' run s => ?_
    rw [run, step]
    by_cases here : s = r
    · subst here
      rw [if_neg apart, if_pos rfl, if_pos (List.mem_cons_self ..)]
    · simp only [List.mem_cons, here, if_false, false_or]

/-- The nodes that a message is for learn what it has to teach. -/
theorem Forwarder.receive_macs (sound : f.Sound thread) (own : msg.Sound thread)
    (applied : msg.clone.apply f.shared = some v) :
    Partially (f.receive msg) fun f' => ∀ s,
      f'.macs s = if s ∈ msg.recipients then msg.teach (f.macs s) else f.macs s := by
  by_cases none : msg.recipients = []
  · have nobody (s : Client) : s ∉ msg.recipients := by
      rw [none]
      exact List.not_mem_nil
    simp only [nobody, if_false]
    cases msg with
    | gnodeAdd node init =>
      unfold Msg.clone Msg.apply at applied
      dsimp only at applied
      split at applied
      · rename_i fits
        obtain ⟨_, apart, fresh⟩ := fits
        change init.name ≠ dropName at apart
        change (f.shared.client init.name).isNone at fresh
        rw [Option.isNone_iff_eq_none, Forwarder.client_shared, Option.map_eq_none_iff] at fresh
        intro s
        unfold macs
        dsimp only
        rw [Graph.client_finalize, sound.indexed.client_add node apart]
        by_cases same : s.name = init.name
        · rw [if_pos same, same, fresh]
          dsimp only [Option.getD]
          have blank := own.2
          cases node with
          | ethDecap node => exact blank
          | ethEncap node => exact blank
          | _ => rfl
        · rw [if_neg same]
      · cases applied
    | epollAdd fd t =>
      refine fun s => ?_
      split <;> rfl
    | _ => cases none
  · have targets : msg.targets ≠ [] := by
      rw [msg.targets_eq]
      exact fun empty => none (List.map_eq_nil_iff.mp empty)
    rw [Msg.clone_of_targets targets, Msg.apply_targets targets, msg.targets_eq] at applied
    rw [Forwarder.receive_targets targets, msg.targets_eq]
    exact Forwarder.tells_macs msg.recipients_nodup sound applied

end Receive

section Frame

variable {f : Forwarder T σ} {thread i : Nat} {path path' : Path T σ} {news : List EthMacAddMsg}

/-- A frame teaches one `EthDecap`. -/
theorem Forwarder.put_macs (sound : f.Sound thread) (found : f.path i = some path) (s : Client) :
    (f.put i path').macs s = if s = .ethDecap i then path'.decap.mac else f.macs s := by
  obtain ⟨_, _, _, atDecap, _, _⟩ := Forwarder.path_some found
  -- a node that has no table is changed without a trace
  have blank {g : Graph (Node T) Packet} {r : Client} {c d : Node T} (indexed : g.Indexed)
      (so : ∀ s, Forwarder.macs { f with graph := g } s = if s = .ethDecap i then path'.decap.mac else f.macs s)
      (here : g.client r.name = some c) (none : d.macs = c.macs) (s : Client) :
      Forwarder.macs { f with graph := g.setClient r.name d } s =
        if s = .ethDecap i then path'.decap.mac else f.macs s := by
    rw [@Forwarder.macs_setClient T σ { f with graph := g } _ _ _ indexed here, ← so s]
    split
    · rename_i same
      rw [same, none]
      exact (@Forwarder.macs_known T σ { f with graph := g } _ _ here).symm
    · rfl
  exact Forwarder.put_rule (P := fun g => ∀ s, Forwarder.macs { f with graph := g } s =
      if s = .ethDecap i then path'.decap.mac else f.macs s) sound.indexed found
    (Forwarder.macs_setClient sound.indexed atDecap)
    (fun _ indexed so here => @blank _ .ipv4Parse _ _ indexed so here rfl)
    (fun _ indexed so here => @blank _ .ipv4Fwd _ _ indexed so here rfl) s

end Frame

end R2.Fleet
