import R2.Control.Api
import R2.Fwd.Prefixes
import R2.Route.Linear

namespace R2.Control

/-- A route table that remembers the mask lengths it was handed. -/
structure MaskLog (T : Type) where
  table : T
  masks : List Nat

variable {T : Type} [IpLookupTable T]

instance : IpLookupTable (MaskLog T) where
  new := ⟨IpLookupTable.new, []⟩
  insert t ip len leaf :=
    let (old, table) := IpLookupTable.insert t.table ip len leaf
    (old, ⟨table, len :: t.masks⟩)
  remove t ip len :=
    let (old, table) := IpLookupTable.remove t.table ip len
    (old, ⟨table, len :: t.masks⟩)
  longestMatch t := IpLookupTable.longestMatch t.table

/-- The mask lengths that the calls so far handed to a table. -/
def handed (r2 : Ctx (MaskLog T)) (table : V4Table) : List Nat := (r2.ipv4.deref table).root.masks

/-- The context after some calls, of which any may have failed. -/
def serve (r2 : Ctx T) (calls : List ApiCall) : Ctx T := calls.foldl (fun r2 call => (handle r2 call).1) r2

/-- A route with a long mask, and nothing else wrong with it. -/
def OversizedRoute (r2 : Ctx T) (ipMask nhop ifname : String) : Prop :=
  (∃ ip m, LongPrefix ipMask ip m) ∧ (∃ nhopIp, ipv4FromStr nhop.toList = some nhopIp) ∧
    ∃ intf, r2.ifd.interfaces ifname = some intf

/-- A request with a long mask that no other check turns down. -/
def Oversized (r2 : Ctx T) : ApiCall → Prop
  | .addIf .. => False
  | .addIp ifname ipAndMask =>
    (∃ addr m, LongPrefix ipAndMask addr m ∧ addr ≠ zeroIp) ∧ ∃ intf, r2.ifd.interfaces ifname = some intf
  | .addRoute ipMask nhop ifname => OversizedRoute r2 ipMask nhop ifname
  | .delRoute ipMask nhop ifname => OversizedRoute r2 ipMask nhop ifname

theorem addOrDelRoute_handed (r2 : Ctx (MaskLog T)) (ip : Ipv4Addr) (masklen : Nat) (nhop : Ipv4Addr) (ifindex : Nat)
    (add : Bool) (table : V4Table) :
    handed (addOrDelRoute r2 ip masklen nhop ifindex add).1 table = masklen :: handed r2 table := by
  rw [handed, addOrDelRoute_deref, RouteOp.run]
  split <;> rfl

/-- No interface has an address with a longer mask than an address has bits. -/
def Masked (r2 : Ctx T) : Prop := ∀ name intf, r2.ifd.interfaces name = some intf → intf.maskLen ≤ 32

/-- What a call hands to both tables: only an oversized request hands over more than 32. -/
structure Hands (r2 after : Ctx (MaskLog T)) (call : ApiCall) (masks : List Nat) : Prop where
  both : ∀ table, handed after table = masks ++ handed r2 table
  short : Masked r2 → ¬Oversized r2 call → ∀ m ∈ masks, m ≤ 32
  long : Oversized r2 call → ∃ m ∈ masks, 32 < m

section Steps

variable {r2 : Ctx (MaskLog T)}

omit [IpLookupTable T] in
theorem Hands.nothing {after : Ctx (MaskLog T)} {call : ApiCall} (same : after.ipv4 = r2.ipv4)
    (fine : ¬Oversized r2 call) : Hands r2 after call [] where
  both table := by simp [handed, same]
  short _ _ := by simp
  long wrong := absurd wrong fine

theorem handleRoute_hands {add : Bool} {call : ApiCall} (ipMask nhop ifname : String)
    (oversized : Oversized r2 call ↔ OversizedRoute r2 ipMask nhop ifname) :
    ∃ masks, Hands r2
      (handleRoute (fun r2 ip mask nhop i => addOrDelRoute r2 ip mask nhop i add) r2 ipMask nhop ifname).1
      call masks := by
  unfold handleRoute
  split
  · rename_i undecoded
    refine ⟨[], .nothing rfl fun wrong => ?_⟩
    obtain ⟨⟨ip, m, long⟩, _⟩ := oversized.mp wrong
    simp [(LongPrefix.decoded.mpr long).1] at undecoded
  · rename_i ip mask decoded
    split
    · rename_i undecoded
      refine ⟨[], .nothing rfl fun wrong => ?_⟩
      obtain ⟨_, ⟨_, known⟩, _⟩ := oversized.mp wrong
      simp [known] at undecoded
    · rename_i nhopIp known
      split
      · rename_i unknown
        refine ⟨[], .nothing rfl fun wrong => ?_⟩
        obtain ⟨_, _, intf, found⟩ := oversized.mp wrong
        simp [found] at unknown
      · rename_i intf found
        refine ⟨[mask], fun table => addOrDelRoute_handed .., fun _ fine m member => ?_, fun wrong => ?_⟩
        · rw [List.mem_singleton.mp member]
          by_contra above
          have long : LongPrefix ipMask ip mask := LongPrefix.decoded.mp ⟨decoded, by omega⟩
          exact fine (oversized.mpr ⟨⟨ip, mask, long⟩, ⟨nhopIp, known⟩, intf, found⟩)
        · obtain ⟨⟨ip', m, long⟩, _⟩ := oversized.mp wrong
          obtain ⟨decoded', above⟩ := LongPrefix.decoded.mpr long
          rw [decoded] at decoded'
          cases decoded'
          exact ⟨mask, List.mem_singleton_self mask, above⟩

theorem handleAddIp_hands (ifname ipAndMask : String) :
    ∃ masks, Hands r2 (handleAddIp r2 ifname ipAndMask).1 (.addIp ifname ipAndMask) masks := by
  have decodes {addr : Ipv4Addr} {m : Nat} (wrong : Oversized r2 (.addIp ifname ipAndMask))
      (decoded : ipMaskDecode ipAndMask = some (addr, m)) : addr ≠ zeroIp ∧ 32 < m := by
    obtain ⟨⟨addr', m', long, usable⟩, _⟩ := wrong
    obtain ⟨decoded', above⟩ := LongPrefix.decoded.mpr long
    rw [decoded] at decoded'
    cases decoded'
    exact ⟨usable, above⟩
  unfold handleAddIp
  split
  · rename_i unknown
    refine ⟨[], .nothing rfl fun wrong => ?_⟩
    obtain ⟨_, intf, found⟩ := wrong
    simp [found] at unknown
  · rename_i intf found
    split
    · rename_i undecoded
      refine ⟨[], .nothing rfl fun wrong => ?_⟩
      obtain ⟨⟨addr, m, long, _⟩, _⟩ := wrong
      simp [(LongPrefix.decoded.mpr long).1] at undecoded
    · rename_i addr masklen decoded
      split
      · rename_i unusable
        refine ⟨[], .nothing rfl fun wrong => ?_⟩
        obtain ⟨usable, above⟩ := decodes wrong decoded
        rcases unusable with zero | zero
        · exact usable zero
        · omega
      · rename_i usable
        have fits (fine : ¬Oversized r2 (.addIp ifname ipAndMask)) : masklen ≤ 32 := by
          by_contra above
          have long : LongPrefix ipAndMask addr masklen := LongPrefix.decoded.mp ⟨decoded, by omega⟩
          exact fine ⟨⟨addr, masklen, long, fun zero => usable (Or.inl zero)⟩, intf, found⟩
        dsimp only [getV4addr]
        split
        · refine ⟨[masklen, intf.maskLen], fun table => ?_, fun masked fine m member => ?_, fun wrong => ?_⟩
          · rw [addRoute, addOrDelRoute_handed, delRoute, addOrDelRoute_handed]
            rfl
          · simp only [List.mem_cons, List.not_mem_nil, or_false] at member
            rcases member with rfl | rfl
            · exact fits fine
            · exact masked ifname intf found
          · exact ⟨masklen, by simp, (decodes wrong decoded).2⟩
        · refine ⟨[masklen], fun table => addOrDelRoute_handed .., fun _ fine m member => ?_, fun wrong => ?_⟩
          · rw [List.mem_singleton.mp member]
            exact fits fine
          · exact ⟨masklen, by simp, (decodes wrong decoded).2⟩

/-- One call of the control API. -/
theorem handle_hands (r2 : Ctx (MaskLog T)) (call : ApiCall) : ∃ masks, Hands r2 (handle r2 call).1 call masks := by
  cases call with
  | addIf sock name ifindex mac =>
    refine ⟨[], .nothing ?_ fun wrong => wrong⟩
    simp only [handle, handleAddIf]
    split
    · rfl
    · split
      · rfl
      · cases sock <;> rfl
  | addIp ifname ipAndMask => exact handleAddIp_hands ifname ipAndMask
  | addRoute ipMask nhop ifname => exact handleRoute_hands ipMask nhop ifname Iff.rfl
  | delRoute ipMask nhop ifname => exact handleRoute_hands ipMask nhop ifname Iff.rfl

end Steps

theorem handleRoute_ifd (add : Bool) (r2 : Ctx T) (ipMask nhop ifname : String) :
    (handleRoute (fun r2 ip mask nhop i => addOrDelRoute r2 ip mask nhop i add) r2 ipMask nhop ifname).1.ifd =
      r2.ifd := by
  unfold handleRoute
  split
  · rfl
  · split
    · rfl
    · split <;> rfl

/-- The record of an interface keeps its first mask, which is 0. -/
theorem Masked.handle {r2 : Ctx T} (masked : Masked r2) (call : ApiCall) : Masked (Control.handle r2 call).1 := by
  cases call with
  | addIf sock name ifindex mac =>
    simp only [Control.handle, handleAddIf]
    split
    · exact masked
    · rename_i l2Addr _
      split
      · exact masked
      · cases sock with
        | error errno => exact masked
        | ok =>
          intro name' intf found
          change Function.update r2.ifd.interfaces name _ name' = _ at found
          by_cases here : name' = name
          · subst here
            rw [Function.update_self] at found
            cases found
            exact Nat.zero_le 32
          · rw [Function.update_of_ne here] at found
            exact masked name' intf found
  | addIp ifname ipAndMask =>
    have same : (handleAddIp r2 ifname ipAndMask).1.ifd = r2.ifd := by
      unfold handleAddIp
      split
      · rfl
      · split
        · rfl
        · split
          · rfl
          · dsimp only
            split <;> rfl
    intro name intf found
    exact masked name intf (same ▸ found)
  | addRoute ipMask nhop ifname =>
    intro name intf found
    exact masked name intf (handleRoute_ifd true r2 ipMask nhop ifname ▸ found)
  | delRoute ipMask nhop ifname =>
    intro name intf found
    exact masked name intf (handleRoute_ifd false r2 ipMask nhop ifname ▸ found)

theorem serve_append (r2 : Ctx T) (calls : List ApiCall) (call : ApiCall) :
    serve r2 (calls ++ [call]) = (handle (serve r2 calls) call).1 := by
  simp [serve]

theorem serve_masked (nthreads : Nat) (calls : List ApiCall) : Masked (serve (Ctx.new nthreads : Ctx T) calls) := by
  induction calls using List.reverseRecOn with
  | nil => exact fun _ _ found => absurd found (by simp [serve, Ctx.new, IfdCtx.new])
  | append_singleton calls call ih =>
    rw [serve_append]
    exact ih.handle call

/-- Over a whole history, only oversized requests hand the tables a mask longer than 32. -/
theorem serve_handed_iff (nthreads : Nat) (calls : List ApiCall) (table : V4Table) :
    (∀ m ∈ handed (serve (Ctx.new nthreads : Ctx (MaskLog T)) calls) table, m ≤ 32) ↔
      ∀ before call after, calls = before ++ call :: after →
        ¬Oversized (serve (Ctx.new nthreads : Ctx (MaskLog T)) before) call := by
  induction calls using List.reverseRecOn with
  | nil =>
    constructor
    · intro _ before call after split
      simp at split
    · intro _ m member
      cases table <;> cases member
  | append_singleton calls call ih =>
    obtain ⟨masks, both, short, long⟩ := handle_hands (serve (Ctx.new nthreads : Ctx (MaskLog T)) calls) call
    rw [serve_append, both]
    simp only [List.mem_append, or_imp, forall_and, ih]
    constructor
    · rintro ⟨now, earlier⟩ before call' after split
      rcases List.eq_nil_or_concat after with rfl | ⟨rest, last, rfl⟩
      · obtain ⟨rfl, rfl⟩ := List.append_inj' split rfl |>.imp_right List.singleton_inj.mp
        intro wrong
        obtain ⟨m, member, above⟩ := long wrong
        have most := now m member
        omega
      · rw [List.concat_eq_append, ← List.cons_append, ← List.append_assoc] at split
        exact earlier before call' rest (List.append_inj' split rfl).1
    · intro fine
      refine ⟨short (serve_masked nthreads calls) (fine calls call [] rfl), fun before call' after split => ?_⟩
      exact fine before call' (after ++ [call]) (by rw [split, List.append_assoc, List.cons_append])

/-- On a text `ip_mask_decode` is right if there is no sign and no long mask; over a history the tables
get masks of at most 32 bits if no request has a long one. -/
theorem ip_masks_iff (s : String) (nthreads : Nat) (calls : List ApiCall) (table : V4Table) :
    ((∀ a m, ipMaskDecode s = some (a, m) ↔ IsPrefix s a m) ↔ ¬SignedPrefix s ∧ ∀ a m, ¬LongPrefix s a m) ∧
      ((∀ m ∈ handed (serve (Ctx.new nthreads : Ctx (MaskLog T)) calls) table, m ≤ 32) ↔
        ∀ before call after, calls = before ++ call :: after →
          ¬Oversized (serve (Ctx.new nthreads : Ctx (MaskLog T)) before) call) :=
  ⟨ipMaskDecode_exact_iff s, serve_handed_iff nthreads calls table⟩

/-- A mask of 33 bits is handed to the tables, and a signed length is taken. -/
theorem ip_masks_long :
    (ipMaskDecode "10.0.0.0/33" = some (⟨10, 0, 0, 0⟩, 33) ∧ ¬IsPrefix "10.0.0.0/33" ⟨10, 0, 0, 0⟩ 33) ∧
      (ipMaskDecode "10.0.0.0/+8" = some (⟨10, 0, 0, 0⟩, 8) ∧ ¬IsPrefix "10.0.0.0/+8" ⟨10, 0, 0, 0⟩ 8) ∧
      handed (serve (Ctx.new 1 : Ctx (MaskLog RouteList)) [.addIf (.ok ()) "eth0" 1 "02:00:00:00:00:01",
        .addRoute "10.0.0.0/33" "10.1.1.1" "eth0"]) .table1 = [33] := by
  have long : ipMaskDecode "10.0.0.0/33" = some (⟨10, 0, 0, 0⟩, 33) := by decide +kernel
  have signed : ipMaskDecode "10.0.0.0/+8" = some (⟨10, 0, 0, 0⟩, 8) := by decide +kernel
  refine ⟨⟨long, fun right => absurd right.1 (by decide)⟩, ⟨signed, ?_⟩, by decide +kernel⟩
  rintro ⟨_, digits, number, text⟩
  have tail : "10.0.0.0/+8".toList = Ipv4Addr.dotted ⟨10, 0, 0, 0⟩ ++ ['/', '+', '8'] := by
    decide +kernel
  rw [tail, List.append_cancel_left_eq, List.cons.injEq] at text
  exact absurd (number.digits '+' (text.2 ▸ List.mem_cons_self ..)) (by decide)

end R2.Control
