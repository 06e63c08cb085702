import R2.Counters.Disjoint
import R2.Counters.Exhausted

namespace R2

/-- The position of one of its cells. -/
def Slot.Cell (s : Slot) (off : Nat) : Prop := ∃ i, i * 8 < s.vecLen ∧ off = BinInfo.vec.start + s.vecOff + i * 8

theorem Counters.addCell_cells {c c' : Counters} {addr val ret off : Nat} (run : c.addCell addr val = .ok (ret, c'))
    (other : off ≠ addr - c.base) : c'.shm.cells off = c.shm.cells off := by
  obtain ⟨sum, _, run⟩ := Except.bind_ok_iff.mp run
  cases Except.ok.inj run
  exact Function.update_of_ne other _ _

theorem Counters.subCell_cells {c c' : Counters} {addr val ret off : Nat} (run : c.subCell addr val = .ok (ret, c'))
    (other : off ≠ addr - c.base) : c'.shm.cells off = c.shm.cells off := by
  obtain ⟨rest, _, run⟩ := Except.bind_ok_iff.mp run
  cases Except.ok.inj run
  exact Function.update_of_ne other _ _

theorem CounterArray.at?_mem {a : CounterArray} {i addr : Nat} (run : a.at? i = .ok addr) : addr ∈ a.array := by
  unfold CounterArray.at? at run
  split at run
  · cases Except.ok.inj run
    exact List.mem_of_getElem? ‹_›
  · cases run

/-- An owner writes no cells but its own. -/
theorem Handle.Update.cells {h : Handle} {c c' : Counters} {off : Nat} (update : h.Update c c')
    (outside : ∀ addr ∈ h.cells, off ≠ addr - c.base) : c'.shm.cells off = c.shm.cells off := by
  cases update with
  | add run => exact c.addCell_cells run (outside _ (List.mem_singleton_self _))
  | sub run => exact c.subCell_cells run (outside _ (List.mem_singleton_self _))
  | addPkts run =>
    obtain ⟨⟨_, c₁⟩, first, second⟩ := Except.bind_ok_iff.mp run
    obtain ⟨cells, rfl⟩ := c.addCell_same first
    exact (Counters.addCell_cells second (outside _ (List.mem_cons_self ..))).trans
      (c.addCell_cells first (outside _ (List.mem_cons_of_mem _ (List.mem_singleton_self _))))
  | subPkts run =>
    obtain ⟨⟨_, c₁⟩, first, second⟩ := Except.bind_ok_iff.mp run
    obtain ⟨cells, rfl⟩ := c.subCell_same first
    exact (Counters.subCell_cells second (outside _ (List.mem_cons_self ..))).trans
      (c.subCell_cells first (outside _ (List.mem_cons_of_mem _ (List.mem_singleton_self _))))
  | setAt run =>
    obtain ⟨addr, found, run⟩ := Except.bind_ok_iff.mp run
    cases Except.ok.inj run
    exact Function.update_of_ne (outside _ (CounterArray.at?_mem found)) _ _
  | addAt run =>
    obtain ⟨addr, found, run⟩ := Except.bind_ok_iff.mp run
    exact c.addCell_cells run (outside _ (CounterArray.at?_mem found))
  | subAt run =>
    obtain ⟨addr, found, run⟩ := Except.bind_ok_iff.mp run
    exact c.subCell_cells run (outside _ (CounterArray.at?_mem found))

namespace Counters

/-- Cells that no slot owns read zero. -/
def Zeroed (c : Counters) (slots : List Slot) : Prop := ∀ off, (∀ s ∈ slots, ¬s.Cell off) → c.shm.cells off = 0

/-- The counter reads zero in all its entries. -/
def ReadsZero (c : Counters) (e : Live) : Prop := ∀ addr ∈ e.handle.cells, c.cell addr = 0

/-- A pool after some calls, with the counters that are live and those of them
that nobody has updated; a counter is only freed in a state that `mayFree` allows. -/
inductive Runs (mayFree : Counters → Live → Prop) (base : Nat) : List Live → List Live → Counters → Prop
  | new {c} : base ≠ 0 → Counters.new base = .ok c → Runs mayFree base [] [] c
  | create {live unused c flavor node ctype name full handle c'} : Runs mayFree base live unused c →
      counterName node ctype name = .ok full → Flavor.new flavor c node ctype name = .ok (handle, c') →
      Runs mayFree base (⟨full, flavor, handle⟩ :: live) (⟨full, flavor, handle⟩ :: unused) c'
  | free {live unused c e c'} : Runs mayFree base live unused c → e ∈ live → mayFree c e →
      e.handle.free c = .ok c' → Runs mayFree base (live.erase e) (unused.filter (· ≠ e)) c'
  | update {live unused c e c'} : Runs mayFree base live unused c → e ∈ live → e.handle.Update c c' →
      Runs mayFree base live (unused.filter (· ≠ e)) c'

variable {c c' : Counters} {e : Live} {s s' : Slot} {slots : List Slot}

theorem Occupies.cell_of {addr : Nat} (occupies : Occupies c e s) (member : addr ∈ e.handle.cells) :
    s.Cell (addr - c.base) ∧ c.base ≤ addr := by
  rw [occupies.cells, cellsFrom] at member
  obtain ⟨i, inside, rfl⟩ := List.mem_map.mp member
  have few := List.mem_range.mp inside
  have len := occupies.len
  refine ⟨⟨i, by omega, ?_⟩, ?_⟩
  · dsimp only [address]
    omega
  · dsimp only [address]
    omega

theorem Holds.cell_addr {off : Nat} (holds : Holds c e s) (cell : s.Cell off) : c.base + off ∈ e.handle.cells := by
  obtain ⟨i, inside, rfl⟩ := cell
  have len := holds.len
  rw [holds.cells, cellsFrom]
  refine List.mem_map.mpr ⟨i, List.mem_range.mpr (by omega), ?_⟩
  dsimp only [address]
  omega

/-- The cells of two slots lie at different places. -/
theorem SlotsApart.cell {off : Nat} (apart : SlotsApart s s') (whole : 8 ∣ s.vecLen) (whole' : 8 ∣ s'.vecLen)
    (cell : s.Cell off) : ¬s'.Cell off := by
  rintro ⟨j, inside', rfl⟩
  obtain ⟨i, inside, same⟩ := cell
  obtain ⟨k, len⟩ := whole
  obtain ⟨k', len'⟩ := whole'
  have apart := apart.2.1
  unfold Block.Apart Block.stop at apart
  simp only [Bin.asked, Slot.vecObject] at apart
  omega

variable {mayFree : Counters → Live → Prop} {base : Nat} {live unused : List Live}

/-- A counter that is no dummy is only freed while it reads zero. -/
def Clean (c : Counters) (e : Live) : Prop := ¬c.SharesDummy e → c.ReadsZero e

/-- Every cell without an owner reads zero, and so does every own counter that
nobody has updated. -/
structure Tidy (c : Counters) (unused : List Live) (own : List (Live × Slot)) (shared : List Slot) : Prop where
  zeroed : c.Zeroed (own.map Prod.snd ++ shared)
  untouched : ∀ p ∈ own, p.1 ∈ unused → ∀ off, p.2.Cell off → c.shm.cells off = 0

theorem Accounts.whole {own : List (Live × Slot)} {dummies : List Live} {shared : List Slot}
    (accounts : Accounts c live own dummies shared) (member : s ∈ own.map Prod.snd ++ shared) : 8 ∣ s.vecLen := by
  rcases List.mem_append.mp member with mine | dummy
  · obtain ⟨p, pair, rfl⟩ := List.mem_map.mp mine
    exact ⟨p.1.flavor.nvecs, (accounts.holds p pair).len.trans (Nat.mul_comm ..)⟩
  · obtain ⟨s₁, s₂, s₃, rfl, -, -, len₁, -, len₂, -, len₃⟩ := accounts.sharing
    simp only [List.mem_cons, List.not_mem_nil, or_false] at dummy
    rcases dummy with rfl | rfl | rfl
    · exact ⟨32, len₃⟩
    · exact ⟨2, len₂⟩
    · exact ⟨1, len₁⟩

/-- Own slots belong to different counters. -/
theorem Accounts.apart_own {own : List (Live × Slot)} {dummies : List Live} {shared : List Slot} {p : Live × Slot}
    (accounts : Accounts c live own dummies shared) (mine : (e, s) ∈ own) (member : p ∈ own.erase (e, s)) :
    p.1 ≠ e ∧ SlotsApart s p.2 := by
  have order := List.perm_cons_erase mine
  have slots := (accounts.sound.perm ((order.map Prod.snd).append_right shared)).apart
  have apart := (List.pairwise_cons.mp slots).1 p.2
    (List.mem_append_left _ (List.mem_map_of_mem (f := Prod.snd) member))
  refine ⟨?_, apart⟩
  rintro rfl
  have dir := accounts.holds _ mine
  have dir' := accounts.holds _ (List.mem_of_mem_erase member)
  have same := dir.dir.symm.trans dir'.dir
  have entries := apart.1
  unfold Block.Apart Block.stop at entries
  dsimp only [address] at same
  simp only [Bin.asked, Slot.dirObject, BinInfo.dir] at entries same
  omega

namespace Tidy

variable {own : List (Live × Slot)} {dummies : List Live} {shared : List Slot}

/-- A new slot lies where nobody was, so it reads zero. -/
theorem create (tidy : Tidy c unused own shared) (kept : Kept c c')
    (accounts : Accounts c' (e :: live) ((e, s) :: own) dummies shared) :
    Tidy c' (e :: unused) ((e, s) :: own) shared := by
  have apart := (List.pairwise_cons.mp accounts.sound.apart).1
  have own_zero : ∀ off, s.Cell off → c.shm.cells off = 0 := by
    intro off cell
    refine tidy.zeroed off fun s' member => ?_
    exact (apart s' member).cell (accounts.whole (List.mem_cons_self ..))
      (accounts.whole (List.mem_cons_of_mem _ member)) cell
  refine ⟨fun off outside => ?_, fun p member untouched off cell => ?_⟩
  · rw [kept.cells]
    exact tidy.zeroed off fun s' member => outside s' (List.mem_cons_of_mem _ member)
  · rw [kept.cells]
    rcases List.mem_cons.mp member with rfl | old
    · exact own_zero off cell
    · rcases List.mem_cons.mp untouched with same | untouched
      · have apart := accounts.apart_own (List.mem_cons_self ..) (p := p) (by rwa [List.erase_cons_head])
        exact absurd same apart.1
      · exact tidy.untouched p old untouched off cell

/-- A dummy takes no slot. -/
theorem create_dummy (tidy : Tidy c unused own shared) (kept : Kept c c')
    (accounts : Accounts c' (e :: live) own (e :: dummies) shared) : Tidy c' (e :: unused) own shared := by
  refine ⟨fun off outside => ?_, fun p member untouched off cell => ?_⟩
  · rw [kept.cells]
    exact tidy.zeroed off outside
  · rw [kept.cells]
    rcases List.mem_cons.mp untouched with rfl | untouched
    · exact absurd (accounts.isDummy p.1 (List.mem_cons_self ..)).dir (accounts.dir_ne_dummy member p.1.flavor)
    · exact tidy.untouched p member untouched off cell

/-- The slot that an update writes to is no own slot of another counter. -/
theorem update (tidy : Tidy c unused own shared) (accounts : Accounts c live own dummies shared) (member : e ∈ live)
    (update : e.handle.Update c c') : Tidy c' (unused.filter (· ≠ e)) own shared := by
  obtain ⟨s, inside, occupies, others⟩ : ∃ s ∈ own.map Prod.snd ++ shared, Occupies c e s ∧
      ∀ p ∈ own, p.1 ≠ e → SlotsApart s p.2 := by
    rcases accounts.own_or_dummy member with ⟨s, mine⟩ | dummy
    · refine ⟨s, List.mem_append_left _ (List.mem_map_of_mem (f := Prod.snd) mine), (accounts.holds _ mine).occupies,
        fun p old other => (accounts.apart_own mine ?_).2⟩
      exact (List.mem_erase_of_ne fun same => other (congrArg Prod.fst same)).mpr old
    · obtain ⟨s, dummy, occupies⟩ := (accounts.isDummy e dummy).occupies accounts.sharing
      refine ⟨s, List.mem_append_right _ dummy, occupies, fun p old _ => ?_⟩
      have apart := (List.pairwise_append.mp accounts.sound.apart).2.2 p.2 (List.mem_map_of_mem (f := Prod.snd) old) s
        dummy
      exact ⟨apart.1.symm, apart.2.1.symm, apart.2.2.symm⟩
  have same : ∀ off, ¬s.Cell off → c'.shm.cells off = c.shm.cells off := by
    intro off outside
    refine update.cells fun addr mine here => outside ?_
    rw [here]
    exact (occupies.cell_of mine).1
  refine ⟨fun off outside => ?_, fun p old untouched off cell => ?_⟩
  · rw [same off (outside s inside)]
    exact tidy.zeroed off outside
  · obtain ⟨untouched, other⟩ := List.mem_filter.mp untouched
    have apart := others p old (of_decide_eq_true other)
    have outside : ¬s.Cell off := fun here => apart.cell (accounts.whole inside)
      (accounts.whole (List.mem_append_left _ (List.mem_map_of_mem (f := Prod.snd) old))) here cell
    rw [same off outside]
    exact tidy.untouched p old untouched off cell

/-- A slot that is given up while it reads zero leaves zeroes behind. -/
theorem free (tidy : Tidy c unused own shared) (accounts : Accounts c live own dummies shared) (kept : Kept c c')
    (mine : (e, s) ∈ own) (clean : c.Clean e) : Tidy c' (unused.filter (· ≠ e)) (own.erase (e, s)) shared := by
  have holds := accounts.holds _ mine
  have separate : ¬c.SharesDummy e := by
    rw [SharesDummy, holds.dummy]
    exact accounts.dir_ne_dummy mine e.flavor
  refine ⟨fun off outside => ?_, fun p member untouched off cell => ?_⟩
  · rw [kept.cells]
    by_cases here : s.Cell off
    · have zero := clean separate _ (holds.cell_addr here)
      rwa [cell, Nat.add_sub_cancel_left] at zero
    · refine tidy.zeroed off fun s' member => ?_
      rcases List.mem_append.mp member with old | dummy
      · obtain ⟨p, pair, rfl⟩ := List.mem_map.mp old
        by_cases same : p = (e, s)
        · exact same ▸ here
        · exact outside _ (List.mem_append_left _
            (List.mem_map_of_mem (f := Prod.snd) ((List.mem_erase_of_ne same).mpr pair)))
      · exact outside s' (List.mem_append_right _ dummy)
  · rw [kept.cells]
    exact tidy.untouched p (List.mem_of_mem_erase member) (List.mem_filter.mp untouched).1 off cell

end Tidy

theorem Runs.tidy (runs : Runs Clean base live unused c) : ∃ own dummies shared, Accounts c live own dummies shared ∧
    Tidy c unused own shared := by
  induction runs with
  | new mapped run =>
    obtain ⟨-, cells, -, shared, sharing, sound⟩ := new_sound run
    refine ⟨[], [], shared, ⟨sharing, sound, List.Perm.refl _, nofun, nofun⟩, ⟨fun off _ => ?_, nofun⟩⟩
    rw [cells]
  | @create live unused c flavor node ctype name full handle c' _ named run ih =>
    obtain ⟨own, dummies, shared, accounts, tidy⟩ := ih
    obtain ⟨kept, dummy | ⟨s, mine⟩⟩ := accounts.create (e := ⟨full, flavor, handle⟩) named run
    · exact ⟨_, _, _, dummy, tidy.create_dummy kept dummy⟩
    · exact ⟨_, _, _, mine, tidy.create kept mine⟩
  | free _ member clean run ih =>
    obtain ⟨own, dummies, shared, accounts, tidy⟩ := ih
    obtain ⟨kept, ⟨s, mine, after⟩ | ⟨rfl, after⟩⟩ := accounts.release_cases member run
    · exact ⟨_, _, _, after, tidy.free accounts kept mine clean⟩
    · exact ⟨_, _, _, after, tidy.zeroed, fun p old untouched =>
        tidy.untouched p old (List.mem_filter.mp untouched).1⟩
  | update _ member run ih =>
    obtain ⟨own, dummies, shared, accounts, tidy⟩ := ih
    exact ⟨_, _, _, accounts.update run, tidy.update accounts member run⟩

theorem Runs.unused_live (runs : Runs mayFree base live unused c) (member : e ∈ unused) : e ∈ live := by
  induction runs with
  | new _ _ => cases member
  | create _ _ _ ih =>
    rcases List.mem_cons.mp member with rfl | old
    · exact List.mem_cons_self ..
    · exact List.mem_cons_of_mem _ (ih old)
  | free _ _ _ _ ih =>
    obtain ⟨old, other⟩ := List.mem_filter.mp member
    exact (List.mem_erase_of_ne (of_decide_eq_true other)).mpr (ih old)
  | update _ _ _ ih => exact ih (List.mem_filter.mp member).1

/-- While counters are only freed when they read zero, a counter reads zero
until its owner updates it. -/
theorem Runs.unused_zero (runs : Runs Clean base live unused c) (member : e ∈ unused) (own : ¬c.SharesDummy e) :
    c.ReadsZero e := by
  obtain ⟨owned, dummies, shared, accounts, tidy⟩ := runs.tidy
  intro addr mine
  rcases accounts.own_or_dummy (runs.unused_live member) with ⟨s, pair⟩ | dummy
  · exact tidy.untouched _ pair member _ ((accounts.holds _ pair).occupies.cell_of mine).1
  · exact absurd (accounts.isDummy e dummy).shares own

end Counters

/-- What was freed last is handed out first. -/
theorem Bin.Sound.free_get {b limit base size : Nat} {objects : List (Nat × Nat)} {bin bin' : Bin}
    (sound : Bin.Sound b limit ((base, size) :: objects) bin) (run : bin.free base size = .ok bin') :
    ∃ bin'', bin'.get size = .ok (some base, bin'') := by
  obtain ⟨pos, small, -, pushed⟩ := sound.free_eq_ok.mp run
  have after := sound.free run
  unfold pushFront at pushed
  split at pushed
  · rename_i bases here
    cases Except.ok.inj pushed
    have known := (List.getElem?_eq_some_iff.mp here).1
    have length : classOf b size + 1 - (bin.bins.set (classOf b size) (base :: bases)).length = 0 := by
      rw [List.length_set]
      omega
    unfold Bin.get
    rw [if_neg (by omega), index_ok after.binsz after.order after.zeroes pos small, Except.ok_bind]
    dsimp only
    rw [length, List.replicate_zero, List.append_nil, List.getElem?_set_self known]
    exact ⟨_, rfl⟩
  · cases pushed

namespace Counters

variable {c c' : Counters} {e : Live} {s : Slot} {slots : List Slot} {base : Nat} {live : List Live}

/-- A slot can be freed, and its three objects are the first to be had again. -/
theorem Sound.free_returns (sound : Sound (s :: slots) c) (mapped : c.base + mmapSize ≤ 2 ^ 64) :
    ∃ c' dir vec names, c.free (c.base + BinInfo.dir.start + s.dirOff) = .ok c' ∧
      c'.Answers s.vecLen s.name.length (some s.dirOff) (some s.vecOff) (some s.nameOff) dir vec names := by
  have addr : c.base + BinInfo.dir.start + s.dirOff - c.base = BinInfo.dir.start + s.dirOff := by omega
  have entry := sound.entries s (List.mem_cons_self ..)
  have start : c.base + BinInfo.dir.start < 2 ^ 64 := by
    have sizes : BinInfo.dir.start < mmapSize := by decide
    omega
  obtain ⟨names, freeName⟩ := Bin.Sound.free_ok sound.names
  obtain ⟨vec, freeVec⟩ := Bin.Sound.free_ok sound.vec
  obtain ⟨dir, freeDir⟩ := Bin.Sound.free_ok sound.dir
  obtain ⟨names', getName⟩ := Bin.Sound.free_get sound.names freeName
  obtain ⟨vec', getVec⟩ := Bin.Sound.free_get sound.vec freeVec
  obtain ⟨dir', getDir⟩ := Bin.Sound.free_get sound.dir freeDir
  have text : sub64 s.entry.nameOff BinInfo.name.start = .ok s.nameOff :=
    sub64_ok.mpr ⟨Nat.le_add_right .., (Nat.add_sub_cancel_left ..).symm⟩
  have value : sub64 s.entry.vecOff BinInfo.vec.start = .ok s.vecOff :=
    sub64_ok.mpr ⟨Nat.le_add_right .., (Nat.add_sub_cancel_left ..).symm⟩
  have here : sub64 (c.base + BinInfo.dir.start + s.dirOff) (c.base + BinInfo.dir.start) = .ok s.dirOff :=
    sub64_ok.mpr ⟨Nat.le_add_right .., (Nat.add_sub_cancel_left ..).symm⟩
  refine ⟨{ c with
    dir := dir
    vec := vec
    names := names
    shm := c.shm.writeDir (BinInfo.dir.start + s.dirOff) ⟨0, 0, 0, 0⟩ }, dir', vec', names', ?_,
    ⟨getDir, getVec, getName⟩⟩
  have freeName : c.names.free s.nameOff s.entry.nameLen = .ok names := freeName
  have freeVec : c.vec.free s.vecOff s.entry.vecLen = .ok vec := freeVec
  have freeDir : c.dir.free s.dirOff BinInfo.dir.binsz = .ok dir := freeDir
  unfold Counters.free
  rw [addr, entry]
  dsimp only
  rw [text, Except.ok_bind, freeName, Except.ok_bind, value, Except.ok_bind, freeVec, Except.ok_bind,
    add64_ok.mpr ⟨start, rfl⟩, Except.ok_bind, here, Except.ok_bind, freeDir, Except.ok_bind]

/-- A counter that is freed and made again lies where it was, with its values. -/
theorem Reached.recycled {node name : List UInt8} {ctype : CounterType} (reached : Reached base live c)
    (mapped : base + mmapSize ≤ 2 ^ 64) (member : e ∈ live) (own : ¬c.SharesDummy e)
    (named : counterName node ctype name = .ok e.name) : ∃ c₁ h c₂, e.handle.free c = .ok c₁ ∧
      e.flavor.new c₁ node ctype name = .ok (h, c₂) ∧ ¬c₂.SharesDummy ⟨e.name, e.flavor, h⟩ ∧
      h.cells = e.handle.cells ∧ ∀ addr, c₂.cell addr = c.cell addr := by
  obtain ⟨rfl, owned, dummies, shared, accounts⟩ := reached.accounts
  obtain ⟨s, pair⟩ := (accounts.own_or_dummy member).resolve_right fun dummy =>
    own (accounts.isDummy e dummy).shares
  have holds := accounts.holds _ pair
  have sound := accounts.sound.perm (((List.perm_cons_erase pair).map Prod.snd).append_right shared)
  obtain ⟨c₁, dir, vec, names, freed, answers⟩ := sound.free_returns mapped
  obtain ⟨kept, sound₁⟩ := sound.free freed
  have few := e.flavor.nvecs_le
  rw [holds.len, holds.name] at answers
  have mapped₁ : c₁.base + mmapSize ≤ 2 ^ 64 := kept.base ▸ mapped
  have short := counterName_length named
  obtain ⟨c₂, got, inside, -⟩ := answers.get_all few short sound₁ mapped₁ rfl rfl rfl
  have kept₂ := (sound₁.get short got).1
  have run := allocate_of_get e.flavor.dummy named got
  have start : s.dirOff + c₁.base + BinInfo.dir.start ≠ 0 := by
    simp only [BinInfo.dir]
    omega
  have sizes : BinInfo.vec.start + BinInfo.vec.totsz + 256 ≤ mmapSize := by decide
  rw [if_neg start] at run
  obtain ⟨h, made⟩ := new_of_allocate run (by omega)
  obtain ⟨d, v, run', newDir, newCells, newDummy⟩ := Flavor.new_ok made
  obtain ⟨rfl, rfl⟩ := Prod.mk.inj (Prod.mk.inj (Except.ok.inj (run.symm.trans run'))).1
  have sameDir : h.dir = e.handle.dir := by
    rw [newDir, holds.dir, kept.base]
    dsimp only [address]
    omega
  have free : e.handle.free c = .ok c₁ := by
    have other : e.handle.dir ≠ (e.handle.dummy c.dummies).dir := own
    rw [Handle.free_eq, Counters.release, if_pos other, holds.dir]
    exact freed
  refine ⟨c₁, h, c₂, free, made, ?_, ?_, fun addr => ?_⟩
  · rw [SharesDummy, newDummy, kept₂.dummies, kept.dummies]
    dsimp only
    rw [sameDir, ← holds.dummy]
    exact own
  · rw [newCells, holds.cells]
    refine congrArg (fun start => cellsFrom start e.flavor.nvecs) ?_
    rw [kept.base]
    dsimp only [address]
    omega
  · rw [cell, cell, kept₂.base, kept.base, kept₂.cells, kept.cells]

end Counters

/-- While every counter that is freed reads zero, each new counter reads zero
until its owner updates it; and any other counter can be freed and made again,
and then it does not. -/
theorem new_counters_zero {base : Nat} {live : List Live} {c : Counters} :
    (∀ unused, Counters.Runs Counters.Clean base live unused c →
      ∀ e ∈ unused, ¬c.SharesDummy e → c.ReadsZero e) ∧
    ∀ e node ctype name, base + mmapSize ≤ 2 ^ 64 → Counters.Reached base live c → e ∈ live → ¬c.Clean e →
      counterName node ctype name = .ok e.name → ∃ c₁ h c₂, e.handle.free c = .ok c₁ ∧
        e.flavor.new c₁ node ctype name = .ok (h, c₂) ∧ ¬c₂.SharesDummy ⟨e.name, e.flavor, h⟩ ∧
        ¬c₂.ReadsZero ⟨e.name, e.flavor, h⟩ := by
  refine ⟨fun unused runs e member own => runs.unused_zero member own,
    fun e node ctype name mapped reached member dirty named => ?_⟩
  obtain ⟨own, values⟩ := Classical.not_imp.mp dirty
  obtain ⟨c₁, h, c₂, free, made, separate, cells, same⟩ := reached.recycled mapped member own named
  refine ⟨c₁, h, c₂, free, made, separate, fun zero => values fun addr mine => ?_⟩
  rw [← same]
  exact zero addr (cells ▸ mine)

/-- A counter on a fresh pool counts five, is freed and made again. -/
def countedAgain : Outcome (Counter × Counter × Counters) := do
  let c ← Counters.new 4096
  let (x, c) ← Counter.new c (ascii "a") .pkts (ascii "x")
  let (_, c) ← x.add c 5
  let c ← x.free c
  let (y, c) ← Counter.new c (ascii "a") .pkts (ascii "x")
  .ok (x, y, c)

theorem new_counter_reads_five : ∃ live unused c e, Counters.Runs (fun _ _ => True) 4096 live unused c ∧ e ∈ unused ∧
    ¬c.SharesDummy e ∧ e.handle.cells.map c.cell = [5] ∧ ¬c.ReadsZero e := by
  have values : (countedAgain.map fun r => (r.2.1.dir, r.2.2.dummies.counter.dir, r.2.2.cell r.2.1.count)) =
      .ok (8208, 4160, 5) := by decide +kernel
  cases run : countedAgain with
  | error e =>
    rw [run] at values
    cases values
  | ok r =>
    obtain ⟨x, y, c⟩ := r
    rw [run] at values
    obtain ⟨dir, dummy, five⟩ : y.dir = 8208 ∧ c.dummies.counter.dir = 4160 ∧ c.cell y.count = 5 := by
      simpa only [Prod.mk.injEq] using Except.ok.inj values
    obtain ⟨c₀, new, run⟩ := Except.bind_ok_iff.mp run
    obtain ⟨⟨_, c₁⟩, first, run⟩ := Except.bind_ok_iff.mp run
    obtain ⟨⟨_, c₂⟩, counted, run⟩ := Except.bind_ok_iff.mp run
    obtain ⟨c₃, freed, run⟩ := Except.bind_ok_iff.mp run
    obtain ⟨⟨_, c₄⟩, second, run⟩ := Except.bind_ok_iff.mp run
    cases Except.ok.inj run
    have made : Flavor.new .counter c₀ (ascii "a") .pkts (ascii "x") = .ok (.counter x, c₁) := by
      rw [Flavor.new, first]
      rfl
    have again : Flavor.new .counter c₃ (ascii "a") .pkts (ascii "x") = .ok (.counter y, c) := by
      rw [Flavor.new, second]
      rfl
    let e : Live := ⟨ascii "a/pkts/x", .counter, .counter x⟩
    have live : e ∈ [e] := List.mem_singleton_self e
    have fresh : Counters.Runs (fun _ _ => True) 4096 [] [] c₀ := .new (by decide) new
    have runs := ((fresh.create Counters.array_named made).update live (.add counted)).free live trivial freed
    refine ⟨_, _, c, ⟨ascii "a/pkts/x", .counter, .counter y⟩, runs.create Counters.array_named again,
      List.mem_cons_self .., fun shares => ?_, ?_, fun zero => ?_⟩
    · have same : y.dir = c.dummies.counter.dir := shares
      rw [dir, dummy] at same
      exact absurd same (by decide)
    · exact congrArg (fun value => [value]) five
    · have none := zero y.count (List.mem_singleton_self _)
      rw [five] at none
      exact absurd none (by decide)

/-- A counter on a fresh pool counts five up and down again, is freed and made again. -/
def countedDown : Outcome (Counter × Counters × Counters × Counter × Counters) := do
  let c ← Counters.new 4096
  let (x, c) ← Counter.new c (ascii "a") .pkts (ascii "x")
  let (_, up) ← x.add c 5
  let (_, down) ← x.sub up 5
  let c ← x.free down
  let (y, c) ← Counter.new c (ascii "a") .pkts (ascii "x")
  .ok (x, up, down, y, c)

/-- A counter reads zero that lies where another one has counted. -/
theorem new_counters_zero_reused : ∃ (x y : Counter) (up c : Counters), up.cell x.count = 5 ∧ y.count = x.count ∧
    Counters.Runs Counters.Clean 4096 [⟨ascii "a/pkts/x", .counter, .counter x⟩] [] up ∧
    Counters.Runs Counters.Clean 4096 [⟨ascii "a/pkts/x", .counter, .counter y⟩]
      [⟨ascii "a/pkts/x", .counter, .counter y⟩] c ∧ c.ReadsZero ⟨ascii "a/pkts/x", .counter, .counter y⟩ := by
  have values : (countedDown.map fun (x, up, down, y, c) => (up.cell x.count, down.cell x.count, y.count - x.count,
      x.count - y.count, y.dir, c.dummies.counter.dir)) = .ok (5, 0, 0, 0, 8208, 4160) := by decide +kernel
  cases run : countedDown with
  | error e =>
    rw [run] at values
    cases values
  | ok r =>
    obtain ⟨x, up, down, y, c⟩ := r
    rw [run] at values
    obtain ⟨five, zero, le, le', dir, dummy⟩ : up.cell x.count = 5 ∧ down.cell x.count = 0 ∧ y.count - x.count = 0 ∧
        x.count - y.count = 0 ∧ y.dir = 8208 ∧ c.dummies.counter.dir = 4160 := by
      simpa only [Prod.mk.injEq] using Except.ok.inj values
    obtain ⟨c₀, new, run⟩ := Except.bind_ok_iff.mp run
    obtain ⟨⟨_, c₁⟩, first, run⟩ := Except.bind_ok_iff.mp run
    obtain ⟨⟨_, c₂⟩, counted, run⟩ := Except.bind_ok_iff.mp run
    obtain ⟨⟨_, c₃⟩, back, run⟩ := Except.bind_ok_iff.mp run
    obtain ⟨c₄, freed, run⟩ := Except.bind_ok_iff.mp run
    obtain ⟨⟨_, c₅⟩, second, run⟩ := Except.bind_ok_iff.mp run
    cases Except.ok.inj run
    have made : Flavor.new .counter c₀ (ascii "a") .pkts (ascii "x") = .ok (.counter x, c₁) := by
      rw [Flavor.new, first]
      rfl
    have again : Flavor.new .counter c₄ (ascii "a") .pkts (ascii "x") = .ok (.counter y, c) := by
      rw [Flavor.new, second]
      rfl
    let e : Live := ⟨ascii "a/pkts/x", .counter, .counter x⟩
    let e' : Live := ⟨ascii "a/pkts/x", .counter, .counter y⟩
    have live : e ∈ [e] := List.mem_singleton_self e
    have fresh : Counters.Runs Counters.Clean 4096 [] [] c₀ := .new (by decide) new
    have counts := (fresh.create Counters.array_named made).update live (.add counted)
    have clean : Counters.Clean down e := fun _ addr mine => (List.mem_singleton.mp mine) ▸ zero
    have runs := ((counts.update live (.sub back)).free live clean freed).create Counters.array_named again
    have gone : [e].filter (· ≠ e) = [] := by simp
    have none : [e].erase e = [] := List.erase_cons_head ..
    rw [gone] at counts
    rw [gone, none] at runs
    have own : ¬c.SharesDummy e' := by
      intro shares
      have same : y.dir = c.dummies.counter.dir := shares
      rw [dir, dummy] at same
      exact absurd same (by decide)
    exact ⟨x, y, up, c, five, by omega, counts, runs,
      new_counters_zero.1 _ runs e' (List.mem_singleton_self e') own⟩

end R2
