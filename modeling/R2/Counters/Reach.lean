import R2.Counters.Slots

namespace R2

/-- The objects of these sizes can be had one after the other. -/
def Bin.supplies : List Nat → Bin → Bool
  | [], _ => true
  | size :: sizes, bin =>
    match bin.get size with
    | .ok (some _, bin) => supplies sizes bin
    | _ => false

theorem Bin.supplies_cons {size : Nat} {sizes : List Nat} {bin : Bin} (enough : bin.supplies (size :: sizes) = true) :
    ∃ base bin', bin.get size = .ok (some base, bin') ∧ bin'.supplies sizes = true := by
  unfold supplies at enough
  split at enough
  · exact ⟨_, _, ‹_›, enough⟩
  · cases enough

theorem BinInfo.supplies_of_map {info : BinInfo} {sizes : List Nat} {bin : Bin}
    (fresh : info.bin.map (Bin.supplies sizes) = .ok true) (run : info.bin = .ok bin) :
    bin.supplies sizes = true := by
  rw [run] at fresh
  exact Except.ok.inj fresh

namespace Counters

theorem get_of_supplies {c c' : Counters} {name : List UInt8} {nvecs veclen d v : Nat} {dirs vecs nameses : List Nat}
    (lens : nvecs % 2 ^ 32 * BinInfo.vec.binsz = veclen) (short : name.length < 2 ^ 32)
    (dir : c.dir.supplies (BinInfo.dir.binsz :: dirs) = true) (vec : c.vec.supplies (veclen :: vecs) = true)
    (names : c.names.supplies (name.length :: nameses) = true) (run : c.get name nvecs = .ok ((d, v), c')) :
    d ≠ 0 ∧ c'.dir.supplies dirs = true ∧ c'.vec.supplies vecs = true ∧ c'.names.supplies nameses = true := by
  subst lens
  obtain ⟨daddr, dir', getDir, dirs⟩ := Bin.supplies_cons dir
  obtain ⟨vaddr, vec', getVec, vecs⟩ := Bin.supplies_cons vec
  obtain ⟨naddr, names', getName, nameses⟩ := Bin.supplies_cons names
  obtain ⟨_, fits, run⟩ := Except.bind_ok_iff.mp run
  obtain ⟨_, rfl⟩ := mul32_ok.mp fits
  rw [getDir, Except.ok_bind] at run
  dsimp only at run
  rw [getVec, Except.ok_bind] at run
  dsimp only at run
  rw [Nat.mod_eq_of_lt short, getName, Except.ok_bind] at run
  simp only [Except.bind_ok_iff, add64_ok, Except.ok.injEq, Prod.mk.injEq] at run
  obtain ⟨_, ⟨_, rfl⟩, _, ⟨_, rfl⟩, _, ⟨_, rfl⟩, _, ⟨_, rfl⟩, _, ⟨_, rfl⟩, _, ⟨_, rfl⟩, ⟨rfl, rfl⟩, rfl⟩ := run
  refine ⟨?_, dirs, vecs, nameses⟩
  simp only [BinInfo.dir]
  omega

/-- A slot as its counter knows it: the addresses of the entry and of the first cell. -/
def address (c : Counters) (s : Slot) : Dummy :=
  ⟨c.base + BinInfo.dir.start + s.dirOff, c.base + BinInfo.vec.start + s.vecOff⟩

theorem address_eq {c c' : Counters} (base : c'.base = c.base) (s : Slot) : c'.address s = c.address s := by
  rw [address, base, address]

/-- The slots of the three dummies. -/
def Shared (c : Counters) (shared : List Slot) : Prop :=
  ∃ s₁ s₂ s₃ : Slot, shared = [s₃, s₂, s₁] ∧ c.dummies = ⟨c.address s₁, c.address s₂, c.address s₃⟩ ∧
    s₁.name = ascii "dummy1" ∧ s₁.vecLen = 8 ∧ s₂.name = ascii "dummy2" ∧ s₂.vecLen = 16 ∧
    s₃.name = ascii "dummyN" ∧ s₃.vecLen = 256

theorem Shared.kept {c c' : Counters} {shared : List Slot} (h : Shared c shared) (kept : Kept c c') :
    Shared c' shared := by
  obtain ⟨s₁, s₂, s₃, slots, dummies, rest⟩ := h
  refine ⟨s₁, s₂, s₃, slots, ?_, rest⟩
  rw [kept.dummies, dummies, address_eq kept.base, address_eq kept.base, address_eq kept.base]

theorem Sound.dummies {slots : List Slot} {c : Counters} (sound : Sound slots c) (d : Dummies) :
    Sound slots { c with dummies := d } := { sound with }

/-- A call of `get` that finds room. -/
theorem Sound.get_of_supplies {slots : List Slot} {c c' : Counters} {name : List UInt8}
    {nvecs veclen namelen d v : Nat}
    {dirs vecs nameses : List Nat} (sound : Sound slots c) (run : c.get name nvecs = .ok ((d, v), c'))
    (lens : nvecs % 2 ^ 32 * BinInfo.vec.binsz = veclen) (chars : name.length = namelen) (short : namelen ≤ 64)
    (dir : c.dir.supplies (BinInfo.dir.binsz :: dirs) = true)
    (vec : c.vec.supplies (veclen :: vecs) = true) (names : c.names.supplies (namelen :: nameses) = true) :
    Kept c c' ∧ c'.dir.supplies dirs = true ∧ c'.vec.supplies vecs = true ∧ c'.names.supplies nameses = true ∧
      ∃ s : Slot, s.name = name ∧ s.vecLen = veclen ∧ (⟨d, v⟩ : Dummy) = c.address s ∧ Sound (s :: slots) c' := by
  subst chars
  obtain ⟨some, rest⟩ := Counters.get_of_supplies lens (by omega) dir vec names run
  obtain ⟨kept, ⟨none, _⟩ | ⟨s, named, len, rfl, rfl, sound⟩⟩ := sound.get short run
  · exact absurd none some
  · exact ⟨kept, rest.1, rest.2.1, rest.2.2, s, named, len.trans lens, rfl, sound⟩

theorem makeDummies_sound {c c' : Counters} (sound : Sound [] c) (none : c.shm.numCounters = 0)
    (dir : c.dir.supplies [16, 16, 16] = true)
    (vec : c.vec.supplies [8, 16, 256] = true) (names : c.names.supplies [6, 6, 6] = true)
    (run : c.makeDummies = .ok c') :
    c'.base = c.base ∧ c'.shm.cells = c.shm.cells ∧ c'.shm.numCounters ≤ 2 ^ 18 ∧
      ∃ shared, Shared c' shared ∧ Sound shared c' := by
  obtain ⟨⟨⟨d₁, v₁⟩, c₁⟩, run₁, run⟩ := Except.bind_ok_iff.mp run
  obtain ⟨⟨⟨d₂, v₂⟩, c₂⟩, run₂, run⟩ := Except.bind_ok_iff.mp run
  obtain ⟨⟨⟨d₃, v₃⟩, c₃⟩, run₃, run⟩ := Except.bind_ok_iff.mp run
  cases Except.ok.inj run
  have few := sound.get_few run₁ (by decide) (by omega)
  obtain ⟨kept₁, dir, vec, names, s₁, name₁, len₁, addr₁, sound⟩ :=
    sound.get_of_supplies run₁ rfl rfl (by decide) dir vec names
  have few := (sound.dummies _).get_few run₂ (by decide) few
  obtain ⟨kept₂, dir, vec, names, s₂, name₂, len₂, addr₂, sound⟩ :=
    (sound.dummies _).get_of_supplies run₂ rfl rfl (by decide) dir vec names
  have few := (sound.dummies _).get_few run₃ (by decide) few
  obtain ⟨kept₃, _, _, _, s₃, name₃, len₃, addr₃, sound⟩ :=
    (sound.dummies _).get_of_supplies run₃ rfl rfl (by decide) dir vec names
  have base₂ : c₂.base = c₁.base := kept₂.base
  have base₃ : c₃.base = c₂.base := kept₃.base
  refine ⟨base₃.trans (base₂.trans kept₁.base), kept₃.cells.trans (kept₂.cells.trans kept₁.cells), few, [s₃, s₂, s₁],
    ⟨s₁, s₂, s₃, rfl, ?_, name₁, len₁, name₂, len₂, name₃, len₃⟩, sound.dummies _⟩
  have dummies₂ : c₂.dummies = { c₁.dummies with counter := ⟨d₁, v₁⟩ } := kept₂.dummies
  have dummies₃ : c₃.dummies = { c₂.dummies with pktsbytes := ⟨d₂, v₂⟩ } := kept₃.dummies
  rw [dummies₃, dummies₂, addr₁, addr₂, addr₃]
  unfold address
  simp only [base₃, base₂, kept₁.base]

theorem fresh_sound {info : BinInfo} {bin : Bin} (run : info.bin = .ok bin) : info.Sound [] bin ∧ bin.bins = [] := by
  refine ⟨Bin.Sound.new run, ?_⟩
  obtain ⟨_, _, run⟩ := Except.bind_ok_iff.mp run
  obtain ⟨_, _, run⟩ := Except.bind_ok_iff.mp run
  cases Except.ok.inj run
  rfl

theorem new_sound {base : Nat} {c : Counters} (run : new base = .ok c) :
    c.base = base ∧ c.shm.cells = (fun _ => 0) ∧ c.shm.numCounters ≤ 2 ^ 18 ∧
      ∃ shared, Shared c shared ∧ Sound shared c := by
  obtain ⟨dir, dirRun, run⟩ := Except.bind_ok_iff.mp run
  obtain ⟨vec, vecRun, run⟩ := Except.bind_ok_iff.mp run
  obtain ⟨names, nameRun, run⟩ := Except.bind_ok_iff.mp run
  obtain ⟨dirs, noBins⟩ := fresh_sound dirRun
  have sound : Sound [] ⟨base, dir, vec, names, ⟨⟨0, 0⟩, ⟨0, 0⟩, ⟨0, 0⟩⟩, .zero⟩ := {
    dir := dirs
    vec := (fresh_sound vecRun).1
    names := (fresh_sound nameRun).1
    oneBin := by simp only [noBins, List.length_nil, Nat.zero_le]
    entries := fun _ => nofun
    empty := fun _ _ => rfl
    named := fun _ => nofun
    counted := fun _ => nofun }
  exact makeDummies_sound sound rfl (BinInfo.supplies_of_map (by decide +kernel) dirRun)
    (BinInfo.supplies_of_map (by decide +kernel) vecRun) (BinInfo.supplies_of_map (by decide +kernel) nameRun) run

theorem Sound.perm {slots slots' : List Slot} {c : Counters} (sound : Sound slots c) (perm : slots.Perm slots') :
    Sound slots' c where
  dir := Bin.Sound.perm sound.dir (perm.map _)
  vec := Bin.Sound.perm sound.vec (perm.map _)
  names := Bin.Sound.perm sound.names (perm.map _)
  oneBin := sound.oneBin
  entries s member := sound.entries s (perm.mem_iff.mpr member)
  empty off none := sound.empty off fun s member => none s (perm.mem_iff.mp member)
  named s member := sound.named s (perm.mem_iff.mpr member)
  counted s member := sound.counted s (perm.mem_iff.mpr member)

theorem allocate_sound {slots : List Slot} {c c' : Counters} {node name full : List UInt8} {ctype : CounterType}
    {nvecs d v : Nat} {dummy : Dummies → Dummy} (sound : Sound slots c) (few : nvecs ≤ 32)
    (named : counterName node ctype name = .ok full)
    (run : c.allocate node ctype name nvecs dummy = .ok ((d, v), c')) : Kept c c' ∧
      ((⟨d, v⟩ : Dummy) = dummy c.dummies ∧ Sound slots c' ∨
        ∃ s : Slot, s.name = full ∧ s.vecLen = nvecs * 8 ∧ (⟨d, v⟩ : Dummy) = c.address s ∧
        Sound (s :: slots) c') := by
  unfold allocate at run
  rw [named, Except.ok_bind] at run
  obtain ⟨⟨⟨dir, base⟩, c₁⟩, got, run⟩ := Except.bind_ok_iff.mp run
  dsimp only at run
  obtain ⟨kept, ⟨rfl, sound⟩ | ⟨s, slotName, len, rfl, rfl, sound⟩⟩ := sound.get (counterName_length named) got
  · rw [if_pos rfl] at run
    cases Except.ok.inj run
    exact ⟨kept, Or.inl ⟨congrArg dummy kept.dummies, sound⟩⟩
  · have start : c.base + BinInfo.dir.start + s.dirOff ≠ 0 := by
      simp only [BinInfo.dir]
      omega
    rw [if_neg start] at run
    cases Except.ok.inj run
    rw [Nat.mod_eq_of_lt (by omega : nvecs < 2 ^ 32)] at len
    exact ⟨kept, Or.inr ⟨s, slotName, len, rfl, sound⟩⟩

end Counters

namespace Flavor

def nvecs : Flavor → Nat
  | counter => 1
  | pktsBytes => 2
  | array size => min size 32

def dummy : Flavor → Dummies → Dummy
  | counter => Dummies.counter
  | pktsBytes => Dummies.pktsbytes
  | array _ => Dummies.array

theorem nvecs_le (flavor : Flavor) : flavor.nvecs ≤ 32 := by
  cases flavor with
  | counter => decide
  | pktsBytes => decide
  | array size => exact Nat.min_le_right ..

end Flavor

/-- The addresses of cells next to each other. -/
def cellsFrom (base n : Nat) : List Nat := (List.range n).map fun i => base + i * 8

theorem mapM_add64 {base : Nat} {is array : List Nat}
    (run : is.mapM (fun i => add64 base (i * BinInfo.vec.binsz)) = .ok array) :
    array = is.map fun i => base + i * 8 := by
  induction is generalizing array with
  | nil =>
    cases Except.ok.inj run
    rfl
  | cons i is ih =>
    rw [List.mapM_cons] at run
    obtain ⟨addr, sum, run⟩ := Except.bind_ok_iff.mp run
    obtain ⟨rest, addrs, run⟩ := Except.bind_ok_iff.mp run
    cases Except.ok.inj run
    rw [List.map_cons, ← ih addrs, (add64_ok.mp sum).2]
    rfl

/-- Each flavour is an allocation of its own number of cells with its own dummy. -/
theorem Flavor.new_ok {flavor : Flavor} {c c' : Counters} {node name : List UInt8} {ctype : CounterType} {h : Handle}
    (run : flavor.new c node ctype name = .ok (h, c')) : ∃ d v,
      c.allocate node ctype name flavor.nvecs flavor.dummy = .ok ((d, v), c') ∧ h.dir = d ∧
        h.cells = cellsFrom v flavor.nvecs ∧ h.dummy = flavor.dummy := by
  cases flavor with
  | counter =>
    obtain ⟨⟨counter, c₁⟩, run, made⟩ := Except.bind_ok_iff.mp run
    obtain ⟨⟨⟨d, v⟩, c₂⟩, run, made'⟩ := Except.bind_ok_iff.mp run
    cases Except.ok.inj made'
    cases Except.ok.inj made
    exact ⟨d, v, run, rfl, rfl, rfl⟩
  | pktsBytes =>
    obtain ⟨⟨counter, c₁⟩, run, made⟩ := Except.bind_ok_iff.mp run
    obtain ⟨⟨⟨d, v⟩, c₂⟩, run, made'⟩ := Except.bind_ok_iff.mp run
    obtain ⟨bytes, sum, made'⟩ := Except.bind_ok_iff.mp made'
    obtain ⟨_, rfl⟩ := add64_ok.mp sum
    cases Except.ok.inj made'
    cases Except.ok.inj made
    exact ⟨d, v, run, rfl, rfl, rfl⟩
  | array size =>
    obtain ⟨⟨counter, c₁⟩, run, made⟩ := Except.bind_ok_iff.mp run
    obtain ⟨⟨⟨d, v⟩, c₂⟩, run, made'⟩ := Except.bind_ok_iff.mp run
    obtain ⟨array, sums, made'⟩ := Except.bind_ok_iff.mp made'
    cases Except.ok.inj made'
    cases Except.ok.inj made
    exact ⟨d, v, run, rfl, mapM_add64 sums, rfl⟩

theorem Handle.free_eq (h : Handle) (c : Counters) : h.free c = c.release h.dir h.dummy := by cases h <;> rfl

/-- Two pools that differ in the values of counters at most. -/
def Counters.SameButCells (c c' : Counters) : Prop := ∃ cells, c' = { c with shm := { c.shm with cells } }

theorem Counters.SameButCells.trans {c c' c'' : Counters} (first : c.SameButCells c') (second : c'.SameButCells c'') :
    c.SameButCells c'' := by
  obtain ⟨_, rfl⟩ := first
  obtain ⟨cells, rfl⟩ := second
  exact ⟨cells, rfl⟩

theorem Counters.addCell_same {c c' : Counters} {addr val ret : Nat} (run : c.addCell addr val = .ok (ret, c')) :
    c.SameButCells c' := by
  obtain ⟨sum, _, run⟩ := Except.bind_ok_iff.mp run
  cases Except.ok.inj run
  exact ⟨_, rfl⟩

theorem Counters.subCell_same {c c' : Counters} {addr val ret : Nat} (run : c.subCell addr val = .ok (ret, c')) :
    c.SameButCells c' := by
  obtain ⟨rest, _, run⟩ := Except.bind_ok_iff.mp run
  cases Except.ok.inj run
  exact ⟨_, rfl⟩

/-- An owner writes nothing but cells. -/
theorem Handle.Update.same {h : Handle} {c c' : Counters} (update : h.Update c c') : c.SameButCells c' := by
  cases update with
  | add run => exact c.addCell_same run
  | sub run => exact c.subCell_same run
  | addPkts run =>
    obtain ⟨⟨_, c₁⟩, first, second⟩ := Except.bind_ok_iff.mp run
    exact (c.addCell_same first).trans (c₁.addCell_same second)
  | subPkts run =>
    obtain ⟨⟨_, c₁⟩, first, second⟩ := Except.bind_ok_iff.mp run
    exact (c.subCell_same first).trans (c₁.subCell_same second)
  | setAt run =>
    obtain ⟨addr, _, run⟩ := Except.bind_ok_iff.mp run
    cases Except.ok.inj run
    exact ⟨_, rfl⟩
  | addAt run =>
    obtain ⟨addr, _, run⟩ := Except.bind_ok_iff.mp run
    exact c.addCell_same run
  | subAt run =>
    obtain ⟨addr, _, run⟩ := Except.bind_ok_iff.mp run
    exact c.subCell_same run

/-- A counter that has been created and not yet freed, with the name it got. -/
structure Live where
  name : List UInt8
  flavor : Flavor
  handle : Handle
deriving DecidableEq, Repr

namespace Counters

/-- A pool after some calls, with the counters that are live. -/
inductive Reached (base : Nat) : List Live → Counters → Prop
  | new {c} : base ≠ 0 → Counters.new base = .ok c → Reached base [] c
  | create {live c flavor node ctype name full handle c'} : Reached base live c →
      counterName node ctype name = .ok full → Flavor.new flavor c node ctype name = .ok (handle, c') →
      Reached base (⟨full, flavor, handle⟩ :: live) c'
  | free {live c e c'} : Reached base live c → e ∈ live → e.handle.free c = .ok c' →
      Reached base (live.erase e) c'
  | update {live c e c'} : Reached base live c → e ∈ live → e.handle.Update c c' → Reached base live c'

/-- A live counter has the slot to itself. -/
structure Holds (c : Counters) (e : Live) (s : Slot) : Prop where
  name : s.name = e.name
  dir : e.handle.dir = (c.address s).dir
  cells : e.handle.cells = cellsFrom (c.address s).base e.flavor.nvecs
  len : s.vecLen = e.flavor.nvecs * 8
  dummy : e.handle.dummy = e.flavor.dummy

/-- A live counter that is the dummy of its flavour. -/
structure IsDummy (c : Counters) (e : Live) : Prop where
  dir : e.handle.dir = (e.flavor.dummy c.dummies).dir
  cells : e.handle.cells = cellsFrom (e.flavor.dummy c.dummies).base e.flavor.nvecs
  dummy : e.handle.dummy = e.flavor.dummy

/-- Every live counter has its own slot or is a dummy. -/
structure Accounts (c : Counters) (live : List Live) (own : List (Live × Slot)) (dummies : List Live)
    (shared : List Slot) : Prop where
  sharing : Shared c shared
  sound : Sound (own.map Prod.snd ++ shared) c
  all : live.Perm (own.map Prod.fst ++ dummies)
  holds : ∀ p ∈ own, Holds c p.1 p.2
  isDummy : ∀ e ∈ dummies, IsDummy c e

theorem Holds.kept {c c' : Counters} {e : Live} {s : Slot} (holds : Holds c e s) (base : c'.base = c.base) :
    Holds c' e s := by
  refine { holds with dir := ?_, cells := ?_ }
  · rw [address_eq base]
    exact holds.dir
  · rw [address_eq base]
    exact holds.cells

theorem IsDummy.kept {c c' : Counters} {e : Live} (dummy : IsDummy c e) (dummies : c'.dummies = c.dummies) :
    IsDummy c' e := by
  refine { dummy with dir := ?_, cells := ?_ }
  · rw [dummies]
    exact dummy.dir
  · rw [dummies]
    exact dummy.cells

namespace Accounts

variable {c c' : Counters} {live : List Live} {own : List (Live × Slot)} {dummies : List Live} {shared : List Slot}

theorem create {e : Live} {node name : List UInt8} {ctype : CounterType}
    (accounts : Accounts c live own dummies shared) (named : counterName node ctype name = .ok e.name)
    (run : e.flavor.new c node ctype name = .ok (e.handle, c')) :
    Kept c c' ∧ (Accounts c' (e :: live) own (e :: dummies) shared ∨
      ∃ s, Accounts c' (e :: live) ((e, s) :: own) dummies shared) := by
  obtain ⟨d, v, run, dir, cells, dummy⟩ := Flavor.new_ok run
  obtain ⟨kept, ⟨addr, sound⟩ | ⟨s, slotName, len, addr, sound⟩⟩ :=
    allocate_sound accounts.sound e.flavor.nvecs_le named run
  · refine ⟨kept, Or.inl ⟨accounts.sharing.kept kept, sound, (accounts.all.cons e).trans List.perm_middle.symm,
      fun p member => (accounts.holds p member).kept kept.base, fun e' member => ?_⟩⟩
    rcases List.mem_cons.mp member with rfl | old
    · refine ⟨?_, ?_, dummy⟩
      · rw [dir, kept.dummies, ← addr]
      · rw [cells, kept.dummies, ← addr]
    · exact (accounts.isDummy e' old).kept kept.dummies
  · refine ⟨kept, Or.inr ⟨s, accounts.sharing.kept kept, sound, accounts.all.cons e, fun p member => ?_,
      fun e' member => (accounts.isDummy e' member).kept kept.dummies⟩⟩
    rcases List.mem_cons.mp member with rfl | old
    · refine ⟨slotName, ?_, ?_, len, dummy⟩
      · rw [dir, address_eq kept.base, ← addr]
      · rw [cells, address_eq kept.base, ← addr]
    · exact (accounts.holds p old).kept kept.base

/-- A counter that is nobody's dummy has a slot of its own. -/
theorem own_or_dummy {e : Live} (accounts : Accounts c live own dummies shared) (member : e ∈ live) :
    (∃ s, (e, s) ∈ own) ∨ e ∈ dummies := by
  rcases List.mem_append.mp (accounts.all.mem_iff.mp member) with mine | dummy
  · obtain ⟨⟨_, s⟩, pair, rfl⟩ := List.mem_map.mp mine
    exact Or.inl ⟨s, pair⟩
  · exact Or.inr dummy

/-- The entry of an own slot is not the entry of a dummy. -/
theorem dir_ne_dummy {e : Live} {s : Slot} (accounts : Accounts c live own dummies shared) (member : (e, s) ∈ own)
    (flavor : Flavor) : e.handle.dir ≠ (flavor.dummy c.dummies).dir := by
  have apart := (List.pairwise_append.mp (List.pairwise_map.mp (Bin.Sound.apart accounts.sound.dir))).2.2 s
    (List.mem_map_of_mem (f := Prod.snd) member)
  have other : ∀ s' ∈ shared, s.dirOff ≠ s'.dirOff := fun s' member => by
    have apart := apart s' member
    unfold Block.Apart Block.stop at apart
    simp only [Bin.asked, Slot.dirObject, BinInfo.dir] at apart
    omega
  obtain ⟨s₁, s₂, s₃, rfl, addrs, _⟩ := accounts.sharing
  rw [(accounts.holds _ member).dir, addrs]
  have ne₁ := other s₁ (by simp)
  have ne₂ := other s₂ (by simp)
  have ne₃ := other s₃ (by simp)
  unfold address
  cases flavor <;> simp only [Flavor.dummy, ne_eq] <;> omega

/-- A free gives up the own slot of the counter, or nothing for a dummy. -/
theorem release_cases {e : Live} (accounts : Accounts c live own dummies shared) (member : e ∈ live)
    (run : e.handle.free c = .ok c') : Kept c c' ∧
      ((∃ s, (e, s) ∈ own ∧ Accounts c' (live.erase e) (own.erase (e, s)) dummies shared) ∨
        c' = c ∧ Accounts c' (live.erase e) own (dummies.erase e) shared) := by
  have freed : c.release e.handle.dir e.handle.dummy = .ok c' := (Handle.free_eq ..).symm.trans run
  have rest := List.perm_cons_erase member
  rcases accounts.own_or_dummy member with ⟨s, mine⟩ | dummy
  · have holds := accounts.holds _ mine
    have before := List.perm_cons_erase mine
    have other := accounts.dir_ne_dummy mine e.flavor
    rw [← holds.dummy] at other
    unfold Counters.release at freed
    rw [if_pos other, holds.dir] at freed
    obtain ⟨kept, sound⟩ := (accounts.sound.perm ((before.map Prod.snd).append_right shared)).free freed
    refine ⟨kept, Or.inl ⟨s, mine, accounts.sharing.kept kept, sound, ?_, fun p member => ?_, fun e' member =>
      (accounts.isDummy e' member).kept kept.dummies⟩⟩
    · exact List.Perm.cons_inv (rest.symm.trans (accounts.all.trans ((before.map Prod.fst).append_right dummies)))
    · exact (accounts.holds p (List.mem_of_mem_erase member)).kept kept.base
  · have isDummy := accounts.isDummy e dummy
    unfold Counters.release at freed
    rw [isDummy.dummy, if_neg (not_not.mpr isDummy.dir)] at freed
    cases Except.ok.inj freed
    refine ⟨⟨rfl, rfl, rfl⟩, Or.inr ⟨rfl, { accounts with
      all := ?_, isDummy := fun e' member => accounts.isDummy e' (List.mem_of_mem_erase member) }⟩⟩
    have split := accounts.all.trans ((List.perm_cons_erase dummy).append_left _)
    exact List.Perm.cons_inv (rest.symm.trans (split.trans List.perm_middle))

theorem release {e : Live} (accounts : Accounts c live own dummies shared) (member : e ∈ live)
    (run : e.handle.free c = .ok c') :
    Kept c c' ∧ ∃ own' dummies', Accounts c' (live.erase e) own' dummies' shared := by
  obtain ⟨kept, ⟨s, _, accounts⟩ | ⟨_, accounts⟩⟩ := accounts.release_cases member run
  · exact ⟨kept, _, _, accounts⟩
  · exact ⟨kept, _, _, accounts⟩

theorem update {e : Live} (accounts : Accounts c live own dummies shared) (update : e.handle.Update c c') :
    Accounts c' live own dummies shared := by
  obtain ⟨cells, rfl⟩ := update.same
  exact { accounts with
    sound := { accounts.sound with }
    holds := fun p member => { accounts.holds p member with }
    isDummy := fun e' member => { accounts.isDummy e' member with } }

end Accounts

theorem Reached.accounts {base : Nat} {live : List Live} {c : Counters} (reached : Reached base live c) :
    c.base = base ∧ ∃ own dummies shared, Accounts c live own dummies shared := by
  induction reached with
  | new _ run =>
    obtain ⟨same, _, _, shared, sharing, sound⟩ := new_sound run
    exact ⟨same, [], [], shared, sharing, sound, List.Perm.refl _, fun _ => nofun, fun _ => nofun⟩
  | @create live c flavor node ctype name full handle c' _ named run ih =>
    obtain ⟨same, own, dummies, shared, accounts⟩ := ih
    obtain ⟨kept, dummy | ⟨s, mine⟩⟩ := accounts.create (e := ⟨full, flavor, handle⟩) named run
    · exact ⟨kept.base.trans same, _, _, _, dummy⟩
    · exact ⟨kept.base.trans same, _, _, _, mine⟩
  | free _ member run ih =>
    obtain ⟨same, own, dummies, shared, accounts⟩ := ih
    obtain ⟨kept, own', dummies', accounts⟩ := accounts.release member run
    exact ⟨kept.base.trans same, _, _, _, accounts⟩
  | update _ member run ih =>
    obtain ⟨same, own, dummies, shared, accounts⟩ := ih
    obtain ⟨cells, rfl⟩ := run.same
    exact ⟨same, _, _, _, accounts.update run⟩

end Counters

end R2
