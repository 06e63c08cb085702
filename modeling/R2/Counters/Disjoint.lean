import R2.Counters.Reach

namespace R2

namespace Counters

/-- The bytes of the directory entry of a counter. -/
def dirBlock (e : Live) : Block := ⟨e.handle.dir, BinInfo.dir.binsz⟩

/-- The bytes of its name, which its directory entry leads to. -/
def nameBlock (c : Counters) (e : Live) : Block :=
  let entry := c.shm.dirs (e.handle.dir - c.base)
  ⟨c.base + entry.nameOff, entry.nameLen⟩

/-- The bytes of its cells. -/
def cellBlocks (e : Live) : List Block := e.handle.cells.map fun addr => ⟨addr, BinInfo.vec.binsz⟩

/-- The counter is the dummy of its flavour. -/
def SharesDummy (c : Counters) (e : Live) : Prop := e.handle.dir = (e.handle.dummy c.dummies).dir

/-- Two counters have nothing in common. -/
structure Separate (c : Counters) (e e' : Live) : Prop where
  dir : (dirBlock e).Apart (dirBlock e')
  cells : ∀ b ∈ cellBlocks e, ∀ b' ∈ cellBlocks e', b.Apart b'
  name : (c.nameBlock e).Apart (c.nameBlock e')

theorem Separate.symm {c : Counters} {e e' : Live} (h : c.Separate e e') : c.Separate e' e :=
  ⟨h.dir.symm, fun b member b' member' => (h.cells b' member' b member).symm, h.name.symm⟩

/-- The whole area as a block of the mapping. -/
def area (c : Counters) (info : BinInfo) : Block := ⟨c.base + info.start, info.totsz⟩

/-- A counter keeps to the three areas. -/
structure InAreas (c : Counters) (e : Live) : Prop where
  dir : (dirBlock e).Within (c.area .dir)
  cells : ∀ b ∈ cellBlocks e, b.Within (c.area .vec)
  name : (c.nameBlock e).Within (c.area .name)

/-- What a live counter occupies: its own slot or that of a dummy. -/
structure Occupies (c : Counters) (e : Live) (s : Slot) : Prop where
  dir : e.handle.dir = (c.address s).dir
  cells : e.handle.cells = cellsFrom (c.address s).base e.flavor.nvecs
  len : e.flavor.nvecs * 8 ≤ s.vecLen

theorem Occupies.cell {c : Counters} {e : Live} {s : Slot} (h : Occupies c e s) {b : Block}
    (member : b ∈ cellBlocks e) :
    b.Within ((Bin.asked s.vecObject).shift (c.base + BinInfo.vec.start)) := by
  unfold cellBlocks at member
  rw [h.cells, cellsFrom, List.map_map] at member
  obtain ⟨i, inside, rfl⟩ := List.mem_map.mp member
  have few := List.mem_range.mp inside
  have len := h.len
  unfold Block.Within Block.stop Block.shift Bin.asked Slot.vecObject address
  simp only [Function.comp_apply, BinInfo.vec]
  omega

theorem Occupies.name {slots : List Slot} {c : Counters} {e : Live} {s : Slot} (h : Occupies c e s)
    (sound : Sound slots c) (member : s ∈ slots) :
    c.nameBlock e = (Bin.asked s.nameObject).shift (c.base + BinInfo.name.start) := by
  have addr : c.base + BinInfo.dir.start + s.dirOff - c.base = BinInfo.dir.start + s.dirOff := by omega
  unfold nameBlock
  rw [h.dir, address, addr, sound.entries s member]
  unfold Block.shift Bin.asked Slot.nameObject Slot.entry
  simp only [Nat.add_assoc]

theorem Occupies.dirBlock {c : Counters} {e : Live} {s : Slot} (h : Occupies c e s) :
    dirBlock e = (Bin.asked s.dirObject).shift (c.base + BinInfo.dir.start) := by
  unfold Counters.dirBlock
  rw [h.dir]
  rfl

/-- The objects of two slots lie apart in each area. -/
def SlotsApart (s s' : Slot) : Prop :=
  (Bin.asked s.dirObject).Apart (Bin.asked s'.dirObject) ∧ (Bin.asked s.vecObject).Apart (Bin.asked s'.vecObject) ∧
    (Bin.asked s.nameObject).Apart (Bin.asked s'.nameObject)

theorem Sound.apart {slots : List Slot} {c : Counters} (sound : Sound slots c) : slots.Pairwise SlotsApart := by
  have dirs := List.pairwise_map.mp (Bin.Sound.apart sound.dir)
  have vecs := List.pairwise_map.mp (Bin.Sound.apart sound.vec)
  have names := List.pairwise_map.mp (Bin.Sound.apart sound.names)
  exact dirs.and (vecs.and names)

/-- An object of an area keeps to it. -/
theorem inArea {info : BinInfo} {objects : List (Nat × Nat)} {bin : Bin} {object : Nat × Nat} (c : Counters)
    (sound : info.Sound objects bin) (member : object ∈ objects) :
    ((Bin.asked object).shift (c.base + info.start)).Within (c.area info) := by
  have below := Bin.Sound.below sound member
  have inside : bin.offset ≤ info.totsz := Bin.Sound.inside sound
  unfold Block.Within Block.stop Block.shift Bin.asked area
  dsimp only
  omega

theorem Occupies.separate {slots : List Slot} {c : Counters} {e e' : Live} {s s' : Slot} (h : Occupies c e s)
    (h' : Occupies c e' s') (sound : Sound slots c) (member : s ∈ slots) (member' : s' ∈ slots)
    (apart : SlotsApart s s') : c.Separate e e' where
  dir := by
    rw [h.dirBlock, h'.dirBlock]
    exact apart.1.shift _
  cells _ cell _ cell' := (apart.2.1.shift _).within (h.cell cell) (h'.cell cell')
  name := by
    rw [h.name sound member, h'.name sound member']
    exact apart.2.2.shift _

theorem Occupies.inAreas {slots : List Slot} {c : Counters} {e : Live} {s : Slot} (h : Occupies c e s)
    (sound : Sound slots c) (member : s ∈ slots) : c.InAreas e where
  dir := by
    rw [h.dirBlock]
    exact inArea c sound.dir (List.mem_map_of_mem member)
  cells b cell := (h.cell cell).trans (inArea c sound.vec (List.mem_map_of_mem member))
  name := by
    rw [h.name sound member]
    exact inArea c sound.names (List.mem_map_of_mem member)

theorem Holds.occupies {c : Counters} {e : Live} {s : Slot} (h : Holds c e s) : Occupies c e s :=
  ⟨h.dir, h.cells, Nat.le_of_eq h.len.symm⟩

theorem IsDummy.shares {c : Counters} {e : Live} (h : IsDummy c e) : c.SharesDummy e := by
  rw [SharesDummy, h.dir, h.dummy]

theorem IsDummy.occupies {c : Counters} {e : Live} {shared : List Slot} (h : IsDummy c e)
    (sharing : c.Shared shared) :
    ∃ s ∈ shared, Occupies c e s := by
  obtain ⟨s₁, s₂, s₃, rfl, addrs, _, len₁, _, len₂, _, len₃⟩ := sharing
  have dir := h.dir
  have cells := h.cells
  rw [addrs] at dir cells
  cases flavor : e.flavor with
  | counter =>
    rw [flavor] at dir cells
    exact ⟨s₁, by simp, dir, flavor ▸ cells, by rw [flavor, len₁]; decide⟩
  | pktsBytes =>
    rw [flavor] at dir cells
    exact ⟨s₂, by simp, dir, flavor ▸ cells, by rw [flavor, len₂]; decide⟩
  | array size =>
    rw [flavor] at dir cells
    exact ⟨s₃, by simp, dir, flavor ▸ cells, by have := e.flavor.nvecs_le; omega⟩

theorem Reached.separate {base : Nat} {live : List Live} {c : Counters} (reached : Reached base live c) :
    live.Pairwise (fun e e' => c.SharesDummy e ∧ c.SharesDummy e' ∨ c.Separate e e') ∧ ∀ e ∈ live, c.InAreas e := by
  obtain ⟨_, own, dummies, shared, accounts⟩ := reached.accounts
  have sound := accounts.sound
  obtain ⟨mine, _, apart⟩ := List.pairwise_append.mp sound.apart
  have slotOf (p) (member : p ∈ own) : p.2 ∈ own.map Prod.snd ++ shared :=
    List.mem_append_left _ (List.mem_map_of_mem member)
  refine ⟨(accounts.all.pairwise_iff ?_).mpr (List.pairwise_append.mpr ⟨?_, ?_, ?_⟩), ?_⟩
  · rintro e e' (⟨dummy, dummy'⟩ | separate)
    · exact Or.inl ⟨dummy', dummy⟩
    · exact Or.inr separate.symm
  · refine List.pairwise_map.mpr ((List.pairwise_map.mp mine).imp_of_mem fun {p p'} member member' apart => Or.inr ?_)
    exact (accounts.holds p member).occupies.separate (accounts.holds p' member').occupies sound (slotOf p member)
      (slotOf p' member') apart
  · refine List.Pairwise.imp_of_mem (fun {e e'} member member' _ => Or.inl ?_)
      (List.pairwise_of_forall (R := fun _ _ => True) fun _ _ => trivial)
    exact ⟨(accounts.isDummy e member).shares, (accounts.isDummy e' member').shares⟩
  · intro e member e' member'
    obtain ⟨⟨_, s⟩, pair, rfl⟩ := List.mem_map.mp member
    obtain ⟨s', shared', occupies⟩ := (accounts.isDummy e' member').occupies accounts.sharing
    exact Or.inr ((accounts.holds _ pair).occupies.separate occupies sound (slotOf _ pair)
      (List.mem_append_right _ shared') (apart s (List.mem_map_of_mem (f := Prod.snd) pair) s' shared'))
  · intro e member
    rcases accounts.own_or_dummy member with ⟨s, pair⟩ | dummy
    · exact (accounts.holds _ pair).occupies.inAreas sound (slotOf _ pair)
    · obtain ⟨s, shared', occupies⟩ := (accounts.isDummy e dummy).occupies accounts.sharing
      exact occupies.inAreas sound (List.mem_append_right _ shared')

end Counters

/-- The counter allocator never hands out overlapping memory, and two live
counters have nothing in common unless both are dummies. -/
theorem counterMemory_disjoint :
    (∀ binsz max pagesz objects bin, Bin.Reached binsz max pagesz objects bin →
      (objects.map fun object => Block.mk object.1 (Max.max (pow2 object.2) (pow2 binsz))).Pairwise Block.Apart ∧
      (∀ object ∈ objects, object.1 + Max.max (pow2 object.2) (pow2 binsz) ≤ max) ∧
      ∀ object ∈ objects, ∀ i bases base, bin.bins[i]? = some bases → base ∈ bases →
        Block.Apart ⟨object.1, Max.max (pow2 object.2) (pow2 binsz)⟩ ⟨base, pow2 binsz * 2 ^ i⟩) ∧
    ∀ base live c, Counters.Reached base live c →
      live.Pairwise (fun e e' => c.SharesDummy e ∧ c.SharesDummy e' ∨ c.Separate e e') ∧ ∀ e ∈ live, c.InAreas e :=
  ⟨fun _ _ _ _ _ reached => reached.disjoint, fun _ _ _ reached => reached.separate⟩

/-- Two counters on a fresh pool. -/
def twoCounters : Outcome (Handle × Handle × Counters) := do
  let c ← Counters.new 4096
  let (h, c) ← Flavor.new .counter c (ascii "a") .pkts (ascii "x")
  let (h', c) ← Flavor.new (.array 3) c (ascii "b") .info (ascii "x")
  .ok (h, h', c)

def firstOfTwo : Live := ⟨ascii "a/pkts/x", .counter, .counter ⟨8208, 4202552⟩⟩

def secondOfTwo : Live := ⟨ascii "b/info/x", .array 3, .array ⟨8192, [4210752, 4210760, 4210768]⟩⟩

theorem twoCounters_reached :
    ∃ c, Counters.Reached 4096 [secondOfTwo, firstOfTwo] c ∧ ¬c.SharesDummy secondOfTwo ∧
    ¬c.SharesDummy firstOfTwo := by
  have values : (twoCounters.map fun r => (r.1, r.2.1, r.2.2.dummies.counter.dir, r.2.2.dummies.array.dir)) =
      .ok (firstOfTwo.handle, secondOfTwo.handle, 4160, 8224) := by decide +kernel
  cases run : twoCounters with
  | error e =>
    rw [run] at values
    cases values
  | ok r =>
    obtain ⟨h, h', c⟩ := r
    rw [run] at values
    obtain ⟨rfl, rfl, counter, array⟩ : h = firstOfTwo.handle ∧ h' = secondOfTwo.handle ∧
        c.dummies.counter.dir = 4160 ∧ c.dummies.array.dir = 8224 := by
      simpa only [Prod.mk.injEq] using Except.ok.inj values
    obtain ⟨c₀, new, run⟩ := Except.bind_ok_iff.mp run
    obtain ⟨⟨_, c₁⟩, first, run⟩ := Except.bind_ok_iff.mp run
    obtain ⟨⟨_, c₂⟩, second, run⟩ := Except.bind_ok_iff.mp run
    cases Except.ok.inj run
    refine ⟨c, .create (.create (.new (by decide) new) rfl first) rfl second, fun shares => ?_, fun shares => ?_⟩
    · exact absurd (shares.trans array) (by decide)
    · exact absurd (shares.trans counter) (by decide)

theorem bin_reached : ∃ bin, Bin.Reached 4 32 8 [(8, 13), (4, 4)] bin ∧ bin.bins[0]? = some [0] := by
  refine ⟨_, .free (.get (.get (.get (.new rfl) (rfl : Bin.get _ 4 = .ok (some 0, _)))
    (rfl : Bin.get _ 4 = .ok (some 4, _))) (rfl : Bin.get _ 13 = .ok (some 8, _)))
    (by decide : ((0, 4) : Nat × Nat) ∈ [(8, 13), (4, 4), (0, 4)]) rfl, rfl⟩

/-- Three objects of which one was freed, and two counters. -/
theorem counterMemory_disjoint_two_counters :
    (∃ bin, Bin.Reached 4 32 8 [(8, 13), (4, 4)] bin ∧ bin.bins[0]? = some [0] ∧
      Block.Apart ⟨8, Max.max (pow2 13) (pow2 4)⟩ ⟨0, pow2 4 * 2 ^ 0⟩) ∧
    ∃ c, Counters.Reached 4096 [secondOfTwo, firstOfTwo] c ∧ c.Separate secondOfTwo firstOfTwo := by
  constructor
  · obtain ⟨bin, reached, waits⟩ := bin_reached
    obtain ⟨_, _, apart⟩ := counterMemory_disjoint.1 4 32 8 _ bin reached
    exact ⟨bin, reached, waits, apart (8, 13) (List.mem_cons_self ..) 0 [0] 0 waits (List.mem_singleton.mpr rfl)⟩
  · obtain ⟨c, reached, _, own⟩ := twoCounters_reached
    obtain ⟨pairs, _⟩ := counterMemory_disjoint.2 4096 _ c reached
    rcases (List.pairwise_cons.mp pairs).1 firstOfTwo (List.mem_singleton.mpr rfl) with ⟨_, shares⟩ | separate
    · exact absurd shares own
    · exact ⟨c, reached, separate⟩

end R2
