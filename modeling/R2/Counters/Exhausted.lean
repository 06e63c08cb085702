import R2.Counters.Room
import R2.Counters.View

namespace R2

namespace Bin

variable {bin bin' : Bin} {size base : Nat} {result : Option Nat}

/-- The area has an object of this size to give. -/
def CanSupply (bin : Bin) (size : Nat) : Prop := ∃ base bin', bin.get size = .ok (some base, bin')

/-- The object waits in the free list of its size class. -/
def Back (bin : Bin) (size base : Nat) : Prop :=
  ∃ width i objects, bin.index size = .ok (width, i) ∧ bin.bins[i]? = some objects ∧ base ∈ objects

/-- What a request of this size takes of the first allocator is back in the second. -/
def Returned (bin bin' : Bin) (size : Nat) : Prop :=
  ∀ base taken, bin.get size = .ok (some base, taken) → bin'.Back size base

theorem canSupply_iff (run : bin.get size = .ok (result, bin')) : bin.CanSupply size ↔ result ≠ none := by
  constructor
  · rintro ⟨base, taken, run'⟩ rfl
    cases Except.ok.inj (run.symm.trans run')
  · intro some
    obtain ⟨base, rfl⟩ := Option.ne_none_iff_exists'.mp some
    exact ⟨base, bin', run⟩

theorem returned_iff {after : Bin} (run : bin.get size = .ok (result, bin')) :
    bin.Returned after size ↔ ∀ base, result = some base → after.Back size base := by
  constructor
  · rintro returned base rfl
    exact returned base bin' run
  · intro back base taken run'
    obtain ⟨same, -⟩ := Prod.mk.inj (Except.ok.inj (run.symm.trans run'))
    exact back base same

theorem fill_pagesz {size index alloc fuel i : Nat} (run : fill size index alloc fuel i bin = .ok bin') :
    bin'.pagesz = bin.pagesz := by
  induction fuel generalizing i bin with
  | zero =>
    unfold fill at run
    split at run
    · cases run
    · cases Except.ok.inj run
      rfl
  | succ fuel ih =>
    unfold fill at run
    split at run
    · obtain ⟨bin₁, pushed, run⟩ := Except.bind_ok_iff.mp run
      obtain ⟨i', _, run⟩ := Except.bind_ok_iff.mp run
      obtain ⟨offset, _, run⟩ := Except.bind_ok_iff.mp run
      refine (ih run).trans ?_
      unfold pushFront at pushed
      split at pushed
      · cases Except.ok.inj pushed
        rfl
      · cases pushed
    · cases Except.ok.inj run
      rfl

theorem get_pagesz (run : bin.get size = .ok (result, bin')) : bin'.pagesz = bin.pagesz := by
  unfold Bin.get at run
  split at run
  · cases Except.ok.inj run
    rfl
  · obtain ⟨⟨width, i⟩, _, run⟩ := Except.bind_ok_iff.mp run
    dsimp only at run
    split at run
    · cases run
    · cases Except.ok.inj run
      rfl
    · obtain ⟨bin₁, resized, run⟩ := Except.bind_ok_iff.mp run
      obtain ⟨alloc, _, resized⟩ := Except.bind_ok_iff.mp resized
      obtain ⟨stop, _, resized⟩ := Except.bind_ok_iff.mp resized
      have same : bin₁.pagesz = bin.pagesz := by
        split at resized
        · have filled := fill_pagesz resized
          exact filled
        · cases Except.ok.inj resized
          rfl
      split at run
      · cases run
      · cases Except.ok.inj run
        exact same

theorem free_pagesz (run : bin.free base size = .ok bin') : bin'.pagesz = bin.pagesz := by
  unfold Bin.free at run
  split at run
  · cases run
  · obtain ⟨⟨width, i⟩, _, run⟩ := Except.bind_ok_iff.mp run
    dsimp only at run
    split at run
    · cases run
    · unfold pushFront at run
      split at run
      · cases Except.ok.inj run
        rfl
      · cases run

namespace Sound

variable {b limit : Nat} {objects : List (Nat × Nat)}

/-- An object that is in use does not wait. -/
theorem not_back (sound : Sound b limit ((base, size) :: objects) bin) : ¬bin.Back size base := by
  rintro ⟨width, i, bases, found, here, waits⟩
  obtain ⟨-, -, -, rfl⟩ := (index_noPanic sound.binsz sound.zeroes).ok found
  have waiting : (⟨base, bin.binsz * 2 ^ classOf b size⟩ : Block) ∈ bin.waiting := mem_waitingFrom here waits
  have apart := (List.pairwise_append.mp sound.cut.apart).2.2 _ (List.mem_cons_self ..) _ waiting
  rw [held_eq sound.binsz, sound.binsz, ← Nat.pow_add] at apart
  have := Nat.two_pow_pos (b + classOf b size)
  unfold Block.Apart Block.stop at apart
  dsimp only at apart
  omega

/-- What was just supplied is not back. -/
theorem lost_iff (sound : Sound b limit objects bin) (run : bin.get size = .ok (result, bin')) :
    (∀ base, result = some base → bin'.Back size base) ↔ result = none := by
  have after := sound.get run
  cases result with
  | none => exact ⟨fun _ => rfl, fun _ => nofun⟩
  | some base => exact iff_of_false (fun back => after.not_back (back base rfl)) nofun

/-- An object that is freed under a size of its class waits again. -/
theorem free_back {other : Nat} (sound : Sound b limit ((base, size) :: objects) bin)
    (class_ : classOf b other = classOf b size) (run : bin.free base other = .ok bin') : bin'.Back size base := by
  obtain ⟨pos, small, -⟩ := sound.known _ (List.mem_cons_self ..)
  obtain ⟨-, -, -, pushed⟩ := sound.free_eq_ok.mp run
  rw [class_] at pushed
  have after := sound.give pushed
  unfold pushFront at pushed
  split at pushed
  · rename_i bases here
    cases Except.ok.inj pushed
    exact ⟨_, _, _, index_ok after.binsz after.order after.zeroes pos small,
      List.getElem?_set_self (List.getElem?_eq_some_iff.mp here).1, List.mem_cons_self ..⟩
  · cases pushed

/-- A request for an object no larger than a page returns. -/
theorem get_returns (sound : Sound b limit objects bin) (page : bin.pagesz = 2 ^ 12) (order : b ≤ 12)
    (pos : 1 ≤ size) (fits : size ≤ 2 ^ 12) (small : 2 ^ 12 + limit < 2 ^ 32) :
    ∃ result bin', bin.get size = .ok (result, bin') := by
  have top : Nat.clog 2 size ≤ 12 := (Nat.clog_le_iff_le_pow Nat.one_lt_two).mpr fits
  have found := index_ok sound.binsz sound.order sound.zeroes pos (by omega)
  have width : 2 ^ b * 2 ^ classOf b size ≤ bin.pagesz := by
    rw [page, ← Nat.pow_add]
    refine Nat.pow_le_pow_right Nat.two_pos ?_
    unfold classOf
    omega
  obtain ⟨result, bin', run, -⟩ := sound.get_left found width (by rw [page]; exact small)
  exact ⟨result, bin', run⟩

end Sound

end Bin

namespace Counters

/-- Each area grows by pages of 4096 bytes. -/
structure Paged (c : Counters) : Prop where
  dir : c.dir.pagesz = 2 ^ 12
  vec : c.vec.pagesz = 2 ^ 12
  names : c.names.pagesz = 2 ^ 12

variable {c c' : Counters} {base : Nat} {live : List Live}

theorem Paged.dummies (paged : c.Paged) (d : Dummies) : Paged { c with dummies := d } :=
  ⟨paged.dir, paged.vec, paged.names⟩

theorem get_paged {name : List UInt8} {nvecs : Nat} {ret : Nat × Nat} (paged : c.Paged)
    (run : c.get name nvecs = .ok (ret, c')) : c'.Paged := by
  obtain ⟨veclen, _, run⟩ := Except.bind_ok_iff.mp run
  obtain ⟨⟨daddr, dir⟩, getDir, run⟩ := Except.bind_ok_iff.mp run
  obtain ⟨⟨vaddr, vec⟩, getVec, run⟩ := Except.bind_ok_iff.mp run
  obtain ⟨⟨naddr, names⟩, getName, run⟩ := Except.bind_ok_iff.mp run
  have dirs := (Bin.get_pagesz getDir).trans paged.dir
  have vecs := (Bin.get_pagesz getVec).trans paged.vec
  have nameses := (Bin.get_pagesz getName).trans paged.names
  cases daddr with
  | none =>
    cases Except.ok.inj run
    exact ⟨dirs, vecs, nameses⟩
  | some daddr =>
    cases vaddr with
    | none =>
      obtain ⟨dir', freeDir, run⟩ := Except.bind_ok_iff.mp run
      cases Except.ok.inj run
      exact ⟨(Bin.free_pagesz freeDir).trans dirs, vecs, nameses⟩
    | some vaddr =>
      cases naddr with
      | none =>
        obtain ⟨dir', freeDir, run⟩ := Except.bind_ok_iff.mp run
        obtain ⟨vec', freeVec, run⟩ := Except.bind_ok_iff.mp run
        cases Except.ok.inj run
        exact ⟨(Bin.free_pagesz freeDir).trans dirs, (Bin.free_pagesz freeVec).trans vecs, nameses⟩
      | some naddr =>
        simp only [Except.bind_ok_iff, add64_ok, Except.ok.injEq, Prod.mk.injEq] at run
        obtain ⟨_, _, _, _, _, _, _, _, _, _, _, _, _, rfl⟩ := run
        exact ⟨dirs, vecs, nameses⟩

theorem free_paged {dir : Nat} (paged : c.Paged) (run : c.free dir = .ok c') : c'.Paged := by
  obtain ⟨_, _, run⟩ := Except.bind_ok_iff.mp run
  obtain ⟨names, freeName, run⟩ := Except.bind_ok_iff.mp run
  obtain ⟨_, _, run⟩ := Except.bind_ok_iff.mp run
  obtain ⟨vec, freeVec, run⟩ := Except.bind_ok_iff.mp run
  obtain ⟨_, _, run⟩ := Except.bind_ok_iff.mp run
  obtain ⟨_, _, run⟩ := Except.bind_ok_iff.mp run
  obtain ⟨dir, freeDir, run⟩ := Except.bind_ok_iff.mp run
  cases Except.ok.inj run
  exact ⟨(Bin.free_pagesz freeDir).trans paged.dir, (Bin.free_pagesz freeVec).trans paged.vec,
    (Bin.free_pagesz freeName).trans paged.names⟩

theorem bin_pagesz {info : BinInfo} {bin : Bin} (page : info.pagesz = 2 ^ 12) (run : info.bin = .ok bin) :
    bin.pagesz = 2 ^ 12 := by
  obtain ⟨_, _, run⟩ := Except.bind_ok_iff.mp run
  obtain ⟨p, pages, run⟩ := Except.bind_ok_iff.mp run
  obtain ⟨-, -, rfl⟩ := pow2U32_ok.mp pages
  cases Except.ok.inj run
  rw [page]
  exact pow2_two_pow 12

theorem new_paged (run : new base = .ok c) : c.Paged := by
  obtain ⟨dir, dirRun, run⟩ := Except.bind_ok_iff.mp run
  obtain ⟨vec, vecRun, run⟩ := Except.bind_ok_iff.mp run
  obtain ⟨names, nameRun, run⟩ := Except.bind_ok_iff.mp run
  obtain ⟨⟨_, c₁⟩, run₁, run⟩ := Except.bind_ok_iff.mp run
  obtain ⟨⟨_, c₂⟩, run₂, run⟩ := Except.bind_ok_iff.mp run
  obtain ⟨⟨_, c₃⟩, run₃, run⟩ := Except.bind_ok_iff.mp run
  cases Except.ok.inj run
  have page : 4 * 1024 = 2 ^ 12 := by decide
  have paged : Paged ⟨base, dir, vec, names, ⟨⟨0, 0⟩, ⟨0, 0⟩, ⟨0, 0⟩⟩, .zero⟩ :=
    ⟨bin_pagesz page dirRun, bin_pagesz page vecRun, bin_pagesz page nameRun⟩
  have paged₁ := get_paged paged run₁
  have paged₂ := get_paged (paged₁.dummies _) run₂
  exact (get_paged (paged₂.dummies _) run₃).dummies _

theorem Reached.paged (reached : Reached base live c) : c.Paged := by
  induction reached with
  | new _ run => exact new_paged run
  | create _ _ run ih =>
    obtain ⟨_, _, run, -⟩ := Flavor.new_ok run
    obtain ⟨_, _, run⟩ := Except.bind_ok_iff.mp run
    obtain ⟨⟨⟨dir, base⟩, c₁⟩, got, run⟩ := Except.bind_ok_iff.mp run
    have paged := get_paged ih got
    dsimp only at run
    split at run
    · cases Except.ok.inj run
      exact paged
    · cases Except.ok.inj run
      exact paged
  | free _ _ run ih =>
    rw [Handle.free_eq] at run
    unfold release at run
    split at run
    · exact free_paged ih run
    · cases Except.ok.inj run
      exact ih
  | update _ _ update ih =>
    obtain ⟨cells, rfl⟩ := update.same
    exact ⟨ih.dir, ih.vec, ih.names⟩

theorem Sound.dir_oneBin {slots : List Slot} {daddr : Option Nat} {dir : Bin} (sound : Sound slots c)
    (run : c.dir.get BinInfo.dir.binsz = .ok (daddr, dir)) : dir.bins.length ≤ 1 := by
  have grown : dir.bins.length ≤ _ := ((Bin.Sound.get_noPanic sound.dir _).ok run).2
  have := sound.oneBin
  rw [Bin.classOf, Nat.sub_self] at grown
  omega

/-- What the three areas answer to one request. -/
structure Answers (c : Counters) (veclen len : Nat) (daddr vaddr naddr : Option Nat)
    (dir vec names : Bin) : Prop where
  dir : c.dir.get BinInfo.dir.binsz = .ok (daddr, dir)
  vec : c.vec.get veclen = .ok (vaddr, vec)
  names : c.names.get len = .ok (naddr, names)

section Answered

variable {slots : List Slot} {name : List UInt8} {nvecs : Nat} {daddr vaddr naddr : Option Nat} {dir vec names : Bin}

/-- Every area answers. -/
theorem Sound.answers (sound : Sound slots c) (paged : c.Paged) (some : 1 ≤ nvecs) (few : nvecs ≤ 32)
    (named : 1 ≤ name.length) (short : name.length ≤ 64) :
    ∃ daddr vaddr naddr dir vec names, c.Answers (nvecs * 8) name.length daddr vaddr naddr dir vec names := by
  have vecs : Bin.Sound 3 BinInfo.vec.totsz (slots.map Slot.vecObject) c.vec := sound.vec
  have nameses : Bin.Sound 5 BinInfo.name.totsz (slots.map Slot.nameObject) c.names := sound.names
  have dirs : Bin.Sound 4 BinInfo.dir.totsz (slots.map Slot.dirObject) c.dir := sound.dir
  obtain ⟨daddr, dir, getDir⟩ :=
    dirs.get_returns paged.dir (by decide) (by decide : 1 ≤ BinInfo.dir.binsz) (by decide)
    (by decide)
  obtain ⟨vaddr, vec, getVec⟩ :=
    vecs.get_returns paged.vec (by decide) (by omega : 1 ≤ nvecs * 8) (by omega) (by decide)
  obtain ⟨naddr, names, getName⟩ := nameses.get_returns paged.names (by decide) named (by omega) (by decide)
  exact ⟨daddr, vaddr, naddr, dir, vec, names, getDir, getVec, getName⟩

theorem request_sizes (few : nvecs ≤ 32) (short : name.length ≤ 64) : nvecs % 2 ^ 32 = nvecs ∧
    mul32 nvecs BinInfo.vec.binsz = .ok (nvecs * 8) ∧ name.length % 2 ^ 32 = name.length :=
  ⟨Nat.mod_eq_of_lt (by omega), mul32_ok.mpr ⟨by simp only [BinInfo.vec]; omega, rfl⟩, Nat.mod_eq_of_lt (by omega)⟩

namespace Answers

variable (answers : c.Answers (nvecs * 8) name.length daddr vaddr naddr dir vec names)

include answers

/-- Without a directory entry nothing is undone. -/
theorem get_none (few : nvecs ≤ 32) (short : name.length ≤ 64) (none : daddr = none) :
    c.get name nvecs = .ok ((0, 0), { c with dir, vec, names }) := by
  subst none
  obtain ⟨len, product, chars⟩ := request_sizes few short
  unfold Counters.get
  rw [len, product, Except.ok_bind, answers.dir, Except.ok_bind]
  dsimp only
  rw [answers.vec, Except.ok_bind]
  dsimp only
  rw [chars, answers.names, Except.ok_bind]

/-- Without a value the entry goes back under the size of the values. -/
theorem get_undo_dir {a : Nat} (few : nvecs ≤ 32) (short : name.length ≤ 64) (entry : daddr = some a)
    (none : vaddr = none) : c.get name nvecs = (do
      let dir ← dir.free a (nvecs * 8)
      .ok ((0, 0), { c with dir, vec, names })) := by
  subst entry none
  obtain ⟨len, product, chars⟩ := request_sizes few short
  unfold Counters.get
  rw [len, product, Except.ok_bind, answers.dir, Except.ok_bind]
  dsimp only
  rw [answers.vec, Except.ok_bind]
  dsimp only
  rw [chars, answers.names, Except.ok_bind]

/-- Without a name the entry and the value go back. -/
theorem get_undo_both {a b : Nat} (few : nvecs ≤ 32) (short : name.length ≤ 64) (entry : daddr = some a)
    (value : vaddr = some b) (none : naddr = none) : c.get name nvecs = (do
      let dir ← dir.free a (nvecs * 8)
      let vec ← vec.free b (nvecs * 8)
      .ok ((0, 0), { c with dir, vec, names })) := by
  subst entry value none
  obtain ⟨len, product, chars⟩ := request_sizes few short
  unfold Counters.get
  rw [len, product, Except.ok_bind, answers.dir, Except.ok_bind]
  dsimp only
  rw [answers.vec, Except.ok_bind]
  dsimp only
  rw [chars, answers.names, Except.ok_bind]

/-- With all three the counter is made. -/
theorem get_all {a b n : Nat} (few : nvecs ≤ 32) (short : name.length ≤ 64) (sound : Sound slots c)
    (mapped : c.base + mmapSize ≤ 2 ^ 64) (entry : daddr = some a) (value : vaddr = some b) (text : naddr = some n) :
    ∃ c', c.get name nvecs = .ok ((a + c.base + BinInfo.dir.start, b + c.base + BinInfo.vec.start), c') ∧
      b + nvecs * 8 ≤ BinInfo.vec.totsz ∧ c'.dir = dir ∧ c'.vec = vec ∧ c'.names = names := by
  obtain ⟨len, product, chars⟩ := request_sizes few short
  have dirs := Bin.Sound.get sound.dir answers.dir
  have vecs := Bin.Sound.get sound.vec answers.vec
  have nameses := Bin.Sound.get sound.names answers.names
  subst entry value text
  have belowDir := Bin.Sound.below dirs (List.mem_cons_self ..)
  have belowVec := Bin.Sound.below vecs (List.mem_cons_self ..)
  have belowName := Bin.Sound.below nameses (List.mem_cons_self ..)
  have insideDir : dir.offset ≤ BinInfo.dir.totsz := Bin.Sound.inside dirs
  have insideVec : vec.offset ≤ BinInfo.vec.totsz := Bin.Sound.inside vecs
  have insideName : names.offset ≤ BinInfo.name.totsz := Bin.Sound.inside nameses
  dsimp only at belowDir belowVec belowName
  have sizes : BinInfo.name.start + BinInfo.name.totsz < mmapSize ∧ BinInfo.vec.start + BinInfo.vec.totsz < mmapSize ∧
      BinInfo.dir.start + BinInfo.dir.totsz < mmapSize := by decide
  have entryFits : a + c.base + BinInfo.dir.start < 2 ^ 64 := by omega
  have valueFits : b + c.base + BinInfo.vec.start < 2 ^ 64 := by omega
  have textFits : n + c.base + BinInfo.name.start < 2 ^ 64 := by omega
  unfold Counters.get
  rw [len, product, Except.ok_bind, answers.dir, Except.ok_bind]
  dsimp only
  rw [answers.vec, Except.ok_bind]
  dsimp only
  rw [chars, answers.names, Except.ok_bind]
  dsimp only
  rw [add64_ok.mpr ⟨Nat.lt_of_le_of_lt (Nat.le_add_right ..) entryFits, rfl⟩, Except.ok_bind,
    add64_ok.mpr ⟨entryFits, rfl⟩, Except.ok_bind,
    add64_ok.mpr ⟨Nat.lt_of_le_of_lt (Nat.le_add_right ..) valueFits, rfl⟩, Except.ok_bind,
    add64_ok.mpr ⟨valueFits, rfl⟩, Except.ok_bind,
    add64_ok.mpr ⟨Nat.lt_of_le_of_lt (Nat.le_add_right ..) textFits, rfl⟩, Except.ok_bind,
    add64_ok.mpr ⟨textFits, rfl⟩, Except.ok_bind]
  exact ⟨_, rfl, by omega, rfl, rfl, rfl⟩

end Answers

/-- A directory entry goes back under the size of the values exactly when that is
no larger than the entry. -/
theorem undo_dir {a : Nat} {objects : List (Nat × Nat)}
    (dirs : Bin.Sound 4 BinInfo.dir.totsz ((a, BinInfo.dir.binsz) :: objects) dir) (oneBin : dir.bins.length ≤ 1)
    (some : 1 ≤ nvecs) (few : nvecs ≤ 32) :
    (nvecs ≤ 2 → ∃ dir', dir.free a (nvecs * 8) = .ok dir' ∧ dir'.Back BinInfo.dir.binsz a) ∧
      (2 < nvecs → ∀ dir', dir.free a (nvecs * 8) ≠ .ok dir') := by
  have own : Bin.classOf 4 BinInfo.dir.binsz = 0 := Nat.sub_self _
  obtain ⟨-, -, known⟩ := dirs.known _ (List.mem_cons_self ..)
  dsimp only at known
  rw [own] at known
  refine ⟨fun fits => ?_, fun large dir' run => ?_⟩
  · have small : Nat.clog 2 (nvecs * 8) ≤ 4 := (Nat.clog_le_iff_le_pow Nat.one_lt_two).mpr (by omega)
    have class_ : Bin.classOf 4 (nvecs * 8) = 0 := Nat.sub_eq_zero_of_le small
    obtain ⟨bins, pushed, -⟩ := Bin.pushFront_ok a known
    have run := dirs.free_eq_ok.mpr ⟨by omega, by omega, class_ ▸ known, class_ ▸ pushed⟩
    exact ⟨_, run, dirs.free_back (class_.trans own.symm) run⟩
  · obtain ⟨-, -, inside, -⟩ := dirs.free_eq_ok.mp run
    have class_ : Bin.classOf 4 (nvecs * 8) = 0 := by omega
    have small := (Nat.clog_le_iff_le_pow Nat.one_lt_two).mp (Nat.sub_eq_zero_iff_le.mp class_)
    omega

end Answered

/-- A creation returns; and when an area cannot supply its part, the caller gets
the dummy and all that was taken is back in the free list it came from. -/
def Harmless (c : Counters) (flavor : Flavor) (node : List UInt8) (ctype : CounterType) (name full : List UInt8) :
    Prop :=
  ∃ h c', flavor.new c node ctype name = .ok (h, c') ∧
    (¬(c.dir.CanSupply BinInfo.dir.binsz ∧ c.vec.CanSupply (flavor.nvecs * 8) ∧ c.names.CanSupply full.length) →
      IsDummy c' ⟨full, flavor, h⟩ ∧ c.dir.Returned c'.dir BinInfo.dir.binsz ∧
        c.vec.Returned c'.vec (flavor.nvecs * 8) ∧ c.names.Returned c'.names full.length)

/-- What the areas can supply decides it. -/
def Undone (c : Counters) (flavor : Flavor) (full : List UInt8) : Prop :=
  (c.dir.CanSupply BinInfo.dir.binsz ∧ c.vec.CanSupply (flavor.nvecs * 8) ∧ c.names.CanSupply full.length) ∨
  (c.dir.CanSupply BinInfo.dir.binsz ∧ ¬c.names.CanSupply full.length ∧ flavor.nvecs ≤ 2) ∨
  (¬c.dir.CanSupply BinInfo.dir.binsz ∧ ¬c.vec.CanSupply (flavor.nvecs * 8) ∧ ¬c.names.CanSupply full.length)

section Creation

variable {slots : List Slot} {flavor : Flavor} {node name full : List UInt8} {ctype : CounterType} {d v : Nat}

theorem allocate_of_get {nvecs : Nat} (dummy : Dummies → Dummy) (named : counterName node ctype name = .ok full)
    (got : c.get full nvecs = .ok ((d, v), c')) : c.allocate node ctype name nvecs dummy =
      .ok (if d = 0 then ((dummy c'.dummies).dir, (dummy c'.dummies).base) else (d, v), c') := by
  unfold allocate
  rw [named, Except.ok_bind, got, Except.ok_bind]
  dsimp only
  split
  · rfl
  · rfl

/-- A counter is made of what was allocated for it. -/
theorem new_of_allocate (run : c.allocate node ctype name flavor.nvecs flavor.dummy = .ok ((d, v), c'))
    (fits : v + 256 ≤ 2 ^ 64) : ∃ h, flavor.new c node ctype name = .ok (h, c') := by
  cases flavor with
  | counter =>
    have got : c.allocate node ctype name 1 Dummies.counter = .ok ((d, v), c') := run
    exact ⟨.counter ⟨d, v⟩, by rw [Flavor.new, Counter.new, got]; rfl⟩
  | pktsBytes =>
    have got : c.allocate node ctype name 2 Dummies.pktsbytes = .ok ((d, v), c') := run
    have second : add64 v BinInfo.vec.binsz = .ok (v + 8) := add64_ok.mpr ⟨by simp only [BinInfo.vec]; omega, rfl⟩
    refine ⟨.pktsBytes ⟨d, v, v + 8⟩, ?_⟩
    rw [Flavor.new, PktsBytes.new, got, Except.ok_bind]
    dsimp only
    rw [second]
    rfl
  | array size =>
    have got : c.allocate node ctype name (min size BinInfo.vec.binmax) Dummies.array = .ok ((d, v), c') := run
    have cells : (List.range (min size BinInfo.vec.binmax)).mapM (fun i => add64 v (i * BinInfo.vec.binsz)) =
        .ok ((List.range (min size BinInfo.vec.binmax)).map fun i => v + i * 8) := by
      refine mapM_eq_ok fun i member => add64_ok.mpr ⟨?_, rfl⟩
      have inside := List.mem_range.mp member
      simp only [BinInfo.vec] at inside ⊢
      omega
    refine ⟨.array ⟨d, (List.range (min size BinInfo.vec.binmax)).map fun i => v + i * 8⟩, ?_⟩
    rw [Flavor.new, CounterArray.new]
    dsimp only
    rw [got, Except.ok_bind]
    dsimp only
    rw [cells]
    rfl

theorem Shared.base_fits {shared : List Slot} (sharing : Shared c shared) (sound : Sound slots c)
    (sub : ∀ s ∈ shared, s ∈ slots) (mapped : c.base + mmapSize ≤ 2 ^ 64) (flavor : Flavor) :
    (flavor.dummy c.dummies).base + 256 ≤ 2 ^ 64 := by
  have below : ∀ s ∈ shared, (c.address s).base + 256 ≤ 2 ^ 64 := by
    intro s member
    have below := Bin.Sound.below sound.vec (List.mem_map_of_mem (f := Slot.vecObject) (sub s member))
    have inside : c.vec.offset ≤ BinInfo.vec.totsz := Bin.Sound.inside sound.vec
    have sizes : BinInfo.vec.start + BinInfo.vec.totsz + 256 ≤ mmapSize := by decide
    dsimp only [Slot.vecObject] at below
    dsimp only [address]
    omega
  obtain ⟨s₁, s₂, s₃, rfl, dummies, -⟩ := sharing
  rw [dummies]
  cases flavor with
  | counter => exact below s₁ (by simp)
  | pktsBytes => exact below s₂ (by simp)
  | array size => exact below s₃ (by simp)

/-- A call that is refused gives the dummy. -/
theorem refused_harmless_iff (named : counterName node ctype name = .ok full)
    (fits : (flavor.dummy c.dummies).base + 256 ≤ 2 ^ 64) (got : c.get full flavor.nvecs = .ok ((0, 0), c'))
    (dummies : c'.dummies = c.dummies)
    (refused : ¬(c.dir.CanSupply BinInfo.dir.binsz ∧ c.vec.CanSupply (flavor.nvecs * 8) ∧
      c.names.CanSupply full.length)) : c.Harmless flavor node ctype name full ↔
      c.dir.Returned c'.dir BinInfo.dir.binsz ∧ c.vec.Returned c'.vec (flavor.nvecs * 8) ∧
        c.names.Returned c'.names full.length := by
  have run := allocate_of_get flavor.dummy named got
  rw [if_pos rfl, dummies] at run
  constructor
  · rintro ⟨h, c₁, made, law⟩
    obtain ⟨_, _, run', -⟩ := Flavor.new_ok made
    obtain ⟨-, rfl⟩ := Prod.mk.inj (Except.ok.inj (run.symm.trans run'))
    exact (law refused).2
  · intro returned
    obtain ⟨h, made⟩ := new_of_allocate run fits
    refine ⟨h, c', made, fun _ => ⟨?_, returned⟩⟩
    obtain ⟨d, v, run', dir, cells, dummy⟩ := Flavor.new_ok made
    obtain ⟨rfl, rfl⟩ := Prod.mk.inj (Prod.mk.inj (Except.ok.inj (run.symm.trans run'))).1
    exact ⟨by rw [dir, dummies], by rw [cells, dummies], dummy⟩

theorem failed_new (named : counterName node ctype name = .ok full) (failed : ∀ r, c.get full flavor.nvecs ≠ .ok r)
    (r : Handle × Counters) : flavor.new c node ctype name ≠ .ok r := by
  intro made
  obtain ⟨_, _, run, -⟩ := Flavor.new_ok made
  unfold allocate at run
  rw [named, Except.ok_bind] at run
  obtain ⟨r, got, -⟩ := Except.bind_ok_iff.mp run
  exact failed r got

theorem failed_not_harmless (named : counterName node ctype name = .ok full)
    (failed : ∀ r, c.get full flavor.nvecs ≠ .ok r) : ¬c.Harmless flavor node ctype name full := by
  rintro ⟨h, c₁, made, -⟩
  exact failed_new named failed _ made

/-- An undo that panics is not harmless. -/
theorem panicked_not_harmless {freed : Outcome Bin} {rest : Bin → Outcome ((Nat × Nat) × Counters)}
    (named : counterName node ctype name = .ok full) (got : c.get full flavor.nvecs = freed >>= rest)
    (panic : ∀ dir, freed ≠ .ok dir) : ¬c.Harmless flavor node ctype name full := by
  refine failed_not_harmless named fun r run => ?_
  rw [got] at run
  obtain ⟨dir, done, -⟩ := Except.bind_ok_iff.mp run
  exact panic dir done

namespace Answers

variable {daddr vaddr naddr : Option Nat} {dir vec names : Bin}

theorem undone_iff (answers : c.Answers (flavor.nvecs * 8) full.length daddr vaddr naddr dir vec names) :
    c.Undone flavor full ↔ (daddr ≠ none ∧ vaddr ≠ none ∧ naddr ≠ none) ∨
      (daddr ≠ none ∧ naddr = none ∧ flavor.nvecs ≤ 2) ∨ (daddr = none ∧ vaddr = none ∧ naddr = none) := by
  unfold Undone
  rw [Bin.canSupply_iff answers.dir, Bin.canSupply_iff answers.vec, Bin.canSupply_iff answers.names]
  simp only [not_not, ne_eq]

/-- After a refusal what was supplied must be back. -/
theorem refused_iff (answers : c.Answers (flavor.nvecs * 8) full.length daddr vaddr naddr dir vec names)
    (named : counterName node ctype name = .ok full) (fits : (flavor.dummy c.dummies).base + 256 ≤ 2 ^ 64)
    (got : c.get full flavor.nvecs = .ok ((0, 0), c')) (dummies : c'.dummies = c.dummies)
    (refused : ¬(daddr ≠ none ∧ vaddr ≠ none ∧ naddr ≠ none)) : c.Harmless flavor node ctype name full ↔
      (∀ a, daddr = some a → c'.dir.Back BinInfo.dir.binsz a) ∧
        (∀ b, vaddr = some b → c'.vec.Back (flavor.nvecs * 8) b) ∧
        ∀ n, naddr = some n → c'.names.Back full.length n := by
  rw [← Bin.canSupply_iff answers.dir, ← Bin.canSupply_iff answers.vec, ← Bin.canSupply_iff answers.names] at refused
  rw [refused_harmless_iff named fits got dummies refused, Bin.returned_iff answers.dir,
    Bin.returned_iff answers.vec, Bin.returned_iff answers.names]

end Answers

/-- Each of the areas may fail on its own. -/
theorem Accounts.harmless_iff {own : List (Live × Slot)} {dummies : List Live} {shared : List Slot}
    (accounts : Accounts c live own dummies shared) (paged : c.Paged) (mapped : c.base + mmapSize ≤ 2 ^ 64)
    (cells : 1 ≤ flavor.nvecs) (named : counterName node ctype name = .ok full) (some : 1 ≤ full.length) :
    c.Harmless flavor node ctype name full ↔ c.Undone flavor full := by
  have sound := accounts.sound
  have short := counterName_length named
  have few := flavor.nvecs_le
  have fits := accounts.sharing.base_fits sound (fun s => List.mem_append_right _) mapped flavor
  obtain ⟨daddr, vaddr, naddr, dir, vec, names, answers⟩ := sound.answers paged cells few some short
  have dirs := Bin.Sound.get sound.dir answers.dir
  have vecs := Bin.Sound.get sound.vec answers.vec
  have lostVec := Bin.Sound.lost_iff sound.vec answers.vec
  have lostName := Bin.Sound.lost_iff sound.names answers.names
  rw [answers.undone_iff]
  cases daddr with
  | none =>
    rw [answers.refused_iff named fits (answers.get_none few short rfl) rfl fun all => all.1 rfl, lostVec, lostName]
    simp
  | some a =>
    obtain ⟨undo, panic⟩ := undo_dir dirs (sound.dir_oneBin answers.dir) cells few
    cases vaddr with
    | none =>
      have got := answers.get_undo_dir few short rfl rfl
      by_cases small : flavor.nvecs ≤ 2
      · obtain ⟨dir', freed, back⟩ := undo small
        rw [freed] at got
        rw [answers.refused_iff named fits got rfl fun all => all.2.1 rfl, lostName]
        simpa [small] using fun _ => back
      · simpa [small] using panicked_not_harmless named got (panic (not_le.mp small))
    | some b =>
      cases naddr with
      | none =>
        have got := answers.get_undo_both few short rfl rfl rfl
        by_cases small : flavor.nvecs ≤ 2
        · obtain ⟨dir', freed, back⟩ := undo small
          obtain ⟨vec', freed'⟩ := Bin.Sound.free_ok vecs
          have back' := Bin.Sound.free_back vecs rfl freed'
          rw [freed, Except.ok_bind, freed'] at got
          rw [answers.refused_iff named fits got rfl fun all => all.2.2 rfl]
          simpa [small] using ⟨back, back'⟩
        · simpa [small] using panicked_not_harmless named got (panic (not_le.mp small))
      | some n =>
        obtain ⟨c', got, inside, -⟩ := answers.get_all few short sound mapped rfl rfl rfl
        have run := allocate_of_get flavor.dummy named got
        have start : a + c.base + BinInfo.dir.start ≠ 0 := by
          simp only [BinInfo.dir]
          omega
        have sizes : BinInfo.vec.start + BinInfo.vec.totsz + 256 ≤ mmapSize := by decide
        rw [if_neg start] at run
        obtain ⟨h, made⟩ := new_of_allocate run (by omega)
        have supplied : Option.some a ≠ none ∧ Option.some b ≠ none ∧ Option.some n ≠ none :=
          ⟨Option.some_ne_none a, Option.some_ne_none b, Option.some_ne_none n⟩
        refine iff_of_true ⟨h, c', made, fun refused => absurd supplied ?_⟩ (Or.inl supplied)
        rwa [Bin.canSupply_iff answers.dir, Bin.canSupply_iff answers.vec, Bin.canSupply_iff answers.names] at refused

end Creation

end Counters

theorem counterName_of_ascii {node name : List UInt8} (ctype : CounterType) (plain : ∀ b ∈ node ++ name, b < 128) :
    ∃ full, counterName node ctype name = .ok full ∧ 1 ≤ full.length := by
  have tag : 1 ≤ ctype.tag.length ∧ ∀ b ∈ ctype.tag, b < 128 := by
    cases ctype with
    | error => decide +kernel
    | info => decide +kernel
    | pkts => decide +kernel
  have all : ∀ b ∈ node ++ ctype.tag ++ name, b < 128 := by
    intro b member
    rcases List.mem_append.mp member with front | last
    · rcases List.mem_append.mp front with first | mid
      · exact plain b (List.mem_append_left _ first)
      · exact tag.2 b mid
    · exact plain b (List.mem_append_right _ last)
  have long : 1 ≤ (node ++ ctype.tag ++ name).length := by
    rw [List.length_append, List.length_append]
    omega
  unfold counterName
  dsimp only
  split
  · exact ⟨_, rfl, long⟩
  · rename_i byte here
    have boundary : isCharBoundary byte = true := by
      unfold isCharBoundary
      rw [decide_eq_true (all byte (List.mem_of_getElem? here)), Bool.true_or]
    rw [if_pos boundary]
    refine ⟨_, rfl, ?_⟩
    rw [List.length_take]
    exact Nat.le_min.mpr ⟨by decide, long⟩

/-- A creation returns and loses nothing exactly when all three areas can supply
their part, or the names cannot while a directory entry is as large as the
values, or none of the three can. -/
theorem running_out_harmless_iff {base : Nat} {live : List Live} {c : Counters} {flavor : Flavor}
    {node name : List UInt8} {ctype : CounterType} (reached : Counters.Reached base live c)
    (mapped : base + mmapSize ≤ 2 ^ 64) (cells : 1 ≤ flavor.nvecs) (plain : ∀ b ∈ node ++ name, b < 128) :
    ∃ full, counterName node ctype name = .ok full ∧ (c.Harmless flavor node ctype name full ↔
    c.Undone flavor full) := by
  obtain ⟨rfl, own, dummies, shared, accounts⟩ := reached.accounts
  obtain ⟨full, named, some⟩ := counterName_of_ascii ctype plain
  exact ⟨full, named, accounts.harmless_iff reached.paged mapped cells named some⟩

namespace Counters

/-- What the areas still have for counters of `2 ^ i` cells with short names. -/
structure Stock (c : Counters) (i dir vec names : Nat) : Prop where
  dir : c.dir.left 16 0 = dir
  vec : c.vec.left (2 ^ (3 + i)) i = vec
  names : c.names.left 32 0 = names

variable {base i d v n : Nat} {live : List Live} {c : Counters}

/-- The size classes of such a counter with the name `a/pkts/x`. -/
theorem Sound.stock_index {slots : List Slot} (sound : Sound slots c) (few : i ≤ 5) :
    c.dir.index BinInfo.dir.binsz = .ok (16, 0) ∧ c.vec.index (2 ^ (3 + i)) = .ok (2 ^ (3 + i), i) ∧
      c.names.index 8 = .ok (32, 0) := by
  have dirs : Bin.Sound 4 BinInfo.dir.totsz (slots.map Slot.dirObject) c.dir := sound.dir
  have vecs : Bin.Sound 3 BinInfo.vec.totsz (slots.map Slot.vecObject) c.vec := sound.vec
  have nameses : Bin.Sound 5 BinInfo.name.totsz (slots.map Slot.nameObject) c.names := sound.names
  have entry : Bin.classOf 4 BinInfo.dir.binsz = 0 := Nat.sub_self _
  have values : Bin.classOf 3 (2 ^ (3 + i)) = i := by
    rw [Bin.classOf, Nat.clog_pow _ _ Nat.one_lt_two, Nat.add_sub_cancel_left]
  have text : Bin.classOf 5 8 = 0 := congrArg (· - 5) (Nat.clog_pow 2 3 Nat.one_lt_two)
  have small : 2 ^ (3 + i) ≤ 2 ^ 8 := Nat.pow_le_pow_right Nat.two_pos (by omega)
  have first := Bin.index_ok dirs.binsz dirs.order dirs.zeroes (by decide : 1 ≤ BinInfo.dir.binsz) (by decide)
  have second := Bin.index_ok vecs.binsz vecs.order vecs.zeroes (Nat.two_pow_pos (3 + i)) (by omega)
  have third := Bin.index_ok nameses.binsz nameses.order nameses.zeroes (by decide : 1 ≤ 8) (by decide)
  rw [entry] at first
  rw [values, ← Nat.pow_add] at second
  rw [text] at third
  exact ⟨first, second, third⟩

/-- What the areas answer to one more such counter. -/
theorem Stock.answers {slots : List Slot} (stock : c.Stock i d v n) (few : i ≤ 5) (sound : Sound slots c)
    (paged : c.Paged) :
    ∃ daddr vaddr naddr dir vec names, c.Answers (2 ^ (3 + i)) 8 daddr vaddr naddr dir vec names ∧
      (daddr = none ↔ d = 0) ∧ (vaddr = none ↔ v = 0) ∧ (naddr = none ↔ n = 0) ∧ dir.left 16 0 = d - 1 ∧
      vec.left (2 ^ (3 + i)) i = v - 1 ∧ names.left 32 0 = n - 1 := by
  obtain ⟨entry, values, text⟩ := sound.stock_index few
  have small : 2 ^ (3 + i) ≤ 2 ^ 12 := Nat.pow_le_pow_right Nat.two_pos (by omega)
  obtain ⟨daddr, dir, getDir, none, left, -⟩ := Bin.Sound.get_left sound.dir entry (by rw [paged.dir]; decide)
    (by rw [paged.dir]; decide)
  obtain ⟨vaddr, vec, getVec, none', left', -⟩ := Bin.Sound.get_left sound.vec values (by rw [paged.vec]; exact small)
    (by rw [paged.vec]; decide)
  obtain ⟨naddr, names, getName, none'', left'', -⟩ :=
    Bin.Sound.get_left sound.names text (by rw [paged.names]; decide)
    (by rw [paged.names]; decide)
  rw [stock.dir] at none left
  rw [stock.vec] at none' left'
  rw [stock.names] at none'' left''
  exact ⟨daddr, vaddr, naddr, dir, vec, names, ⟨getDir, getVec, getName⟩, none, none', none'', left, left', left''⟩

theorem array_named : counterName (ascii "a") .pkts (ascii "x") = .ok (ascii "a/pkts/x") := by decide +kernel

section Taking

variable {flavor : Flavor} (few : i ≤ 5) (cells : flavor.nvecs * 8 = 2 ^ (3 + i))

include few cells

/-- One more counter takes one object of each area. -/
theorem Stock.create (stock : c.Stock i d v n) (reached : Reached base live c) (mapped : base + mmapSize ≤ 2 ^ 64)
    (dirs : 0 < d) (values : 0 < v) (names : 0 < n) :
    ∃ live' c', Reached base live' c' ∧ c'.Stock i (d - 1) (v - 1) (n - 1) := by
  obtain ⟨rfl, own, dummies, shared, accounts⟩ := reached.accounts
  obtain ⟨daddr, vaddr, naddr, dir, vec, nameses, answers, some, some', some'', left, left', left''⟩ :=
    stock.answers few accounts.sound reached.paged
  obtain ⟨a, rfl⟩ := Option.ne_none_iff_exists'.mp (mt some.mp (by omega))
  obtain ⟨b, rfl⟩ := Option.ne_none_iff_exists'.mp (mt some'.mp (by omega))
  obtain ⟨m, rfl⟩ := Option.ne_none_iff_exists'.mp (mt some''.mp (by omega))
  have answers : c.Answers (flavor.nvecs * 8) (ascii "a/pkts/x").length (.some a) (.some b) (.some m) dir vec nameses :=
    cells ▸ answers
  obtain ⟨c', got, inside, rfl, rfl, rfl⟩ :=
    answers.get_all flavor.nvecs_le (by decide) accounts.sound mapped rfl rfl rfl
  have run := allocate_of_get flavor.dummy array_named got
  have start : a + c.base + BinInfo.dir.start ≠ 0 := by
    simp only [BinInfo.dir]
    omega
  have sizes : BinInfo.vec.start + BinInfo.vec.totsz + 256 ≤ mmapSize := by decide
  rw [if_neg start] at run
  obtain ⟨h, made⟩ : ∃ h, flavor.new c (ascii "a") .pkts (ascii "x") = .ok (h, c') := new_of_allocate run (by omega)
  exact ⟨_, _, reached.create array_named made, left, left', left''⟩

/-- Without a directory entry the value and the name that a creation takes are lost. -/
theorem Stock.refuse (stock : c.Stock i 0 v n) (reached : Reached base live c) (mapped : base + mmapSize ≤ 2 ^ 64) :
    ∃ live' c', Reached base live' c' ∧ c'.Stock i 0 (v - 1) (n - 1) := by
  obtain ⟨rfl, own, dummies, shared, accounts⟩ := reached.accounts
  obtain ⟨daddr, vaddr, naddr, dir, vec, nameses, answers, none, -, -, left, left', left''⟩ :=
    stock.answers few accounts.sound reached.paged
  have answers : c.Answers (flavor.nvecs * 8) (ascii "a/pkts/x").length daddr vaddr naddr dir vec nameses :=
    cells ▸ answers
  have got := answers.get_none flavor.nvecs_le (by decide) (none.mpr rfl)
  have run := allocate_of_get flavor.dummy array_named got
  rw [if_pos rfl] at run
  have fits := accounts.sharing.base_fits accounts.sound (fun s => List.mem_append_right _) mapped flavor
  obtain ⟨h, made⟩ : ∃ h, flavor.new c (ascii "a") .pkts (ascii "x") = .ok (h, { c with dir, vec, names := nameses }) :=
    new_of_allocate run fits
  exact ⟨_, _, reached.create array_named made, left, left', left''⟩

/-- Counters until the values are used up. -/
theorem values_used_up (reached : Reached base live c) (mapped : base + mmapSize ≤ 2 ^ 64) (stock : c.Stock i d v n)
    (dirs : v < d) (names : v < n) : ∃ live c d n, Reached base live c ∧ c.Stock i d 0 n ∧ 0 < d ∧ 0 < n := by
  induction v generalizing live c d n with
  | zero => exact ⟨live, c, d, n, reached, stock, dirs, names⟩
  | succ v ih =>
    obtain ⟨live', c', reached, stock⟩ := stock.create few cells reached mapped (by omega) (Nat.succ_pos v) (by omega)
    exact ih reached stock (by omega) (by omega)

/-- Counters, and creations without a directory entry, until all areas are used up. -/
theorem areas_used_up {k : Nat} (reached : Reached base live c) (mapped : base + mmapSize ≤ 2 ^ 64)
    (stock : c.Stock i d v n) (value : d ≤ v) (name : d ≤ n) (values : v ≤ k) (names : n ≤ k) :
    ∃ live c, Reached base live c ∧ c.Stock i 0 0 0 := by
  induction k generalizing live c d v n with
  | zero =>
    obtain rfl := Nat.le_zero.mp values
    obtain rfl := Nat.le_zero.mp names
    obtain rfl := Nat.le_zero.mp value
    exact ⟨live, c, reached, stock⟩
  | succ k ih =>
    rcases Nat.eq_zero_or_pos d with rfl | some
    · obtain ⟨live', c', reached, stock⟩ := stock.refuse few cells reached mapped
      exact ih reached stock (Nat.zero_le _) (Nat.zero_le _) (by omega) (by omega)
    · obtain ⟨live', c', reached, stock⟩ := stock.create few cells reached mapped some (by omega) (by omega)
      exact ih reached stock (by omega) (by omega) (by omega) (by omega)

end Taking

/-- What a fresh pool has for arrays of 32 cells, and for counters of one. -/
theorem new_stock : ∃ c, Reached 4096 [] c ∧ c.Stock 5 262141 65503 1048573 ∧ c.Stock 0 262141 2096127 1048573 := by
  have values : (Counters.new 4096).map (fun c => (c.dir.left 16 0, c.vec.left 256 5, c.vec.left 8 0,
      c.names.left 32 0)) = .ok (262141, 65503, 2096127, 1048573) := by decide +kernel
  cases run : Counters.new 4096 with
  | error e =>
    rw [run] at values
    cases values
  | ok c =>
    rw [run] at values
    obtain ⟨dir, rest⟩ := Prod.mk.inj (Except.ok.inj values)
    obtain ⟨arrays, rest⟩ := Prod.mk.inj rest
    obtain ⟨counters, names⟩ := Prod.mk.inj rest
    exact ⟨c, .new (by decide) run, ⟨dir, arrays, names⟩, dir, counters, names⟩

/-- A pool with no values left panics on one more array. -/
theorem array_panics : ∃ live c, Reached 4096 live c ∧
    ¬c.Harmless (.array 32) (ascii "a") .pkts (ascii "x") (ascii "a/pkts/x") ∧
    ∀ r, Flavor.new (.array 32) c (ascii "a") .pkts (ascii "x") ≠ .ok r := by
  obtain ⟨c₀, fresh, stock, -⟩ := new_stock
  obtain ⟨live, c, d, n, reached, stock, dirs, names⟩ : ∃ live c d n, Reached 4096 live c ∧ c.Stock 5 d 0 n ∧
      0 < d ∧ 0 < n :=
    values_used_up (Nat.le_refl 5) (show Flavor.nvecs (.array 32) * 8 = 2 ^ (3 + 5) from rfl) fresh (by decide) stock
      (by decide) (by decide)
  obtain ⟨-, own, dummies, shared, accounts⟩ := reached.accounts
  obtain ⟨daddr, vaddr, naddr, dir, vec, nameses, answers, some, none, -⟩ :=
    stock.answers (Nat.le_refl 5) accounts.sound reached.paged
  obtain ⟨a, rfl⟩ := Option.ne_none_iff_exists'.mp (mt some.mp (by omega))
  obtain rfl := none.mpr rfl
  have answers : c.Answers (32 * 8) (ascii "a/pkts/x").length (.some a) .none naddr dir vec nameses := answers
  have got := answers.get_undo_dir (by decide) (by decide) rfl rfl
  have oneBin : dir.bins.length ≤ 1 := accounts.sound.dir_oneBin answers.dir
  have taken := Bin.Sound.get accounts.sound.dir answers.dir
  have failed : ∀ r, c.get (ascii "a/pkts/x") 32 ≠ .ok r := by
    intro r run
    rw [got] at run
    obtain ⟨dir', freed, -⟩ := Except.bind_ok_iff.mp run
    exact (undo_dir taken oneBin (by decide) (by decide)).2 (by decide) dir' freed
  exact ⟨live, c, reached, failed_not_harmless array_named failed, failed_new array_named failed⟩

/-- With nothing left in any area a creation gives the dummy. -/
theorem running_out_harmless_used_up : ∃ live c, Reached 4096 live c ∧ ¬c.dir.CanSupply BinInfo.dir.binsz ∧
    ¬c.vec.CanSupply 8 ∧ ¬c.names.CanSupply 8 ∧ ∃ h c',
      Flavor.new .counter c (ascii "a") .pkts (ascii "x") = .ok (h, c') ∧
      IsDummy c' ⟨ascii "a/pkts/x", .counter, h⟩ := by
  obtain ⟨c₀, fresh, -, stock⟩ := new_stock
  obtain ⟨live, c, reached, stock⟩ : ∃ live c, Reached 4096 live c ∧ c.Stock 0 0 0 0 :=
    areas_used_up (Nat.zero_le 5) (show Flavor.nvecs .counter * 8 = 2 ^ (3 + 0) from rfl) fresh (by decide) stock
      (by decide) (by decide) (Nat.le_refl 2096127) (by decide)
  obtain ⟨-, own, dummies, shared, accounts⟩ := reached.accounts
  obtain ⟨daddr, vaddr, naddr, dir, vec, names, answers, entry, value, text, -⟩ :=
    stock.answers (Nat.zero_le 5) accounts.sound reached.paged
  have noEntry : ¬c.dir.CanSupply BinInfo.dir.binsz := fun can => (Bin.canSupply_iff answers.dir).mp can (entry.mpr rfl)
  have noValue : ¬c.vec.CanSupply 8 := fun can => (Bin.canSupply_iff answers.vec).mp can (value.mpr rfl)
  have noText : ¬c.names.CanSupply 8 := fun can => (Bin.canSupply_iff answers.names).mp can (text.mpr rfl)
  obtain ⟨full, named, harmless⟩ : ∃ full, counterName (ascii "a") .pkts (ascii "x") = .ok full ∧
      (c.Harmless .counter (ascii "a") .pkts (ascii "x") full ↔ c.Undone .counter full) :=
    running_out_harmless_iff reached (by decide) (by decide) (by decide +kernel)
  cases Except.ok.inj (array_named.symm.trans named)
  obtain ⟨h, c', made, law⟩ := harmless.mpr (Or.inr (Or.inr ⟨noEntry, noValue, noText⟩))
  exact ⟨live, c, reached, noEntry, noValue, noText, h, c', made, (law fun all => noEntry all.1).1⟩

end Counters

end R2
