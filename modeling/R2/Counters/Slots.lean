import R2.Counters.Alloc
import R2.Counters.Flavors

namespace R2

/-- A name fits the area of names. -/
theorem counterName_length {node name full : List UInt8} {ctype : CounterType}
    (run : counterName node ctype name = .ok full) : full.length ≤ 64 := by
  unfold counterName at run
  dsimp only at run
  split at run
  · rename_i short
    cases Except.ok.inj run
    exact List.getElem?_eq_none_iff.mp short
  · split at run
    · cases Except.ok.inj run
      exact List.length_take_le _ _
    · cases run

/-- What one counter occupies, as offsets into the three areas. -/
structure Slot where
  dirOff : Nat
  vecOff : Nat
  vecLen : Nat
  nameOff : Nat
  name : List UInt8
deriving DecidableEq, Repr

namespace Slot

def dirObject (s : Slot) : Nat × Nat := (s.dirOff, BinInfo.dir.binsz)

def vecObject (s : Slot) : Nat × Nat := (s.vecOff, s.vecLen)

def nameObject (s : Slot) : Nat × Nat := (s.nameOff, s.name.length)

/-- The directory entry that leads to it. -/
def entry (s : Slot) : Dir :=
  { nameOff := BinInfo.name.start + s.nameOff, nameLen := s.name.length,
    vecOff := BinInfo.vec.start + s.vecOff, vecLen := s.vecLen }

end Slot

/-- An allocator of the objects of an area. -/
def BinInfo.Sound (info : BinInfo) (objects : List (Nat × Nat)) (bin : Bin) : Prop :=
  Bin.Sound (Nat.clog 2 info.binsz) info.totsz objects bin

namespace Shm

theorem writeBytes_dirs (shm : Shm) (off : Nat) (name : List UInt8) : (shm.writeBytes off name).dirs = shm.dirs := by
  induction name generalizing shm off with
  | nil => rfl
  | cons byte name ih => exact (ih _ _).trans rfl

theorem writeBytes_cells (shm : Shm) (off : Nat) (name : List UInt8) :
    (shm.writeBytes off name).cells = shm.cells := by
  induction name generalizing shm off with
  | nil => rfl
  | cons byte name ih => exact (ih _ _).trans rfl

theorem writeBytes_of_outside {shm : Shm} {off pos : Nat} {name : List UInt8}
    (outside : pos < off ∨ off + name.length ≤ pos) : (shm.writeBytes off name).bytes pos = shm.bytes pos := by
  induction name generalizing shm off with
  | nil => rfl
  | cons byte name ih =>
    rw [List.length_cons] at outside
    rw [writeBytes, ih (by omega)]
    exact Function.update_of_ne (by omega) _ _

theorem writeBytes_read {shm : Shm} {off i : Nat} {name : List UInt8} (inside : i < name.length) :
    (shm.writeBytes off name).bytes (off + i) = name[i] := by
  induction name generalizing shm off i with
  | nil => cases inside
  | cons byte name ih =>
    cases i with
    | zero =>
      rw [writeBytes, writeBytes_of_outside (by omega)]
      exact Function.update_self ..
    | succ i =>
      rw [writeBytes, show off + (i + 1) = off + 1 + i by omega]
      exact ih (by rw [List.length_cons] at inside; omega)

end Shm

namespace Counters

/-- The slots in use: each has its objects in the three areas, its entry in the
directory and its name behind the entry, and all other entries are empty. -/
structure Sound (slots : List Slot) (c : Counters) : Prop where
  dir : BinInfo.dir.Sound (slots.map Slot.dirObject) c.dir
  vec : BinInfo.vec.Sound (slots.map Slot.vecObject) c.vec
  names : BinInfo.name.Sound (slots.map Slot.nameObject) c.names
  oneBin : c.dir.bins.length ≤ 1
  entries : ∀ s ∈ slots, c.shm.dirs (BinInfo.dir.start + s.dirOff) = s.entry
  empty : ∀ off, (∀ s ∈ slots, off ≠ BinInfo.dir.start + s.dirOff) → c.shm.dirs off = ⟨0, 0, 0, 0⟩
  named : ∀ s ∈ slots, ∀ i (inside : i < s.name.length),
    c.shm.bytes (BinInfo.name.start + s.nameOff + i) = s.name[i]
  counted : ∀ s ∈ slots, s.dirOff + BinInfo.dir.binsz ≤ BinInfo.dir.binsz * c.shm.numCounters

/-- The parts of the pool that a call leaves alone. -/
structure Kept (c c' : Counters) : Prop where
  base : c'.base = c.base
  dummies : c'.dummies = c.dummies
  cells : c'.shm.cells = c.shm.cells

namespace Sound

variable {slots : List Slot} {c c' : Counters}

/-- A directory entry that goes back under the size of the values goes to the
only bin there is. -/
theorem dir_undo {objects : List (Nat × Nat)} {dir dir' : Bin} {daddr veclen : Nat}
    (sound : BinInfo.dir.Sound ((daddr, BinInfo.dir.binsz) :: objects) dir) (oneBin : dir.bins.length ≤ 1)
    (run : dir.free daddr veclen = .ok dir') : BinInfo.dir.Sound objects dir' ∧ dir'.bins.length ≤ 1 := by
  obtain ⟨_, _, known, pushed⟩ := Bin.Sound.free_eq_ok sound |>.mp run
  have first : Bin.classOf (Nat.clog 2 BinInfo.dir.binsz) veclen = 0 := by omega
  have same : Bin.classOf (Nat.clog 2 BinInfo.dir.binsz) BinInfo.dir.binsz = 0 := Nat.sub_self _
  have pushed' := pushed
  rw [first, ← same] at pushed'
  refine ⟨Bin.Sound.give sound pushed', ?_⟩
  obtain ⟨bins, pushed'', length, _⟩ := Bin.pushFront_ok daddr known
  cases Except.ok.inj (pushed.symm.trans pushed'')
  exact Nat.le_trans (Nat.le_of_eq length) oneBin

/-- Objects of areas that no slot owns may be lost. -/
theorem areas {dir vec names : Bin} (sound : Sound slots c) (dirs : BinInfo.dir.Sound (slots.map Slot.dirObject) dir)
    (vecs : BinInfo.vec.Sound (slots.map Slot.vecObject) vec)
    (nameses : BinInfo.name.Sound (slots.map Slot.nameObject) names) (oneBin : dir.bins.length ≤ 1) :
    Sound slots { c with dir, vec, names } :=
  { sound with dir := dirs, vec := vecs, names := nameses, oneBin := oneBin }

/-- The entry, the name and the count are written for the new slot. -/
theorem add {s : Slot} {dir vec names : Bin} (sound : Sound slots c)
    (dirs : BinInfo.dir.Sound ((s :: slots).map Slot.dirObject) dir)
    (vecs : BinInfo.vec.Sound ((s :: slots).map Slot.vecObject) vec)
    (nameses : BinInfo.name.Sound ((s :: slots).map Slot.nameObject) names) (oneBin : dir.bins.length ≤ 1) :
    Sound (s :: slots) { c with
      dir := dir, vec := vec, names := names
      shm := { (c.shm.writeBytes (BinInfo.name.start + s.nameOff) s.name).writeDir (BinInfo.dir.start + s.dirOff)
        s.entry with numCounters := dir.offset % 2 ^ 32 / BinInfo.dir.binsz } } where
  dir := dirs
  vec := vecs
  names := nameses
  oneBin := oneBin
  entries s' member := by
    rcases List.mem_cons.mp member with rfl | old
    · exact Function.update_self ..
    · have apart := (List.pairwise_cons.mp dirs.apart).1 _ (List.mem_map_of_mem old)
      have other : BinInfo.dir.start + s'.dirOff ≠ BinInfo.dir.start + s.dirOff := by
        unfold Block.Apart Block.stop at apart
        simp only [Bin.asked, Slot.dirObject, BinInfo.dir] at apart ⊢
        omega
      exact (Function.update_of_ne other _ _).trans
        ((congrFun (Shm.writeBytes_dirs ..) _).trans (sound.entries s' old))
  empty off none := by
    have other := none s (List.mem_cons_self ..)
    have old := sound.empty off fun s' member => none s' (List.mem_cons_of_mem _ member)
    exact (Function.update_of_ne other _ _).trans ((congrFun (Shm.writeBytes_dirs ..) _).trans old)
  named s' member i inside := by
    rcases List.mem_cons.mp member with rfl | old
    · exact Shm.writeBytes_read inside
    · have apart := (List.pairwise_cons.mp nameses.apart).1 _ (List.mem_map_of_mem old)
      refine Eq.trans ?_ (sound.named s' old i inside)
      refine Shm.writeBytes_of_outside ?_
      unfold Block.Apart Block.stop at apart
      simp only [Bin.asked, Slot.nameObject] at apart
      omega
  counted s' member := by
    have below := dirs.below (List.mem_map_of_mem (f := Slot.dirObject) member)
    have inside : dir.offset ≤ BinInfo.dir.totsz := dirs.inside
    have whole : BinInfo.dir.binsz ∣ dir.offset := by
      have grain : 2 ^ Nat.clog 2 BinInfo.dir.binsz = BinInfo.dir.binsz := pow2_two_pow 4
      exact grain ▸ dirs.binsz ▸ dirs.cut.whole
    simp only [Slot.dirObject, BinInfo.dir] at below inside whole ⊢
    omega

theorem get {name : List UInt8} {nvecs d v : Nat} (sound : Sound slots c) (short : name.length ≤ 64)
    (run : c.get name nvecs = .ok ((d, v), c')) : Kept c c' ∧ (d = 0 ∧ Sound slots c' ∨
      ∃ s : Slot, s.name = name ∧ s.vecLen = nvecs % 2 ^ 32 * BinInfo.vec.binsz ∧
        d = c.base + BinInfo.dir.start + s.dirOff ∧ v = c.base + BinInfo.vec.start + s.vecOff ∧
          Sound (s :: slots) c') := by
  obtain ⟨veclen, fits, run⟩ := Except.bind_ok_iff.mp run
  obtain ⟨_, rfl⟩ := mul32_ok.mp fits
  obtain ⟨⟨daddr, dir⟩, getDir, run⟩ := Except.bind_ok_iff.mp run
  obtain ⟨⟨vaddr, vec⟩, getVec, run⟩ := Except.bind_ok_iff.mp run
  obtain ⟨⟨naddr, names⟩, getName, run⟩ := Except.bind_ok_iff.mp run
  rw [Nat.mod_eq_of_lt (by omega : name.length < 2 ^ 32)] at getName run
  have dirs := Bin.Sound.get sound.dir getDir
  have vecs := Bin.Sound.get sound.vec getVec
  have nameses := Bin.Sound.get sound.names getName
  have oneBin : dir.bins.length ≤ 1 := by
    have grown : dir.bins.length ≤ _ := ((Bin.Sound.get_noPanic sound.dir _).ok getDir).2
    have := sound.oneBin
    rw [Bin.classOf, Nat.sub_self] at grown
    omega
  cases daddr with
  | none =>
    cases Except.ok.inj run
    have vecs := vecs.sublist (List.sublist_append_right ..)
    have nameses := nameses.sublist (List.sublist_append_right ..)
    exact ⟨⟨rfl, rfl, rfl⟩, Or.inl ⟨rfl, sound.areas dirs vecs nameses oneBin⟩⟩
  | some daddr =>
    cases vaddr with
    | none =>
      obtain ⟨dir', freeDir, run⟩ := Except.bind_ok_iff.mp run
      cases Except.ok.inj run
      obtain ⟨dirs, oneBin⟩ := dir_undo dirs oneBin freeDir
      have nameses := nameses.sublist (List.sublist_append_right ..)
      exact ⟨⟨rfl, rfl, rfl⟩, Or.inl ⟨rfl, sound.areas dirs vecs nameses oneBin⟩⟩
    | some vaddr =>
      cases naddr with
      | none =>
        obtain ⟨dir', freeDir, run⟩ := Except.bind_ok_iff.mp run
        obtain ⟨vec', freeVec, run⟩ := Except.bind_ok_iff.mp run
        cases Except.ok.inj run
        obtain ⟨dirs, oneBin⟩ := dir_undo dirs oneBin freeDir
        exact ⟨⟨rfl, rfl, rfl⟩, Or.inl ⟨rfl, sound.areas dirs (vecs.free freeVec) nameses oneBin⟩⟩
      | some naddr =>
        simp only [Except.bind_ok_iff, add64_ok, Except.ok.injEq, Prod.mk.injEq] at run
        obtain ⟨_, ⟨_, rfl⟩, _, ⟨_, rfl⟩, _, ⟨_, rfl⟩, _, ⟨_, rfl⟩, _, ⟨_, rfl⟩, _, ⟨_, rfl⟩, ⟨rfl, rfl⟩, rfl⟩ := run
        have vecEnd : vaddr ≤ vec.offset := Nat.le_trans (Nat.le_add_right ..) (vecs.below (List.mem_cons_self ..))
        have vecInside : vec.offset ≤ BinInfo.vec.totsz := Bin.Sound.inside vecs
        have nameEnd : naddr ≤ names.offset :=
          Nat.le_trans (Nat.le_add_right ..) (nameses.below (List.mem_cons_self ..))
        have nameInside : names.offset ≤ BinInfo.name.totsz := Bin.Sound.inside nameses
        have dirOff : daddr + c.base + BinInfo.dir.start - c.base = BinInfo.dir.start + daddr := by omega
        have vecOff : (vaddr + c.base + BinInfo.vec.start - c.base) % 2 ^ 32 = BinInfo.vec.start + vaddr := by
          simp only [BinInfo.vec, BinInfo.dir] at vecInside ⊢
          omega
        have nameOff : naddr + c.base + BinInfo.name.start - c.base = BinInfo.name.start + naddr := by omega
        have nameFits : (BinInfo.name.start + naddr) % 2 ^ 32 = BinInfo.name.start + naddr := by
          simp only [BinInfo.name, BinInfo.vec, BinInfo.dir] at nameInside ⊢
          omega
        rw [dirOff, vecOff, nameOff, nameFits]
        have dirAddr : daddr + c.base + BinInfo.dir.start = c.base + BinInfo.dir.start + daddr := by omega
        have vecAddr : vaddr + c.base + BinInfo.vec.start = c.base + BinInfo.vec.start + vaddr := by omega
        exact ⟨⟨rfl, rfl, Shm.writeBytes_cells ..⟩,
          Or.inr ⟨⟨daddr, vaddr, _, naddr, name⟩, rfl, rfl, dirAddr, vecAddr,
          sound.add dirs vecs nameses oneBin⟩⟩

/-- The directory has no more entries than its area holds. -/
theorem get_few {name : List UInt8} {nvecs d v : Nat} (sound : Sound slots c)
    (run : c.get name nvecs = .ok ((d, v), c')) (short : name.length ≤ 64) (few : c.shm.numCounters ≤ 2 ^ 18) :
    c'.shm.numCounters ≤ 2 ^ 18 := by
  have inside : c'.dir.offset ≤ BinInfo.dir.totsz := by
    obtain ⟨_, ⟨_, sound⟩ | ⟨_, _, _, _, _, sound⟩⟩ := sound.get short run
    · exact Bin.Sound.inside sound.dir
    · exact Bin.Sound.inside sound.dir
  obtain ⟨veclen, _, run⟩ := Except.bind_ok_iff.mp run
  obtain ⟨⟨daddr, dir⟩, _, run⟩ := Except.bind_ok_iff.mp run
  obtain ⟨⟨vaddr, vec⟩, _, run⟩ := Except.bind_ok_iff.mp run
  obtain ⟨⟨naddr, names⟩, _, run⟩ := Except.bind_ok_iff.mp run
  cases daddr with
  | none =>
    cases Except.ok.inj run
    exact few
  | some daddr =>
    cases vaddr with
    | none =>
      obtain ⟨_, _, run⟩ := Except.bind_ok_iff.mp run
      cases Except.ok.inj run
      exact few
    | some vaddr =>
      cases naddr with
      | none =>
        obtain ⟨_, _, run⟩ := Except.bind_ok_iff.mp run
        obtain ⟨_, _, run⟩ := Except.bind_ok_iff.mp run
        cases Except.ok.inj run
        exact few
      | some naddr =>
        simp only [Except.bind_ok_iff, add64_ok, Except.ok.injEq, Prod.mk.injEq] at run
        obtain ⟨_, _, _, _, _, _, _, _, _, _, _, _, _, rfl⟩ := run
        simp only [BinInfo.dir] at inside ⊢
        omega

theorem free {s : Slot} (sound : Sound (s :: slots) c)
    (run : c.free (c.base + BinInfo.dir.start + s.dirOff) = .ok c') :
    Kept c c' ∧ Sound slots c' := by
  have addr : c.base + BinInfo.dir.start + s.dirOff - c.base = BinInfo.dir.start + s.dirOff := by omega
  have entry := sound.entries s (List.mem_cons_self ..)
  unfold Counters.free at run
  rw [addr, entry] at run
  obtain ⟨noff, subName, run⟩ := Except.bind_ok_iff.mp run
  obtain ⟨names, freeName, run⟩ := Except.bind_ok_iff.mp run
  obtain ⟨voff, subVec, run⟩ := Except.bind_ok_iff.mp run
  obtain ⟨vec, freeVec, run⟩ := Except.bind_ok_iff.mp run
  obtain ⟨start, sum, run⟩ := Except.bind_ok_iff.mp run
  obtain ⟨_, rfl⟩ := add64_ok.mp sum
  obtain ⟨daddr, sub, run⟩ := Except.bind_ok_iff.mp run
  obtain ⟨_, rfl⟩ := sub64_ok.mp sub
  obtain ⟨dir, freeDir, run⟩ := Except.bind_ok_iff.mp run
  cases Except.ok.inj run
  rw [Nat.add_sub_cancel_left] at freeDir
  have nameOff : noff = s.nameOff := (sub64_ok.mp subName).2.trans (Nat.add_sub_cancel_left ..)
  have vecOff : voff = s.vecOff := (sub64_ok.mp subVec).2.trans (Nat.add_sub_cancel_left ..)
  subst nameOff vecOff
  obtain ⟨dirs, oneBin⟩ := dir_undo sound.dir sound.oneBin freeDir
  have apart := (List.pairwise_cons.mp (Bin.Sound.apart sound.dir)).1
  refine ⟨⟨rfl, rfl, rfl⟩, ?_⟩
  exact {
    dir := dirs
    vec := Bin.Sound.free sound.vec freeVec
    names := Bin.Sound.free sound.names freeName
    oneBin := oneBin
    entries := fun s' member => by
      have apart := apart _ (List.mem_map_of_mem member)
      have other : BinInfo.dir.start + s'.dirOff ≠ BinInfo.dir.start + s.dirOff := by
        unfold Block.Apart Block.stop at apart
        simp only [Bin.asked, Slot.dirObject, BinInfo.dir] at apart ⊢
        omega
      exact (Function.update_of_ne other _ _).trans (sound.entries s' (List.mem_cons_of_mem _ member))
    empty := fun off none => by
      by_cases here : off = BinInfo.dir.start + s.dirOff
      · subst here
        exact Function.update_self ..
      · refine (Function.update_of_ne here _ _).trans (sound.empty off fun s' member => ?_)
        rcases List.mem_cons.mp member with rfl | old
        · exact here
        · exact none s' old
    named := fun s' member => sound.named s' (List.mem_cons_of_mem _ member)
    counted := fun s' member => sound.counted s' (List.mem_cons_of_mem _ member) }

end Sound

end Counters

end R2
