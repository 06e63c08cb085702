import R2.Base.Blocks
import R2.Counters.Bin

namespace R2

/-- The objects of a list of bins, whose sizes double from one to the next. -/
def waitingFrom (width : Nat) : List (List Nat) → List Block
  | [] => []
  | objects :: bins => objects.map (fun base => ⟨base, width⟩) ++ waitingFrom (2 * width) bins

theorem waitingFrom_set (width : Nat) {i base : Nat} {bins : List (List Nat)} {objects rest : List Nat}
    (here : bins[i]? = some objects) (perm : objects.Perm (base :: rest)) :
    (waitingFrom width bins).Perm (⟨base, width * 2 ^ i⟩ :: waitingFrom width (bins.set i rest)) := by
  induction bins generalizing width i with
  | nil => cases here
  | cons first bins ih =>
    cases i with
    | zero =>
      cases Option.some.inj here
      rw [Nat.pow_zero, Nat.mul_one]
      exact (perm.map fun base => (⟨base, width⟩ : Block)).append_right _
    | succ i =>
      have later := ih (2 * width) here
      have double : 2 * width * 2 ^ i = width * 2 ^ (i + 1) := by
        rw [Nat.pow_succ, Nat.mul_comm 2, Nat.mul_assoc, Nat.mul_comm 2]
      rw [double] at later
      exact (later.append_left _).trans List.perm_middle

theorem waitingFrom_append_nil (width k : Nat) (bins : List (List Nat)) :
    waitingFrom width (bins ++ List.replicate k []) = waitingFrom width bins := by
  induction bins generalizing width with
  | nil =>
    induction k generalizing width with
    | zero => rfl
    | succ k ih => simpa only [List.replicate_succ, List.nil_append, waitingFrom, List.map_nil] using ih (2 * width)
  | cons objects bins ih => simp only [List.cons_append, waitingFrom, ih]

theorem mem_waitingFrom {width i base : Nat} {bins : List (List Nat)} {objects : List Nat}
    (here : bins[i]? = some objects) (member : base ∈ objects) :
    (⟨base, width * 2 ^ i⟩ : Block) ∈ waitingFrom width bins :=
  (waitingFrom_set width here (List.perm_cons_erase member)).mem_iff.mpr (List.mem_cons_self ..)

namespace Bin

def waiting (bin : Bin) : List Block := waitingFrom bin.binsz bin.bins

/-- The place of the bin for objects of `size` when the smallest hold `2 ^ b`. -/
def classOf (b size : Nat) : Nat := Nat.clog 2 size - b

/-- The memory of an allocated object, given as its base and the size asked for. -/
def held (b : Nat) (object : Nat × Nat) : Block := ⟨object.1, Max.max (pow2 object.2) (2 ^ b)⟩

theorem max_pow2 (b size : Nat) : Max.max (pow2 size) (2 ^ b) = 2 ^ b * 2 ^ classOf b size := by
  rw [← Nat.pow_add]
  unfold pow2 classOf
  rcases Nat.le_total (Nat.clog 2 size) b with below | above
  · rw [Nat.max_eq_right (Nat.pow_le_pow_right Nat.two_pos below), Nat.sub_eq_zero_of_le below, Nat.add_zero]
  · rw [Nat.max_eq_left (Nat.pow_le_pow_right Nat.two_pos above), Nat.add_sub_cancel' above]

theorem held_eq {bin : Bin} {b : Nat} (binsz : bin.binsz = 2 ^ b) (base size : Nat) :
    held b (base, size) = ⟨base, bin.binsz * 2 ^ classOf b size⟩ := by
  rw [binsz, ← max_pow2]
  rfl

/-- A bin allocator for a range of `limit` bytes with the objects handed out:
they and the waiting ones were cut from the range one by one. -/
structure Sound (b limit : Nat) (objects : List (Nat × Nat)) (bin : Bin) : Prop where
  binsz : bin.binsz = 2 ^ b
  order : b ≤ 31
  zeroes : bin.zeroes = 31 - b
  pagesz : ∃ p ≤ 31, bin.pagesz = 2 ^ p
  max : bin.max = limit
  cut : Cut bin.binsz (objects.map (held b) ++ bin.waiting) bin.offset
  inside : bin.offset ≤ limit
  known : ∀ object ∈ objects, 1 ≤ object.2 ∧ object.2 ≤ 2 ^ 31 ∧ classOf b object.2 < bin.bins.length

theorem pushFront_ok {bin : Bin} {i : Nat} (base : Nat) (known : i < bin.bins.length) :
    ∃ bins, bin.pushFront i base = .ok { bin with bins } ∧ bins.length = bin.bins.length ∧
      ∀ width, (waitingFrom width bins).Perm (⟨base, width * 2 ^ i⟩ :: waitingFrom width bin.bins) := by
  refine ⟨bin.bins.set i (base :: bin.bins[i]), ?_, List.length_set, fun width => ?_⟩
  · unfold pushFront
    rw [List.getElem?_eq_getElem known]
  · have back := waitingFrom_set width (List.getElem?_set_self (a := base :: bin.bins[i]) known)
      (List.Perm.refl (base :: bin.bins[i]))
    simpa only [List.set_set, List.set_getElem_self] using back

/-- A refilled bin allocator: the objects it has cut are waiting. -/
def Refilled (live : List Block) (bytes : Nat) (bin bin' : Bin) : Prop :=
  ∃ bins, bin' = { bin with bins, offset := bin.offset + bytes } ∧ bins.length = bin.bins.length ∧
    Cut bin.binsz (live ++ bin'.waiting) bin'.offset

theorem Refilled.none {live : List Block} {bin : Bin} (cut : Cut bin.binsz (live ++ bin.waiting) bin.offset) :
    Refilled live 0 bin bin := ⟨bin.bins, rfl, rfl, cut⟩

/-- The loop of `resize` cuts its objects one after the other, and ends. -/
theorem fill_noPanic {size index alloc fuel i : Nat} {bin : Bin} {live : List Block} (known : index < bin.bins.length)
    (width : size = bin.binsz * 2 ^ index) (pos : 0 < size) (whole : size ∣ alloc - i) (enough : alloc - i ≤ fuel)
    (cut : Cut bin.binsz (live ++ bin.waiting) bin.offset) :
    NoPanic (fill size index alloc fuel i bin) (Refilled live (alloc - i) bin) := by
  induction fuel generalizing i bin with
  | zero =>
    refine Ensures.ite (fun more => absurd more (by omega)) fun past => ?_
    rw [Nat.sub_eq_zero_of_le (not_lt.mp past)]
    exact .none cut
  | succ fuel ih =>
    refine Ensures.ite (fun more => ?_) fun past => ?_
    · obtain ⟨bins, pushed, length, perm⟩ := pushFront_ok bin.offset known
      rw [pushed, Except.ok_bind]
      refine (add32_noPanic i size).bind fun i' stepped => ?_
      refine (add64_noPanic bin.offset size).bind fun offset moved => ?_
      subst stepped moved
      have fits : size ≤ alloc - i := Nat.le_of_dvd (by omega) whole
      have left : alloc - i = alloc - (i + size) + size := by omega
      have cut' : Cut bin.binsz (live ++ waitingFrom bin.binsz bins) (bin.offset + size) := by
        refine (cut.next (width ▸ Nat.dvd_mul_right ..)).perm (List.perm_middle.symm.trans ?_)
        rw [width]
        exact (perm bin.binsz).symm.append_left live
      have whole' : size ∣ alloc - (i + size) := (Nat.dvd_add_left (Nat.dvd_refl size)).mp (left ▸ whole)
      have known' : index < ({ bin with bins, offset := bin.offset + size } : Bin).bins.length := length ▸ known
      refine (ih known' width whole' (by omega) cut').mono fun bin' refilled => ?_
      obtain ⟨bins', rfl, length', cut'⟩ := refilled
      have total : bin.offset + size + (alloc - (i + size)) = bin.offset + (alloc - i) := by omega
      exact ⟨bins', congrArg (fun offset => { bin with bins := bins', offset }) total, length'.trans length, cut'⟩
    · rw [Nat.sub_eq_zero_of_le (not_lt.mp past)]
      exact .none cut

/-- A refill is a whole number of objects. -/
theorem resizeAlloc_noPanic {bin : Bin} {p k : Nat} (pagesz : bin.pagesz = 2 ^ p) :
    NoPanic (bin.resizeAlloc (2 ^ k)) (2 ^ k ∣ ·) := by
  have pos : 0 < 2 ^ p := Nat.two_pow_pos p
  unfold resizeAlloc
  rw [pagesz]
  refine Ensures.ite (fun large => ?_) fun small => ?_
  · have whole : 2 ^ p ∣ 2 ^ k :=
      Nat.pow_dvd_pow 2 (Nat.le_of_lt ((Nat.pow_lt_pow_iff_right Nat.one_lt_two).mp large))
    rw [if_neg (by omega), if_neg (not_not.mpr (Nat.mod_eq_zero_of_dvd whole))]
    refine (mul32_noPanic _ _).bind fun bytes product => ?_
    rw [product, Nat.mul_div_cancel_left _ pos]
    exact Nat.dvd_refl _
  · exact Nat.pow_dvd_pow 2 ((Nat.pow_le_pow_iff_right Nat.one_lt_two).mp (not_lt.mp small))

theorem resize_noPanic {bin : Bin} {b p index : Nat} {live : List Block} (binsz : bin.binsz = 2 ^ b)
    (pagesz : bin.pagesz = 2 ^ p) (known : index < bin.bins.length) (inside : bin.offset ≤ bin.max)
    (cut : Cut bin.binsz (live ++ bin.waiting) bin.offset) :
    NoPanic (bin.resize (2 ^ b * 2 ^ index) index) fun bin' =>
      ∃ bytes, bin.offset + bytes ≤ bin.max ∧ Refilled live bytes bin bin' := by
  unfold resize
  rw [← Nat.pow_add]
  refine (resizeAlloc_noPanic pagesz).bind fun alloc whole => ?_
  refine (add64_noPanic _ _).bind fun stop sum => ?_
  refine Ensures.ite (fun room => ?_) fun _ => ⟨0, inside, .none cut⟩
  have width : 2 ^ (b + index) = bin.binsz * 2 ^ index := by rw [binsz, Nat.pow_add]
  refine (fill_noPanic known width (Nat.two_pow_pos _) whole (Nat.sub_le ..) cut).mono fun bin' refilled => ?_
  exact ⟨alloc, by omega, refilled⟩

theorem index_noPanic {bin : Bin} {b size : Nat} (binsz : bin.binsz = 2 ^ b) (zeroes : bin.zeroes = 31 - b) :
    NoPanic (bin.index size) fun found =>
      1 ≤ size ∧ size ≤ 2 ^ 31 ∧ found.1 = 2 ^ b * 2 ^ classOf b size ∧ found.2 = classOf b size := by
  refine (pow2U32_noPanic size).bind fun rounded post => ?_
  obtain ⟨pos, small, rfl⟩ := post
  refine (sub32_noPanic _ _).bind fun i post => ?_
  obtain ⟨_, rfl⟩ := post
  have top : Nat.clog 2 size ≤ 31 := (Nat.clog_le_iff_le_pow Nat.one_lt_two).mpr small
  rw [ensures_ok, zeroes, binsz, max_pow2]
  refine ⟨pos, small, rfl, ?_⟩
  rw [← Nat.pow_add, leadingZeros_two_pow]
  unfold classOf
  omega

theorem index_ok {bin : Bin} {b size : Nat} (binsz : bin.binsz = 2 ^ b) (order : b ≤ 31)
    (zeroes : bin.zeroes = 31 - b) (pos : 1 ≤ size) (small : size ≤ 2 ^ 31) :
    bin.index size = .ok (2 ^ b * 2 ^ classOf b size, classOf b size) := by
  have top : Nat.clog 2 size ≤ 31 := (Nat.clog_le_iff_le_pow Nat.one_lt_two).mpr small
  unfold index
  rw [pow2U32_ok.mpr ⟨pos, small, rfl⟩, Except.ok_bind]
  dsimp only
  rw [binsz, zeroes, max_pow2, ← Nat.pow_add, leadingZeros_two_pow, sub32_ok.mpr ⟨?_, rfl⟩, Except.ok_bind]
  · congr 2
    unfold classOf
    omega
  · omega

namespace Sound

variable {b limit : Nat} {objects : List (Nat × Nat)} {bin : Bin}

theorem new {binsz pagesz : Nat} (run : Bin.new binsz limit pagesz = .ok bin) :
    Sound (Nat.clog 2 binsz) limit [] bin := by
  obtain ⟨rounded, size, run⟩ := Except.bind_ok_iff.mp run
  obtain ⟨page, pages, run⟩ := Except.bind_ok_iff.mp run
  obtain ⟨_, small, rfl⟩ := pow2U32_ok.mp size
  obtain ⟨_, smallPage, rfl⟩ := pow2U32_ok.mp pages
  cases Except.ok.inj run
  exact {
    binsz := rfl
    order := (Nat.clog_le_iff_le_pow Nat.one_lt_two).mpr small
    zeroes := leadingZeros_two_pow
    pagesz := ⟨_, (Nat.clog_le_iff_le_pow Nat.one_lt_two).mpr smallPage, rfl⟩
    max := rfl
    cut := .nil _
    inside := Nat.zero_le _
    known := fun _ member => nomatch member }

theorem perm {objects' : List (Nat × Nat)} (sound : Sound b limit objects bin) (perm : objects.Perm objects') :
    Sound b limit objects' bin :=
  { sound with
    cut := sound.cut.perm ((perm.map (held b)).append_right _)
    known := fun object member => sound.known object (perm.mem_iff.mpr member) }

/-- Objects may be lost. -/
theorem sublist {objects' : List (Nat × Nat)} (sound : Sound b limit objects bin) (sub : objects'.Sublist objects) :
    Sound b limit objects' bin :=
  { sound with
    cut := sound.cut.sublist ((sub.map (held b)).append_right _)
    known := fun object member => sound.known object (sub.subset member) }

theorem extend (sound : Sound b limit objects bin) (k : Nat) :
    Sound b limit objects { bin with bins := bin.bins ++ List.replicate k [] } := by
  refine { sound with cut := ?_, known := fun object member => ?_ }
  · rw [waiting, waitingFrom_append_nil]
    exact sound.cut
  · obtain ⟨pos, small, known⟩ := sound.known object member
    exact ⟨pos, small, by rw [List.length_append]; omega⟩

theorem refilled {bytes : Nat} {bin' : Bin} (sound : Sound b limit objects bin) (room : bin.offset + bytes ≤ limit)
    (refilled : Refilled (objects.map (held b)) bytes bin bin') : Sound b limit objects bin' := by
  obtain ⟨bins, rfl, length, cut⟩ := refilled
  exact { sound with
    cut := cut
    inside := room
    known := fun object member => length ▸ sound.known object member }

/-- An object leaves the bin of its size. -/
theorem take {size base : Nat} {bases rest : List Nat} (sound : Sound b limit objects bin) (pos : 1 ≤ size)
    (small : size ≤ 2 ^ 31) (here : bin.bins[classOf b size]? = some bases) (perm : bases.Perm (base :: rest)) :
    Sound b limit ((base, size) :: objects) { bin with bins := bin.bins.set (classOf b size) rest } := by
  refine { sound with cut := ?_, known := fun object member => ?_ }
  · have moved := waitingFrom_set bin.binsz here perm
    rw [List.map_cons, held_eq sound.binsz, List.cons_append]
    exact sound.cut.perm ((moved.append_left _).trans List.perm_middle)
  · rw [List.length_set]
    rcases List.mem_cons.mp member with rfl | old
    · exact ⟨pos, small, (List.getElem?_eq_some_iff.mp here).1⟩
    · exact sound.known object old

/-- `get` hands out an object that was waiting or one it has just cut. -/
theorem get_noPanic (sound : Sound b limit objects bin) (size : Nat) :
    NoPanic (bin.get size) fun result =>
      Sound b limit (result.1.toList.map (fun base => (base, size)) ++ objects) result.2 ∧
        result.2.bins.length ≤ Max.max bin.bins.length (classOf b size + 1) := by
  refine Ensures.ite (fun _ => ⟨sound, Nat.le_max_left ..⟩) fun _ => ?_
  refine (index_noPanic sound.binsz sound.zeroes).bind fun found post => ?_
  obtain ⟨width, i⟩ := found
  obtain ⟨pos, small, rfl, rfl⟩ := post
  dsimp only
  have wide := sound.extend (classOf b size + 1 - bin.bins.length)
  have length : (bin.bins ++ List.replicate (classOf b size + 1 - bin.bins.length) []).length =
      Max.max bin.bins.length (classOf b size + 1) := by
    rw [List.length_append, List.length_replicate]
    omega
  generalize bin.bins ++ List.replicate (classOf b size + 1 - bin.bins.length) [] = bins at wide length ⊢
  have known : classOf b size < bins.length := by omega
  split
  · rename_i none
    exact absurd (List.getElem?_eq_none_iff.mp none) (not_le.mpr known)
  · rename_i base rest here
    exact ⟨wide.take pos small here (List.Perm.refl _), by rw [List.length_set, length]⟩
  · obtain ⟨p, _, pagesz⟩ := sound.pagesz
    refine (resize_noPanic wide.binsz pagesz known (wide.max ▸ wide.inside) wide.cut).bind fun bin' post => ?_
    obtain ⟨bytes, room, full⟩ := post
    have refilled := wide.refilled (wide.max ▸ room) full
    obtain ⟨bins', rfl, same, _⟩ := full
    split
    · rename_i none
      exact absurd (List.getElem?_eq_none_iff.mp none) (not_le.mpr (same ▸ known))
    · rename_i bases here
      refine ⟨?_, by rw [List.length_set, same, length]⟩
      cases last : bases.getLast? with
      | none =>
        obtain rfl := List.getLast?_eq_none_iff.mp last
        obtain ⟨_, empty⟩ := List.getElem?_eq_some_iff.mp here
        have unchanged : bins'.set (classOf b size) [] = bins' := by rw [← empty, List.set_getElem_self]
        rw [List.dropLast_nil, unchanged]
        exact refilled
      | some base =>
        refine refilled.take pos small here ?_
        conv_lhs => rw [← List.dropLast_append_getLast? base last]
        exact List.perm_append_comm

theorem get {size : Nat} {result : Option Nat} {bin' : Bin} (sound : Sound b limit objects bin)
    (run : bin.get size = .ok (result, bin')) :
    Sound b limit (result.toList.map (fun base => (base, size)) ++ objects) bin' :=
  ((sound.get_noPanic size).ok run).1

/-- A freed object waits in the bin of its size. -/
theorem give {base size : Nat} {bin' : Bin} (sound : Sound b limit ((base, size) :: objects) bin)
    (pushed : bin.pushFront (classOf b size) base = .ok bin') : Sound b limit objects bin' := by
  obtain ⟨_, _, known⟩ := sound.known (base, size) (List.mem_cons_self ..)
  obtain ⟨bins, pushed', length, perm⟩ := pushFront_ok base known
  cases Except.ok.inj (pushed.symm.trans pushed')
  refine { sound with cut := ?_, known := fun object member => ?_ }
  · have cut := sound.cut
    rw [List.map_cons, held_eq sound.binsz, List.cons_append] at cut
    exact cut.perm (List.perm_middle.symm.trans ((perm bin.binsz).symm.append_left _))
  · exact length ▸ sound.known object (List.mem_cons_of_mem _ member)

/-- `free` puts the object in the bin of the size it is given. -/
theorem free_eq_ok {base size : Nat} {bin' : Bin} (sound : Sound b limit objects bin) :
    bin.free base size = .ok bin' ↔ 1 ≤ size ∧ size ≤ 2 ^ 31 ∧ classOf b size < bin.bins.length ∧
      bin.pushFront (classOf b size) base = .ok bin' := by
  unfold Bin.free
  constructor
  · intro run
    split at run
    · cases run
    · obtain ⟨⟨width, i⟩, found, run⟩ := Except.bind_ok_iff.mp run
      obtain ⟨pos, small, _, rfl⟩ := (index_noPanic sound.binsz sound.zeroes).ok found
      dsimp only at run
      split at run
      · cases run
      · exact ⟨pos, small, by omega, run⟩
  · rintro ⟨pos, small, known, pushed⟩
    rw [if_neg (by omega), index_ok sound.binsz sound.order sound.zeroes pos small, Except.ok_bind]
    dsimp only
    rw [if_neg (not_le.mpr known), pushed]

theorem free {base size : Nat} {bin' : Bin} (sound : Sound b limit ((base, size) :: objects) bin)
    (run : bin.free base size = .ok bin') : Sound b limit objects bin' :=
  sound.give (sound.free_eq_ok.mp run).2.2.2

/-- An allocated object can be freed. -/
theorem free_ok {base size : Nat} (sound : Sound b limit ((base, size) :: objects) bin) :
    ∃ bin', bin.free base size = .ok bin' := by
  obtain ⟨pos, small, known⟩ := sound.known (base, size) (List.mem_cons_self ..)
  obtain ⟨bins, pushed, _⟩ := pushFront_ok base known
  exact ⟨_, sound.free_eq_ok.mpr ⟨pos, small, known, pushed⟩⟩

end Sound

/-- The bytes of an object that were asked for. -/
def asked (object : Nat × Nat) : Block := ⟨object.1, object.2⟩

theorem asked_within (b : Nat) (object : Nat × Nat) : (asked object).Within (held b object) :=
  ⟨Nat.le_refl _, Nat.add_le_add_left (Nat.le_trans (le_pow2 _) (Nat.le_max_left ..)) _⟩

theorem Sound.apart {b limit : Nat} {objects : List (Nat × Nat)} {bin : Bin} (sound : Sound b limit objects bin) :
    objects.Pairwise fun o o' => Block.Apart (asked o) (asked o') :=
  (List.pairwise_map.mp (List.pairwise_append.mp sound.cut.apart).1).imp fun apart =>
    apart.within (asked_within ..) (asked_within ..)

theorem Sound.below {b limit : Nat} {objects : List (Nat × Nat)} {bin : Bin} (sound : Sound b limit objects bin)
    {object : Nat × Nat} (member : object ∈ objects) : object.1 + object.2 ≤ bin.offset :=
  Nat.le_trans (asked_within b object).2 (sound.cut.below _ (List.mem_append_left _ (List.mem_map_of_mem member)))

/-- A bin allocator after some calls, with the objects that are allocated: the
base of each and the size it was requested with. -/
inductive Reached (binsz max pagesz : Nat) : List (Nat × Nat) → Bin → Prop
  | new {bin} : Bin.new binsz max pagesz = .ok bin → Reached binsz max pagesz [] bin
  | get {objects bin size result bin'} : Reached binsz max pagesz objects bin →
      bin.get size = .ok (result, bin') →
      Reached binsz max pagesz (result.toList.map (fun base => (base, size)) ++ objects) bin'
  | free {objects bin base size bin'} : Reached binsz max pagesz objects bin → (base, size) ∈ objects →
      bin.free base size = .ok bin' → Reached binsz max pagesz (objects.erase (base, size)) bin'

variable {binsz max pagesz : Nat} {objects : List (Nat × Nat)} {bin : Bin}

theorem Reached.sound (reached : Reached binsz max pagesz objects bin) :
    Sound (Nat.clog 2 binsz) max objects bin := by
  induction reached with
  | new run => exact .new run
  | get _ run ih => exact ih.get run
  | free _ member run ih => exact (ih.perm (List.perm_cons_erase member)).free run

/-- The objects lie one apart from the other and from all that wait. -/
theorem Reached.disjoint (reached : Reached binsz max pagesz objects bin) :
    (objects.map fun object => Block.mk object.1 (Max.max (pow2 object.2) (pow2 binsz))).Pairwise Block.Apart ∧
    (∀ object ∈ objects, object.1 + Max.max (pow2 object.2) (pow2 binsz) ≤ max) ∧
    ∀ object ∈ objects, ∀ i bases base, bin.bins[i]? = some bases → base ∈ bases →
      Block.Apart ⟨object.1, Max.max (pow2 object.2) (pow2 binsz)⟩ ⟨base, pow2 binsz * 2 ^ i⟩ := by
  have sound := reached.sound
  obtain ⟨held, _, apart⟩ := List.pairwise_append.mp sound.cut.apart
  refine ⟨held, fun object member => ?_, fun object member i bases base here waits => ?_⟩
  · have below := sound.cut.below _ (List.mem_append_left _ (List.mem_map_of_mem member))
    exact Nat.le_trans below sound.inside
  · have waiting : (⟨base, pow2 binsz * 2 ^ i⟩ : Block) ∈ bin.waiting := by
      rw [waiting, sound.binsz]
      exact mem_waitingFrom here waits
    exact apart _ (List.mem_map_of_mem member) _ waiting

end Bin

end R2
