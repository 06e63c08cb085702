import R2.Log.Sizes

namespace R2.Log

/-- What a slot holds after a call. -/
def Call.written (esz : Nat) (c : Call) (index : Nat) : List UInt8 :=
  toLe 4 index ++ toLe 8 c.now ++ (fitting Arg.size (esz - 12) c.args).flatMap Arg.memory

theorem memory_length (args : List Arg) : (args.flatMap Arg.memory).length = (args.map Arg.size).sum := by
  induction args with
  | nil => rfl
  | cons a rest ih =>
    rw [List.flatMap_cons, List.length_append, ih, Arg.memory_length, List.map_cons, List.sum_cons, Arg.size]

theorem Call.written_length_le {esz : Nat} (size : 12 ≤ esz) (c : Call) (index : Nat) :
    (c.written esz index).length ≤ esz := by
  have fits := @fitting_sum_le _ Arg.size (esz - 12) c.args
  rw [Call.written, List.length_append, List.length_append, toLe_length, toLe_length, memory_length]
  omega

/-- A call at `s` on `l`, which leaves `l'`, goes by the index `n`: the site had it, or had none
and `l` hands it out. `before` is the index of the site before the call, known to a quiet thread. -/
def Names (quiet : Prop) (found : Nat → Prop) (l : Logger) (before : Nat) (s : Site) (n : Nat) (l' : Logger) : Prop :=
  (found n ∧ n ≠ 0 ∧ l'.index = l.index ∧ l'.hash = l.hash ∧ (quiet → before = n)) ∨
    (found 0 ∧ n = l.index ∧ l'.index = n + 1 ∧ l'.hash = Function.update l.hash n (some s) ∧ (quiet → before = 0))

/-- The call `c` on `l` wrote a record under the index `n`. -/
structure Files (quiet : Prop) (found : Nat → Prop) (l : Logger) (statics : Statics) (c : Call) (n : Nat)
    (l' : Logger) (statics' : Statics) : Prop where
  esz : l'.esz = l.esz
  emax : l'.emax = l.emax
  stop : l'.stop = l.stop
  enext : l'.enext = l.enext + 1
  slot : Slot l.mem l'.mem (l.esz * (l.enext % l.emax)) l.esz (c.written l.esz (n % 2 ^ 32))
  names : Names quiet found l (statics c.site).index c.site n l'
  grew : Grows statics statics'
  inited : (statics' c.site).inited ≠ 0
  indices : quiet → ∀ t, (statics' t).index = Function.update (fun t => (statics t).index) c.site n t

theorem add64_within {allowed : Fault → Prop} {a b : Nat} (big : 2 ^ 64 ≤ a + b → allowed .overflow) :
    Ensures allowed (add64 a b) (· = a + b) := by
  unfold add64 checkedAdd
  split
  · rfl
  · exact big (by omega)

section

variable {quiet : Prop} {rely guar : Statics → Statics → Prop} {need : Access → Statics → Prop} {allowed : Fault → Prop}
  {found : Nat → Prop} {start statics : Statics} {indices : Site → Nat} {l : Logger} {mem₀ front : List UInt8}
  {base bytes : Nat} {s : Site}

/-- One value is noted, and written if it fits. -/
theorem copy_safe (manners : Manners quiet rely guar) {a : Arg} {mem : List UInt8} {k last : Nat}
    (placed : l.place a base bytes = .ok (bytes + a.size, { l with mem })) (width : s.widths[k]? = some a.width)
    (closes : last = 1 → s.widths.length = k + 1) (sized : ∀ t, (start t).Sized t)
    (midway : Midway quiet start indices s k statics) :
    (l.copy s a base bytes k last).Safe Access.perform rely guar need allowed
      (fun r statics => r = (bytes + a.size, { l with mem }) ∧ Midway quiet start indices s (k + 1) statics ∧
        (last = 1 → (statics s).inited ≠ 0)) statics := by
  rw [Logger.copy, placed]
  refine (note_safe manners width closes sized midway).bind manners.refl fun _ st ⟨midway, inited⟩ => ?_
  intro st' others
  exact ⟨rfl, midway.wait manners others, (manners.others _ _ others s).inited ∘ inited⟩

/-- All values are written that fit. -/
theorem logHelper_safe (manners : Manners quiet rely guar) {args : List Arg} {past : List Width}
    (slot : Slot mem₀ l.mem base l.esz front) (inside : base + l.esz ≤ mem₀.length)
    (place : front.length = 12 + bytes ∨ l.esz ≤ 12 + bytes) (nonempty : args ≠ [])
    (widths : s.widths = past ++ args.map Arg.width) (sized : ∀ t, (start t).Sized t)
    (midway : Midway quiet start indices s past.length statics) :
    (Logger.logHelper base s bytes past.length 1 args l).Safe Access.perform rely guar need allowed
      (fun l' statics => ∃ mem, l' = { l with mem } ∧
        Slot mem₀ mem base l.esz (front ++ (fitting Arg.size (l.esz - 12 - bytes) args).flatMap Arg.memory) ∧
        Grows start statics ∧ (statics s).inited ≠ 0 ∧ (quiet → ∀ t, (statics t).index = indices t)) statics := by
  induction args generalizing l front bytes past statics with
  | nil => exact absurd rfl nonempty
  | cons a rest ih =>
    have width : s.widths[past.length]? = some a.width := by
      rw [widths, List.getElem?_append_right (Nat.le_refl _), Nat.sub_self]
      rfl
    obtain ⟨mem, placed, slot⟩ := place_ok slot inside place a
    have filled := fitting_next l.esz bytes a rest
    cases rest with
    | nil =>
      have closes : s.widths.length = past.length + 1 := by rw [widths, List.length_append]; rfl
      rw [Logger.logHelper]
      refine (copy_safe manners placed width (fun _ => closes) sized midway).bind manners.refl
        fun r st copied => ?_
      obtain ⟨same, midway, inited⟩ := copied
      subst same
      intro st' others
      have midway := midway.wait manners others
      refine ⟨mem, rfl, ?_, midway.grew, (manners.others _ _ others s).inited (inited rfl), midway.indices⟩
      rw [← filled]
      simpa only [fitting, List.flatMap_nil, List.append_nil] using slot
    | cons b rest =>
      have next : (past ++ [a.width]).length = past.length + 1 := by rw [List.length_append]; rfl
      have more : 0 = 1 → s.widths.length = past.length + 1 := fun zero => absurd zero Nat.zero_ne_one
      rw [Logger.logHelper]
      refine (copy_safe manners placed width more sized midway).bind manners.refl fun r st copied => ?_
      obtain ⟨same, midway, _⟩ := copied
      subst same
      have split : s.widths = (past ++ [a.width]) ++ (b :: rest).map Arg.width := by
        rw [widths, List.append_assoc]
        rfl
      have later := @ih _ { l with mem } _ _ (past ++ [a.width]) slot inside (place_next place a)
        (List.cons_ne_nil b rest) split (next ▸ midway)
      rw [next] at later
      refine later.mono fun l' st wrote => ?_
      obtain ⟨mem', same, slot, rest⟩ := wrote
      refine ⟨mem', same, ?_, rest⟩
      dsimp only at slot
      rw [List.append_assoc, filled] at slot
      exact slot

/-- What a load of the index of `s` told in a call that began with `start`. -/
structure Looked (quiet : Prop) (found : Nat → Prop) (start : Statics) (s : Site) (index : Nat) (statics : Statics) :
    Prop where
  grew : Grows start statics
  same : quiet → statics = start
  answer : found index
  before : quiet → (start s).index = index

theorem loadIndex_safe (manners : Manners quiet rely guar)
    (asks : ∀ statics, need (.loadIndex s) statics → found (statics s).index) (grew : Grows start statics)
    (same : quiet → statics = start) : (atomic (.loadIndex s)).Safe Access.perform rely guar need allowed
      (fun index => Looked quiet found start s index) statics := by
  intro st others needed
  refine ⟨manners.own _ _ (Grows.refl _), fun st' more => ?_⟩
  refine ⟨(grew.trans (manners.others _ _ others)).trans (manners.others _ _ more), fun silent => ?_, asks st needed,
    fun silent => ?_⟩
  · exact (manners.alone silent _ _ more).trans ((manners.alone silent _ _ others).trans (same silent))
  · rw [← same silent, ← manners.alone silent _ _ others]
    rfl

/-- How `entry_index` ends. -/
def Indexed (quiet : Prop) (found : Nat → Prop) (start : Statics) (l : Logger) (s : Site) (r : Nat × Logger)
    (statics : Statics) : Prop :=
  ∃ n, r.1 = n % 2 ^ 32 ∧ r.2 = { l with index := r.2.index, hash := r.2.hash } ∧
    Names quiet found l (start s).index s n r.2 ∧
    Midway quiet start (Function.update (fun t => (start t).index) s n) s 0 statics

/-- There is an index to go by. -/
theorem Looked.indexed {index : Nat} (looked : Looked quiet found start s index statics) (some : index ≠ 0) :
    Indexed quiet found start l s (index % 2 ^ 32, l) statics := by
  refine ⟨index, rfl, rfl, Or.inl ⟨looked.answer, some, rfl, rfl, looked.before⟩, looked.grew,
    Or.inr fun j below => absurd below (Nat.not_lt_zero j), fun silent t => ?_⟩
  rw [looked.same silent]
  by_cases here : t = s
  · subst here
    rw [Function.update_self]
    exact looked.before silent
  · rw [Function.update_of_ne here]

theorem Indexed.wait {r : Nat × Logger} {statics' : Statics} (manners : Manners quiet rely guar)
    (indexed : Indexed quiet found start l s r statics) (others : rely statics statics') :
    Indexed quiet found start l s r statics' := by
  obtain ⟨n, number, same, names, midway⟩ := indexed
  exact ⟨n, number, same, names, midway.wait manners others⟩

/-- No thread had an index for the site, and this one hands one out; another may do so at the same time. -/
theorem Looked.store_safe (manners : Manners quiet rely guar) (looked : Looked quiet found start s 0 statics) :
    (do
      let _ ← atomic (.storeIndex s l.index)
      pure (l.index % 2 ^ 32,
        { l with index := l.index + 1, hash := Function.update l.hash l.index (some s) }) : Logging (Nat × Logger)).Safe
      Access.perform rely guar need allowed (Indexed quiet found start l s) statics := by
  intro st others _
  have grows := Entry.storeIndex_grows (st s) s l.index
  refine ⟨manners.own _ _ (Grows.update grows), fun st' more => ?_⟩
  refine Indexed.wait manners ⟨l.index, rfl, rfl, Or.inr ⟨looked.answer, rfl, rfl, rfl, looked.before⟩, ?_, ?_, ?_⟩ more
  · exact (looked.grew.trans (manners.others _ _ others)).trans (Grows.update grows)
  · exact Or.inr fun j below => absurd below (Nat.not_lt_zero j)
  · intro silent t
    change (Function.update st s _ t).index = _
    rw [manners.alone silent _ _ others, looked.same silent]
    by_cases here : t = s
    · subst here
      rw [Function.update_self, Function.update_self]
    · rw [Function.update_of_ne here, Function.update_of_ne here]

theorem entryIndex_safe (manners : Manners quiet rely guar)
    (asks : ∀ statics, need (.loadIndex s) statics → found (statics s).index)
    (big : 2 ^ 64 ≤ l.index + 1 → allowed .overflow) :
    (l.entryIndex s).Safe Access.perform rely guar need allowed (Indexed quiet found statics l s) statics := by
  unfold Logger.entryIndex
  refine (loadIndex_safe manners asks (Grows.refl _) fun _ => rfl).bind manners.refl fun index st looked => ?_
  by_cases some : index ≠ 0
  · rw [if_pos some]
    exact fun st' others => (looked.indexed some).wait manners others
  · rw [if_neg some]
    refine (loadIndex_safe manners asks looked.grew looked.same).bind manners.refl fun index st looked => ?_
    by_cases some : index ≠ 0
    · rw [if_pos some]
      exact fun st' others => (looked.indexed some).wait manners others
    · obtain rfl := not_not.mp some
      rw [if_neg some]
      dsimp only
      cases sum : add64 l.index 1 with
      | error e =>
        have within : Ensures allowed (add64 l.index 1) (· = l.index + 1) := add64_within big
        exact within.error sum
      | ok next =>
        obtain ⟨_, rfl⟩ := add64_ok.mp sum
        exact looked.store_safe manners

theorem getEntry_safe (manners : Manners quiet rely guar) (cells : 0 < l.emax) (size : 12 ≤ l.esz)
    (inside : l.esz * (l.enext % l.emax) + l.esz ≤ l.mem.length) (now : Nat)
    (asks : ∀ statics, need (.loadIndex s) statics → found (statics s).index)
    (big : 2 ^ 64 ≤ l.enext + 1 ∨ 2 ^ 64 ≤ l.index + 1 → allowed .overflow) :
    (l.getEntry s now).Safe Access.perform rely guar need allowed (fun r st => ∃ n,
      r.1 = l.esz * (l.enext % l.emax) ∧
      r.2 = { l with enext := l.enext + 1, index := r.2.index, hash := r.2.hash, mem := r.2.mem } ∧
      Slot l.mem r.2.mem (l.esz * (l.enext % l.emax)) l.esz (toLe 4 (n % 2 ^ 32) ++ toLe 8 now) ∧
      Names quiet found l (statics s).index s n r.2 ∧
      Midway quiet statics (Function.update (fun t => (statics t).index) s n) s 0 st) statics := by
  unfold Logger.getEntry
  dsimp only
  cases sum : add64 l.enext 1 with
  | error e =>
    have within : Ensures allowed (add64 l.enext 1) (· = l.enext + 1) := add64_within (big ∘ Or.inl)
    exact within.error sum
  | ok enext =>
    obtain ⟨_, rfl⟩ := add64_ok.mp sum
    change Program.Safe _ _ _ _ _ _ (ite _ _ _) _
    rw [if_neg (Nat.pos_iff_ne_zero.mp cells)]
    refine Program.Safe.bind manners.refl (entryIndex_safe manners asks (big ∘ Or.inr)) fun r st indexed => ?_
    obtain ⟨index, l₁⟩ := r
    obtain ⟨n, rfl, same, names, midway⟩ := indexed
    dsimp only at same names
    have slot := Slot.start l.mem (l.esz * (l.enext % l.emax)) l.esz
    obtain ⟨mem, stored, slot⟩ := slot.store inside (toLe 4 (n % 2 ^ 32)) (by
      rw [List.length_nil, toLe_length]
      omega)
    obtain ⟨mem', stored', slot⟩ := slot.store inside (toLe 8 now) (by
      rw [List.nil_append, toLe_length, toLe_length]
      omega)
    rw [List.length_nil, Nat.add_zero] at stored
    rw [List.nil_append, toLe_length] at stored'
    have memory : l₁.mem = l.mem := by rw [same]
    dsimp only
    rw [memory, stored, Program.ofExcept_ok_bind, stored', Program.ofExcept_ok_bind]
    intro st' others
    refine ⟨n, rfl, ?_, slot, names, midway.wait manners others⟩
    dsimp only
    rw [same]

/-- A call writes its record, whatever others do in the meantime, unless one of the counters of
the logger is used up. -/
theorem log_safe (manners : Manners quiet rely guar) (runs : l.stop = 0) (cells : 0 < l.emax) (size : 12 ≤ l.esz)
    (length : l.mem.length = l.esz * l.emax) (sized : ∀ t, (statics t).Sized t) (c : Call)
    (asks : ∀ statics, need (.loadIndex c.site) statics → found (statics c.site).index)
    (big : 2 ^ 64 ≤ l.enext + 1 ∨ 2 ^ 64 ≤ l.index + 1 → allowed .overflow) :
    (l.log c).Safe Access.perform rely guar need allowed
      (fun l' statics' => ∃ n, Files quiet found l statics c n l' statics') statics := by
  have inside : l.esz * (l.enext % l.emax) + l.esz ≤ l.mem.length := by
    rw [length, ← Nat.mul_succ]
    exact Nat.mul_le_mul_left _ (Nat.mod_lt _ cells)
  unfold Logger.log Logger.stopped
  rw [if_pos runs]
  refine (getEntry_safe manners cells size inside c.now asks big).bind manners.refl fun r st post => ?_
  obtain ⟨base, l₁⟩ := r
  obtain ⟨n, rfl, same, slot, names, midway⟩ := post
  dsimp only at same slot names ⊢
  have esz : l₁.esz = l.esz := by rw [same]
  have nonempty : c.args ≠ [] := fun none => c.site.nonempty (by rw [← c.widths, none, List.map_nil])
  have header : (toLe 4 (n % 2 ^ 32) ++ toLe 8 c.now).length = 12 + 0 := by
    rw [List.length_append, toLe_length, toLe_length]
  rw [← esz] at inside
  have begun : Slot l.mem l₁.mem (l₁.esz * (l.enext % l.emax)) l₁.esz (toLe 4 (n % 2 ^ 32) ++ toLe 8 c.now) := by
    rw [esz]
    exact slot
  rw [← esz]
  have filled := @logHelper_safe quiet rely guar need allowed statics st _ l₁ _ _ _ 0 c.site manners c.args [] begun
    inside (Or.inl header) nonempty c.widths.symm sized midway
  refine filled.mono fun l' st' ⟨mem, made, slot, grew, inited, indices⟩ => ?_
  subst made
  refine ⟨n, ?_, ?_, ?_, ?_, ?_, names, grew, inited, indices⟩
  · rw [same]
  · rw [same]
  · rw [same]
  · rw [same]
  · rw [esz] at slot
    exact slot

end

end R2.Log
