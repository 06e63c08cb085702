import R2.Hfsc.Reachable

namespace R2.Hfsc

/-- A class in use whose parent links lead through classes in use to the root. -/
inductive Rooted (h : Hfsc) : Nat → Prop
  | root {r} : h.classes[h.root]? = some r → r.inUse = true → r.parent = 0 → Rooted h h.root
  | under {i c} : h.classes[i]? = some c → c.inUse = true → Rooted h c.parent → Rooted h i

/-- The packets held by classes in use. -/
def queuedInUse (h : Hfsc) : Nat := ((h.classes.filter fun c => c.inUse).map fun c => c.packets.length).sum

/-- Apart from the entry of the dummy, the names map one-to-one onto the
classes in use. -/
structure NamesMatch (h : Hfsc) : Prop where
  inUse : ∀ name i, name ≠ "dummy" → h.classNames.lookup name = some i → ∃ c, h.classes[i]? = some c ∧ c.inUse = true
  injective : ∀ name other i, name ≠ "dummy" → other ≠ "dummy" → h.classNames.lookup name = some i →
    h.classNames.lookup other = some i → name = other
  onto : ∀ (i : Nat) (c : Class), h.classes[i]? = some c → c.inUse = true →
    ∃ name, name ≠ "dummy" ∧ h.classNames.lookup name = some i

/-- The bookkeeping `create_class` and `destroy_class` are to keep. -/
structure Consistent (h : Hfsc) : Prop where
  counted : h.pktsQueued = queuedInUse h
  names : NamesMatch h
  tree : ∀ (i : Nat) (c : Class), h.classes[i]? = some c → c.inUse = true → Rooted h i
  children : ∀ (p : Nat) (pc : Class), h.classes[p]? = some pc → pc.inUse = true → ∀ e ∈ pc.children.entries,
    ∃ c, h.classes[e.2]? = some c ∧ c.inUse = true ∧ c.parent = p ∧ 0 < c.nactive ∧ e.1 = c.vtimeKey
  eligible : ∀ e ∈ h.eligible.entries,
    ∃ c, h.classes[e.2]? = some c ∧ c.inUse = true ∧ c.rIsc.isSome ∧ c.packets ≠ [] ∧ e.1 = c.eligibleKey
  dequeues : ∀ now, NoPanic (h.dequeueFrom now) (fun _ => True)

/-- If the call returns, it leaves the bookkeeping consistent. -/
def Keeps (h : Hfsc) (op : HfscOp) : Prop := ∀ event h', h.step op = .ok (event, h') → Consistent h'

variable {h : Hfsc}

theorem Sound.rooted (sound : Sound h) {i : Nat} {c : Class} (atI : h.classes[i]? = some c) (inUse : c.inUse = true) :
    Rooted h i := by
  induction i using Nat.strongRecOn generalizing c with
  | ind i ih =>
    have pos := sound.pos_of_inUse atI inUse
    by_cases top : i = 1
    · obtain ⟨r, atR, parent, _⟩ := sound.tree.top
      rw [top, ← sound.tree.root]
      rw [top] at atI
      rw [atI] at atR
      cases atR
      exact .root (by rw [sound.tree.root]; exact atI) inUse parent
    · have below := (sound.tree.parent i c atI (by omega)).1
      obtain ⟨p, atP, _, less⟩ := sound.tree.parent_exists atI (by omega)
      exact .under atI inUse (ih c.parent less atP (sound.tree.index _ _ atP below).2)

theorem Sound.queuedInUse_eq (sound : Sound h) : queuedInUse h = queued h := by
  obtain ⟨d, atD, _, unused, drained, _⟩ := sound.tree.dummy
  cases shape : h.classes with
  | nil => rw [shape] at atD; cases atD
  | cons first rest =>
    rw [shape] at atD
    cases atD
    have used : rest.filter (fun c => c.inUse) = rest := by
      refine List.filter_eq_self.mpr fun c member => ?_
      obtain ⟨i, atI⟩ := List.mem_iff_getElem?.mp member
      have atNext : h.classes[i + 1]? = some c := by rw [shape]; exact atI
      exact (sound.tree.index (i + 1) c atNext (by omega)).2
    simp only [queuedInUse, queued, shape, List.filter_cons, unused, Bool.false_eq_true, if_false, used,
      List.map_cons,
      drained, List.length_nil, List.sum_cons, Nat.zero_add]

theorem Sound.consistent (sound : Sound h) (names : NamesMatch h) : Consistent h := by
  refine ⟨?_, names, fun i c atI inUse => sound.rooted atI inUse,
    fun p pc atP used e member => ?_, fun e member => ?_,
    fun now => (dequeueFrom_spec sound now).mono fun _ _ => trivial⟩
  · rw [sound.queuedInUse_eq]
    exact sound.counted
  · have pos := sound.pos_of_inUse atP used
    obtain ⟨c, atC, parent, active, key⟩ := sound.wired.entry_class atP pos member
    have two := sound.tree.two_le atC (by omega)
    obtain ⟨index, inUse⟩ := sound.tree.index e.2 c atC (by omega)
    exact ⟨c, atC, inUse, parent, active, by rw [key, Class.vtimeKey, index]⟩
  · obtain ⟨c, atC, realtime, backlogged, key⟩ := (sound.indexed e).mp member
    have pos : 1 ≤ e.2 := by
      by_contra small
      obtain zero : e.2 = 0 := by omega
      obtain ⟨d, atD, _, _, _, curve⟩ := sound.tree.dummy
      rw [zero, atD] at atC
      cases atC
      rw [curve] at realtime
      cases realtime
    obtain ⟨index, inUse⟩ := sound.tree.index e.2 c atC pos
    exact ⟨c, atC, inUse, realtime, backlogged, by rw [key, Class.eligibleKey, index]⟩

theorem Sound.used_iff (sound : Sound h) {i : Nat} :
    (∃ c, h.classes[i]? = some c ∧ c.inUse = true) ↔ 1 ≤ i ∧ i < h.classes.length := by
  constructor
  · rintro ⟨c, atI, inUse⟩
    exact ⟨sound.pos_of_inUse atI inUse, (List.getElem?_eq_some_iff.mp atI).1⟩
  · rintro ⟨pos, below⟩
    have atI := List.getElem?_eq_getElem below
    exact ⟨_, atI, (sound.tree.index i _ atI pos).2⟩

/-- What the names look like while no class was ever destroyed. -/
structure Named (h : Hfsc) : Prop where
  dummy : h.classNames.lookup "dummy" = some 0
  range : ∀ name i, name ≠ "dummy" → h.classNames.lookup name = some i → 1 ≤ i ∧ i < h.classes.length
  injective : ∀ name other i, name ≠ "dummy" → other ≠ "dummy" → h.classNames.lookup name = some i →
    h.classNames.lookup other = some i → name = other
  onto : ∀ i, 1 ≤ i → i < h.classes.length → ∃ name, name ≠ "dummy" ∧ h.classNames.lookup name = some i

theorem Named.namesMatch (named : Named h) (sound : Sound h) : NamesMatch h := by
  refine ⟨fun name i notDummy found => sound.used_iff.mpr (named.range name i notDummy found), named.injective,
    fun i c atI inUse => ?_⟩
  obtain ⟨pos, below⟩ := sound.used_iff.mp ⟨c, atI, inUse⟩
  exact named.onto i pos below

theorem Named.of_same {h' : Hfsc} (named : Named h) (names : h'.classNames = h.classNames)
    (length : h'.classes.length = h.classes.length) : Named h' := by
  obtain ⟨dummy, range, injective, onto⟩ := named
  rw [← names] at dummy range injective onto
  rw [← length] at range onto
  exact ⟨dummy, range, injective, onto⟩

theorem Named.of_fixed {h' : Hfsc} (named : Named h) (same : h'.fixed = h.fixed) : Named h' := by
  refine named.of_same ?_ (length_of_fixed same)
  have names : h'.fixed.classNames = h.fixed.classNames := by rw [same]
  exact names

theorem Named.put (named : Named h) {i n : Nat} {c : Class} {el : KeyMap} : Named (h.put i c el n) :=
  named.of_same rfl (by simp only [put_classes, setClass, List.length_set])

/-- A new class takes a new name and the next index. -/
theorem Named.append (named : Named h) (sound : Sound h) {name : String} {c : Class}
    (fresh : h.classNames.lookup name = none) :
    Named { h with classes := h.classes ++ [c], classNames := h.classNames.insert name h.classes.length } := by
  have notDummy : name ≠ "dummy" := by
    rintro rfl
    rw [named.dummy] at fresh
    cases fresh
  have lookup (other : String) : (h.classNames.insert name h.classes.length).lookup other =
      if other = name then some h.classes.length else h.classNames.lookup other := by
    split
    · rename_i same
      rw [same, AList.lookup_insert]
    · rename_i differ
      rw [AList.lookup_insert_ne differ]
  have length : (h.classes ++ [c]).length = h.classes.length + 1 := by simp
  have two : 1 ≤ h.classes.length := by
    obtain ⟨d, atD, _⟩ := sound.tree.dummy
    have := (List.getElem?_eq_some_iff.mp atD).1
    omega
  refine ⟨?_, fun other i notDummy' found => ?_, fun left right i notLeft notRight foundLeft foundRight => ?_,
    fun i pos below => ?_⟩
  · simp only [lookup, notDummy.symm, if_false]
    exact named.dummy
  · simp only [lookup] at found
    simp only [length]
    split at found
    · cases found
      omega
    · have old := named.range other i notDummy' found
      omega
  · simp only [lookup] at foundLeft foundRight
    split at foundLeft
    · rename_i sameLeft
      cases foundLeft
      split at foundRight
      · rename_i sameRight
        rw [sameLeft, sameRight]
      · have old := named.range right _ notRight foundRight
        omega
    · split at foundRight
      · cases foundRight
        have old := named.range left _ notLeft foundLeft
        omega
      · exact named.injective left right i notLeft notRight foundLeft foundRight
  · simp only [length] at below
    by_cases new : i = h.classes.length
    · refine ⟨name, notDummy, ?_⟩
      simp only [lookup, if_true, new]
    · obtain ⟨other, notDummy', found⟩ := named.onto i pos (by omega)
      refine ⟨other, notDummy', ?_⟩
      have differ : other ≠ name := by
        rintro rfl
        rw [fresh] at found
        cases found
      simp only [lookup, differ, if_false]
      exact found

theorem Stepped.named {op : HfscOp} {event : HfscEvent} {h' : Hfsc} (sound : Sound h) (named : Named h)
    (step : Stepped h op event h') : Named h' := by
  cases step with
  | create step =>
    cases step with
    | refused => exact named
    | created fresh => exact named.append sound fresh
  | spare => exact named
  | enqueue step =>
    cases step with
    | refused => exact named
    | dropped => exact named.of_same rfl (by simp only [setClass, List.length_set])
    | more => exact named.put
    | first atI _ empty run => exact (named.of_fixed ((sound.initV_ok atI empty).ok run).1).put
  | dequeue step =>
    cases step with
    | idle _ atV => exact named.of_fixed (sound.getMinV_ok.ok atV).1
    | realtime _ some atI realtime packets next run =>
      obtain ⟨place, packets'⟩ := next.place
      have charged := (sound.pop atI (Nat.pos_of_ne_zero some) packets place packets'
        (next.indexed sound.indexed atI realtime)).ok run
      exact (named.put.of_fixed charged.1).of_same rfl rfl
    | linkshare _ atV some atI packets next run =>
      obtain ⟨fixed, sound', _⟩ := sound.getMinV_ok.ok atV
      obtain ⟨place, packets'⟩ := next.place
      have charged := (sound'.pop atI (Nat.pos_of_ne_zero some) packets place packets'
        (next.indexed sound'.indexed atI packets)).ok run
      exact ((named.of_fixed fixed).put.of_fixed charged.1).of_same rfl rfl

theorem Named.new {bandwidth : Nat} (made : Hfsc.new bandwidth = .ok h) : Named h := by
  unfold Hfsc.new at made
  obtain ⟨c, run, made⟩ := Except.bind_ok_iff.mp made
  cases Except.ok.inj made
  have lookup (other : String) :
      (((∅ : AList (fun _ : String => Nat)).insert "dummy" 0).insert "root" 1).lookup other =
      if other = "root" then some 1 else if other = "dummy" then some 0 else none := by
    split
    · rename_i same
      rw [same, AList.lookup_insert]
    · rename_i differ
      rw [AList.lookup_insert_ne differ]
      split
      · rename_i same
        rw [same, AList.lookup_insert]
      · rename_i differ
        rw [AList.lookup_insert_ne differ, AList.lookup_empty]
  refine ⟨rfl, fun name i notDummy found => ?_, fun left right i notLeft notRight foundLeft foundRight => ?_,
    fun i pos below => ⟨"root", by decide, ?_⟩⟩
  · simp only [lookup, notDummy, if_false] at found
    split at found
    · cases found
      exact ⟨le_rfl, Nat.one_lt_two⟩
    · cases found
  · simp only [lookup, notLeft, notRight, if_false] at foundLeft foundRight
    split at foundLeft
    · rename_i sameLeft
      split at foundRight
      · rename_i sameRight
        rw [sameLeft, sameRight]
      · cases foundRight
    · cases foundLeft
  · simp only [List.length_cons, List.length_nil] at below
    have one : i = 1 := by omega
    simp only [lookup, if_true, one]

theorem Run.named {start : Hfsc} {trace : List (HfscOp × HfscEvent)} (sound : Sound start) (named : Named start)
    (run : Run Spares start trace h) : Sound h ∧ Named h :=
  run.invariant (fun h => Sound h ∧ Named h) ⟨sound, named⟩ fun _ _ _ _ spares both step => by
    have stepped := (step_spec both.1 spares).ok step
    exact ⟨stepped.sound both.1, stepped.named both.1 both.2⟩

theorem Sound.passing (sound : Sound h) {i : Nat} {c : Class} (atI : h.classes[i]? = some c)
    (backlogged : c.packets ≠ []) : Charging h (fun j => if j = i then 0 else backlog h j) i true := by
  have one : backlog h i = 1 := by
    rw [backlog_eq atI, List.isEmpty_eq_false_iff.mpr backlogged]
    rfl
  refine ⟨sound.tree, sound.wired.congr fun j d atD two => ?_, c, atI, fun below => ?_⟩
  · by_cases same : j = i
    · subst same
      simp only [one, and_self, if_true]
      rfl
    · simp only [same, false_and, if_false]
  · have count := sound.wired.counted i c atI (sound.tree.two_le atI below)
    omega

/-- Destroying a class leaves its name behind. -/
theorem destroyClass_names (sound : Sound h) {i : Nat} {c : Class} {event : HfscEvent} {h' : Hfsc}
    (atI : h.classes[i]? = some c) (inUse : c.inUse = true) (step : h.step (.destroy i) = .ok (event, h')) :
    h'.classNames = h.classNames ∧ h'.classes[i]? = some Class.dummy := by
  obtain ⟨⟨index, g⟩, destroyed, returned⟩ := Except.bind_ok_iff.mp step
  cases Except.ok.inj returned
  have retired (g₀ : Hfsc) {el : KeyMap} {free : List Nat} (fixed : g₀.fixed = h.fixed) :
      { g₀.setClass i Class.dummy with freeIndex := free, eligible := el }.classNames = h.classNames ∧
        { g₀.setClass i Class.dummy with freeIndex := free, eligible := el }.classes[i]? = some Class.dummy := by
    have names : g₀.fixed.classNames = h.fixed.classNames := by rw [fixed]
    obtain ⟨c', atC', _⟩ := lookup_of_fixed fixed.symm atI
    exact ⟨names, setClass_self atC'⟩
  unfold destroyClass at destroyed
  simp only [atI, inUse, Bool.not_true, Bool.false_eq_true, if_false] at destroyed
  split at destroyed
  · cases Except.ok.inj destroyed
    exact retired h rfl
  · rename_i backlogged
    obtain ⟨g₀, run, destroyed⟩ := Except.bind_ok_iff.mp destroyed
    have charging := sound.passing atI (by simpa using backlogged)
    obtain ⟨bound, _⟩ := List.getElem?_eq_some_iff.mp atI
    obtain ⟨fixed, _⟩ := (updateV_rule (fun _ _ _ => True) (fun _ => True)
      (fun _ _ _ _ _ _ _ _ _ _ _ => trivial) (fun _ _ _ _ _ _ _ _ _ => trivial) charging trivial
      (by simp only [walkFuel]; omega)).ok run
    split at destroyed
    · obtain ⟨el, _, destroyed⟩ := Except.bind_ok_iff.mp destroyed
      cases Except.ok.inj destroyed
      exact retired g₀ fixed
    · cases Except.ok.inj destroyed
      exact retired g₀ fixed

/-- A call keeps the bookkeeping consistent exactly when it takes no class out
of use. -/
theorem keeps_iff (sound : Sound h) (named : Named h) {op : HfscOp} {event : HfscEvent} {h' : Hfsc}
    (step : h.step op = .ok (event, h')) : Consistent h' ↔ Spares h op := by
  constructor
  · intro consistent
    cases op with
    | destroy index =>
      intro c atI
      by_contra used
      have inUse : c.inUse = true := by simpa using used
      obtain ⟨pos, below⟩ := sound.used_iff.mp ⟨c, atI, inUse⟩
      obtain ⟨name, notDummy, found⟩ := named.onto index pos below
      obtain ⟨names, gone⟩ := destroyClass_names sound atI inUse step
      rw [← names] at found
      obtain ⟨d, atD, inUse'⟩ := consistent.names.inUse name index notDummy found
      rw [gone] at atD
      cases atD
      cases inUse'
    | _ => trivial
  · intro spares
    have stepped := (step_spec sound spares).ok step
    exact (stepped.sound sound).consistent ((stepped.named sound named).namesMatch (stepped.sound sound))

/-- The bookkeeping stays consistent along a run exactly when no call of
`destroy_class` meets a class in use: such a call leaves the name of the class
behind. -/
theorem consistent_iff_spares {bandwidth : Nat} {h₀ : Hfsc} (made : Hfsc.new bandwidth = .ok h₀)
    (trace : List (HfscOp × HfscEvent)) (h : Hfsc) :
    Consistent h₀ ∧ (Run Keeps h₀ trace h ↔ Run Spares h₀ trace h) := by
  have sound := Sound.new made
  have named := Named.new made
  refine ⟨sound.consistent (named.namesMatch sound), ?_, ?_⟩
  · intro run
    induction run with
    | start => exact .start
    | next _ keeps step ih =>
      obtain ⟨sound', named'⟩ := ih.named sound named
      exact .next ih ((keeps_iff sound' named' step).mp (keeps _ _ step)) step
  · intro run
    induction run with
    | start => exact .start
    | next before spares step ih =>
      obtain ⟨sound', named'⟩ := before.named sound named
      refine .next ih (fun event h' step' => ?_) step
      exact (keeps_iff sound' named' step').mpr spares

theorem consistent_iff_spares_created : ∃ h₀ trace h, Hfsc.new 1000 = .ok h₀ ∧
    (trace.length, h.classes.length) = (3, 3) ∧ (Run Keeps h₀ trace h ↔ Run Spares h₀ trace h) := by
  obtain ⟨h₀, trace, h, made, _, seen⟩ := exists_run_of_exec (fun _ _ => True) 1000
    [.create "a" "root" 0 true ⟨none, none, ⟨0, 0, 1000⟩⟩, .enqueue 2 (flatPacket 100) 5, .dequeue 7]
    (fun r => (r.1.length, r.2.classes.length)) (a := (3, 3)) (by decide)
  exact ⟨h₀, trace, h, made, seen, (consistent_iff_spares made trace h).2⟩

/-- After a class was created and destroyed its name still maps to its index,
where no class is in use. -/
theorem destroyed_name_remains : ∃ h₀ trace h, Hfsc.new 1000 = .ok h₀ ∧ Run (fun _ _ => True) h₀ trace h ∧
    (h.classNames.lookup "a", h.classes[2]?.map Class.inUse) = (some 2, some false) ∧ ¬ Consistent h := by
  obtain ⟨h₀, trace, h, made, run, seen⟩ := exists_run_of_exec (fun _ _ => True) 1000
    [.create "a" "root" 0 true ⟨none, none, ⟨0, 0, 1000⟩⟩, .destroy 2]
    (fun r => (r.2.classNames.lookup "a", r.2.classes[2]?.map Class.inUse))
    (a := (some 2, some false)) (by decide)
  refine ⟨h₀, trace, h, made, run, seen, fun consistent => ?_⟩
  have named : h.classNames.lookup "a" = some 2 := congrArg Prod.fst seen
  have unused : h.classes[2]?.map Class.inUse = some false := congrArg Prod.snd seen
  obtain ⟨c, atC, inUse⟩ := consistent.names.inUse "a" 2 (by decide) named
  rw [atC, Option.map_some, inUse] at unused
  cases unused

end R2.Hfsc
