import R2.Hfsc.Sound

namespace R2.Hfsc

theorem d2dx_noPanic (d : Nat) : NoPanic (d2dx d) (fun _ => True) :=
  (mul64_noPanic _ _).bind fun _ _ => trivial

theorem sc2isc_noPanic (sc : Sc) : NoPanic (sc2isc sc) (fun _ => True) := by
  refine (d2dx_noPanic _).bind fun _ _ => ?_
  exact (segX2y_noPanic _ _).bind fun _ _ => trivial

theorem startCurve_noPanic (sc : Option Sc) : NoPanic (startCurve sc) (fun _ => True) := by
  cases sc with
  | none => trivial
  | some sc => exact (sc2isc_noPanic sc).bind fun _ _ => trivial

theorem Class.new_noPanic (parent index qlimit : Nat) (isLeaf : Bool) (pvoff : Nat) (curves : Curves) :
    NoPanic (Class.new parent index qlimit isLeaf pvoff curves) (fun _ => True) := by
  refine (startCurve_noPanic _).bind fun _ _ => ?_
  refine (startCurve_noPanic _).bind fun _ _ => ?_
  exact (sc2isc_noPanic _).bind fun _ _ => trivial

/-- A new class is the dummy but for its place in the tree and its curves. -/
theorem Class.new_ok {parent index qlimit pvoff : Nat} {isLeaf : Bool} {curves : Curves} {c : Class}
    (run : Class.new parent index qlimit isLeaf pvoff curves = .ok c) : ∃ rIsc rRun uIsc uRun fIsc,
      startCurve curves.rSc = .ok (rIsc, rRun) ∧ sc2isc curves.fSc = .ok fIsc ∧
      c = { Class.dummy with
        inUse := true, leaf := isLeaf, parent := parent, index := index, qlimit := qlimit,
        pvoff := pvoff, fIsc := fIsc,
        rIsc := rIsc, uIsc := uIsc, fRun := runtimeInit fIsc 0 0, eRun := rRun, dRun := rRun, uRun := uRun } := by
  unfold Class.new at run
  obtain ⟨⟨rIsc, rRun⟩, atR, run⟩ := Except.bind_ok_iff.mp run
  obtain ⟨⟨uIsc, uRun⟩, atU, run⟩ := Except.bind_ok_iff.mp run
  obtain ⟨fIsc, atF, run⟩ := Except.bind_ok_iff.mp run
  exact ⟨rIsc, rRun, uIsc, uRun, fIsc, atR, atF, (Except.ok.inj run).symm⟩

/-- What a call of `create_class` can do while no class was ever destroyed. -/
inductive CreateStep (h : Hfsc) (name parentName : String) (qlimit : Nat) (isLeaf : Bool) (curves : Curves) :
    Except String Unit → Hfsc → Prop
  | refused {e} : CreateStep h name parentName qlimit isLeaf curves (.error e) h
  | created {parent p c} : h.classNames.lookup name = none → h.classNames.lookup parentName = some parent →
      h.classes[parent]? = some p → p.inUse = true →
      Class.new parent h.classes.length qlimit isLeaf p.pvoff curves = .ok c →
      CreateStep h name parentName qlimit isLeaf curves (.ok ())
        { h with classes := h.classes ++ [c], classNames := h.classNames.insert name h.classes.length }

theorem createClass_spec {h : Hfsc} (tree : Tree h) (name parentName : String) (qlimit : Nat) (isLeaf : Bool)
    (curves : Curves) : NoPanic (h.createClass name parentName qlimit isLeaf curves)
      (fun r => CreateStep h name parentName qlimit isLeaf curves r.1 r.2) := by
  unfold createClass
  refine Ensures.ite (fun _ => .refused) fun fresh => ?_
  split
  · exact .refused
  · rename_i parent named
    split
    · exact .refused
    · rename_i p atP
      refine Ensures.ite (fun _ => .refused) fun used => ?_
      split
      · rename_i free rest some
        rw [tree.free] at some
        cases some
      · refine ((Class.new_noPanic _ _ _ _ _ _).with_run).bind fun c run => ?_
        exact .created (by simpa using fresh) named atP (by simpa using used) run.1

variable {h : Hfsc}

theorem append_iff {l : List Class} {c d : Class} {j : Nat} :
    (l ++ [c])[j]? = some d ↔ l[j]? = some d ∨ j = l.length ∧ d = c := by
  rw [List.getElem?_append]
  by_cases inside : j < l.length
  · rw [if_pos inside]
    constructor
    · exact Or.inl
    · rintro (old | ⟨same, _⟩)
      · exact old
      · omega
  · rw [if_neg inside, List.getElem?_eq_none (by omega : l.length ≤ j)]
    by_cases same : j = l.length
    · simp [same, eq_comm]
    · rw [List.getElem?_eq_none (by simp only [List.length_singleton]; omega)]
      simp [same]

/-- A new class has no backlog, no child and no entry. -/
theorem Sound.append (sound : Sound h) {c p : Class} {names : AList (fun _ : String => Nat)}
    (atP : h.classes[c.parent]? = some p) (inUse : p.inUse = true)
    (fresh : c.inUse = true ∧ c.index = h.classes.length ∧ c.nactive = 0 ∧ c.children = ∅ ∧ c.packets = []) :
    Sound { h with classes := h.classes ++ [c], classNames := names } := by
  obtain ⟨inUse', index, nactive, children, packets⟩ := fresh
  obtain ⟨below, _⟩ := List.getElem?_eq_some_iff.mp atP
  have pos := sound.pos_of_inUse atP inUse
  have two : 2 ≤ h.classes.length := by
    obtain ⟨r, atR, _⟩ := sound.tree.top
    obtain ⟨bound, _⟩ := List.getElem?_eq_some_iff.mp atR
    omega
  have outside : h.classes[h.classes.length]? = none := List.getElem?_eq_none le_rfl
  have keep {j : Nat} {d : Class} (old : h.classes[j]? = some d) : (h.classes ++ [c])[j]? = some d :=
    append_iff.mpr (Or.inl old)
  have linked (q : Nat) (e : Key × Nat) :
      Linked { h with classes := h.classes ++ [c], classNames := names } q e ↔ Linked h q e := by
    constructor
    · rintro ⟨d, atD, parent, active, key⟩
      rcases append_iff.mp atD with old | ⟨_, rfl⟩
      · exact ⟨d, old, parent, active, key⟩
      · omega
    · rintro ⟨d, atD, rest⟩
      exact ⟨d, keep atD, rest⟩
  refine ⟨⟨sound.tree.root, sound.tree.free, ?_, ?_, fun j d atD large => ?_, fun j d atD large => ?_⟩,
    ⟨fun j d atD large => ?_, fun q qc atQ large e => ?_⟩, fun e => ?_, ?_⟩
  · obtain ⟨d, atD, rest⟩ := sound.tree.dummy
    exact ⟨d, keep atD, rest⟩
  · obtain ⟨r, atR, rest⟩ := sound.tree.top
    exact ⟨r, keep atR, rest⟩
  · rcases append_iff.mp atD with old | ⟨rfl, rfl⟩
    · exact sound.tree.index j d old large
    · exact ⟨index, inUse'⟩
  · rcases append_iff.mp atD with old | ⟨rfl, rfl⟩
    · exact sound.tree.parent j d old large
    · exact ⟨pos, below⟩
  · rcases append_iff.mp atD with old | ⟨rfl, rfl⟩
    · have count := sound.wired.counted j d old large
      rw [backlog_eq old] at count
      rw [backlog_eq (h := { h with classes := h.classes ++ [c], classNames := names }) (keep old)]
      exact count
    · rw [backlog_eq (h := { h with classes := h.classes ++ [d], classNames := names })
        (append_iff.mpr (Or.inr ⟨rfl, rfl⟩)),
        nactive, children, packets]
      simp
  · rw [linked]
    rcases append_iff.mp atQ with old | ⟨rfl, rfl⟩
    · exact sound.wired.listed q qc old large e
    · rw [children]
      simp only [SortedMap.entries_empty, List.not_mem_nil, false_iff]
      rintro ⟨d, atD, parent, _⟩
      obtain ⟨bound, _⟩ := List.getElem?_eq_some_iff.mp atD
      have links := sound.tree.parent e.2 d atD (sound.tree.two_le atD (by omega))
      omega
  · change e ∈ h.eligible.entries ↔ _
    rw [sound.indexed e]
    constructor
    · rintro ⟨d, atD, rest⟩
      exact ⟨d, keep atD, rest⟩
    · rintro ⟨d, atD, realtime, backlogged, key⟩
      rcases append_iff.mp atD with old | ⟨_, rfl⟩
      · exact ⟨d, old, realtime, backlogged, key⟩
      · exact absurd packets backlogged
  · change h.pktsQueued = _
    rw [sound.counted]
    simp only [queued, List.map_append, List.sum_append, List.map_singleton, List.sum_singleton, packets,
      List.length_nil,
      Nat.add_zero]

theorem CreateStep.sound {name parentName : String} {qlimit : Nat} {isLeaf : Bool} {curves : Curves}
    {result : Except String Unit} {h' : Hfsc} (sound : Sound h)
    (step : CreateStep h name parentName qlimit isLeaf curves result h') : Sound h' := by
  cases step with
  | refused => exact sound
  | created _ _ atP inUse run =>
    obtain ⟨_, _, _, _, _, _, _, rfl⟩ := Class.new_ok run
    exact sound.append atP inUse ⟨rfl, rfl, rfl, rfl, rfl⟩

theorem Sound.new {bandwidth : Nat} (made : Hfsc.new bandwidth = .ok h) : Sound h := by
  unfold Hfsc.new at made
  obtain ⟨c, run, made⟩ := Except.bind_ok_iff.mp made
  cases Except.ok.inj made
  obtain ⟨_, _, _, _, _, curve, _, rfl⟩ := Class.new_ok run
  cases Except.ok.inj curve
  have two {j : Nat} {a b d : Class} (atJ : [a, b][j]? = some d) : j = 0 ∧ d = a ∨ j = 1 ∧ d = b := by
    match j with
    | 0 => exact Or.inl ⟨rfl, (Option.some.inj atJ).symm⟩
    | 1 => exact Or.inr ⟨rfl, (Option.some.inj atJ).symm⟩
    | _ + 2 => cases atJ
  refine ⟨⟨rfl, rfl, ⟨_, rfl, rfl, rfl, rfl, rfl⟩, ⟨_, rfl, rfl, rfl, rfl⟩,
    fun j d atD large => ?_, fun j d atD large => ?_⟩,
    ⟨fun j d atD large => ?_, fun q qc atQ large e => ?_⟩, fun e => ?_, rfl⟩
  · rcases two atD with ⟨rfl, _⟩ | ⟨rfl, rfl⟩
    · omega
    · exact ⟨rfl, rfl⟩
  · rcases two atD with ⟨rfl, _⟩ | ⟨rfl, _⟩ <;> omega
  · rcases two atD with ⟨rfl, _⟩ | ⟨rfl, _⟩ <;> omega
  · rcases two atQ with ⟨rfl, _⟩ | ⟨rfl, rfl⟩
    · omega
    · refine ⟨fun member => absurd member List.not_mem_nil, ?_⟩
      rintro ⟨d, atD, _, active, _⟩
      rcases two atD with ⟨_, rfl⟩ | ⟨_, rfl⟩ <;> exact absurd active (Nat.lt_irrefl 0)
  · refine ⟨fun member => absurd member List.not_mem_nil, ?_⟩
    rintro ⟨d, atD, _, backlogged, _⟩
    rcases two atD with ⟨_, rfl⟩ | ⟨_, rfl⟩ <;> exact absurd rfl backlogged

/-- No packet has come to a class. -/
structure Idle (h : Hfsc) : Prop where
  empty : h.pktsQueued = 0
  passive : ∀ c ∈ h.classes, c.children.entries = []

theorem Idle.new {bandwidth : Nat} (made : Hfsc.new bandwidth = .ok h) : Idle h := by
  unfold Hfsc.new at made
  obtain ⟨c, run, made⟩ := Except.bind_ok_iff.mp made
  cases Except.ok.inj made
  obtain ⟨_, _, _, _, _, _, _, rfl⟩ := Class.new_ok run
  refine ⟨rfl, ?_⟩
  intro d member
  rcases List.mem_cons.mp member with rfl | member
  · rfl
  · cases List.mem_singleton.mp member
    rfl

theorem CreateStep.idle {name parentName : String} {qlimit : Nat} {isLeaf : Bool} {curves : Curves}
    {result : Except String Unit} {h' : Hfsc} (idle : Idle h)
    (step : CreateStep h name parentName qlimit isLeaf curves result h') : Idle h' := by
  cases step with
  | refused => exact idle
  | created _ _ _ _ run =>
    obtain ⟨_, _, _, _, _, _, _, rfl⟩ := Class.new_ok run
    refine ⟨idle.empty, ?_⟩
    intro d member
    rcases List.mem_append.mp member with old | new
    · exact idle.passive d old
    · cases List.mem_singleton.mp new
      rfl

/-- A name of a class stays with it. -/
theorem CreateStep.named {name parentName other : String} {qlimit : Nat} {isLeaf : Bool} {curves : Curves}
    {result : Except String Unit} {h' : Hfsc} {index : Nat} (known : h.classNames.lookup other = some index)
    (step : CreateStep h name parentName qlimit isLeaf curves result h') :
    h'.classNames.lookup other = some index := by
  cases step with
  | refused => exact known
  | created fresh _ _ _ _ =>
    have apart : other ≠ name := by
      rintro rfl
      rw [known] at fresh
      cases fresh
    rw [AList.lookup_insert_ne apart]
    exact known

/-- `has_classes` looks at the active classes only. -/
theorem Idle.hasClasses (idle : Idle h) (tree : Tree h) : h.hasClasses = .ok false := by
  obtain ⟨r, top, _⟩ := tree.top
  rw [← tree.root] at top
  have here : h.classAt h.root = .ok r := by rw [classAt, top]
  have none := idle.passive r (List.mem_of_getElem? top)
  rw [Hfsc.hasClasses, here]
  change Except.ok (!r.children.entries.isEmpty) = _
  rw [none]
  rfl

end R2.Hfsc
