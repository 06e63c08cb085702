import R2.Hfsc.Wiring

namespace R2.Hfsc

/-- `j` is the active class under `p` of least `(vtime, index)`. -/
def LeastChild (h : Hfsc) (p j : Nat) : Prop :=
  ∃ t, Linked h p (⟨t, j⟩, j) ∧ ∀ e, Linked h p e → (⟨t, j⟩ : Key) ≤ e.1

/-- `j` is reached from the root by going to the least child at every level. -/
inductive OnPath (h : Hfsc) : Nat → Prop
  | root : OnPath h h.root
  | down {p j} : OnPath h p → LeastChild h p j → OnPath h j

/-- Where the descent ends: at a class with no active class under it. -/
def Bottom (h : Hfsc) (q : Nat) : Prop := OnPath h q ∧ ∀ e, ¬ Linked h q e

theorem LeastChild.class_eq {h : Hfsc} {p j : Nat} {c : Class} (least : LeastChild h p j)
    (atJ : h.classes[j]? = some c) :
    c.parent = p ∧ 0 < c.nactive ∧ ∀ e, Linked h p e → (⟨c.vtime, j⟩ : Key) ≤ e.1 := by
  obtain ⟨t, ⟨d, atD, parent, active, key⟩, below⟩ := least
  rw [atJ] at atD
  cases atD
  cases key
  exact ⟨parent, active, below⟩

theorem LeastChild.vtime_le {h : Hfsc} {p j : Nat} {c : Class} (least : LeastChild h p j)
    (atJ : h.classes[j]? = some c) {e : Key × Nat} (linked : Linked h p e) : c.vtime ≤ e.1.time := by
  have order := Key.le_iff.mp ((least.class_eq atJ).2.2 e linked)
  simp only at order
  omega

/-- Links look at the parent, the count and the virtual time of a class only. -/
theorem Linked.setClass_iff {h : Hfsc} {i q : Nat} {c : Class} {e : Key × Nat} (c' : Class)
    (atI : h.classes[i]? = some c)
    (keeps : c'.parent = c.parent ∧ c'.nactive = c.nactive ∧ c'.vtime = c.vtime) :
    Linked (h.setClass i c') q e ↔ Linked h q e := by
  obtain ⟨parent, nactive, vtime⟩ := keeps
  constructor
  · rintro ⟨d, atD, dParent, dActive, key⟩
    rcases (Hfsc.setClass_iff atI).mp atD with ⟨same, rfl⟩ | ⟨_, old⟩
    · exact ⟨c, by rw [same]; exact atI, parent.symm.trans dParent, nactive ▸ dActive, by rw [key, vtime]⟩
    · exact ⟨d, old, dParent, dActive, key⟩
  · rintro ⟨d, atD, dParent, dActive, key⟩
    by_cases same : e.2 = i
    · rw [same, atI] at atD
      cases atD
      exact ⟨c', by rw [same]; exact setClass_self atI, parent.trans dParent, nactive ▸ dActive, by rw [key, vtime]⟩
    · exact ⟨d, (setClass_other (Ne.symm same)).trans atD, dParent, dActive, key⟩

theorem OnPath.congr {h h' : Hfsc} {j : Nat} (path : OnPath h' j) (links : ∀ q e, Linked h' q e ↔ Linked h q e)
    (root : h'.root = h.root) : OnPath h j := by
  induction path with
  | root => rw [root]; exact .root
  | down _ least ih =>
    obtain ⟨t, linked, below⟩ := least
    exact .down ih ⟨t, (links _ _).mp linked, fun e inside => below e ((links _ _).mpr inside)⟩

variable {h : Hfsc} {own : Nat → Nat}

theorem Wired.leastChild (wired : Wired h own (fun _ => 0)) {p : Nat} {pc : Class} (pos : 1 ≤ p)
    (atP : h.classes[p]? = some pc) {e : Key × Nat} (first : pc.children.first? = some e) : LeastChild h p e.2 := by
  have linked := (wired.listed p pc atP pos e).mp (SortedMap.first?_mem first)
  obtain ⟨c, atC, parent, active, key⟩ := linked
  refine ⟨c.vtime, ⟨c, atC, parent, active, rfl⟩, fun e' inside => ?_⟩
  have order := SortedMap.first?_le first ((wired.listed p pc atP pos e').mpr inside)
  rwa [key] at order

/-- What a descent from `p` returns: the deepest class marked leaf on the way
to the bottom, if there is one. -/
structure Descended (h : Hfsc) (p r q : Nat) : Prop where
  bottom : Bottom h q
  below : p ≤ q
  ended : q = p → r = 0
  leaf : q ≠ p → ∀ c, h.classes[q]? = some c → c.leaf = true → r = q
  found : r ≠ 0 → OnPath h r ∧ ∃ c, h.classes[r]? = some c ∧ 2 ≤ r ∧ 0 < c.nactive ∧ c.leaf = true

/-- Run rule for `get_min_v`: the only change is that `vmin` rises to the least
virtual time of the active classes. -/
theorem getMinV_rule (during : Hfsc → Nat → Prop)
    (raise : ∀ h p pc j c, Tree h → Wired h own (fun _ => 0) → during h p → h.classes[p]? = some pc → OnPath h p →
      h.classes[j]? = some c → LeastChild h p j → during (h.setClass p (pc.withVmin (max pc.vmin c.vtime))) j)
    (tree : Tree h) (wired : Wired h own (fun _ => 0)) {fuel p : Nat} (start : during h p) {pc : Class}
    (atP : h.classes[p]? = some pc) (pos : 1 ≤ p) (path : OnPath h p) (enough : h.classes.length < fuel + p) :
    NoPanic (getMinV fuel h p) (fun r => r.2.fixed = h.fixed ∧ Wired r.2 own (fun _ => 0) ∧
    (∀ q e, Linked r.2 q e ↔ Linked h q e) ∧
      ∃ q, during r.2 q ∧ Descended h p r.1 q) := by
  induction fuel generalizing h p pc with
  | zero =>
    obtain ⟨bound, _⟩ := List.getElem?_eq_some_iff.mp atP
    omega
  | succ fuel ih =>
    unfold getMinV
    rw [classAt_eq atP, Except.ok_bind]
    cases first : pc.children.first? with
    | none =>
      have empty := SortedMap.first?_eq_none.mp first
      refine ⟨rfl, wired, fun _ _ => Iff.rfl, p, start, ⟨path, fun e linked => ?_⟩, le_rfl, fun _ => rfl,
        fun ne => absurd rfl ne, ?_⟩
      · have member := (wired.listed p pc atP pos e).mpr linked
        rw [empty] at member
        cases member
      · exact fun nonzero => absurd rfl nonzero
    | some e =>
      obtain ⟨key, ch⟩ := e
      have least : LeastChild h p ch := wired.leastChild pos atP first
      have child : ∃ c, h.classes[ch]? = some c ∧ c.parent = p ∧ 0 < c.nactive := by
        obtain ⟨c, atC, parent, active, _⟩ := wired.entry_class atP pos (SortedMap.first?_mem first)
        exact ⟨c, atC, parent, active⟩
      obtain ⟨c, atC, parent, active⟩ := child
      dsimp only
      rw [classAt_eq atC, Except.ok_bind]
      refine Ensures.ite (fun bad => absurd parent bad) fun _ => ?_
      have below : c.parent ≠ 0 := by omega
      obtain ⟨_, _, _, less⟩ := tree.parent_exists atC below
      rw [parent] at less
      have raised : (if pc.vmin < c.vtime then h.setClass p { pc with vmin := c.vtime } else h) =
          h.setClass p (pc.withVmin (max pc.vmin c.vtime)) := by
        split
        · rw [max_eq_right (by omega)]
          rfl
        · rw [max_eq_left (by omega)]
          exact (setClass_setClass_self atP).symm
      rw [raised]
      have links (q : Nat) (e : Key × Nat) := 
        Linked.setClass_iff (q := q) (e := e) (pc.withVmin (max pc.vmin c.vtime)) atP ⟨rfl, rfl, rfl⟩
      have fixed : (h.setClass p (pc.withVmin (max pc.vmin c.vtime))).fixed = h.fixed := setClass_fixed atP rfl
      have wired' : Wired (h.setClass p (pc.withVmin (max pc.vmin c.vtime))) own (fun _ => 0) := by
        refine wired.setOne atP ⟨rfl, rfl, rfl, Iff.rfl⟩ (fun two => ?_) fun _ _ => rfl
        exact wired.counted p pc atP two
      have path' : OnPath (h.setClass p (pc.withVmin (max pc.vmin c.vtime))) ch :=
        (path.down least).congr (fun q e => (links q e).symm) rfl
      have atC' := (@setClass_other h _ _ (pc.withVmin (max pc.vmin c.vtime)) (by omega : p ≠ ch)).trans atC
      have length := length_of_fixed fixed
      refine (ih (tree.of_fixed fixed) wired' (raise h p pc ch c tree wired start atP path atC least) atC' (by omega)
        path' (by omega)).bind fun r result => ?_
      obtain ⟨r, h'⟩ := r
      obtain ⟨fixed', wired'', links', q, finish, bottom, deeper, ended, leaf, found⟩ := result
      have bottom' : Bottom h q :=
        ⟨bottom.1.congr links rfl, fun e linked => bottom.2 e ((links q e).mpr linked)⟩
      have notP : q ≠ p := by omega
      dsimp only at *
      have leaf' : q ≠ ch → ∀ d, h.classes[q]? = some d → d.leaf = true → r = q := by
        intro ne d atD
        exact leaf ne d ((setClass_other (Ne.symm notP)).trans atD)
      have found' : r ≠ 0 → OnPath h r ∧ ∃ c, h.classes[r]? = some c ∧ 2 ≤ r ∧ 0 < c.nactive ∧ c.leaf = true := by
        intro nonzero
        obtain ⟨onPath, d, atD, two, active, isLeaf⟩ := found nonzero
        refine ⟨onPath.congr links rfl, ?_⟩
        rcases (setClass_iff atP).mp atD with ⟨rfl, rfl⟩ | ⟨_, old⟩
        · exact ⟨pc, atP, two, active, isLeaf⟩
        · exact ⟨d, old, two, active, isLeaf⟩
      have links'' : ∀ q e, Linked h' q e ↔ Linked h q e := fun q e => (links' q e).trans (links q e)
      refine Ensures.ite (fun zero => ?_) fun nonzero => ?_
      · subst zero
        refine ⟨fixed'.trans fixed, wired'', links'', q, finish, bottom', by omega, fun same => absurd same notP,
          fun _ d atD isLeaf => ?_, fun some => ?_⟩
        · by_cases same : q = ch
          · subst same
            rw [atC] at atD
            cases atD
            simp only [isLeaf, if_true]
          · have zero := leaf' same d atD isLeaf
            omega
        · by_cases isLeaf : c.leaf = true
          · simp only [isLeaf, if_true] at some ⊢
            exact ⟨path.down least, c, atC, by omega, active, isLeaf⟩
          · simp only [isLeaf, if_false, ne_eq, not_true_eq_false, Bool.false_eq_true] at some
      · refine ⟨fixed'.trans fixed, wired'', links'', q, finish, bottom', by omega, fun same => absurd same notP,
          fun _ d atD isLeaf => ?_, found'⟩
        exact leaf' (fun same => nonzero (ended same)) d atD isLeaf

end R2.Hfsc
