import R2.Hfsc.Periods
import R2.Hfsc.Shape

namespace R2

namespace Ledger

variable {l : Ledger} {good : Ledger → PeriodEvent → Prop}

theorem along_append {events more : List PeriodEvent} :
    Along good l (events ++ more) ↔ Along good l events ∧ Along good (l.noteAll events) more := by
  induction events generalizing l with
  | nil => exact (true_and _).symm ▸ Iff.rfl
  | cons e rest ih =>
    simp only [List.cons_append, Along, ih, and_assoc]
    rfl

theorem noteAll_append {events more : List PeriodEvent} :
    l.noteAll (events ++ more) = (l.noteAll events).noteAll more := List.foldl_append

/-- The ledger agrees with the fields of a class. -/
structure Follows (l : Ledger) (i : Nat) (c : Class) : Prop where
  active : l.active i = c.children.entries.length
  offset : ∀ b ∈ l.offset i, c.voff = b
  known : l.active i ≠ 0 → (l.offset i).isSome
  closing : l.active i = 0 → (l.offset i).isSome → c.vmax = l.closing i

/-- What a ledger says of one class. -/
def Agree (l l' : Ledger) (i : Nat) : Prop :=
  l'.active i = l.active i ∧ l'.offset i = l.offset i ∧ l'.closing i = l.closing i

theorem Follows.congr {l' : Ledger} {i : Nat} {c c' : Class} (follows : Follows l i c) (same : Agree l l' i)
    (children : c'.children.entries.length = c.children.entries.length)
    (voff : (l.offset i).isSome → c'.voff = c.voff)
    (vmax : c'.vmax = c.vmax) : Follows l' i c' := by
  obtain ⟨active, offset, closing⟩ := same
  refine ⟨active.trans (follows.active.trans children.symm), fun b taken => ?_, fun some => ?_, fun none some => ?_⟩
  · rw [offset] at taken
    exact (voff (Option.isSome_iff_exists.mpr ⟨b, taken⟩)).trans (follows.offset b taken)
  · rw [active] at some
    rw [offset]
    exact follows.known some
  · rw [active] at none
    rw [offset] at some
    rw [vmax, closing]
    exact follows.closing none some

theorem agree_refl (l : Ledger) (i : Nat) : Agree l l i := ⟨rfl, rfl, rfl⟩

theorem activated_agree {p i : Nat} (child pvoff : Nat) (keeps : Bool) (other : i ≠ p) :
    Agree l (l.note (.activated p child pvoff keeps)) i :=
  ⟨Function.update_of_ne other .., Function.update_of_ne other .., rfl⟩

theorem idled_agree {p i : Nat} (child vmax : Nat) (other : i ≠ p) : Agree l (l.note (.idled p child vmax)) i := by
  refine ⟨Function.update_of_ne other .., rfl, ?_⟩
  simp only [note]
  split
  · exact Function.update_of_ne other ..
  · rfl

end Ledger

namespace Hfsc

/-- The ledger agrees with every class, and knows of no other. -/
structure Tracked (l : Ledger) (h : Hfsc) : Prop where
  listed : ∀ i c, h.classes[i]? = some c → l.Follows i c
  beyond : ∀ i, h.classes.length ≤ i → l.active i = 0 ∧ l.offset i = none

variable {l : Ledger} {h : Hfsc} {own : Nat → Nat}

theorem Tracked.of_classes {h' : Hfsc} (tracked : Tracked l h) (same : h'.classes = h.classes) : Tracked l h' :=
  ⟨fun i c atI => tracked.listed i c (same ▸ atI), fun i outside => tracked.beyond i (same ▸ outside)⟩

/-- Other fields of a class may change. -/
theorem Tracked.setClass {i : Nat} {c c' : Class} (tracked : Tracked l h) (atI : h.classes[i]? = some c)
    (children : c'.children = c.children) (voff : c'.voff = c.voff) (vmax : c'.vmax = c.vmax) :
    Tracked l (h.setClass i c') := by
  refine ⟨fun j d atJ => ?_, fun j outside => tracked.beyond j (by simpa [Hfsc.setClass] using outside)⟩
  rcases (setClass_iff atI).mp atJ with ⟨rfl, rfl⟩ | ⟨_, atJ⟩
  · exact (tracked.listed j c atI).congr (l.agree_refl j) (by rw [children]) (fun _ => voff) vmax
  · exact tracked.listed j d atJ

theorem Tracked.put {i n : Nat} {c c' : Class} {el : KeyMap} (tracked : Tracked l h) (atI : h.classes[i]? = some c)
    (children : c'.children = c.children) (voff : c'.voff = c.voff) (vmax : c'.vmax = c.vmax) :
    Tracked l (h.put i c' el n) :=
  (tracked.setClass atI children voff vmax).of_classes rfl

theorem Tracked.setPair {l' : Ledger} {i q : Nat} {c c' p p' : Class} (tracked : Tracked l h) (ne : i ≠ q)
    (atI : h.classes[i]? = some c) (atQ : h.classes[q]? = some p) (child : l'.Follows i c') (parent : l'.Follows q p')
    (others : ∀ j, j ≠ q → l.Agree l' j) : Tracked l' ((h.setClass i c').setClass q p') := by
  refine ⟨fun j d atJ => ?_, fun j outside => ?_⟩
  · rcases (setPair_iff c' p' ne atI atQ).mp atJ with ⟨rfl, rfl⟩ | ⟨rfl, rfl⟩ | ⟨notQ, _, atJ⟩
    · exact parent
    · exact child
    · exact (tracked.listed j d atJ).congr (others j notQ) rfl (fun _ => rfl) rfl
  · have outside : h.classes.length ≤ j := by simpa [Hfsc.setClass] using outside
    obtain ⟨inside, _⟩ := List.getElem?_eq_some_iff.mp atQ
    obtain ⟨active, offset, _⟩ := others j (by omega)
    rw [active, offset]
    exact tracked.beyond j outside

/-- The offset of a class after its own activation. -/
theorem keepsOffset_voff {c c' p : Class} {vtime pvperiod pnactive : Nat} (join : h.joinVtime c p = .ok vtime)
    (run : startCurveAt (c.joinAt 1 vtime) p.childOffset pvperiod pnactive = .ok c') :
    h.keepsOffset c p = true ↔ c'.voff = c.voff := by
  obtain ⟨f, _, moved, outcome⟩ := startCurveAt_ok run
  have moves := curveMoves_eq join moved
  unfold keepsOffset
  rw [moves]
  rcases outcome with ⟨at_, rfl⟩ | ⟨away, rfl⟩
  · have at_ : f.x = vtime + (p.childOffset - c.pvoff) := at_
    rw [beq_iff_eq.mpr at_]
    dsimp only
    rw [beq_iff_eq]
    exact eq_comm
  · have away : f.x ≠ vtime + (p.childOffset - c.pvoff) := away
    rw [beq_eq_false_iff_ne.mpr away]
    dsimp only
    rw [beq_iff_eq]
    exact eq_comm

/-- The curve of a class is started with the offset of the period of its parent. -/
theorem Entering.handed {i : Nat} {c p : Class} {r : Hfsc × Option Nat} (entering : Entering h own i)
    (atI : h.classes[i]? = some c) (below : c.parent ≠ 0) (atP : h.classes[c.parent]? = some p)
    (passive : c.nactive = 0) (stepped : initVStep h i true = .ok r) : h.handed i = .ok p.childOffset := by
  obtain ⟨_, _, _, less⟩ := entering.tree.parent_exists atI below
  have ne : i ≠ c.parent := by omega
  unfold initVStep at stepped
  rw [classAt_eq atI, Except.ok_bind] at stepped
  dsimp only at stepped
  rw [if_neg below, if_pos rfl] at stepped
  obtain ⟨n, counted, stepped⟩ := Except.bind_ok_iff.mp stepped
  rw [if_pos (by rw [passive]; rfl)] at stepped
  obtain ⟨h', active, _⟩ := Except.bind_ok_iff.mp stepped
  unfold goActive at active
  rw [classAt_eq ((setClass_other ne).trans atP), Except.ok_bind] at active
  split at active
  · cases active
  · obtain ⟨joined, run, _⟩ := Except.bind_ok_iff.mp active
    have spec := (joinParent_spec (setClass_self atI) ((setClass_other ne).trans atP) ne fun e member =>
      (entering.wired.siblings entering.tree atI below atP passive _ e member).2).ok run
    unfold Hfsc.handed
    rw [classAt_eq atI, Except.ok_bind, counted, Except.ok_bind]
    dsimp only
    rw [classAt_eq ((setClass_other ne).trans atP), Except.ok_bind, run, Except.ok_bind]
    rcases spec with ⟨empty, rfl⟩ | ⟨key, m, last, vt, atLast, _, _, rfl⟩
    · rw [childOffset_first empty]
    · rw [childOffset_last atLast]

/-- A class that enters the map of its parent takes the offset of the period. -/
theorem Tracked.enters {i : Nat} {c c' p p' : Class} {vtime pvperiod pnactive : Nat} (entering : Entering h own i)
    (tracked : Tracked l h) (atI : h.classes[i]? = some c) (below : c.parent ≠ 0)
    (atP : h.classes[c.parent]? = some p) (passive : c.nactive = 0) (join : h.joinVtime c p = .ok vtime)
    (run : startCurveAt (c.joinAt 1 vtime) p.childOffset pvperiod pnactive = .ok c') (voff : p'.voff = p.childOffset)
    (children : p'.children = p.children.insert ⟨c'.vtime, i⟩ i) (handed : h.handed i = .ok p.childOffset)
    (keeps : l.Along Ledger.Keeps (h.activation i)) :
    l.Along Ledger.OneOffset (h.activation i) ∧
      Tracked (l.noteAll (h.activation i)) ((h.setClass i c').setClass c.parent p') := by
  obtain ⟨_, _, _, less⟩ := entering.tree.parent_exists atI below
  have event : h.activation i = [.activated c.parent i p.childOffset (h.keepsOffset c p)] := by
    simp only [activation, atI, atP, handed]
    exact if_pos ⟨below, passive⟩
  rw [event] at keeps ⊢
  have parent := tracked.listed c.parent p atP
  have child := tracked.listed i c atI
  obtain ⟨_, sameChildren, _, _, _, _, vmax⟩ := startCurveAt_keeps run
  have agree :=
    fun j (other : j ≠ c.parent) => Ledger.activated_agree (l := l) i p.childOffset (h.keepsOffset c p) other
  refine ⟨⟨?_, trivial⟩, tracked.setPair (by omega) atI atP ?_ ?_ agree⟩
  · by_cases first : l.active c.parent = 0
    · have empty : p.children.entries = [] := List.length_eq_zero_iff.mp (parent.active.symm.trans first)
      refine (if_pos first).mpr fun b taken => ?_
      rw [Class.childOffset, empty, parent.offset b taken,
        parent.closing first (Option.isSome_iff_exists.mpr ⟨b, taken⟩)]
      rfl
    · obtain ⟨b, taken⟩ := Option.isSome_iff_exists.mp (parent.known first)
      have some : p.children.entries.isEmpty = false := by
        rw [parent.active] at first
        exact List.isEmpty_eq_false_iff.mpr fun empty => first (by rw [empty]; rfl)
      refine (if_neg first).mpr ?_
      rw [Class.childOffset, some, parent.offset b taken]
      exact taken
  · refine child.congr (agree i (by omega)) (by rw [sameChildren]; rfl) (fun some => ?_) vmax
    exact (keepsOffset_voff join run).mp (keeps.1 some)
  · have absent := entering.wired.absent atI below atP passive
    have longer := SortedMap.length_insert (v := i)
      (fun e member same => (absent e member).1 (congrArg Key.index same) : ∀ e ∈ p.children.entries,
        e.1 ≠ ⟨c'.vtime, i⟩)
    have stored : (l.note (.activated c.parent i p.childOffset (h.keepsOffset c p))).offset c.parent =
        some p.childOffset := Function.update_self ..
    refine ⟨?_, fun b taken => ?_, fun _ => ?_, fun none _ => ?_⟩
    · rw [children, longer, ← parent.active]
      exact Function.update_self ..
    · exact voff.trans (Option.some.inj (stored.symm.trans taken))
    · exact Option.isSome_iff_exists.mpr ⟨_, stored⟩
    · have one : l.active c.parent + 1 = 0 := (Function.update_self ..).symm.trans none
      omega

/-- A class of the walk of `init_v`. -/
theorem initVStep_tracked {i : Nat} {c : Class} {h' : Hfsc} {next : Option Nat} (entering : Entering h own i)
    (tracked : Tracked l h) (atI : h.classes[i]? = some c) (stepped : initVStep h i true = .ok (h', next))
    (keeps : l.Along Ledger.Keeps (h.activation i)) :
    l.Along Ledger.OneOffset (h.activation i) ∧ Tracked (l.noteAll (h.activation i)) h' := by
  have step : InitStep h i c h' next := (initVStep_spec entering.tree entering.wired atI).ok stepped
  have quiet (still : ¬(c.parent ≠ 0 ∧ c.nactive = 0)) : h.activation i = [] := by
    simp only [activation, atI]
    split
    · exact if_neg still
    · rfl
  cases step with
  | top isTop =>
    rw [quiet fun both => both.1 isTop]
    exact ⟨trivial, tracked⟩
  | busy _ active =>
    rw [quiet fun both => by omega]
    exact ⟨trivial, tracked.setClass atI rfl rfl rfl⟩
  | @join p key m last vt c' below atP passive atLast atM mean run =>
    have offset := childOffset_last atLast
    rw [← offset] at run
    exact tracked.enters entering atI below atP passive (joinVtime_last atLast atM mean) run offset.symm rfl
      (entering.handed atI below atP passive stepped) keeps
  | @first p c' below atP passive empty run =>
    have offset := childOffset_first empty
    rw [← offset] at run
    exact tracked.enters entering atI below atP passive (joinVtime_first empty) run offset.symm rfl
      (entering.handed atI below atP passive stepped) keeps

theorem initV_tracked {fuel i : Nat} {h' : Hfsc} (entering : Entering h own i) (tracked : Tracked l h)
    (enough : i < fuel) (run : initV fuel h i true = .ok h') (keeps : l.Along Ledger.Keeps (initLog fuel h i)) :
    l.Along Ledger.OneOffset (initLog fuel h i) ∧ Tracked (l.noteAll (initLog fuel h i)) h' := by
  induction fuel generalizing h i l with
  | zero => omega
  | succ fuel ih =>
    obtain ⟨c, atI⟩ := entering.exists_class
    unfold initV at run
    obtain ⟨⟨g, next⟩, stepped, run⟩ := Except.bind_ok_iff.mp run
    have step := (initVStep_spec entering.tree entering.wired atI).ok stepped
    unfold initLog at keeps ⊢
    rw [stepped] at keeps ⊢
    obtain ⟨first, rest⟩ := Ledger.along_append.mp keeps
    obtain ⟨right, tracked'⟩ := initVStep_tracked entering tracked atI stepped first
    cases next with
    | none =>
      cases run
      rw [List.append_nil]
      exact ⟨right, tracked'⟩
    | some q =>
      have less := step.climbs entering.tree atI
      obtain ⟨right', tracked''⟩ := ih (step.entering entering atI) tracked' (by omega) run rest
      rw [Ledger.along_append, Ledger.noteAll_append]
      exact ⟨⟨right, right'⟩, tracked''⟩

/-- The walk of `update_v` has not changed what `idleLog` reads from class `i` up. -/
structure Ahead (h g : Hfsc) (i : Nat) : Prop where
  here : ∀ c, g.classes[i]? = some c → ∃ c₀, h.classes[i]? = some c₀ ∧ c₀.parent = c.parent ∧ c₀.nactive = c.nactive ∧
    c₀.vtime = c.vtime
  above : ∀ j < i, ∀ c, g.classes[j]? = some c → ∃ c₀, h.classes[j]? = some c₀ ∧ c₀.parent = c.parent ∧
    c₀.nactive = c.nactive ∧ c₀.vtime = c.vtime ∧ c₀.vmax = c.vmax

variable {g g' : Hfsc}

theorem Tracked.idles {i len : Nat} {c p : Class} (charging : Charging g own i true) (tracked : Tracked l g)
    (atI : g.classes[i]? = some c) (below : c.parent ≠ 0) (atP : g.classes[c.parent]? = some p)
    (one : c.nactive = 1) :
    Tracked (l.note (.idled c.parent i (max p.vmax c.vtime)))
      ((g.setClass i (c.charge len 0)).setClass c.parent
        ((p.withChildren (p.children.erase c.vtimeKey)).raiseVmax c.vtime)) := by
  obtain ⟨_, _, _, less⟩ := charging.tree.parent_exists atI below
  have agree := fun j (other : j ≠ c.parent) => Ledger.idled_agree (l := l) i (max p.vmax c.vtime) other
  have shorter := SortedMap.length_erase (charging.wired.own_entry charging.tree atI below atP (by omega))
  have parent := tracked.listed c.parent p atP
  have child := tracked.listed i c atI
  have active := parent.active
  have known := parent.known (by omega)
  refine tracked.setPair (by omega) atI atP (child.congr (agree i (by omega)) rfl (fun _ => rfl) rfl) ?_ agree
  refine ⟨?_, parent.offset, fun _ => known, fun none _ => ?_⟩
  · refine (Function.update_self ..).trans ?_
    simp only [Class.raiseVmax_children, Class.withChildren_children]
    omega
  · have last : l.active c.parent - 1 = 0 := (Function.update_self ..).symm.trans none
    simp only [Ledger.note, if_pos (show l.active c.parent = 1 by omega), Function.update_self]
    rfl

theorem Tracked.stays {i len n : Nat} {passive : Bool} {c c' p : Class} (charging : Charging g own i passive)
    (tracked : Tracked l g) (atI : g.classes[i]? = some c) (below : c.parent ≠ 0)
    (atP : g.classes[c.parent]? = some p) (active : 0 < c.nactive)
    (run : advanceVtime (c.charge len n) p.vmin = .ok c') :
    Tracked l ((g.setClass i c').setClass c.parent
      (p.withChildren ((p.children.erase c.vtimeKey).insert ⟨c'.vtime, i⟩ i))) := by
  obtain ⟨_, _, _, less⟩ := charging.tree.parent_exists atI below
  have shorter := SortedMap.length_erase (charging.wired.own_entry charging.tree atI below atP active)
  have gone : ∀ e ∈ (p.children.erase c.vtimeKey).entries, e.1 ≠ ⟨c'.vtime, i⟩ := fun e member same =>
    charging.wired.index_erase charging.tree atI below atP e member (congrArg Key.index same)
  have longer := SortedMap.length_insert (v := i) gone
  obtain ⟨x, _, _, rfl⟩ := advanceVtime_ok run
  refine tracked.setPair (by omega) atI atP ?_ ?_ fun j _ => l.agree_refl j
  · exact (tracked.listed i c atI).congr (l.agree_refl i) rfl (fun _ => rfl) rfl
  · refine (tracked.listed c.parent p atP).congr (l.agree_refl _) ?_ (fun _ => rfl) rfl
    rw [Class.withChildren_children]
    omega

theorem idleLog_nil {fuel i : Nat} {c : Class} (atI : h.classes[i]? = some c)
    (still : ¬(c.parent ≠ 0 ∧ c.nactive = 1)) : idleLog fuel h i = [] := by
  cases fuel with
  | zero => rfl
  | succ fuel =>
    rw [idleLog, atI]
    dsimp only
    split
    · rfl
    · exact if_neg still

theorem updateV_tracked {fuel i len : Nat} {passive : Bool} (charging : Charging g own i passive)
    (tracked : Tracked l g) (ahead : passive = true → Ahead h g i) (enough : i < fuel)
    (run : updateV len fuel g i passive = .ok g') :
    Tracked (l.noteAll (if passive then idleLog fuel h i else [])) g' := by
  induction fuel generalizing g i passive l with
  | zero => omega
  | succ fuel ih =>
    obtain ⟨c, atI, live⟩ := charging.live
    unfold updateV at run
    obtain ⟨⟨g₁, next⟩, stepped, go⟩ := Except.bind_ok_iff.mp run
    have step : UpdateStep g i c len passive g₁ next :=
      (updateVStep_spec charging.tree charging.wired atI live).ok stepped
    cases step with
    | top isTop =>
      cases go
      have none : (if passive then idleLog (fuel + 1) h i else []) = [] := by
        split
        · rename_i isPassive
          obtain ⟨c₀, atC₀, parent, _⟩ := (ahead isPassive).here c atI
          exact idleLog_nil atC₀ fun both => both.1 (parent.trans isTop)
        · rfl
      rw [none]
      exact tracked
    | @idle p below atP isPassive one =>
      subst isPassive
      obtain ⟨_, _, _, less⟩ := charging.tree.parent_exists atI below
      obtain ⟨c₀, atC₀, parent, active, vtime⟩ := (ahead rfl).here c atI
      obtain ⟨p₀, atP₀, parentP, activeP, vtimeP, vmaxP⟩ := (ahead rfl).above c.parent less p atP
      have log : idleLog (fuel + 1) h i = .idled c.parent i (max p.vmax c.vtime) :: idleLog fuel h c.parent := by
        rw [idleLog, atC₀]
        dsimp only
        rw [parent, atP₀]
        dsimp only
        rw [if_pos ⟨below, active.trans one⟩, vmaxP, vtime]
      rw [if_pos rfl, log]
      have step : UpdateStep g i c len true _ _ := .idle below atP rfl one
      refine ih (step.charging charging atI) (tracked.idles charging atI below atP one) (fun _ => ⟨?_, ?_⟩)
        (by omega) go
      · intro d atD
        rw [setClass_self ((setClass_other (by omega)).trans atP)] at atD
        cases atD
        exact ⟨p₀, atP₀, parentP, activeP, vtimeP⟩
      · intro j lower d atD
        rw [setClass_other (by omega), setClass_other (by omega)] at atD
        exact (ahead rfl).above j (by omega) d atD
    | @keep p n c' below atP count more advanced =>
      obtain ⟨_, _, _, less⟩ := charging.tree.parent_exists atI below
      have none : (if passive then idleLog (fuel + 1) h i else []) = [] := by
        split
        · rename_i isPassive
          obtain ⟨c₀, atC₀, _, active, _⟩ := (ahead isPassive).here c atI
          rw [if_pos isPassive] at count
          exact idleLog_nil atC₀ fun both => by omega
        · rfl
      rw [none]
      have step : UpdateStep g i c len passive _ _ := .keep below atP count more advanced
      exact ih (step.charging charging atI) (tracked.stays charging atI below atP (live below) advanced) nofun
        (by omega) go

end Hfsc

end R2
