import Mathlib.Tactic.IntervalCases
import R2.Hfsc.Overflow

namespace R2

/-- A line that serves a byte in `q` nanoseconds, where neither slope is rounded. -/
structure RuntimeSc.Exact (f : RuntimeSc) (q : Nat) : Prop where
  line : f.Line (1024 * q)
  whole : f.sm2 * q = 2 ^ 24
  fast : q ≤ 4096

namespace RuntimeSc.Exact

variable {f g : RuntimeSc} {isc : InternalSc} {q t w len x y : Nat}

theorem moved (exact : f.Exact q) (x y : Nat) : RuntimeSc.Exact { f with x := x, y := y } q :=
  ⟨⟨exact.line.dx, exact.line.dy, exact.line.slope, exact.line.finite⟩, exact.whole, exact.fast⟩

theorem seg (n q : Nat) : n * (1024 * q) / 1024 = n * q := by
  rw [Nat.mul_left_comm, Nat.mul_div_cancel_left _ (by decide)]

theorem reach (exact : f.Exact q) (w : Nat) : f.reach w = f.x + (w - f.y) * q := by
  obtain ⟨dx, dy, slope, _⟩ := exact.line
  unfold RuntimeSc.reach
  rw [dx, dy, slope, if_pos rfl, Nat.sub_zero, seg, Nat.add_zero, Nat.add_zero]
  split
  · rw [show w - f.y = 0 by omega, Nat.zero_mul, Nat.add_zero]
  · split
    · rw [show w - f.y = 0 by omega, Nat.zero_mul, Nat.add_zero]
    · rfl

theorem moved_reach (exact : f.Exact q) (x y w : Nat) :
    RuntimeSc.reach { f with x := x, y := y } w = x + (w - y) * q := (exact.moved x y).reach w

theorem reach_add (exact : f.Exact q) (w len : Nat) : f.reach (w + len) ≤ f.reach w + 4096 * len := by
  have more : (w + len - f.y) * q ≤ (w - f.y) * q + 4096 * len := by
    calc (w + len - f.y) * q ≤ (w - f.y + len) * q := Nat.mul_le_mul_right q (by omega)
      _ = (w - f.y) * q + q * len := by ring
      _ ≤ (w - f.y) * q + 4096 * len := Nat.add_le_add_left (Nat.mul_le_mul_right len exact.fast) _
  rw [exact.reach, exact.reach]
  omega

theorem reaches (exact : f.Exact q) (early : f.reach w < horizon) : f.Reaches w := by
  have reach := exact.reach w
  obtain ⟨dx, dy, slope, finite⟩ := exact.line
  refine Or.inr ⟨by rw [slope]; exact finite, ?_⟩
  rw [dx, dy, slope, Nat.add_zero, Nat.sub_zero, seg]
  omega

theorem y2x (exact : f.Exact q) (run : rtscY2x f w = .ok x) : x = f.reach w := by
  rw [exact.line.rtscY2x run, exact.reach, seg]

theorem x2y (exact : f.Exact q) (run : rtscX2y f x = .ok y) : y = f.y + (x - f.x) * f.sm2 / 2 ^ 24 := by
  obtain ⟨dx, dy, _⟩ := exact.line
  unfold rtscX2y at run
  split at run
  · cases run
    rw [show x - f.x = 0 by omega, Nat.zero_mul, Nat.zero_div, Nat.add_zero]
  · obtain ⟨right, atRight, run⟩ := Except.bind_ok_iff.mp run
    obtain ⟨_, rfl⟩ := add64_ok.mp atRight
    rw [dx, dy, if_neg (by omega)] at run
    obtain ⟨start, atStart, run⟩ := Except.bind_ok_iff.mp run
    obtain ⟨n, atN, run⟩ := Except.bind_ok_iff.mp run
    obtain ⟨_, rfl⟩ := add64_ok.mp atStart
    obtain ⟨_, rfl⟩ := add64_ok.mp run
    rw [segX2y_ok atN, Nat.sub_zero, Nat.add_zero]

/-- A curve that is kept at `t` is not there before it: no rounding lets it fall behind. -/
theorem min (exact : f.Exact q) (convex : isc.sm1 ≤ isc.sm2) (run : rtscMin f isc t w = .ok g) :
    g = f ∧ t ≤ f.reach w ∨ g = { f with x := t, y := w } := by
  obtain ⟨y1, atY1, ⟨below, rfl⟩ | ⟨_, rfl⟩⟩ := rtscMin_convex convex run
  · refine Or.inl ⟨rfl, ?_⟩
    have value := exact.x2y atY1
    have gain : (t - g.x) * g.sm2 < (w - g.y) * 2 ^ 24 := by
      refine (Nat.div_lt_iff_lt_mul (by decide)).mp ?_
      omega
    rw [← exact.whole, Nat.mul_left_comm] at gain
    have shorter : t - g.x < (w - g.y) * q := by
      rw [Nat.mul_comm] at gain
      exact Nat.lt_of_mul_lt_mul_left gain
    rw [exact.reach]
    omega
  · exact Or.inr rfl

end RuntimeSc.Exact

/-- The times of a class, none later than `v`, and offsets of at most `off`. -/
structure Class.Level (v off : Nat) (c : Class) : Prop where
  pvoff : c.pvoff = 0
  plain : c.rIsc = none
  convex : c.fIsc.sm1 ≤ c.fIsc.sm2
  exact : c.parent ≠ 0 → ∃ q, c.fRun.Exact q
  reach : c.parent ≠ 0 → c.fRun.reach c.fBytes ≤ v
  placed : c.parent ≠ 0 → c.nactive ≠ 0 → c.fRun.reach c.fBytes + c.vadj ≤ v + c.voff
  top : c.parent = 0 → c.nactive = 0
  vtime : c.vtime ≤ v
  vmin : c.vmin ≤ v
  vmax : c.vmax ≤ v
  voff : c.voff ≤ off

namespace Class.Level

variable {v v' off off' len n vtime pvoff pvperiod pnactive : Nat} {c c' : Class}

theorem mono (level : c.Level v off) (le : v ≤ v') (more : off ≤ off') : c.Level v' off' :=
  { level with
    reach := fun below => (level.reach below).trans le
    placed := fun below active => (level.placed below active).trans (Nat.add_le_add_right le _)
    vtime := level.vtime.trans le
    vmin := level.vmin.trans le
    vmax := level.vmax.trans le
    voff := level.voff.trans more }

theorem timely (level : c.Level v off) (early : off + v < horizon) : c.Timely := by
  obtain ⟨vtime, vmin, vmax, voff⟩ : c.vtime ≤ v ∧ c.vmin ≤ v ∧ c.vmax ≤ v ∧ c.voff ≤ off :=
    ⟨level.vtime, level.vmin, level.vmax, level.voff⟩
  exact ⟨by omega, by omega, by omega⟩

theorem short (level : c.Level v off) : c.Short :=
  ⟨fun concave => absurd level.convex (Nat.not_le.mpr concave), fun r is => by rw [level.plain] at is; cases is⟩

/-- A class that becomes active at `vtime` keeps a curve that is there by then, or starts it anew. -/
theorem start (level : c.Level v off) (below : c.parent ≠ 0) (entry : vtime ≤ v) (offset : pvoff ≤ off')
    (run : Hfsc.startCurveAt (c.joinAt 1 vtime) pvoff pvperiod pnactive = .ok c') : c'.Level v off' := by
  obtain ⟨q, exact⟩ := level.exact below
  have reach := level.reach below
  obtain ⟨f, _, minimum, outcome⟩ := Hfsc.startCurveAt_ok run
  have voff : pvoff - (c.joinAt 1 vtime).pvoff = pvoff := by rw [Class.joinAt_pvoff, level.pvoff, Nat.sub_zero]
  rw [voff] at minimum outcome
  have begins {f : RuntimeSc} {own period : Nat} (line : f.Exact q) (early : f.reach c.fBytes ≤ v)
      (less : own ≤ off') : ((c.joinAt 1 vtime).beginAt f own period).Level v off' :=
    { pvoff := level.pvoff
      plain := level.plain
      convex := level.convex
      exact := fun _ => ⟨q, line⟩
      reach := fun _ => early
      placed := fun _ _ => early.trans (Nat.le_add_right ..)
      top := fun top => absurd top below
      vtime := entry
      vmin := level.vmin
      vmax := level.vmax
      voff := less }
  rcases exact.min level.convex minimum with ⟨rfl, _⟩ | rfl
  · rcases outcome with ⟨atX, rfl⟩ | ⟨_, rfl⟩
    · refine begins (exact.moved vtime c.fRun.y) ?_ (Nat.zero_le _)
      rw [exact.reach] at reach
      refine (exact.moved_reach vtime c.fRun.y c.fBytes).trans_le ?_
      change c.fRun.x = vtime + pvoff at atX
      omega
    · exact begins exact reach offset
  · rcases outcome with ⟨_, rfl⟩ | ⟨away, _⟩
    · refine begins (exact.moved vtime c.fBytes) ?_ (Nat.zero_le _)
      refine (exact.moved_reach vtime c.fBytes c.fBytes).trans_le ?_
      rwa [Nat.sub_self, Nat.zero_mul]
    · exact absurd rfl away

theorem charge (level : c.Level v off) (below : c.parent ≠ 0) (less : n ≤ c.nactive) :
    (c.charge len n).Level (v + 4096 * len) off := by
  obtain ⟨q, exact⟩ := level.exact below
  have more := exact.reach_add c.fBytes len
  have reach := level.reach below
  have later : c.fRun.reach (c.fBytes + len) ≤ v + 4096 * len := by omega
  refine { level.mono (Nat.le_add_right v (4096 * len)) le_rfl with
    reach := fun _ => later, placed := fun _ active => ?_, top := fun top => absurd top below }
  have placed := level.placed below fun none => active (Nat.le_zero.mp (none ▸ less))
  change c.fRun.reach (c.fBytes + len) + c.vadj ≤ v + 4096 * len + c.voff
  omega

/-- A class that is charged and stays active, in its new place. -/
theorem advance {pvmin : Nat} (level : c.Level v off) (below : c.parent ≠ 0) (active : c.nactive ≠ 0)
    (mark : pvmin ≤ v) (run : Hfsc.advanceVtime c pvmin = .ok c') : c'.Level v off := by
  obtain ⟨q, exact⟩ := level.exact below
  obtain ⟨x, atX, le, rfl⟩ := Hfsc.advanceVtime_ok run
  obtain rfl := exact.y2x atX
  have placed := level.placed below active
  refine { level with placed := fun _ _ => ?_, vtime := ?_ }
  · change c.fRun.reach c.fBytes + (c.vadj + (pvmin - (c.fRun.reach c.fBytes - c.voff + c.vadj))) ≤ v + c.voff
    omega
  · change max (c.fRun.reach c.fBytes - c.voff + c.vadj) pvmin ≤ v
    omega

end Class.Level

namespace Hfsc

variable {h h' g : Hfsc} {own : Nat → Nat} {v off len cap n i : Nat} {c p : Class}

/-- No class is below a leaf. -/
def Stemmed (h : Hfsc) : Prop := ∀ (i : Nat) (c p : Class), h.classes[i]? = some c → c.parent ≠ 0 →
  h.classes[c.parent]? = some p → p.leaf = false

/-- No class is below a leaf, and only leaves have packets of their own. -/
structure Stems (own : Nat → Nat) (h : Hfsc) : Prop where
  stemmed : Stemmed h
  bare : ∀ (i : Nat) (c : Class), h.classes[i]? = some c → c.leaf = false → own i = 0

theorem Stemmed.of_fixed (stemmed : Stemmed h) (same : g.fixed = h.fixed) : Stemmed g := by
  intro i c p atI below atP
  obtain ⟨c', atI', sameC⟩ := lookup_of_fixed same atI
  obtain ⟨p', atP', sameP⟩ := lookup_of_fixed same atP
  rw [Class.parent_of_fixed sameC] at below atP'
  exact (Class.leaf_of_fixed sameP).trans (stemmed i c' p' atI' below atP')

theorem Stemmed.put {el : KeyMap} {c' : Class} (stemmed : Stemmed h) (atI : h.classes[i]? = some c)
    (same : c'.parent = c.parent ∧ c'.leaf = c.leaf) : Stemmed (h.put i c' el n) := by
  have back {j : Nat} {d' : Class} (atJ : (h.put i c' el n).classes[j]? = some d') :
      ∃ d, h.classes[j]? = some d ∧ d'.parent = d.parent ∧ d'.leaf = d.leaf := by
    rcases (setClass_iff atI).mp atJ with ⟨rfl, rfl⟩ | ⟨_, old⟩
    · exact ⟨c, atI, same⟩
    · exact ⟨d', old, rfl, rfl⟩
  intro j d p atJ below atP
  obtain ⟨d', atJ', parent, _⟩ := back atJ
  obtain ⟨p', atP', _, leaf⟩ := back atP
  rw [parent] at below atP'
  exact leaf.trans (stemmed j d' p' atJ' below atP')

theorem Stemmed.append {names : AList (fun _ : String => Nat)} (stemmed : Stemmed h) (tree : Tree h)
    (atP : h.classes[c.parent]? = some p) (stem : p.leaf = false) :
    Stemmed { h with classes := h.classes ++ [c], classNames := names } := by
  intro j d q atJ below atQ
  rcases append_iff.mp atJ with old | ⟨_, rfl⟩
  · obtain ⟨_, atQ', _⟩ := tree.parent_exists old below
    rcases append_iff.mp atQ with old' | ⟨last, _⟩
    · exact stemmed j d q old below old'
    · rw [last, List.getElem?_eq_none le_rfl] at atQ'
      cases atQ'
  · rcases append_iff.mp atQ with old | ⟨last, _⟩
    · rw [atP] at old
      cases old
      exact stem
    · rw [last, List.getElem?_eq_none le_rfl] at atP
      cases atP

theorem Stemmed.stems (stemmed : Stemmed h) (queues : LeafQueues h) : Stems (backlog h) h := by
  refine ⟨stemmed, fun i c atI stem => ?_⟩
  rw [backlog_eq atI]
  split
  · rfl
  · rename_i some
    have leaf := queues i c.leaf c.packets (by rw [cellAt, atI]; rfl) fun none => some (by rw [none]; rfl)
    rw [stem] at leaf
    cases leaf

theorem Stems.of_fixed (stems : Stems own h) (same : g.fixed = h.fixed) : Stems own g := by
  refine ⟨stems.stemmed.of_fixed same, fun i c atI stem => ?_⟩
  obtain ⟨c', atI', sameC⟩ := lookup_of_fixed same atI
  exact stems.bare i c' atI' ((Class.leaf_of_fixed sameC).symm.trans stem)

/-- A parent with no active child is not active. -/
theorem Stems.passive {off : Nat → Int} (stems : Stems own h) (tree : Tree h) (wired : Wired h own off)
    (atI : h.classes[i]? = some c) (below : c.parent ≠ 0) (atP : h.classes[c.parent]? = some p)
    (top : p.parent = 0 → p.nactive = 0) (settled : off c.parent = 0) (empty : p.children.entries = []) :
    p.nactive = 0 := by
  by_cases isTop : p.parent = 0
  · exact top isTop
  · have count := wired.counted c.parent p atP (tree.two_le atP isTop)
    rw [empty, stems.bare c.parent p atP (stems.stemmed i c p atI below atP), settled, List.length_nil] at count
    omega

/-- What a run of few calls and bytes keeps: no time is later than what `cap` bytes take at the slowest
rate, less the bytes that wait. -/
structure Leveled (v off cap : Nat) (h : Hfsc) : Prop where
  classes : Every (Class.Level v off) h
  bytes : v + 4096 * bytesQueued h ≤ 4096 * cap
  stemmed : Stemmed h

theorem keptUses_fits_level (level : c.Level v off) (below : c.parent ≠ 0) : ∀ u ∈ h.keptUses c p, u.Fits := by
  intro u member
  obtain ⟨q, exact⟩ := level.exact below
  unfold keptUses at member
  split at member
  · rename_i kept
    rw [List.mem_singleton.mp member]
    obtain ⟨vtime, _, kept⟩ := Except.bind_ok_iff.mp kept
    obtain ⟨f, minimum, away⟩ := Except.bind_ok_iff.mp kept
    have away := beq_eq_false_iff_ne.mp (Except.ok.inj away)
    rcases exact.min level.convex minimum with ⟨_, early⟩ | rfl
    · exact Or.inr ((Nat.le_add_left ..).trans early)
    · exact absurd rfl away
  · cases member

theorem initUses_fits {fuel : Nat} (sound : Sound h) (levels : Every (Class.Level v off) h)
    (stems : Stems (backlog h) h) : ∀ u ∈ initUses fuel h i, u.Fits := by
  induction fuel generalizing i with
  | zero => exact fun _ member => absurd member List.not_mem_nil
  | succ fuel ih =>
    unfold initUses
    split
    · exact fun _ member => absurd member List.not_mem_nil
    · rename_i c atI
      split
      · exact fun _ member => absurd member List.not_mem_nil
      · rename_i p atP
        split
        · rename_i enters
          intro u member
          rcases List.mem_append.mp member with here | above
          · rcases List.mem_append.mp here with kept | opened
            · exact keptUses_fits_level (levels i c atI) enters.1 u kept
            · unfold openedUses at opened
              split at opened
              · rename_i active
                have empty := List.isEmpty_iff.mp active.1
                exact absurd (stems.passive sound.tree sound.wired atI enters.1 atP
                  (levels _ p atP).top rfl empty) active.2
              · cases opened
          · exact ih u above
        · exact fun _ member => absurd member List.not_mem_nil

theorem chargeUses_fits {fuel : Nat} {passive : Bool} (levels : Every (Class.Level v off) h)
    (early : v + 4096 * len < horizon) : ∀ u ∈ chargeUses len fuel h i passive, u.Fits := by
  induction fuel generalizing i passive with
  | zero => exact fun _ member => absurd member List.not_mem_nil
  | succ fuel ih =>
    unfold chargeUses
    split
    · exact fun _ member => absurd member List.not_mem_nil
    · rename_i c atI
      split
      · exact fun _ member => absurd member List.not_mem_nil
      · rename_i below
        split
        · exact ih
        · intro u member
          rcases List.mem_cons.mp member with rfl | above
          · obtain ⟨q, exact⟩ := (levels i c atI).exact below
            have reach := (levels i c atI).reach below
            have more := exact.reach_add c.fBytes len
            exact exact.reaches (by omega)
          · exact ih u above

theorem serveUses_fits (levels : Every (Class.Level v off) h) (early : v + 4096 * bytesQueued h < horizon) :
    ∀ u ∈ h.serveUses i, u.Fits := by
  unfold serveUses
  split
  · exact fun _ member => absurd member List.not_mem_nil
  · rename_i c atI
    have plain := (levels i c atI).plain
    split
    · exact fun _ member => absurd member List.not_mem_nil
    · rename_i pkt rest packets
      have queue := packets_le_bytesQueued atI
      rw [packets, List.map_cons, List.sum_cons] at queue
      have none : deadlineUses c rest = [] := by
        cases rest with
        | nil => rfl
        | cons => simp only [deadlineUses, plain, Option.isSome_none, Bool.false_eq_true, if_false]
      rw [none, List.nil_append]
      exact chargeUses_fits levels (by omega)

/-- The walk of `init_v` adds the longest time to the offsets of the classes it has been at. -/
structure Climbing (own : Nat → Nat) (v off i : Nat) (h : Hfsc) : Prop where
  all : Every (Class.Level v (off + v)) h
  ahead : ∀ j c, j < i → h.classes[j]? = some c → c.Level v off
  stems : Stems own h

theorem Climbing.enters {c' p' : Class} (tree : Tree h) (climbing : Climbing own v off i h)
    (atI : h.classes[i]? = some c) (below : c.parent ≠ 0) (atP : h.classes[c.parent]? = some p)
    (same : c'.fixed = c.fixed) (sameP : p'.fixed = p.fixed) (child : c'.Level v (off + v))
    (parent : p'.Level v (off + v)) : Climbing own v off c.parent ((h.setClass i c').setClass c.parent p') := by
  obtain ⟨_, _, _, less⟩ := tree.parent_exists atI below
  refine ⟨climbing.all.setPair (by omega) atI atP child parent, fun j d low atJ => ?_,
    climbing.stems.of_fixed (setPair_fixed (by omega) atI atP same sameP)⟩
  rw [setClass_other (by omega), setClass_other (by omega)] at atJ
  exact climbing.ahead j d (by omega) atJ

theorem InitStep.climbing {next : Option Nat} (entering : Entering h own i) (climbing : Climbing own v off i h)
    (atI : h.classes[i]? = some c) (step : InitStep h i c h' next) : Climbing own v off (next.getD 0) h' := by
  have tree := entering.tree
  have level := climbing.all i c atI
  have none {g : Hfsc} (all : Every (Class.Level v (off + v)) g) (same : g.fixed = h.fixed) :
      Climbing own v off 0 g := ⟨all, fun j _ low => absurd low (Nat.not_lt_zero j), climbing.stems.of_fixed same⟩
  cases step with
  | top => exact none climbing.all rfl
  | busy below active =>
    have more : (c.joinAt (c.nactive + 1) c.vtime).Level v (off + v) :=
      { level with placed := fun below _ => level.placed below active.ne', top := fun top => absurd top below }
    exact none (climbing.all.setClass atI more) (setClass_fixed atI rfl)
  | @join p key m last vt c' below atP passive atLast atM mean run =>
    obtain ⟨_, _, _, less⟩ := tree.parent_exists atI below
    have parent := climbing.ahead c.parent p less atP
    have meet : vt ≤ v := by
      have mark := parent.vmin
      have latest := (climbing.all m last atM).vtime
      unfold meanVtime at mean
      split at mean
      · cases mean
        exact latest
      · obtain ⟨sum, atSum, mean⟩ := Except.bind_ok_iff.mp mean
        obtain ⟨_, rfl⟩ := add64_ok.mp atSum
        cases mean
        omega
    have entry : entryVtime c p vt ≤ v := by
      unfold entryVtime
      split
      · exact meet
      · exact level.vtime
    have child := level.start below entry (parent.voff.trans (Nat.le_add_right off v)) run
    exact climbing.enters tree atI below atP (startCurveAt_keeps run).1 rfl child
      { parent.mono le_rfl (Nat.le_add_right off v) with }
  | @first p c' below atP passive empty run =>
    obtain ⟨_, _, _, less⟩ := tree.parent_exists atI below
    have parent := climbing.ahead c.parent p less atP
    have idle := climbing.stems.passive tree entering.wired atI below atP parent.top (if_neg (by omega)) empty
    have opened : p.voff + p.vmax ≤ off + v := Nat.add_le_add parent.voff parent.vmax
    have child := level.start below (Nat.zero_le v) opened run
    exact climbing.enters tree atI below atP (startCurveAt_keeps run).1 rfl child
      { parent with
        placed := fun _ active => absurd idle active
        vmin := Nat.zero_le v, vmax := Nat.zero_le v, voff := opened }

theorem Sound.initV_levels (sound : Sound h) (levels : Every (Class.Level v off) h) (stems : Stems (backlog h) h)
    (atI : h.classes[i]? = some c) (empty : c.packets = []) (leaf : c.leaf = true)
    (run : initV h.walkFuel h i true = .ok g) : Every (Class.Level v (off + v)) g := by
  obtain ⟨bound, _⟩ := List.getElem?_eq_some_iff.mp atI
  have bare : Stems (fun j => if j = i then 1 else backlog h j) h := by
    refine ⟨stems.stemmed, fun j d atJ stem => ?_⟩
    split
    · rename_i same
      rw [same, atI] at atJ
      cases atJ
      rw [leaf] at stem
      cases stem
    · exact stems.bare j d atJ stem
  have start : Climbing (fun j => if j = i then 1 else backlog h j) v off i h :=
    ⟨fun k d atK => (levels k d atK).mono le_rfl (Nat.le_add_right off v), fun j d _ atJ => levels j d atJ, bare⟩
  exact ((initV_rule (fun g j => Climbing _ v off j g) (Climbing _ v off 0)
    (fun _ _ _ _ _ entering atJ climbing step => step.climbing entering climbing atJ)
    (fun _ _ _ _ entering atJ climbing step => step.climbing entering climbing atJ)
    (sound.entering atI empty) start (by simp only [walkFuel]; omega)).ok run).2.2.all

/-- The walk of `update_v` charges each class on its way once. -/
structure Sinking (v off len i : Nat) (h : Hfsc) : Prop where
  all : Every (Class.Level (v + 4096 * len) off) h
  ahead : ∀ j c, j ≤ i → h.classes[j]? = some c → c.Level v off

theorem Sinking.leaves {c' p' : Class} (tree : Tree h) (sinking : Sinking v off len i h)
    (atI : h.classes[i]? = some c) (below : c.parent ≠ 0) (atP : h.classes[c.parent]? = some p)
    (child : c'.Level (v + 4096 * len) off) (parent : p'.Level v off) :
    Sinking v off len c.parent ((h.setClass i c').setClass c.parent p') := by
  obtain ⟨_, _, _, less⟩ := tree.parent_exists atI below
  refine ⟨sinking.all.setPair (by omega) atI atP child (parent.mono (Nat.le_add_right ..) le_rfl),
    fun j d low atJ => ?_⟩
  rcases (setPair_iff c' p' (by omega) atI atP).mp atJ with ⟨_, rfl⟩ | ⟨rfl, _⟩ | ⟨_, _, atJ⟩
  · exact parent
  · omega
  · exact sinking.ahead j d (by omega) atJ

theorem UpdateStep.sinking {passive goes : Bool} {q : Nat} (tree : Tree h) (sinking : Sinking v off len i h)
    (atI : h.classes[i]? = some c) (step : UpdateStep h i c len passive h' (some (q, goes))) :
    Sinking v off len q h' := by
  have level := sinking.ahead i c le_rfl atI
  cases step with
  | @idle p below atP =>
    obtain ⟨_, _, _, less⟩ := tree.parent_exists atI below
    have parent := sinking.ahead c.parent p less.le atP
    exact sinking.leaves tree atI below atP (level.charge below (Nat.zero_le _))
      { parent with vmax := max_le parent.vmax level.vtime }
  | @keep p n c' below atP count pos run =>
    obtain ⟨_, _, _, less⟩ := tree.parent_exists atI below
    have parent := sinking.ahead c.parent p less.le atP
    have fewer : n ≤ c.nactive := by
      rw [count]
      split <;> omega
    exact sinking.leaves tree atI below atP ((level.charge below fewer).advance below pos.ne'
      (parent.vmin.trans (Nat.le_add_right ..)) run) { parent with }

theorem updateV_levels {passive : Bool} {fuel : Nat} (charging : Charging h own i passive) (enough : i < fuel)
    (levels : Every (Class.Level v off) h) (run : updateV len fuel h i passive = .ok g) :
    Every (Class.Level (v + 4096 * len) off) g := by
  have start : Sinking v off len i h :=
    ⟨fun k c atK => (levels k c atK).mono (Nat.le_add_right ..) le_rfl, fun j c _ atJ => levels j c atJ⟩
  exact ((updateV_rule (fun g j _ => Sinking v off len j g) (Every (Class.Level (v + 4096 * len) off))
    (fun _ _ _ _ _ _ _ charging atJ sinking step => step.sinking charging.tree sinking atJ)
    (fun _ _ _ _ _ _ _ _ sinking => sinking.all) charging start enough).ok run).2.2

theorem Sound.getMinV_levels (sound : Sound h) (levels : Every (Class.Level v off) h) {r : Nat}
    (run : getMinV h.walkFuel h h.root = .ok (r, g)) : Every (Class.Level v off) g := by
  obtain ⟨root, atRoot, _⟩ := sound.tree.top
  rw [← sound.tree.root] at atRoot
  obtain ⟨_, _, _, _, levels, _⟩ := (getMinV_rule (fun g _ => Every (Class.Level v off) g)
    (fun g q pc j d _ _ levels atQ _ atJ _ => levels.setClass atQ
      { levels q pc atQ with vmin := max_le (levels q pc atQ).vmin (levels j d atJ).vtime })
    sound.tree sound.wired levels atRoot (by rw [sound.tree.root]) .root (by simp only [walkFuel]; omega)).ok run
  exact levels

namespace Leveled

variable {v' off' cap' : Nat} {op : HfscOp} {event : HfscEvent}

theorem mono (leveled : Leveled v off cap h) (le : off ≤ off') (more : cap ≤ cap') : Leveled v off' cap' h := by
  refine ⟨fun k c atK => (leveled.classes k c atK).mono le_rfl le, ?_, leveled.stemmed⟩
  have bytes := leveled.bytes
  omega

theorem put {el : KeyMap} {c' : Class} (leveled : Leveled v off cap h) (atI : h.classes[i]? = some c)
    (level : c'.Level v off) (same : c'.parent = c.parent ∧ c'.leaf = c.leaf)
    (bytes : (c'.packets.map Packet.len).sum + cap ≤ (c.packets.map Packet.len).sum + cap') :
    Leveled v off cap' (h.put i c' el n) := by
  refine ⟨leveled.classes.put atI level, ?_, leveled.stemmed.put atI same⟩
  have sums := bytesQueued_put c' el n atI
  have least := leveled.bytes
  omega

theorem of_fixed (leveled : Leveled v off cap h) (levels : Every (Class.Level v off') g)
    (same : g.fixed = h.fixed) : Leveled v off' cap g := by
  refine ⟨levels, ?_, leveled.stemmed.of_fixed same⟩
  rw [bytesQueued_of_fixed same]
  exact leveled.bytes

/-- The horizon lies beyond what the bytes so far can take. -/
theorem fits (leveled : Leveled v off cap h) (sound : Sound h) (queues : LeafQueues h)
    (early : off + 4096 * cap < horizon) : Fits h op := by
  have bytes := leveled.bytes
  have levels := leveled.classes
  refine ⟨fun c member => ?_, fun c member => ?_, ?_⟩
  · obtain ⟨k, atK⟩ := List.getElem?_of_mem member
    exact (levels k c atK).timely (by omega)
  · obtain ⟨k, atK⟩ := List.getElem?_of_mem member
    exact (levels k c atK).short
  · cases op with
    | create | destroy => exact fun _ member => absurd member List.not_mem_nil
    | enqueue classid pkt now =>
      simp only [uses]
      split
      · exact fun _ member => absurd member List.not_mem_nil
      · rename_i c atI
        split
        · simp only [backlogUses, (levels _ c atI).plain, List.append_nil]
          exact initUses_fits sound levels (leveled.stemmed.stems queues)
        · exact fun _ member => absurd member List.not_mem_nil
    | dequeue now =>
      simp only [uses]
      split
      · exact serveUses_fits levels (by omega)
      · exact fun _ member => absurd member List.not_mem_nil

end Leveled

/-- No new class has a real-time curve, or a class above it that is a leaf, and the fair-share curve of
each is a line of 2 Gbit/s, halved up to ten times. -/
def Halved (h : Hfsc) : HfscOp → Prop
  | .create _ parentName _ _ curves =>
    curves.rSc = none ∧ (∃ k < 11, curves.fSc = ⟨0, 0, 2 * hfscFreq / 2 ^ k⟩) ∧
      ∀ p ∈ (h.classNames.lookup parentName).bind fun parent => h.classes[parent]?, p.leaf = false
  | _ => True

instance (h : Hfsc) (op : HfscOp) : Decidable (Halved h op) :=
  match op with
  | .create .. => inferInstanceAs (Decidable (_ ∧ _ ∧ _))
  | .destroy _ | .enqueue .. | .dequeue _ => .isTrue trivial

theorem runtimeInit_exact {k : Nat} {isc : InternalSc} (few : k < 11)
    (run : sc2isc ⟨0, 0, 2 * hfscFreq / 2 ^ k⟩ = .ok isc) : (runtimeInit isc 0 0).Exact (4 * 2 ^ k) := by
  obtain rfl := sc2isc_single run
  interval_cases k <;> exact ⟨⟨rfl, rfl, by decide, by decide⟩, by decide, by decide⟩

theorem Class.new_level {parent index qlimit : Nat} {isLeaf : Bool} {curves : Curves}
    (real : curves.rSc = none) (halved : ∃ k < 11, curves.fSc = ⟨0, 0, 2 * hfscFreq / 2 ^ k⟩)
    (run : Class.new parent index qlimit isLeaf 0 curves = .ok c) : c.Level v off := by
  obtain ⟨rIsc, _, _, _, fIsc, curve, fair, rfl⟩ := Class.new_ok run
  obtain ⟨k, few, rate⟩ := halved
  rw [rate] at fair
  rw [real] at curve
  cases Except.ok.inj curve
  have exact := runtimeInit_exact few fair
  have convex : fIsc.sm1 ≤ fIsc.sm2 := by
    rw [sc2isc_single fair, m2sm_zero]
    exact Nat.zero_le _
  have reach : (runtimeInit fIsc 0 0).reach 0 ≤ v := by
    rw [exact.reach, Nat.zero_sub, Nat.zero_mul]
    exact Nat.zero_le v
  exact {
    pvoff := rfl
    plain := rfl
    convex := convex
    exact := fun _ => ⟨_, exact⟩
    reach := fun _ => reach
    placed := fun _ active => absurd rfl active
    top := fun _ => rfl
    vtime := Nat.zero_le v
    vmin := Nat.zero_le v
    vmax := Nat.zero_le v
    voff := Nat.zero_le off }

namespace Leveled

variable {op : HfscOp} {event : HfscEvent}

theorem create {name parentName : String} {qlimit : Nat} {isLeaf : Bool} {curves : Curves}
    {result : Except String Unit} (leveled : Leveled v off cap h) (tree : Tree h)
    (halved : Halved h (.create name parentName qlimit isLeaf curves))
    (step : CreateStep h name parentName qlimit isLeaf curves result h') : Leveled v off cap h' := by
  obtain ⟨real, rate, stem⟩ := halved
  cases step with
  | refused => exact leveled
  | @created parent p c _ named atP _ run =>
    rw [(leveled.classes parent p atP).pvoff] at run
    have level : c.Level v off := Class.new_level real rate run
    have leaf : p.leaf = false := stem p (by rw [named]; exact atP)
    obtain ⟨_, _, _, _, _, _, _, rfl⟩ := Class.new_ok run
    refine ⟨leveled.classes.append level, ?_, leveled.stemmed.append tree atP leaf⟩
    rw [bytesQueued_append rfl]
    exact leveled.bytes

theorem enqueue {pkt : Packet} {now : Nat} {accepted : Bool} (leveled : Leveled v off cap h) (sound : Sound h)
    (queues : LeafQueues h) (leaf : ∀ c, h.classes[i]? = some c → c.inUse = true → c.leaf = true)
    (step : EnqueueStep h i pkt now accepted h') : Leveled v (off + v) (cap + pkt.len) h' := by
  have later : Leveled v (off + v) cap h := leveled.mono (Nat.le_add_right off v) le_rfl
  cases step with
  | refused => exact later.mono le_rfl (Nat.le_add_right cap pkt.len)
  | @dropped c atI =>
    have counted : ({ c with qdrops := c.qdrops + 1 } : Class).Level v (off + v) := { later.classes i c atI with }
    have dropped : Leveled v (off + v) cap (h.put i { c with qdrops := c.qdrops + 1 } h.eligible h.pktsQueued) :=
      later.put atI counted ⟨rfl, rfl⟩ le_rfl
    exact dropped.mono le_rfl (Nat.le_add_right cap pkt.len)
  | @more c atI =>
    refine later.put atI { later.classes i c atI with } ⟨rfl, rfl⟩ ?_
    simp only [Class.withPackets_packets, List.map_append, List.sum_append, List.map_cons, List.map_nil,
      List.sum_cons, List.sum_nil]
    omega
  | @first c g d d' atI inUse empty run atD initialised =>
    obtain ⟨fixed, _⟩ := (sound.initV_ok atI empty).ok run
    have levels := sound.initV_levels leveled.classes (leveled.stemmed.stems queues) atI empty (leaf c atI inUse) run
    rw [initEd_none (levels i d atD).plain] at initialised
    obtain rfl := Except.ok.inj initialised
    refine (leveled.of_fixed levels fixed).put atD { levels i d atD with } ⟨rfl, rfl⟩ ?_
    rw [Class.packets_of_fixed (fixed_at fixed atI atD), empty]
    simp only [Class.withPackets_packets, List.map_cons, List.map_nil, List.sum_cons, List.sum_nil]
    omega

theorem dequeue {now : Nat} {served : Option (Nat × Packet)} (leveled : Leveled v off cap h) (sound : Sound h)
    (step : DequeueStep h now served h') : ∃ v', Leveled v' off cap h' := by
  cases step with
  | idle _ atV =>
    obtain ⟨fixed, _⟩ := sound.getMinV_ok.ok atV
    exact ⟨v, leveled.of_fixed (sound.getMinV_levels leveled.classes atV) fixed⟩
  | realtime _ _ atI realtime =>
    rw [(leveled.classes _ _ atI).plain] at realtime
    cases realtime
  | @linkshare i g c pkt rest d el g' _ atV some atI packets next run =>
    obtain ⟨fixed, sound', _⟩ := sound.getMinV_ok.ok atV
    have pos := Nat.pos_of_ne_zero some
    have found := leveled.of_fixed (sound.getMinV_levels leveled.classes atV) fixed
    obtain ⟨place, packets'⟩ := next.place
    have same : g'.fixed = (g.put i d el g.pktsQueued).fixed :=
      ((sound'.pop atI pos packets place packets' (next.indexed sound'.indexed atI packets)).ok run).1
    have charging := @Sound.charging _ sound' _ g.pktsQueued _ _ _ _ el atI pos packets place packets'
    have popped : Every (Class.Level v off) (g.put i d el g.pktsQueued) := by
      obtain ⟨_, rfl⟩ := next.times
      exact found.classes.put atI { found.classes i c atI with }
    obtain ⟨bound, _⟩ := List.getElem?_eq_some_iff.mp atI
    have enough : i < g.walkFuel := by
      simp only [walkFuel]
      omega
    have charged : Leveled (v + 4096 * pkt.len) off cap g' := by
      refine ⟨updateV_levels charging enough popped run, ?_,
        (found.stemmed.put atI ⟨place.parent, place.leaf⟩).of_fixed same⟩
      have sums := bytesQueued_put d el g.pktsQueued atI
      have bytes := found.bytes
      rw [packets, packets', List.map_cons, List.sum_cons] at sums
      rw [bytesQueued_of_fixed same]
      omega
    exact ⟨v + 4096 * pkt.len, charged.classes, charged.bytes, charged.stemmed⟩

/-- What one call keeps: `off` grows by the longest time. -/
theorem stepped (leveled : Leveled v off cap h) (sound : Sound h) (queues : LeafQueues h) (calls : LeafCalls h op)
    (halved : Halved h op) (step : Stepped h op event h') :
    ∃ v', Leveled v' (off + 4096 * cap) (cap + op.bytes) h' := by
  have bytes := leveled.bytes
  cases step with
  | create step => exact ⟨v, (leveled.create sound.tree halved step).mono (Nat.le_add_right ..) le_rfl⟩
  | spare => exact calls.elim
  | enqueue step => exact ⟨v, (leveled.enqueue sound queues calls step).mono (by omega) le_rfl⟩
  | dequeue step =>
    obtain ⟨v', leveled'⟩ := leveled.dequeue sound step
    exact ⟨v', leveled'.mono (Nat.le_add_right ..) le_rfl⟩

theorem new {bandwidth : Nat} (made : Hfsc.new bandwidth = .ok h) : Leveled 0 0 0 h := by
  unfold Hfsc.new at made
  obtain ⟨c, run, made⟩ := Except.bind_ok_iff.mp made
  cases Except.ok.inj made
  obtain ⟨_, _, _, _, _, curve, fair, rfl⟩ := Class.new_ok run
  cases Except.ok.inj curve
  have top {c : Class} (parent : c.parent = 0) (convex : c.fIsc.sm1 ≤ c.fIsc.sm2) (idle : c.nactive = 0)
      (plain : c.rIsc = none)
      (zero : c.pvoff = 0 ∧ c.vtime = 0 ∧ c.vmin = 0 ∧ c.vmax = 0 ∧ c.voff = 0) : c.Level 0 0 := by
    obtain ⟨pvoff, vtime, vmin, vmax, voff⟩ := zero
    exact ⟨pvoff, plain, convex, fun below => absurd parent below, fun below => absurd parent below,
      fun below => absurd parent below, fun _ => idle, vtime.le, vmin.le, vmax.le, voff.le⟩
  refine ⟨Every.of_mem ?_, le_rfl, fun i c p atI below _ => ?_⟩
  · simp only [List.mem_cons, List.not_mem_nil, or_false, forall_eq_or_imp, forall_eq]
    refine ⟨top rfl le_rfl rfl rfl ⟨rfl, rfl, rfl, rfl, rfl⟩, top rfl ?_ rfl rfl ⟨rfl, rfl, rfl, rfl, rfl⟩⟩
    rw [sc2isc_single fair, m2sm_zero]
    exact Nat.zero_le _
  · match i with
    | 0 => cases atI; exact absurd rfl below
    | 1 => cases atI; exact absurd rfl below
    | _ + 2 => cases atI

end Leveled

theorem offsets_early {calls room : Nat} (less : cap ≤ room) (both : (calls + 1) * room ≤ 2 ^ 50) :
    calls * (4096 * room) + 4096 * cap < horizon := by
  have far := horizon_add
  have whole : calls * (4096 * room) + 4096 * room = 4096 * ((calls + 1) * room) := by ring
  omega

theorem Run.leveled {bandwidth room : Nat} {h₀ : Hfsc} {trace : List (HfscOp × HfscEvent)}
    (made : Hfsc.new bandwidth = .ok h₀) (run : Run (fun h op => Accepted h op ∧ Halved h op) h₀ trace h)
    (bytes : offered trace ≤ room) (both : (trace.length + 1) * room ≤ 2 ^ 50) :
    Run (fun h op => Accepted h op ∧ Fits h op) h₀ trace h ∧ Sound h ∧ LeafQueues h ∧
      ∃ v, Leveled v (trace.length * (4096 * room)) (offered trace) h := by
  induction run with
  | start => exact ⟨.start, Sound.new made, leafQueues_new made, 0, (Leveled.new made).mono (Nat.zero_le _) le_rfl⟩
  | @next trace h op event h' _ allowed step ih =>
    rw [offered_append] at bytes ⊢
    rw [List.length_append, List.length_singleton] at both ⊢
    have fewer : (trace.length + 1) * room ≤ 2 ^ 50 := (Nat.mul_le_mul_right room (Nat.le_succ _)).trans both
    obtain ⟨before, sound, queues, v, leveled⟩ := ih (by omega) fewer
    have fits : Fits h op := leveled.fits sound queues (offsets_early (by omega) fewer)
    have stepped := (step_spec sound allowed.1.1.spares).ok step
    obtain ⟨v', leveled'⟩ := leveled.stepped sound queues allowed.1.1 allowed.2 stepped
    refine ⟨before.next ⟨allowed.1, fits⟩ step, stepped.sound sound,
      stepped.leafQueues sound queues allowed.1.1, v', leveled'.mono ?_ le_rfl⟩
    rw [Nat.add_one_mul trace.length]
    omega

/-- Configurations that always fit: without real-time curves and with fair shares of 2 Gbit/s halved up
to ten times, in a tree whose leaves have no classes below them, every call of a run returns and no
shift loses bits, as long as the calls times the bytes they offer stay within `2 ^ 50`. -/
theorem halved_rates_fit {bandwidth : Nat} {h₀ : Hfsc} {op : HfscOp} {trace : List (HfscOp × HfscEvent)}
    (made : Hfsc.new bandwidth = .ok h₀) (run : Run (fun h op => Accepted h op ∧ Halved h op) h₀ trace h)
    (accepted : Accepted h op) (few : trace.length + 1 < 2 ^ 64) (bytes : offered trace + op.bytes ≤ 2 ^ 36)
    (both : (trace.length + 1) * (offered trace + op.bytes) ≤ 2 ^ 50) :
    (∃ event h', h.step op = .ok (event, h')) ∧ ∀ c ∈ h.classes, c.parent ≠ 0 → c.ShiftsFit := by
  obtain ⟨fitting, sound, queues, v, leveled⟩ := run.leveled made (Nat.le_add_right ..) both
  obtain ⟨_, work, range⟩ := fitting.inRange made (by omega) (by omega)
  have fits : Fits h op := leveled.fits sound queues (offsets_early (Nat.le_add_right ..) both)
  exact range.returns sound few (by omega) accepted fits

example : ∃ h₀ trace h, Hfsc.new 1000000000 = .ok h₀ ∧ Run (fun h op => Accepted h op ∧ Halved h op) h₀ trace h ∧
    offered trace = 4600 ∧ ∃ event h', h.step (.dequeue 4000) = .ok (event, h') := by
  obtain ⟨h₀, trace, h, made, run, seen⟩ := exists_run_of_exec (fun h op => Accepted h op ∧ Halved h op) 1000000000
    [.create "a" "root" 0 false ⟨none, none, ⟨0, 0, 1000000000⟩⟩,
      .create "b" "a" 0 true ⟨none, none, ⟨0, 0, 250000000⟩⟩,
      .create "c" "a" 0 true ⟨none, none, ⟨0, 0, 500000000⟩⟩,
      .enqueue 3 (flatPacket 1500) 1000, .enqueue 4 (flatPacket 1600) 1000, .dequeue 2000,
      .enqueue 3 (flatPacket 1500) 2500, .dequeue 3000]
    (fun r => (r.1.length, offered r.1)) (a := (8, 4600)) (by decide +kernel)
  obtain ⟨calls, bytes⟩ : trace.length = 8 ∧ offered trace = 4600 := Prod.mk.inj seen
  have accepted : Accepted h (.dequeue 4000) := ⟨trivial, by decide⟩
  refine ⟨h₀, trace, h, made, run, bytes, (halved_rates_fit made run accepted ?_ ?_ ?_).1⟩
  · rw [calls]
    decide
  · rw [bytes]
    decide
  · rw [calls, bytes]
    decide

end Hfsc

end R2
