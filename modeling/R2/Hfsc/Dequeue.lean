import R2.Hfsc.Charge
import R2.Hfsc.Descent
import R2.Hfsc.Sound

namespace R2.Hfsc

theorem updateEd_ok {c c' : Class} {nextLen : Nat} : c.updateEd nextLen = .ok c' ↔
    ∃ eligible deadline, rtscY2x c.eRun c.fBytes = .ok eligible ∧ c.fBytes + nextLen < 2 ^ 64 ∧
      rtscY2x c.dRun (c.fBytes + nextLen) = .ok deadline ∧ c' = c.withTimes eligible deadline := by
  unfold Class.updateEd
  simp only [Except.bind_ok_iff, add64_ok]
  constructor
  · rintro ⟨eligible, atE, _, ⟨fits, rfl⟩, deadline, atD, final⟩
    exact ⟨eligible, deadline, atE, fits, atD, (Except.ok.inj final).symm⟩
  · rintro ⟨eligible, deadline, atE, fits, atD, rfl⟩
    exact ⟨eligible, atE, _, ⟨fits, rfl⟩, deadline, atD, rfl⟩

theorem updateD_ok {c c' : Class} {nextLen : Nat} : c.updateD nextLen = .ok c' ↔
    ∃ deadline, c.fBytes + nextLen < 2 ^ 64 ∧ rtscY2x c.dRun (c.fBytes + nextLen) = .ok deadline ∧
      c' = c.withTimes c.eligible deadline := by
  unfold Class.updateD
  simp only [Except.bind_ok_iff, add64_ok]
  constructor
  · rintro ⟨_, ⟨fits, rfl⟩, deadline, atD, final⟩
    exact ⟨deadline, fits, atD, (Except.ok.inj final).symm⟩
  · rintro ⟨deadline, fits, atD, rfl⟩
    exact ⟨_, ⟨fits, rfl⟩, deadline, atD, rfl⟩

theorem updateEd_noPanic (c : Class) (nextLen : Nat) : NoPanic (c.updateEd nextLen) (fun _ => True) := by
  refine (rtscY2x_noPanic _ _).bind fun _ _ => ?_
  refine (add64_noPanic _ _).bind fun _ _ => ?_
  exact (rtscY2x_noPanic _ _).bind fun _ _ => trivial

theorem updateD_noPanic (c : Class) (nextLen : Nat) : NoPanic (c.updateD nextLen) (fun _ => True) := by
  refine (add64_noPanic _ _).bind fun _ _ => ?_
  exact (rtscY2x_noPanic _ _).bind fun _ _ => trivial

/-- What the real-time branch of `dequeue` makes of the popped class and of
the eligible map, by the queue left behind. -/
inductive RealtimeNext (el : KeyMap) (i : Nat) (c : Class) : List Packet → Class → KeyMap → Prop
  | last : RealtimeNext el i c [] c (el.erase ⟨c.eligible, i⟩)
  | next {next more d} : c.updateEd next.len = .ok d →
      RealtimeNext el i c (next :: more) d ((el.erase ⟨c.eligible, i⟩).insert ⟨d.eligible, i⟩ i)

/-- The same for the link-sharing branch. -/
inductive LinkshareNext (el : KeyMap) (i : Nat) (c : Class) : List Packet → Class → KeyMap → Prop
  | last : LinkshareNext el i c [] c (leave el c i)
  | plain {next more} : c.rIsc = none → LinkshareNext el i c (next :: more) c el
  | next {next more d} : c.rIsc.isSome → c.updateD next.len = .ok d → LinkshareNext el i c (next :: more) d el

/-- What a call of `dequeue` can do. -/
inductive DequeueStep (h : Hfsc) (t : Nat) : Option (Nat × Packet) → Hfsc → Prop
  | idle {r g} : getMinD h t = .ok 0 → getMinV h.walkFuel h h.root = .ok (r, g) →
      (r ≠ 0 → ∃ c, g.classes[r]? = some c ∧ c.packets = []) → DequeueStep h t none g
  | realtime {i c pkt rest d el g} : getMinD h t = .ok i → i ≠ 0 → h.classes[i]? = some c → c.rIsc.isSome →
      c.packets = pkt :: rest →
      RealtimeNext h.eligible i (c.popRealtime rest pkt.len) rest d el →
      updateV pkt.len h.walkFuel (h.put i d el h.pktsQueued) i rest.isEmpty = .ok g →
      DequeueStep h t (some (i, pkt)) { g with pktsQueued := g.pktsQueued - 1 }
  | linkshare {i g c pkt rest d el g'} : getMinD h t = .ok 0 → getMinV h.walkFuel h h.root = .ok (i, g) → i ≠ 0 →
      g.classes[i]? = some c → c.packets = pkt :: rest → LinkshareNext g.eligible i (c.withPackets rest) rest d el →
      updateV pkt.len g.walkFuel (g.put i d el g.pktsQueued) i rest.isEmpty = .ok g' →
      DequeueStep h t (some (i, pkt)) { g' with pktsQueued := g'.pktsQueued - 1 }

variable {h : Hfsc}

theorem put_walkFuel {i : Nat} {c : Class} {el : KeyMap} {n : Nat} : (h.put i c el n).walkFuel = h.walkFuel := by
  simp only [walkFuel, put_classes, setClass, List.length_set]

theorem rescheduleRealtime_spec (indexed : Indexed h) {i : Nat} {c : Class} (c' : Class)
    (atI : h.classes[i]? = some c)
    (keeps : c'.rIsc = c.rIsc ∧ c'.eligible = c.eligible ∧ c'.index = i) (realtime : c.rIsc.isSome)
    (rest : List Packet) : NoPanic (h.rescheduleRealtime i c' rest) (fun h' => ∃ d el,
      RealtimeNext h.eligible i c' rest d el ∧ h' = h.put i d el h.pktsQueued) := by
  obtain ⟨curve, eligible, index⟩ := keeps
  have key (d : Class) (same : d.index = i) : d.eligibleKey = ⟨d.eligible, i⟩ := congrArg (Key.mk d.eligible) same
  have compatible := indexed.compatible atI
  rw [← eligible] at compatible
  have gone : ∀ e ∈ (h.eligible.erase ⟨c'.eligible, i⟩).entries, e.2 ≠ i := by
    have absent := indexed.absent_leave atI
    rw [leave, if_pos realtime, ← eligible] at absent
    exact absent
  unfold rescheduleRealtime
  rw [curve]
  obtain ⟨isc, some⟩ := Option.isSome_iff_exists.mp realtime
  rw [some]
  cases rest with
  | nil =>
    dsimp only
    rw [key c' index, removeKey_eq compatible, Except.ok_bind]
    exact ⟨c', _, .last, rfl⟩
  | cons next more =>
    dsimp only
    rw [key c' index, removeKey_eq compatible, Except.ok_bind]
    refine ((updateEd_noPanic _ _).with_run).bind fun d run => ?_
    have index' : d.index = i := by
      obtain ⟨_, _, _, _, _, rfl⟩ := updateEd_ok.mp run.1
      exact index
    have fresh : ∀ e ∈ (h.eligible.erase ⟨c'.eligible, i⟩).entries,
        e.1.index = (⟨d.eligible, i⟩ : Key).index → e.1.time = (⟨d.eligible, i⟩ : Key).time := by
      intro e member same
      have inside := (SortedMap.mem_erase.mp member).1
      exact absurd ((indexed.entry_index inside).symm.trans same) (gone e member)
    rw [key d index', insertKey_eq fresh, Except.ok_bind]
    exact ⟨d, _, .next run.1, rfl⟩

theorem rescheduleLinkshare_spec (indexed : Indexed h) {i : Nat} {c : Class} (c' : Class)
    (atI : h.classes[i]? = some c)
    (keeps : c'.rIsc = c.rIsc ∧ c'.eligible = c.eligible ∧ (c.rIsc.isSome → c'.index = i)) (rest : List Packet) :
    NoPanic (h.rescheduleLinkshare i c' rest) (fun h' => ∃ d el,
      LinkshareNext h.eligible i c' rest d el ∧ h' = h.put i d el h.pktsQueued) := by
  obtain ⟨curve, eligible, index⟩ := keeps
  have compatible := indexed.compatible atI
  rw [← eligible] at compatible
  unfold rescheduleLinkshare
  cases at_curve : c'.rIsc with
  | none =>
    cases rest with
    | nil =>
      have leaves : leave h.eligible c' i = h.eligible := by
        simp only [leave, at_curve, Option.isSome_none, Bool.false_eq_true, if_false]
      refine ⟨c', _, .last, ?_⟩
      rw [leaves]
      rfl
    | cons next more => exact ⟨c', _, .plain at_curve, rfl⟩
  | some isc =>
    have realtime : c'.rIsc.isSome := by rw [at_curve]; rfl
    cases rest with
    | nil =>
      have key : c'.eligibleKey = ⟨c'.eligible, i⟩ := congrArg (Key.mk c'.eligible) (index (curve ▸ realtime))
      have leaves : leave h.eligible c' i = h.eligible.erase ⟨c'.eligible, i⟩ := if_pos realtime
      dsimp only
      rw [key, removeKey_eq compatible, Except.ok_bind, ← leaves]
      exact ⟨c', _, .last, rfl⟩
    | cons next more =>
      refine ((updateD_noPanic _ _).with_run).bind fun d run => ?_
      exact ⟨d, _, .next realtime run.1, rfl⟩

theorem RealtimeNext.times {el el' : KeyMap} {i : Nat} {c d : Class} {rest : List Packet}
    (next : RealtimeNext el i c rest d el') : ∃ eligible deadline, d = c.withTimes eligible deadline := by
  cases next with
  | last => exact ⟨c.eligible, c.deadline, rfl⟩
  | next run =>
    obtain ⟨eligible, deadline, _, _, _, same⟩ := updateEd_ok.mp run
    exact ⟨eligible, deadline, same⟩

theorem LinkshareNext.times {el el' : KeyMap} {i : Nat} {c d : Class} {rest : List Packet}
    (next : LinkshareNext el i c rest d el') : ∃ deadline, d = c.withTimes c.eligible deadline := by
  cases next with
  | last => exact ⟨c.deadline, rfl⟩
  | plain => exact ⟨c.deadline, rfl⟩
  | next _ run =>
    obtain ⟨deadline, _, _, same⟩ := updateD_ok.mp run
    exact ⟨deadline, same⟩

theorem RealtimeNext.place {el el' : KeyMap} {i n : Nat} {c d : Class} {rest : List Packet}
    (next : RealtimeNext el i (c.popRealtime rest n) rest d el') : SamePlace d c ∧ d.packets = rest := by
  obtain ⟨_, _, rfl⟩ := next.times
  exact ⟨⟨rfl, rfl, rfl, rfl, rfl, rfl, rfl, rfl⟩, rfl⟩

theorem LinkshareNext.place {el el' : KeyMap} {i : Nat} {c d : Class} {rest : List Packet}
    (next : LinkshareNext el i (c.withPackets rest) rest d el') : SamePlace d c ∧ d.packets = rest := by
  obtain ⟨_, rfl⟩ := next.times
  exact ⟨⟨rfl, rfl, rfl, rfl, rfl, rfl, rfl, rfl⟩, rfl⟩

theorem RealtimeNext.indexed (indexed : Indexed h) {i n len : Nat} {c d : Class} {rest : List Packet} {el : KeyMap}
    (atI : h.classes[i]? = some c) (realtime : c.rIsc.isSome)
    (next : RealtimeNext h.eligible i (c.popRealtime rest len) rest d el) : Indexed (h.put i d el n) := by
  have erased : h.eligible.erase ⟨c.eligible, i⟩ = leave h.eligible c i := by rw [leave, if_pos realtime]
  have gone := indexed.absent_leave atI
  have other {e : Key × Nat} (notI : e.2 ≠ i) := mem_leave_other (c := c) notI
    (fun member => indexed.entry_index (h := h) (e := e) member)
  cases next with
  | last =>
    rw [Class.popRealtime_eligible, erased]
    refine indexed.put atI (fun e notI => other notI) fun e isI => ?_
    simp only [Class.popRealtime_packets, ne_eq, not_true_eq_false, false_and, and_false, iff_false]
    exact fun member => gone e member isI
  | @next next more _ run =>
    obtain ⟨eligible', deadline', _, _, _, rfl⟩ := updateEd_ok.mp run
    rw [Class.popRealtime_eligible, erased]
    have entered : (leave h.eligible c i).insert ⟨eligible', i⟩ i =
        enter (leave h.eligible c i) ((c.popRealtime (next :: more) len).withTimes eligible' deadline') i := by
      rw [enter, Class.withTimes_rIsc, Class.popRealtime_rIsc, if_pos realtime]
      rfl
    rw [Class.withTimes_eligible, entered]
    refine indexed.put atI (fun e notI => ?_) fun e isI => ?_
    · rw [mem_enter_other notI fun member => indexed.entry_index ((other notI).mp member)]
      exact other notI
    · rw [mem_enter_mine isI gone]
      simp

theorem LinkshareNext.indexed (indexed : Indexed h) {i n : Nat} {c d : Class} {pkt : Packet} {rest : List Packet}
    {el : KeyMap} (atI : h.classes[i]? = some c) (packets : c.packets = pkt :: rest)
    (next : LinkshareNext h.eligible i (c.withPackets rest) rest d el) : Indexed (h.put i d el n) := by
  have mine {e : Key × Nat} (isI : e.2 = i) := indexed.mine atI isI
  cases next with
  | last =>
    refine indexed.put atI
      (fun e notI => mem_leave_other notI fun member => indexed.entry_index member) fun e isI => ?_
    simp only [Class.withPackets_packets, ne_eq, not_true_eq_false, false_and, and_false, iff_false]
    exact fun member => indexed.absent_leave atI e member isI
  | plain curve =>
    refine indexed.put atI (fun _ _ => Iff.rfl) fun e isI => ?_
    rw [mine isI, packets]
    simp
  | next realtime run =>
    obtain ⟨deadline, _, _, rfl⟩ := updateD_ok.mp run
    refine indexed.put atI (fun _ _ => Iff.rfl) fun e isI => ?_
    rw [mine isI, packets]
    simp

/-- The walk of `update_v` starts in the right state: the popped class counts
one too many if its queue ran empty. -/
theorem Sound.charging (sound : Sound h) {i n : Nat} {c d : Class} {pkt : Packet} {rest : List Packet} {el : KeyMap}
    (atI : h.classes[i]? = some c) (pos : 1 ≤ i) (packets : c.packets = pkt :: rest) (place : SamePlace d c)
    (packets' : d.packets = rest) :
    Charging (h.put i d el n) (backlog (h.put i d el n)) i rest.isEmpty := by
  refine ⟨place.tree sound.tree atI pos, place.wired sound.wired atI fun j => ?_,
    d, setClass_self atI, fun below => ?_⟩
  · rw [backlog_put atI]
    by_cases same : j = i
    · subst same
      rw [backlog_eq atI, packets, packets']
      cases rest with
      | nil => simp
      | cons => simp
    · simp only [same, if_false, false_and]
  · rw [place.nactive]
    rw [place.parent] at below
    have count := sound.wired.counted i c atI (sound.tree.two_le atI below)
    rw [backlog_eq atI, packets] at count
    simp only [List.isEmpty_cons, Bool.false_eq_true, if_false] at count
    omega

/-- Popping a packet and charging it keeps the bookkeeping sound. -/
theorem Sound.pop (sound : Sound h) {i : Nat} {c d : Class} {pkt : Packet} {rest : List Packet} {el : KeyMap}
    (atI : h.classes[i]? = some c) (pos : 1 ≤ i) (packets : c.packets = pkt :: rest) (place : SamePlace d c)
    (packets' : d.packets = rest) (indexed : Indexed (h.put i d el h.pktsQueued)) :
    NoPanic (updateV pkt.len h.walkFuel (h.put i d el h.pktsQueued) i rest.isEmpty) (fun g =>
      g.fixed = (h.put i d el h.pktsQueued).fixed ∧ 0 < g.pktsQueued ∧
        Sound { g with pktsQueued := g.pktsQueued - 1 }) := by
  obtain ⟨bound, _⟩ := List.getElem?_eq_some_iff.mp atI
  have charging := @Sound.charging _ sound _ h.pktsQueued _ _ _ _ el atI pos packets place packets'
  refine (updateV_rule (fun _ _ _ => True) (fun _ => True) (fun _ _ _ _ _ _ _ _ _ _ _ => trivial)
    (fun _ _ _ _ _ _ _ _ _ => trivial) charging trivial ?_).mono fun g result => ?_
  · simp only [walkFuel]
    omega
  obtain ⟨fixed, wired, _⟩ := result
  have sums := queued_put d el h.pktsQueued atI
  have counted := sound.counted
  have same := pktsQueued_of_fixed fixed
  change g.pktsQueued = h.pktsQueued at same
  have sameQueues := queued_of_fixed fixed
  rw [packets, packets', List.length_cons] at sums
  refine ⟨fixed, by omega, (charging.tree.of_fixed fixed).of_classes rfl rfl rfl, ?_, ?_, ?_⟩
  · rw [← backlog_of_fixed fixed] at wired
    exact wired.of_classes rfl
  · have entries : Indexed g := indexed.of_fixed fixed
    exact entries
  · change g.pktsQueued - 1 = queued g
    omega

theorem Sound.getMinV_ok (sound : Sound h) : NoPanic (getMinV h.walkFuel h h.root) (fun r =>
    r.2.fixed = h.fixed ∧ Sound r.2 ∧ ∃ q, Descended h h.root r.1 q) := by
  obtain ⟨root, atRoot, _⟩ := sound.tree.top
  rw [← sound.tree.root] at atRoot
  refine (getMinV_rule (fun _ _ => True) (fun _ _ _ _ _ _ _ _ _ _ _ _ => trivial) sound.tree sound.wired
    trivial atRoot (by rw [sound.tree.root]) .root ?_).mono fun r result => ?_
  · simp only [walkFuel]
    omega
  · obtain ⟨fixed, wired, _, q, _, descended⟩ := result
    exact ⟨fixed, sound.of_fixed fixed wired, q, descended⟩

theorem dequeueFrom_spec (sound : Sound h) (t : Nat) :
    NoPanic (h.dequeueFrom t) (fun r => DequeueStep h t r.1 r.2) := by
  unfold dequeueFrom
  refine ((getMinD_spec sound.tree sound.indexed t).with_run).bind fun child result => ?_
  obtain ⟨atD, result⟩ := result
  refine Ensures.ite (fun some => ?_) fun none => ?_
  · obtain ⟨c, ⟨atI, realtime, backlogged, _⟩, _⟩ := (result.resolve_left fun none => some none.1).2
    have pos : 1 ≤ child := Nat.pos_of_ne_zero some
    obtain ⟨pkt, rest, packets⟩ := List.exists_cons_of_ne_nil backlogged
    unfold serveRealtime
    rw [classAt_eq atI, Except.ok_bind]
    split
    · rename_i empty
      rw [packets] at empty
      cases empty
    · rename_i pkt' rest' shape
      rw [packets] at shape
      cases shape
      refine (add64_noPanic _ _).bind fun n summed => ?_
      subst summed
      have index := (sound.tree.index child c atI pos).1
      refine (rescheduleRealtime_spec sound.indexed (c.popRealtime rest pkt.len) atI ⟨rfl, rfl, index⟩ realtime
        rest).bind fun h' rescheduled => ?_
      obtain ⟨d, el, next, rfl⟩ := rescheduled
      obtain ⟨place, packets'⟩ := next.place
      have indexed := next.indexed (n := h.pktsQueued) sound.indexed atI realtime
      unfold finishDequeue
      rw [put_walkFuel]
      refine ((sound.pop atI pos packets place packets' indexed).with_run).bind fun g charged => ?_
      obtain ⟨run, _, positive, _⟩ := charged
      refine (sub64_noPanic _ _).bind fun n less => ?_
      obtain ⟨_, rfl⟩ := less
      exact .realtime atD some atI realtime packets next run
  · obtain rfl : child = 0 := by omega
    refine (sound.getMinV_ok.with_run).bind fun r found => ?_
    obtain ⟨child, g⟩ := r
    obtain ⟨atV, fixed, sound', q, descended⟩ := found
    refine Ensures.ite (fun some => ?_) fun none => ?_
    · obtain ⟨_, c', atC', two, _, _⟩ := descended.found some
      obtain ⟨c, atC, _⟩ := lookup_of_fixed fixed.symm atC'
      unfold serveLinkshare
      rw [classAt_eq atC, Except.ok_bind]
      split
      · rename_i empty
        exact .idle atD atV fun _ => ⟨c, atC, empty⟩
      · rename_i pkt rest packets
        have pos : 1 ≤ child := by dsimp only at two; omega
        have index := (sound'.tree.index child c atC pos).1
        refine (rescheduleLinkshare_spec sound'.indexed (c.withPackets rest) atC ⟨rfl, rfl, fun _ => index⟩
          rest).bind fun h' rescheduled => ?_
        obtain ⟨d, el, next, rfl⟩ := rescheduled
        obtain ⟨place, packets'⟩ := next.place
        have indexed := next.indexed (n := g.pktsQueued) sound'.indexed atC packets
        unfold finishDequeue
        rw [put_walkFuel]
        refine ((sound'.pop atC pos packets place packets' indexed).with_run).bind fun g' charged => ?_
        obtain ⟨run, _, positive, _⟩ := charged
        refine (sub64_noPanic _ _).bind fun n less => ?_
        obtain ⟨_, rfl⟩ := less
        exact .linkshare atD atV some atC packets next run
    · exact .idle atD atV fun some => absurd some none

theorem DequeueStep.sound {t : Nat} {served : Option (Nat × Packet)} {h' : Hfsc} (sound : Sound h)
    (step : DequeueStep h t served h') : Sound h' := by
  cases step with
  | idle _ atV _ => exact (sound.getMinV_ok.ok atV).2.1
  | realtime _ some atI realtime packets next run =>
    obtain ⟨place, packets'⟩ := next.place
    exact ((sound.pop atI (Nat.pos_of_ne_zero some) packets place packets'
      (next.indexed sound.indexed atI realtime)).ok run).2.2
  | linkshare _ atV some atI packets next run =>
    obtain ⟨_, sound', _⟩ := sound.getMinV_ok.ok atV
    obtain ⟨place, packets'⟩ := next.place
    exact ((sound'.pop atI (Nat.pos_of_ne_zero some) packets place packets'
      (next.indexed sound'.indexed atI packets)).ok run).2.2

end R2.Hfsc
