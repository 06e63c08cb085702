import R2.Hfsc.RealTime
import R2.Hfsc.Unwrap
import R2.Hfsc.Walks

namespace R2

def HfscOp.bytes : HfscOp → Nat
  | .enqueue _ pkt _ => pkt.len
  | _ => 0

/-- First pieces short enough for the shift of `rtsc_min`. -/
def Class.Short (c : Class) : Prop :=
  (c.fIsc.sm2 < c.fIsc.sm1 → c.fIsc.dy ≤ 2 ^ 40) ∧ ∀ r ∈ c.rIsc, r.sm2 < r.sm1 → r.dy ≤ 2 ^ 40

/-- Wherever the curves of the class start anew, the shift of `rtsc_min` loses no bits. -/
def Class.ShiftsFit (c : Class) : Prop :=
  ∀ x, ShiftFits c.fRun c.fIsc x c.fBytes ∧ ∀ r ∈ c.rIsc, ShiftFits c.dRun r x c.fBytes

namespace Hfsc

/-- The call is one of the API: curves from non-negative fields, packets for leaves, the clock before
`2 ^ 62`. -/
def Accepted (h : Hfsc) (op : HfscOp) : Prop :=
  LeafCalls h op ∧
    match op with
    | .create _ _ _ _ curves => ∃ api : CurvesApi, api.NonNegative ∧ unwrapCurves api = curves
    | .destroy _ => False
    | .enqueue _ pkt now => pkt.len ≤ 65535 ∧ now < 2 ^ 62
    | .dequeue now => now < 2 ^ 62

/-- The deadline of the packet behind the one served. -/
def deadlineUses (c : Class) : List Packet → List CurveUse
  | [] => []
  | next :: _ => if c.rIsc.isSome then [.read c.dRun (c.fBytes + next.len)] else []

def serveUses (h : Hfsc) (cls : Nat) : List CurveUse :=
  match h.classes[cls]? with
  | none => []
  | some c =>
    match c.packets with
    | [] => []
    | pkt :: rest => deadlineUses c rest ++ chargeUses pkt.len h.walkFuel h cls rest.isEmpty

/-- The deadline of the first packet of a queue. -/
def backlogUses (c : Class) (len now : Nat) : List CurveUse :=
  match c.rIsc with
  | none => []
  | some r =>
    match rtscMin c.dRun r now c.fBytes with
    | .ok d => [.read d (c.fBytes + len)]
    | .error _ => []

/-- The class that `dequeue` serves. -/
def chosen (h : Hfsc) (now : Nat) : Outcome Nat := do
  let child ← h.getMinD now
  if child ≠ 0 then
    .ok child
  else do
    let found ← getMinV h.walkFuel h h.root
    .ok found.1

/-- What a call does with the curves it finds. -/
def uses (h : Hfsc) : HfscOp → List CurveUse
  | .enqueue classid pkt now =>
    match h.classes[classid]? with
    | none => []
    | some c =>
      if c.packets.isEmpty then initUses h.walkFuel h classid ++ backlogUses c pkt.len now else []
  | .dequeue now =>
    match h.chosen now with
    | .ok child => h.serveUses child
    | .error _ => []
  | _ => []

/-- The virtual times lie before the horizon, and so do those the call reads off the curves. -/
structure Fits (h : Hfsc) (op : HfscOp) : Prop where
  timely : ∀ c ∈ h.classes, c.Timely
  short : ∀ c ∈ h.classes, c.Short
  uses : ∀ u ∈ h.uses op, u.Fits

/-- The bytes in all queues. -/
def bytesQueued (h : Hfsc) : Nat := total (fun c => (c.packets.map Packet.len).sum) h

/-- What runs of few calls and bytes keep: `work` bounds the bytes that were served, `cap` those
that came in. -/
structure InRange (calls work cap : Nat) (h : Hfsc) : Prop where
  classes : Every (Class.Ranged calls work) h
  rBytes : Every (fun c => c.rBytes ≤ work) h
  bytes : work + bytesQueued h ≤ cap
  queued : h.pktsQueued ≤ calls

variable {h : Hfsc} {calls work cap i : Nat}

theorem Every.of_mem {P : Class → Prop} (all : ∀ c ∈ h.classes, P c) : Every P h :=
  fun _ c atK => all c (List.mem_of_getElem? atK)

/-- What no walk changes. -/
theorem Every.of_fixed {P : Class → Prop} {g : Hfsc} (every : Every P h) (reads : ∀ c, P c.fixed ↔ P c)
    (same : g.fixed = h.fixed) : Every P g := by
  intro k c atK
  obtain ⟨c', atC', eq⟩ := lookup_of_fixed same atK
  rw [← reads, eq, reads]
  exact every k c' atC'

theorem bytesQueued_of_fixed {g : Hfsc} (same : g.fixed = h.fixed) : bytesQueued g = bytesQueued h :=
  total_of_fixed (fun _ => rfl) same

theorem bytesQueued_append {c : Class} {names : AList (fun _ : String => Nat)} (empty : c.packets = []) :
    bytesQueued { h with classes := h.classes ++ [c], classNames := names } = bytesQueued h := by
  simp only [bytesQueued, total, List.map_append, List.sum_append, List.map_cons, List.map_nil, empty,
    List.sum_cons, List.sum_nil, Nat.add_zero]

theorem bytesQueued_put {c : Class} (c' : Class) (el : KeyMap) (n : Nat) (atI : h.classes[i]? = some c) :
    bytesQueued (h.put i c' el n) + (c.packets.map Packet.len).sum =
      bytesQueued h + (c'.packets.map Packet.len).sum := total_put c' el n atI

theorem startCurve_noOverflow {o : Option Sc} (small : ∀ sc ∈ o, sc.Small) :
    NoOverflow (startCurve o) (fun r => ∀ isc ∈ r.1, isc.Small ∧ r.2 = runtimeInit isc 0 0) := by
  cases o with
  | none => exact fun isc is => by cases is
  | some sc =>
    refine (sc2isc_noOverflow (small sc rfl)).bind fun isc made => ?_
    intro isc' is
    cases is
    exact ⟨made, rfl⟩

/-- A new class is in range. -/
theorem Class.new_noOverflow (calls work : Nat) {parent index qlimit : Nat} {isLeaf : Bool} {curves : Curves}
    (small : curves.Small) :
    NoOverflow (Class.new parent index qlimit isLeaf 0 curves) (fun c => c.Ranged calls work ∧ c.rBytes = 0 ∧
      c.packets = []) := by
  obtain ⟨rSc, uSc, fSc⟩ := small
  refine (startCurve_noOverflow rSc).bind fun r real => ?_
  refine (startCurve_noOverflow uSc).bind fun _ _ => ?_
  refine (sc2isc_noOverflow fSc).bind fun fIsc fair => ?_
  refine ⟨{
    pvoff := rfl
    fair := fun _ => ⟨fair, Fitted.init fair.cut, horizon_pos⟩
    vadj := horizon_pos
    lasts := fun _ active => absurd rfl active
    real := fun isc curve => ?_
    fBytes := Nat.zero_le _
    vperiod := Nat.zero_le _
    nactive := Nat.zero_le _
    qdrops := Nat.zero_le _ }, rfl, rfl⟩
  obtain ⟨small, started⟩ := real isc curve
  refine ⟨small, ?_, ?_, Or.inr rfl⟩
  · rw [show r.2 = _ from started]
    exact Fitted.init small.cut
  · rw [show r.2 = _ from started]
    exact horizon_pos

theorem InRange.mono {calls' cap' : Nat} (range : InRange calls work cap h) (le : calls ≤ calls')
    (more : cap ≤ cap') : InRange calls' work cap' h :=
  ⟨fun k c atK => (range.classes k c atK).mono le le_rfl, range.rBytes, range.bytes.trans more,
    range.queued.trans le⟩

theorem InRange.append {c : Class} {names : AList (fun _ : String => Nat)} (range : InRange calls work cap h)
    (ranged : c.Ranged calls work) (rBytes : c.rBytes = 0) (empty : c.packets = []) :
    InRange calls work cap { h with classes := h.classes ++ [c], classNames := names } := by
  refine ⟨range.classes.append ranged, range.rBytes.append (rBytes ▸ Nat.zero_le work), ?_, range.queued⟩
  rw [bytesQueued_append empty]
  exact range.bytes

theorem createClass_noOverflow (tree : Tree h) (range : InRange calls work cap h) {name parentName : String}
    {qlimit : Nat} {isLeaf : Bool} {curves : Curves} (small : curves.Small) :
    NoOverflow (h.createClass name parentName qlimit isLeaf curves) (fun r => InRange calls work cap r.2) := by
  unfold createClass
  refine Ensures.ite (fun _ => range) fun _ => ?_
  split
  · exact range
  · split
    · exact range
    · rename_i p atP
      refine Ensures.ite (fun _ => range) fun _ => ?_
      split
      · rename_i free rest some
        rw [tree.free] at some
        cases some
      · rw [(range.classes _ p atP).pvoff]
        refine (Class.new_noOverflow calls work small).bind fun c made => ?_
        obtain ⟨ranged, rBytes, empty⟩ := made
        exact range.append ranged rBytes empty

/-- One class replaced, and the packets of its queue. -/
theorem InRange.put {n cap' : Nat} {c c' : Class} {el : KeyMap} (range : InRange calls work cap h)
    (atI : h.classes[i]? = some c) (ranged : c'.Ranged calls work) (rBytes : c'.rBytes = c.rBytes)
    (bytes : (c'.packets.map Packet.len).sum + cap ≤ (c.packets.map Packet.len).sum + cap') (queued : n ≤ calls) :
    InRange calls work cap' (h.put i c' el n) := by
  refine ⟨range.classes.put atI ranged, range.rBytes.put atI (rBytes ▸ range.rBytes i c atI), ?_, queued⟩
  have sums := bytesQueued_put c' el n atI
  have least := range.bytes
  omega

theorem InRange.rising (range : InRange calls work cap h) (timely : Every Class.Timely h) :
    Rising calls work i h :=
  ⟨fun k c atK => (range.classes k c atK).mono (Nat.le_succ calls) le_rfl,
    fun k c atK => ⟨(timely k c atK).vtime, (timely k c atK).vmin⟩,
    fun j c _ atJ => ⟨range.classes j c atJ, (timely j c atJ).offset⟩⟩

theorem InRange.of_rising {g : Hfsc} (range : InRange calls work cap h) (rising : Rising calls work 0 g)
    (same : g.fixed = h.fixed) : InRange (calls + 1) work cap g := by
  refine ⟨rising.ranged, range.rBytes.of_fixed (fun _ => Iff.rfl) same, ?_, ?_⟩
  · rw [bytesQueued_of_fixed same]
    exact range.bytes
  · rw [pktsQueued_of_fixed same]
    exact range.queued.trans (Nat.le_succ calls)

theorem pushBack_noOverflow {pkt : Packet} (queued : h.pktsQueued + 1 < 2 ^ 64) :
    NoOverflow (h.pushBack i pkt) (fun _ => True) := by
  refine (classAt_noOverflow _ _).bind fun _ _ => ?_
  exact (add64_noOverflow queued).bind fun _ _ => trivial

/-- The first packet of a queue. -/
theorem startBacklog_noOverflow {c : Class} {len now : Nat} (sound : Sound h) (range : InRange calls work cap h)
    (timely : Every Class.Timely h) (atI : h.classes[i]? = some c) (empty : c.packets = [])
    (few : calls + 1 < 2 ^ 64) (room : cap + len < 2 ^ 62) (clock : now < 2 ^ 62)
    (fits : ∀ u ∈ initUses h.walkFuel h i ++ backlogUses c len now, u.Fits) :
    NoOverflow (h.startBacklog i len now) (fun _ => True) := by
  have least := range.bytes
  unfold startBacklog
  refine (initV_noOverflow (sound.entering atI empty) (range.rising timely) (by omega) few
    fun u member => fits u (List.mem_append_left _ member)).with_run.bind fun g both => ?_
  obtain ⟨run, rising⟩ := both
  obtain ⟨fixed, _⟩ := (sound.initV_ok atI empty).ok run
  refine (classAt_noOverflow _ _).bind fun d atD => ?_
  refine Ensures.ite (fun _ => ?_) fun _ => trivial
  have same := fixed_at fixed atI atD
  have bytes := (sound.initV_bytes atI empty run).eq_at atI atD
  have curve : d.rIsc = c.rIsc := Class.rIsc_of_fixed same
  have deadline : d.dRun = c.dRun := by simpa using congrArg Class.dRun same
  refine ((rising.ranged i d atD).initEd_noOverflow (by omega) clock fun r f isR minimum => ?_).bind fun _ _ => ?_
  · rw [deadline, bytes] at minimum
    rw [curve] at isR
    rw [bytes]
    refine fits (.read f (c.fBytes + len)) (List.mem_append_right _ ?_)
    rw [backlogUses, isR]
    dsimp only
    rw [minimum]
    exact List.mem_singleton_self _
  · exact (insertKey_noOverflow _ _ _).bind fun _ _ => trivial

theorem EnqueueStep.inRange {pkt : Packet} {now : Nat} {accepted : Bool} {h' : Hfsc} (sound : Sound h)
    (range : InRange calls work cap h) (timely : Every Class.Timely h) (few : calls + 1 < 2 ^ 64)
    (room : cap < 2 ^ 62) (clock : now < 2 ^ 62)
    (fits : ∀ u ∈ h.uses (.enqueue i pkt now), u.Fits) (step : EnqueueStep h i pkt now accepted h') :
    InRange (calls + 1) work (cap + pkt.len) h' := by
  have least := range.bytes
  have queued := range.queued
  have later := range.mono (Nat.le_succ calls) (Nat.le_add_right cap pkt.len)
  cases step with
  | refused => exact later
  | @dropped c atI =>
    have ranged := range.classes i c atI
    have counted : ({ c with qdrops := c.qdrops + 1 } : Class).Ranged (calls + 1) work :=
      { ranged.mono (Nat.le_succ calls) le_rfl with qdrops := Nat.succ_le_succ ranged.qdrops }
    have dropped : InRange (calls + 1) work (cap + pkt.len)
        (h.put i { c with qdrops := c.qdrops + 1 } h.eligible h.pktsQueued) :=
      later.put atI counted rfl le_rfl (by omega)
    exact dropped
  | @more c atI =>
    refine (range.mono (Nat.le_succ calls) le_rfl).put atI
      { (range.classes i c atI).mono (Nat.le_succ calls) le_rfl with } rfl ?_ (by omega)
    simp only [Class.withPackets_packets, List.map_append, List.sum_append, List.map_cons, List.map_nil,
      List.sum_cons, List.sum_nil]
    omega
  | @first c g d d' atI _ empty run atD initialised =>
    obtain ⟨fixed, _⟩ := (sound.initV_ok atI empty).ok run
    simp only [uses, atI, empty, List.isEmpty_nil, if_true] at fits
    have rising := (initV_noOverflow (sound.entering atI empty) (range.rising timely) (by omega) few
      fun u member => fits u (List.mem_append_left _ member)).ok run
    have ranged := (rising.ranged i d atD).initEd clock initialised
    obtain ⟨_, _, _, _, rfl⟩ := initEd_keeps initialised
    refine (range.of_rising rising fixed).put atD { ranged with } rfl ?_ ?_
    · have same := fixed_at fixed atI atD
      rw [Class.packets_of_fixed same, empty]
      simp only [Class.withPackets_packets, List.map_cons, List.map_nil, List.sum_cons, List.sum_nil]
      omega
    · rw [pktsQueued_of_fixed fixed]
      omega

theorem enqueue_noOverflow {pkt : Packet} {now : Nat} (sound : Sound h) (range : InRange calls work cap h)
    (timely : Every Class.Timely h) (few : calls + 1 < 2 ^ 64) (room : cap + pkt.len < 2 ^ 62) (clock : now < 2 ^ 62)
    (fits : ∀ u ∈ h.uses (.enqueue i pkt now), u.Fits) :
    NoOverflow (h.enqueue i pkt now) (fun r => InRange (calls + 1) work (cap + pkt.len) r.2) := by
  suffices returns : NoOverflow (h.enqueue i pkt now) (fun _ => True) from
    returns.with_run.mono fun r both =>
      ((enqueue_spec sound i pkt now).ok both.1).inRange sound range timely few (by omega) clock fits
  have queued := range.queued
  unfold enqueue
  split
  · trivial
  · rename_i c atI
    have drops := (range.classes i c atI).qdrops
    refine Ensures.ite (fun _ => trivial) fun _ => Ensures.ite (fun _ => ?_) fun _ => Ensures.ite (fun zero => ?_)
      fun _ => pushBack_noOverflow (by omega)
    · exact (add64_noOverflow (by omega)).bind fun _ _ => trivial
    · have empty := List.length_eq_zero_iff.mp zero
      simp only [uses, atI, empty, List.isEmpty_nil, if_true] at fits
      refine (startBacklog_noOverflow sound range timely atI empty few room clock fits).with_run.bind fun g both => ?_
      obtain ⟨f, d, d', run, _, _, rfl⟩ := (startBacklog_spec sound atI empty pkt.len now).ok both.1
      obtain ⟨fixed, _⟩ := (sound.initV_ok atI empty).ok run
      have same := pktsQueued_of_fixed fixed
      exact pushBack_noOverflow (show f.pktsQueued + 1 < 2 ^ 64 by omega)

theorem getMinD_noOverflow (h : Hfsc) (now : Nat) : NoOverflow (h.getMinD now) (fun _ => True) := by
  have loop (entries : List (Key × Nat)) (cls deadline : Nat) :
      NoOverflow (getMinDLoop h now entries cls deadline) (fun _ => True) := by
    induction entries generalizing cls deadline with
    | nil => exact trivial
    | cons e rest ih =>
      obtain ⟨_, child⟩ := e
      refine (classAt_noOverflow _ _).bind fun c _ => ?_
      exact Ensures.ite (fun _ => trivial) fun _ => Ensures.ite (fun _ => ih _ _) fun _ => ih _ _
  exact loop _ _ _

/-- The descent of `get_min_v` keeps what virtual times do not matter to. -/
structure Descending (calls work : Nat) (h : Hfsc) : Prop where
  ranged : Every (Class.Ranged calls work) h
  times : Every (fun c => c.vtime < horizon ∧ c.vmin < horizon) h

theorem getMinV_noOverflow {fuel p : Nat} (descending : Descending calls work h) :
    NoOverflow (getMinV fuel h p) (fun r => Descending calls work r.2) := by
  induction fuel generalizing h p with
  | zero => exact nofun
  | succ fuel ih =>
    unfold getMinV
    refine (classAt_noOverflow _ _).bind fun pc atP => ?_
    split
    · exact descending
    · refine (classAt_noOverflow _ _).bind fun c atC => ?_
      refine Ensures.ite (fun _ => nofun) fun _ => ?_
      have raised : Descending calls work
          (if pc.vmin < c.vtime then h.setClass p { pc with vmin := c.vtime } else h) := by
        split
        · exact ⟨descending.ranged.setClass atP { descending.ranged p pc atP with },
            descending.times.setClass atP ⟨(descending.times p pc atP).1, (descending.times _ c atC).1⟩⟩
        · exact descending
      refine (ih raised).bind fun r below => ?_
      exact Ensures.ite (fun _ => below) fun _ => below

/-- The packet at the head of a queue is charged and taken off the count. -/
theorem finishDequeue_noOverflow {c d : Class} {pkt : Packet} {rest : List Packet} {el : KeyMap} (sound : Sound h)
    (range : InRange calls work cap h) (room : cap < 2 ^ 62) (atI : h.classes[i]? = some c) (pos : 1 ≤ i)
    (packets : c.packets = pkt :: rest) (place : SamePlace d c) (packets' : d.packets = rest)
    (indexed : Indexed (h.put i d el h.pktsQueued)) (marks : Every (fun c => c.vmin < horizon) h)
    (ranged : d.Ranged calls work) (mark : d.vmin < horizon) (rBytes : d.rBytes ≤ work + pkt.len)
    (same : account d = account c) (fits : ∀ u ∈ chargeUses pkt.len h.walkFuel h i rest.isEmpty, u.Fits) :
    NoOverflow ((h.put i d el h.pktsQueued).finishDequeue i pkt rest)
      (fun r => InRange calls (work + pkt.len) cap r.2) := by
  have sums := bytesQueued_put d el h.pktsQueued atI
  rw [packets, packets', List.map_cons, List.sum_cons] at sums
  have least := range.bytes
  have queued := range.queued
  have uses : chargeUses pkt.len h.walkFuel (h.put i d el h.pktsQueued) i rest.isEmpty =
      chargeUses pkt.len h.walkFuel h i rest.isEmpty := by
    refine chargeUses_congr sound.tree fun j _ => ?_
    rw [put_classes]
    by_cases here : j = i
    · rw [here, setClass_self atI, atI, Option.map_some, same, Option.map_some]
    · rw [setClass_other (Ne.symm here)]
  have falling : Falling calls work pkt.len i (h.put i d el h.pktsQueued) := by
    have all : Every (Class.Ranged calls work) (h.put i d el h.pktsQueued) := range.classes.put atI ranged
    exact ⟨fun k c atK => (all k c atK).mono le_rfl (Nat.le_add_right ..), marks.put atI mark,
      fun j c _ atJ => all j c atJ⟩
  unfold finishDequeue
  rw [put_walkFuel]
  refine (updateV_noOverflow (sound.charging atI pos packets place packets') falling (by omega)
    (uses ▸ fits)).with_run.bind fun g both => ?_
  obtain ⟨run, falling'⟩ := both
  obtain ⟨fixed, positive, _⟩ := (sound.pop atI pos packets place packets' indexed).ok run
  have count := pktsQueued_of_fixed fixed
  change g.pktsQueued = h.pktsQueued at count
  refine (sub64_noOverflow positive).bind fun n isN => ?_
  subst isN
  have bytes := bytesQueued_of_fixed fixed
  have served : Every (fun c => c.rBytes ≤ work + pkt.len) (h.put i d el h.pktsQueued) :=
    Every.put (fun k c atK => (range.rBytes k c atK).trans (Nat.le_add_right work pkt.len)) atI rBytes
  have served : Every (fun c => c.rBytes ≤ work + pkt.len) g := served.of_fixed (fun _ => Iff.rfl) fixed
  exact ⟨falling'.ranged, served, show work + pkt.len + bytesQueued g ≤ cap by omega,
    show g.pktsQueued - 1 ≤ calls by omega⟩

theorem packets_le_bytesQueued {c : Class} (atI : h.classes[i]? = some c) :
    (c.packets.map Packet.len).sum ≤ bytesQueued h := by
  have sums : _ = bytesQueued h + 0 := bytesQueued_put (c.withPackets []) h.eligible h.pktsQueued atI
  omega

theorem InRange.packets_le {c : Class} (range : InRange calls work cap h) (atI : h.classes[i]? = some c) :
    c.fBytes + (c.packets.map Packet.len).sum ≤ cap := by
  have queue := packets_le_bytesQueued atI
  have own := (range.classes i c atI).fBytes
  have least := range.bytes
  omega

/-- What the times of the next packet need. -/
structure NextFits (calls work : Nat) (c : Class) (rest : List Packet) : Prop where
  ranged : c.Ranged calls work
  bytes : c.fBytes + (rest.map Packet.len).sum < 2 ^ 62
  uses : ∀ u ∈ deadlineUses c rest, u.Fits

theorem NextFits.times {c : Class} {next : Packet} {more : List Packet} {r : InternalSc}
    (fits : NextFits calls work c (next :: more)) (curve : c.rIsc = some r) :
    NoOverflow (c.updateD next.len) (fun _ => True) ∧ NoOverflow (c.updateEd next.len) (fun _ => True) := by
  have bytes := fits.bytes
  rw [List.map_cons, List.sum_cons] at bytes
  refine fits.ranged.deadline_noOverflow (by omega) curve (fits.uses (.read c.dRun (c.fBytes + next.len)) ?_)
  rw [deadlineUses, curve]
  exact List.mem_singleton_self _

theorem rescheduleRealtime_noOverflow {c : Class} {rest : List Packet} (fits : NextFits calls work c rest) :
    NoOverflow (h.rescheduleRealtime i c rest) (fun _ => True) := by
  unfold rescheduleRealtime
  split
  · trivial
  · exact (removeKey_noOverflow _ _).bind fun _ _ => trivial
  · rename_i curve
    refine (removeKey_noOverflow _ _).bind fun _ _ => ?_
    refine (fits.times curve).2.bind fun _ _ => ?_
    exact (insertKey_noOverflow _ _ _).bind fun _ _ => trivial

theorem rescheduleLinkshare_noOverflow {c : Class} {rest : List Packet} (fits : NextFits calls work c rest) :
    NoOverflow (h.rescheduleLinkshare i c rest) (fun _ => True) := by
  unfold rescheduleLinkshare
  split
  · trivial
  · exact (removeKey_noOverflow _ _).bind fun _ _ => trivial
  · rename_i curve
    exact (fits.times curve).1.bind fun _ _ => trivial

theorem serveUses_eq {c : Class} {pkt : Packet} {rest : List Packet} (atI : h.classes[i]? = some c)
    (packets : c.packets = pkt :: rest) :
    h.serveUses i = deadlineUses c rest ++ chargeUses pkt.len h.walkFuel h i rest.isEmpty := by
  simp only [serveUses, atI, packets]

theorem deadlineUses_congr {c c' : Class} {rest : List Packet} (curve : c'.rIsc = c.rIsc)
    (deadline : c'.dRun = c.dRun) (bytes : c'.fBytes = c.fBytes) : deadlineUses c' rest = deadlineUses c rest := by
  cases rest with
  | nil => rfl
  | cons next more => simp only [deadlineUses, curve, deadline, bytes]

/-- The class of a popped packet, with whatever else is changed. -/
theorem InRange.next {c d : Class} {pkt : Packet} {rest : List Packet} (range : InRange calls work cap h)
    (room : cap < 2 ^ 62) (atI : h.classes[i]? = some c) (packets : c.packets = pkt :: rest)
    (ranged : d.Ranged calls work) (same : d.rIsc = c.rIsc ∧ d.dRun = c.dRun ∧ d.fBytes = c.fBytes)
    (fits : ∀ u ∈ h.serveUses i, u.Fits) :
    NextFits calls work d rest ∧ ∀ u ∈ chargeUses pkt.len h.walkFuel h i rest.isEmpty, u.Fits := by
  obtain ⟨curve, deadline, bytes⟩ := same
  have most := range.packets_le atI
  rw [packets, List.map_cons, List.sum_cons] at most
  rw [serveUses_eq atI packets, ← deadlineUses_congr curve deadline bytes] at fits
  refine ⟨⟨ranged, by omega, fun u member => fits u (List.mem_append_left _ member)⟩, fun u member => ?_⟩
  exact fits u (List.mem_append_right _ member)

theorem serveRealtime_noOverflow {c : Class} {pkt : Packet} {rest : List Packet} (sound : Sound h)
    (range : InRange calls work cap h) (room : cap < 2 ^ 62) (marks : Every (fun c => c.vmin < horizon) h)
    (atI : h.classes[i]? = some c) (pos : 1 ≤ i) (realtime : c.rIsc.isSome) (packets : c.packets = pkt :: rest)
    (fits : ∀ u ∈ h.serveUses i, u.Fits) :
    NoOverflow (h.serveRealtime i) (fun r => InRange calls (work + pkt.len) cap r.2) := by
  have ranged := range.classes i c atI
  have rBytes := range.rBytes i c atI
  have least := range.bytes
  have popped : (c.popRealtime rest pkt.len).Ranged calls work := { ranged with }
  obtain ⟨next, charges⟩ := range.next room atI packets popped ⟨rfl, rfl, rfl⟩ fits
  have length := range.packets_le atI
  rw [packets, List.map_cons, List.sum_cons] at length
  unfold serveRealtime
  rw [classAt_eq atI, Except.ok_bind, packets]
  refine (add64_noOverflow (show c.rBytes + pkt.len < 2 ^ 64 by omega)).bind fun n isN => ?_
  subst isN
  refine (rescheduleRealtime_noOverflow (h := h) (i := i) next).with_run.bind fun g both => ?_
  obtain ⟨d, el, made, rfl⟩ := (rescheduleRealtime_spec sound.indexed (c.popRealtime rest pkt.len) atI
    ⟨rfl, rfl, (sound.tree.index i c atI pos).1⟩ realtime rest).ok both.1
  obtain ⟨place, packets'⟩ := made.place
  have indexed := made.indexed (n := h.pktsQueued) sound.indexed atI realtime
  obtain ⟨_, _, rfl⟩ := made.times
  exact finishDequeue_noOverflow sound range room atI pos packets place packets' indexed marks
    (popped.withTimes _ _) (marks i c atI) (Nat.add_le_add_right rBytes _) rfl charges

theorem serveLinkshare_noOverflow {c : Class} (sound : Sound h)
    (range : InRange calls work cap h) (room : cap < 2 ^ 62) (marks : Every (fun c => c.vmin < horizon) h)
    (atI : h.classes[i]? = some c) (pos : 1 ≤ i) (fits : ∀ u ∈ h.serveUses i, u.Fits) :
    NoOverflow (h.serveLinkshare i) (fun r => ∃ work', InRange calls work' cap r.2) := by
  have ranged := range.classes i c atI
  have rBytes := range.rBytes i c atI
  unfold serveLinkshare
  rw [classAt_eq atI, Except.ok_bind]
  split
  · exact ⟨work, range⟩
  · rename_i pkt rest packets
    have popped : (c.withPackets rest).Ranged calls work := { ranged with }
    obtain ⟨next, charges⟩ := range.next room atI packets popped ⟨rfl, rfl, rfl⟩ fits
    refine (rescheduleLinkshare_noOverflow (h := h) (i := i) next).with_run.bind fun g both => ?_
    obtain ⟨d, el, made, rfl⟩ := (rescheduleLinkshare_spec sound.indexed (c.withPackets rest) atI
      ⟨rfl, rfl, fun _ => (sound.tree.index i c atI pos).1⟩ rest).ok both.1
    obtain ⟨place, packets'⟩ := made.place
    have indexed := made.indexed (n := h.pktsQueued) sound.indexed atI packets
    obtain ⟨_, rfl⟩ := made.times
    exact (finishDequeue_noOverflow sound range room atI pos packets place packets' indexed marks
      (popped.withTimes _ _) (marks i c atI) (rBytes.trans (Nat.le_add_right ..)) rfl charges).mono
        fun r done => ⟨_, done⟩

/-- Whatever `vmin` is. -/
theorem VminRaised.serveUses {g : Hfsc} {c : Class} (sound : Sound h) (raised : VminRaised h g)
    (fixed : g.fixed = h.fixed) (atI : h.classes[i]? = some c) : g.serveUses i = h.serveUses i := by
  obtain ⟨v, _, atI'⟩ := raised i c atI
  have walks (len : Nat) (passive : Bool) :
      chargeUses len g.walkFuel g i passive = chargeUses len h.walkFuel h i passive := by
    rw [walkFuel, length_of_fixed fixed]
    refine chargeUses_congr sound.tree fun j _ => ?_
    cases atJ : h.classes[j]? with
    | none =>
      rw [List.getElem?_eq_none_iff.mpr (length_of_fixed fixed ▸ List.getElem?_eq_none_iff.mp atJ)]
    | some d =>
      obtain ⟨_, _, atJ'⟩ := raised j d atJ
      rw [atJ']
      rfl
  cases packets : c.packets with
  | nil => simp only [Hfsc.serveUses, atI, atI', Class.withVmin_packets, packets]
  | cons pkt rest =>
    have times : deadlineUses (c.withVmin v) rest = deadlineUses c rest := deadlineUses_congr rfl rfl rfl
    rw [serveUses_eq atI packets, serveUses_eq atI' packets, walks, times]

theorem dequeueFrom_noOverflow {now : Nat} (sound : Sound h) (range : InRange calls work cap h)
    (timely : Every Class.Timely h) (room : cap < 2 ^ 62) (fits : ∀ u ∈ h.uses (.dequeue now), u.Fits) :
    NoOverflow (h.dequeueFrom now) (fun r => ∃ work', InRange calls work' cap r.2) := by
  have times : Every (fun c => c.vtime < horizon ∧ c.vmin < horizon) h :=
    fun k c atK => ⟨(timely k c atK).vtime, (timely k c atK).vmin⟩
  unfold dequeueFrom
  refine (getMinD_noOverflow h now).with_run.bind fun child both => ?_
  obtain ⟨atD, _⟩ := both
  refine Ensures.ite (fun some => ?_) fun none => ?_
  · have chosen : h.chosen now = .ok child := by
      rw [Hfsc.chosen, atD, Except.ok_bind, if_pos some]
    simp only [uses, chosen] at fits
    obtain ⟨c, ⟨atI, realtime, backlogged, _⟩, _⟩ :=
      (((getMinD_spec sound.tree sound.indexed now).ok atD).resolve_left fun none => some none.1).2
    obtain ⟨pkt, rest, packets⟩ := List.exists_cons_of_ne_nil backlogged
    exact (serveRealtime_noOverflow sound range room (fun k c atK => (times k c atK).2) atI
      (Nat.pos_of_ne_zero some) realtime packets fits).mono fun r done => ⟨_, done⟩
  · refine (getMinV_noOverflow ⟨range.classes, times⟩).with_run.bind fun r both => ?_
    obtain ⟨atV, descending⟩ := both
    obtain ⟨child', g⟩ := r
    obtain ⟨fixed, sound', q, descended⟩ := sound.getMinV_ok.ok atV
    have chosen : h.chosen now = .ok child' := by
      rw [Hfsc.chosen, atD, Except.ok_bind, if_neg none, atV, Except.ok_bind]
    have range' : InRange calls work cap g :=
      ⟨descending.ranged, range.rBytes.of_fixed (fun _ => Iff.rfl) fixed,
        (bytesQueued_of_fixed fixed).symm ▸ range.bytes, (pktsQueued_of_fixed fixed).symm ▸ range.queued⟩
    refine Ensures.ite (fun some => ?_) fun _ => ⟨work, range'⟩
    obtain ⟨_, c, atI, two, _⟩ := descended.found some
    obtain ⟨raised, _⟩ := sound.getMinV_effect atV
    obtain ⟨v, _, atI'⟩ := raised child' c atI
    simp only [uses, chosen] at fits
    rw [← raised.serveUses sound fixed atI] at fits
    exact serveLinkshare_noOverflow sound' range' room (fun k c atK => (descending.times k c atK).2) atI'
      (by omega) fits

end Hfsc

end R2
