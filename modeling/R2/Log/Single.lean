import Mathlib.Data.Finset.Dedup
import Mathlib.Data.Finset.Card
import R2.Log.Several

namespace R2.Log

/-- One thread executes some `log!`, and no other thread logs. -/
def Logger.logAll (l : Logger) (statics : Statics) (calls : List Call) : Outcome (Logger × Statics) :=
  calls.foldlM (fun r c => (r.1.log c).alone Access.perform r.2) (l, statics)

def sites (calls : List Call) : Finset Site := (calls.map Call.site).toFinset

theorem sites_append (calls more : List Call) : sites (calls ++ more) = sites calls ∪ sites more := by
  rw [sites, List.map_append, List.toFinset_append]
  rfl

theorem sites_card_le (calls more : List Call) : (sites calls).card ≤ (sites (calls ++ more)).card := by
  rw [sites_append]
  exact Finset.card_le_card Finset.subset_union_left

/-- The calls with the indices of their sites. -/
def filed (statics : Statics) (calls : List Call) : List Filing := calls.map fun c => ⟨c, (statics c.site).index⟩

/-- A logger that is the only one, after `calls`. -/
structure Alone (l : Logger) (statics : Statics) (calls : List Call) : Prop where
  good : Good l statics (filed statics calls)
  named : ∀ s, (statics s).index ≠ 0 → l.hash (statics s).index = some s
  seen : ∀ s, (statics s).index = 0 ↔ s ∉ sites calls
  index : l.index = 1 + (sites calls).card

section

variable {l : Logger} {statics : Statics} {calls past : List Call}

theorem new_alone {esz emax : Nat} (run : Logger.new esz emax = .ok l) (size : 12 ≤ esz) (cells : 0 < emax) :
    Alone l Entry.new [] := by
  refine ⟨new_good run size cells, fun s some => absurd rfl some, fun s => ?_, ?_⟩
  · exact ⟨fun _ => Finset.notMem_empty s, fun _ => rfl⟩
  · obtain ⟨_, _, made⟩ := Except.bind_ok_iff.mp run
    cases made
    rfl

theorem sites_concat (calls : List Call) (c : Call) : sites (calls ++ [c]) = insert c.site (sites calls) := by
  rw [sites_append, Finset.union_comm]
  rfl

theorem Alone.count (alone : Alone l statics past) : l.enext = past.length :=
  alone.good.count.trans (List.length_map _)

/-- A call writes its record, unless one of the counters of the logger is used up. -/
theorem Alone.files (alone : Alone l statics past) (c : Call) :
    Ensures (fun _ => 2 ^ 64 ≤ l.enext + 1 ∨ 2 ^ 64 ≤ l.index + 1) ((l.log c).alone Access.perform statics)
      fun r => ∃ n, Files True (fun _ => True) l statics c n r.1 r.2 := by
  have good := alone.good
  have safe := @log_safe True _ _ (fun _ _ => True) (fun _ => 2 ^ 64 ≤ l.enext + 1 ∨ 2 ^ 64 ≤ l.index + 1)
    (fun _ => True) statics l Manners.single good.stop good.cells good.esz good.length good.sized c
    (fun _ => id) id
  refine Program.Safe.alone ?_ (fun _ _ => trivial) safe
  exact fun _ => rfl

/-- A site is met for the first time, or its index was handed out by this logger. -/
theorem Alone.resolves (alone : Alone l statics past) (c : Call) (few : (sites (past ++ [c])).card < 2 ^ 32) :
    Resolves l c.site (statics c.site).index := by
  by_cases fresh : (statics c.site).index = 0
  · have absent := (alone.seen c.site).mp fresh
    rw [sites_concat, Finset.card_insert_of_notMem absent] at few
    have index := alone.index
    exact Or.inl ⟨fresh, by omega⟩
  · exact Or.inr ⟨c.site, alone.named c.site fresh, rfl, rfl⟩

theorem Alone.log {c : Call} {n : Nat} {l' : Logger} {statics' : Statics} (alone : Alone l statics past)
    (few : (sites (past ++ [c])).card < 2 ^ 32) (files : Files True (fun _ => True) l statics c n l' statics') :
    Alone l' statics' (past ++ [c]) := by
  have resolves := alone.resolves c few
  have files : Files True (Resolves l c.site) l statics c n l' statics' :=
    files.answer fun m _ same => same trivial ▸ resolves
  have other : ∀ s, s ≠ c.site → (statics' s).index = (statics s).index := fun s apart => by
    rw [files.indices trivial, Function.update_of_ne apart]
  have here : (statics' c.site).index = n := by
    rw [files.indices trivial, Function.update_self]
  have positive := (files.named alone.good fun _ => id).1
  have old : ∀ d ∈ past, (statics' d.site).index = (statics d.site).index := by
    intro d member
    by_cases same : d.site = c.site
    · have met : c.site ∈ sites past := same ▸ List.mem_toFinset.mpr (List.mem_map_of_mem member)
      rw [same, here]
      rcases files.names with ⟨_, _, _, _, before⟩ | ⟨_, _, _, _, before⟩
      · exact (before trivial).symm
      · exact absurd met ((alone.seen c.site).mp (before trivial))
    · exact other _ same
  have split : filed statics' (past ++ [c]) = filed statics past ++ [⟨c, n⟩] := by
    rw [filed, List.map_append, List.map_singleton, here]
    exact congrArg (· ++ _) (List.map_congr_left fun d member => by rw [old d member])
  refine ⟨split ▸ alone.good.log files fun _ => id, fun s some => ?_, fun s => ?_, ?_⟩
  · by_cases same : s = c.site
    · subst same
      rw [here]
      rcases files.names with ⟨_, some, _, hash, before⟩ | ⟨_, _, _, hash, _⟩
      · have known := alone.named c.site (before trivial ▸ some)
        rw [before trivial] at known
        rw [hash, known]
      · rw [hash, Function.update_self]
    · rw [other s same] at some ⊢
      exact files.keep alone.good (alone.named s some)
  · rw [sites_concat, Finset.mem_insert, not_or]
    by_cases same : s = c.site
    · subst same
      exact ⟨fun zero => absurd (here.symm.trans zero) positive, fun absent => absurd rfl absent.1⟩
    · rw [other s same, alone.seen s]
      exact ⟨fun absent => ⟨same, absent⟩, And.right⟩
  · rw [sites_concat]
    have index := alone.index
    rcases files.names with ⟨_, some, same, _, before⟩ | ⟨_, rfl, next, _, before⟩
    · have member : c.site ∈ sites past := by
        by_contra absent
        exact some ((before trivial).symm.trans ((alone.seen c.site).mpr absent))
      rw [Finset.insert_eq_of_mem member, same, index]
    · rw [Finset.card_insert_of_notMem ((alone.seen c.site).mp (before trivial)), next]
      omega

/-- Calls succeed until a counter of the logger is used up. -/
theorem Alone.log_ok (alone : Alone l statics past) (c : Call) (few : (sites (past ++ [c])).card < 2 ^ 32)
    (many : past.length + 1 < 2 ^ 64) :
    ∃ l' statics', (l.log c).alone Access.perform statics = .ok (l', statics') ∧ l'.esz = l.esz ∧ l'.emax = l.emax ∧
      Alone l' statics' (past ++ [c]) := by
  have files := alone.files c
  have less := sites_card_le past [c]
  have index := alone.index
  have count := alone.count
  cases run : (l.log c).alone Access.perform statics with
  | error e =>
    have full := files.error run
    omega
  | ok r =>
    obtain ⟨n, files⟩ := files.ok run
    exact ⟨r.1, r.2, rfl, files.esz, files.emax, alone.log few files⟩

theorem Alone.run (alone : Alone l statics past) (calls : List Call) (few : (sites (past ++ calls)).card < 2 ^ 32)
    (many : (past ++ calls).length < 2 ^ 64) :
    ∃ l' statics', l.logAll statics calls = .ok (l', statics') ∧ l'.esz = l.esz ∧ l'.emax = l.emax ∧
      Alone l' statics' (past ++ calls) := by
  induction calls generalizing l statics past with
  | nil =>
    rw [List.append_nil]
    exact ⟨l, statics, rfl, rfl, rfl, alone⟩
  | cons c rest ih =>
    have split : past ++ c :: rest = past ++ [c] ++ rest := by rw [List.append_assoc]; rfl
    rw [split] at few many ⊢
    have fewer := sites_card_le (past ++ [c]) rest
    rw [List.length_append, List.length_append, List.length_singleton] at many
    obtain ⟨l₁, statics₁, first, esz₁, emax₁, next⟩ := alone.log_ok c (by omega) (by omega)
    obtain ⟨l', statics', run, esz, emax, last⟩ := ih next few (by
      rw [List.length_append, List.length_append, List.length_singleton]
      exact many)
    refine ⟨l', statics', ?_, esz.trans esz₁, emax.trans emax₁, last⟩
    rw [Logger.logAll, List.foldlM_cons, first, Except.ok_bind]
    exact run

/-- The count of records has no room for another call. -/
theorem Alone.log_full (alone : Alone l statics past) (full : past.length + 1 = 2 ^ 64) (c : Call) :
    (l.log c).alone Access.perform statics = .error .overflow := by
  have count := alone.count
  have wraps : add64 l.enext 1 = .error .overflow := by
    rw [add64, checkedAdd, if_neg (by omega)]
  rw [Logger.log, Logger.stopped, if_pos alone.good.stop, Logger.getEntry, wraps]
  rfl

/-- So only so many calls succeed. -/
theorem Alone.run_length {l' : Logger} {statics' : Statics} (alone : Alone l statics past)
    (few : (sites (past ++ calls)).card < 2 ^ 32) (start : past.length < 2 ^ 64)
    (run : l.logAll statics calls = .ok (l', statics')) : (past ++ calls).length < 2 ^ 64 := by
  induction calls generalizing l statics past with
  | nil =>
    rw [List.append_nil]
    exact start
  | cons c rest ih =>
    have split : past ++ c :: rest = past ++ [c] ++ rest := by rw [List.append_assoc]; rfl
    rw [split] at few ⊢
    have fewer := sites_card_le (past ++ [c]) rest
    rw [Logger.logAll, List.foldlM_cons] at run
    by_cases full : past.length + 1 = 2 ^ 64
    · rw [alone.log_full full c] at run
      cases run
    · obtain ⟨l₁, statics₁, first, _, _, next⟩ := alone.log_ok c (by omega) (by omega)
      rw [first, Except.ok_bind] at run
      refine ih next few ?_ run
      rw [List.length_append, List.length_singleton]
      omega

end

/-- The longest prefix of the first 16 values that takes at most `room` bytes. -/
structure LongestFit (room : Nat) (args short : List Arg) : Prop where
  start : short <+: args.take maxDebugs
  fits : (short.map fun a => a.width.bytes).sum ≤ room
  longest : ∀ longer, longer <+: args.take maxDebugs → (longer.map fun a => a.width.bytes).sum ≤ room →
    longer <+: short

theorem Call.shown_longest (esz : Nat) (c : Call) : LongestFit (esz - 12) c.args (c.shown esz) :=
  ⟨fitting_starts, fitting_sum_le, fun _ => fitting_longest⟩

/-- A logger with a slot and room for the header of an entry dumps its last calls as they were made,
oldest first, each with the longest part of its arguments that fits. The two counters do not wrap:
fewer than `2 ^ 32` sites, and fewer than `2 ^ 64` calls. -/
theorem ring_dumps_back {esz emax : Nat} {l : Logger} {calls : List Call} (size : 12 ≤ esz) (cells : 1 ≤ emax)
    (new : Logger.new esz emax = .ok l) (few : (sites calls).card < 2 ^ 32) (many : calls.length < 2 ^ 64) :
    ∃ l' statics records, l.logAll Entry.new calls = .ok (l', statics) ∧
      l'.serialize statics = .ok (document records) ∧
      records.length = min calls.length emax ∧
      List.Forall₂ (fun c r => r.index = (statics c.site).index ∧ r.format = c.site.format ∧ r.timestamp = c.now ∧
          ∃ args, LongestFit (esz - 12) c.args args ∧ r.vals = args.map Arg.val)
        (calls.drop (calls.length - emax)) records ∧
      ∀ c ∈ calls, ∀ d ∈ calls, (statics c.site).index = (statics d.site).index → c.site = d.site := by
  obtain ⟨l', statics, run, sameEsz, sameEmax, alone⟩ := (new_alone new size cells).run calls few many
  rw [List.nil_append] at alone
  obtain ⟨_, _, made⟩ := Except.bind_ok_iff.mp new
  cases made
  dsimp only at sameEsz sameEmax
  have dump := alone.good.serialize
  have count : (filed statics calls).length = calls.length := List.length_map _
  rw [sameEsz, sameEmax, count] at dump
  refine ⟨l', statics, _, run, dump, ?_, ?_, fun c member d member' same => ?_⟩
  · rw [List.length_map, List.length_drop, count]
    omega
  · rw [List.forall₂_map_right_iff, filed, ← List.map_drop, List.forall₂_map_right_iff, List.forall₂_same]
    exact fun c _ => ⟨rfl, rfl, rfl, c.shown esz, c.shown_longest esz, rfl⟩
  · have known : ∀ e ∈ calls, l'.hash (statics e.site).index = some e.site := fun e member =>
      alone.named e.site fun fresh =>
        (alone.seen e.site).mp fresh (List.mem_toFinset.mpr (List.mem_map_of_mem member))
    have named := known c member
    rw [same, known d member'] at named
    exact (Option.some.inj named).symm

section Example

/-- A call at the site `id`, one of many with the same text. -/
def oneOfMany (id : Nat) : Call := letterCall id "x" 0 (by decide)

theorem sites_range (n : Nat) : (sites ((List.range n).map oneOfMany)).card = n := by
  have ids : ((List.range n).map oneOfMany).map Call.site = (List.range n).map fun id => letterSite id "x" :=
    List.map_map ..
  have apart : Function.Injective fun id => letterSite id "x" := fun _ _ same => congrArg Site.id same
  rw [sites, ids, List.toFinset_card_of_nodup (List.nodup_range.map apart), List.length_map, List.length_range]

theorem not_mem_sites_range (n : Nat) : (oneOfMany n).site ∉ sites ((List.range n).map oneOfMany) := by
  intro member
  obtain ⟨c, inside, same⟩ := List.mem_map.mp (List.mem_toFinset.mp member)
  obtain ⟨id, below, rfl⟩ := List.mem_map.mp inside
  have equal : id = n := congrArg Site.id same
  exact absurd (List.mem_range.mp below) (by omega)

/-- A ring without a record. -/
theorem serialize_blank {l : Logger} {statics : Statics} (cells : 0 < l.emax)
    (blank : ∀ e < l.emax, l.record statics e = .ok none) : l.serialize statics = .ok (document []) := by
  have loop := @serializeLoop_ok l statics (fun _ _ => .ok ()) l.enext l.emax (fun _ => none) cells
    (fun k _ => blank _ (Nat.mod_lt _ cells)) cells (Nat.le_refl _)
  have nothing := rendered_ring l.emax []
  rw [List.map_nil, List.append_nil] at nothing
  rw [Nat.sub_self, Nat.add_zero, List.map_const', List.length_range', nothing] at loop
  refine serialize_whole ?_
  rw [Logger.serializeTo, if_neg (Nat.pos_iff_ne_zero.mp cells)]
  exact put_ok loop

/-- The record of the last of `2 ^ 32` sites has the index 0, which stands for an empty slot. -/
theorem last_site_lost {n : Nat} (full : n + 1 = 2 ^ 32) : ∃ l l' statics, Logger.new 13 1 = .ok l ∧
    l.logAll Entry.new ((List.range (n + 1)).map oneOfMany) = .ok (l', statics) ∧
    l'.serialize statics = .ok (document []) := by
  obtain ⟨l, new⟩ : ∃ l, Logger.new 13 1 = .ok l := ⟨_, rfl⟩
  obtain ⟨l₁, statics₁, run, esz, emax, alone⟩ := (new_alone new (by omega) (by omega)).run
    ((List.range n).map oneOfMany) (by rw [List.nil_append, sites_range]; omega)
    (by rw [List.nil_append, List.length_map, List.length_range]; omega)
  rw [List.nil_append] at alone
  have good := alone.good
  have index := alone.index
  have count := alone.count
  rw [sites_range] at index
  rw [List.length_map, List.length_range] at count
  have files := alone.files (oneOfMany n)
  cases step : (l₁.log (oneOfMany n)).alone Access.perform statics₁ with
  | error e =>
    have early := files.error step
    omega
  | ok r =>
    obtain ⟨l', statics⟩ := r
    obtain ⟨m, files⟩ := files.ok step
    have number : m = 2 ^ 32 := by
      rcases files.names with ⟨_, some, _, _, before⟩ | ⟨_, rfl, _⟩
      · have fresh := (alone.seen (oneOfMany n).site).mpr (not_mem_sites_range n)
        exact absurd ((before trivial).symm.trans fresh) some
      · omega
    subst number
    refine ⟨l, l', statics, new, ?_, ?_⟩
    · rw [List.range_succ, List.map_append, Logger.logAll, List.foldlM_append]
      change (l.logAll Entry.new ((List.range n).map oneOfMany) >>= _) = _
      rw [run, Except.ok_bind, List.map_singleton, List.foldlM_cons, step]
      rfl
    · have one : l'.emax = 1 := by
        rw [files.emax, emax]
        cases new
        rfl
      have wide : l'.esz = l₁.esz := files.esz
      refine serialize_blank (by omega) fun e inside => ?_
      obtain rfl : e = 0 := by omega
      have slot := files.slot
      have start : l₁.esz * (l₁.enext % l₁.emax) = 0 := by
        rw [← files.emax, one, Nat.mod_one, Nat.mul_zero]
      have front := slot.front
      rw [start, Nat.mod_self, Call.written, List.append_assoc] at front
      have header := window_part [] (toLe 4 0) _ front
      have size := good.esz
      rw [List.length_nil, toLe_length] at header
      refine record_none ?_ ?_
      · rw [slot.length, good.length, ← files.emax, one]
        omega
      · rw [Nat.zero_mul]
        exact header

theorem sites_replicate (n : Nat) (c : Call) : (sites (List.replicate n c)).card ≤ 1 := by
  have one : sites (List.replicate n c) ⊆ {c.site} := by
    intro s member
    obtain ⟨d, inside, same⟩ := List.mem_map.mp (List.mem_toFinset.mp member)
    rw [← same, List.eq_of_mem_replicate inside]
    exact Finset.mem_singleton_self _
  exact Finset.card_le_card one

/-- The count of records is used up after `2 ^ 64 - 1` calls. -/
theorem last_call_overflows {n : Nat} (full : n + 1 = 2 ^ 64) : ∃ l, Logger.new 13 1 = .ok l ∧
    l.logAll Entry.new (List.replicate (n + 1) (oneOfMany 0)) = .error .overflow := by
  obtain ⟨l, new⟩ : ∃ l, Logger.new 13 1 = .ok l := ⟨_, rfl⟩
  have single := sites_replicate n (oneOfMany 0)
  obtain ⟨l₁, statics₁, run, _, _, alone⟩ := (new_alone new (by omega) (by omega)).run
    (List.replicate n (oneOfMany 0)) (by rw [List.nil_append]; omega)
    (by rw [List.nil_append, List.length_replicate]; omega)
  rw [List.nil_append] at alone
  refine ⟨l, new, ?_⟩
  rw [List.replicate_succ', Logger.logAll, List.foldlM_append]
  change (l.logAll Entry.new (List.replicate n (oneOfMany 0)) >>= _) = _
  rw [run, Except.ok_bind, List.foldlM_cons, alone.log_full (by rw [List.length_replicate, full])]
  rfl

/-- With `2 ^ 32` sites the last record is lost, and `2 ^ 64` calls cannot be made. -/
theorem log_counters_wrap :
    (∃ (calls : List Call) (l l' : Logger) (statics : Statics), calls.length = 2 ^ 32 ∧ Logger.new 13 1 = .ok l ∧
      l.logAll Entry.new calls = .ok (l', statics) ∧ l'.serialize statics = .ok (document [])) ∧
    ∃ (calls : List Call) (l : Logger), calls.length = 2 ^ 64 ∧ Logger.new 13 1 = .ok l ∧
      l.logAll Entry.new calls = .error .overflow := by
  obtain ⟨n, sites⟩ : ∃ n, n + 1 = 2 ^ 32 := ⟨2 ^ 32 - 1, by omega⟩
  obtain ⟨m, calls⟩ : ∃ m, m + 1 = 2 ^ 64 := ⟨2 ^ 64 - 1, by omega⟩
  refine ⟨⟨(List.range (n + 1)).map oneOfMany, ?_⟩, List.replicate (m + 1) (oneOfMany 0), ?_⟩
  · obtain ⟨l, l', statics, lost⟩ := last_site_lost sites
    refine ⟨l, l', statics, ?_, lost⟩
    rw [List.length_map, List.length_range, sites]
  · obtain ⟨l, wraps⟩ := last_call_overflows calls
    refine ⟨l, ?_, wraps⟩
    rw [List.length_replicate, calls]

/-- Two calls at one site with room for the last. -/
theorem ring_dumps_back_last : ∃ l l' statics records, Logger.new 13 1 = .ok l ∧
    l.logAll Entry.new [letterCall 1 "a" 5 (by decide), letterCall 1 "a" 6 (by decide)] = .ok (l', statics) ∧
    l'.serialize statics = .ok (document records) ∧ records.length = 1 := by
  have few : (sites [letterCall 1 "a" 5 (by decide), letterCall 1 "a" 6 (by decide)]).card < 2 ^ 32 :=
    Nat.lt_of_le_of_lt (List.toFinset_card_le _) (by decide)
  obtain ⟨l', statics, records, run, dump, count, _⟩ :=
    @ring_dumps_back 13 1 _ _ (by decide) (by decide) rfl few (by decide)
  exact ⟨_, l', statics, records, rfl, run, dump, count⟩

end Example

end R2.Log
