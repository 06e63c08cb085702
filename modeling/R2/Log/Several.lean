import R2.Log.Shared

namespace R2.Log

/-- The static entries of all `log!`, and the logger of each thread with what is left of the
`log!` that the thread is in. -/
abbrev Logs := Crew Nat Access Nat Fault Statics Logger

abbrev Event := Crew.Event Nat Call

namespace Logs

def statics (w : Logs) : Statics := w.shared

def logger (w : Logs) (i : Nat) : Logger := w.own i

/-- The thread is in no `log!`. -/
def Idle (w : Logs) (i : Nat) : Prop := w.doing i = none

def runAll (w : Logs) (events : List Event) : Option Logs := w.run Access.perform Logger.log events

/-- Before the first `log!`. -/
structure Fresh (w : Logs) : Prop where
  statics : w.statics = Entry.new
  idle : ∀ i, w.Idle i
  logger : ∀ i, ∃ esz emax, 12 ≤ esz ∧ 0 < emax ∧ Logger.new esz emax = .ok (w.logger i)

/-- What a call on `l` needs of an access: that a load of an index finds one that resolves. -/
def Needs (l : Logger) : Access → Statics → Prop
  | .loadIndex entry, statics => Resolves l entry (statics entry).index
  | _, _ => True

/-- In each call of the run what the first load of the index finds resolves, and, if that was
none, also what the second finds. -/
def Heeding (w : Logs) (events : List Event) : Prop := w.Heeds Access.perform Logger.log Needs events

/-- A logger after `calls`. -/
def Logged (calls : List Call) (l : Logger) (statics : Statics) : Prop :=
  ∃ filings, filings.map Filing.call = calls ∧ Good l statics filings

theorem rules : Crew.Rules Access.perform Logger.log Grows Needs (fun _ => True) Logged where
  refl := Grows.refl
  trans _ _ _ := Grows.trans
  stable := by
    rintro past l s s' ⟨filings, calls, good⟩ grew
    exact ⟨filings, calls, good.grow grew⟩
  call := by
    rintro past l s c ⟨filings, calls, good⟩
    have safe := @log_safe False Grows Grows (Needs l) (fun _ => True) (Resolves l c.site) s l Manners.shared good.stop
      good.cells good.esz good.length good.sized c (fun _ => id) fun _ => trivial
    refine safe.mono fun l' s' ⟨n, files⟩ => ⟨filings ++ [⟨c, n⟩], ?_, good.log files fun _ => id⟩
    rw [List.map_append, calls]
    rfl

variable {start w : Logs} {events : List Event}

theorem Fresh.sound (fresh : start.Fresh) :
    Crew.Sound Access.perform Grows Needs (fun _ => True) Logged (fun i => Crew.callsOn i ([] : List Event)) start := by
  intro i
  refine ⟨fun _ => ⟨[], rfl, ?_⟩, fun p doing => ?_⟩
  · obtain ⟨esz, emax, size, cells, run⟩ := fresh.logger i
    rw [show start.shared = Entry.new from fresh.statics]
    exact new_good run size cells
  · rw [show start.doing i = none from fresh.idle i] at doing
    cases doing

/-- A thread that is in no `log!` has a good logger with the records of its calls. -/
theorem Fresh.logged (fresh : start.Fresh) (heeds : start.Heeding events) (run : start.runAll events = some w) {i : Nat}
    (idle : w.Idle i) : Logged (Crew.callsOn i events) (w.logger i) w.statics := by
  have sound := fresh.sound.run rules heeds run i
  rw [List.nil_append] at sound
  exact sound.1 idle

end Logs

/-- Threads log at sites they share, each access to an entry at a time, and every index that a
`log!` loads resolves in the logger of its thread. Then each thread that is in no `log!` dumps
the records of its last calls, with the texts and the widths of the sites that wrote them. -/
theorem records_keep_identity {start w : Logs} {events : List Event} (fresh : start.Fresh)
    (heeds : start.Heeding events) (run : start.runAll events = some w) (i : Nat) (idle : w.Idle i) :
    ∃ records, (w.logger i).serialize w.statics = .ok (document records) ∧
      List.Forall₂ (fun c r => r.format = c.site.format ∧ ∃ args, args <+: c.args ∧
          args.map Arg.width = c.site.shown (w.logger i).esz ∧ r.vals = args.map Arg.val)
        ((Crew.callsOn i events).drop ((Crew.callsOn i events).length - (w.logger i).emax)) records := by
  obtain ⟨filings, calls, good⟩ := fresh.logged heeds run idle
  refine ⟨_, good.serialize, ?_⟩
  rw [← calls, List.length_map, ← List.map_drop, List.forall₂_map_left_iff, List.forall₂_map_right_iff,
    List.forall₂_same]
  intro f _
  exact ⟨rfl, f.call.shown (w.logger i).esz, fitting_starts.trans (List.take_prefix ..), f.call.shown_widths _, rfl⟩

section Example

def letterSite (id : Nat) (format : String) : Site := ⟨id, format, [.one], nofun⟩

def letterCall (id : Nat) (format : String) (val : Nat) (fits : val < 256) : Call :=
  ⟨letterSite id format, [⟨.one, val, fits⟩], 9, rfl, by decide⟩

/-- Threads with a ring of one slot each. -/
def smallRings : Logs := ⟨Entry.new, fun _ => ⟨13, 1, 0, 0, 1, fun _ => none, List.replicate 13 0⟩, fun _ => none⟩

theorem smallRings_fresh : smallRings.Fresh :=
  ⟨rfl, fun _ => rfl, fun _ => ⟨13, 1, by decide, by decide, rfl⟩⟩

/-- A thread goes on for `n` accesses, or for `n - 1` and the return. -/
def goes (i n : Nat) : List Event := List.replicate n (.go i)

/-- The second thread logs at a site that the first thread met first: its table does not know the
index, or has another site under it. So it is also when it is only the second load of the index that
finds the other's. -/
theorem index_of_other_logger :
    (∃ w, smallRings.runAll (.call 0 (letterCall 1 "a" 5 (by decide)) :: goes 0 7 ++
        .call 1 (letterCall 1 "a" 6 (by decide)) :: goes 1 3) = some w ∧ w.Idle 0 ∧ w.Idle 1 ∧
      (w.logger 1).serialize w.statics = .error .unwrap) ∧
    (∃ w, smallRings.runAll (.call 0 (letterCall 1 "a" 5 (by decide)) :: goes 0 7 ++
        .call 1 (letterCall 2 "b" 7 (by decide)) :: goes 1 7 ++
        .call 1 (letterCall 1 "a" 6 (by decide)) :: goes 1 3) = some w ∧ w.Idle 0 ∧ w.Idle 1 ∧
      (w.logger 1).record w.statics 0 = .ok (some ⟨1, "b", 9, [6]⟩)) ∧
    ∃ w, smallRings.runAll (.call 0 (letterCall 1 "a" 5 (by decide)) :: .call 1 (letterCall 1 "a" 6 (by decide)) ::
        goes 1 1 ++ goes 0 7 ++ goes 1 3) = some w ∧ w.Idle 0 ∧ w.Idle 1 ∧
      (w.logger 1).serialize w.statics = .error .unwrap := by
  refine ⟨⟨_, rfl, rfl, rfl, ?_⟩, ⟨_, rfl, rfl, rfl, ?_⟩, ⟨_, rfl, rfl, rfl, ?_⟩⟩
  · rfl
  · rfl
  · rfl

/-- Both threads are at the first load of one site before either has stored an index. -/
def atOnce : List Event :=
  [.call 0 (letterCall 1 "a" 5 (by decide)), .call 1 (letterCall 1 "a" 6 (by decide)),
    .go 0, .go 1, .go 0, .go 1, .go 0, .go 1] ++ goes 0 4 ++ goes 1 2

theorem atOnce_heeding : smallRings.Heeding atOnce := by
  have first : Resolves (smallRings.own 0) (letterSite 1 "a") 0 := Or.inl ⟨rfl, by decide⟩
  iterate 2 refine Crew.heeds_call ?_ rfl
  iterate 4 refine Crew.heeds_access ?_ rfl first
  iterate 5 refine Crew.heeds_access ?_ rfl trivial
  refine Crew.heeds_return ?_ rfl
  refine Crew.heeds_access ?_ rfl trivial
  exact Crew.heeds_return trivial rfl

/-- They hand out an index each, of which the site keeps the last, and both dumps are right. -/
theorem records_keep_identity_at_once : ∃ w records, smallRings.runAll atOnce = some w ∧
    (w.logger 1).serialize w.statics = .ok (document records) ∧ records.length = 1 := by
  obtain ⟨records, dump, same⟩ := records_keep_identity smallRings_fresh atOnce_heeding rfl 1 rfl
  exact ⟨_, records, rfl, dump, same.length_eq.symm⟩

end Example

end R2.Log
