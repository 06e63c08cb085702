import R2.Fleet.Barrier

namespace R2.Fleet

open Control

variable {n : Nat} {T σ : Type}

/-- The router with the forwarding threads that have panicked. -/
structure Mortal (n : Nat) (T σ : Type) where
  fleet : Fleet n T σ
  dead : Fin n → Bool

namespace Mortal

def kill (m : Mortal n T σ) (t : Fin n) : Mortal n T σ := { m with dead := Function.update m.dead t true }

theorem kill_dead (m : Mortal n T σ) (t : Fin n) : (m.kill t).dead t = true := Function.update_self ..

/-- Nobody alive has this table; a dead thread has let go of its own and of its channel. -/
def Released (m : Mortal n T σ) (table : V4Table) : Prop :=
  ∀ t, m.dead t = false → (∀ routes, .ipv4TableAdd table routes ∉ m.fleet.channel t) ∧
    ∀ node routes, (m.fleet.thread t).graph.client Names.l3Ipv4Fwd = some (.ipv4Fwd node routes) → node.table ≠ table

section Step

variable [IpLookupTable T] [PacketPool σ]

/-- The steps of `Fleet.Step` with every forwarding thread alive that takes part in one, and the
deaths: of a message that a thread takes, or of a frame. A control thread that sends to a dead thread
panics with the lock in its hand, and takes no further step. -/
inductive Step : Mortal n T σ → Mortal n T σ → Prop
  | call {m : Mortal n T σ} {c r2 locked later} : m.fleet.locked = [] → m.fleet.later = [] →
      handle m.fleet.r2 c = .ok (r2, .ok (locked :: later)) →
      Step m { m with fleet := { m.fleet with r2, locked, later } }
  | refused {m : Mortal n T σ} {c r2 text} : m.fleet.locked = [] → m.fleet.later = [] →
      handle (n := n) m.fleet.r2 c = .ok (r2, .error text) → Step m { m with fleet := { m.fleet with r2 } }
  | lock {m : Mortal n T σ} {locked later} : m.fleet.locked = [] → m.fleet.later = locked :: later →
      Step m { m with fleet := { m.fleet with locked, later } }
  | report {m : Mortal n T σ} {report reports} : m.fleet.locked = [] → m.fleet.reports = report :: reports →
      Step m { m with fleet := { m.fleet with locked := broadcast (.ethMacAdd report), reports } }
  | send {m : Mortal n T σ} {t msg locked} : m.fleet.locked = .send t msg :: locked → m.dead t = false →
      Step m { m with fleet := { m.fleet with
        locked, channel := Function.update m.fleet.channel t (m.fleet.channel t ++ [msg]) } }
  | await {m : Mortal n T σ} {table locked} : m.fleet.locked = .await table :: locked → m.Released table →
      Step m { m with fleet := { m.fleet with locked } }
  | receive {m : Mortal n T σ} {t msg rest f} : m.dead t = false → m.fleet.channel t = msg :: rest →
      (m.fleet.thread t).receive msg = .ok f →
      Step m { m with fleet := { m.fleet with
        thread := Function.update m.fleet.thread t f, channel := Function.update m.fleet.channel t rest } }
  | frame {m : Mortal n T σ} {t i path frame path'} : m.dead t = false → (m.fleet.thread t).Owns i →
      (m.fleet.thread t).path i = some path → path.receive frame = .ok path' →
      Step m { m with fleet := { m.fleet with
        thread := Function.update m.fleet.thread t ((m.fleet.thread t).put i path')
        reports := m.fleet.reports ++ learned path'.decap.sender.sent } }
  | dieTold {m : Mortal n T σ} {t msg rest e} : m.dead t = false → m.fleet.channel t = msg :: rest →
      (m.fleet.thread t).receive msg = .error e → Step m (m.kill t)
  | dieOf {m : Mortal n T σ} {t i path frame e} : m.dead t = false → (m.fleet.thread t).Owns i →
      (m.fleet.thread t).path i = some path → path.receive frame = .error e → Step m (m.kill t)

inductive Reached : Mortal n T σ → Prop
  | start (pool : Fin n → σ) : 0 < n → Reached ⟨Fleet.start pool, fun _ => false⟩
  | step {m m'} : Reached m → Step m m' → Reached m'

end Step

section Reached

variable [IpLookupTable T] [PacketPool σ] {m m' : Mortal n T σ} {fleet fleet' : Fleet n T σ}

/-- Nobody comes back. -/
theorem Step.alive (step : Step m m') (alive : ∀ t, m'.dead t = false) (t : Fin n) : m.dead t = false := by
  cases step with
  | @dieTold u => exact absurd ((m.kill_dead u).symm.trans (alive u)) Bool.noConfusion
  | @dieOf u => exact absurd ((m.kill_dead u).symm.trans (alive u)) Bool.noConfusion
  | _ => exact alive t

/-- As long as all are alive, the steps are those of the fleet. -/
theorem Step.living (step : Step m m') (alive : ∀ t, m'.dead t = false) : Fleet.Step m.fleet m'.fleet := by
  have before := step.alive alive
  cases step with
  | call free idle run => exact .call free idle run
  | refused free idle run => exact .refused free idle run
  | lock free next => exact .turn (.lock free next)
  | report free head => exact .turn (.report free head)
  | send head _ => exact .turn (.send head)
  | await head released => exact .turn (.await head fun t => released t (before t))
  | receive _ head run => exact .turn (.receive head run)
  | frame _ owns found run => exact .frame owns found run
  | @dieTold u => exact absurd ((m.kill_dead u).symm.trans (alive u)) Bool.noConfusion
  | @dieOf u => exact absurd ((m.kill_dead u).symm.trans (alive u)) Bool.noConfusion

theorem Reached.living (reached : m.Reached) (alive : ∀ t, m.dead t = false) : m.fleet.Reached := by
  induction reached with
  | start pool some => exact .start pool some
  | step before step ih => exact (ih (step.alive alive)).step (step.living alive)

/-- A run of the fleet is one in which nobody dies. -/
theorem Step.of_fleet (step : Fleet.Step fleet fleet') : Step ⟨fleet, fun _ => false⟩ ⟨fleet', fun _ => false⟩ := by
  cases step with
  | call free idle run => exact .call free idle run
  | refused free idle run => exact .refused free idle run
  | frame owns found run => exact .frame rfl owns found run
  | turn turn =>
    cases turn with
    | lock free next => exact .lock free next
    | report free head => exact .report free head
    | send head => exact .send head rfl
    | await head released => exact .await head fun t _ => released t
    | receive head run => exact .receive rfl head run

theorem Reached.of_fleet (reached : fleet.Reached) : Reached ⟨fleet, fun _ => false⟩ := by
  induction reached with
  | start pool some => exact .start pool some
  | step _ step ih => exact ih.step (.of_fleet step)

theorem Step.tidy (step : Step m m') (tidy : Tidy n m.fleet.r2) : Tidy n m'.fleet.r2 := by
  cases step with
  | @call c r2 locked later free idle run =>
    rcases handle_cases (n := n) tidy c with ⟨_, _, _, refused⟩ | ⟨r2', sections, done, called⟩
    · rw [refused] at run
      cases run
    · cases (Except.ok.inj (done.symm.trans run) : (r2', Except.ok sections) = _)
      exact called.tidy tidy
  | @refused c r2 text free idle run =>
    rcases handle_cases (n := n) tidy c with ⟨thread, text', inside, refused⟩ | ⟨_, _, done, _⟩
    · cases (Except.ok.inj (refused.symm.trans run) : (_, Except.error text') = _)
      exact ⟨tidy.nthreads, inside, tidy.interfaces⟩
    · rw [done] at run
      cases run
  | _ => exact tidy

/-- The control threads keep their own context in order, whoever dies. -/
theorem Reached.tidy (reached : m.Reached) : Tidy n m.fleet.r2 := by
  induction reached with
  | start pool some => exact ⟨rfl, some, nofun⟩
  | step _ step ih => exact step.tidy ih

end Reached

end Mortal

section Results

variable [IpLookupTable T] [PacketPool σ] {m : Mortal n T σ}

/-- As long as no forwarding thread has panicked: when the wait of a route update is over, every thread
has taken all that was sent to it before, whatever that was, and when the call then returns, all have the
nodes that the control threads know of. -/
theorem route_update_is_barrier (reached : m.Reached) (alive : ∀ t, m.dead t = false) {old : V4Table}
    {rest : List (Action n T)} (waits : m.fleet.locked = .await old :: rest) (free : m.Released old) :
    (∀ t, m.fleet.channel t = []) ∧ (rest = [] → m.fleet.later = [] →
      ∃ goal, Matches n m.fleet.r2 goal ∧ ∀ t, (m.fleet.thread t).shared = goal) := by
  have living := reached.living alive
  obtain ⟨base, orderly⟩ := living.orderly
  obtain ⟨goal, holds⟩ := living.holds
  have empty := orderly.drained waits fun t => free t (alive t)
  refine ⟨empty, fun done idle => ⟨goal, holds.inv.matched, fun t => holds.inv.heads.settled ?_⟩⟩
  change m.fleet.inbox t = []
  rw [Fleet.inbox, empty, waits, done, idle]
  rfl

/-- The threads have not yet taken any of the four messages about an interface when a route is added. -/
theorem route_update_is_barrier_late : ∃ (before m : Mortal 2 RouteList PktsHeap) (old : V4Table), before.Reached ∧
    (∀ t, (before.fleet.channel t).length = 4) ∧
    (∃ table routes, before.fleet.locked = broadcast (.ipv4TableAdd table routes) ++ [.await old]) ∧
    m.Reached ∧ m.fleet.r2 = before.fleet.r2 ∧ m.fleet.locked = [.await old] ∧ m.Released old ∧
    ∃ goal, ∀ t, (m.fleet.thread t).shared = goal ∧ ((m.fleet.thread t).graph.client (Names.rxTx 1)).isSome := by
  obtain ⟨fleet, reached, mild, r2, locked, later, four, _⟩ := port_opened
  have called := reached.step (.call locked later (r2 ▸ handle_addTen))
  have split : tenRouted.2 =
      broadcast (.ipv4TableAdd .table2 (tenRouted.1.ipv4.deref .table2)) ++ [.await .table1] := rfl
  have sent := called.sends split (broadcast_sends _)
  have calm (t : Fin 2) : ∀ msg ∈ fleet.channel t ++ sentTo t (broadcast (.ipv4TableAdd .table2
      (tenRouted.1.ipv4.deref .table2))), msg.Mild := by
    intro msg member
    rcases List.mem_append.mp member with old | new
    · exact mild t msg (List.mem_append_left _ old)
    · rw [sentTo_broadcast] at new
      rw [List.mem_singleton.mp new]
      trivial
  obtain ⟨f, _, first⟩ := sent.takes (t := 0) rfl (calm 0)
  obtain ⟨f', _, second⟩ := first.takes (t := 1) rfl (calm 1)
  obtain ⟨goal, holds⟩ := second.holds
  have free : Fleet.Released _ .table1 := holds.ready.released rfl (Fin.forall_fin_two.mpr ⟨by simp, by simp⟩)
  obtain ⟨_, all⟩ := route_update_is_barrier (Mortal.Reached.of_fleet second) (fun _ => rfl) rfl (fun t _ => free t)
  obtain ⟨goal', matched, shared⟩ := all rfl rfl
  obtain ⟨_, _, index, port⟩ := matched.hasPort (i := 1) rfl
  refine ⟨_, _, .table1, .of_fleet called, four, ⟨.table2, _, rfl⟩, .of_fleet second, rfl, rfl, fun t _ => free t,
    goal', fun t => ⟨shared t, ?_⟩⟩
  have rxTx := port.rxTx
  rw [index, ← shared t, Forwarder.client_shared] at rxTx
  obtain ⟨_, found, _⟩ := Option.map_eq_some_iff.mp rxTx
  exact Option.isSome_of_eq_some found

end Results

end R2.Fleet
