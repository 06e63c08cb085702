import R2.Base.Replicas
import R2.Fleet.Calls
import R2.Fleet.Learns

namespace R2

open Control

/-- The control threads, the forwarding threads and the channels between them. -/
structure Fleet (n : Nat) (T σ : Type) where
  r2 : Ctx T
  /-- what is left to do under the lock, which is free once nothing is left -/
  locked : List (Fleet.Action n T)
  /-- what the call under way does the next times it holds the lock -/
  later : List (List (Fleet.Action n T))
  /-- the channel from the forwarding threads -/
  reports : List EthMacAddMsg
  channel : Fin n → List (Fleet.Msg T)
  thread : Fin n → Fleet.Forwarder T σ

namespace Fleet

variable {n : Nat} {T σ : Type}

/-- The messages in the actions to thread `t`, in the order they go out. -/
def sentTo (t : Fin n) : List (Action n T) → List (Msg T)
  | [] => []
  | .send u msg :: actions => if u = t then msg :: sentTo t actions else sentTo t actions
  | .await _ :: actions => sentTo t actions

/-- What is under way to thread `t`. -/
def inbox (fleet : Fleet n T σ) (t : Fin n) : List (Msg T) :=
  fleet.channel t ++ sentTo t (fleet.locked ++ fleet.later.flatten)

/-- A message that goes out stays under way. -/
theorem inbox_send {fleet : Fleet n T σ} {t : Fin n} {msg : Msg T} {locked : List (Action n T)}
    (head : fleet.locked = .send t msg :: locked) (u : Fin n) :
    inbox { fleet with locked, channel := Function.update fleet.channel t (fleet.channel t ++ [msg]) } u =
      fleet.inbox u := by
  change Function.update fleet.channel t (fleet.channel t ++ [msg]) u ++ sentTo u (locked ++ fleet.later.flatten) = _
  rw [inbox, head, List.cons_append, sentTo]
  by_cases here : t = u
  · subst here
    rw [if_pos rfl, Function.update_self, List.append_assoc]
    rfl
  · rw [if_neg here, Function.update_of_ne (Ne.symm here)]

theorem inbox_receive {fleet : Fleet n T σ} {t : Fin n} {msg : Msg T} {rest : List (Msg T)}
    (head : fleet.channel t = msg :: rest) (f : Forwarder T σ) :
    fleet.inbox t = msg :: (rest ++ sentTo t (fleet.locked ++ fleet.later.flatten)) ∧
      ∀ u, inbox { fleet with
        thread := Function.update fleet.thread t f, channel := Function.update fleet.channel t rest } u =
          Function.update fleet.inbox t (rest ++ sentTo t (fleet.locked ++ fleet.later.flatten)) u := by
  constructor
  · rw [inbox, head, List.cons_append]
  · intro u
    change Function.update fleet.channel t rest u ++ sentTo u (fleet.locked ++ fleet.later.flatten) = _
    by_cases same : u = t
    · subst same
      rw [Function.update_self, Function.update_self]
    · rw [Function.update_of_ne same, Function.update_of_ne same]
      rfl

theorem inbox_lock {fleet : Fleet n T σ} {locked : List (Action n T)} {later : List (List (Action n T))}
    (free : fleet.locked = []) (next : fleet.later = locked :: later) (u : Fin n) :
    inbox { fleet with locked, later } u = fleet.inbox u := by
  rw [inbox, inbox, free, next, List.nil_append, List.flatten_cons]

theorem inbox_await {fleet : Fleet n T σ} {table : V4Table} {locked : List (Action n T)}
    (head : fleet.locked = .await table :: locked) (u : Fin n) : inbox { fleet with locked } u = fleet.inbox u := by
  rw [inbox, inbox, head, List.cons_append, sentTo]

def replicas (fleet : Fleet n T σ) : Replicas (Fin n) (Forwarder T σ) (Msg T) := ⟨fleet.thread, fleet.inbox⟩

/-- Nobody but the control threads has this table. -/
def Released (fleet : Fleet n T σ) (table : V4Table) : Prop :=
  ∀ t, (∀ routes, .ipv4TableAdd table routes ∉ fleet.channel t) ∧
    ∀ node routes, (fleet.thread t).graph.client Names.l3Ipv4Fwd = some (.ipv4Fwd node routes) → node.table ≠ table

/-- The addresses that an `EthDecap` has sent. -/
def learned : List R2Msg → List EthMacAddMsg
  | [] => []
  | .ethMacAdd msg :: sent => msg :: learned sent
  | _ :: sent => learned sent

theorem learned_map (news : List EthMacAddMsg) : learned (news.map .ethMacAdd) = news := by
  induction news with
  | nil => rfl
  | cons m news ih => exact congrArg (List.cons m) ih

section Launch

/-- `create_nodes` on a new graph -/
def createNodes (r2 : Ctx T) : Graph (Node T) Packet :=
  ((((Graph.new 0 .drop).add (.ipv4Parse ⟨0⟩) ipv4ParseInit).add
    (.ipv4Fwd ⟨.table1, 0, 0⟩ (r2.ipv4.deref .table1)) ipv4FwdInit).add .encapMux encapMuxInit).finalize

/-- The first thread runs the graph itself and the others run clones. -/
def launch (r2 : Ctx T) (pool : σ) (thread : Nat) : Forwarder T σ :=
  ⟨if thread = 0 then createNodes r2 else (createNodes r2).clone thread Node.clone, [], pool, []⟩

def start [IpLookupTable T] (pool : Fin n → σ) : Fleet n T σ where
  r2 := .new n
  locked := []
  later := []
  reports := []
  channel _ := []
  thread t := launch (.new n) (pool t) t

end Launch

section Steps

/-- What the threads do without a new call or frame: the API server runs one call
at a time, what a call sends leaves message by message, and the thread for the
reports takes the lock in between. All forwarding threads are alive here, so a
`send` finds its receiver; the steps of those that die are in `Mortal`. -/
inductive Turn : Fleet n T σ → Fleet n T σ → Prop
  | lock {fleet : Fleet n T σ} {locked later} : fleet.locked = [] → fleet.later = locked :: later →
      Turn fleet { fleet with locked, later }
  /-- one turn of the loop of `fwd2ctrl_messages` -/
  | report {fleet : Fleet n T σ} {report reports} : fleet.locked = [] → fleet.reports = report :: reports →
      Turn fleet { fleet with locked := broadcast (.ethMacAdd report), reports }
  | send {fleet : Fleet n T σ} {t msg locked} : fleet.locked = .send t msg :: locked →
      Turn fleet { fleet with locked, channel := Function.update fleet.channel t (fleet.channel t ++ [msg]) }
  | await {fleet : Fleet n T σ} {table locked} : fleet.locked = .await table :: locked → fleet.Released table →
      Turn fleet { fleet with locked }
  | receive {fleet : Fleet n T σ} {t msg rest f} : fleet.channel t = msg :: rest →
      (fleet.thread t).receive msg = .ok f →
      Turn fleet
        { fleet with thread := Function.update fleet.thread t f, channel := Function.update fleet.channel t rest }

variable [IpLookupTable T] [PacketPool σ]

/-- A call changes the context at once. -/
inductive Step : Fleet n T σ → Fleet n T σ → Prop
  | call {fleet : Fleet n T σ} {c r2 locked later} : fleet.locked = [] → fleet.later = [] →
      handle fleet.r2 c = .ok (r2, .ok (locked :: later)) → Step fleet { fleet with r2, locked, later }
  | refused {fleet : Fleet n T σ} {c r2 text} : fleet.locked = [] → fleet.later = [] →
      handle (n := n) fleet.r2 c = .ok (r2, .error text) → Step fleet { fleet with r2 }
  /-- a frame from an interface that the thread owns, all its way through the graph -/
  | frame {fleet : Fleet n T σ} {t i path frame path'} : (fleet.thread t).Owns i → (fleet.thread t).path i = some path →
      path.receive frame = .ok path' →
      Step fleet { fleet with
        thread := Function.update fleet.thread t ((fleet.thread t).put i path')
        reports := fleet.reports ++ learned path'.decap.sender.sent }
  | turn {fleet fleet'} : Turn fleet fleet' → Step fleet fleet'

/-- What the threads may come to, from their launch on; there is a first thread. -/
inductive Reached : Fleet n T σ → Prop
  | start (pool : Fin n → σ) : 0 < n → Reached (start pool)
  | step {fleet fleet'} : Reached fleet → Step fleet fleet' → Reached fleet'

end Steps

end Fleet

end R2
