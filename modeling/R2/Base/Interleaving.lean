import Mathlib.Logic.Function.Basic
import R2.Base.Ensures

namespace R2

/-- A program of one thread. What it shares with other threads it reaches by atomic
accesses; between two of them it runs on what is its own. -/
inductive Program (Access Answer ε α : Type)
  | done (a : α)
  | fail (e : ε)
  | access (a : Access) (next : Answer → Program Access Answer ε α)

namespace Program

variable {Access Answer ε α β σ : Type}

def bind : Program Access Answer ε α → (α → Program Access Answer ε β) → Program Access Answer ε β
  | done a, f => f a
  | fail e, _ => fail e
  | access a next, f => access a fun answer => (next answer).bind f

instance : Monad (Program Access Answer ε) where
  pure := done
  bind := bind

def ofExcept : Except ε α → Program Access Answer ε α
  | .ok a => done a
  | .error e => fail e

@[simp] theorem done_bind (a : α) (f : α → Program Access Answer ε β) : (done a >>= f) = f a := rfl

@[simp] theorem fail_bind (e : ε) (f : α → Program Access Answer ε β) :
    ((fail e : Program Access Answer ε α) >>= f) = fail e := rfl

@[simp] theorem ofExcept_ok_bind (a : α) (f : α → Program Access Answer ε β) :
    (ofExcept (.ok a : Except ε α) >>= f) = f a := rfl

@[simp] theorem access_bind (a : Access) (next : Answer → Program Access Answer ε α)
    (f : α → Program Access Answer ε β) : (access a next >>= f) = access a fun answer => next answer >>= f := rfl

/-- The program runs and no other thread in between. -/
def alone (perform : Access → σ → Answer × σ) : Program Access Answer ε α → σ → Except ε (α × σ)
  | done a, s => .ok (a, s)
  | fail e, _ => .error e
  | access a next, s => (next (perform a s).1).alone perform (perform a s).2

/-- Other threads change what is shared by `rely` only, and this one by `guar` only.
Where each access finds what it needs, the program fails with `allowed` errors only and
ends in `post`. -/
def Safe (perform : Access → σ → Answer × σ) (rely guar : σ → σ → Prop) (need : Access → σ → Prop)
    (allowed : ε → Prop) (post : α → σ → Prop) : Program Access Answer ε α → σ → Prop
  | done a, s => ∀ s', rely s s' → post a s'
  | fail e, _ => allowed e
  | access a next, s => ∀ s', rely s s' → need a s' →
      guar s' (perform a s').2 ∧ (next (perform a s').1).Safe perform rely guar need allowed post (perform a s').2

variable {perform : Access → σ → Answer × σ} {rely guar : σ → σ → Prop} {need : Access → σ → Prop}
  {allowed : ε → Prop} {post : α → σ → Prop} {after : β → σ → Prop} {p : Program Access Answer ε α} {s s' : σ}

/-- Safety is not lost while others run. -/
theorem Safe.wait (trans : ∀ a b c, rely a b → rely b c → rely a c)
    (safe : p.Safe perform rely guar need allowed post s) (others : rely s s') :
    p.Safe perform rely guar need allowed post s' := by
  cases p with
  | done a => exact fun t more => safe t (trans _ _ _ others more)
  | fail e => exact safe
  | access a next => exact fun t more => safe t (trans _ _ _ others more)

theorem Safe.mono {post' : α → σ → Prop} (safe : p.Safe perform rely guar need allowed post s)
    (weaker : ∀ a t, post a t → post' a t) : p.Safe perform rely guar need allowed post' s := by
  induction p generalizing s with
  | done a => exact fun t others => weaker a t (safe t others)
  | fail e => exact safe
  | access a next ih =>
    intro t others needed
    obtain ⟨own, rest⟩ := safe t others needed
    exact ⟨own, ih _ rest⟩

/-- One program after the other. -/
theorem Safe.bind (refl : ∀ t, rely t t) {f : α → Program Access Answer ε β}
    (safe : p.Safe perform rely guar need allowed post s)
    (next : ∀ a t, post a t → (f a).Safe perform rely guar need allowed after t) :
    (p >>= f).Safe perform rely guar need allowed after s := by
  induction p generalizing s with
  | done a => exact next a s (safe s (refl s))
  | fail e => exact safe
  | access a later ih =>
    intro t others needed
    obtain ⟨own, rest⟩ := safe t others needed
    exact ⟨own, ih _ rest⟩

/-- A program that is safe while nobody interferes ends well when it runs alone. -/
theorem Safe.alone (quiet : ∀ t, rely t t) (met : ∀ a t, need a t)
    (safe : p.Safe perform rely guar need allowed post s) :
    Ensures allowed (p.alone perform s) fun r => post r.1 r.2 := by
  induction p generalizing s with
  | done a => exact safe s (quiet s)
  | fail e => exact safe
  | access a next ih => exact ih _ (safe s (quiet s) (met a s)).2

end Program

/-- Threads that run calls one after the other, each on what is its own and on what they share. -/
structure Crew (ι Access Answer ε σ L : Type) where
  shared : σ
  /-- what a thread has of its own, as its last call left it -/
  own : ι → L
  /-- what is left of the call that a thread is in -/
  doing : ι → Option (Program Access Answer ε L)

namespace Crew

/-- A thread begins a call, or goes on with the one it is in. -/
inductive Event (ι C : Type)
  | call (i : ι) (c : C)
  | go (i : ι)

variable {ι Access Answer ε σ L C : Type} [DecidableEq ι]

/-- There is no step for a call by a thread that is in one, or for a thread that has
nothing to go on with. -/
def step (perform : Access → σ → Answer × σ) (body : L → C → Program Access Answer ε L)
    (w : Crew ι Access Answer ε σ L) : Event ι C → Option (Crew ι Access Answer ε σ L)
  | .call i c =>
    match w.doing i with
    | none => some { w with doing := Function.update w.doing i (some (body (w.own i) c)) }
    | some _ => none
  | .go i =>
    match w.doing i with
    | some (.access a next) =>
      some { w with
        shared := (perform a w.shared).2
        doing := Function.update w.doing i (some (next (perform a w.shared).1)) }
    | some (.done l) => some { w with own := Function.update w.own i l, doing := Function.update w.doing i none }
    | _ => none

def run (perform : Access → σ → Answer × σ) (body : L → C → Program Access Answer ε L)
    (w : Crew ι Access Answer ε σ L) (events : List (Event ι C)) : Option (Crew ι Access Answer ε σ L) :=
  events.foldlM (step perform body) w

/-- Each access finds what it needs. -/
def Heeds (perform : Access → σ → Answer × σ) (body : L → C → Program Access Answer ε L)
    (need : L → Access → σ → Prop) (w : Crew ι Access Answer ε σ L) : List (Event ι C) → Prop
  | [] => True
  | e :: rest =>
    (∀ i a next, e = .go i → w.doing i = some (.access a next) → need (w.own i) a w.shared) ∧
      ∀ w', w.step perform body e = some w' → w'.Heeds perform body need rest

/-- The calls that a thread began. -/
def callsOn (i : ι) (events : List (Event ι C)) : List C :=
  events.filterMap fun
    | .call j c => if j = i then some c else none
    | .go _ => none

theorem callsOn_append (i : ι) (events more : List (Event ι C)) :
    callsOn i (events ++ more) = callsOn i events ++ callsOn i more := List.filterMap_append

theorem callsOn_self (i : ι) (c : C) : callsOn i [.call i c] = [c] := List.filterMap_cons_some (if_pos rfl)

theorem callsOn_other {i j : ι} (other : i ≠ j) (c : C) : callsOn j [.call i c] = [] :=
  List.filterMap_cons_none (if_neg other)

theorem callsOn_go (i j : ι) : callsOn j [(.go i : Event ι C)] = [] := rfl

/-- Each thread is done with its calls, or safely in the last of them. -/
def Sound (perform : Access → σ → Answer × σ) (rely : σ → σ → Prop) (need : L → Access → σ → Prop)
    (allowed : ε → Prop) (inv : List C → L → σ → Prop) (past : ι → List C) (w : Crew ι Access Answer ε σ L) : Prop :=
  ∀ i, (w.doing i = none → inv (past i) (w.own i) w.shared) ∧
    ∀ p, w.doing i = some p → p.Safe perform rely rely (need (w.own i)) allowed (fun l s => inv (past i) l s) w.shared

variable {perform : Access → σ → Answer × σ} {body : L → C → Program Access Answer ε L} {rely : σ → σ → Prop}
  {need : L → Access → σ → Prop} {allowed : ε → Prop} {inv : List C → L → σ → Prop}
  {w w' : Crew ι Access Answer ε σ L} {events past : List (Event ι C)} {e : Event ι C}

theorem heeds_call {i : ι} {c : C}
    (rest : Heeds perform body need
      { w with doing := Function.update w.doing i (some (body (w.own i) c)) } events) (idle : w.doing i = none) :
    w.Heeds perform body need (.call i c :: events) := by
  refine ⟨nofun, fun w' run => ?_⟩
  rw [Crew.step, idle] at run
  cases run
  exact rest

theorem heeds_access {i : ι} {a : Access} {next : Answer → Program Access Answer ε L}
    (rest : Heeds perform body need
      { w with
        shared := (perform a w.shared).2
        doing := Function.update w.doing i (some (next (perform a w.shared).1)) } events)
    (doing : w.doing i = some (.access a next)) (needed : need (w.own i) a w.shared) :
    w.Heeds perform body need (.go i :: events) := by
  refine ⟨fun j b later same busy => ?_, fun w' run => ?_⟩
  · cases same
    rw [doing] at busy
    cases busy
    exact needed
  · rw [Crew.step, doing] at run
    cases run
    exact rest

theorem heeds_return {i : ι} {l : L}
    (rest : Heeds perform body need
      { w with own := Function.update w.own i l, doing := Function.update w.doing i none } events)
    (doing : w.doing i = some (.done l)) : w.Heeds perform body need (.go i :: events) := by
  refine ⟨fun j b later same busy => ?_, fun w' run => ?_⟩
  · cases same
    rw [doing] at busy
    cases busy
  · rw [Crew.step, doing] at run
    cases run
    exact rest

/-- What the calls of the threads rely on and give. -/
structure Rules (perform : Access → σ → Answer × σ) (body : L → C → Program Access Answer ε L) (rely : σ → σ → Prop)
    (need : L → Access → σ → Prop) (allowed : ε → Prop) (inv : List C → L → σ → Prop) : Prop where
  refl : ∀ s, rely s s
  trans : ∀ a b c, rely a b → rely b c → rely a c
  stable : ∀ past l s s', inv past l s → rely s s' → inv past l s'
  call : ∀ past l s c, inv past l s →
    (body l c).Safe perform rely rely (need l) allowed (fun l' s' => inv (past ++ [c]) l' s') s

theorem Sound.step (rules : Rules perform body rely need allowed inv)
    (sound : w.Sound perform rely need allowed inv fun i => callsOn i past)
    (needed : ∀ i a next, e = .go i → w.doing i = some (.access a next) → need (w.own i) a w.shared)
    (run : w.step perform body e = some w') :
    w'.Sound perform rely need allowed inv fun i => callsOn i (past ++ [e]) := by
  intro j
  dsimp only
  rw [callsOn_append]
  cases e with
  | call i c =>
    cases doing : w.doing i with
    | some p =>
      rw [Crew.step, doing] at run
      cases run
    | none =>
      rw [Crew.step, doing] at run
      cases run
      dsimp only
      by_cases same : j = i
      · subst same
        rw [callsOn_self, Function.update_self]
        refine ⟨nofun, fun p begun => ?_⟩
        cases begun
        exact rules.call _ _ _ c ((sound j).1 doing)
      · rw [callsOn_other (Ne.symm same), List.append_nil, Function.update_of_ne same]
        exact sound j
  | go i =>
    rw [callsOn_go, List.append_nil]
    cases doing : w.doing i with
    | none =>
      rw [Crew.step, doing] at run
      cases run
    | some p =>
      cases p with
      | fail e =>
        rw [Crew.step, doing] at run
        cases run
      | done l =>
        rw [Crew.step, doing] at run
        cases run
        dsimp only
        by_cases same : j = i
        · subst same
          rw [Function.update_self, Function.update_self]
          exact ⟨fun _ => (sound j).2 _ doing _ (rules.refl _), nofun⟩
        · rw [Function.update_of_ne same, Function.update_of_ne same]
          exact sound j
      | access a next =>
        rw [Crew.step, doing] at run
        cases run
        obtain ⟨own, rest⟩ := (sound i).2 _ doing _ (rules.refl _) (needed i a next rfl doing)
        dsimp only
        by_cases same : j = i
        · subst same
          rw [Function.update_self]
          refine ⟨nofun, fun p begun => ?_⟩
          cases begun
          exact rest
        · rw [Function.update_of_ne same]
          exact ⟨fun idle => rules.stable _ _ _ _ ((sound j).1 idle) own,
            fun p begun => ((sound j).2 p begun).wait rules.trans own⟩

/-- Whatever the interleaving, as long as each access finds what it needs. -/
theorem Sound.run (rules : Rules perform body rely need allowed inv)
    (sound : w.Sound perform rely need allowed inv fun i => callsOn i past)
    (heeds : w.Heeds perform body need events) (run : w.run perform body events = some w') :
    w'.Sound perform rely need allowed inv fun i => callsOn i (past ++ events) := by
  induction events generalizing w past with
  | nil =>
    cases run
    rw [List.append_nil]
    exact sound
  | cons e rest ih =>
    rw [Crew.run, List.foldlM_cons] at run
    obtain ⟨w₁, first, run⟩ := Option.bind_eq_some_iff.mp run
    obtain ⟨needed, heeds⟩ := heeds
    have next := ih (sound.step rules needed first) (heeds w₁ first) run
    rw [List.append_assoc] at next
    exact next

end Crew

end R2
