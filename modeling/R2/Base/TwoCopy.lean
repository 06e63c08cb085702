import Mathlib.Data.List.Nodup
import Mathlib.Logic.Function.Basic
import Mathlib.Tactic.Common

namespace R2.TwoCopy

/-!
One writer keeps two copies of a value and a set of readers holds references to
them. An update goes to the copy nobody refers to, the readers are then told to
move to it, and once they all have, the other copy gets the update too.
-/

/-- Where the writer is in an update. `todo` are the readers still to be told. -/
inductive Phase (ι Op : Type*)
  | idle
  | publishing (op : Op) (todo : List ι)
  | draining (op : Op)

structure State (ι T Op : Type*) where
  copy : Bool → T
  active : Bool
  phase : Phase ι Op
  held : ι → Bool
  inFlight : ι → List Bool

inductive Event (ι Op : Type*)
  | begin (op : Op)
  | send (reader : ι)
  | sent
  | deliver (reader : ι)
  | finish

def Event.issued {ι Op : Type*} : Event ι Op → List Op
  | begin op => [op]
  | _ => []

def Event.completed {ι Op : Type*} : Event ι Op → Nat
  | finish => 1
  | _ => 0

variable {ι T Op : Type*}

/-- Only the writer refers to this copy. -/
def State.Free (s : State ι T Op) (side : Bool) : Prop :=
  (∀ t, s.held t ≠ side ∧ side ∉ s.inFlight t) ∧ ∀ op todo, s.phase = .publishing op todo → s.active ≠ side

def State.write (s : State ι T Op) (side : Bool) (value : T) : State ι T Op :=
  { s with copy := Function.update s.copy side value }

/-- The steps of the writer and the readers. A message in flight is a reference
like one a reader holds; readers take theirs in order. -/
inductive Step [DecidableEq ι] (apply : Op → T → T) (readers : List ι) : State ι T Op →
    Event ι Op → State ι T Op → Prop
  | begin {s} (op : Op) : s.phase = .idle → s.Free (!s.active) →
      Step apply readers s (.begin op)
        { s.write (!s.active) (apply op (s.copy (!s.active))) with
          active := !s.active, phase := .publishing op readers }
  | send {s op t todo} : s.phase = .publishing op (t :: todo) →
      Step apply readers s (.send t)
        { s with
          inFlight := Function.update s.inFlight t (s.inFlight t ++ [s.active]), phase := .publishing op todo }
  | sent {s op} : s.phase = .publishing op [] → Step apply readers s .sent { s with phase := .draining op }
  | deliver {s t side rest} : s.inFlight t = side :: rest →
      Step apply readers s (.deliver t)
        { s with held := Function.update s.held t side, inFlight := Function.update s.inFlight t rest }
  | finish {s op} : s.phase = .draining op → s.Free (!s.active) →
      Step apply readers s .finish
        { s.write (!s.active) (apply op (s.copy (!s.active))) with phase := .idle }

/-- The value after a list of updates. -/
def result (apply : Op → T → T) (first : T) (ops : List Op) : T := ops.foldl (fun t op => apply op t) first

theorem result_append (apply : Op → T → T) (first : T) (ops : List Op) (op : Op) :
    result apply first (ops ++ [op]) = apply op (result apply first ops) := by
  simp only [result, List.foldl_append, List.foldl_cons, List.foldl_nil]

/-- A reader still to be told holds the old copy. -/
def State.Waits (s : State ι T Op) (t : ι) : Prop := s.held t = (!s.active) ∧ s.inFlight t = []

/-- A reader that has been told has the news in flight or has moved. -/
def State.Told (s : State ι T Op) (t : ι) : Prop :=
  s.held t = (!s.active) ∧ s.inFlight t = [s.active] ∨ s.held t = s.active ∧ s.inFlight t = []

/-- Between updates both copies agree and every reader holds the active one;
during one the active copy is ahead by it and the readers not yet told hold the
other copy. `ops` are the updates begun, of which `done` are complete. -/
inductive Inv (apply : Op → T → T) (first : T) : List Op → Nat → State ι T Op → Prop
  | idle {s ops} : s.phase = .idle → (∀ side, s.copy side = result apply first ops) →
      (∀ t, s.held t = s.active ∧ s.inFlight t = []) → Inv apply first ops ops.length s
  | updating {s ops op} (todo : List ι) : (s.phase = .publishing op todo ∨ s.phase = .draining op ∧ todo = []) →
      s.copy s.active = result apply first (ops ++ [op]) → s.copy (!s.active) = result apply first ops →
      todo.Nodup → (∀ t ∈ todo, s.Waits t) → (∀ t, t ∉ todo → s.Told t) →
      Inv apply first (ops ++ [op]) ops.length s

variable {apply : Op → T → T} {first : T} {readers : List ι} {s s' : State ι T Op} {ops : List Op} {done : Nat}

theorem Inv.begin {op : Op} (inv : Inv apply first ops done s) (idle : s.phase = .idle) (nodup : readers.Nodup)
    (complete : ∀ t, t ∈ readers) :
    Inv apply first (ops ++ [op]) done
      { s.write (!s.active) (apply op (s.copy (!s.active))) with
        active := !s.active, phase := .publishing op readers } := by
  cases inv with
  | updating todo phase =>
    rw [idle] at phase
    rcases phase with bad | ⟨bad, -⟩ <;> cases bad
  | idle _ agree settled =>
    refine .updating readers (Or.inl rfl) ?_ ?_ nodup (fun t _ => ?_) fun t out => absurd (complete t) out
    · change Function.update s.copy (!s.active) _ (!s.active) = _
      rw [Function.update_self, result_append, agree]
    · change Function.update s.copy (!s.active) _ (!!s.active) = _
      rw [Function.update_of_ne (by simp), agree]
    · refine ⟨?_, (settled t).2⟩
      change s.held t = (!!s.active)
      rw [(settled t).1, Bool.not_not]

theorem Inv.publishing {op : Op} {todo : List ι} (inv : Inv apply first ops done s)
    (publishing : s.phase = .publishing op todo) : ∃ before, ops = before ++ [op] ∧ done = before.length ∧
      s.copy s.active = result apply first ops ∧ s.copy (!s.active) = result apply first before ∧ todo.Nodup ∧
      (∀ t ∈ todo, s.Waits t) ∧ ∀ t, t ∉ todo → s.Told t := by
  cases inv with
  | idle idle =>
    rw [publishing] at idle
    cases idle
  | updating todo' phase ahead behind nodup waiting told =>
    rw [publishing] at phase
    rcases phase with same | ⟨bad, -⟩
    · obtain ⟨rfl, rfl⟩ := Phase.publishing.inj same
      exact ⟨_, rfl, rfl, ahead, behind, nodup, waiting, told⟩
    · cases bad

theorem Inv.send [DecidableEq ι] {op : Op} {t : ι} {todo : List ι} (inv : Inv apply first ops done s)
    (publishing : s.phase = .publishing op (t :: todo)) :
    Inv apply first ops done
      { s with
        inFlight := Function.update s.inFlight t (s.inFlight t ++ [s.active]), phase := .publishing op todo } := by
  obtain ⟨before, rfl, rfl, ahead, behind, nodup, waiting, told⟩ := inv.publishing publishing
  obtain ⟨fresh, nodup⟩ := List.nodup_cons.mp nodup
  refine .updating todo (Or.inl rfl) ahead behind nodup (fun u member => ?_) fun u out => ?_
  · have other : u ≠ t := fun same => fresh (same ▸ member)
    obtain ⟨held, nothing⟩ := waiting u (List.mem_cons_of_mem _ member)
    exact ⟨held, (Function.update_of_ne other _ _).trans nothing⟩
  · by_cases same : u = t
    · subst same
      obtain ⟨held, nothing⟩ := waiting u (List.mem_cons_self ..)
      refine Or.inl ⟨held, ?_⟩
      change Function.update s.inFlight u _ u = [s.active]
      rw [Function.update_self, nothing, List.nil_append]
    · have unsent : u ∉ t :: todo := fun member => (List.mem_cons.mp member).elim same out
      rcases told u unsent with ⟨held, news⟩ | ⟨held, nothing⟩
      · exact Or.inl ⟨held, (Function.update_of_ne same _ _).trans news⟩
      · exact Or.inr ⟨held, (Function.update_of_ne same _ _).trans nothing⟩

theorem Inv.sent {op : Op} (inv : Inv apply first ops done s) (publishing : s.phase = .publishing op []) :
    Inv apply first ops done { s with phase := .draining op } := by
  obtain ⟨before, rfl, rfl, ahead, behind, nodup, waiting, told⟩ := inv.publishing publishing
  exact .updating [] (Or.inr ⟨rfl, rfl⟩) ahead behind nodup waiting told

theorem Inv.deliver [DecidableEq ι] {t : ι} {side : Bool} {rest : List Bool} (inv : Inv apply first ops done s)
    (pending : s.inFlight t = side :: rest) :
    Inv apply first ops done
      { s with held := Function.update s.held t side, inFlight := Function.update s.inFlight t rest } := by
  cases inv with
  | idle _ _ settled =>
    rw [(settled t).2] at pending
    cases pending
  | updating todo phase ahead behind nodup waiting told =>
    have out : t ∉ todo := fun member => by
      rw [(waiting t member).2] at pending
      cases pending
    refine .updating todo phase ahead behind nodup (fun u member => ?_) fun u outside => ?_
    · have other : u ≠ t := fun same => out (same ▸ member)
      obtain ⟨held, nothing⟩ := waiting u member
      exact ⟨(Function.update_of_ne other _ _).trans held, (Function.update_of_ne other _ _).trans nothing⟩
    · by_cases same : u = t
      · -- the only message a reader can have is the news of this update
        subst same
        rcases told u out with ⟨-, news⟩ | ⟨-, nothing⟩
        · rw [news] at pending
          obtain ⟨rfl, rfl⟩ := List.cons.inj pending
          exact Or.inr ⟨Function.update_self .., Function.update_self ..⟩
        · rw [nothing] at pending
          cases pending
      · rcases told u outside with ⟨held, news⟩ | ⟨held, nothing⟩
        · exact Or.inl ⟨(Function.update_of_ne same _ _).trans held, (Function.update_of_ne same _ _).trans news⟩
        · exact Or.inr ⟨(Function.update_of_ne same _ _).trans held, (Function.update_of_ne same _ _).trans nothing⟩

theorem Inv.finish {op : Op} (inv : Inv apply first ops done s) (draining : s.phase = .draining op)
    (free : s.Free (!s.active)) :
    Inv apply first ops (done + 1) { s.write (!s.active) (apply op (s.copy (!s.active))) with phase := .idle } := by
  cases inv with
  | idle idle =>
    rw [draining] at idle
    cases idle
  | updating todo phase ahead behind _ _ told =>
    rw [draining] at phase
    rcases phase with bad | ⟨same, rfl⟩
    · cases bad
    · cases Phase.draining.inj same
      -- a reader that has been told and does not hold the old copy has moved
      have moved (t : ι) : s.held t = s.active ∧ s.inFlight t = [] := by
        rcases told t List.not_mem_nil with ⟨old, -⟩ | moved
        · exact absurd old (free.1 t).1
        · exact moved
      rw [← List.length_singleton (a := op), ← List.length_append]
      refine .idle rfl (fun side => ?_) moved
      change Function.update s.copy (!s.active) _ side = _
      by_cases here : side = !s.active
      · rw [here, Function.update_self, behind, result_append]
      · have isActive : side = s.active := by simpa using here
        rw [Function.update_of_ne here, isActive, ahead]

theorem Inv.step [DecidableEq ι] {e : Event ι Op} (inv : Inv apply first ops done s) (nodup : readers.Nodup)
    (complete : ∀ t, t ∈ readers) (step : Step apply readers s e s') :
    Inv apply first (ops ++ e.issued) (done + e.completed) s' := by
  have same : ops ++ [] = ops := List.append_nil ops
  cases step with
  | begin op idle free => exact inv.begin idle nodup complete
  | send publishing => exact same.symm ▸ inv.send publishing
  | sent publishing => exact same.symm ▸ inv.sent publishing
  | deliver pending => exact same.symm ▸ inv.deliver pending
  | finish draining free => exact same.symm ▸ inv.finish draining free

/-- No reader and no message refers to the copy the next update goes to. -/
theorem Inv.idle_free (inv : Inv apply first ops done s) (idle : s.phase = .idle) : s.Free (!s.active) := by
  cases inv with
  | updating todo phase =>
    rw [idle] at phase
    rcases phase with bad | ⟨bad, -⟩ <;> cases bad
  | idle _ _ settled =>
    refine ⟨fun t => ?_, fun op todo publishing => ?_⟩
    · rw [(settled t).1, (settled t).2]
      exact ⟨by simp, List.not_mem_nil⟩
    · rw [idle] at publishing
      cases publishing

/-- Between updates both copies hold every update, and every reader has moved. -/
theorem Inv.settled (inv : Inv apply first ops done s) (idle : s.phase = .idle) :
    done = ops.length ∧ (∀ side, s.copy side = result apply first ops) ∧
      ∀ t, s.held t = s.active ∧ s.inFlight t = [] := by
  cases inv with
  | updating todo phase =>
    rw [idle] at phase
    rcases phase with bad | ⟨bad, -⟩ <;> cases bad
  | idle _ agree settled => exact ⟨rfl, agree, settled⟩

/-- Once every message is delivered the writer can finish. -/
theorem Inv.drained_free {op : Op} (inv : Inv apply first ops done s) (draining : s.phase = .draining op)
    (drained : ∀ t, s.inFlight t = []) : s.Free (!s.active) := by
  cases inv with
  | idle idle =>
    rw [draining] at idle
    cases idle
  | updating todo phase _ _ _ _ told =>
    rw [draining] at phase
    rcases phase with bad | ⟨-, rfl⟩
    · cases bad
    · refine ⟨fun t => ?_, fun op' todo publishing => ?_⟩
      · rcases told t List.not_mem_nil with ⟨-, news⟩ | ⟨moved, nothing⟩
        · rw [drained t] at news
          cases news
        · rw [moved, nothing]
          exact ⟨by simp, List.not_mem_nil⟩
      · rw [draining] at publishing
        cases publishing

/-- What any copy holds is the result of a prefix of the updates, with every
complete one in it. -/
theorem Inv.reads (inv : Inv apply first ops done s) (side : Bool) :
    ∃ k, done ≤ k ∧ k ≤ ops.length ∧ s.copy side = result apply first (ops.take k) := by
  cases inv with
  | idle _ agree _ => exact ⟨ops.length, Nat.le_refl _, Nat.le_refl _, by rw [agree, List.take_length]⟩
  | @updating _ ops op todo _ ahead behind =>
    by_cases here : side = !s.active
    · refine ⟨ops.length, Nat.le_refl _, by rw [List.length_append]; omega, ?_⟩
      rw [here, behind, List.take_left]
    · have isActive : side = s.active := by simpa using here
      refine ⟨(ops ++ [op]).length, by rw [List.length_append]; omega, Nat.le_refl _, ?_⟩
      rw [isActive, ahead, List.take_length]

end R2.TwoCopy
