import R2.Hfsc.Scheduler

namespace R2

inductive HfscOp
  | create (name parentName : String) (qlimit : Nat) (isLeaf : Bool) (curves : Curves)
  | destroy (index : Nat)
  | enqueue (classid : Nat) (pkt : Packet) (now : Nat)
  | dequeue (now : Nat)

/-- What a call returns; a dequeued packet comes with the class it was popped
from. -/
inductive HfscEvent
  | created (result : Except String Unit)
  | destroyed (index : Nat)
  | enqueued (accepted : Bool)
  | dequeued (served : Option (Nat × Packet))

/-- A packet as the scheduler sees it: only its length is ever read. -/
def flatPacket (length : Nat) : Packet := ⟨0, [], length, 0, 0, 0, 0, 0, 0, zeroIp⟩

namespace Hfsc

def step (h : Hfsc) : HfscOp → Outcome (HfscEvent × Hfsc)
  | .create name parentName qlimit isLeaf curves => do
    let (result, h) ← h.createClass name parentName qlimit isLeaf curves
    .ok (.created result, h)
  | .destroy index => do
    let (index, h) ← h.destroyClass index
    .ok (.destroyed index, h)
  | .enqueue classid pkt now => do
    let (accepted, h) ← h.enqueue classid pkt now
    .ok (.enqueued accepted, h)
  | .dequeue now => do
    let (served, h) ← h.dequeueFrom now
    .ok (.dequeued served, h)

/-- A run of calls that all return, each permitted in the state it is made in,
with what every call returned. -/
inductive Run (permitted : Hfsc → HfscOp → Prop) (start : Hfsc) : List (HfscOp × HfscEvent) → Hfsc → Prop
  | start : Run permitted start [] start
  | next {trace h op event h'} : Run permitted start trace h → permitted h op →
      h.step op = .ok (event, h') → Run permitted start (trace ++ [(op, event)]) h'

theorem Run.mono {permitted wider : Hfsc → HfscOp → Prop} {start h : Hfsc} {trace : List (HfscOp × HfscEvent)}
    (run : Run permitted start trace h) (imp : ∀ h op, permitted h op → wider h op) : Run wider start trace h := by
  induction run with
  | start => exact .start
  | next _ allowed step ih => exact .next ih (imp _ _ allowed) step

/-- Run rule: what holds at the start and is kept by every permitted call
holds in every state of a run. -/
theorem Run.invariant {permitted : Hfsc → HfscOp → Prop} {start h : Hfsc} {trace : List (HfscOp × HfscEvent)}
    (run : Run permitted start trace h) (inv : Hfsc → Prop) (initial : inv start)
    (keep : ∀ h op event h', permitted h op → inv h → h.step op = .ok (event, h') → inv h') : inv h := by
  induction run with
  | start => exact initial
  | next _ allowed step ih => exact keep _ _ _ _ allowed ih step

/-- Makes the calls in turn, as long as they are permitted and return. -/
def exec (permitted : Hfsc → HfscOp → Prop) [∀ h op, Decidable (permitted h op)] :
    Hfsc → List HfscOp → List (HfscOp × HfscEvent) → Outcome (List (HfscOp × HfscEvent) × Hfsc)
  | h, [], trace => .ok (trace, h)
  | h, op :: ops, trace =>
    if permitted h op then do
      let (event, h) ← h.step op
      exec permitted h ops (trace ++ [(op, event)])
    else
      .error .panicked

theorem Run.exec {permitted : Hfsc → HfscOp → Prop} [∀ h op, Decidable (permitted h op)] {start h h' : Hfsc}
    {ops : List HfscOp} {trace trace' : List (HfscOp × HfscEvent)} (run : Run permitted start trace h)
    (done : Hfsc.exec permitted h ops trace = .ok (trace', h')) : Run permitted start trace' h' := by
  induction ops generalizing h trace with
  | nil =>
    cases done
    exact run
  | cons op ops ih =>
    unfold Hfsc.exec at done
    split at done
    · rename_i allowed
      obtain ⟨⟨event, g⟩, step, done⟩ := Except.bind_ok_iff.mp done
      exact ih (run.next allowed step) done
    · cases done

/-- A run that was computed from a new scheduler, with what is to be seen at
its end. -/
theorem exists_run_of_exec {α : Type} (permitted : Hfsc → HfscOp → Prop) [∀ h op, Decidable (permitted h op)]
    (bandwidth : Nat) (ops : List HfscOp) (seen : List (HfscOp × HfscEvent) × Hfsc → α) {a : α}
    (done : (do let h ← new bandwidth; let r ← Hfsc.exec permitted h ops []; .ok (seen r) : Except Fault α) = .ok a) :
    ∃ h₀ trace h, new bandwidth = .ok h₀ ∧ Run permitted h₀ trace h ∧ seen (trace, h) = a := by
  obtain ⟨h₀, made, done⟩ := Except.bind_ok_iff.mp done
  obtain ⟨⟨trace, h⟩, executed, done⟩ := Except.bind_ok_iff.mp done
  exact ⟨h₀, trace, h, made, Run.start.exec executed, Except.ok.inj done⟩

end Hfsc

end R2
