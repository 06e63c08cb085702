import R2.Base.Bytes

namespace R2

/-- A field of a record in a buffer. -/
structure Field (α : Type*) where
  off : Nat
  len : Nat
  bytes : List α

variable {α : Type*}

/-- Each field has the length it is meant to have and starts where the one
before it ends, the first at `start`. -/
def Laid (start : Nat) : List (Field α) → Prop
  | [] => True
  | f :: rest => f.off = start ∧ f.bytes.length = f.len ∧ Laid (start + f.len) rest

def recordBytes (fields : List (Field α)) : List α := fields.flatMap Field.bytes

@[simp] theorem recordBytes_cons (f : Field α) (rest : List (Field α)) :
    recordBytes (f :: rest) = f.bytes ++ recordBytes rest := List.flatMap_cons

theorem Laid.length {fields : List (Field α)} {start : Nat} (laid : Laid start fields) :
    (recordBytes fields).length = (fields.map Field.len).sum := by
  induction fields generalizing start with
  | nil => rfl
  | cons f rest ih =>
    obtain ⟨-, size, laid⟩ := laid
    rw [recordBytes_cons, List.length_append, size, ih laid, List.map_cons, List.sum_cons]

/-- The middle of a concatenation, by its bounds. -/
theorem window_middle {front mid back : List α} {lo hi : Nat} (start : front.length = lo)
    (stop : lo + mid.length = hi) : window (front ++ mid ++ back) lo hi = mid := by
  subst start stop
  rw [window, ← List.length_append, List.take_left, List.drop_left]

/-- A laid-out record reads back field by field, whatever stands around it. -/
theorem Laid.read {fields : List (Field α)} {front back : List α} (laid : Laid front.length fields)
    {f : Field α} (member : f ∈ fields) :
    window (front ++ recordBytes fields ++ back) f.off (f.off + f.len) = f.bytes := by
  induction fields generalizing front with
  | nil => cases member
  | cons g rest ih =>
    obtain ⟨start, size, laid⟩ := laid
    rcases List.mem_cons.mp member with rfl | later
    · rw [recordBytes_cons, ← List.append_assoc, List.append_assoc]
      exact window_middle start.symm (by rw [size])
    · rw [← size, ← List.length_append] at laid
      have found := ih laid later
      rw [List.append_assoc front, ← recordBytes_cons] at found
      exact found

/-- One write extends the part of the buffer already written. -/
theorem overwrite_extends {raw bytes : List α} {off : Nat} (fits : off + bytes.length ≤ raw.length) :
    window (overwrite raw off bytes) 0 (off + bytes.length) = window raw 0 off ++ bytes := by
  have length := overwrite_length fits
  rw [← window_append (Nat.zero_le off) (Nat.le_add_right _ _) (by omega), window_overwrite fits,
    window_overwrite_of_disjoint fits (Or.inl (Nat.le_refl _))]

end R2
