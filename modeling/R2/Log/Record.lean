import R2.Base.Fitting
import R2.Log.Logger

namespace R2.Log

theorem load_ok {mem bytes : List UInt8} {addr n : Nat} (known : window mem addr (addr + n) = bytes)
    (inside : addr + n ≤ mem.length) : load mem addr n = .ok (ofLe bytes) := by
  rw [load, if_pos inside, known]

/-- The memory is `mem₀`, but for the slot at `base`, which begins with `front`. -/
structure Slot (mem₀ mem : List UInt8) (base esz : Nat) (front : List UInt8) : Prop where
  length : mem.length = mem₀.length
  front : window mem base (base + front.length) = front
  others : ∀ lo hi, hi ≤ base ∨ base + esz ≤ lo → window mem lo hi = window mem₀ lo hi

theorem Slot.start (mem : List UInt8) (base esz : Nat) : Slot mem mem base esz [] where
  length := rfl
  front := window_self mem base
  others _ _ _ := rfl

theorem Slot.store {mem₀ mem front : List UInt8} {base esz : Nat} (slot : Slot mem₀ mem base esz front)
    (inside : base + esz ≤ mem₀.length) (bytes : List UInt8) (fits : front.length + bytes.length ≤ esz) :
    ∃ mem', Log.store mem (base + front.length) bytes = .ok mem' ∧ Slot mem₀ mem' base esz (front ++ bytes) := by
  have room : base + front.length + bytes.length ≤ mem.length := by
    rw [slot.length]
    omega
  refine ⟨overwrite mem (base + front.length) bytes, if_pos room, ?_, ?_, fun lo hi apart => ?_⟩
  · rw [overwrite_length room, slot.length]
  · exact window_overwrite_behind slot.front room
  · rw [← slot.others lo hi apart]
    exact window_overwrite_of_disjoint room (by omega)

@[simp] theorem Arg.memory_length (a : Arg) : a.memory.length = a.width.bytes := toLe_length _ _

theorem Arg.ofLe_memory (a : Arg) : ofLe a.memory = a.val := ofLe_toLe a.fits

def Arg.size (a : Arg) : Nat := a.width.bytes

theorem Arg.size_pos (a : Arg) : 0 < a.size := a.width.bytes_pos

/-- The sizes that an entry has recorded once values of these widths were logged. -/
def sizesOf (widths : List Width) : List Nat :=
  (widths.take maxDebugs).map Width.bytes ++ List.replicate (maxDebugs - widths.length) 0

theorem sizesOf_getElem? (widths : List Width) (k : Nat) : (sizesOf widths)[k]? =
    if k < maxDebugs then some ((widths[k]?.map Width.bytes).getD 0) else none := by
  have length : ((widths.take maxDebugs).map Width.bytes).length = min maxDebugs widths.length := by
    rw [List.length_map, List.length_take]
  unfold sizesOf
  by_cases early : k < min maxDebugs widths.length
  · have inside : k < widths.length := by omega
    rw [List.getElem?_append_left (by omega), List.getElem?_map, List.getElem?_take_of_lt (by omega),
      if_pos (by omega), List.getElem?_eq_getElem inside]
    rfl
  · rw [List.getElem?_append_right (by omega), length, List.getElem?_replicate]
    by_cases below : k < maxDebugs
    · rw [if_pos below, if_pos (by omega), List.getElem?_eq_none (by omega)]
      rfl
    · rw [if_neg below, if_neg (by omega)]

section Writing

variable {l : Logger} {mem₀ front : List UInt8} {base bytes : Nat}

/-- One value is written if it fits. -/
theorem place_ok (slot : Slot mem₀ l.mem base l.esz front) (inside : base + l.esz ≤ mem₀.length)
    (place : front.length = 12 + bytes ∨ l.esz ≤ 12 + bytes) (a : Arg) :
    ∃ mem, l.place a base bytes = .ok (bytes + a.size, { l with mem }) ∧
      Slot mem₀ mem base l.esz (front ++ if a.size ≤ l.esz - 12 - bytes then a.memory else []) := by
  have positive := a.size_pos
  have size : a.memory.length = a.size := a.memory_length
  unfold Logger.place
  dsimp only
  by_cases fits : a.size ≤ l.esz - 12 - bytes
  · have behind : base + 12 + bytes = base + front.length := by omega
    obtain ⟨mem, stored, slot⟩ := slot.store inside a.memory (by omega)
    have room : base + 12 + bytes + a.width.bytes ≤ base + l.esz := by
      change base + 12 + bytes + a.size ≤ _
      omega
    refine ⟨mem, ?_, ?_⟩
    · rw [if_pos room, behind, stored]
      rfl
    · rw [if_pos fits]
      exact slot
  · have full : ¬base + 12 + bytes + a.width.bytes ≤ base + l.esz := by
      change ¬base + 12 + bytes + a.size ≤ _
      omega
    refine ⟨l.mem, if_neg full, ?_⟩
    rw [if_neg fits, List.append_nil]
    exact slot

/-- The next value is written behind this one, or not at all. -/
theorem place_next (place : front.length = 12 + bytes ∨ l.esz ≤ 12 + bytes) (a : Arg) :
    (front ++ if a.size ≤ l.esz - 12 - bytes then a.memory else []).length = 12 + (bytes + a.size) ∨
      l.esz ≤ 12 + (bytes + a.size) := by
  have size : a.memory.length = a.size := a.memory_length
  have positive := a.size_pos
  split
  · rw [List.length_append]
    omega
  · omega

/-- The values that fit are this one, if it does, and those of the rest. -/
theorem fitting_next (esz bytes : Nat) (a : Arg) (rest : List Arg) :
    (if a.size ≤ esz - 12 - bytes then a.memory else []) ++
        (fitting Arg.size (esz - 12 - (bytes + a.size)) rest).flatMap Arg.memory =
      (fitting Arg.size (esz - 12 - bytes) (a :: rest)).flatMap Arg.memory := by
  have left : esz - 12 - (bytes + a.size) = esz - 12 - bytes - a.size := by omega
  rw [left, fitting]
  split
  · rw [List.flatMap_cons]
  · have none : esz - 12 - bytes - a.size = 0 := by omega
    rw [none, fitting_zero fun a _ => a.size_pos]
    rfl

end Writing

end R2.Log
