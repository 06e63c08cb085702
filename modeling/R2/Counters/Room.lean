import R2.Counters.Reach

namespace R2

namespace Bin

/-- The objects that wait in one of the bins. -/
def waits (bin : Bin) (i : Nat) : List Nat := (bin.bins[i]?).getD []

/-- How many objects of one width can be had before the range is used up: those
that wait, and those that the pages left are cut into. -/
def left (bin : Bin) (width i : Nat) : Nat :=
  (bin.waits i).length + (bin.max - bin.offset) / bin.pagesz * (bin.pagesz / width)

theorem extend_waits (bin : Bin) (i : Nat) :
    (bin.bins ++ List.replicate (i + 1 - bin.bins.length) [])[i]? = some (bin.waits i) := by
  unfold waits
  by_cases known : i < bin.bins.length
  · rw [List.getElem?_append_left known, List.getElem?_eq_getElem known]
    rfl
  · rw [List.getElem?_append_right (not_lt.mp known), List.getElem?_eq_none (not_lt.mp known),
      List.getElem?_replicate_of_lt (by omega)]
    rfl

/-- The loop of `resize` cuts the whole page. -/
theorem fill_returns {size index alloc fuel i : Nat} {bin : Bin} {before : List Nat}
    (here : bin.bins[index]? = some before) (pos : 0 < size) (whole : size ∣ alloc - i) (enough : alloc - i ≤ fuel)
    (small : alloc < 2 ^ 32) (room : bin.offset + (alloc - i) < 2 ^ 64) :
    ∃ bins after, fill size index alloc fuel i bin = .ok { bin with bins, offset := bin.offset + (alloc - i) } ∧
      bins[index]? = some after ∧ after.length = before.length + (alloc - i) / size := by
  induction fuel generalizing i bin before with
  | zero =>
    have done : alloc - i = 0 := Nat.le_zero.mp enough
    refine ⟨bin.bins, before, ?_, here, ?_⟩
    · unfold fill
      rw [if_neg (by omega), done]
      rfl
    · rw [done, Nat.zero_div]
      rfl
  | succ fuel ih =>
    by_cases more : i < alloc
    · have fits : size ≤ alloc - i := Nat.le_of_dvd (by omega) whole
      have rest : alloc - i = alloc - (i + size) + size := by omega
      have whole' : size ∣ alloc - (i + size) := (Nat.dvd_add_left (Nat.dvd_refl size)).mp (rest ▸ whole)
      have pushed : bin.pushFront index bin.offset =
          .ok { bin with bins := bin.bins.set index (bin.offset :: before) } := by rw [pushFront, here]
      have here' : (bin.bins.set index (bin.offset :: before))[index]? = some (bin.offset :: before) :=
        List.getElem?_set_self (List.getElem?_eq_some_iff.mp here).1
      obtain ⟨bins, after, run, there, count⟩ := @ih (i + size)
        { bin with bins := bin.bins.set index (bin.offset :: before), offset := bin.offset + size } _ here' whole'
        (by omega) (by dsimp only; omega)
      refine ⟨bins, after, ?_, there, ?_⟩
      · unfold fill
        rw [if_pos more, pushed, Except.ok_bind, add32_ok.mpr ⟨by omega, rfl⟩, Except.ok_bind,
          add64_ok.mpr ⟨by dsimp only; omega, rfl⟩, Except.ok_bind, run, rest]
        dsimp only
        rw [Nat.add_assoc, Nat.add_comm size]
      · rw [count, rest, Nat.add_div_right _ pos, List.length_cons]
        omega
    · have done : alloc - i = 0 := by omega
      refine ⟨bin.bins, before, ?_, here, ?_⟩
      · unfold fill
        rw [if_neg more, done]
        rfl
      · rw [done, Nat.zero_div]
        rfl

theorem resize_returns {width i : Nat} (bin : Bin) (here : bin.bins[i]? = some []) (pos : 0 < width)
    (page : width ≤ bin.pagesz) (whole : width ∣ bin.pagesz) (inside : bin.offset ≤ bin.max)
    (small : bin.pagesz + bin.max < 2 ^ 32) :
    ∃ bins after, bins[i]? = some after ∧ (bin.pagesz + bin.offset ≤ bin.max ∧
      bin.resize width i = .ok { bin with bins, offset := bin.offset + bin.pagesz } ∧
      after.length = bin.pagesz / width ∨
      bin.max < bin.pagesz + bin.offset ∧ bin.resize width i = .ok { bin with bins } ∧ after = []) := by
  have alloc : bin.resizeAlloc width = .ok bin.pagesz := if_neg (not_lt.mpr page)
  by_cases room : bin.pagesz + bin.offset ≤ bin.max
  · have page : bin.pagesz - 0 ≤ bin.pagesz := Nat.sub_le ..
    obtain ⟨bins, after, run, there, count⟩ := fill_returns here pos whole page (by omega) (by omega)
    refine ⟨bins, after, there, Or.inl ⟨room, ?_, by rw [count, List.length_nil, Nat.zero_add, Nat.sub_zero]⟩⟩
    rw [resize, alloc, Except.ok_bind, add64_ok.mpr ⟨by omega, rfl⟩, Except.ok_bind, if_pos room, run, Nat.sub_zero]
  · refine ⟨bin.bins, [], here, Or.inr ⟨not_le.mp room, ?_, rfl⟩⟩
    rw [resize, alloc, Except.ok_bind, add64_ok.mpr ⟨by omega, rfl⟩, Except.ok_bind, if_neg room]

namespace Sound

variable {b limit size width i : Nat} {objects : List (Nat × Nat)} {bin : Bin}

/-- Objects no larger than a page can be had while any are left, and a request
for one returns. -/
theorem get_left (sound : Sound b limit objects bin) (found : bin.index size = .ok (width, i))
    (page : width ≤ bin.pagesz) (small : bin.pagesz + limit < 2 ^ 32) :
    ∃ result bin', bin.get size = .ok (result, bin') ∧ (result = none ↔ bin.left width i = 0) ∧
      bin'.left width i = bin.left width i - 1 ∧ bin'.pagesz = bin.pagesz := by
  obtain ⟨pos, -, wide, -⟩ := (index_noPanic sound.binsz sound.zeroes).ok found
  obtain ⟨p, top, pagesz⟩ := sound.pagesz
  dsimp only at wide
  have positive : 0 < width := by
    rw [wide, ← Nat.pow_add]
    exact Nat.two_pow_pos _
  have whole : width ∣ bin.pagesz := by
    rw [pagesz, wide, ← Nat.pow_add] at page ⊢
    exact Nat.pow_dvd_pow 2 ((Nat.pow_le_pow_iff_right Nat.one_lt_two).mp page)
  have count : 1 ≤ bin.pagesz / width := Nat.div_pos page positive
  have extended := bin.extend_waits i
  have length := (List.getElem?_eq_some_iff.mp extended).1
  unfold Bin.get
  rw [if_neg (by omega), found, Except.ok_bind]
  dsimp only
  cases waiting : bin.waits i with
  | cons base rest =>
    rw [waiting] at extended
    rw [extended]
    refine ⟨_, _, rfl, ?_, ?_, rfl⟩
    · rw [left, waiting, List.length_cons]
      exact ⟨nofun, fun none => absurd none (by omega)⟩
    · rw [left, left, waits, List.getElem?_set_self length, waiting, List.length_cons, Option.getD_some]
      dsimp only
      omega
  | nil =>
    rw [waiting] at extended
    rw [extended]
    have inside : bin.offset ≤ bin.max := sound.max ▸ sound.inside
    rw [← sound.max] at small
    obtain ⟨bins, after, there, ⟨room, run, cut⟩ | ⟨full, run, rfl⟩⟩ := resize_returns
      { bin with bins :=
        bin.bins ++ List.replicate (i + 1 - bin.bins.length) [] } extended positive page whole inside small
    · have some : after ≠ [] := by
        rintro rfl
        rw [List.length_nil] at cut
        dsimp only at cut
        omega
      rw [run, Except.ok_bind]
      dsimp only
      rw [there]
      refine ⟨_, _, rfl, ?_, ?_, rfl⟩
      · rw [left, waiting, List.length_nil, List.getLast?_eq_none_iff]
        have page : 1 ≤ (bin.max - bin.offset) / bin.pagesz := Nat.div_pos (by dsimp only at room; omega) (by omega)
        have := Nat.mul_le_mul page count
        exact ⟨fun none => absurd none some, fun none => absurd none (by omega)⟩
      · have pages : (bin.max - bin.offset) / bin.pagesz =
            (bin.max - (bin.offset + bin.pagesz)) / bin.pagesz + 1 := by
          dsimp only at room
          rw [show bin.max - bin.offset = bin.max - (bin.offset + bin.pagesz) + bin.pagesz by omega]
          exact Nat.add_div_right _ (by omega)
        rw [left, left, waits, List.getElem?_set_self (List.getElem?_eq_some_iff.mp there).1, waiting,
          List.length_nil,
          Option.getD_some, List.length_dropLast, cut, pages, Nat.add_mul]
        dsimp only
        omega
    · rw [run, Except.ok_bind]
      dsimp only
      rw [there]
      have none : (bin.max - bin.offset) / bin.pagesz = 0 := Nat.div_eq_of_lt (by dsimp only at full; omega)
      refine ⟨_, _, rfl, ?_, ?_, rfl⟩
      · rw [left, waiting, none, Nat.zero_mul]
        exact ⟨fun _ => rfl, fun _ => rfl⟩
      · rw [left, left, waits, List.getElem?_set_self (List.getElem?_eq_some_iff.mp there).1, waiting]
        dsimp only
        rw [none, Nat.zero_mul]
        rfl

end Sound

end Bin

end R2
