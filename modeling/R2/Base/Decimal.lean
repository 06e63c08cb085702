import Mathlib.Data.List.Basic

namespace R2

/-- The texts of `n` in decimal digits; zeros may come first. -/
structure Decimal (text : List Char) (n : Nat) : Prop where
  nonempty : text ≠ []
  digits : ∀ c ∈ text, c.isDigit = true
  value : Nat.ofDigitChars 10 text 0 = n

theorem isDigit_iff {c : Char} : c.isDigit = true ↔ 48 ≤ c.toNat ∧ c.toNat ≤ 57 := by
  simp only [Char.isDigit, Bool.and_eq_true, decide_eq_true_eq, ge_iff_le, UInt32.le_iff_toNat_le]
  exact Iff.rfl

theorem digitChar_toNat {c : Char} (digit : c.isDigit = true) : Nat.digitChar (c.toNat - 48) = c := by
  have bounds := isDigit_iff.mp digit
  apply Char.toNat_inj.mp
  rw [Nat.toNat_digitChar_of_lt_ten (by omega)]
  omega

theorem Decimal.toDigits (n : Nat) : Decimal (Nat.toDigits 10 n) n where
  nonempty := Nat.toDigits_ne_nil
  digits _ member := Nat.isDigit_of_mem_toDigits (by decide) (by decide) member
  value := Nat.ofDigitChars_ten_toDigits

theorem Decimal.not_mem {text : List Char} {n : Nat} (decimal : Decimal text n) {c : Char}
    (other : c.isDigit = false) : c ∉ text := by
  intro member
  simp [decimal.digits c member] at other

/-- Digits behind a number that is not zero go on with its text. -/
theorem toDigits_ofDigitChars {text : List Char} {n : Nat} (pos : 0 < n) (digits : ∀ c ∈ text, c.isDigit = true) :
    Nat.toDigits 10 (Nat.ofDigitChars 10 text n) = Nat.toDigits 10 n ++ text := by
  induction text generalizing n with
  | nil => simp
  | cons c rest ih =>
    simp only [List.mem_cons, forall_eq_or_imp] at digits
    obtain ⟨digit, digits⟩ := digits
    have small : c.toNat - 48 < 10 := by
      have bounds := isDigit_iff.mp digit
      omega
    have first := Nat.toDigits_append_toDigits (show 1 < 10 by decide) pos small
    rw [Nat.toDigits_of_lt_base small, digitChar_toNat digit] at first
    rw [Nat.ofDigitChars_cons, ih (by omega) digits]
    have same : '0'.toNat = 48 := rfl
    simp only [same, ← first, List.append_assoc, List.singleton_append]

/-- A text with no leading zero is the one that a number is written as. -/
theorem Decimal.canonical {text : List Char} {n : Nat} (decimal : Decimal text n)
    (leading : 1 < text.length → text.head? ≠ some '0') : text = Nat.toDigits 10 n := by
  obtain ⟨nonempty, digits, rfl⟩ := decimal
  cases text with
  | nil => exact absurd rfl nonempty
  | cons c rest =>
    simp only [List.mem_cons, forall_eq_or_imp] at digits
    obtain ⟨digit, digits⟩ := digits
    have bounds := isDigit_iff.mp digit
    have small : c.toNat - 48 < 10 := by omega
    have same : '0'.toNat = 48 := rfl
    simp only [Nat.ofDigitChars_cons, same, Nat.mul_zero, Nat.zero_add]
    cases rest with
    | nil => rw [Nat.ofDigitChars_nil, Nat.toDigits_of_lt_base small, digitChar_toNat digit]
    | cons d rest =>
      have pos : 0 < c.toNat - 48 := by
        by_contra zero
        have isZero := digitChar_toNat digit
        rw [show c.toNat - 48 = 0 by omega] at isZero
        exact leading (by simp) (by rw [← isZero]; rfl)
      rw [toDigits_ofDigitChars pos digits, Nat.toDigits_of_lt_base small, digitChar_toNat digit]
      rfl

theorem head?_toDigits (n : Nat) (long : 1 < (Nat.toDigits 10 n).length) : (Nat.toDigits 10 n).head? ≠ some '0' := by
  induction n using Nat.strongRecOn with
  | _ n ih =>
    rcases Nat.lt_or_ge n 10 with small | large
    · simp [Nat.toDigits_of_lt_base small] at long
    · rw [Nat.toDigits_of_base_le (by decide) large]
      rw [List.head?_append_of_ne_nil _ Nat.toDigits_ne_nil]
      rcases Nat.lt_or_ge (n / 10) 10 with one | more
      · rw [Nat.toDigits_of_lt_base one]
        have pos : n / 10 ≠ 0 := by omega
        intro zero
        have same := congrArg Char.toNat (Option.some.inj zero)
        rw [Nat.toNat_digitChar_of_lt_ten one] at same
        exact pos (by simpa using same)
      · refine ih (n / 10) (by omega) ?_
        have short := Nat.length_toDigits_le_iff (n := n / 10) (k := 1) (show 1 < 10 by decide) (by decide)
        omega

section

variable {α : Type*} [BEq α] [LawfulBEq α] {x : α} {s : List α} {parts : List (List α)}

theorem not_mem_of_mem_splitOn {part : List α} (member : part ∈ s.splitOn x) : x ∉ part := by
  induction s generalizing part with
  | nil => simp_all
  | cons c rest ih =>
    rw [List.splitOn_cons_eq_if_modifyHead] at member
    split at member
    · simp only [List.mem_cons] at member
      rcases member with rfl | member
      · simp
      · exact ih member
    · rename_i other
      cases split : rest.splitOn x with
      | nil => exact absurd split (List.splitOn_ne_nil x rest)
      | cons head tail =>
        rw [split, List.modifyHead_cons, List.mem_cons] at member
        rw [split] at ih
        rcases member with rfl | member
        · have := ih (List.mem_cons_self ..)
          simp only [beq_iff_eq] at other
          simp [this, Ne.symm other]
        · exact ih (List.mem_cons_of_mem _ member)

/-- What splitting at `x` finds are the parts that an `x` joins again. -/
theorem splitOn_eq_iff (some : parts ≠ []) :
    s.splitOn x = parts ↔ (∀ part ∈ parts, x ∉ part) ∧ s = [x].intercalate parts := by
  constructor
  · rintro rfl
    exact ⟨fun _ member => not_mem_of_mem_splitOn member, (List.intercalate_splitOn x).symm⟩
  · rintro ⟨apart, rfl⟩
    exact List.splitOn_intercalate x apart some

end

end R2
