import R2.Base.Decimal
import R2.Fwd.Decode

namespace R2

/-- How an address is displayed. -/
def Ipv4Addr.dotted (a : Ipv4Addr) : List Char :=
  ['.'].intercalate [Nat.toDigits 10 a.a.toNat, Nat.toDigits 10 a.b.toNat, Nat.toDigits 10 a.c.toNat,
    Nat.toDigits 10 a.d.toNat]

theorem toDigit_ten {c : Char} {d : Nat} : toDigit 10 c = some d ↔ c.isDigit = true ∧ c.toNat - '0'.toNat = d := by
  have order (a b : Char) : a ≤ b ↔ a.toNat ≤ b.toNat := Iff.rfl
  have chars : '0'.toNat = 48 ∧ '9'.toNat = 57 ∧ 'a'.toNat = 97 ∧ 'A'.toNat = 65 := by decide
  simp only [toDigit, order, chars, isDigit_iff]
  by_cases digit : 48 ≤ c.toNat ∧ c.toNat ≤ 57
  · simp only [digit, and_self, if_true]
    rw [if_pos (by omega)]
    simp
  · -- letters stand for ten and more
    simp only [digit, if_false, false_and, iff_false]
    split
    · rw [if_neg (by omega)]
      simp
    · split
      · rw [if_neg (by omega)]
        simp
      · simp

/-- Digits are read as the number they stand for. -/
theorem digitsValue_ten {digits : List Char} {n : Nat} : digitsValue 10 digits = some n ↔
    (∀ c ∈ digits, c.isDigit = true) ∧ Nat.ofDigitChars 10 digits 0 = n := by
  have from' (start : Nat) : digits.foldlM (fun value c => (toDigit 10 c).map fun digit => value * 10 + digit) start =
      some n ↔ (∀ c ∈ digits, c.isDigit = true) ∧ Nat.ofDigitChars 10 digits start = n := by
    induction digits generalizing start with
    | nil => simp
    | cons c rest ih =>
      simp only [List.foldlM_cons, Option.bind_eq_bind, Option.bind_eq_some_iff, Option.map_eq_some_iff, toDigit_ten,
        List.mem_cons, forall_eq_or_imp, Nat.ofDigitChars_cons, ih]
      constructor
      · rintro ⟨_, ⟨_, ⟨digit, rfl⟩, rfl⟩, rest, value⟩
        exact ⟨⟨digit, rest⟩, by rwa [Nat.mul_comm]⟩
      · rintro ⟨⟨digit, rest⟩, value⟩
        exact ⟨_, ⟨_, ⟨digit, rfl⟩, rfl⟩, rest, by rwa [Nat.mul_comm]⟩
  exact from' 0

/-- A `u32` is read from decimal digits, with or without a plus sign. -/
theorem fromStrRadix_ten {s : List Char} {n : Nat} : fromStrRadix 32 10 s = some n ↔
    n < 2 ^ 32 ∧ (Decimal s n ∨ ∃ digits, s = '+' :: digits ∧ Decimal digits n) := by
  have read (digits : List Char) :
      ((digitsValue 10 digits).bind fun value => if value < 2 ^ 32 then some value else none) = some n ↔
        n < 2 ^ 32 ∧ (∀ c ∈ digits, c.isDigit = true) ∧ Nat.ofDigitChars 10 digits 0 = n := by
    simp only [Option.bind_eq_some_iff, digitsValue_ten, Option.ite_none_right_eq_some, Option.some.injEq]
    constructor
    · rintro ⟨_, ⟨digits, rfl⟩, small, rfl⟩
      exact ⟨small, digits, rfl⟩
    · rintro ⟨small, digits, rfl⟩
      exact ⟨_, ⟨digits, rfl⟩, small, rfl⟩
  have number (digits : List Char) : (if digits = [] then none else
      (digitsValue 10 digits).bind fun value => if value < 2 ^ 32 then some value else none) = some n ↔
      n < 2 ^ 32 ∧ Decimal digits n := by
    simp only [Option.ite_none_left_eq_some, read]
    constructor
    · rintro ⟨some, small, digits, value⟩
      exact ⟨small, some, digits, value⟩
    · rintro ⟨small, some, digits, value⟩
      exact ⟨some, small, digits, value⟩
  unfold fromStrRadix
  dsimp only
  split
  · rename_i rest
    refine (number rest).trans ?_
    constructor
    · rintro ⟨small, decimal⟩
      exact ⟨small, Or.inr ⟨rest, rfl, decimal⟩⟩
    · rintro ⟨small, decimal | ⟨_, same, decimal⟩⟩
      · exact absurd (decimal.digits '+' (List.mem_cons_self ..)) (by decide)
      · cases same
        exact ⟨small, decimal⟩
  · rename_i unsigned
    refine (number _).trans ?_
    constructor
    · rintro ⟨small, decimal⟩
      exact ⟨small, Or.inl decimal⟩
    · rintro ⟨small, decimal | ⟨rest, same, _⟩⟩
      · exact ⟨small, decimal⟩
      · exact absurd same (unsigned rest)

/-- A byte is read from the text it is displayed as, and from no other. -/
theorem octetFromStr_iff {s : List Char} {n : UInt8} : octetFromStr s = some n ↔ s = Nat.toDigits 10 n.toNat := by
  unfold octetFromStr
  simp only [Option.ite_none_left_eq_some, Option.bind_eq_some_iff, digitsValue_ten, Option.ite_none_right_eq_some,
    Option.some.injEq, not_or, not_and]
  constructor
  · rintro ⟨⟨some, _, leading⟩, value, ⟨digits, read⟩, small, rfl⟩
    have decimal : Decimal s value := ⟨some, digits, read⟩
    rw [UInt8.toNat_ofNat', Nat.mod_eq_of_lt small]
    exact decimal.canonical leading
  · rintro rfl
    have decimal := Decimal.toDigits n.toNat
    have small := n.toNat_lt
    have short := (Nat.length_toDigits_le_iff (show 1 < 10 by decide) (show 0 < 3 by decide)).mpr
      (show n.toNat < 10 ^ 3 by omega)
    exact ⟨⟨decimal.nonempty, by omega, head?_toDigits _⟩, _, ⟨decimal.digits, decimal.value⟩, small,
      UInt8.ofNat_toNat⟩

/-- An address is read from the text it is displayed as, and from no other. -/
theorem ipv4FromStr_iff {s : List Char} {a : Ipv4Addr} : ipv4FromStr s = some a ↔ s = a.dotted := by
  have undotted (n : UInt8) : '.' ∉ Nat.toDigits 10 n.toNat := (Decimal.toDigits n.toNat).not_mem (by decide)
  constructor
  · intro read
    unfold ipv4FromStr at read
    split at read
    · rename_i w x y z split
      simp only [Option.bind_eq_bind, Option.bind_eq_some_iff, octetFromStr_iff, Option.some.injEq] at read
      obtain ⟨w, rfl, x, rfl, y, rfl, z, rfl, rfl⟩ := read
      exact ((splitOn_eq_iff (by simp)).mp split).2
    · cases read
  · rintro rfl
    have split : a.dotted.splitOn '.' = _ :=
      (splitOn_eq_iff (by simp)).mpr ⟨by simp [undotted], rfl⟩
    have octet (n : UInt8) : octetFromStr (Nat.toDigits 10 n.toNat) = some n := octetFromStr_iff.mpr rfl
    simp [ipv4FromStr, split, octet]

theorem Ipv4Addr.not_mem_dotted (a : Ipv4Addr) {c : Char} (digit : c.isDigit = false) (dot : c ≠ '.') :
    c ∉ a.dotted := by
  have absent (n : UInt8) : c ∉ Nat.toDigits 10 n.toNat := (Decimal.toDigits n.toNat).not_mem digit
  simp [dotted, List.intercalate, absent, dot]

/-- What `ip_mask_decode` accepts: an address, a slash and a `u32`. -/
theorem ipMaskDecode_iff {s : String} {a : Ipv4Addr} {m : Nat} : ipMaskDecode s = some (a, m) ↔
    m < 2 ^ 32 ∧ ∃ digits, Decimal digits m ∧
      (s.toList = a.dotted ++ '/' :: digits ∨ s.toList = a.dotted ++ '/' :: '+' :: digits) := by
  have joined (x y : List Char) : ['/'].intercalate [x, y] = x ++ '/' :: y := by simp [List.intercalate]
  constructor
  · intro read
    unfold ipMaskDecode at read
    split at read
    · rename_i ip mask split
      simp only [Option.bind_eq_bind, Option.bind_eq_some_iff, Option.some.injEq, Prod.mk.injEq, ipv4FromStr_iff,
        fromStrRadix_ten] at read
      obtain ⟨_, rfl, _, ⟨small, number⟩, rfl, rfl⟩ := read
      have whole := ((splitOn_eq_iff (by simp)).mp split).2
      rw [joined] at whole
      refine ⟨small, ?_⟩
      rcases number with decimal | ⟨digits, rfl, decimal⟩
      · exact ⟨mask, decimal, Or.inl whole⟩
      · exact ⟨digits, decimal, Or.inr whole⟩
    · cases read
  · rintro ⟨small, digits, decimal, text⟩
    have address : '/' ∉ a.dotted := a.not_mem_dotted (by decide) (by decide)
    have number : '/' ∉ digits := decimal.not_mem (by decide)
    obtain ⟨mask, whole, apart, read⟩ : ∃ mask, s.toList = a.dotted ++ '/' :: mask ∧ '/' ∉ mask ∧
        fromStrRadix 32 10 mask = some m := by
      rcases text with plain | signed
      · exact ⟨digits, plain, number, fromStrRadix_ten.mpr ⟨small, Or.inl decimal⟩⟩
      · exact ⟨'+' :: digits, signed, by simp [number],
          fromStrRadix_ten.mpr ⟨small, Or.inr ⟨digits, rfl, decimal⟩⟩⟩
    have split : s.toList.splitOn '/' = [a.dotted, mask] :=
      (splitOn_eq_iff (by simp)).mpr ⟨by simp [address, apart], by rw [joined, whole]⟩
    simp [ipMaskDecode, split, ipv4FromStr_iff.mpr rfl, read]

/-- `s` is the prefix of an address and a length in decimal digits. -/
def IsPrefix (s : String) (a : Ipv4Addr) (m : Nat) : Prop :=
  m ≤ 32 ∧ ∃ digits, Decimal digits m ∧ s.toList = a.dotted ++ '/' :: digits

/-- The length has a plus sign in front. -/
def SignedPrefix (s : String) : Prop :=
  ∃ a digits m, m < 2 ^ 32 ∧ Decimal digits m ∧ s.toList = Ipv4Addr.dotted a ++ '/' :: '+' :: digits

/-- The length is longer than an address, and still a `u32`. -/
def LongPrefix (s : String) (a : Ipv4Addr) (m : Nat) : Prop :=
  32 < m ∧ m < 2 ^ 32 ∧ ∃ digits, Decimal digits m ∧
    (s.toList = a.dotted ++ '/' :: digits ∨ s.toList = a.dotted ++ '/' :: '+' :: digits)

theorem LongPrefix.decoded {s : String} {a : Ipv4Addr} {m : Nat} :
    ipMaskDecode s = some (a, m) ∧ 32 < m ↔ LongPrefix s a m := by
  rw [ipMaskDecode_iff]
  constructor
  · rintro ⟨⟨small, text⟩, long⟩
    exact ⟨long, small, text⟩
  · rintro ⟨long, small, text⟩
    exact ⟨⟨small, text⟩, long⟩

/-- The decoder accepts exactly prefixes on the texts without a sign and without a longer length. -/
theorem ipMaskDecode_exact_iff (s : String) : (∀ a m, ipMaskDecode s = some (a, m) ↔ IsPrefix s a m) ↔
    ¬SignedPrefix s ∧ ∀ a m, ¬LongPrefix s a m := by
  constructor
  · intro right
    refine ⟨?_, ?_⟩
    · rintro ⟨a, digits, m, small, decimal, signed⟩
      obtain ⟨_, plain, number, text⟩ := (right a m).mp (ipMaskDecode_iff.mpr ⟨small, digits, decimal, Or.inr signed⟩)
      rw [signed, List.append_cancel_left_eq, List.cons.injEq] at text
      exact absurd (number.digits '+' (text.2 ▸ List.mem_cons_self ..)) (by decide)
    · intro a m long
      obtain ⟨short, _⟩ := (right a m).mp (LongPrefix.decoded.mpr long).1
      exact absurd short (by have := long.1; omega)
  · rintro ⟨unsigned, short⟩ a m
    rw [ipMaskDecode_iff]
    constructor
    · rintro ⟨small, digits, decimal, plain | signed⟩
      · refine ⟨?_, digits, decimal, plain⟩
        by_contra long
        exact short a m ⟨by omega, small, digits, decimal, Or.inl plain⟩
      · exact absurd ⟨a, digits, m, small, decimal, signed⟩ unsigned
    · rintro ⟨short, digits, decimal, plain⟩
      exact ⟨by omega, digits, decimal, Or.inl plain⟩

end R2
