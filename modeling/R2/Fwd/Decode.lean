import R2.Fwd.Ethernet

namespace R2

/-- `char::to_digit` -/
def toDigit (radix : Nat) (c : Char) : Option Nat :=
  let value :=
    if '0' ≤ c ∧ c ≤ '9' then c.toNat - '0'.toNat
    else if 'a' ≤ c ∧ c ≤ 'z' then c.toNat - 'a'.toNat + 10
    else if 'A' ≤ c ∧ c ≤ 'Z' then c.toNat - 'A'.toNat + 10
    else radix
  if value < radix then some value else none

/-- The digits of a number, the highest first. -/
def digitsValue (radix : Nat) (digits : List Char) : Option Nat :=
  digits.foldlM (fun value c => (toDigit radix c).map fun digit => value * radix + digit) 0

/-- `from_str_radix` of an unsigned type of `width` bits, which takes a `+`. -/
def fromStrRadix (width radix : Nat) (s : List Char) : Option Nat :=
  let digits := match s with
    | '+' :: rest => rest
    | s => s
  if digits = [] then none
  else (digitsValue radix digits).bind fun value => if value < 2 ^ width then some value else none

/-- A number of at most three digits, without a zero in front. -/
def octetFromStr (s : List Char) : Option UInt8 :=
  if s = [] ∨ 3 < s.length ∨ (1 < s.length ∧ s.head? = some '0') then none
  else (digitsValue 10 s).bind fun value => if value < 256 then some (UInt8.ofNat value) else none

/-- `Ipv4Addr::from_str` -/
def ipv4FromStr (s : List Char) : Option Ipv4Addr :=
  match s.splitOn '.' with
  | [a, b, c, d] => do
    let a ← octetFromStr a
    let b ← octetFromStr b
    let c ← octetFromStr c
    let d ← octetFromStr d
    some ⟨a, b, c, d⟩
  | _ => none

def strToMac (mac : String) : Option (List UInt8) :=
  match (mac.toList.splitOn ':').mapM (fromStrRadix 8 16) with
  | some bytes => if bytes.length = ethAlen then some (bytes.map UInt8.ofNat) else none
  | none => none

theorem strToMac_length {mac : String} {bytes : List UInt8} (read : strToMac mac = some bytes) :
    bytes.length = ethAlen := by
  unfold strToMac at read
  split at read
  · split at read
    · rename_i six
      cases Option.some.inj read
      rw [List.length_map, six]
    · cases read
  · cases read

def ipMaskDecode (ipAndMask : String) : Option (Ipv4Addr × Nat) :=
  match ipAndMask.toList.splitOn '/' with
  | [ip, mask] => do
    let ipv4 ← ipv4FromStr ip
    let masklen ← fromStrRadix 32 10 mask
    some (ipv4, masklen)
  | _ => none

end R2
