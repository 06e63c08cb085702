import R2.Fwd.Ethernet

namespace R2

def Ipv4Addr.toNat (ip : Ipv4Addr) : Nat :=
  ((ip.a.toNat * 256 + ip.b.toNat) * 256 + ip.c.toNat) * 256 + ip.d.toNat

def Ipv4Addr.ofNat (n : Nat) : Ipv4Addr :=
  ⟨UInt8.ofNat (n / 2 ^ 24), UInt8.ofNat (n / 2 ^ 16), UInt8.ofNat (n / 2 ^ 8), UInt8.ofNat n⟩

structure Prefix where
  addr : Ipv4Addr
  len : Nat
deriving DecidableEq, Repr

/-- The first `len` bits of an address. -/
def Ipv4Addr.masked (ip : Ipv4Addr) (len : Nat) : Prefix :=
  ⟨.ofNat (ip.toNat / 2 ^ (32 - len) * 2 ^ (32 - len)), len⟩

theorem Ipv4Addr.toNat_ofNat {n : Nat} (small : n < 2 ^ 32) : (ofNat n).toNat = n := by
  simp only [ofNat, toNat, UInt8.toNat_ofNat']
  omega

theorem Ipv4Addr.toNat_lt (ip : Ipv4Addr) : ip.toNat < 2 ^ 32 := by
  have a := ip.a.toNat_lt
  have b := ip.b.toNat_lt
  have c := ip.c.toNat_lt
  have d := ip.d.toNat_lt
  unfold toNat
  omega

/-- The address of a prefix has no more bits. -/
theorem Ipv4Addr.masked_masked (ip : Ipv4Addr) (len : Nat) : (ip.masked len).addr.masked len = ip.masked len := by
  have less := Nat.div_mul_le_self ip.toNat (2 ^ (32 - len))
  have size := ip.toNat_lt
  simp only [masked]
  rw [toNat_ofNat (Nat.lt_of_le_of_lt less size), Nat.mul_div_cancel _ (Nat.two_pow_pos _)]

inductive Fwd
  | ipv4Leaf (next : Fwd)
  | adjacency (nhop : Ipv4Addr) (ifindex : Nat)
  | interface (intf : Interface)
deriving DecidableEq

structure IPv4Leaf where
  next : Fwd
deriving DecidableEq

/-- What a route table stands for. -/
abbrev Routes := Prefix → Option IPv4Leaf

def Routes.longestMatch (routes : Routes) (ip : Ipv4Addr) : Option (Ipv4Addr × Nat × IPv4Leaf) :=
  (List.range 33).reverse.findSome? fun len =>
    (routes (ip.masked len)).map fun leaf => ((ip.masked len).addr, len, leaf)

/-- The calls of the `treebitmap` package; `insert` and `remove` also return the
entry that was there. -/
class IpLookupTable (T : Type) where
  new : T
  insert : T → Ipv4Addr → Nat → IPv4Leaf → Option IPv4Leaf × T
  remove : T → Ipv4Addr → Nat → Option IPv4Leaf × T
  longestMatch : T → Ipv4Addr → Option (Ipv4Addr × Nat × IPv4Leaf)

/-- `treebitmap` is a finite map from masked prefixes with longest match. -/
class LawfulLookup (T : Type) [IpLookupTable T] where
  routes : T → Routes
  routes_new : routes IpLookupTable.new = fun _ => none
  routes_insert : ∀ (t : T) (ip : Ipv4Addr) (len : Nat) (leaf : IPv4Leaf), len ≤ 32 →
    routes (IpLookupTable.insert t ip len leaf).2 = Function.update (routes t) (ip.masked len) (some leaf)
  routes_remove : ∀ (t : T) (ip : Ipv4Addr) (len : Nat), len ≤ 32 →
    routes (IpLookupTable.remove t ip len).2 = Function.update (routes t) (ip.masked len) none
  longestMatch_eq : ∀ (t : T) (ip : Ipv4Addr), IpLookupTable.longestMatch t ip = (routes t).longestMatch ip

structure IPv4Table (T : Type) where
  root : T

namespace IPv4Table

variable {T : Type} [IpLookupTable T]

def new : IPv4Table T := ⟨IpLookupTable.new⟩

def add (table : IPv4Table T) (ip : Ipv4Addr) (masklen : Nat) (value : IPv4Leaf) : Bool × IPv4Table T :=
  let (dup, root) := IpLookupTable.insert table.root ip masklen value
  (dup.isNone, ⟨root⟩)

def del (table : IPv4Table T) (ip : Ipv4Addr) (masklen : Nat) : Bool × IPv4Table T :=
  let (ret, root) := IpLookupTable.remove table.root ip masklen
  (ret.isSome, ⟨root⟩)

end IPv4Table

end R2
