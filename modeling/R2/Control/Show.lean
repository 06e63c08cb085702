import R2.Control.Masks

namespace R2

/-- `iter` of the `treebitmap` package. -/
class IpLookupIter (T : Type) where
  iter : T → List (Ipv4Addr × Nat × IPv4Leaf)

/-- `iter` comes by all entries. -/
class LawfulIter (T : Type) [IpLookupTable T] [LawfulLookup T] [IpLookupIter T] : Prop where
  mem_iter : ∀ (t : T) (ip : Ipv4Addr) (len : Nat) (leaf : IPv4Leaf),
    (ip, len, leaf) ∈ IpLookupIter.iter t ↔ LawfulLookup.routes t ⟨ip, len⟩ = some leaf

namespace RouteList

instance : IpLookupIter RouteList where
  iter t := (t.entries.map Prod.fst).dedup.filterMap fun key => (t.lookup key).map fun leaf => (key.addr, key.len, leaf)

theorem mem_keys {entries : List (Prefix × IPv4Leaf)} {key : Prefix} {leaf : IPv4Leaf}
    (found : entries.lookup key = some leaf) : key ∈ entries.map Prod.fst := by
  obtain ⟨before, after, rfl, _⟩ := List.lookup_eq_some_iff.mp found
  simp

instance : LawfulIter RouteList where
  mem_iter t ip len leaf := by
    simp only [IpLookupIter.iter, List.mem_filterMap, List.mem_dedup, Option.map_eq_some_iff, Prod.mk.injEq]
    constructor
    · rintro ⟨key, _, leaf', found, rfl, rfl, rfl⟩
      exact found
    · intro found
      exact ⟨⟨ip, len⟩, mem_keys found, leaf, found, rfl, rfl, rfl⟩

end RouteList

namespace Control

variable {T : Type}

def IfdCtx.getName (ifd : IfdCtx) (ifindex : Nat) : Option String := ifd.idx2name ifindex

def ifnameOf (r2 : Ctx T) (ifindex : Nat) : String := (r2.ifd.getName ifindex).getD "Unknown_ifindex"

/-- `write` is what `File::write` answers for a file that has some bytes: how many of the next bytes it
took, which may be fewer than all of them, or a text. A failure is printed, and nothing else. -/
def fileWrite (write : ByteArray → ByteArray → Except String Nat) (f : ByteArray) (s : String) : ByteArray :=
  match write f s.toByteArray with
  | .ok n => f ++ s.toByteArray.extract 0 n
  | .error _ => f

def routeJsonDump (write : ByteArray → ByteArray → Except String Nat) (f : ByteArray) (r2 : Ctx T) (ip : Ipv4Addr)
    (masklen : Nat) (leaf : IPv4Leaf) : ByteArray :=
  match leaf.next with
  | .adjacency nhop ifindex =>
    let dump := "\x7b \"prefix\": \"" ++ String.ofList ip.dotted ++ "\", \"masklen\": " ++ toString masklen ++
      ", \"nhop\": \"" ++ String.ofList nhop.dotted ++ "\", \"ifname\": \"" ++ ifnameOf r2 ifindex ++
      "\", \"ifindex\": " ++ toString ifindex ++ "\x7d"
    fileWrite write f dump
  | _ => f

/-- The loop over the entries of a table. -/
def dumpEntries (write : ByteArray → ByteArray → Except String Nat) (r2 : Ctx T) :
    Bool → List (Ipv4Addr × Nat × IPv4Leaf) → ByteArray → ByteArray
  | _, [], f => f
  | first, (ip, masklen, leaf) :: rest, f =>
    let f := if first then f else fileWrite write f ",\n"
    dumpEntries write r2 false rest (routeJsonDump write f r2 ip masklen leaf)

section Iter

variable [IpLookupIter T]

/-- What `handle_show_all` leaves in the file. -/
def dump (write : ByteArray → ByteArray → Except String Nat) (r2 : Ctx T) : ByteArray :=
  let f := fileWrite write ByteArray.empty "\x7b\n\"table1\":[\n"
  let f := dumpEntries write r2 true (IpLookupIter.iter (r2.ipv4.deref .table1).root) f
  let f := fileWrite write f "\n],\n"
  let f := fileWrite write f "\"table2\":[\n"
  let f := dumpEntries write r2 true (IpLookupIter.iter (r2.ipv4.deref .table2).root) f
  fileWrite write f "\n]\n\x7d\n"

/-- The reply, and what the file has; `create` is what `File::create` returns, a
text if it fails. -/
def handleShowAll (r2 : Ctx T) (create : Except String Unit)
    (write : ByteArray → ByteArray → Except String Nat) (filename : String) : Except String String × Option ByteArray :=
  match create with
  | .error why => (.error ("couldn't create " ++ filename ++ ": " ++ why), none)
  | .ok () => (.ok "", some (dump write r2))

end Iter

variable [IpLookupTable T]

def handleShowOne (r2 : Ctx T) (table : IPv4Table T) (addr : Ipv4Addr) : String :=
  match IpLookupTable.longestMatch table.root addr with
  | some (ip, mask, leaf) =>
    match leaf.next with
    | .adjacency nhop ifindex =>
      "Destination\t\tNextHop\t\tInterface\n" ++ String.ofList ip.dotted ++ "/" ++ toString mask ++ "\t\t" ++
        String.ofList nhop.dotted ++ "\t\t" ++ ifnameOf r2 ifindex ++ "[" ++ toString ifindex ++ "]\n"
    | _ => ""
  | none => ""

def handleShow [IpLookupIter T] (r2 : Ctx T) (create : Except String Unit)
    (write : ByteArray → ByteArray → Except String Nat) (text filename : String) :
    Except String String × Option ByteArray :=
  match ipv4FromStr text.toList with
  | some addr =>
    (.ok ("Table1:\n" ++ handleShowOne r2 (r2.ipv4.deref .table1) addr ++ "Table2:\n" ++
      handleShowOne r2 (r2.ipv4.deref .table2) addr), none)
  | none =>
    if text = "all" then handleShowAll r2 create write filename
    else (.error ("Option should be ip address or keyword 'all': " ++ text), none)

end Control

end R2
