import R2.Base.Json
import R2.Control.Show

namespace R2.Control

open Json (Plain Parses next)

/-- A line of the dump. -/
structure Row where
  ip : Ipv4Addr
  masklen : Nat
  nhop : Ipv4Addr
  ifname : String
  ifindex : Nat

namespace Row

def key (row : Row) : Prefix := ⟨row.ip, row.masklen⟩

def leaf (row : Row) : IPv4Leaf := ⟨.adjacency row.nhop row.ifindex⟩

/-- The members of a line: their names, their texts and their values. -/
def fields (row : Row) : List (String × List Char × Json) := [
  ("prefix", '\x22' :: (row.ip.dotted ++ ['\x22']), .string row.ip.dotted),
  ("masklen", Nat.toDigits 10 row.masklen, .number (Nat.toDigits 10 row.masklen)),
  ("nhop", '\x22' :: (row.nhop.dotted ++ ['\x22']), .string row.nhop.dotted),
  ("ifname", '\x22' :: (row.ifname.toList ++ ['\x22']), .string row.ifname.toList),
  ("ifindex", Nat.toDigits 10 row.ifindex, .number (Nat.toDigits 10 row.ifindex))]

def json (row : Row) : Json := .object (row.fields.map fun f => (f.1.toList, f.2.2))

def text (row : Row) : List Char :=
  '\x7b' :: ' ' :: ([',', ' '].intercalate (row.fields.map fun f => Json.member f.1.toList f.2.1) ++ ['\x7d'])

/-- The call that adds the route of a line, with the texts that the line has. -/
def call (row : Row) : ApiCall :=
  .addRoute (String.ofList (row.ip.dotted ++ '/' :: Nat.toDigits 10 row.masklen)) (String.ofList row.nhop.dotted)
    row.ifname

theorem text_read (row : Row) (plain : ∀ c ∈ row.ifname.toList, Plain c) (rest : List Char) :
    Json.Value (row.text ++ rest) row.json rest := by
  have dotted (ip : Ipv4Addr) : ∀ c ∈ ip.dotted, Plain c := by
    intro c member
    by_cases dot : c = '.'
    · simp [dot, Plain]
    · have digit : c.isDigit = true := by
        by_contra other
        exact ip.not_mem_dotted (Bool.eq_false_of_not_eq_true other) dot member
      have bounds := isDigit_iff.mp digit
      refine ⟨?_, ?_, by omega⟩ <;> rintro rfl <;> simp at bounds
  have split : row.text ++ rest = '\x7b' :: ([' '] ++
      ([',', ' '].intercalate (row.fields.map fun f => Json.member f.1.toList f.2.1) ++ '\x7d' :: rest)) := by
    simp [text]
  rw [split, Json.value_object rfl rfl (by decide)]
  refine ⟨row.fields.map fun f => (f.1.toList, f.2.2), Json.members_map ?_ ?_ (by simp [fields])
    (by simp [Json.isSpace]) (by simp [Json.isSpace]), rfl⟩
  · simp [fields, Plain]
  · simp only [fields, List.mem_cons, List.not_mem_nil, or_false, forall_eq_or_imp, forall_eq]
    exact ⟨fun _ _ => Json.value_quoted (dotted row.ip), fun _ => Json.value_digits row.masklen,
      fun _ _ => Json.value_quoted (dotted row.nhop), fun _ _ => Json.value_quoted plain,
      fun _ => Json.value_digits row.ifindex⟩

end Row

variable {T : Type}

/-- The line of an entry; only an adjacency has one. -/
def rowOf (r2 : Ctx T) : Ipv4Addr × Nat × IPv4Leaf → Option Row
  | (ip, masklen, ⟨.adjacency nhop ifindex⟩) => some ⟨ip, masklen, nhop, ifnameOf r2 ifindex, ifindex⟩
  | _ => none

theorem rowOf_adjacency {r2 : Ctx T} {ip : Ipv4Addr} {masklen : Nat} {leaf : IPv4Leaf} {row : Row}
    (line : rowOf r2 (ip, masklen, leaf) = some row) : ∃ nhop ifindex, leaf = ⟨.adjacency nhop ifindex⟩ := by
  unfold rowOf at line
  split at line
  · rename_i same
    cases same
    exact ⟨_, _, rfl⟩
  · cases line

/-- All of the next bytes go into the file. -/
def Whole (write : ByteArray → ByteArray → Except String Nat) : Prop := ∀ f bytes, write f bytes = .ok bytes.size

section Written

variable {write : ByteArray → ByteArray → Except String Nat} {r2 : Ctx T}

theorem fileWrite_whole (whole : Whole write) (file s : String) :
    fileWrite write file.toByteArray s = (file ++ s).toByteArray := by
  rw [fileWrite, whole, String.toByteArray_append]
  exact congrArg (file.toByteArray ++ ·) ByteArray.extract_zero_size

theorem routeJsonDump_text (whole : Whole write) {ip : Ipv4Addr} {masklen : Nat} {leaf : IPv4Leaf} {row : Row}
    (line : rowOf r2 (ip, masklen, leaf) = some row) (file : String) :
    routeJsonDump write file.toByteArray r2 ip masklen leaf = (file ++ String.ofList row.text).toByteArray := by
  obtain ⟨nhop, ifindex, rfl⟩ := rowOf_adjacency line
  cases line
  have number (n : Nat) : (toString n).toList = Nat.toDigits 10 n := Nat.toList_repr
  rw [routeJsonDump]
  dsimp only
  rw [fileWrite_whole whole]
  refine congrArg (fun s => (file ++ s).toByteArray) (String.toList_injective ?_)
  simp only [String.toList_append, String.toList_ofList, number]
  simp [Row.text, Row.fields, Json.member]

/-- Behind the first text, a separator stands before each one. -/
theorem intercalate_cons (sep x : List Char) (xs : List (List Char)) :
    sep.intercalate (x :: xs) = x ++ xs.flatMap fun y => sep ++ y := by
  induction xs generalizing x with
  | nil => simp
  | cons y xs ih => rw [List.intercalate_cons_cons, ih, List.flatMap_cons, List.append_assoc, List.append_assoc]

theorem dumpEntries_later (whole : Whole write) {entries : List (Ipv4Addr × Nat × IPv4Leaf)}
    (lines : ∀ entry ∈ entries, ∃ row, rowOf r2 entry = some row) (file : String) :
    dumpEntries write r2 false entries file.toByteArray = (file ++ String.ofList
      (((entries.filterMap (rowOf r2)).map Row.text).flatMap fun line => [',', '\n'] ++ line)).toByteArray := by
  induction entries generalizing file with
  | nil => exact congrArg String.toByteArray String.append_empty.symm
  | cons entry entries ih =>
    obtain ⟨⟨row, line⟩, lines⟩ := List.forall_mem_cons.mp lines
    rw [List.filterMap_cons_some line, List.map_cons, List.flatMap_cons, dumpEntries, if_neg Bool.false_ne_true,
      fileWrite_whole whole, routeJsonDump_text whole line, ih lines]
    exact congrArg String.toByteArray (by simp only [String.append_assoc, String.ofList_append])

theorem dumpEntries_text (whole : Whole write) {entries : List (Ipv4Addr × Nat × IPv4Leaf)}
    (lines : ∀ entry ∈ entries, ∃ row, rowOf r2 entry = some row) (file : String) :
    dumpEntries write r2 true entries file.toByteArray = (file ++ String.ofList
      ([',', '\n'].intercalate ((entries.filterMap (rowOf r2)).map Row.text))).toByteArray := by
  cases entries with
  | nil => exact congrArg String.toByteArray String.append_empty.symm
  | cons entry entries =>
    obtain ⟨⟨row, line⟩, lines⟩ := List.forall_mem_cons.mp lines
    rw [List.filterMap_cons_some line, List.map_cons, intercalate_cons, dumpEntries, if_pos rfl,
      routeJsonDump_text whole line, dumpEntries_later whole lines, String.ofList_append,
      String.append_assoc]

end Written

/-- The lines of a table, as the file has them. -/
theorem lines_read {rows : List Row} (plain : ∀ row ∈ rows, ∀ c ∈ row.ifname.toList, Plain c) (rest : List Char) :
    Json.Value ('[' :: '\n' :: ([',', '\n'].intercalate (rows.map Row.text) ++ '\n' :: ']' :: rest))
      (.array (rows.map Row.json)) rest := by
  cases rows with
  | nil => exact (Json.value_nil rfl rfl).mpr ⟨rfl, rfl⟩
  | cons row rows =>
    have items : Json.Elements ([',', '\n'].intercalate ((row :: rows).map Row.text) ++ (['\n'] ++ ']' :: rest))
        ((row :: rows).map Row.json) rest :=
      Json.elements_map (fun row member rest _ => row.text_read (plain row member) rest) (by simp)
        (by simp [Json.isSpace]) (by simp [Json.isSpace])
    have skip (more : List Char) : next ('\n' :: more) = next more := rfl
    exact (Json.elements_congr (skip _) items).array rfl

section Iter

variable [IpLookupIter T]

/-- The lines of a table. -/
def rows (r2 : Ctx T) (table : V4Table) : List Row :=
  (IpLookupIter.iter (r2.ipv4.deref table).root).filterMap (rowOf r2)

/-- The file of two tables, by the lines of each. -/
def fileText (lines lines' : List Char) : String :=
  "\x7b\n\"table1\":[\n" ++ String.ofList lines ++ "\n],\n" ++ "\"table2\":[\n" ++ String.ofList lines' ++
    "\n]\n\x7d\n"

theorem fileText_toList (lines lines' : List Char) : (fileText lines lines').toList =
    '\x7b' :: '\n' :: '\x22' :: ("table1".toList ++ '\x22' :: ':' :: '[' :: '\n' :: (lines ++ '\n' :: ']' :: ',' ::
      '\n' :: '\x22' :: ("table2".toList ++ '\x22' :: ':' :: '[' :: '\n' :: (lines' ++ '\n' :: ']' :: '\n' ::
        '\x7d' :: ['\n'])))) := by
  delta fileText
  rw [String.toList_append, String.toList_append, String.toList_append, String.toList_append,
    String.toList_append, @String.toList_ofList lines, @String.toList_ofList lines', List.append_assoc,
    List.append_assoc,
    List.append_assoc, List.append_assoc]
  rfl

theorem dump_text {r2 : Ctx T} {write : ByteArray → ByteArray → Except String Nat} (whole : Whole write)
    (lines : ∀ table, ∀ entry ∈ IpLookupIter.iter (r2.ipv4.deref table).root, ∃ row, rowOf r2 entry = some row) :
    dump write r2 = (fileText ([',', '\n'].intercalate ((rows r2 .table1).map Row.text))
      ([',', '\n'].intercalate ((rows r2 .table2).map Row.text))).toByteArray := by
  have start : fileWrite write ByteArray.empty "\x7b\n\"table1\":[\n" = "\x7b\n\"table1\":[\n".toByteArray :=
    (fileWrite_whole whole "" _).trans (congrArg _ String.empty_append)
  rw [dump, start, dumpEntries_text whole (lines .table1), fileWrite_whole whole, fileWrite_whole whole,
    dumpEntries_text whole (lines .table2), fileWrite_whole whole, rows, rows]
  delta fileText
  rfl

/-- The file is one object, with the lines of both tables. -/
theorem dump_parses {r2 : Ctx T} {write : ByteArray → ByteArray → Except String Nat} (whole : Whole write)
    (lines : ∀ table, ∀ entry ∈ IpLookupIter.iter (r2.ipv4.deref table).root, ∃ row, rowOf r2 entry = some row)
    (plain : ∀ table, ∀ row ∈ rows r2 table, ∀ c ∈ row.ifname.toList, Plain c) :
    ∃ text : String, dump write r2 = text.toByteArray ∧
      Parses text.toList (.object [("table1".toList, .array ((rows r2 .table1).map Row.json)),
        ("table2".toList, .array ((rows r2 .table2).map Row.json))]) := by
  have first := lines_read (plain .table1)
  have second := lines_read (plain .table2)
  refine ⟨_, dump_text whole lines, ?_⟩
  rw [fileText_toList]
  refine ⟨['\n'], ?_, rfl⟩
  refine (Json.value_object rfl rfl (by decide)).mpr ⟨_, ?_, rfl⟩
  refine (Json.members_plain (by simp [Plain]) rfl).mpr ⟨_, _, first _, .inl ⟨_, _, rfl, ?_, rfl⟩⟩
  exact (Json.members_plain (by simp [Plain]) rfl).mpr ⟨_, _, second _, .inr ⟨rfl, rfl⟩⟩

end Iter

end R2.Control
