import R2.Base.Ring
import R2.Log.Filing

namespace R2.Log

/-- The values of a call that its record shows: the longest prefix of the first
16 that fits. -/
def Call.shown (esz : Nat) (c : Call) : List Arg := fitting Arg.size (esz - 12) (c.args.take maxDebugs)

/-- The widths of the values that a record of the site shows. -/
def Site.shown (esz : Nat) (s : Site) : List Width := fitting Width.bytes (esz - 12) (s.widths.take maxDebugs)

theorem Call.shown_widths (esz : Nat) (c : Call) : (c.shown esz).map Arg.width = c.site.shown esz := by
  rw [Site.shown, ← c.widths, ← List.map_take, fitting_map]
  rfl

/-- The values shown are the first ones in the slot. -/
theorem Call.written_shown (esz : Nat) (c : Call) (index : Nat) : ∃ more,
    c.written esz index = toLe 4 index ++ toLe 8 c.now ++ (c.shown esz).flatMap Arg.memory ++ more := by
  refine ⟨((fitting Arg.size (esz - 12) c.args).drop maxDebugs).flatMap Arg.memory, ?_⟩
  rw [Call.shown, fitting_take, List.append_assoc, ← List.flatMap_append, List.take_append_drop]
  rfl

section Reading

variable {mem : List UInt8}

/-- The values are read back by the sizes of the entry. -/
theorem readVals_ok {base room : Nat} {widths : List Width} {args : List Arg} (blank : Nat)
    (fits : args.map Arg.width = fitting Width.bytes room widths) (inside : base + room ≤ mem.length)
    (slot : window mem base (base + (args.flatMap Arg.memory).length) = args.flatMap Arg.memory) :
    Logger.readVals mem (base + room) base (widths.map Width.bytes ++ List.replicate blank 0) =
      .ok (args.map Arg.val) := by
  induction widths generalizing base room args with
  | nil =>
    rw [fitting, List.map_eq_nil_iff] at fits
    subst fits
    cases blank with
    | zero => rfl
    | succ blank => rfl
  | cons w rest ih =>
    have positive := w.bytes_pos
    rw [List.map_cons, List.cons_append, Logger.readVals, if_neg (by omega)]
    rw [fitting] at fits
    split at fits
    · rename_i small
      cases args with
      | nil => cases fits
      | cons a args =>
        rw [List.map_cons, List.cons.injEq] at fits
        obtain ⟨rfl, fits⟩ := fits
        have width : a.memory.length = a.width.bytes := a.memory_length
        have known : a.width.bytes = 1 ∨ a.width.bytes = 2 ∨ a.width.bytes = 4 ∨ a.width.bytes = 8 := by
          cases a.width <;> decide
        rw [List.flatMap_cons] at slot
        have first := window_part [] a.memory (args.flatMap Arg.memory) slot
        have later := window_part a.memory (args.flatMap Arg.memory) [] (by
          rw [List.append_nil]
          exact slot)
        rw [List.length_nil, Nat.add_zero, width] at first
        rw [width] at later
        have left : base + room = base + a.width.bytes + (room - a.width.bytes) := by omega
        rw [if_neg (by omega), if_pos known, load_ok first (by omega), Except.ok_bind, a.ofLe_memory, left,
          ih fits (by omega) later]
        rfl
    · rename_i large
      rw [List.map_eq_nil_iff] at fits
      subst fits
      rw [if_pos (by omega)]
      rfl

variable {l : Logger} {statics : Statics} {e : Nat}

/-- An empty slot is skipped. -/
theorem record_none (inside : e * l.esz + 4 ≤ l.mem.length)
    (empty : window l.mem (e * l.esz) (e * l.esz + 4) = toLe 4 0) :
    l.record statics e = .ok none := by
  rw [Logger.record]
  rw [load_ok empty inside]
  rfl

/-- A slot written by a call is read back, by the sizes of the site that the table names. -/
theorem record_some {c : Call} {t : Site} {n : Nat} (size : 12 ≤ l.esz) (inside : e * l.esz + l.esz ≤ l.mem.length)
    (positive : n ≠ 0) (small : n < 2 ^ 32) (found : l.hash n = some t) (sized : (statics t).Sized t)
    (inited : (statics t).inited ≠ 0) (format : t.format = c.site.format) (shown : t.shown l.esz = c.site.shown l.esz)
    (slot : window l.mem (e * l.esz) (e * l.esz + (c.written l.esz n).length) = c.written l.esz n) :
    l.record statics e = .ok (some ⟨n, c.site.format, c.now, (c.shown l.esz).map Arg.val⟩) := by
  obtain ⟨more, written⟩ := c.written_shown l.esz n
  rw [written] at slot
  have index := window_part [] (toLe 4 n) (toLe 8 c.now ++ (c.shown l.esz).flatMap Arg.memory ++ more) (by
      rw [List.nil_append]
      simp only [← List.append_assoc]
      exact slot)
  have time := window_part (toLe 4 n) (toLe 8 c.now) ((c.shown l.esz).flatMap Arg.memory ++ more) (by
      simp only [← List.append_assoc]
      exact slot)
  have vals := window_part _ _ _ slot
  rw [List.length_nil, Nat.add_zero, toLe_length] at index
  rw [toLe_length, toLe_length] at time
  rw [List.length_append, toLe_length, toLe_length] at vals
  have widths : (c.shown l.esz).map Arg.width = fitting Width.bytes (l.esz - 12) (t.widths.take maxDebugs) := by
    rw [c.shown_widths, ← shown, Site.shown]
  have stop : e * l.esz + l.esz = e * l.esz + (4 + 8) + (l.esz - 12) := by omega
  have read := readVals_ok (maxDebugs - t.widths.length) widths (by omega) vals
  rw [← stop] at read
  have sizes : (statics t).sizes =
      (t.widths.take maxDebugs).map Width.bytes ++ List.replicate (maxDebugs - t.widths.length) 0 := by
    rw [sized.inited inited]
    rfl
  rw [Logger.record]
  rw [load_ok index (by omega), Except.ok_bind, ofLe_toLe (by omega), if_pos positive, load_ok time (by omega),
    Except.ok_bind, ofLe_toLe c.fits, found]
  dsimp only
  rw [sizes, read, Except.ok_bind, sized.format, format]

end Reading

/-- The texts that the loop of `serialize` writes for the slots from one on. -/
def rendered : List (Option Serial) → List String
  | [] => []
  | [slot] => (slot.map fun serial => [serial.toJson]).getD []
  | slot :: next :: rest => (slot.map fun serial => [serial.toJson, ",\n"]).getD [] ++ rendered (next :: rest)

/-- Empty slots leave no trace, and one comma stands between two records. -/
theorem rendered_ring (blank : Nat) (records : List Serial) :
    rendered (List.replicate blank none ++ records.map some) = (records.map Serial.toJson).intersperse ",\n" := by
  induction blank with
  | zero =>
    rw [List.replicate_zero, List.nil_append]
    induction records with
    | nil => rfl
    | cons r rest ih =>
      cases rest with
      | nil => rfl
      | cons r' rest =>
        rw [List.map_cons, List.map_cons, rendered, ← List.map_cons, ih]
        rfl
  | succ blank ih =>
    rw [List.replicate_succ, List.cons_append, ← ih]
    cases List.replicate blank none ++ records.map some with
    | nil => rfl
    | cons next rest => rfl

/-- The texts of a dump, each written at once. -/
def texts (records : List Serial) : List String :=
  "\x7b\"logs\":[\n" :: ((records.map Serial.toJson).intersperse ",\n" ++ ["\n]\x7d"])

/-- The file for some records. -/
def document (records : List Serial) : String :=
  "\x7b\"logs\":[\n" ++ ",\n".intercalate (records.map Serial.toJson) ++ "\n]\x7d"

theorem foldl_intersperse (file sep : String) (items : List String) :
    (items.intersperse sep).foldl (· ++ ·) file = file ++ sep.intercalate items := by
  induction items generalizing file with
  | nil => exact String.append_empty.symm
  | cons item rest ih =>
    cases rest with
    | nil => rw [String.intercalate_singleton]; rfl
    | cons next rest =>
      rw [List.intersperse_cons_cons, List.foldl_cons, List.foldl_cons, ih, String.intercalate_cons_cons]
      simp only [String.append_assoc]

/-- The texts together are the document. -/
theorem texts_joined (records : List Serial) : (texts records).foldl (· ++ ·) "" = document records := by
  rw [texts, List.foldl_cons, List.foldl_append, foldl_intersperse, String.empty_append]
  rfl

/-- Texts are written one after the other, up to the first that cannot be written. -/
def putAll (write : String → String → Except String Unit) (file : String) : List String → String × Except String Unit
  | [] => (file, .ok ())
  | text :: rest =>
    match write file text with
    | .ok () => putAll write (file ++ text) rest
    | .error why => (file, .error why)

section Writes

variable {write : String → String → Except String Unit} {file : String}

theorem put_ok {next : String → Outcome (String × Except String Unit)} {text : String} {rest : List String}
    (later : ∀ file, next file = .ok (putAll write file rest)) :
    Logger.put write file text next = .ok (putAll write file (text :: rest)) := by
  rw [Logger.put, putAll]
  cases write file text with
  | ok => exact later _
  | error why => rfl

theorem putAll_whole (file : String) (all : List String) :
    putAll (fun _ _ => .ok ()) file all = (all.foldl (· ++ ·) file, .ok ()) := by
  induction all generalizing file with
  | nil => rfl
  | cons text rest ih => exact ih (file ++ text)

end Writes

section Dump

variable {l : Logger} {statics : Statics} {write : String → String → Except String Unit}

/-- The loop goes once around the ring. -/
theorem serializeLoop_ok {n left : Nat} {f : Nat → Option Serial} (cells : 0 < l.emax)
    (read : ∀ k < l.emax, l.record statics ((n + k) % l.emax) = .ok (f k)) (some : 0 < left) (few : left ≤ l.emax)
    (file : String) :
    l.serializeLoop statics write (n % l.emax) left ((n + (l.emax - left)) % l.emax) file =
      .ok (putAll write file (rendered ((List.range' (l.emax - left) left).map f) ++ ["\n]\x7d"])) := by
  induction left generalizing file with
  | zero => cases some
  | succ left ih =>
    have split : List.range' (l.emax - (left + 1)) (left + 1) =
        (l.emax - (left + 1)) :: List.range' (l.emax - left) left := by
      rw [List.range'_succ]
      congr 2
      omega
    have stop : ∀ file, Logger.put write file "\n]\x7d" (fun file => .ok (file, .ok ())) =
        .ok (putAll write file ["\n]\x7d"]) := fun file => put_ok fun _ => rfl
    rw [Logger.serializeLoop, read _ (by omega), Except.ok_bind, split, List.map_cons]
    dsimp only
    by_cases last : left = 0
    · subst last
      simp only [if_pos ((next_eq_start_iff (by omega)).mpr (by omega) :
        ((n + (l.emax - (0 + 1))) % l.emax + 1) % l.emax = n % l.emax)]
      rw [List.range'_zero, List.map_nil, rendered]
      cases f (l.emax - (0 + 1)) with
      | none => exact stop file
      | some serial => exact put_ok stop
    · have more : ¬((n + (l.emax - (left + 1))) % l.emax + 1) % l.emax = n % l.emax := by
        rw [next_eq_start_iff (by omega)]
        omega
      have next : ((n + (l.emax - (left + 1))) % l.emax + 1) % l.emax = (n + (l.emax - left)) % l.emax := by
        rw [Nat.mod_add_mod]
        congr 1
        omega
      obtain ⟨left, rfl⟩ := Nat.exists_eq_succ_of_ne_zero last
      have rest := ih (by omega) (by omega)
      rw [next] at more
      simp only [next, if_neg more]
      rw [List.range'_succ, List.map_cons] at rest ⊢
      cases f (l.emax - (left + 1 + 1)) with
      | none => exact rest file
      | some serial => exact put_ok fun file => put_ok rest

/-- A ring whose cells are read back is dumped in the order of its items. -/
theorem serialize_ring {I : Type} {items : List I} {serial : I → Serial} {holds : Nat → Option I → Prop}
    (cells : 0 < l.emax) (count : l.enext = items.length) (ring : Ring l.emax items holds)
    (read : ∀ e < l.emax, ∀ c, holds e c → l.record statics e = .ok (c.map serial)) :
    l.serializeTo statics write =
      .ok (putAll write "" (texts ((items.drop (items.length - l.emax)).map serial))) := by
  have found : ∀ k < l.emax, l.record statics ((items.length + k) % l.emax) =
      .ok ((lapped l.emax items k).map serial) := fun k inside =>
    read _ (Nat.mod_lt _ cells) _ (ring k inside)
  have loop := @serializeLoop_ok l statics write items.length l.emax _ cells found cells (Nat.le_refl _)
  rw [Nat.sub_self, Nat.add_zero, ← List.range_eq_range'] at loop
  rw [Logger.serializeTo, if_neg (Nat.pos_iff_ne_zero.mp cells)]
  dsimp only
  have slots : (List.range l.emax).map (fun k => (lapped l.emax items k).map serial) =
      List.replicate (l.emax - items.length) none ++
        ((items.drop (items.length - l.emax)).map serial).map some := by
    have shape := congrArg (List.map (Option.map serial)) (map_lapped l.emax items)
    rw [List.map_map, List.map_append, List.map_replicate, List.map_map] at shape
    rw [List.map_map]
    exact shape
  rw [slots, rendered_ring] at loop
  rw [count]
  exact put_ok loop

/-- A dump that is written as a whole. -/
theorem serialize_whole {records : List Serial}
    (dump : l.serializeTo statics (fun _ _ => .ok ()) = .ok (putAll (fun _ _ => .ok ()) "" (texts records))) :
    l.serialize statics = .ok (document records) := by
  rw [Logger.serialize, dump, Except.ok_bind, putAll_whole, texts_joined]

end Dump

end R2.Log
