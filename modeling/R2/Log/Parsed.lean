import R2.Base.Json
import R2.Log.Single

namespace R2.Log

open Json (Plain Value Members Elements Parses next)

/-- The value that a record is meant to be written as. -/
def Serial.json (r : Serial) : Json := .object [
  ("index".toList, .number (Nat.toDigits 10 r.index)),
  ("format".toList, .string r.format.toList),
  ("timestamp".toList, .number (Nat.toDigits 10 r.timestamp)),
  ("vals".toList, .array (r.vals.map fun v => .number (Nat.toDigits 10 v)))]

/-- What `to_json` writes behind the comma after the format, and `more`. -/
def Serial.laterMembers (r : Serial) (more : List Char) : List Char :=
  ' ' :: '\x22' :: ("timestamp".toList ++ '\x22' :: ':' :: ' ' :: (Nat.toDigits 10 r.timestamp ++
    ',' :: ' ' :: '\x22' :: ("vals".toList ++ '\x22' :: ':' :: ' ' :: '[' ::
      ([','].intercalate (r.vals.map (Nat.toDigits 10)) ++ ']' :: '\x7d' :: more))))

/-- What `to_json` writes behind the comma after the index, and `more`. -/
def Serial.formatMember (r : Serial) (more : List Char) : List Char :=
  ' ' :: '\x22' :: ("format".toList ++ '\x22' :: ':' :: ' ' :: '\x22' ::
    (r.format.toList ++ '\x22' :: ',' :: r.laterMembers more))

theorem Serial.toJson_text (r : Serial) (more : List Char) : r.toJson.toList ++ more =
    '\x7b' :: ' ' :: '\x22' :: ("index".toList ++ '\x22' :: ':' :: ' ' ::
      (Nat.toDigits 10 r.index ++ ',' :: r.formatMember more)) := by
  have number (n : Nat) : (toString n).toList = Nat.toDigits 10 n := Nat.toList_repr
  have vals : (",".intercalate (r.vals.map toString)).toList = [','].intercalate (r.vals.map (Nat.toDigits 10)) := by
    rw [String.toList_intercalate, List.map_map]
    congr 2
    funext n
    exact number n
  unfold Serial.toJson
  rw [String.toList_append, String.toList_append, String.toList_append, String.toList_append,
    String.toList_append, String.toList_append, String.toList_append, String.toList_append, vals, number, number]
  simp [formatMember, laterMembers]

section Reading

variable {r : Serial} {more rest : List Char} {v : Json}

theorem number_read (n : Nat) (rest : List Char) :
    Value (' ' :: (Nat.toDigits 10 n ++ ',' :: rest)) (.number (Nat.toDigits 10 n)) (',' :: rest) := by
  have same : next (' ' :: (Nat.toDigits 10 n ++ ',' :: rest)) = next (Nat.toDigits 10 n ++ ',' :: rest) := rfl
  exact (Json.value_congr same).mpr (Json.value_digits n (by simp [Json.Stops]))

theorem vals_read (vals : List Nat) (rest : List Char) :
    Value (' ' :: '[' :: ([','].intercalate (vals.map (Nat.toDigits 10)) ++ ']' :: rest))
      (.array (vals.map fun v => .number (Nat.toDigits 10 v))) rest := by
  cases vals with
  | nil => exact (Json.value_nil rfl rfl).mpr ⟨rfl, rfl⟩
  | cons val vals =>
    have items : Elements ([','].intercalate ((val :: vals).map (Nat.toDigits 10)) ++ ([] ++ ']' :: rest))
        ((val :: vals).map fun v => .number (Nat.toDigits 10 v)) rest :=
      Json.elements_map (fun v _ rest stops => Json.value_digits v stops) (by simp) (by simp) (by simp)
    exact items.array rfl

theorem Serial.laterMembers_read (r : Serial) (more : List Char) : Members (r.laterMembers more)
    [("timestamp".toList, .number (Nat.toDigits 10 r.timestamp)),
      ("vals".toList, .array (r.vals.map fun v => .number (Nat.toDigits 10 v)))] more := by
  refine (Json.members_plain (by simp [Plain]) rfl).mpr
    ⟨_, _, number_read r.timestamp _, .inl ⟨_, _, rfl, ?_, rfl⟩⟩
  exact (Json.members_plain (by simp [Plain]) rfl).mpr ⟨_, _, vals_read r.vals _, .inr ⟨rfl, rfl⟩⟩

/-- A record is read as its index, then what the text of its format makes of the rest. -/
theorem Serial.value_iff : Value (r.toJson.toList ++ more) v rest ↔ ∃ s mid ms,
    Json.quoted (r.format.toList ++ '\x22' :: ',' :: r.laterMembers more) = some (s, mid) ∧
    ((∃ after later, next mid = some (',', after) ∧ Members after later rest ∧
        ms = ("format".toList, .string s) :: later) ∨
      next mid = some ('\x7d', rest) ∧ ms = [("format".toList, .string s)]) ∧
    v = .object (("index".toList, .number (Nat.toDigits 10 r.index)) :: ms) := by
  rw [r.toJson_text, Json.value_object rfl rfl (by decide)]
  have number := number_read r.index (r.formatMember more)
  constructor
  · rintro ⟨ms, read, rfl⟩
    obtain ⟨v, mid, first, next⟩ := (Json.members_plain (by simp [Plain]) rfl).mp read
    obtain ⟨rfl, rfl⟩ := first.unique number
    rcases next with ⟨after, later, comma, read, rfl⟩ | ⟨brace, _⟩
    · cases comma
      obtain ⟨v, mid, second, next⟩ := (Json.members_plain (by simp [Plain]) rfl).mp read
      obtain ⟨s, quoted, rfl⟩ := (Json.value_string rfl).mp second
      exact ⟨s, mid, later, quoted, next, rfl⟩
    · cases brace
  · rintro ⟨s, mid, ms, quoted, next, rfl⟩
    refine ⟨_, (Json.members_plain (by simp [Plain]) rfl).mpr ⟨_, _, number, .inl ⟨_, _, rfl, ?_, rfl⟩⟩, rfl⟩
    refine (Json.members_plain (by simp [Plain]) rfl).mpr ⟨_, _, ?_, next⟩
    exact (Json.value_string rfl).mpr ⟨s, quoted, rfl⟩

/-- With a plain format a record is read back. -/
theorem Serial.json_read (plain : ∀ c ∈ r.format.toList, Plain c) :
    Value (r.toJson.toList ++ more) r.json more :=
  Serial.value_iff.mpr ⟨_, _, _, Json.quoted_plain plain, .inl ⟨_, _, rfl, r.laterMembers_read more, rfl⟩, rfl⟩

/-- The object has one format, which is the text. -/
def HasFormat (format : String) (v : Json) : Prop := ∃ ms, v = .object ms ∧
  ms.filter (fun m => m.1 = "format".toList) = [("format".toList, .string format.toList)]

theorem Serial.json_hasFormat (r : Serial) : HasFormat r.format r.json := ⟨_, rfl, by simp⟩

/-- If the format is read back, it is plain. -/
theorem Serial.format_plain (read : Value (r.toJson.toList ++ more) v rest) (has : HasFormat r.format v) :
    ∀ c ∈ r.format.toList, Plain c := by
  obtain ⟨s, mid, ms, quoted, follows, rfl⟩ := Serial.value_iff.mp read
  obtain ⟨members, same, only⟩ := has
  cases same
  have own : s = r.format.toList := by
    rcases follows with ⟨after, later, _, _, rfl⟩ | ⟨_, rfl⟩ <;> simp at only
    · exact only.1
    · exact only
  subst own
  rcases Json.chars_same quoted with ⟨fuel, t, beyond⟩ | ⟨_, plain⟩
  · -- the string goes on to the quote before the next name
    have lost : mid = _ := @Json.chars_ends [',', ' '] _ _ _ _ (by simp [Plain]) beyond
    rw [lost] at follows
    rcases follows with ⟨after, later, comma, _⟩ | ⟨brace, _⟩
    · cases comma
    · cases brace
  · exact plain rfl

end Reading

section Documents

variable {records : List Serial} {objects : List Json} {more rest : List Char} {v : Json}

/-- The text of the records, with what follows them. -/
def recordTexts (records : List Serial) (more : List Char) : List Char :=
  [',', '\n'].intercalate (records.map fun r => r.toJson.toList) ++ more

theorem document_text (records : List Serial) : (document records).toList =
    '\x7b' :: '\x22' :: ("logs".toList ++ '\x22' :: ':' :: '[' :: '\n' ::
      recordTexts records ('\n' :: ']' :: ['\x7d'])) := by
  unfold document recordTexts
  rw [String.toList_append, String.toList_append, String.toList_intercalate, List.map_map]
  simp [Function.comp_def]

theorem recordTexts_read (plain : ∀ r ∈ records, ∀ c ∈ r.format.toList, Plain c) (nonempty : records ≠ [])
    (rest : List Char) :
    Elements (recordTexts records ('\n' :: ']' :: rest)) (records.map Serial.json) rest := by
  have text : recordTexts records ('\n' :: ']' :: rest) =
      (',' :: ['\n']).intercalate (records.map fun r => r.toJson.toList) ++ (['\n'] ++ ']' :: rest) := rfl
  rw [text]
  exact Json.elements_map (fun r member rest _ => Serial.json_read (plain r member)) nonempty
    (by simp [Json.isSpace]) (by simp [Json.isSpace])

theorem recordTexts_cons (r next : Serial) (records : List Serial) (more : List Char) :
    recordTexts (r :: next :: records) more =
      r.toJson.toList ++ ',' :: '\n' :: recordTexts (next :: records) more := by
  simp [recordTexts]

/-- Records whose formats are read back have plain formats. -/
theorem recordTexts_plain (read : Elements (recordTexts records more) objects rest) (nonempty : records ≠ [])
    (has : List.Forall₂ (fun r v => HasFormat r.format v) records objects) :
    ∀ r ∈ records, ∀ c ∈ r.format.toList, Plain c := by
  induction records generalizing objects with
  | nil => exact absurd rfl nonempty
  | cons r records ih =>
    obtain ⟨item, mid, start, follows⟩ := Json.elements_iff.mp read
    cases has with
    | @cons _ first _ others hasFirst hasOthers =>
      have same : first = item := by
        rcases follows with ⟨after, later, _, _, same⟩ | ⟨_, same⟩
        · exact (List.cons.inj same).1
        · exact (List.cons.inj same).1
      subst same
      cases records with
      | nil =>
        rw [recordTexts, List.map_singleton, List.intercalate_singleton] at start
        simpa using Serial.format_plain start hasFirst
      | cons r' records =>
        rw [recordTexts_cons] at start
        have plain := Serial.format_plain start hasFirst
        obtain ⟨-, rfl⟩ := start.unique (Serial.json_read plain)
        rcases follows with ⟨after, later, comma, readOthers, same⟩ | ⟨bracket, _⟩
        · obtain ⟨-, rfl⟩ := List.cons.inj same
          cases comma
          have skip : next (recordTexts (r' :: records) more) = next ('\n' :: recordTexts (r' :: records) more) := rfl
          exact List.forall_mem_cons.mpr ⟨plain, ih (Json.elements_congr skip readOthers) (by simp) hasOthers⟩
        · cases bracket

/-- The file of some records is read as one object with the formats of the records iff these are plain. -/
theorem document_iff : (∃ objects, Parses (document records).toList (.object [("logs".toList, .array objects)]) ∧
      List.Forall₂ (fun r v => HasFormat r.format v) records objects) ↔
    ∀ r ∈ records, ∀ c ∈ r.format.toList, Plain c := by
  rw [document_text]
  constructor
  · rintro ⟨objects, ⟨rest, read, -⟩, has⟩
    cases records with
    | nil => simp
    | cons r records =>
      obtain ⟨ms, members, same⟩ := (Json.value_object rfl rfl (by decide)).mp read
      obtain ⟨v, mid, logs, follows⟩ := (Json.members_plain (by simp [Plain]) rfl).mp members
      have only : v = .array objects := by
        cases same
        rcases follows with ⟨after, later, _, _, same⟩ | ⟨_, same⟩
        · exact (Prod.mk.inj (List.cons.inj same).1).2.symm
        · exact (Prod.mk.inj (List.cons.inj same).1).2.symm
      subst only
      have nonempty : objects ≠ [] := by
        rintro rfl
        cases has
      have skip : next (recordTexts (r :: records) ('\n' :: ']' :: ['\x7d'])) =
          next ('\n' :: recordTexts (r :: records) ('\n' :: ']' :: ['\x7d'])) := rfl
      exact recordTexts_plain (Json.elements_congr skip (logs.elements rfl nonempty)) (by simp) has
  · intro plain
    refine ⟨records.map Serial.json, ⟨[], ?_, rfl⟩, ?_⟩
    · refine (Json.value_object rfl rfl (by decide)).mpr ⟨_, ?_, rfl⟩
      refine (Json.members_plain (by simp [Plain]) rfl).mpr ⟨_, ['\x7d'], ?_, .inr ⟨rfl, rfl⟩⟩
      cases records with
      | nil => exact (Json.value_nil rfl rfl).mpr ⟨rfl, rfl⟩
      | cons r records =>
        have skip : next ('\n' :: recordTexts (r :: records) ('\n' :: ']' :: ['\x7d'])) =
            next (recordTexts (r :: records) ('\n' :: ']' :: ['\x7d'])) := rfl
        exact (Json.elements_congr skip (recordTexts_read plain (by simp) _)).array rfl
    · rw [List.forall₂_map_right_iff, List.forall₂_same]
      exact fun r _ => r.json_hasFormat

end Documents

/-- The format can stand in the file as it is: it has no quote, no backslash and no control character. -/
def Site.Plain (s : Site) : Prop := ∀ c ∈ s.format.toList, Json.Plain c

/-- The file is one object whose logs are one object for each call, with the format of its site. -/
def Recovers (file : String) (calls : List Call) : Prop :=
  ∃ objects, Parses file.toList (.object [("logs".toList, .array objects)]) ∧
    List.Forall₂ (fun c v => HasFormat c.site.format v) calls objects

section Dumps

variable {l : Logger} {statics : Statics} {calls : List Call}

/-- A good logger is dumped so that its last formats are read back iff they are plain. -/
theorem Good.recovers_iff {filings : List Filing} (good : Good l statics filings)
    (same : filings.map Filing.call = calls) :
    (∃ file, l.serialize statics = .ok file ∧ Recovers file (calls.drop (calls.length - l.emax))) ↔
      ∀ c ∈ calls.drop (calls.length - l.emax), c.site.Plain := by
  rw [good.serialize, ← same, List.length_map, ← List.map_drop]
  generalize filings.drop (filings.length - l.emax) = last
  have each := @document_iff (last.map (Filing.serial l.esz))
  simp only [List.forall₂_map_left_iff, List.forall_mem_map] at each ⊢
  simp only [Recovers, List.forall₂_map_left_iff]
  constructor
  · rintro ⟨file, run, recovers⟩
    cases run
    exact each.mp recovers
  · exact fun plain => ⟨_, rfl, each.mpr plain⟩

/-- Without a slot nothing can be logged. -/
theorem logAll_none {l' : Logger} {statics' : Statics} (none : l.emax = 0) (runs : l.stop = 0)
    (run : l.logAll statics calls = .ok (l', statics')) : l' = l := by
  cases calls with
  | nil =>
    cases run
    rfl
  | cons c calls =>
    rw [Logger.logAll, List.foldlM_cons] at run
    obtain ⟨r, first, _⟩ := Except.bind_ok_iff.mp run
    rw [Logger.log, Logger.stopped, if_pos runs, Logger.getEntry] at first
    dsimp only at first
    cases sum : add64 l.enext 1 with
    | error e =>
      rw [sum] at first
      cases first
    | ok enext =>
      rw [sum, Program.ofExcept_ok_bind, if_pos none] at first
      cases first

/-- Several loggers that share sites, where the calls resolve. -/
theorem Logs.recovers_iff {start w : Logs} {events : List Event} (fresh : start.Fresh) (heeds : start.Heeding events)
    (run : start.runAll events = some w) (i : Nat) (idle : w.Idle i) :
    (∃ file, (w.logger i).serialize w.statics = .ok file ∧
        Recovers file ((Crew.callsOn i events).drop ((Crew.callsOn i events).length - (w.logger i).emax))) ↔
      ∀ c ∈ (Crew.callsOn i events).drop ((Crew.callsOn i events).length - (w.logger i).emax), c.site.Plain := by
  obtain ⟨filings, calls, good⟩ := fresh.logged heeds run idle
  exact good.recovers_iff calls

theorem filed_calls (statics : Statics) (calls : List Call) : (filed statics calls).map Filing.call = calls := by
  rw [filed, List.map_map]
  exact List.map_id calls

/-- The dump of a logger is read back with the formats of its last calls iff it has a slot, its count of
calls has room for them and these formats are plain. -/
theorem dump_recovers_iff {esz emax : Nat} (size : 12 ≤ esz ∨ calls = [] ∧ 4 ≤ esz)
    (new : Logger.new esz emax = .ok l) (few : (sites calls).card < 2 ^ 32) :
    (∃ l' statics file, l.logAll Entry.new calls = .ok (l', statics) ∧ l'.serialize statics = .ok file ∧
        Recovers file (calls.drop (calls.length - emax))) ↔
      1 ≤ emax ∧ calls.length < 2 ^ 64 ∧ ∀ c ∈ calls.drop (calls.length - emax), c.site.Plain := by
  obtain ⟨_, _, made⟩ := Except.bind_ok_iff.mp new
  have slots : l.emax = emax ∧ l.stop = 0 := by
    cases made
    exact ⟨rfl, rfl⟩
  by_cases none : emax = 0
  · constructor
    · rintro ⟨l', statics, file, run, dump, _⟩
      cases logAll_none (slots.1.trans none) slots.2 run
      rw [Logger.serialize, Logger.serializeTo, if_pos (slots.1.trans none)] at dump
      cases dump
    · rintro ⟨cells, _⟩
      omega
  · have cells := Nat.pos_of_ne_zero none
    rcases size with size | ⟨rfl, size⟩
    · have start := new_alone new size cells
      constructor
      · rintro ⟨_, _, file, run, dump, recovered⟩
        have many := start.run_length few (by decide) run
        obtain ⟨l', statics, run', _, same, alone⟩ := start.run calls few many
        rw [run] at run'
        cases run'
        have recovers := alone.good.recovers_iff (filed_calls ..)
        rw [List.nil_append, same, slots.1] at recovers
        exact ⟨cells, many, recovers.mp ⟨file, dump, recovered⟩⟩
      · rintro ⟨_, many, plain⟩
        obtain ⟨l', statics, run, _, same, alone⟩ := start.run calls few many
        have recovers := alone.good.recovers_iff (filed_calls ..)
        rw [List.nil_append, same, slots.1] at recovers
        obtain ⟨file, dump, recovered⟩ := recovers.mpr plain
        exact ⟨l', statics, file, run, dump, recovered⟩
    · -- nothing was logged
      have dump : l.serialize Entry.new = .ok (document []) := by
        refine serialize_blank (slots.1 ▸ cells) fun e inside => ?_
        obtain ⟨fits, empty⟩ := new_blank new size (slots.1 ▸ inside)
        exact record_none fits empty
      obtain ⟨objects, parsed, all⟩ := (@document_iff []).mpr (by simp)
      cases all
      rw [List.drop_nil]
      exact ⟨fun _ => ⟨cells, by decide, by simp⟩, fun _ => ⟨l, Entry.new, _, rfl, dump, [], parsed, .nil⟩⟩

theorem sites_single (c : Call) : (sites [c]).card < 2 ^ 32 :=
  Nat.lt_of_le_of_lt (List.toFinset_card_le _) (by simp)

/-- A format with a quote is not read back. -/
theorem quoted_format_lost : ∃ l l' statics file, Logger.new 13 1 = .ok l ∧
    l.logAll Entry.new [letterCall 1 "say \"hi\"" 5 (by decide)] = .ok (l', statics) ∧
    l'.serialize statics = .ok file ∧ ¬Recovers file [letterCall 1 "say \"hi\"" 5 (by decide)] := by
  obtain ⟨l, new⟩ : ∃ l, Logger.new 13 1 = .ok l := ⟨_, rfl⟩
  obtain ⟨l', statics, run, _, cells, alone⟩ := (new_alone new (by omega) (by omega)).run
    [letterCall 1 "say \"hi\"" 5 (by decide)] (sites_single _) (by simp)
  have one : l'.emax = 1 := by
    rw [cells]
    cases new
    rfl
  have dump := alone.good.recovers_iff (filed_calls ..)
  have file := alone.good.serialize
  rw [List.nil_append, one] at dump file
  refine ⟨l, l', statics, _, new, run, file, fun recovers => ?_⟩
  have plain := dump.mp ⟨_, file, recovers⟩ _ (List.mem_singleton_self _)
  exact (plain '\x22' (by simp [letterCall, letterSite])).1 rfl

theorem plain_format_recovered : ∃ l l' statics file, Logger.new 13 1 = .ok l ∧
    l.logAll Entry.new [letterCall 1 "a" 5 (by decide)] = .ok (l', statics) ∧
    l'.serialize statics = .ok file ∧ Recovers file [letterCall 1 "a" 5 (by decide)] := by
  have plain : (letterCall 1 "a" 5 (by decide)).site.Plain := by
    simp [Site.Plain, letterCall, letterSite, Json.Plain]
  obtain ⟨l, new⟩ : ∃ l, Logger.new 13 1 = .ok l := ⟨_, rfl⟩
  have single := dump_recovers_iff (.inl (by decide)) new (sites_single (letterCall 1 "a" 5 (by decide)))
  obtain ⟨l', statics, file, run⟩ := single.mpr ⟨Nat.le_refl 1, by simp, by simpa using plain⟩
  exact ⟨l, l', statics, file, new, run⟩

end Dumps

end R2.Log
