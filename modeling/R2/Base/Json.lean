import R2.Base.Decimal

namespace R2

/-- A JSON value; a number is kept as it is written. -/
inductive Json
  | null
  | bool (b : Bool)
  | number (text : List Char)
  | string (text : List Char)
  | array (items : List Json)
  | object (members : List (List Char × Json))

namespace Json

def isSpace (c : Char) : Bool := c = ' ' || c = '\t' || c = '\n' || c = '\r'

/-- The next character that is no white space, and what follows it. -/
def next : List Char → Option (Char × List Char)
  | [] => none
  | c :: rest => if isSpace c then next rest else some (c, rest)

/-- What follows a word. -/
def word : List Char → List Char → Option (List Char)
  | [], text => some text
  | _ :: _, [] => none
  | w :: ws, c :: text => if c = w then word ws text else none

/-- At most one of some characters. -/
def mark (marks : List Char) : List Char → List Char × List Char
  | [] => ([], [])
  | c :: rest => if c ∈ marks then ([c], rest) else ([], c :: rest)

def digits (text : List Char) : Option (List Char × List Char) :=
  if text.takeWhile Char.isDigit = [] then none
  else some (text.takeWhile Char.isDigit, text.dropWhile Char.isDigit)

/-- A fraction or an exponent, if there is one. -/
def suffix (marks signs : List Char) (text : List Char) : Option (List Char × List Char) :=
  if (mark marks text).1 = [] then some ([], text)
  else do
    let (ds, rest) ← digits (mark signs (mark marks text).2).2
    some ((mark marks text).1 ++ (mark signs (mark marks text).2).1 ++ ds, rest)

/-- A number has no leading zeros. -/
def numeral (text : List Char) : Option (List Char × List Char) := do
  let (whole, rest) ← digits (mark ['-'] text).2
  if 1 < whole.length ∧ whole.head? = some '0' then none
  else do
    let (fraction, rest) ← suffix ['.'] [] rest
    let (exponent, rest) ← suffix ['e', 'E'] ['+', '-'] rest
    some ((mark ['-'] text).1 ++ whole ++ fraction ++ exponent, rest)

def hexDigit (c : Char) : Option Nat :=
  if c.isDigit then some (c.toNat - 48)
  else if 'a' ≤ c ∧ c ≤ 'f' then some (c.toNat - 87)
  else if 'A' ≤ c ∧ c ≤ 'F' then some (c.toNat - 55)
  else none

def codeUnit : List Char → Option (Nat × List Char)
  | a :: b :: c :: d :: rest => do
    let a ← hexDigit a
    let b ← hexDigit b
    let c ← hexDigit c
    let d ← hexDigit d
    some (((a * 16 + b) * 16 + c) * 16 + d, rest)
  | _ => none

/-- A character by its code, in two units if it needs them. -/
def unicode (text : List Char) : Option (Char × List Char) := do
  let (hi, rest) ← codeUnit text
  if 0xD800 ≤ hi ∧ hi < 0xDC00 then do
    let rest ← word ['\\', 'u'] rest
    let (lo, rest) ← codeUnit rest
    if 0xDC00 ≤ lo ∧ lo < 0xE000 then
      some (Char.ofNat (0x10000 + (hi - 0xD800) * 0x400 + (lo - 0xDC00)), rest)
    else none
  else if 0xDC00 ≤ hi ∧ hi < 0xE000 then none
  else some (Char.ofNat hi, rest)

/-- What stands behind a backslash. -/
def escape : List Char → Option (Char × List Char)
  | [] => none
  | c :: rest =>
    if c = '\x22' ∨ c = '\\' ∨ c = '/' then some (c, rest)
    else if c = 'b' then some ('\x08', rest)
    else if c = 'f' then some ('\x0c', rest)
    else if c = 'n' then some ('\n', rest)
    else if c = 'r' then some ('\r', rest)
    else if c = 't' then some ('\t', rest)
    else if c = 'u' then unicode rest
    else none

/-- The characters up to the closing quote. -/
def chars : Nat → List Char → Option (List Char × List Char)
  | 0, _ => none
  | _ + 1, [] => none
  | fuel + 1, c :: rest =>
    if c = '\x22' then some ([], rest)
    else if c = '\\' then do
      let (d, rest) ← escape rest
      let (ds, rest) ← chars fuel rest
      some (d :: ds, rest)
    else if c.toNat < 0x20 then none
    else do
      let (ds, rest) ← chars fuel rest
      some (c :: ds, rest)

/-- A string, behind its opening quote. -/
def quoted (text : List Char) : Option (List Char × List Char) := chars (text.length + 1) text

def literal (c : Char) (rest : List Char) : Option (Json × List Char) :=
  if c = 't' then (word ['r', 'u', 'e'] rest).map fun rest => (.bool true, rest)
  else if c = 'f' then (word ['a', 'l', 's', 'e'] rest).map fun rest => (.bool false, rest)
  else if c = 'n' then (word ['u', 'l', 'l'] rest).map fun rest => (.null, rest)
  else (numeral (c :: rest)).map fun r => (.number r.1, r.2)

mutual

def value : Nat → List Char → Option (Json × List Char)
  | 0, _ => none
  | fuel + 1, text => do
    let (c, rest) ← next text
    if c = '\x22' then do
      let (s, rest) ← quoted rest
      some (.string s, rest)
    else if c = '[' then do
      let (d, after) ← next rest
      if d = ']' then some (.array [], after)
      else do
        let (items, rest) ← elements fuel rest
        some (.array items, rest)
    else if c = '\x7b' then do
      let (d, after) ← next rest
      if d = '\x7d' then some (.object [], after)
      else do
        let (ms, rest) ← members fuel rest
        some (.object ms, rest)
    else literal c rest

/-- The items of an array, up to the closing bracket. -/
def elements : Nat → List Char → Option (List Json × List Char)
  | 0, _ => none
  | fuel + 1, text => do
    let (item, rest) ← value fuel text
    let (c, rest) ← next rest
    if c = ',' then do
      let (items, rest) ← elements fuel rest
      some (item :: items, rest)
    else if c = ']' then some ([item], rest)
    else none

/-- The members of an object, up to the closing brace. -/
def members : Nat → List Char → Option (List (List Char × Json) × List Char)
  | 0, _ => none
  | fuel + 1, text => do
    let (c, rest) ← next text
    if c = '\x22' then do
      let (key, rest) ← quoted rest
      let (c, rest) ← next rest
      if c = ':' then do
        let (v, rest) ← value fuel rest
        let (c, rest) ← next rest
        if c = ',' then do
          let (ms, rest) ← members fuel rest
          some ((key, v) :: ms, rest)
        else if c = '\x7d' then some ([(key, v)], rest)
        else none
      else none
    else none

end

/-- What one computation yields, the other yields. -/
def Grows {α : Type} (x y : Option α) : Prop := ∀ a, x = some a → y = some a

namespace Grows

variable {α β : Type} {x y : Option α}

theorem refl (x : Option α) : Grows x x := fun _ yields => yields

theorem bind {f g : α → Option β} (first : Grows x y) (later : ∀ a, Grows (f a) (g a)) :
    Grows (x.bind f) (y.bind g) := by
  intro b yields
  obtain ⟨a, found, yields⟩ := Option.bind_eq_some_iff.mp yields
  exact Option.bind_eq_some_iff.mpr ⟨a, first a found, later a b yields⟩

theorem ite {p : Prop} [Decidable p] {x' y' : Option α} (left : Grows x y) (right : Grows x' y') :
    Grows (if p then x else x') (if p then y else y') := by
  split
  · exact left
  · exact right

end Grows

/-- More fuel changes nothing. -/
theorem fuel_succ (fuel : Nat) :
    (∀ text, Grows (value fuel text) (value (fuel + 1) text)) ∧
      (∀ text, Grows (elements fuel text) (elements (fuel + 1) text)) ∧
      (∀ text, Grows (members fuel text) (members (fuel + 1) text)) := by
  induction fuel with
  | zero => simp [Grows, value, elements, members]
  | succ fuel ih =>
    obtain ⟨ofValue, ofElements, ofMembers⟩ := ih
    refine ⟨fun text => ?_, fun text => ?_, fun text => ?_⟩
    · rw [value, value]
      refine .bind (.refl _) fun a => .ite (.refl _) (.ite ?_ (.ite ?_ (.refl _)))
      · exact .bind (.refl _) fun b => .ite (.refl _) (.bind (ofElements _) fun _ => .refl _)
      · exact .bind (.refl _) fun b => .ite (.refl _) (.bind (ofMembers _) fun _ => .refl _)
    · rw [elements, elements]
      refine .bind (ofValue _) fun a => .bind (.refl _) fun b => .ite ?_ (.refl _)
      exact .bind (ofElements _) fun _ => .refl _
    · rw [members, members]
      refine .bind (.refl _) fun a => .ite ?_ (.refl _)
      refine .bind (.refl _) fun b => .bind (.refl _) fun c => .ite ?_ (.refl _)
      refine .bind (ofValue _) fun d => .bind (.refl _) fun e => .ite ?_ (.refl _)
      exact .bind (ofMembers _) fun _ => .refl _

theorem fuel_le {fuel fuel' : Nat} (less : fuel ≤ fuel') :
    (∀ text, Grows (value fuel text) (value fuel' text)) ∧
      (∀ text, Grows (elements fuel text) (elements fuel' text)) ∧
      (∀ text, Grows (members fuel text) (members fuel' text)) := by
  induction less with
  | refl => exact ⟨fun _ => .refl _, fun _ => .refl _, fun _ => .refl _⟩
  | step less ih =>
    obtain ⟨ofValue, ofElements, ofMembers⟩ := fuel_succ _
    refine ⟨fun text a yields => ?_, fun text a yields => ?_, fun text a yields => ?_⟩
    · exact ofValue text a (ih.1 text a yields)
    · exact ofElements text a (ih.2.1 text a yields)
    · exact ofMembers text a (ih.2.2 text a yields)

/-- With enough fuel a value is read, and `rest` is left. -/
def Value (text : List Char) (v : Json) (rest : List Char) : Prop := ∃ fuel, value fuel text = some (v, rest)

def Elements (text : List Char) (items : List Json) (rest : List Char) : Prop :=
  ∃ fuel, elements fuel text = some (items, rest)

def Members (text : List Char) (ms : List (List Char × Json)) (rest : List Char) : Prop :=
  ∃ fuel, members fuel text = some (ms, rest)

/-- The text is one value. -/
def Parses (text : List Char) (v : Json) : Prop := ∃ rest, Value text v rest ∧ next rest = none

example : (value 9 "[1,]".toList).isNone = true := by decide +kernel

example : quoted "a\\nb\" ]".toList = some ("a\nb".toList, " ]".toList) := by decide +kernel

section Rules

variable {text after rest rest' : List Char} {v v' : Json} {items : List Json} {ms : List (List Char × Json)}

theorem Value.unique (one : Value text v rest) (two : Value text v' rest') : v = v' ∧ rest = rest' := by
  obtain ⟨fuel, one⟩ := one
  obtain ⟨fuel', two⟩ := two
  have same := (fuel_le (Nat.le_max_left fuel fuel')).1 text _ one
  rw [(fuel_le (Nat.le_max_right fuel fuel')).1 text _ two] at same
  cases same
  exact ⟨rfl, rfl⟩

/-- A string. -/
theorem value_string (first : next text = some ('\x22', after)) :
    Value text v rest ↔ ∃ s, quoted after = some (s, rest) ∧ v = .string s := by
  constructor
  · rintro ⟨fuel, run⟩
    cases fuel with
    | zero => cases run
    | succ fuel =>
      simp only [value, first, Option.bind_eq_bind, Option.bind_some, if_pos] at run
      obtain ⟨⟨s, rest'⟩, read, run⟩ := Option.bind_eq_some_iff.mp run
      cases run
      exact ⟨s, read, rfl⟩
  · rintro ⟨s, read, rfl⟩
    exact ⟨1, by simp [value, first, read]⟩

/-- An array without items. -/
theorem value_nil {close : List Char} (first : next text = some ('[', after))
    (second : next after = some (']', close)) : Value text v rest ↔ v = .array [] ∧ rest = close := by
  have empty (fuel : Nat) : value (fuel + 1) text = some (.array [], close) := by simp [value, first, second]
  constructor
  · rintro ⟨fuel, run⟩
    cases fuel with
    | zero => cases run
    | succ fuel =>
      rw [empty] at run
      cases run
      exact ⟨rfl, rfl⟩
  · rintro ⟨rfl, rfl⟩
    exact ⟨1, empty 0⟩

/-- An array with items. -/
theorem value_array {d : Char} {close : List Char} (first : next text = some ('[', after))
    (second : next after = some (d, close)) (opened : d ≠ ']') :
    Value text v rest ↔ ∃ items, Elements after items rest ∧ v = .array items := by
  have inside (fuel : Nat) : value (fuel + 1) text =
      (elements fuel after).bind fun r => some (.array r.1, r.2) := by simp [value, first, second, opened]
  constructor
  · rintro ⟨fuel, run⟩
    cases fuel with
    | zero => cases run
    | succ fuel =>
      rw [inside] at run
      obtain ⟨⟨items, rest'⟩, read, run⟩ := Option.bind_eq_some_iff.mp run
      cases run
      exact ⟨items, ⟨fuel, read⟩, rfl⟩
  · rintro ⟨items, ⟨fuel, read⟩, rfl⟩
    exact ⟨fuel + 1, by rw [inside, read, Option.bind_some]⟩

/-- An object with members. -/
theorem value_object {d : Char} {close : List Char} (first : next text = some ('\x7b', after))
    (second : next after = some (d, close)) (opened : d ≠ '\x7d') :
    Value text v rest ↔ ∃ ms, Members after ms rest ∧ v = .object ms := by
  have inside (fuel : Nat) : value (fuel + 1) text =
      (members fuel after).bind fun r => some (.object r.1, r.2) := by simp [value, first, second, opened]
  constructor
  · rintro ⟨fuel, run⟩
    cases fuel with
    | zero => cases run
    | succ fuel =>
      rw [inside] at run
      obtain ⟨⟨ms, rest'⟩, read, run⟩ := Option.bind_eq_some_iff.mp run
      cases run
      exact ⟨ms, ⟨fuel, read⟩, rfl⟩
  · rintro ⟨ms, ⟨fuel, read⟩, rfl⟩
    exact ⟨fuel + 1, by rw [inside, read, Option.bind_some]⟩

/-- A number or a word. -/
theorem value_literal {c : Char} (first : next text = some (c, after)) (bare : c ∉ ['\x22', '[', '\x7b']) :
    Value text v rest ↔ literal c after = some (v, rest) := by
  simp only [List.mem_cons, List.not_mem_nil, or_false, not_or] at bare
  have inside (fuel : Nat) : value (fuel + 1) text = literal c after := by
    simp [value, first, bare]
  constructor
  · rintro ⟨fuel, run⟩
    cases fuel with
    | zero => cases run
    | succ fuel => exact (inside fuel).symm.trans run
  · intro run
    exact ⟨1, (inside 0).trans run⟩

/-- An item, and a comma with more items or the end. -/
theorem elements_iff : Elements text items rest ↔ ∃ item mid, Value text item mid ∧
    ((∃ after more, next mid = some (',', after) ∧ Elements after more rest ∧ items = item :: more) ∨
      next mid = some (']', rest) ∧ items = [item]) := by
  constructor
  · rintro ⟨fuel, run⟩
    cases fuel with
    | zero => cases run
    | succ fuel =>
      rw [elements] at run
      obtain ⟨⟨item, mid⟩, read, run⟩ := Option.bind_eq_some_iff.mp run
      obtain ⟨⟨c, after⟩, second, run⟩ := Option.bind_eq_some_iff.mp run
      refine ⟨item, mid, ⟨fuel, read⟩, ?_⟩
      dsimp only at run second
      split at run
      · rename_i comma
        obtain ⟨⟨more, rest'⟩, later, run⟩ := Option.bind_eq_some_iff.mp run
        cases run
        exact .inl ⟨after, more, comma ▸ second, ⟨fuel, later⟩, rfl⟩
      · split at run
        · rename_i bracket
          cases run
          exact .inr ⟨bracket ▸ second, rfl⟩
        · cases run
  · rintro ⟨item, mid, ⟨fuel, read⟩, ⟨after, more, comma, ⟨fuel', later⟩, rfl⟩ | ⟨bracket, rfl⟩⟩
    · have first := (fuel_le (Nat.le_max_left fuel fuel')).1 _ _ read
      have last := (fuel_le (Nat.le_max_right fuel fuel')).2.1 _ _ later
      exact ⟨max fuel fuel' + 1, by simp [elements, first, comma, last]⟩
    · exact ⟨fuel + 1, by simp [elements, read, bracket]⟩

/-- A member, and a comma with more members or the end. -/
theorem members_iff {key keyed : List Char} (first : next text = some ('\x22', after))
    (named : quoted after = some (key, keyed)) :
    Members text ms rest ↔ ∃ start v mid, next keyed = some (':', start) ∧ Value start v mid ∧
      ((∃ after more, next mid = some (',', after) ∧ Members after more rest ∧ ms = (key, v) :: more) ∨
        next mid = some ('\x7d', rest) ∧ ms = [(key, v)]) := by
  constructor
  · rintro ⟨fuel, run⟩
    cases fuel with
    | zero => cases run
    | succ fuel =>
      simp only [members, first, named, Option.bind_eq_bind, Option.bind_some, if_pos] at run
      obtain ⟨⟨c, start⟩, second, run⟩ := Option.bind_eq_some_iff.mp run
      dsimp only at run second
      split at run
      · rename_i colon
        obtain ⟨⟨v, mid⟩, read, run⟩ := Option.bind_eq_some_iff.mp run
        obtain ⟨⟨e, after⟩, third, run⟩ := Option.bind_eq_some_iff.mp run
        refine ⟨start, v, mid, colon ▸ second, ⟨fuel, read⟩, ?_⟩
        dsimp only at run third
        split at run
        · rename_i comma
          obtain ⟨⟨more, rest'⟩, later, run⟩ := Option.bind_eq_some_iff.mp run
          cases run
          exact .inl ⟨after, more, comma ▸ third, ⟨fuel, later⟩, rfl⟩
        · split at run
          · rename_i brace
            cases run
            exact .inr ⟨brace ▸ third, rfl⟩
          · cases run
      · cases run
  · rintro ⟨start, v, mid, colon, ⟨fuel, read⟩, ⟨after, more, comma, ⟨fuel', later⟩, rfl⟩ | ⟨brace, rfl⟩⟩
    · have inside := (fuel_le (Nat.le_max_left fuel fuel')).1 _ _ read
      have last := (fuel_le (Nat.le_max_right fuel fuel')).2.2 _ _ later
      exact ⟨max fuel fuel' + 1, by simp [members, first, named, colon, inside, comma, last]⟩
    · exact ⟨fuel + 1, by simp [members, first, named, colon, read, brace]⟩

end Rules

section Strings

variable {s t text rest rest' : List Char} {fuel : Nat}

/-- A character that may stand in a string as it is. -/
def Plain (c : Char) : Prop := c ≠ '\x22' ∧ c ≠ '\\' ∧ 0x20 ≤ c.toNat

theorem chars_plain (plain : ∀ c ∈ s, Plain c) (enough : s.length < fuel) :
    chars fuel (s ++ '\x22' :: rest) = some (s, rest) := by
  induction s generalizing fuel with
  | nil =>
    obtain ⟨fuel, rfl⟩ := Nat.exists_eq_succ_of_ne_zero (Nat.ne_of_gt enough)
    simp [chars]
  | cons c s ih =>
    obtain ⟨⟨noQuote, noSlash, printed⟩, plain⟩ := List.forall_mem_cons.mp plain
    obtain ⟨fuel, rfl⟩ := Nat.exists_eq_succ_of_ne_zero (Nat.ne_of_gt (Nat.zero_lt_of_lt enough))
    have later := ih plain (Nat.lt_of_succ_lt_succ enough)
    simp [chars, noQuote, noSlash, Nat.not_lt.mpr printed, later]

/-- A plain text ends at its quote, whatever is read of it. -/
theorem chars_ends (plain : ∀ c ∈ s, Plain c) (run : chars fuel (s ++ '\x22' :: rest) = some (t, rest')) :
    rest' = rest := by
  induction s generalizing fuel t with
  | nil =>
    cases fuel with
    | zero => cases run
    | succ fuel =>
      simp only [List.nil_append, chars, if_pos] at run
      cases run
      rfl
  | cons c s ih =>
    obtain ⟨⟨noQuote, noSlash, printed⟩, plain⟩ := List.forall_mem_cons.mp plain
    cases fuel with
    | zero => cases run
    | succ fuel =>
      rw [List.cons_append, chars, if_neg noQuote, if_neg noSlash, if_neg (Nat.not_lt.mpr printed)] at run
      obtain ⟨⟨ds, after⟩, later, run⟩ := Option.bind_eq_some_iff.mp run
      cases run
      exact ih plain later

theorem quoted_plain (plain : ∀ c ∈ s, Plain c) : quoted (s ++ '\x22' :: rest) = some (s, rest) :=
  chars_plain plain (by simp only [List.length_append]; omega)

theorem word_takes {w : List Char} (run : word w text = some rest) : text = w ++ rest := by
  induction w generalizing text with
  | nil =>
    cases run
    rfl
  | cons c w ih =>
    cases text with
    | nil => cases run
    | cons d text =>
      rw [word] at run
      split at run
      · rename_i same
        rw [same, ih run, List.cons_append]
      · cases run

theorem hexDigit_quote : hexDigit '\x22' = none := by decide

theorem codeUnit_takes {n : Nat} (run : codeUnit text = some (n, rest)) : ∃ w, text = w ++ rest ∧ '\x22' ∉ w := by
  unfold codeUnit at run
  split at run
  · rename_i a b c d rest'
    obtain ⟨a', hexA, run⟩ := Option.bind_eq_some_iff.mp run
    obtain ⟨b', hexB, run⟩ := Option.bind_eq_some_iff.mp run
    obtain ⟨c', hexC, run⟩ := Option.bind_eq_some_iff.mp run
    obtain ⟨d', hexD, run⟩ := Option.bind_eq_some_iff.mp run
    cases run
    have other {c : Char} {n : Nat} (hex : hexDigit c = some n) : '\x22' ≠ c := by
      rintro rfl
      rw [hexDigit_quote] at hex
      cases hex
    exact ⟨[a, b, c, d], rfl, by simp [other hexA, other hexB, other hexC, other hexD]⟩
  · cases run

theorem unicode_takes {d : Char} (run : unicode text = some (d, rest)) : ∃ w, text = w ++ rest ∧ '\x22' ∉ w := by
  obtain ⟨⟨hi, mid⟩, first, run⟩ := Option.bind_eq_some_iff.mp run
  obtain ⟨w, shape, apart⟩ := codeUnit_takes first
  dsimp only at run
  split at run
  · obtain ⟨mid', second, run⟩ := Option.bind_eq_some_iff.mp run
    obtain ⟨⟨lo, mid''⟩, third, run⟩ := Option.bind_eq_some_iff.mp run
    obtain ⟨w', shape', apart'⟩ := codeUnit_takes third
    dsimp only at run
    split at run
    · obtain ⟨_, rfl⟩ := Prod.mk.inj (Option.some.inj run)
      rw [word_takes second, shape'] at shape
      refine ⟨w ++ ['\\', 'u'] ++ w', by simp [shape], ?_⟩
      simp [apart, apart']
    · cases run
  · split at run
    · cases run
    · obtain ⟨_, rfl⟩ := Prod.mk.inj (Option.some.inj run)
      exact ⟨w, shape, apart⟩

/-- An escape is one character or more, and has no quote but the one it stands for. -/
theorem escape_takes {d : Char} (run : escape text = some (d, rest)) :
    ∃ w, text = w ++ rest ∧ w ≠ [] ∧ (w = ['\x22'] ∨ '\x22' ∉ w) := by
  cases text with
  | nil => cases run
  | cons c text =>
    by_cases quote : c = '\x22'
    · subst quote
      simp only [escape, true_or, if_true, Option.some.injEq, Prod.mk.injEq] at run
      exact ⟨['\x22'], by simp [run.2], by simp, .inl rfl⟩
    · by_cases unicodes : c = 'u'
      · subst unicodes
        have coded : unicode text = some (d, rest) := by simpa [escape] using run
        obtain ⟨w, rfl, apart⟩ := unicode_takes coded
        exact ⟨'u' :: w, rfl, by simp, .inr (by simp [apart])⟩
      · have after : text = rest := by
          unfold escape at run
          simp only [unicodes, if_false] at run
          repeat' split at run
          all_goals first
            | cases run
              rfl
            | cases run
        exact ⟨[c], by simp [after], by simp, .inr (by simpa using Ne.symm quote)⟩

/-- A string that is read back as it is written is plain, unless its closing quote is escaped and
it goes on behind. -/
theorem chars_same (run : chars fuel (s ++ '\x22' :: rest) = some (t, rest')) :
    (∃ fuel' t', chars fuel' rest = some (t', rest')) ∨
      t.length ≤ s.length ∧ (t.length = s.length → ∀ c ∈ s, Plain c) := by
  induction fuel generalizing s t with
  | zero => cases run
  | succ fuel ih =>
    cases s with
    | nil =>
      simp only [List.nil_append, chars, if_pos] at run
      cases run
      exact .inr ⟨Nat.le_refl _, by simp⟩
    | cons c s =>
      rw [List.cons_append, chars] at run
      split at run
      · cases run
        exact .inr ⟨Nat.zero_le _, by simp⟩
      · rename_i noQuote
        split at run
        · obtain ⟨⟨d, mid⟩, escaped, run⟩ := Option.bind_eq_some_iff.mp run
          obtain ⟨⟨ds, after⟩, later, run⟩ := Option.bind_eq_some_iff.mp run
          cases run
          obtain ⟨w, shape, nonempty, quotes⟩ := escape_takes escaped
          have positive := List.length_pos_of_ne_nil nonempty
          -- the escape ends before the closing quote, or is that quote
          rcases List.append_eq_append_iff.mp shape with ⟨more, rfl, close⟩ | ⟨left, rfl, rfl⟩
          · cases more with
            | nil =>
              simp only [List.append_nil, List.nil_append] at positive close
              rw [← close, ← List.nil_append ('\x22' :: rest)] at later
              rcases ih later with beyond | ⟨short, _⟩
              · exact .inl beyond
              · simp only [List.length_nil] at short
                exact .inr ⟨by simp only [List.length_cons]; omega, by simp only [List.length_cons]; omega⟩
            | cons q more =>
              obtain ⟨rfl, rfl⟩ := List.cons.inj close
              rcases quotes with only | absent
              · have none : more = [] := by
                  have size := congrArg List.length only
                  simp only [List.length_append, List.length_cons, List.length_nil] at size
                  exact List.eq_nil_of_length_eq_zero (by omega)
                subst none
                exact .inl ⟨fuel, ds, later⟩
              · exact absurd (by simp) absent
          · rcases ih later with beyond | ⟨short, _⟩
            · exact .inl beyond
            · simp only [List.length_cons, List.length_append]
              exact .inr ⟨by omega, by omega⟩
        · rename_i noSlash
          split at run
          · cases run
          · rename_i printed
            obtain ⟨⟨ds, after⟩, later, run⟩ := Option.bind_eq_some_iff.mp run
            cases run
            rcases ih later with beyond | ⟨short, plain⟩
            · exact .inl beyond
            · refine .inr ⟨by simpa using short, fun same => List.forall_mem_cons.mpr ⟨?_, plain ?_⟩⟩
              · exact ⟨noQuote, noSlash, by omega⟩
              · simpa using same

end Strings

section Texts

variable {text text' rest space : List Char} {v : Json}

/-- The value does not depend on white space in front of it. -/
theorem value_congr (same : next text = next text') : Value text v rest ↔ Value text' v rest := by
  have every (fuel : Nat) : value fuel text = value fuel text' := by
    cases fuel with
    | zero => rfl
    | succ fuel => rw [value, value, same]
  simp only [Value, every]

theorem next_space (blank : ∀ c ∈ space, isSpace c = true) : next (space ++ text) = next text := by
  induction space with
  | nil => rfl
  | cons c space ih =>
    obtain ⟨first, blank⟩ := List.forall_mem_cons.mp blank
    rw [List.cons_append, next, if_pos first, ih blank]

theorem next_char {c : Char} (solid : isSpace c = false) : next (c :: rest) = some (c, rest) := by
  simp [next, solid]

/-- The text does not go on with a number in front of it. -/
def Stops (rest : List Char) : Prop := ∀ c ∈ rest.head?, c.isDigit = false ∧ c ∉ ['.', 'e', 'E']

theorem mark_none {marks : List Char} (other : ∀ c ∈ text.head?, c ∉ marks) : mark marks text = ([], text) := by
  cases text with
  | nil => rfl
  | cons c text => simp [mark, other c rfl]

theorem suffix_none {marks signs : List Char} (other : ∀ c ∈ text.head?, c ∉ marks) :
    suffix marks signs text = some ([], text) := by
  simp [suffix, mark_none other]

theorem digits_append {ds : List Char} (nonempty : ds ≠ []) (digit : ∀ c ∈ ds, c.isDigit = true)
    (stops : ∀ c ∈ rest.head?, c.isDigit = false) : digits (ds ++ rest) = some (ds, rest) := by
  have after : rest.takeWhile Char.isDigit = [] ∧ rest.dropWhile Char.isDigit = rest := by
    cases rest with
    | nil => exact ⟨rfl, rfl⟩
    | cons c rest => simp [stops c rfl]
  rw [digits, List.takeWhile_append_of_pos digit, List.dropWhile_append_of_pos digit, after.1, after.2,
    List.append_nil, if_neg nonempty]

/-- A number in decimal digits is read up to their end. -/
theorem value_digits (n : Nat) (stops : Stops rest) :
    Value (Nat.toDigits 10 n ++ rest) (.number (Nat.toDigits 10 n)) rest := by
  have decimal := Decimal.toDigits n
  have leading := head?_toDigits n
  generalize Nat.toDigits 10 n = ds at decimal leading
  obtain ⟨nonempty, digit, -⟩ := decimal
  have noDot : ∀ c ∈ rest.head?, c ∉ ['.'] := fun c first => by
    have other := (stops c first).2
    simp only [List.mem_cons, not_or] at other ⊢
    exact ⟨other.1, List.not_mem_nil⟩
  have noExp : ∀ c ∈ rest.head?, c ∉ ['e', 'E'] := fun c first => by
    have other := (stops c first).2
    simp only [List.mem_cons, not_or] at other ⊢
    exact other.2
  cases ds with
  | nil => exact absurd rfl nonempty
  | cons d ds =>
    have first := digit d (List.mem_cons_self ..)
    have other {c : Char} (noDigit : c.isDigit = false) : d ≠ c := by
      rintro rfl
      rw [first] at noDigit
      cases noDigit
    have solid : isSpace d = false := by
      simp [isSpace, other (c := ' ') rfl, other (c := '\t') rfl, other (c := '\n') rfl, other (c := '\r') rfl]
    have noSign : mark ['-'] (d :: ds ++ rest) = ([], d :: ds ++ rest) :=
      mark_none (by simp [other (c := '-') rfl])
    have read := digits_append nonempty digit fun c first => (stops c first).1
    have whole : numeral (d :: ds ++ rest) = some (d :: ds, rest) := by
      rw [numeral, noSign]
      simp only [read, Option.bind_eq_bind, Option.bind_some]
      rw [if_neg fun bad => leading bad.1 bad.2, suffix_none noDot, Option.bind_some, suffix_none noExp]
      simp
    rw [List.cons_append] at whole ⊢
    rw [value_literal (next_char solid) (by simp [other (c := '\x22') rfl, other (c := '[') rfl,
      other (c := '\x7b') rfl])]
    simp [literal, other (c := 't') rfl, other (c := 'f') rfl, other (c := 'n') rfl, whole]

theorem elements_congr {items : List Json} (same : next text = next text') (read : Elements text' items rest) :
    Elements text items rest := by
  obtain ⟨item, mid, first, more⟩ := elements_iff.mp read
  exact elements_iff.mpr ⟨item, mid, (value_congr same).mpr first, more⟩

/-- No value starts with a closing bracket. -/
theorem Value.starts (read : Value text v rest) : ∃ d after, next text = some (d, after) ∧ d ≠ ']' := by
  cases first : next text with
  | none =>
    obtain ⟨fuel, read⟩ := read
    cases fuel with
    | zero => cases read
    | succ fuel => simp [value, first] at read
  | some found =>
    obtain ⟨d, after⟩ := found
    refine ⟨d, after, rfl, ?_⟩
    rintro rfl
    have broken := (value_literal first (by decide)).mp read
    simp [literal, numeral, mark, digits] at broken

/-- The items of an array are read as an array. -/
theorem Elements.array {after : List Char} {items : List Json} (read : Elements after items rest)
    (first : next text = some ('[', after)) : Value text (.array items) rest := by
  obtain ⟨item, mid, start, -⟩ := elements_iff.mp read
  obtain ⟨d, close, second, opened⟩ := start.starts
  exact (value_array first second opened).mpr ⟨items, read, rfl⟩

/-- The items of an array that is read. -/
theorem Value.elements {after : List Char} {items : List Json} (read : Value text (.array items) rest)
    (first : next text = some ('[', after)) (nonempty : items ≠ []) : Elements after items rest := by
  cases second : next after with
  | none =>
    obtain ⟨fuel, read⟩ := read
    cases fuel with
    | zero => cases read
    | succ fuel => simp [value, first, second] at read
  | some found =>
    obtain ⟨d, close⟩ := found
    by_cases closed : d = ']'
    · subst closed
      obtain ⟨same, _⟩ := (value_nil first second).mp read
      cases same
      exact absurd rfl nonempty
    · obtain ⟨items', inside, same⟩ := (value_array first second closed).mp read
      cases same
      exact inside

/-- Texts that are read one by one are read as the items of an array. -/
theorem elements_map {α : Type} {as : List α} {item : α → List Char} {json : α → Json} {close : List Char}
    (reads : ∀ a ∈ as, ∀ rest, Stops rest → Value (item a ++ rest) (json a) rest) (nonempty : as ≠ [])
    (blank : ∀ c ∈ space, isSpace c = true) (blankClose : ∀ c ∈ close, isSpace c = true) :
    Elements ((',' :: space).intercalate (as.map item) ++ (close ++ ']' :: rest)) (as.map json) rest := by
  have stops : Stops (close ++ ']' :: rest) := by
    cases close with
    | nil => simp [Stops]
    | cons c close =>
      have first := blankClose c (List.mem_cons_self ..)
      simp only [isSpace, Bool.or_eq_true, decide_eq_true_eq, or_assoc] at first
      rcases first with rfl | rfl | rfl | rfl <;> simp [Stops]
  have bracket : next (close ++ ']' :: rest) = some (']', rest) :=
    (next_space blankClose).trans (next_char (by decide))
  induction as with
  | nil => exact absurd rfl nonempty
  | cons a as ih =>
    obtain ⟨readsFirst, reads⟩ := List.forall_mem_cons.mp reads
    cases as with
    | nil =>
      rw [List.map_singleton, List.intercalate_singleton, elements_iff]
      exact ⟨json a, _, readsFirst _ stops, .inr ⟨bracket, rfl⟩⟩
    | cons b as =>
      have later := ih reads (List.cons_ne_nil b as)
      rw [List.map_cons, List.map_cons, List.intercalate_cons_cons, ← List.map_cons, List.append_assoc,
        List.append_assoc, elements_iff]
      refine ⟨json a, _, readsFirst _ (by simp [Stops]), .inl ⟨_, _, next_char (by decide), ?_, rfl⟩⟩
      exact elements_congr (next_space blank) later

/-- A member whose name is plain. -/
theorem members_plain {key start : List Char} {ms : List (List Char × Json)} (plain : ∀ c ∈ key, Plain c)
    (first : next text = some ('\x22', key ++ '\x22' :: ':' :: start)) :
    Members text ms rest ↔ ∃ v mid, Value start v mid ∧
      ((∃ after more, next mid = some (',', after) ∧ Members after more rest ∧ ms = (key, v) :: more) ∨
        next mid = some ('\x7d', rest) ∧ ms = [(key, v)]) := by
  rw [members_iff first (quoted_plain plain)]
  have colon : next (':' :: start) = some (':', start) := next_char (by decide)
  constructor
  · rintro ⟨start', v, mid, found, read, later⟩
    rw [colon] at found
    cases found
    exact ⟨v, mid, read, later⟩
  · rintro ⟨v, mid, read, later⟩
    exact ⟨start, v, mid, colon, read, later⟩

/-- A member of an object, with a space behind the colon. -/
def member (key value : List Char) : List Char := '\x22' :: (key ++ '\x22' :: ':' :: ' ' :: value)

/-- Members whose names are plain, and whose values are read one by one. -/
theorem members_map {α : Type} {as : List α} {key item : α → List Char} {json : α → Json} {lead : List Char}
    (plain : ∀ a ∈ as, ∀ c ∈ key a, Plain c)
    (reads : ∀ a ∈ as, ∀ rest, Stops rest → Value (item a ++ rest) (json a) rest) (nonempty : as ≠ [])
    (blank : ∀ c ∈ space, isSpace c = true) (blankLead : ∀ c ∈ lead, isSpace c = true) :
    Members (lead ++ ((',' :: space).intercalate (as.map fun a => member (key a) (item a)) ++ '\x7d' :: rest))
      (as.map fun a => (key a, json a)) rest := by
  have name (a : α) (more : List Char) : next (lead ++ (member (key a) (item a) ++ more)) =
      some ('\x22', key a ++ '\x22' :: ':' :: ' ' :: (item a ++ more)) := by
    rw [next_space blankLead]
    simp [next, isSpace, member]
  have gap (more : List Char) : next (' ' :: more) = next more := by simp [next, isSpace]
  have spaced {a : α} {more : List Char} (read : Value (item a ++ more) (json a) more) :
      Value (' ' :: (item a ++ more)) (json a) more :=
    (value_congr (gap _)).mpr read
  induction as generalizing lead with
  | nil => exact absurd rfl nonempty
  | cons a as ih =>
    obtain ⟨plainFirst, plain⟩ := List.forall_mem_cons.mp plain
    obtain ⟨readsFirst, reads⟩ := List.forall_mem_cons.mp reads
    cases as with
    | nil =>
      rw [List.map_singleton, List.intercalate_singleton, members_plain plainFirst (name a _)]
      exact ⟨json a, _, spaced (readsFirst _ (by simp [Stops])), .inr ⟨next_char (by decide), rfl⟩⟩
    | cons b as =>
      have joined : (',' :: space).intercalate ((a :: b :: as).map fun a => member (key a) (item a)) =
          member (key a) (item a) ++ (',' :: space) ++
            (',' :: space).intercalate ((b :: as).map fun a => member (key a) (item a)) :=
        List.intercalate_cons_cons ..
      rw [joined, List.append_assoc, List.append_assoc, members_plain plainFirst (name a _)]
      refine ⟨json a, _, spaced (readsFirst _ (by simp [Stops])), .inl ⟨_, _, next_char (by decide), ?_, rfl⟩⟩
      refine ih plain reads (List.cons_ne_nil b as) blank fun c more => ?_
      rw [next_space blank]
      simp [next, isSpace, member]

/-- A plain text in quotes is read as a string. -/
theorem value_quoted {s : List Char} (plain : ∀ c ∈ s, Plain c) :
    Value ('\x22' :: (s ++ ['\x22']) ++ rest) (.string s) rest := by
  rw [List.cons_append, List.append_assoc]
  exact (value_string (next_char (by decide))).mpr ⟨s, quoted_plain plain, rfl⟩

end Texts

end Json

end R2
