import R2.Log.Record

namespace R2.Log

/-- An entry of the site `s` whose sizes may be stored only in part. -/
structure Entry.Sized (e : Entry) (s : Site) : Prop where
  format : e.format = s.format
  sizes : ∀ k, e.sizes[k]? = (sizesOf s.widths)[k]? ∨ k < maxDebugs ∧ e.sizes[k]? = some 0
  inited : e.inited ≠ 0 → e.sizes = sizesOf s.widths

/-- What any thread may do to an entry: sizes are added, each the right one. -/
structure Entry.Grows (e e' : Entry) (s : Site) : Prop where
  sized : e.Sized s → e'.Sized s
  inited : e.inited ≠ 0 → e'.inited ≠ 0
  kept : ∀ k : Nat, e.sizes[k]? = (sizesOf s.widths)[k]? → e'.sizes[k]? = (sizesOf s.widths)[k]?

def Grows (statics statics' : Statics) : Prop := ∀ s, (statics s).Grows (statics' s) s

/-- The sizes of the first `k` values are stored, or those of all. -/
def Entry.Upto (e : Entry) (s : Site) (k : Nat) : Prop :=
  e.inited ≠ 0 ∨ ∀ j < k, e.sizes[j]? = (sizesOf s.widths)[j]?

theorem Entry.Grows.refl (e : Entry) (s : Site) : e.Grows e s := ⟨id, id, fun _ => id⟩

theorem Grows.refl (statics : Statics) : Grows statics statics := fun s => Entry.Grows.refl (statics s) s

theorem Grows.trans {a b c : Statics} (first : Grows a b) (second : Grows b c) : Grows a c := fun s =>
  ⟨(second s).sized ∘ (first s).sized, (second s).inited ∘ (first s).inited,
    fun k => (second s).kept k ∘ (first s).kept k⟩

theorem Entry.Upto.grow {e e' : Entry} {s : Site} {k : Nat} (upto : e.Upto s k) (grows : e.Grows e' s) :
    e'.Upto s k := by
  rcases upto with all | first
  · exact Or.inl (grows.inited all)
  · exact Or.inr fun j below => grows.kept j (first j below)

theorem Entry.new_sized (s : Site) : (Entry.new s).Sized s where
  format := rfl
  sizes k := by
    rw [sizesOf_getElem?, Entry.new, List.getElem?_replicate]
    by_cases below : k < maxDebugs
    · exact Or.inr ⟨below, if_pos below⟩
    · exact Or.inl (by rw [if_neg below, if_neg below])
  inited filled := absurd rfl filled

section Stores

variable {e : Entry} {s : Site} {k : Nat}

/-- The index of an entry has no part in its sizes. -/
theorem Entry.storeIndex_grows (e : Entry) (s : Site) (val : Nat) : e.Grows { e with index := val } s :=
  ⟨fun sized => ⟨sized.format, sized.sizes, sized.inited⟩, id, fun _ => id⟩

theorem Entry.storeSize_right {w : Width} (width : s.widths[k]? = some w) (sized : e.Sized s) (below : k < maxDebugs)
    (j : Nat) : (e.sizes.set k (w.bytes % 2 ^ 8))[j]? = if j = k then (sizesOf s.widths)[k]? else e.sizes[j]? := by
  have small : w.bytes % 2 ^ 8 = w.bytes := by cases w <;> rfl
  have inside : k < e.sizes.length := by
    have known : e.sizes[k]? ≠ none := by
      rcases sized.sizes k with right | ⟨_, zero⟩
      · rw [right, sizesOf_getElem?, if_pos below]
        exact Option.some_ne_none _
      · rw [zero]
        exact Option.some_ne_none _
    exact Nat.lt_of_not_le fun out => known (List.getElem?_eq_none out)
  rw [List.getElem?_set, small]
  by_cases same : j = k
  · rw [if_pos same.symm, if_pos inside, if_pos same, sizesOf_getElem?, if_pos below, width]
    rfl
  · rw [if_neg (Ne.symm same), if_neg same]

theorem Entry.storeSize_grows {w : Width} (width : s.widths[k]? = some w) (sized : e.Sized s)
    (below : k < maxDebugs) : e.Grows { e with sizes := e.sizes.set k (w.bytes % 2 ^ 8) } s := by
  have right := Entry.storeSize_right width sized below
  have kept (j : Nat) (old : e.sizes[j]? = (sizesOf s.widths)[j]?) :
      (e.sizes.set k (w.bytes % 2 ^ 8))[j]? = (sizesOf s.widths)[j]? := by
    rw [right]
    split
    · rename_i same
      rw [same]
    · exact old
  refine ⟨fun _ => ⟨sized.format, fun j => ?_, fun filled => ?_⟩, id, kept⟩
  · rcases sized.sizes j with old | ⟨under, zero⟩
    · exact Or.inl (kept j old)
    · by_cases same : j = k
      · exact Or.inl (by rw [right, if_pos same, same])
      · exact Or.inr ⟨under, by rw [right, if_neg same, zero]⟩
  · exact List.ext_getElem? fun j => kept j (by rw [sized.inited filled])

theorem Entry.storeSize_upto {w : Width} (width : s.widths[k]? = some w) (sized : e.Sized s) (below : k < maxDebugs)
    (upto : e.Upto s k) : ({ e with sizes := e.sizes.set k (w.bytes % 2 ^ 8) } : Entry).Upto s (k + 1) := by
  rcases upto with all | first
  · exact Or.inl all
  · refine Or.inr fun j before => ?_
    rw [Entry.storeSize_right width sized below]
    split
    · rename_i same
      rw [same]
    · exact first j (by omega)

/-- Only the sizes of the first values are stored. -/
theorem Entry.Upto.beyond (upto : e.Upto s k) (sized : e.Sized s) (past : maxDebugs ≤ k) : e.Upto s (k + 1) := by
  rcases upto with all | first
  · exact Or.inl all
  · refine Or.inr fun j before => ?_
    rcases sized.sizes j with right | ⟨below, _⟩
    · exact right
    · exact first j (by omega)

/-- All sizes are stored once those of the values are. -/
theorem Entry.Upto.all (upto : e.Upto s s.widths.length) (sized : e.Sized s) : e.sizes = sizesOf s.widths := by
  rcases upto with all | first
  · exact sized.inited all
  · refine List.ext_getElem? fun j => ?_
    rcases sized.sizes j with right | ⟨below, zero⟩
    · exact right
    · by_cases inside : j < s.widths.length
      · exact first j inside
      · rw [zero, sizesOf_getElem?, if_pos below, List.getElem?_eq_none (Nat.le_of_not_lt inside)]
        rfl

theorem Entry.storeInited_grows (upto : e.Upto s s.widths.length) (sized : e.Sized s) :
    e.Grows { e with inited := 1 } s :=
  ⟨fun _ => ⟨sized.format, sized.sizes, fun _ => upto.all sized⟩, fun _ => Nat.one_ne_zero, fun _ => id⟩

theorem Grows.update {statics : Statics} {s : Site} {e : Entry} (grows : (statics s).Grows e s) :
    Grows statics (Function.update statics s e) := by
  intro t
  by_cases same : t = s
  · subst same
    rw [Function.update_self]
    exact grows
  · rw [Function.update_of_ne same]
    exact Entry.Grows.refl (statics t) t

end Stores

/-- How a thread logs beside others: these change entries by `rely`, not at all when it is
`quiet`, and it changes them itself by `guar`. -/
structure Manners (quiet : Prop) (rely guar : Statics → Statics → Prop) : Prop where
  refl : ∀ statics, rely statics statics
  others : ∀ statics statics', rely statics statics' → Grows statics statics'
  alone : quiet → ∀ statics statics', rely statics statics' → statics' = statics
  own : ∀ statics statics', Grows statics statics' → guar statics statics'

theorem Manners.shared : Manners False Grows Grows :=
  ⟨Grows.refl, fun _ _ => id, fun quiet => quiet.elim, fun _ _ => id⟩

theorem Manners.single : Manners True (fun statics statics' => statics' = statics) fun _ _ => True :=
  ⟨fun _ => rfl, fun statics _ same => same ▸ Grows.refl statics, fun _ _ _ => id, fun _ _ _ => trivial⟩

/-- A thread has stored the sizes of the first `k` values of a call at `s`, which began with
`start`; the indices are known if it is quiet. -/
structure Midway (quiet : Prop) (start : Statics) (indices : Site → Nat) (s : Site) (k : Nat) (statics : Statics) :
    Prop where
  grew : Grows start statics
  upto : (statics s).Upto s k
  indices : quiet → ∀ t, (statics t).index = indices t

section Note

variable {quiet : Prop} {rely guar : Statics → Statics → Prop} {need : Access → Statics → Prop} {allowed : Fault → Prop}
  {start statics statics' : Statics} {indices : Site → Nat} {s : Site} {k last : Nat}

theorem Midway.wait (manners : Manners quiet rely guar) (midway : Midway quiet start indices s k statics)
    (others : rely statics statics') : Midway quiet start indices s k statics' where
  grew := midway.grew.trans (manners.others _ _ others)
  upto := midway.upto.grow (manners.others _ _ others s)
  indices silent := manners.alone silent _ _ others ▸ midway.indices silent

theorem Midway.store {e : Entry} {k' : Nat} (midway : Midway quiet start indices s k statics)
    (grows : (statics s).Grows e s) (index : e.index = (statics s).index) (upto : e.Upto s k') :
    Midway quiet start indices s k' (Function.update statics s e) where
  grew := midway.grew.trans (Grows.update grows)
  upto := by
    rw [Function.update_self]
    exact upto
  indices silent t := by
    by_cases same : t = s
    · subst same
      rw [Function.update_self, index]
      exact midway.indices silent t
    · rw [Function.update_of_ne same]
      exact midway.indices silent t

theorem storeSize_safe (manners : Manners quiet rely guar) {w : Width} (width : s.widths[k]? = some w)
    (sized : ∀ t, (start t).Sized t) (midway : Midway quiet start indices s k statics) :
    (Logger.storeSize s k w.bytes).Safe Access.perform rely guar need allowed
      (fun _ => Midway quiet start indices s (k + 1)) statics := by
  unfold Logger.storeSize
  split
  · rename_i below
    intro st others _
    have midway := midway.wait manners others
    have sized := (midway.grew s).sized (sized s)
    have grows := Entry.storeSize_grows width sized below
    refine ⟨manners.own _ _ (Grows.update grows), fun st' more => ?_⟩
    exact (midway.store grows rfl (Entry.storeSize_upto width sized below midway.upto)).wait manners more
  · rename_i above
    intro st others
    have midway := midway.wait manners others
    exact { midway with upto := midway.upto.beyond ((midway.grew s).sized (sized s)) (Nat.le_of_not_lt above) }

theorem storeInited_safe (manners : Manners quiet rely guar) (closes : last = 1 → s.widths.length = k)
    (sized : ∀ t, (start t).Sized t) (midway : Midway quiet start indices s k statics) :
    (Logger.storeInited s last).Safe Access.perform rely guar need allowed
      (fun _ statics => Midway quiet start indices s k statics ∧ (last = 1 → (statics s).inited ≠ 0)) statics := by
  unfold Logger.storeInited
  split
  · rename_i final
    intro st others _
    have midway := midway.wait manners others
    have grows := Entry.storeInited_grows (closes final ▸ midway.upto) ((midway.grew s).sized (sized s))
    refine ⟨manners.own _ _ (Grows.update grows), fun st' more => ?_⟩
    have closed := midway.store grows rfl (Or.inl Nat.one_ne_zero : Entry.Upto _ s k)
    refine ⟨closed.wait manners more, fun _ => (manners.others _ _ more s).inited ?_⟩
    change (Function.update st s _ s).inited ≠ 0
    rw [Function.update_self]
    exact Nat.one_ne_zero
  · rename_i early
    intro st others
    exact ⟨midway.wait manners others, fun one => absurd one early⟩

/-- A value is noted, by this thread or by another that was faster. -/
theorem note_safe (manners : Manners quiet rely guar) {w : Width} (width : s.widths[k]? = some w)
    (closes : last = 1 → s.widths.length = k + 1) (sized : ∀ t, (start t).Sized t)
    (midway : Midway quiet start indices s k statics) :
    (Logger.note s w.bytes k last).Safe Access.perform rely guar need allowed
      (fun _ statics => Midway quiet start indices s (k + 1) statics ∧ (last = 1 → (statics s).inited ≠ 0))
      statics := by
  unfold Logger.note
  have loaded : (atomic (.loadInited s)).Safe Access.perform rely guar need allowed
      (fun inited statics => Midway quiet start indices s k statics ∧ (inited ≠ 0 → (statics s).inited ≠ 0))
      statics := by
    intro st others _
    refine ⟨manners.own _ _ (Grows.refl _), fun st' more => ?_⟩
    exact ⟨(midway.wait manners others).wait manners more, (manners.others _ _ more s).inited⟩
  refine loaded.bind manners.refl fun inited statics ⟨midway, read⟩ => ?_
  split
  · exact (storeSize_safe manners width sized midway).bind manners.refl fun _ _ midway =>
      storeInited_safe manners closes sized midway
  · rename_i filled
    intro st others
    have inited := (manners.others _ _ others s).inited (read filled)
    exact ⟨{ midway.wait manners others with upto := Or.inl inited }, fun _ => inited⟩

end Note

end R2.Log
