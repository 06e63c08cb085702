import R2.Log.Dump

namespace R2.Log

/-- A call and the index under which it was recorded. -/
structure Filing where
  call : Call
  index : Nat

/-- The table maps the index to a site with the text and the widths of `s`. -/
def Named (l : Logger) (s : Site) (n : Nat) : Prop :=
  ∃ t, l.hash n = some t ∧ t.format = s.format ∧ t.shown l.esz = s.shown l.esz

/-- What is in slot `e`: nothing yet, or the record of a call. -/
def Holds (l : Logger) (e : Nat) : Option Filing → Prop
  | none => window l.mem (e * l.esz) (e * l.esz + 4) = toLe 4 0
  | some f => Named l f.call.site f.index ∧
      window l.mem (e * l.esz) (e * l.esz + (f.call.written l.esz f.index).length) = f.call.written l.esz f.index

/-- A logger after the calls of `filings`. -/
structure Good (l : Logger) (statics : Statics) (filings : List Filing) : Prop where
  esz : 12 ≤ l.esz
  cells : 0 < l.emax
  stop : l.stop = 0
  count : l.enext = filings.length
  length : l.mem.length = l.esz * l.emax
  index : 1 ≤ l.index
  few : l.index ≤ 2 ^ 32
  sized : ∀ s, (statics s).Sized s
  hashed : ∀ n t, l.hash n = some t → n ≠ 0 ∧ n < l.index ∧ (statics t).inited ≠ 0
  ring : Ring l.emax filings (Holds l)

/-- An index by which a call at `s` on `l` may go: none yet, where `l` hands one out that has room in
a record, or one that `l` maps to a site with the same text and the same widths. -/
def Resolves (l : Logger) (s : Site) (n : Nat) : Prop := (n = 0 ∧ l.index < 2 ^ 32) ∨ Named l s n

section Step

variable {l l' : Logger} {statics statics' : Statics} {filings : List Filing} {c : Call} {n : Nat} {quiet : Prop}
  {found : Nat → Prop}

/-- The slots of a new logger are empty. -/
theorem new_blank {esz emax e : Nat} (run : Logger.new esz emax = .ok l) (size : 4 ≤ esz) (inside : e < emax) :
    e * l.esz + 4 ≤ l.mem.length ∧ window l.mem (e * l.esz) (e * l.esz + 4) = toLe 4 0 := by
  obtain ⟨shmSz, product, run⟩ := Except.bind_ok_iff.mp run
  obtain ⟨_, rfl⟩ := mul64_ok.mp product
  cases run
  have slot : (e + 1) * esz ≤ emax * esz := Nat.mul_le_mul_right _ inside
  rw [Nat.succ_mul, Nat.mul_comm emax] at slot
  dsimp only
  rw [List.length_replicate, window, List.take_replicate, List.drop_replicate, Nat.min_eq_left (by omega),
    Nat.add_sub_cancel_left]
  exact ⟨by omega, rfl⟩

theorem new_good {esz emax : Nat} (run : Logger.new esz emax = .ok l) (size : 12 ≤ esz) (cells : 0 < emax) :
    Good l Entry.new [] := by
  have blank := fun e inside => (@new_blank l esz emax e run (by omega) inside).2
  obtain ⟨shmSz, product, run⟩ := Except.bind_ok_iff.mp run
  obtain ⟨_, rfl⟩ := mul64_ok.mp product
  cases run
  exact ⟨size, cells, rfl, rfl, List.length_replicate, Nat.le_refl 1, Nat.one_le_two_pow, Entry.new_sized, nofun,
    Ring.empty blank⟩

/-- A logger stays good while others log. -/
theorem Good.grow (good : Good l statics filings) (grew : Grows statics statics') : Good l statics' filings :=
  { good with
    sized := fun s => (grew s).sized (good.sized s)
    hashed := fun n t found => by
      obtain ⟨some, below, inited⟩ := good.hashed n t found
      exact ⟨some, below, (grew t).inited inited⟩ }

/-- What is known of the index that a call found. -/
theorem Files.answer {found' : Nat → Prop} (files : Files quiet found l statics c n l' statics')
    (known : ∀ m, found m → (quiet → (statics c.site).index = m) → found' m) :
    Files quiet found' l statics c n l' statics' :=
  { files with
    names := files.names.imp (fun ⟨answer, rest⟩ => ⟨known n answer rest.2.2.2, rest⟩)
      fun ⟨answer, rest⟩ => ⟨known 0 answer rest.2.2.2, rest⟩ }

/-- What the table of a logger maps it still maps after a call. -/
theorem Files.keep (files : Files quiet found l statics c n l' statics') (good : Good l statics filings) {m : Nat}
    {t : Site} (old : l.hash m = some t) : l'.hash m = some t := by
  rcases files.names with ⟨_, _, _, hash, _⟩ | ⟨_, rfl, _, hash, _⟩
  · rw [hash, old]
  · have less := (good.hashed m t old).2.1
    rw [hash, Function.update_of_ne (Nat.ne_of_lt less)]
    exact old

/-- The index under which a call is recorded fits, and the table of its logger has it. -/
theorem Files.named (files : Files quiet found l statics c n l' statics') (good : Good l statics filings)
    (resolves : ∀ m, found m → Resolves l c.site m) : n ≠ 0 ∧ n < 2 ^ 32 ∧ n < l'.index ∧ l'.index ≤ 2 ^ 32 ∧
      Named l' c.site n := by
  have index := good.index
  have few := good.few
  rcases files.names with ⟨answer, positive, same, _, _⟩ | ⟨answer, rfl, next, hash, _⟩
  · rcases resolves n answer with ⟨zero, _⟩ | ⟨t, old, format, shown⟩
    · exact absurd zero positive
    · have less := (good.hashed n t old).2.1
      exact ⟨positive, by omega, by omega, by omega, t, files.keep good old, format, files.esz.symm ▸ shown⟩
  · rcases resolves 0 answer with ⟨_, below⟩ | ⟨t, old, _⟩
    · exact ⟨by omega, by omega, by omega, by omega, c.site, by rw [hash, Function.update_self], rfl, rfl⟩
    · exact absurd rfl (good.hashed 0 t old).1

/-- A record in another slot is still there. -/
theorem Files.others (files : Files quiet found l statics c n l' statics') (good : Good l statics filings) {j : Nat}
    (other : j ≠ filings.length % l.emax) {cell : Option Filing} (holds : Holds l j cell) : Holds l' j cell := by
  have slot := files.slot
  have apart : ∀ len ≤ l.esz, window l'.mem (j * l.esz) (j * l.esz + len) =
      window l.mem (j * l.esz) (j * l.esz + len) := by
    intro len short
    refine slot.others _ _ ?_
    rw [good.count, Nat.mul_comm l.esz]
    rcases Nat.lt_or_gt_of_ne other with before | after
    · have gap := Nat.mul_le_mul_right l.esz (show j + 1 ≤ filings.length % l.emax from before)
      rw [Nat.succ_mul] at gap
      omega
    · have gap := Nat.mul_le_mul_right l.esz (show filings.length % l.emax + 1 ≤ j from after)
      rw [Nat.succ_mul] at gap
      omega
  cases cell with
  | none =>
    change window l'.mem (j * l'.esz) (j * l'.esz + 4) = _
    rw [files.esz, apart 4 (Nat.le_trans (by decide) good.esz)]
    exact holds
  | some f =>
    obtain ⟨⟨t, old, format, shown⟩, written⟩ := holds
    refine ⟨⟨t, files.keep good old, format, files.esz.symm ▸ shown⟩, ?_⟩
    rw [files.esz, apart _ (f.call.written_length_le good.esz f.index)]
    exact written

/-- A call that resolves adds its record to the ring. -/
theorem Good.log (good : Good l statics filings) (files : Files quiet found l statics c n l' statics')
    (resolves : ∀ m, found m → Resolves l c.site m) : Good l' statics' (filings ++ [⟨c, n⟩]) := by
  obtain ⟨positive, below, inside, few, named⟩ := files.named good resolves
  have count := good.count
  have index := good.index
  have slot := files.slot
  rw [Nat.mod_eq_of_lt below] at slot
  refine ⟨?_, ?_, ?_, ?_, ?_, ?_, few, fun s => (files.grew s).sized (good.sized s), fun m s found => ?_, ?_⟩
  · rw [files.esz]
    exact good.esz
  · rw [files.emax]
    exact good.cells
  · rw [files.stop, good.stop]
  · rw [files.enext, good.count, List.length_append, List.length_singleton]
  · rw [slot.length, files.esz, files.emax, good.length]
  · omega
  · rcases files.names with ⟨_, _, same, hash, _⟩ | ⟨_, rfl, next, hash, _⟩
    · rw [hash] at found
      obtain ⟨some, less, inited⟩ := good.hashed m s found
      exact ⟨some, same ▸ less, (files.grew s).inited inited⟩
    · rw [hash] at found
      by_cases here : m = l.index
      · subst here
        rw [Function.update_self] at found
        cases found
        exact ⟨positive, inside, files.inited⟩
      · rw [Function.update_of_ne here] at found
        obtain ⟨some, less, inited⟩ := good.hashed m s found
        exact ⟨some, by omega, (files.grew s).inited inited⟩
  · rw [files.emax]
    refine good.ring.push ⟨named, ?_⟩ fun j _ other _ holds => files.others good other holds
    rw [files.esz, ← count, Nat.mul_comm]
    exact slot.front

/-- The record that a call leaves. -/
def Filing.serial (esz : Nat) (f : Filing) : Serial :=
  ⟨f.index, f.call.site.format, f.call.now, (f.call.shown esz).map Arg.val⟩

/-- A good logger is dumped as the records of its last calls, as far as the file takes them. -/
theorem Good.serializeTo (good : Good l statics filings) (write : String → String → Except String Unit) :
    l.serializeTo statics write = .ok (putAll write "" (texts
      ((filings.drop (filings.length - l.emax)).map (Filing.serial l.esz)))) := by
  refine serialize_ring good.cells good.count good.ring fun e inside cell holds => ?_
  have slot : e * l.esz + l.esz ≤ l.mem.length := by
    rw [good.length, Nat.mul_comm l.esz, ← Nat.succ_mul]
    exact Nat.mul_le_mul_right _ inside
  have size := good.esz
  have few := good.few
  cases cell with
  | none => exact record_none (by omega) holds
  | some f =>
    obtain ⟨⟨t, old, format, shown⟩, written⟩ := holds
    obtain ⟨positive, below, inited⟩ := good.hashed _ _ old
    exact record_some size slot positive (by omega) old (good.sized t) inited format shown written

theorem Good.serialize (good : Good l statics filings) : l.serialize statics =
    .ok (document ((filings.drop (filings.length - l.emax)).map (Filing.serial l.esz))) :=
  serialize_whole (good.serializeTo fun _ _ => .ok ())

end Step

end R2.Log
