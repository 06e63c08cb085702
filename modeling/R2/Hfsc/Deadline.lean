import R2.Hfsc.Wiring

namespace R2.Hfsc

/-- `e` is the entry of a backlogged real-time class. -/
def Scheduled (h : Hfsc) (e : Key × Nat) : Prop :=
  ∃ c, h.classes[e.2]? = some c ∧ c.rIsc.isSome ∧ c.packets ≠ [] ∧ e.1 = ⟨c.eligible, e.2⟩

/-- The eligible map lists exactly the backlogged real-time classes under
their current eligible times. -/
def Indexed (h : Hfsc) : Prop := ∀ e, e ∈ h.eligible.entries ↔ Scheduled h e

/-- `c` may be served in real time at `t`. -/
def Due (h : Hfsc) (t j : Nat) (c : Class) : Prop :=
  h.classes[j]? = some c ∧ c.rIsc.isSome ∧ c.packets ≠ [] ∧ c.eligible ≤ t ∧ c.deadline < htInfinity

/-- `j` comes first by `(deadline, eligible, index)` among the classes due at
`t`. -/
def MostUrgent (h : Hfsc) (t j : Nat) : Prop :=
  ∃ c, Due h t j c ∧ ∀ k d, Due h t k d →
    c.deadline < d.deadline ∨ c.deadline = d.deadline ∧ (⟨c.eligible, j⟩ : Key) ≤ ⟨d.eligible, k⟩

variable {h : Hfsc}

/-- The walk keeps the first entry of least deadline, since a later one
replaces it only when its deadline is strictly less. -/
theorem getMinDLoop_spec {t : Nat} {l : List (Key × Nat)} (sorted : (l.map Prod.fst).Pairwise (· < ·))
    (listed : ∀ e ∈ l, ∃ c, h.classes[e.2]? = some c ∧ e.1 = ⟨c.eligible, e.2⟩) (best deadline : Nat) :
    NoPanic (getMinDLoop h t l best deadline) (fun r =>
      (r = best ∧ ∀ e ∈ l, ∀ d, h.classes[e.2]? = some d → d.eligible ≤ t → deadline ≤ d.deadline) ∨
      ∃ k c, (k, r) ∈ l ∧ h.classes[r]? = some c ∧ c.eligible ≤ t ∧ c.deadline < deadline ∧
        ∀ e ∈ l, ∀ d, h.classes[e.2]? = some d → d.eligible ≤ t →
          c.deadline < d.deadline ∨ c.deadline = d.deadline ∧ k ≤ e.1) := by
  induction l generalizing best deadline with
  | nil => exact Or.inl ⟨rfl, fun e member => absurd member (List.not_mem_nil)⟩
  | cons e rest ih =>
    obtain ⟨key, child⟩ := e
    obtain ⟨c, atC, keyEq⟩ := listed _ (List.mem_cons_self ..)
    have atChild : h.classes[child]? = some c := atC
    rw [List.map_cons, List.pairwise_cons] at sorted
    have later : ∀ e ∈ rest, key < e.1 := fun e member => sorted.1 _ (List.mem_map_of_mem member)
    unfold getMinDLoop
    rw [classAt_eq atChild, Except.ok_bind]
    have rest_spec := ih sorted.2 (fun e member => listed e (List.mem_cons_of_mem _ member))
    refine Ensures.ite (fun early => ?_) fun ready => Ensures.ite (fun sooner => ?_) fun notSooner => ?_
    · -- the entries come in order of eligible time, so no later one is ready
      refine Or.inl ⟨rfl, fun e member d atD isReady => ?_⟩
      rcases List.mem_cons.mp member with rfl | inRest
      · rw [atC] at atD
        cases atD
        omega
      · obtain ⟨d', atD', keyEq'⟩ := listed e member
        rw [atD] at atD'
        cases atD'
        have order : (⟨c.eligible, child⟩ : Key) < ⟨d.eligible, e.2⟩ := by
          rw [← keyEq', ← (keyEq : key = _)]
          exact later e inRest
        have times := Key.lt_iff.mp order
        simp only at times
        omega
    · refine (rest_spec child c.deadline).mono fun r result => Or.inr ?_
      rcases result with ⟨rfl, none⟩ | ⟨k, d, inRest, atR, isReady, less, least⟩
      · refine ⟨key, c, List.mem_cons_self .., atChild, by omega, sooner, fun e member d atD isReady => ?_⟩
        rcases List.mem_cons.mp member with rfl | inRest
        · rw [atC] at atD
          cases atD
          exact Or.inr ⟨rfl, le_rfl⟩
        · have bound := none e inRest d atD isReady
          rcases Nat.lt_or_eq_of_le bound with less | same
          · exact Or.inl less
          · exact Or.inr ⟨same, (later e inRest).le⟩
      · refine ⟨k, d, List.mem_cons_of_mem _ inRest, atR, isReady, by omega, fun e member d' atD' isReady' => ?_⟩
        rcases List.mem_cons.mp member with rfl | inRest'
        · rw [atC] at atD'
          cases atD'
          exact Or.inl less
        · exact least e inRest' d' atD' isReady'
    · refine (rest_spec best deadline).mono fun r result => ?_
      rcases result with ⟨rfl, none⟩ | ⟨k, d, inRest, atR, isReady, less, least⟩
      · refine Or.inl ⟨rfl, fun e member d atD isReady => ?_⟩
        rcases List.mem_cons.mp member with rfl | inRest
        · rw [atC] at atD
          cases atD
          omega
        · exact none e inRest d atD isReady
      · refine Or.inr ⟨k, d, List.mem_cons_of_mem _ inRest, atR, isReady, less, fun e member d' atD' isReady' => ?_⟩
        rcases List.mem_cons.mp member with rfl | inRest'
        · rw [atC] at atD'
          cases atD'
          exact Or.inl (by omega)
        · exact least e inRest' d' atD' isReady'

theorem getMinD_spec (tree : Tree h) (indexed : Indexed h) (t : Nat) :
    NoPanic (getMinD h t) (fun r => (r = 0 ∧ ∀ j c, ¬ Due h t j c) ∨ (r ≠ 0 ∧ MostUrgent h t r)) := by
  have listed : ∀ e ∈ h.eligible.entries, ∃ c, h.classes[e.2]? = some c ∧ e.1 = ⟨c.eligible, e.2⟩ := by
    intro e member
    obtain ⟨c, atC, _, _, key⟩ := (indexed e).mp member
    exact ⟨c, atC, key⟩
  have entry {j : Nat} {c : Class} (due : Due h t j c) : ((⟨c.eligible, j⟩ : Key), j) ∈ h.eligible.entries :=
    (indexed _).mpr ⟨c, due.1, due.2.1, due.2.2.1, rfl⟩
  refine (getMinDLoop_spec h.eligible.sorted listed 0 htInfinity).mono fun r result => ?_
  rcases result with ⟨rfl, none⟩ | ⟨k, c, member, atR, isReady, less, least⟩
  · refine Or.inl ⟨rfl, fun j c due => ?_⟩
    have bound := none _ (entry due) c due.1 due.2.2.2.1
    exact absurd due.2.2.2.2 (by omega)
  · obtain ⟨d, atD, realtime, backlogged, key⟩ := (indexed _).mp member
    dsimp only at atD key
    rw [atR] at atD
    cases atD
    refine Or.inr ⟨?_, c, ⟨atR, realtime, backlogged, isReady, less⟩, fun j d due => ?_⟩
    · rintro rfl
      obtain ⟨dummy, atDummy, _, _, _, curve⟩ := tree.dummy
      rw [atR] at atDummy
      cases atDummy
      rw [curve] at realtime
      cases realtime
    · rw [← key]
      exact least _ (entry due) d due.1 due.2.2.2.1

end R2.Hfsc
