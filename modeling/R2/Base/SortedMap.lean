import Mathlib.Data.List.Sort
import Mathlib.Tactic.Common

namespace R2

/-- A finite map kept as its entries in strictly increasing key order, so that
an unsorted or ambiguous map cannot be built. -/
@[ext] structure SortedMap (κ ν : Type*) [LinearOrder κ] where
  entries : List (κ × ν)
  sorted : (entries.map Prod.fst).Pairwise (· < ·)

namespace SortedMap

variable {κ ν : Type*} [LinearOrder κ] {m : SortedMap κ ν} {k : κ} {v : ν} {e : κ × ν}

def empty : SortedMap κ ν := ⟨[], .nil⟩

instance : EmptyCollection (SortedMap κ ν) := ⟨empty⟩

@[simp] theorem entries_empty : (∅ : SortedMap κ ν).entries = [] := rfl

theorem without_sorted (l : List (κ × ν)) (k : κ) (sorted : (l.map Prod.fst).Pairwise (· < ·)) :
    ((l.filter (fun e => e.1 ≠ k)).map Prod.fst).Pairwise (· < ·) :=
  sorted.sublist (List.filter_sublist.map _)

def erase (m : SortedMap κ ν) (k : κ) : SortedMap κ ν :=
  ⟨m.entries.filter (fun e => e.1 ≠ k), without_sorted _ _ m.sorted⟩

theorem mem_erase : e ∈ (m.erase k).entries ↔ e ∈ m.entries ∧ e.1 ≠ k := by
  simp [erase]

theorem orderedInsert_sorted (l : List (κ × ν)) (k : κ) (v : ν) (sorted : (l.map Prod.fst).Pairwise (· < ·))
    (absent : ∀ e ∈ l, e.1 ≠ k) :
    ((l.orderedInsert (fun a b => a.1 ≤ b.1) (k, v)).map Prod.fst).Pairwise (· < ·) := by
  rw [List.map_orderedInsert _ (· ≤ ·) Prod.fst l (k, v) (by intros; rfl) (by intros; rfl)]
  have ordered : ((l.map Prod.fst).orderedInsert (· ≤ ·) k).Pairwise (· ≤ ·) :=
    List.Pairwise.orderedInsert k _ (sorted.imp le_of_lt)
  have distinct : ((l.map Prod.fst).orderedInsert (· ≤ ·) k).Nodup := by
    rw [(List.perm_orderedInsert (· ≤ ·) k (l.map Prod.fst)).nodup_iff, List.nodup_cons]
    refine ⟨?_, sorted.imp ne_of_lt⟩
    rintro member
    obtain ⟨e, inList, same⟩ := List.mem_map.mp member
    exact absent e inList same
  exact (ordered.and distinct).imp fun both => lt_of_le_of_ne both.1 both.2

/-- Inserting under a key that is present replaces its value. -/
def insert (m : SortedMap κ ν) (k : κ) (v : ν) : SortedMap κ ν :=
  ⟨(m.erase k).entries.orderedInsert (fun a b => a.1 ≤ b.1) (k, v),
    orderedInsert_sorted _ k v (m.erase k).sorted (fun _ member => (mem_erase.mp member).2)⟩

theorem mem_insert : e ∈ (m.insert k v).entries ↔ e = (k, v) ∨ e ∈ m.entries ∧ e.1 ≠ k := by
  simp only [insert, List.mem_orderedInsert, mem_erase]

theorem length_insert (absent : ∀ e ∈ m.entries, e.1 ≠ k) :
    (m.insert k v).entries.length = m.entries.length + 1 := by
  have same : m.entries.filter (fun e => e.1 ≠ k) = m.entries :=
    List.filter_eq_self.mpr fun e member => by simpa using absent e member
  simp only [insert, List.orderedInsert_length, erase, same]

theorem nodup_entries : m.entries.Nodup :=
  List.Nodup.of_map _ (m.sorted.imp ne_of_lt)

theorem eq_of_key_eq {e e' : κ × ν} (left : e ∈ m.entries) (right : e' ∈ m.entries) (same : e.1 = e'.1) :
    e = e' :=
  List.inj_on_of_nodup_map (m.sorted.imp ne_of_lt) left right same

theorem length_erase (member : (k, v) ∈ m.entries) :
    (m.erase k).entries.length + 1 = m.entries.length := by
  have only : m.entries.filter (fun e => e.1 = k) = [(k, v)] := by
    have nodup := (nodup_entries (m := m)).filter (fun e => decide (e.1 = k))
    refine List.perm_singleton.mp ((List.perm_ext_iff_of_nodup nodup (List.nodup_singleton _)).mpr ?_)
    intro e
    simp only [List.mem_filter, decide_eq_true_eq, List.mem_singleton]
    constructor
    · rintro ⟨inside, same⟩
      exact eq_of_key_eq inside member same
    · rintro rfl
      exact ⟨member, rfl⟩
  have split := List.length_eq_length_filter_add (l := m.entries) (fun e => decide (e.1 = k))
  rw [only] at split
  simp only [erase, List.length_singleton] at split ⊢
  have flip : (m.entries.filter fun e => decide (e.1 ≠ k)) = m.entries.filter fun e => !decide (e.1 = k) := by
    congr 1
    funext e
    simp
  rw [flip]
  omega

def first? (m : SortedMap κ ν) : Option (κ × ν) := m.entries.head?

def last? (m : SortedMap κ ν) : Option (κ × ν) := m.entries.getLast?

theorem first?_eq_none : m.first? = none ↔ m.entries = [] := List.head?_eq_none_iff

theorem last?_eq_none : m.last? = none ↔ m.entries = [] := List.getLast?_eq_none_iff

theorem first?_mem (h : m.first? = some e) : e ∈ m.entries := List.mem_of_mem_head? h

theorem last?_mem (h : m.last? = some e) : e ∈ m.entries := List.mem_of_mem_getLast? h

theorem first?_le (h : m.first? = some e) {e' : κ × ν} (member : e' ∈ m.entries) : e.1 ≤ e'.1 := by
  obtain ⟨rest, shape⟩ := List.head?_eq_some_iff.mp h
  have sorted := m.sorted
  rw [shape, List.map_cons, List.pairwise_cons] at sorted
  rw [shape] at member
  rcases List.mem_cons.mp member with rfl | later
  · exact le_rfl
  · exact (sorted.1 _ (List.mem_map_of_mem later)).le

end SortedMap

end R2
