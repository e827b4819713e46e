import Mathlib

/-!
# Maps in the order of their keys

An ordered map is the list of its elements by increasing key, as an iteration
over it sees them.  Assigning to a key replaces its value or adds the key; the
first element can be taken away.
-/

namespace Mozkey.Lib

/-- A map whose elements are listed by increasing key. -/
structure SortedMap (κ α : Type*) [LinearOrder κ] where
  elements : List (κ × α)
  sorted : elements.Pairwise fun a b => a.1 < b.1

namespace SortedMap

variable {κ α : Type*} [LinearOrder κ]

def empty : SortedMap κ α := ⟨[], List.Pairwise.nil⟩

def find (m : SortedMap κ α) (key : κ) : Option α :=
  (m.elements.find? fun e => e.1 = key).map Prod.snd

/-- `m[key] = value`. -/
def assign (m : SortedMap κ α) (key : κ) (value : α) : SortedMap κ α where
  elements := m.elements.filter (·.1 < key) ++ (key, value) :: m.elements.filter (key < ·.1)
  sorted := by
    rw [List.pairwise_append, List.pairwise_cons]
    refine ⟨m.sorted.filter _, ⟨?_, m.sorted.filter _⟩, ?_⟩
    · intro e member
      simpa using (List.mem_filter.1 member).2
    · intro a before b member
      have below : a.1 < key := by simpa using (List.mem_filter.1 before).2
      rcases List.mem_cons.1 member with rfl | after
      · exact below
      · exact below.trans (by simpa using (List.mem_filter.1 after).2)

def eraseFirst (m : SortedMap κ α) : SortedMap κ α :=
  ⟨m.elements.tail, m.sorted.tail⟩

def size (m : SortedMap κ α) : Nat := m.elements.length

/-- Changes the values of all elements. -/
def update (m : SortedMap κ α) (f : κ → α → α) : SortedMap κ α where
  elements := m.elements.map fun e => (e.1, f e.1 e.2)
  sorted := List.pairwise_map.2 m.sorted

theorem mem_of_find {m : SortedMap κ α} {key : κ} {value : α} (found : m.find key = some value) :
    (key, value) ∈ m.elements := by
  obtain ⟨e, here, rfl⟩ := Option.map_eq_some_iff.1 found
  have same := List.find?_some here
  simp only [decide_eq_true_eq] at same
  rw [← same]
  exact List.mem_of_find?_eq_some here

theorem find_eq_none {m : SortedMap κ α} {key : κ} :
    m.find key = none ↔ ∀ e ∈ m.elements, e.1 ≠ key := by
  simp [find]

theorem keys_nodup (m : SortedMap κ α) : (m.elements.map Prod.fst).Nodup :=
  (List.pairwise_map.2 m.sorted).imp ne_of_lt

theorem find_eq_some {m : SortedMap κ α} {key : κ} {value : α} :
    m.find key = some value ↔ (key, value) ∈ m.elements := by
  refine ⟨mem_of_find, fun member => ?_⟩
  cases found : m.find key with
  | none => exact absurd rfl (find_eq_none.1 found _ member)
  | some other =>
      have same := List.inj_on_of_nodup_map m.keys_nodup (mem_of_find found) member rfl
      rw [(Prod.mk.inj same).2]

theorem find_update (m : SortedMap κ α) (f : κ → α → α) (key : κ) :
    (m.update f).find key = (m.find key).map (f key) := by
  rw [find, find, update, List.find?_map, Option.map_map, Option.map_map]
  cases found : m.elements.find? fun e => e.1 = key with
  | none => exact congrArg _ found
  | some e =>
      have same := List.find?_some found
      simp only [decide_eq_true_eq] at same
      subst same
      exact congrArg _ found

/-- Assigning keeps the other elements. -/
theorem mem_assign {m : SortedMap κ α} {key : κ} {value : α} {e : κ × α} :
    e ∈ (m.assign key value).elements ↔ e = (key, value) ∨ (e ∈ m.elements ∧ e.1 ≠ key) := by
  unfold assign
  simp only [List.mem_append, List.mem_cons, List.mem_filter, decide_eq_true_eq]
  constructor
  · rintro (⟨member, below⟩ | rfl | ⟨member, above⟩)
    · exact .inr ⟨member, below.ne⟩
    · exact .inl rfl
    · exact .inr ⟨member, above.ne'⟩
  · rintro (rfl | ⟨member, differs⟩)
    · exact .inr (.inl rfl)
    · rcases lt_or_gt_of_ne differs with below | above
      · exact .inl ⟨member, below⟩
      · exact .inr (.inr ⟨member, above⟩)

theorem mem_of_mem_eraseFirst {m : SortedMap κ α} {e : κ × α}
    (member : e ∈ m.eraseFirst.elements) : e ∈ m.elements :=
  List.mem_of_mem_tail member

end SortedMap

end Mozkey.Lib
