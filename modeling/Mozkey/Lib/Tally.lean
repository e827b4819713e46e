import Mozkey.Lib.SortedMap

/-!
# Tallies

A tally adds up values by key in an ordered map.  What an addition does to one
entry is said once; a tally of a list is then known by its entries: a key is present when an element of the list has it, with
the sum over the elements that have it.  So the order of the list does not matter,
and leaving out some keys of the list leaves out the same keys of the tally.
-/

namespace Mozkey.Lib.SortedMap

variable {κ α β : Type*} [LinearOrder κ]

/-! ## Maps as functions -/

theorem nodup_elements (m : SortedMap κ α) : m.elements.Nodup :=
  m.keys_nodup.of_map _

/-- Two maps with the same entries are equal. -/
theorem ext_find {m n : SortedMap κ α} (same : ∀ key, m.find key = n.find key) : m = n := by
  have members : ∀ e, e ∈ m.elements ↔ e ∈ n.elements := by
    rintro ⟨key, value⟩
    rw [← find_eq_some, ← find_eq_some, same key]
  have perm : m.elements.Perm n.elements :=
    (List.perm_ext_iff_of_nodup m.nodup_elements n.nodup_elements).2 members
  have equal : m.elements = n.elements := by
    apply perm.eq_of_pairwise _ m.sorted n.sorted
    intro a b _ _ below above
    exact absurd (below.trans above) (lt_irrefl _)
  cases m
  cases n
  simpa using equal

theorem find_assign (m : SortedMap κ α) (key : κ) (value : α) (k : κ) :
    (m.assign key value).find k = if k = key then some value else m.find k := by
  ext x
  rw [find_eq_some, mem_assign]
  by_cases same : k = key
  · simp [same, eq_comm]
  · simp [same, find_eq_some]

/-- The entries whose keys satisfy a test. -/
def filter (p : κ → Bool) (m : SortedMap κ α) : SortedMap κ α where
  elements := m.elements.filter (p ·.1)
  sorted := m.sorted.filter _

theorem find_filter (p : κ → Bool) (m : SortedMap κ α) (key : κ) :
    (m.filter p).find key = if p key then m.find key else none := by
  ext x
  rw [find_eq_some, filter, List.mem_filter]
  by_cases holds : p key = true
  · simp [holds, find_eq_some]
  · simp [holds]

@[simp] theorem find_empty (key : κ) : (empty : SortedMap κ α).find key = none := rfl

/-! ## Adding to an entry -/

section Sums

variable [AddCommMonoid α]

/-- `m[key] += x`: a missing entry counts as zero. -/
def add (m : SortedMap κ α) (key : κ) (x : α) : SortedMap κ α :=
  m.assign key ((m.find key).getD 0 + x)

/-- The sum over the entries whose keys satisfy a test. -/
def total (p : κ → Bool) (m : SortedMap κ α) : α :=
  ((m.elements.filter (p ·.1)).map Prod.snd).sum

theorem find_add (m : SortedMap κ α) (key : κ) (x : α) (k : κ) :
    (m.add key x).find k = if k = key then some ((m.find key).getD 0 + x) else m.find k :=
  find_assign _ _ _ _

/-! ## Tallies of lists -/

/-- Adds up the values of a list by key. -/
def tally (key : β → κ) (value : β → α) (xs : List β) : SortedMap κ α :=
  xs.foldl (fun m x => m.add (key x) (value x)) empty

variable (key : β → κ) (value : β → α)

/-- The sum over the elements with a key. -/
def sumAt (k : κ) (xs : List β) : α := ((xs.filter (key · = k)).map value).sum

theorem find_foldl_add (xs : List β) (m : SortedMap κ α) (k : κ) :
    (xs.foldl (fun m x => m.add (key x) (value x)) m).find k =
      if ∃ x ∈ xs, key x = k then some ((m.find k).getD 0 + sumAt key value k xs)
      else m.find k := by
  induction xs generalizing m with
  | nil => simp
  | cons x xs ih =>
      rw [List.foldl_cons, ih, find_add]
      by_cases here : key x = k
      · by_cases later : ∃ y ∈ xs, key y = k
        · simp [here, later, sumAt, add_assoc]
        · have none : xs.filter (key · = k) = [] := by
            simpa using later
          simp [here, sumAt, none]
      · simp [here, Ne.symm here, sumAt]

/-- **The entries of a tally.** -/
theorem find_tally (xs : List β) (k : κ) :
    (tally key value xs).find k =
      if ∃ x ∈ xs, key x = k then some (sumAt key value k xs) else none := by
  simp [tally, find_foldl_add]

theorem getD_find_tally (xs : List β) (k : κ) :
    ((tally key value xs).find k).getD 0 = sumAt key value k xs := by
  rw [find_tally]
  split
  · rfl
  · rename_i absent
    have none : xs.filter (key · = k) = [] := by simpa using absent
    simp [sumAt, none]

/-- The order of the list does not matter. -/
theorem tally_perm {xs ys : List β} (perm : xs.Perm ys) :
    tally key value xs = tally key value ys := by
  apply ext_find
  intro k
  have sums : sumAt key value k xs = sumAt key value k ys :=
    ((perm.filter _).map value).sum_eq
  simp [find_tally, sums, perm.mem_iff]

/-- Keys left out of the list are left out of the tally. -/
theorem tally_filter (p : κ → Bool) (xs : List β) :
    tally key value (xs.filter (p <| key ·)) = (tally key value xs).filter p := by
  apply ext_find
  intro k
  rw [find_filter, find_tally, find_tally]
  by_cases holds : p k = true
  · have sums : sumAt key value k (xs.filter (p <| key ·)) = sumAt key value k xs := by
      rw [sumAt, sumAt, List.filter_filter]
      congr 2
      apply List.filter_congr
      intro x _
      by_cases same : key x = k
      · simp [same, holds]
      · simp [same]
    have present : (∃ x ∈ xs.filter (p <| key ·), key x = k) ↔ ∃ x ∈ xs, key x = k := by
      constructor
      · rintro ⟨x, member, same⟩
        exact ⟨x, List.mem_of_mem_filter member, same⟩
      · rintro ⟨x, member, rfl⟩
        exact ⟨x, List.mem_filter.2 ⟨member, holds⟩, rfl⟩
    simp only [sums, present, holds, if_true]
  · have absent : ¬ ∃ x ∈ xs.filter (p <| key ·), key x = k := by
      rintro ⟨x, member, rfl⟩
      exact holds (List.mem_filter.1 member).2
    rw [if_neg absent, if_neg holds]

end Sums

end Mozkey.Lib.SortedMap
