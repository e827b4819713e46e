import Mozkey.Lib.Best

/-!
# Sorted ranges

A library that sorts leaves open how it orders elements neither of which comes before the other.
`SortFunction` is any function that sorts by every comparator which compares ranks.

In a range that is sorted by a key, the duplicates of a key stand together.  Removing adjacent
duplicates keeps the first element of each key, and a binary search finds the elements of a key.
An iterator is the part of the list that it points to, so that a range is given by two such parts.
-/

namespace Mozkey.Lib

variable {α κ ρ : Type}

/-! ## Sorting -/

/-- A function that sorts, in any order where the comparator leaves it open. -/
structure SortFunction (α : Type) where
  sort : (α → α → Bool) → List α → List α
  perm : ∀ better xs, (sort better xs).Perm xs
  sorted : ∀ {ρ : Type} [LinearOrder ρ] {better : α → α → Bool} {rank : α → ρ},
    (∀ a b, better a b = true ↔ rank a < rank b) →
      ∀ xs, (sort better xs).Pairwise fun a b => rank a ≤ rank b

/-- Sorting that is stable. -/
def stableSort (α : Type) : SortFunction α where
  sort := sortBy
  perm := sortBy_perm
  sorted := sortBy_sorted

/-- Where no two elements have the same rank, sorting is determined. -/
theorem SortFunction.sort_eq [LinearOrder ρ] (order : SortFunction α) {better : α → α → Bool}
    {rank : α → ρ} (ranked : ∀ a b, better a b = true ↔ rank a < rank b) {xs ys : List α}
    (distinct : (xs.map rank).Nodup) (perm : ys.Perm xs) : order.sort better ys = sortBy better xs :=
  eq_sortBy ranked distinct ((order.perm better ys).trans perm) (order.sorted ranked ys)

/-! ## Adjacent duplicates -/

section Destutter

variable [DecidableEq κ] {key : α → κ}

/-- Every key is kept. -/
theorem exists_mem_destutter' (x a : α) (xs : List α) (member : x ∈ a :: xs) :
    ∃ y ∈ xs.destutter' (fun a b => key a ≠ key b) a, key y = key x := by
  induction xs generalizing a with
  | nil => exact ⟨x, by simpa using member, rfl⟩
  | cons b xs ih =>
      by_cases same : key a = key b
      · rw [List.destutter'_cons_neg _ (not_not_intro same)]
        rcases List.mem_cons.1 member with rfl | later
        · exact ⟨x, List.mem_destutter' _ _ _, rfl⟩
        · rcases List.mem_cons.1 later with rfl | later
          · exact ⟨a, List.mem_destutter' _ _ _, same⟩
          · exact ih a (List.mem_cons_of_mem _ later)
      · rw [List.destutter'_cons_pos _ same]
        rcases List.mem_cons.1 member with rfl | later
        · exact ⟨x, List.mem_cons_self .., rfl⟩
        · obtain ⟨y, kept, equal⟩ := ih b later
          exact ⟨y, List.mem_cons_of_mem _ kept, equal⟩

theorem exists_mem_destutter {x : α} {xs : List α} (member : x ∈ xs) :
    ∃ y ∈ xs.destutter (fun a b => key a ≠ key b), key y = key x := by
  cases xs with
  | nil => cases member
  | cons a xs => exact exists_mem_destutter' x a xs member

end Destutter

section Sorted

variable [LinearOrder κ] [DecidableEq κ] [LinearOrder ρ] {key : α → κ} {rank : α → ρ}

omit [LinearOrder ρ] in
/-- The first element of a key is kept. -/
theorem head_filter_destutter' (a : α) (xs : List α)
    (sorted : (a :: xs).Pairwise fun a b => key a ≤ key b) {y : α}
    (kept : y ∈ xs.destutter' (fun a b => key a ≠ key b) a) :
    ((a :: xs).filter fun x => key x = key y).head? = some y := by
  induction xs generalizing a with
  | nil =>
      rw [List.mem_singleton.1 kept]
      simp
  | cons b xs ih =>
      obtain ⟨afterA, sortedB⟩ := List.pairwise_cons.1 sorted
      by_cases equal : key a = key b
      · rw [List.destutter'_cons_neg _ (not_not_intro equal)] at kept
        have sortedA : (a :: xs).Pairwise fun a b => key a ≤ key b :=
          List.pairwise_cons.2
            ⟨fun c later => afterA c (List.mem_cons_of_mem _ later), (List.pairwise_cons.1 sortedB).2⟩
        have first := ih a sortedA kept
        by_cases here : key a = key y
        · rw [List.filter_cons_of_pos (by simpa using here)] at first ⊢
          exact first
        · rw [List.filter_cons_of_neg (by simpa using here)] at first ⊢
          rw [List.filter_cons_of_neg (by simpa using equal ▸ here)]
          exact first
      · rw [List.destutter'_cons_pos _ equal] at kept
        rcases List.mem_cons.1 kept with rfl | later
        · rw [List.filter_cons_of_pos (by simp)]
          rfl
        · -- The key of `y` is not below the one of `b`, which is above the one of `a`.
          have below := (afterA b (List.mem_cons_self ..)).lt_of_ne equal
          have above : key b ≤ key y := by
            rcases List.mem_cons.1 ((List.destutter'_sublist _ _ b).subset later) with rfl | inRest
            · exact le_refl _
            · exact (List.pairwise_cons.1 sortedB).1 y inRest
          rw [List.filter_cons_of_neg (by simpa using (below.trans_le above).ne)]
          exact ih b sortedB later

omit [LinearOrder ρ] in
theorem head_filter_destutter {xs : List α} (sorted : xs.Pairwise fun a b => key a ≤ key b) {y : α}
    (kept : y ∈ xs.destutter fun a b => key a ≠ key b) :
    (xs.filter fun x => key x = key y).head? = some y := by
  cases xs with
  | nil => cases kept
  | cons a xs => exact head_filter_destutter' a xs sorted kept

/-- No element of a key has a lower rank than the one that is kept. -/
theorem least_of_mem_destutter (monotone : ∀ a b, rank a ≤ rank b → key a ≤ key b) {xs : List α}
    (sorted : xs.Pairwise fun a b => rank a ≤ rank b) {x y : α}
    (kept : y ∈ xs.destutter fun a b => key a ≠ key b) (member : x ∈ xs) (same : key x = key y) :
    rank y ≤ rank x := by
  obtain ⟨rest, all⟩ := List.head?_eq_some_iff.1
    (head_filter_destutter (sorted.imp fun {a b} => monotone a b) kept)
  have ordered := sorted.filter fun x => key x = key y
  have among : x ∈ xs.filter fun x => key x = key y :=
    List.mem_filter.2 ⟨member, decide_eq_true same⟩
  rw [all] at ordered among
  rcases List.mem_cons.1 among with rfl | later
  · exact le_refl _
  · exact (List.pairwise_cons.1 ordered).1 x later

omit [LinearOrder ρ] in
/-- Of each key, one element is kept. -/
theorem pairwise_lt_destutter {xs : List α} (sorted : xs.Pairwise fun a b => key a ≤ key b) :
    (xs.destutter fun a b => key a ≠ key b).Pairwise fun a b => key a < key b := by
  have weak := sorted.sublist (List.destutter_sublist (fun a b => key a ≠ key b) xs)
  have apart := List.isChain_destutter (fun a b => key a ≠ key b) xs
  have strict : (xs.destutter fun a b => key a ≠ key b).IsChain fun a b => key a < key b := by
    rw [List.isChain_iff_getElem] at apart ⊢
    intro i inside
    exact (List.pairwise_iff_getElem.1 weak i (i + 1) _ inside (Nat.lt_succ_self i)).lt_of_ne
      (apart i inside)
  have trans : IsTrans α fun a b => key a < key b := ⟨fun _ _ _ => lt_trans⟩
  exact List.isChain_iff_pairwise.1 strict

/-! ## Ranges -/

/-- `std::lower_bound`. -/
def lowerBound (key : α → κ) (xs : List α) (k : κ) : List α := xs.dropWhile fun x => key x < k

/-- `std::upper_bound`. -/
def upperBound (key : α → κ) (xs : List α) (k : κ) : List α := xs.dropWhile fun x => ¬ k < key x

/-- The elements from one iterator to another. -/
def between (first last : List α) : List α := first.take (first.length - last.length)

theorem between_append (front back : List α) : between (front ++ back) back = front := by
  rw [between, List.length_append, Nat.add_sub_cancel, List.take_left]

/-- Where an element with a property has only such elements before it, passing over these elements
leaves all others. -/
theorem dropWhile_eq_filter {p : α → Bool} {xs : List α}
    (before : xs.Pairwise fun a b => p b = true → p a = true) :
    xs.dropWhile p = xs.filter fun x => !p x := by
  induction xs with
  | nil => rfl
  | cons x xs ih =>
      obtain ⟨after, rest⟩ := List.pairwise_cons.1 before
      cases here : p x with
      | true =>
          rw [List.dropWhile_cons_of_pos here, List.filter_cons_of_neg (by simp [here]), ih rest]
      | false =>
          rw [List.dropWhile_cons_of_neg (by simp [here]), List.filter_cons_of_pos (by simp [here])]
          have none : ∀ y ∈ xs, (!p y) = true := by
            intro y later
            cases there : p y with
            | true => exact absurd ((after y later there).symm.trans here) (by simp)
            | false => rfl
          rw [List.filter_eq_self.2 none]

variable {xs : List α} (sorted : xs.Pairwise fun a b => key a ≤ key b) (k : κ)
include sorted

omit [DecidableEq κ] in
theorem lowerBound_eq : lowerBound key xs k = xs.filter fun x => k ≤ key x := by
  rw [lowerBound, dropWhile_eq_filter]
  · refine List.filter_congr fun x _ => ?_
    rw [← decide_not]
    exact decide_eq_decide.2 not_lt
  · refine sorted.imp fun {a b} order less => ?_
    exact decide_eq_true (order.trans_lt (of_decide_eq_true less))

omit [DecidableEq κ] in
theorem upperBound_eq : upperBound key xs k = xs.filter fun x => k < key x := by
  rw [upperBound, dropWhile_eq_filter]
  · refine List.filter_congr fun x _ => ?_
    rw [← decide_not]
    exact decide_eq_decide.2 not_not
  · refine sorted.imp fun {a b} order above => ?_
    exact decide_eq_true fun less => of_decide_eq_true above (less.trans_le order)

/-- The elements of a key stand before those of greater keys. -/
theorem filter_le_eq_append :
    (xs.filter fun x => k ≤ key x) = (xs.filter fun x => key x = k) ++ xs.filter fun x => k < key x := by
  induction xs with
  | nil => rfl
  | cons x xs ih =>
      obtain ⟨after, rest⟩ := List.pairwise_cons.1 sorted
      rcases lt_trichotomy (key x) k with below | equal | above
      · rw [List.filter_cons_of_neg (by simpa using below),
          List.filter_cons_of_neg (by simpa using below.ne),
          List.filter_cons_of_neg (by simpa using below.le), ih rest]
      · rw [List.filter_cons_of_pos (by simp [equal]), List.filter_cons_of_pos (by simpa using equal),
          List.filter_cons_of_neg (by simp [equal]), ih rest, List.cons_append]
      · have none : (xs.filter fun x => key x = k) = [] := by
          refine List.filter_eq_nil_iff.2 fun y later => ?_
          simpa using (above.trans_le (after y later)).ne'
        have all := ih rest
        rw [none, List.nil_append] at all
        rw [List.filter_cons_of_pos (by simpa using above.le),
          List.filter_cons_of_neg (by simpa using above.ne'),
          List.filter_cons_of_pos (by simpa using above), none, all, List.nil_append]

/-- **The range of a key** holds the elements of the key. -/
theorem between_bounds :
    between (lowerBound key xs k) (upperBound key (lowerBound key xs k) k)
      = xs.filter fun x => key x = k := by
  have last : upperBound key (lowerBound key xs k) k = xs.filter fun x => k < key x := by
    rw [lowerBound_eq sorted, upperBound_eq (sorted.filter _), List.filter_filter]
    refine List.filter_congr fun x _ => ?_
    by_cases above : k < key x
    · simp [above, above.le]
    · simp [above]
  rw [last, lowerBound_eq sorted, filter_le_eq_append sorted, between_append]

end Sorted

/-! ## Keys that extend a key -/

section Prefix

variable [LinearOrder κ]

/-- A list is not above its extensions. -/
theorem le_of_isPrefix {k z : List κ} (extends_ : k <+: z) : k ≤ z :=
  not_lt.1 (List.IsPrefix.le extends_)

theorem cons_le_cons_iff {a b : κ} {k y : List κ} : a :: k ≤ b :: y ↔ a < b ∨ a = b ∧ k ≤ y := by
  rw [← not_lt, List.cons_lt_cons_iff, ← @not_lt _ _ y k]
  rcases lt_trichotomy a b with less | rfl | greater
  · simp [less, less.asymm, less.ne']
  · simp
  · simp [greater, greater.asymm, greater.ne']

/-- **The lists that extend a list** stand together, right behind it. -/
theorem isPrefix_of_le_of_le {k y z : List κ} (extends_ : k <+: z) (above : k ≤ y) (below : y ≤ z) :
    k <+: y := by
  induction k generalizing y z with
  | nil => exact List.nil_prefix
  | cons a k ih =>
      obtain ⟨rest, rfl⟩ := extends_
      cases y with
      | nil => exact absurd (not_lt.2 above) (not_not_intro (List.nil_lt_cons a k))
      | cons b y =>
          rw [List.cons_append] at below
          rcases cons_le_cons_iff.1 above with less | ⟨rfl, aboveRest⟩
          · rcases cons_le_cons_iff.1 below with greater | ⟨rfl, _⟩
            · exact absurd less greater.asymm
            · exact absurd less (lt_irrefl b)
          · rcases cons_le_cons_iff.1 below with greater | ⟨_, belowRest⟩
            · exact absurd greater (lt_irrefl a)
            · exact List.cons_prefix_cons.2 ⟨rfl, ih ⟨rest, rfl⟩ aboveRest belowRest⟩

end Prefix

/-- Two lists in strict order with the same elements are equal. -/
theorem eq_of_pairwise_lt [LinearOrder κ] {xs ys : List κ} (left : xs.Pairwise (· < ·))
    (right : ys.Pairwise (· < ·)) (same : ∀ x, x ∈ xs ↔ x ∈ ys) : xs = ys := by
  have perm : xs.Perm ys := (List.perm_ext_iff_of_nodup (left.imp ne_of_lt) (right.imp ne_of_lt)).2 same
  exact List.Perm.eq_of_pairwise (fun a b _ _ less greater => absurd less greater.asymm) left right perm

end Mozkey.Lib
