import Mozkey.Lib.SortedRange

/-!
# Binary search

A binary search asks about elements of a range, each time halving what is left of it.  It finds
where the elements of which the answer is yes end, if these stand in front.  Asking may fail, and a
search that asks outside of its range fails with it.
-/

namespace Mozkey.Lib

variable {ε : Type*}

/-- The loop of a binary search in `len` elements from `first` on; every round halves them. -/
def searchWithin (before : Nat → Except ε Bool) : Nat → Nat → Nat → Except ε Nat
  | 0, first, _ => .ok first
  | fuel + 1, first, len =>
      if len = 0 then .ok first
      else do
        let half := len / 2
        if ← before (first + half) then searchWithin before fuel (first + half + 1) (len - half - 1)
        else searchWithin before fuel first half

/-- Where the elements that stand before something end, among `len` elements. -/
def search (before : Nat → Except ε Bool) (len : Nat) : Except ε Nat := searchWithin before len 0 len

theorem searchWithin_eq {before : Nat → Except ε Bool} {fuel first len boundary : Nat}
    (enough : len ≤ fuel) (least : first ≤ boundary) (most : boundary ≤ first + len)
    (answers : ∀ i, first ≤ i → i < first + len → before i = .ok (decide (i < boundary))) :
    searchWithin before fuel first len = .ok boundary := by
  induction fuel generalizing first len with
  | zero =>
      obtain rfl : first = boundary := by omega
      rfl
  | succ fuel ih =>
      rw [searchWithin]
      split
      · next none_ =>
        obtain rfl : first = boundary := by omega
        rfl
      next some_ =>
      dsimp only
      rw [answers (first + len / 2) (by omega) (by omega)]
      show (if decide (first + len / 2 < boundary) = true then _ else _) = _
      by_cases below : first + len / 2 < boundary
      · rw [if_pos (decide_eq_true below)]
        refine ih (by omega) (by omega) (by omega) fun i above inside => ?_
        exact answers i (by omega) (by omega)
      · rw [if_neg fun isBelow => below (of_decide_eq_true isBelow)]
        refine ih (by omega) least (by omega) fun i above inside => ?_
        exact answers i above (by omega)

/-- A search ends in its range, whatever the answers are. -/
theorem searchWithin_range {before : Nat → Except ε Bool} {fuel first len result : Nat}
    (done : searchWithin before fuel first len = .ok result) :
    first ≤ result ∧ result ≤ first + len := by
  induction fuel generalizing first len with
  | zero =>
      obtain rfl : first = result := Except.ok.inj done
      exact ⟨le_rfl, Nat.le_add_right _ _⟩
  | succ fuel ih =>
      rw [searchWithin] at done
      split at done
      · obtain rfl : first = result := Except.ok.inj done
        exact ⟨le_rfl, Nat.le_add_right _ _⟩
      · dsimp only at done
        cases answer : before (first + len / 2) with
        | error e =>
            rw [answer] at done
            cases done
        | ok below =>
            rw [answer] at done
            cases below with
            | true =>
                have found := ih (show _ = _ from done)
                omega
            | false =>
                have found := ih (show _ = _ from done)
                omega

/-- A search depends on the answers in its range alone. -/
theorem searchWithin_congr {before before' : Nat → Except ε Bool} {fuel first len : Nat}
    (same : ∀ i, first ≤ i → i < first + len → before i = before' i) :
    searchWithin before fuel first len = searchWithin before' fuel first len := by
  induction fuel generalizing first len with
  | zero => rfl
  | succ fuel ih =>
      rw [searchWithin, searchWithin]
      split
      · rfl
      · next some_ =>
        dsimp only
        rw [same (first + len / 2) (by omega) (by omega)]
        refine congrArg _ (funext fun below => ?_)
        rw [ih fun i least most => same i (by omega) (by omega),
          ih fun i least most => same i least (by omega)]

/-- **A binary search finds the boundary**, asking only about elements of the range. -/
theorem search_eq {before : Nat → Except ε Bool} {len boundary : Nat} (most : boundary ≤ len)
    (answers : ∀ i, i < len → before i = .ok (decide (i < boundary))) :
    search before len = .ok boundary := by
  apply searchWithin_eq (le_refl len) (Nat.zero_le _)
  · rwa [Nat.zero_add]
  · intro i _ inside
    exact answers i (by omega)

/-! ## Searching in a list -/

section Partitioned

variable {α : Type*} {p : α → Bool} {xs : List α}
  (partitioned : xs.Pairwise fun a b => p b = true → p a = true)
include partitioned

/-- The elements for which the answer is yes stand in front. -/
theorem filter_append_filter_not : xs.filter p ++ xs.filter (fun x => !p x) = xs := by
  induction xs with
  | nil => rfl
  | cons x xs ih =>
      obtain ⟨after, rest⟩ := List.pairwise_cons.1 partitioned
      cases here : p x with
      | true =>
          rw [List.filter_cons_of_pos here, List.filter_cons_of_neg (by simp [here]), List.cons_append,
            ih rest]
      | false =>
          have later : ∀ y ∈ xs, p y = false := by
            intro y member
            cases there : p y with
            | true => exact Bool.noConfusion ((after y member there).symm.trans here)
            | false => rfl
          have front : xs.filter p = [] := by
            rw [List.filter_eq_nil_iff]
            intro y member
            simp [later y member]
          rw [List.filter_cons_of_neg (by simp [here]), List.filter_cons_of_pos (by simp [here]), front,
            List.nil_append, List.filter_eq_self.2]
          intro y member
          simp [later y member]

theorem drop_countP : xs.drop (xs.countP p) = xs.filter fun x => !p x := by
  nth_rewrite 2 [← filter_append_filter_not partitioned]
  rw [List.countP_eq_length_filter, List.drop_left]

theorem decide_lt_countP {i : Nat} (inside : i < xs.length) :
    decide (i < xs.countP p) = p xs[i] := by
  rw [List.countP_eq_length_filter]
  have whole := filter_append_filter_not partitioned
  by_cases front : i < (xs.filter p).length
  · have here : xs[i] = (xs.filter p)[i] := by
      rw [← List.getElem_append_left front]
      exact List.getElem_of_eq whole.symm inside
    rw [decide_eq_true front, here]
    exact (List.of_mem_filter (List.getElem_mem front)).symm
  · have length : i - (xs.filter p).length < (xs.filter fun x => !p x).length := by
      have := congrArg List.length whole
      rw [List.length_append] at this
      omega
    have here : xs[i] = (xs.filter fun x => !p x)[i - (xs.filter p).length] := by
      rw [← List.getElem_append_right (Nat.le_of_not_lt front)]
      exact List.getElem_of_eq whole.symm inside
    have answer := List.of_mem_filter (List.getElem_mem length)
    rw [decide_eq_false front, here]
    simpa using answer.symm

/-- **A binary search in a partitioned list** finds how many elements stand in front. -/
theorem search_eq_countP {before : Nat → Except ε Bool}
    (answers : ∀ (i : Nat) (inside : i < xs.length), before i = .ok (p xs[i])) :
    search before xs.length = .ok (xs.countP p) := by
  apply search_eq List.countP_le_length
  intro i inside
  rw [answers i inside, decide_lt_countP partitioned inside]

end Partitioned

/-! ## The range of a key -/

section Sorted

variable {α κ : Type} [LinearOrder κ] [DecidableEq κ] {key : α → κ} {xs : List α}
  (sorted : xs.Pairwise fun a b => key a ≤ key b) (k : κ)
include sorted

omit [DecidableEq κ] in
theorem partitioned_lt :
    xs.Pairwise fun a b => decide (key b < k) = true → decide (key a < k) = true :=
  sorted.imp fun le less => decide_eq_true (le.trans_lt (of_decide_eq_true less))

omit [DecidableEq κ] in
theorem partitioned_not_gt :
    xs.Pairwise fun a b => (!decide (k < key b)) = true → (!decide (k < key a)) = true := by
  refine sorted.imp fun le => ?_
  simp only [Bool.not_eq_true', decide_eq_false_iff_not, not_lt]
  exact le.trans

omit [DecidableEq κ] sorted in
theorem filter_not_lt : (xs.filter fun x => !decide (key x < k)) = xs.filter fun x => k ≤ key x := by
  apply List.filter_congr
  intro x _
  rw [← decide_not]
  exact decide_eq_decide.2 not_lt

/-- The two counts are those of a range. -/
theorem countP_not_gt :
    (xs.countP fun x => !decide (k < key x))
      = (xs.countP fun x => decide (key x < k)) + (xs.filter fun x => key x = k).length := by
  have lower := congrArg List.length (filter_append_filter_not (partitioned_lt sorted k))
  have upper := congrArg List.length (filter_append_filter_not (partitioned_not_gt sorted k))
  have above : (xs.filter fun x => !!decide (k < key x)) = xs.filter fun x => k < key x :=
    List.filter_congr fun x _ => by simp
  rw [filter_not_lt, filter_le_eq_append sorted] at lower
  rw [above] at upper
  simp only [List.length_append] at lower upper
  rw [List.countP_eq_length_filter, List.countP_eq_length_filter]
  omega

/-- **Between the two counts** stand the elements of the key. -/
theorem take_drop_countP :
    (xs.drop (xs.countP fun x => decide (key x < k))).take
        ((xs.countP fun x => !decide (k < key x)) - xs.countP fun x => decide (key x < k))
      = xs.filter fun x => key x = k := by
  rw [drop_countP (partitioned_lt sorted k), filter_not_lt, filter_le_eq_append sorted, countP_not_gt sorted,
    Nat.add_sub_cancel_left, List.take_left]

/-- `std::equal_range`: the bounds of a key among `len` elements, whose keys are read. -/
def searchRange (read : Nat → Except ε κ) (len : Nat) (k : κ) : Except ε (Nat × Nat) := do
  let first ← search (fun i => (read i).map fun z => decide (z < k)) len
  let last ← search (fun i => (read i).map fun z => !decide (k < z)) len
  return (first, last)

omit [DecidableEq κ] in
/-- **The bounds of a key** count the elements before it, and those not behind it. -/
theorem searchRange_eq {read : Nat → Except ε κ}
    (reads : ∀ (i : Nat) (inside : i < xs.length), read i = .ok (key xs[i])) :
    searchRange read xs.length k
      = .ok (xs.countP fun x => decide (key x < k), xs.countP fun x => !decide (k < key x)) := by
  have first : search (fun i => (read i).map fun z => decide (z < k)) xs.length = _ :=
    search_eq_countP (partitioned_lt sorted k) fun i inside => by
      rw [reads i inside]
      rfl
  have last : search (fun i => (read i).map fun z => !decide (k < z)) xs.length = _ :=
    search_eq_countP (partitioned_not_gt sorted k) fun i inside => by
      rw [reads i inside]
      rfl
  rw [searchRange, first, last]
  rfl

end Sorted

end Mozkey.Lib
