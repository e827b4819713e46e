import Mathlib

/-!
# The best elements of a list

Programs sort and select with a comparator `better`.  Here the comparator comes
from a rank in a linear order, a lower rank being better.  When the ranks of the
elements are pairwise different, sorting is determined.  A list that is known to
be sorted and to hold no element worse than the others is then the start of the
sorted list, and this is what a bounded queue keeps when it drops its worst
element whenever it gets too long.
-/

namespace Mozkey.Lib

variable {α ρ : Type*}

/-- Sorting with a comparator. -/
def sortBy (better : α → α → Bool) (xs : List α) : List α :=
  xs.insertionSort fun a b => better b a = false

/-- One step of a bounded selection: the queue, worst element first, takes an
element and drops its worst one if it gets longer than `k`. -/
def pushBest (better : α → α → Bool) (k : Nat) (queue : List α) (x : α) : List α :=
  let queue := queue.orderedInsert (fun a b => better a b = false) x
  if queue.length > k then queue.tail else queue

theorem sortBy_perm (better : α → α → Bool) (xs : List α) : (sortBy better xs).Perm xs :=
  List.perm_insertionSort _ xs

/-- Sorting is stable: elements none of which is better than another keep their order. -/
theorem filter_sortBy {better : α → α → Bool} {xs : List α} {p : α → Bool}
    (even : ∀ a ∈ xs, ∀ b ∈ xs, p a = true → p b = true → better b a = false) :
    (sortBy better xs).filter p = xs.filter p := by
  have inOrder : (xs.filter p).Pairwise fun a b => better b a = false := by
    apply List.pairwise_iff_getElem.2
    intro i j inI inJ _
    obtain ⟨memberI, isI⟩ := List.mem_filter.1 (List.getElem_mem inI)
    obtain ⟨memberJ, isJ⟩ := List.mem_filter.1 (List.getElem_mem inJ)
    exact even _ memberI _ memberJ isI isJ
  have kept : (xs.filter p).Sublist (sortBy better xs) :=
    List.sublist_insertionSort inOrder List.filter_sublist
  have within : (xs.filter p).Sublist ((sortBy better xs).filter p) := by
    have filtered := kept.filter p
    simpa only [List.filter_filter, Bool.and_self] using filtered
  exact (within.eq_of_length ((sortBy_perm better xs).filter p).length_eq.symm).symm

variable [LinearOrder ρ] {better : α → α → Bool} {rank : α → ρ}

section Ranked

variable (ranked : ∀ a b, better a b = true ↔ rank a < rank b)
include ranked

theorem not_better_iff (a b : α) : better b a = false ↔ rank a ≤ rank b := by
  rw [← not_lt, ← ranked b a, Bool.not_eq_true]

theorem sortBy_sorted (xs : List α) :
    (sortBy better xs).Pairwise fun a b => rank a ≤ rank b := by
  have total : Std.Total fun a b : α => better b a = false :=
    ⟨fun a b => by
      rw [not_better_iff ranked, not_better_iff ranked]
      exact le_total _ _⟩
  have trans : IsTrans α fun a b : α => better b a = false :=
    ⟨fun a b c => by
      rw [not_better_iff ranked, not_better_iff ranked, not_better_iff ranked]
      exact le_trans⟩
  refine (List.pairwise_insertionSort _ xs).imp ?_
  intro a b
  exact (not_better_iff ranked a b).1

/-- A sorted list with the same elements is the sorted list. -/
theorem eq_sortBy {xs ys : List α} (distinct : (xs.map rank).Nodup) (perm : ys.Perm xs)
    (sorted : ys.Pairwise fun a b => rank a ≤ rank b) : ys = sortBy better xs := by
  have antisymm : ∀ a b, a ∈ ys → b ∈ sortBy better xs → rank a ≤ rank b → rank b ≤ rank a →
      a = b := by
    intro a b left right below above
    exact List.inj_on_of_nodup_map distinct (perm.subset left)
      ((sortBy_perm better xs).subset right) (le_antisymm below above)
  exact List.Perm.eq_of_pairwise antisymm sorted (sortBy_sorted ranked xs)
    (perm.trans (sortBy_perm better xs).symm)

/-- **The best elements come first.**  A sorted list `best` of at most `k` elements,
none worse than the others, and with others only when it is full, is what remains of
the sorted list after a cut to `k` elements. -/
theorem take_sortBy {xs best others : List α} {k : Nat} (distinct : (xs.map rank).Nodup)
    (split : xs.Perm (best ++ others)) (sorted : best.Pairwise fun a b => rank a ≤ rank b)
    (better_ : ∀ a ∈ best, ∀ b ∈ others, rank a ≤ rank b) (bound : best.length ≤ k)
    (full : others ≠ [] → best.length = k) : (sortBy better xs).take k = best := by
  have whole : best ++ sortBy better others = sortBy better xs := by
    refine eq_sortBy ranked distinct ?_ ?_
    · exact ((sortBy_perm better others).append_left best).trans split.symm
    · rw [List.pairwise_append]
      refine ⟨sorted, sortBy_sorted ranked others, ?_⟩
      intro a left b right
      exact better_ a left b ((sortBy_perm better others).subset right)
  rw [← whole]
  by_cases none : others = []
  · subst none
    show (best ++ []).take k = best
    rw [List.append_nil, List.take_of_length_le bound]
  · exact List.take_left' (full none)

/-- An element beyond the cut is worse than all elements before the cut, of which
there are `k`. -/
theorem beyond_take_sortBy {xs : List α} {k : Nat} {x : α} (member : x ∈ xs)
    (beyond : x ∉ (sortBy better xs).take k) :
    (∀ a ∈ (sortBy better xs).take k, rank a ≤ rank x) ∧
      ((sortBy better xs).take k).length = k := by
  have sorted := sortBy_sorted ranked xs
  have present : x ∈ sortBy better xs := (sortBy_perm better xs).symm.subset member
  rw [← List.take_append_drop k (sortBy better xs)] at sorted present
  have after : x ∈ (sortBy better xs).drop k := (List.mem_append.1 present).resolve_left beyond
  constructor
  · intro a before
    exact (List.pairwise_append.1 sorted).2.2 a before x after
  · have length := List.length_pos_of_mem after
    rw [List.length_drop] at length
    rw [List.length_take]
    omega

end Ranked

/-! ## The bounded selection -/

/-- What the queue holds of the elements seen: they are its elements and the
dropped ones, it is sorted with its worst element first, and none of its elements
is worse than a dropped one. -/
structure Keeps (rank : α → ρ) (k : Nat) (seen queue dropped : List α) : Prop where
  split : seen.Perm (queue ++ dropped)
  sorted : queue.Pairwise fun a b => rank b ≤ rank a
  better : ∀ a ∈ queue, ∀ b ∈ dropped, rank a ≤ rank b
  bound : queue.length ≤ k
  full : dropped ≠ [] → queue.length = k

section Ranked

variable (ranked : ∀ a b, better a b = true ↔ rank a < rank b)
include ranked

theorem orderedInsert_sorted {queue : List α} (x : α)
    (sorted : queue.Pairwise fun a b => rank b ≤ rank a) :
    (queue.orderedInsert (fun a b => better a b = false) x).Pairwise fun a b => rank b ≤ rank a := by
  induction queue with
  | nil => simp
  | cons y ys ih =>
      rw [List.pairwise_cons] at sorted
      rw [List.orderedInsert_cons]
      split
      · rename_i first
        have below : rank y ≤ rank x := (not_better_iff ranked y x).1 first
        rw [List.pairwise_cons, List.pairwise_cons]
        refine ⟨?_, sorted⟩
        intro z member
        rcases List.mem_cons.1 member with rfl | later
        · exact below
        · exact (sorted.1 z later).trans below
      · rename_i behind
        have above : rank x < rank y := (ranked x y).1 (Bool.not_eq_false _ ▸ behind)
        rw [List.pairwise_cons]
        refine ⟨?_, ih sorted.2⟩
        intro z member
        rcases (List.mem_orderedInsert _).1 member with rfl | later
        · exact above.le
        · exact sorted.1 z later

theorem Keeps.push {k : Nat} {seen queue dropped : List α} (x : α)
    (keeps : Keeps rank k seen queue dropped) :
    ∃ dropped', Keeps rank k (seen ++ [x]) (pushBest better k queue x) dropped' := by
  have perm := List.perm_orderedInsert (fun a b => better a b = false) x queue
  have sorted := orderedInsert_sorted ranked x keeps.sorted
  have split : (seen ++ [x]).Perm
      (queue.orderedInsert (fun a b => better a b = false) x ++ dropped) :=
    List.perm_append_singleton x seen |>.trans (keeps.split.cons x)
      |>.trans (perm.symm.append_right dropped)
  have length := perm.length_eq
  unfold pushBest
  generalize queue.orderedInsert (fun a b => better a b = false) x = queue' at perm sorted split length
  rw [List.length_cons] at length
  dsimp only
  split
  · cases queue' with
    | nil => simp at length
    | cons worst rest =>
        rw [List.pairwise_cons] at sorted
        have bound := keeps.bound
        rw [List.length_cons] at length
        rename_i long
        rw [List.length_cons] at long
        refine ⟨worst :: dropped, ?_, sorted.2, ?_, ?_, ?_⟩
        · exact split.trans List.perm_middle.symm
        · intro a kept b gone
          rcases List.mem_cons.1 gone with rfl | before
          · exact sorted.1 a kept
          · rcases List.mem_cons.1 (perm.subset List.mem_cons_self) with rfl | old
            -- The dropped element is the new one, so the rest is the old queue.
            · exact keeps.better a (perm.cons_inv.subset kept) b before
            · exact (sorted.1 a kept).trans (keeps.better worst old b before)
        · show rest.length ≤ k
          omega
        · intro _
          show rest.length = k
          omega
  · rename_i short
    have none : dropped = [] := by
      by_contra some_
      have := keeps.full some_
      omega
    subst none
    exact ⟨[], split, sorted, by simp, by omega, by simp⟩

theorem keeps_foldl {k : Nat} (xs : List α) :
    ∃ dropped, Keeps rank k xs (xs.foldl (pushBest better k) []) dropped := by
  induction xs using List.reverseRecOn with
  | nil => exact ⟨[], .refl _, .nil, by simp, Nat.zero_le _, by simp⟩
  | append_singleton xs x ih =>
      obtain ⟨dropped, keeps⟩ := ih
      rw [List.foldl_append, List.foldl_cons, List.foldl_nil]
      exact keeps.push ranked x

/-- **A bounded queue keeps the best elements.** -/
theorem sortBy_foldl_pushBest {k : Nat} {xs : List α} (distinct : (xs.map rank).Nodup) :
    sortBy better (xs.foldl (pushBest better k) []) = (sortBy better xs).take k := by
  obtain ⟨dropped, keeps⟩ := keeps_foldl ranked (k := k) xs
  have perm := sortBy_perm better (xs.foldl (pushBest better k) [])
  refine (take_sortBy ranked distinct (keeps.split.trans (perm.symm.append_right dropped))
    (sortBy_sorted ranked _) ?_ ?_ ?_).symm
  · intro a kept b gone
    exact keeps.better a (perm.subset kept) b gone
  · exact perm.length_eq ▸ keeps.bound
  · intro some_
    exact perm.length_eq.trans (keeps.full some_)

end Ranked

end Mozkey.Lib
