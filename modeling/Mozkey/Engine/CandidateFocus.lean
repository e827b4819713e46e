import Mozkey.Engine.CandidateList
import Mozkey.Lib.Run

/-!
# The focus of a candidate list stays in range

No focus lies behind the end of its list, at any depth.  All moves and all additions keep this, with
one exception: `MoveToPageIndex` accepts the index right behind the page, and with a sum that
overflows an index before the page.
-/

namespace Mozkey.Engine.CandidateList

open Mozkey.Lib

/-! ## The invariant -/

/-- Every focus is on a candidate of its list: the lists are not empty, and their pages neither. -/
inductive FocusInRange : CandidateList → Prop
  | intro (list : CandidateList) (here : list.focusedIndex < list.size) (paged : 0 < list.pageSize)
      (inside : ∀ i sub, list.sub i = some sub → FocusInRange sub) : FocusInRange list

namespace FocusInRange

variable {list sub' : CandidateList} {i : Nat}

theorem here (inRange : FocusInRange list) : list.focusedIndex < list.size := by
  cases inRange with
  | intro _ here _ _ => exact here

theorem paged (inRange : FocusInRange list) : 0 < list.pageSize := by
  cases inRange with
  | intro _ _ paged _ => exact paged

theorem inside (inRange : FocusInRange list) (holds : list.sub i = some sub') :
    FocusInRange sub' := by
  cases inRange with
  | intro _ _ _ inside => exact inside i sub' holds

theorem lastIndex_lt (inRange : FocusInRange list) : list.lastIndex < list.size :=
  Nat.sub_one_lt (Nat.ne_of_gt (Nat.zero_lt_of_lt inRange.here))

theorem focus (inRange : FocusInRange list) (less : i < list.size) : FocusInRange (list.focus i) :=
  .intro _ less inRange.paged fun _ _ holds => inRange.inside holds

theorem setSub (inRange : FocusInRange list) (less : i < list.size) (sub : FocusInRange sub') :
    FocusInRange (list.setSub i sub') := by
  refine .intro _ (by simpa using inRange.here) inRange.paged fun j other holds => ?_
  rw [sub_setSub _ _ _ _ less] at holds
  split at holds
  · cases holds
    exact sub
  · exact inRange.inside holds

theorem moveFirst (inRange : FocusInRange list) : FocusInRange list.moveFirst :=
  inRange.focus (Nat.zero_lt_of_lt inRange.here)

theorem moveLast (inRange : FocusInRange list) : FocusInRange list.moveLast :=
  inRange.focus inRange.lastIndex_lt

theorem toPageStart (inRange : FocusInRange list) : FocusInRange list.toPageStart :=
  inRange.focus (lt_of_le_of_lt (Nat.sub_le _ _) inRange.here)

theorem enter {move : CandidateList → CandidateList}
    (kept : ∀ {l : CandidateList}, FocusInRange l → FocusInRange (move l))
    (inRange : FocusInRange list) : FocusInRange (list.enter move) := by
  unfold CandidateList.enter
  split
  · rename_i sub holds
    exact inRange.setSub inRange.here (kept (inRange.inside holds))
  · exact inRange

/-! ### Moves -/

theorem stepNext (inRange : FocusInRange list) : FocusInRange list.stepNext.2 := by
  unfold CandidateList.stepNext
  split
  · split
    · exact enter moveFirst inRange.moveFirst
    · exact inRange.moveFirst
  · rename_i notLast
    have here := inRange.here
    unfold lastIndex at notLast
    exact enter moveFirst (inRange.focus (by omega))

theorem stepPrev (inRange : FocusInRange list) : FocusInRange list.stepPrev.2 := by
  unfold CandidateList.stepPrev
  split
  · split
    · exact enter moveLast inRange.moveLast
    · exact inRange.moveLast
  · have here := inRange.here
    exact enter moveLast (inRange.focus (by omega))

/-- The page behind a page that is not the last one begins inside of the list. -/
theorem stepNextPage (inRange : FocusInRange list) : FocusInRange list.stepNextPage.2 := by
  unfold CandidateList.stepNextPage
  split
  · split
    · exact enter moveFirst inRange.moveFirst.toPageStart
    · exact inRange
  · rename_i notLast
    have here := inRange.here
    have paged := inRange.paged
    have rest := Nat.mod_lt list.focusedIndex paged
    have short : min list.size (list.focusedIndex - list.focusedIndex % list.pageSize +
        list.pageSize) ≠ list.size := fun all => notLast (decide_eq_true all)
    refine enter moveFirst (.intro _ ?_ paged fun _ _ holds => inRange.inside holds)
    show list.focusedIndex + list.pageSize - (list.focusedIndex + list.pageSize) % list.pageSize
      < list.size
    rw [Nat.add_mod_right]
    omega

theorem stepPrevPage (inRange : FocusInRange list) : FocusInRange list.stepPrevPage.2 := by
  unfold CandidateList.stepPrevPage
  split
  · split
    · exact enter moveFirst inRange.moveLast.toPageStart
    · exact inRange
  · have here := inRange.here
    exact enter moveFirst (inRange.focus (lt_of_le_of_lt (Nat.sub_le _ _) here)).toPageStart

/-- **What a step keeps, the move keeps**, as it does the step in one list or in another. -/
theorem delegate {step : CandidateList → Bool × CandidateList}
    (kept : ∀ {l : CandidateList}, FocusInRange l → FocusInRange (step l).2)
    (inRange : FocusInRange list) : FocusInRange (list.delegate step).2 := by
  induction inRange with
  | intro list here paged inside ih =>
      have inRange : FocusInRange list := .intro list here paged inside
      rw [CandidateList.delegate]
      split
      · exact kept inRange
      · rename_i sub holds
        have moved := inRange.setSub here (ih _ _ holds)
        dsimp only
        split
        · exact moved
        · exact kept moved

/-! ### Searches -/

theorem visit {found : Nat → Option (Bool × CandidateList)}
    {isHit : Candidate CandidateList → Bool} {indices : List Nat}
    (known : ∀ i r, found i = some r → FocusInRange r.2) (within : ∀ i ∈ indices, i < list.size)
    (inRange : FocusInRange list) : FocusInRange (list.visit found isHit indices).2 := by
  induction indices generalizing list with
  | nil => exact inRange
  | cons index indices ih =>
      obtain ⟨less, within⟩ := List.forall_mem_cons.1 within
      rw [CandidateList.visit]
      split
      · rename_i sub isFound
        exact (inRange.setSub less (known _ _ isFound)).focus (by simpa using less)
      · rename_i sub isFound
        have changed := inRange.setSub less (known _ _ isFound)
        dsimp only
        split
        · exact changed.focus (by simpa using less)
        · exact ih (by simpa using within) changed
      · split
        · exact inRange.focus less
        · exact ih within inRange

theorem search {κ : Type} {s : Search κ}
    (within : ∀ l : CandidateList, ∀ i ∈ s.order l, i < l.size) (key : κ)
    (inRange : FocusInRange list) : FocusInRange (list.search s key).2 := by
  induction inRange generalizing key with
  | intro list here paged inside ih =>
      rw [CandidateList.search]
      refine visit (fun i r isFound => ?_) (within list) (.intro list here paged inside)
      split at isFound
      · rename_i sub holds
        cases isFound
        exact ih i sub holds _
      · cases isFound

theorem moveToAttributes (attributes : UInt32) (inRange : FocusInRange list) :
    FocusInRange (list.moveToAttributes attributes).2 := by
  refine search (fun l i member => ?_) attributes inRange
  obtain ⟨j, less, rfl⟩ := List.mem_map.1 member
  exact Nat.mod_lt _ (Nat.zero_lt_of_lt (List.mem_range.1 less))

theorem moveToId (id : Int) (inRange : FocusInRange list) : FocusInRange (list.moveToId id).2 :=
  search (fun _ _ member => List.mem_range.1 member) id inRange

/-! ### Additions -/

theorem atPath {change : CandidateList → CandidateList}
    (kept : ∀ {l : CandidateList}, FocusInRange l → FocusInRange (change l)) (path : List Nat)
    (inRange : FocusInRange list) : FocusInRange (list.atPath change path) := by
  induction path generalizing list with
  | nil => exact kept inRange
  | cons index path ih =>
      rw [CandidateList.atPath]
      split
      · rename_i sub holds
        exact inRange.setSub (lt_size_of_sub holds) (ih (inRange.inside holds))
      · exact inRange

end FocusInRange

section Additions

variable {fingerprint : ByteString → UInt64} {list : CandidateList}

theorem FocusInRange.addCandidateWithAttributes (id : Int) (value : ByteString)
    (attributes : UInt32) (inRange : FocusInRange list) :
    FocusInRange (list.addCandidateWithAttributes fingerprint id value attributes) := by
  obtain ⟨focused, pages, longer⟩ :=
    @fields_addCandidateWithAttributes fingerprint list id value attributes
  refine .intro _ ?_ (pages ▸ inRange.paged) fun i sub holds => ?_
  · rw [focused]
    exact inRange.here.trans_le longer
  · rw [sub_addCandidateWithAttributes] at holds
    exact inRange.inside holds

/-- The first candidate of a new list. -/
theorem focusInRange_first (id : Int) (value : ByteString) (attributes : UInt32) :
    FocusInRange (({} : CandidateList).addCandidateWithAttributes fingerprint id value attributes) := by
  refine .intro _ ?_ ?_ fun i sub holds => ?_
  · exact Nat.one_pos
  · exact Nat.succ_pos 8
  · rw [sub_addCandidateWithAttributes] at holds
    cases holds

/-- New lists are in range once they have their first candidate. -/
theorem FocusInRange.addCandidateBelow (id : Int) (value : ByteString) (attributes : UInt32)
    (depth : Nat) (fits : FocusInRange list ∨ list = {}) :
    FocusInRange (list.addCandidateBelow fingerprint id value attributes depth) := by
  induction depth generalizing list with
  | zero =>
      rcases fits with inRange | rfl
      · exact inRange.addCandidateWithAttributes id value attributes
      · exact focusInRange_first id value attributes
  | succ depth ih =>
      obtain ⟨focused, pages, longer⟩ := @fields_addSubCandidateList list
        (CandidateList.addCandidateBelow fingerprint id value attributes depth)
      rw [CandidateList.addCandidateBelow]
      refine .intro _ ?_ ?_ fun i sub holds => ?_
      · rw [focused, longer]
        rcases fits with inRange | rfl
        · exact inRange.here.trans (Nat.lt_succ_self _)
        · exact Nat.one_pos
      · rw [pages]
        rcases fits with inRange | rfl
        · exact inRange.paged
        · exact Nat.succ_pos 8
      · rw [sub_addSubCandidateList] at holds
        split at holds
        · cases holds
          exact ih (.inr rfl)
        · rcases fits with inRange | rfl
          · exact inRange.inside holds
          · cases holds

end Additions

/-! ## Main result -/

section Runs

variable (fingerprint : ByteString → UInt64)

/-- `MoveToPageIndex` succeeds exactly for the indices of the page. -/
def PageIndexExact (list : CandidateList) (pageIndex : UInt64) : Prop :=
  let page := list.pageRange list.focusedIndex
  (list.moveToPageIndex pageIndex).1 = true ↔ page.1 + pageIndex.toNat < page.2

/-- The page index is not the one right behind the page, and not one whose sum is too large for a
`size_t`. -/
def PageIndexApart (list : CandidateList) (pageIndex : UInt64) : Prop :=
  let page := list.pageRange list.focusedIndex
  page.1 + pageIndex.toNat ≠ page.2 ∧ page.1 + pageIndex.toNat < 2 ^ 64

/-- What an operation must do: no focus is out of range afterwards, and a page index was accepted
exactly when it is one of the page. -/
structure Behaves (list : CandidateList) (operation : Operation) : Prop where
  inRange : FocusInRange (list.run fingerprint operation)
  isExact : ∀ pageIndex, operation = .moveToPageIndex pageIndex → list.PageIndexExact pageIndex

/-- An operation that does not step into the gap of `MoveToPageIndex`. -/
def Apart (list : CandidateList) (operation : Operation) : Prop :=
  ∀ pageIndex, operation = .moveToPageIndex pageIndex → list.PageIndexApart pageIndex

variable {fingerprint} {list : CandidateList}

theorem FocusInRange.moveToPageIndex {pageIndex : UInt64} (apart : list.PageIndexApart pageIndex)
    (inRange : FocusInRange list) : FocusInRange (list.moveToPageIndex pageIndex).2 := by
  obtain ⟨notBehind, fits⟩ := apart
  unfold CandidateList.moveToPageIndex
  dsimp only at notBehind fits ⊢
  rw [Nat.mod_eq_of_lt fits]
  split
  · exact inRange
  · refine enter FocusInRange.moveFirst (inRange.focus ?_)
    have within : (list.pageRange list.focusedIndex).2 ≤ list.size := Nat.min_le_left _ _
    omega

theorem pageIndexExact_of_apart {pageIndex : UInt64} (apart : list.PageIndexApart pageIndex) :
    list.PageIndexExact pageIndex := by
  obtain ⟨notBehind, fits⟩ := apart
  unfold PageIndexExact moveToPageIndex
  dsimp only at notBehind fits ⊢
  rw [Nat.mod_eq_of_lt fits]
  split
  · exact iff_of_false Bool.false_ne_true (by omega)
  · exact iff_of_true rfl (by omega)

/-- **One operation** keeps every focus in range. -/
theorem behaves_of_apart {operation : Operation} (inRange : FocusInRange list)
    (apart : list.Apart operation) : Behaves fingerprint list operation := by
  refine ⟨?_, fun pageIndex same => pageIndexExact_of_apart (apart pageIndex same)⟩
  cases operation with
  | moveFirst => exact inRange.moveFirst
  | moveLast => exact inRange.moveLast
  | moveNext => exact inRange.delegate FocusInRange.stepNext
  | movePrev => exact inRange.delegate FocusInRange.stepPrev
  | moveNextPage => exact inRange.delegate FocusInRange.stepNextPage
  | movePrevPage => exact inRange.delegate FocusInRange.stepPrevPage
  | moveNextAttributes attributes =>
      exact (inRange.delegate FocusInRange.stepNext).moveToAttributes attributes
  | moveToAttributes attributes => exact inRange.moveToAttributes attributes
  | moveToId id => exact inRange.moveToId id
  | moveToPageIndex pageIndex => exact inRange.moveToPageIndex (apart pageIndex rfl)
  | addCandidate path depth id value attributes =>
      exact inRange.atPath
        (fun inRange => FocusInRange.addCandidateBelow id value attributes depth (.inl inRange)) path

/-- **The focus stays in range** at every depth, and page indices are accepted as they should be,
in every run in which no page index is the one right behind the page or overflows. -/
theorem focusInRange_run (operations : List Operation) (inRange : FocusInRange list)
    (apart : AllAlong (run fingerprint) Apart list operations) :
    AllAlong (run fingerprint) (Behaves fingerprint) list operations := by
  induction operations generalizing list with
  | nil => exact trivial
  | cons operation operations ih =>
      have behaves : Behaves fingerprint list operation := behaves_of_apart inRange apart.1
      exact ⟨behaves, ih behaves.inRange apart.2⟩

/-- A list with one candidate. -/
def one : CandidateList := { candidates := [{ id := 7 }] }

/-- A candidate, and a list of one candidate behind it. -/
def two : CandidateList := { candidates := [{ id := 0 }, { subcandidateList := some one }] }

theorem focusInRange_one : FocusInRange one :=
  .intro _ Nat.one_pos (Nat.succ_pos 8) fun i sub holds => by
    match i, holds with
    | 0, holds => cases holds
    | i + 1, holds => cases holds

theorem focusInRange_two : FocusInRange two :=
  .intro _ Nat.two_pos (Nat.succ_pos 8) fun i sub holds => by
    match i, holds with
    | 0, holds => cases holds
    | 1, holds =>
        cases holds
        exact focusInRange_one
    | i + 2, holds => cases holds

/-- The second index of the page is accepted, and the move after it comes back. -/
theorem focusInRange_run_two :
    AllAlong (run fun _ => 0) (Behaves fun _ => 0) two [.moveToPageIndex 1, .moveNext] := by
  refine focusInRange_run _ focusInRange_two ⟨?_, ?_, trivial⟩
  · rintro _ ⟨⟩
    exact ⟨by decide, by decide⟩
  · rintro _ ⟨⟩

/-- The index behind the only candidate is accepted. -/
theorem not_focusInRange_run :
    ¬ ∀ (fingerprint : ByteString → UInt64) (list : CandidateList) (operations : List Operation),
      FocusInRange list → AllAlong (run fingerprint) (Behaves fingerprint) list operations := by
  intro claim
  have behaves := (claim (fun _ => 0) one [.moveToPageIndex 1] focusInRange_one).1
  exact absurd behaves.inRange.here (by decide)

end Runs

end Mozkey.Engine.CandidateList
