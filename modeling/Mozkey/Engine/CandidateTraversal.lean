import Mozkey.Engine.CandidateList

/-!
# Walking through a candidate list

With the candidates of its inner lists in their place, a candidate list is one row of leaves, and
the focus is on one of them.  `MoveNext` goes to the next leaf and `MovePrev` to the one before, and
both go round.  The positions that inner lists keep from earlier visits do not matter: an inner list
is entered at its first candidate or, from behind, at its last one.
-/

namespace Mozkey.Engine.CandidateList

/-! ## Leaves -/

/-- `GetDeepestFocusedCandidate`. -/
def getDeepestFocusedCandidate (list : CandidateList) : Candidate CandidateList :=
  match _holds : list.sub list.focusedIndex with
  | some sub => getDeepestFocusedCandidate sub
  | none => list.focusedCandidate
termination_by sizeOf list
decreasing_by exact sizeOf_sub_lt _holds

/-- The leaves that stand in the place of a candidate. -/
def leavesOf (c : Candidate CandidateList) : List (Candidate CandidateList) :=
  match c.subcandidateList with
  | some sub => sub.candidates
  | none => [c]

def blocks (list : CandidateList) : List (List (Candidate CandidateList)) :=
  list.candidates.map leavesOf

/-- All leaves, in their order. -/
def leaves (list : CandidateList) : List (Candidate CandidateList) := list.blocks.flatten

/-- The number of leaves before a candidate. -/
def leavesBefore (list : CandidateList) (i : Nat) : Nat := (list.blocks.take i).flatten.length

/-- Which leaf of its candidate has the focus. -/
def innerIndex (list : CandidateList) : Nat :=
  match list.sub list.focusedIndex with
  | some sub => sub.focusedIndex
  | none => 0

/-- Which leaf has the focus. -/
def leafIndex (list : CandidateList) : Nat :=
  list.leavesBefore list.focusedIndex + list.innerIndex

/-- A list of plain candidates that does not go round. -/
structure Plain (list : CandidateList) : Prop where
  still : list.rotate = false
  here : list.focusedIndex < list.size
  flat : ∀ i, list.sub i = none

/-- A list of plain candidates and of lists of plain candidates, which goes round. -/
structure TwoLevels (list : CandidateList) : Prop where
  rotates : list.rotate = true
  here : list.focusedIndex < list.size
  inner : ∀ i sub, list.sub i = some sub → Plain sub

section Blocks

variable {list sub' sub'' : CandidateList} {i : Nat}

/-- The candidate that holds a list. -/
theorem getElem?_of_sub (holds : list.sub i = some sub') :
    ∃ c, list.candidates[i]? = some c ∧ c.subcandidateList = some sub' := by
  have inside := lt_size_of_sub holds
  refine ⟨_, List.getElem?_eq_getElem inside, ?_⟩
  rw [sub, candidate, List.getD_eq_getElem _ _ inside] at holds
  exact holds

/-- A list may change everything but its candidates. -/
theorem blocks_setSub (holds : list.sub i = some sub')
    (same : sub''.candidates = sub'.candidates) : (list.setSub i sub'').blocks = list.blocks := by
  obtain ⟨c, there, isSub⟩ := getElem?_of_sub holds
  refine List.ext_getElem? fun j => ?_
  simp only [blocks, setSub, List.getElem?_map, List.getElem?_modify]
  split
  · rename_i here
    subst here
    rw [there]
    simp [leavesOf, isSub, same]
  · cases list.candidates[j]? <;> rfl

@[simp] theorem blocks_focus : (list.focus i).blocks = list.blocks := rfl

theorem leaves_congr (same : sub'.blocks = list.blocks) : sub'.leaves = list.leaves :=
  congrArg List.flatten same

theorem leavesBefore_congr (same : sub'.blocks = list.blocks) :
    sub'.leavesBefore i = list.leavesBefore i :=
  congrArg (fun blocks => (List.take i blocks).flatten.length) same

theorem getElem?_blocks (inside : i < list.size) :
    list.blocks[i]? = some (leavesOf (list.candidate i)) := by
  have there := List.getElem?_eq_getElem inside
  rw [blocks, List.getElem?_map, there, candidate, List.getD_eq_getElem _ _ inside]
  rfl

theorem length_blocks (list : CandidateList) : list.blocks.length = list.size := List.length_map _

theorem leavesBefore_zero (list : CandidateList) : list.leavesBefore 0 = 0 := rfl

theorem leavesBefore_succ (inside : i < list.size) :
    list.leavesBefore (i + 1) = list.leavesBefore i + (leavesOf (list.candidate i)).length := by
  rw [leavesBefore, List.take_add_one, getElem?_blocks inside, List.flatten_append,
    List.length_append, leavesBefore]
  simp

theorem length_leavesOf_of_none (holds : list.sub i = none) :
    (leavesOf (list.candidate i)).length = 1 := by
  have isHeld : (list.candidate i).subcandidateList = none := holds
  rw [leavesOf, isHeld]
  rfl

theorem length_leavesOf_of_sub (holds : list.sub i = some sub') :
    (leavesOf (list.candidate i)).length = sub'.size := by
  have isHeld : (list.candidate i).subcandidateList = some sub' := holds
  rw [leavesOf, isHeld]
  rfl

theorem innerIndex_of_none (holds : list.sub list.focusedIndex = none) : list.innerIndex = 0 := by
  rw [innerIndex, holds]

theorem innerIndex_of_sub (holds : list.sub list.focusedIndex = some sub') :
    list.innerIndex = sub'.focusedIndex := by
  rw [innerIndex, holds]

theorem leavesBefore_size (list : CandidateList) : list.leavesBefore list.size = list.leaves.length := by
  rw [leavesBefore, List.take_of_length_le (length_blocks list).le, leaves]

theorem leavesBefore_le (list : CandidateList) (i : Nat) :
    list.leavesBefore i ≤ list.leaves.length := by
  have parts : list.leaves = (list.blocks.take i).flatten ++ (list.blocks.drop i).flatten := by
    rw [leaves, ← List.flatten_append, List.take_append_drop]
  rw [parts, List.length_append]
  exact Nat.le_add_right _ _

/-- The leaves of one candidate stand behind those of the candidates before it. -/
theorem getElem?_leaves (inside : i < list.size) {j : Nat}
    (within : j < (leavesOf (list.candidate i)).length) :
    list.leaves[list.leavesBefore i + j]? = (leavesOf (list.candidate i))[j]? := by
  obtain ⟨less, isBlock⟩ := List.getElem?_eq_some_iff.1 (getElem?_blocks inside)
  have parts : list.leaves = (list.blocks.take i).flatten ++
      (leavesOf (list.candidate i) ++ (list.blocks.drop (i + 1)).flatten) := by
    rw [leaves, ← isBlock, ← List.flatten_cons, ← List.flatten_append, List.getElem_cons_drop,
      List.take_append_drop]
  rw [parts, leavesBefore, List.getElem?_append_right (Nat.le_add_right _ _), Nat.add_sub_cancel_left,
    List.getElem?_append_left within]

end Blocks

namespace TwoLevels

variable {list sub' sub'' : CandidateList} {i : Nat}

/-- Every candidate has a leaf. -/
theorem length_leavesOf (levels : TwoLevels list) (i : Nat) :
    0 < (leavesOf (list.candidate i)).length := by
  cases holds : list.sub i with
  | none =>
      rw [length_leavesOf_of_none holds]
      exact Nat.one_pos
  | some sub' =>
      rw [length_leavesOf_of_sub holds]
      exact Nat.zero_lt_of_lt (levels.inner i sub' holds).here

theorem leavesBefore_lt (levels : TwoLevels list) (inside : i < list.size) :
    list.leavesBefore i < list.leaves.length := by
  have more := levels.length_leavesOf i
  have bound := leavesBefore_le list (i + 1)
  rw [leavesBefore_succ inside] at bound
  omega

/-- **The focus is on a leaf** of its candidate, and the deepest focused candidate is that leaf. -/
theorem getElem?_innerIndex (levels : TwoLevels list) :
    (leavesOf (list.candidate list.focusedIndex))[list.innerIndex]? =
      some list.getDeepestFocusedCandidate := by
  rw [getDeepestFocusedCandidate, innerIndex]
  split
  · rename_i sub' holds
    have plain := levels.inner _ sub' holds
    have isDeepest : sub'.candidates[sub'.focusedIndex]? = some sub'.getDeepestFocusedCandidate := by
      rw [getDeepestFocusedCandidate]
      split
      · rename_i deeper found
        rw [plain.flat] at found
        cases found
      · rw [focusedCandidate, candidate, List.getD_eq_getElem _ _ plain.here]
        exact List.getElem?_eq_getElem plain.here
    rw [holds]
    rw [sub] at holds
    rw [leavesOf, holds]
    exact isDeepest
  · rename_i holds
    rw [holds]
    rw [sub] at holds
    rw [leavesOf, holds]
    rfl

theorem innerIndex_lt (levels : TwoLevels list) :
    list.innerIndex < (leavesOf (list.candidate list.focusedIndex)).length :=
  (List.getElem?_eq_some_iff.1 levels.getElem?_innerIndex).1

theorem leafIndex_lt (levels : TwoLevels list) : list.leafIndex < list.leaves.length := by
  have within := levels.innerIndex_lt
  have bound := leavesBefore_le list (list.focusedIndex + 1)
  rw [leavesBefore_succ levels.here] at bound
  rw [leafIndex]
  omega

theorem getElem?_leafIndex (levels : TwoLevels list) :
    list.leaves[list.leafIndex]? = some list.getDeepestFocusedCandidate := by
  rw [leafIndex, getElem?_leaves levels.here levels.innerIndex_lt, levels.getElem?_innerIndex]

theorem focus (levels : TwoLevels list) (inside : i < list.size) : TwoLevels (list.focus i) :=
  ⟨levels.rotates, inside, levels.inner⟩

theorem setSub (levels : TwoLevels list) (inside : i < list.size) (plain : Plain sub') :
    TwoLevels (list.setSub i sub') := by
  refine ⟨levels.rotates, by simpa using levels.here, fun j other holds => ?_⟩
  rw [sub_setSub _ _ _ _ inside] at holds
  split at holds
  · cases holds
    exact plain
  · exact levels.inner j other holds

end TwoLevels

/-! ## Steps -/

/-- The list `l'` is `l` with the focus on the leaf `n`. -/
structure At (list : CandidateList) (n : Nat) (moved : CandidateList) : Prop where
  levels : TwoLevels moved
  same : moved.blocks = list.blocks
  leaf : moved.leafIndex = n

section Steps

variable {list sub' : CandidateList} {i : Nat}

theorem Plain.focus (plain : Plain list) (inside : i < list.size) : Plain (list.focus i) :=
  ⟨plain.still, inside, plain.flat⟩

theorem lastIndex_lt (nonempty : 0 < list.size) : list.lastIndex < list.size :=
  Nat.sub_one_lt (Nat.ne_of_gt nonempty)

/-- Wherever the focus of the inner list goes, the leaves stay. -/
theorem at_setSub {n : Nat} (levels : TwoLevels list) (holds : list.sub list.focusedIndex = some sub')
    (plain : Plain sub') (inside : n < sub'.size) :
    At list (list.leavesBefore list.focusedIndex + n)
      (list.setSub list.focusedIndex (sub'.focus n)) := by
  have same := @blocks_setSub list sub' (sub'.focus n) list.focusedIndex holds rfl
  refine ⟨levels.setSub levels.here (plain.focus inside), same, ?_⟩
  have isSub : (list.setSub list.focusedIndex (sub'.focus n)).sub list.focusedIndex =
      some (sub'.focus n) := by
    rw [sub_setSub _ _ _ _ levels.here, if_pos rfl]
  rw [leafIndex, leavesBefore_congr same, innerIndex_of_sub isSub]
  rfl

/-- A candidate is entered at its first leaf. -/
theorem at_enter_moveFirst (levels : TwoLevels list) (inside : i < list.size) :
    At list (list.leavesBefore i) ((list.focus i).enter moveFirst) := by
  have focused := levels.focus inside
  unfold enter
  split
  · rename_i sub' holds
    have plain := levels.inner i sub' holds
    have entered := at_setSub focused holds plain (Nat.zero_lt_of_lt plain.here)
    exact ⟨entered.levels, entered.same, entered.leaf⟩
  · rename_i holds
    refine ⟨focused, rfl, ?_⟩
    rw [leafIndex, innerIndex_of_none holds]
    rfl

/-- A candidate is entered from behind at its last leaf. -/
theorem at_enter_moveLast (levels : TwoLevels list) (inside : i < list.size) :
    At list (list.leavesBefore (i + 1) - 1) ((list.focus i).enter moveLast) := by
  have focused := levels.focus inside
  unfold enter
  split
  · rename_i sub' holds
    have plain := levels.inner i sub' holds
    have less : 0 < sub'.size := Nat.zero_lt_of_lt plain.here
    have entered := at_setSub focused holds plain (lastIndex_lt less)
    refine ⟨entered.levels, entered.same, entered.leaf.trans ?_⟩
    have count : (leavesOf (list.candidate i)).length = sub'.size := length_leavesOf_of_sub holds
    rw [leavesBefore_succ inside, count]
    exact (Nat.add_sub_assoc less _).symm
  · rename_i holds
    have count : (leavesOf (list.candidate i)).length = 1 := length_leavesOf_of_none holds
    refine ⟨focused, rfl, ?_⟩
    rw [leafIndex, innerIndex_of_none holds, leavesBefore_succ inside, count]
    rfl

/-- The list goes on to the first leaf of the next candidate. -/
theorem at_stepNext (levels : TwoLevels list) :
    At list (list.leavesBefore (list.focusedIndex + 1) % list.leaves.length) list.stepNext.2 := by
  have here := levels.here
  unfold stepNext
  split
  · rename_i isLast
    rw [if_pos levels.rotates]
    have whole : list.focusedIndex + 1 = list.size := by
      rw [isLast, lastIndex]
      omega
    rw [whole, leavesBefore_size, Nat.mod_self]
    exact at_enter_moveFirst levels (Nat.zero_lt_of_lt here)
  · rename_i notLast
    rw [lastIndex] at notLast
    have inside : list.focusedIndex + 1 < list.size := by omega
    rw [Nat.mod_eq_of_lt (levels.leavesBefore_lt inside)]
    exact at_enter_moveFirst levels inside

/-- The list goes back to the last leaf of the candidate before. -/
theorem at_stepPrev (levels : TwoLevels list) :
    At list ((list.leavesBefore list.focusedIndex + (list.leaves.length - 1)) % list.leaves.length)
      list.stepPrev.2 := by
  have here := levels.here
  unfold stepPrev
  split
  · rename_i isFirst
    rw [if_pos levels.rotates]
    have last := at_enter_moveLast levels (lastIndex_lt (Nat.zero_lt_of_lt here))
    have whole : list.lastIndex + 1 = list.size := by
      rw [lastIndex]
      omega
    have positive : 0 < list.leaves.length := Nat.zero_lt_of_lt levels.leafIndex_lt
    rw [whole, leavesBefore_size] at last
    rw [isFirst, leavesBefore_zero, Nat.zero_add, Nat.mod_eq_of_lt (by omega)]
    exact last
  · rename_i notFirst
    have prev := at_enter_moveLast levels (show list.focusedIndex - 1 < list.size by omega)
    have back : list.focusedIndex - 1 + 1 = list.focusedIndex := by omega
    have less := levels.leavesBefore_lt here
    have before : 0 < list.leavesBefore list.focusedIndex := by
      rw [← back, leavesBefore_succ (by omega)]
      exact Nat.lt_of_lt_of_le (levels.length_leavesOf _) (Nat.le_add_left _ _)
    have wrapped : (list.leavesBefore list.focusedIndex + (list.leaves.length - 1)) %
        list.leaves.length = list.leavesBefore list.focusedIndex - 1 := by
      have split : list.leavesBefore list.focusedIndex + (list.leaves.length - 1) =
          list.leavesBefore list.focusedIndex - 1 + list.leaves.length := by omega
      rw [split, Nat.add_mod_right, Nat.mod_eq_of_lt (by omega)]
    rw [back] at prev
    rw [wrapped]
    exact prev

/-- A move in a list of plain candidates is one step. -/
theorem delegate_plain (step : CandidateList → Bool × CandidateList) (plain : Plain list) :
    list.delegate step = step list := by
  rw [delegate]
  split
  · rfl
  · rename_i sub' holds
    rw [plain.flat] at holds
    cases holds

/-- A list of plain candidates goes to its next one, or back to its first one and refuses. -/
theorem stepNext_plain (plain : Plain list) :
    list.stepNext = if list.focusedIndex = list.lastIndex then (false, list.focus 0)
      else (true, list.focus (list.focusedIndex + 1)) := by
  have still : (list.rotate = true) = False := by simp [plain.still]
  simp only [stepNext, still, if_false, enter, sub_focus, plain.flat, moveFirst]

theorem stepPrev_plain (plain : Plain list) :
    list.stepPrev = if list.focusedIndex = 0 then (false, list.focus list.lastIndex)
      else (true, list.focus (list.focusedIndex - 1)) := by
  have still : (list.rotate = true) = False := by simp [plain.still]
  simp only [stepPrev, still, if_false, enter, sub_focus, plain.flat, moveLast]

/-- **`MoveNext` goes to the next leaf.** -/
theorem at_moveNext (levels : TwoLevels list) :
    At list ((list.leafIndex + 1) % list.leaves.length) list.moveNext.2 := by
  have here := levels.here
  have next := leavesBefore_succ here
  unfold moveNext
  rw [delegate]
  split
  · rename_i holds
    have leaf : list.leafIndex + 1 = list.leavesBefore (list.focusedIndex + 1) := by
      rw [leafIndex, innerIndex_of_none holds, next, length_leavesOf_of_none holds]
    rw [leaf]
    exact at_stepNext levels
  · rename_i sub' holds
    have plain := levels.inner _ sub' holds
    have leaf : list.leafIndex = list.leavesBefore list.focusedIndex + sub'.focusedIndex := by
      rw [leafIndex, innerIndex_of_sub holds]
    rw [length_leavesOf_of_sub holds] at next
    rw [delegate_plain _ plain, stepNext_plain plain]
    by_cases isLast : sub'.focusedIndex = sub'.lastIndex
    · -- the inner list refuses and goes back to its first candidate, and the list itself moves
      have reset := at_setSub levels holds plain (Nat.zero_lt_of_lt plain.here)
      have last : list.leafIndex + 1 = list.leavesBefore (list.focusedIndex + 1) := by
        have nonempty := plain.here
        rw [leaf, next, isLast, lastIndex]
        omega
      have moved := at_stepNext reset.levels
      rw [leavesBefore_congr reset.same, leaves_congr reset.same, focusedIndex_setSub, ← last] at moved
      rw [if_pos isLast]
      exact ⟨moved.levels, moved.same.trans reset.same, moved.leaf⟩
    · have inside : sub'.focusedIndex + 1 < sub'.size := by
        have nonempty := plain.here
        rw [lastIndex] at isLast
        omega
      have bound := leavesBefore_le list (list.focusedIndex + 1)
      rw [if_neg isLast, leaf, Nat.mod_eq_of_lt (by omega)]
      exact at_setSub levels holds plain inside

/-- **`MovePrev` goes to the leaf before.** -/
theorem at_movePrev (levels : TwoLevels list) :
    At list ((list.leafIndex + (list.leaves.length - 1)) % list.leaves.length) list.movePrev.2 := by
  unfold movePrev
  rw [delegate]
  split
  · rename_i holds
    have leaf : list.leafIndex = list.leavesBefore list.focusedIndex := by
      rw [leafIndex, innerIndex_of_none holds]
      rfl
    rw [leaf]
    exact at_stepPrev levels
  · rename_i sub' holds
    have plain := levels.inner _ sub' holds
    have leaf : list.leafIndex = list.leavesBefore list.focusedIndex + sub'.focusedIndex := by
      rw [leafIndex, innerIndex_of_sub holds]
    rw [delegate_plain _ plain, stepPrev_plain plain]
    by_cases isFirst : sub'.focusedIndex = 0
    · have reset := at_setSub levels holds plain (lastIndex_lt (Nat.zero_lt_of_lt plain.here))
      have moved := at_stepPrev reset.levels
      rw [leavesBefore_congr reset.same, leaves_congr reset.same, focusedIndex_setSub] at moved
      rw [if_pos isFirst, leaf, isFirst]
      exact ⟨moved.levels, moved.same.trans reset.same, moved.leaf⟩
    · have inside : sub'.focusedIndex - 1 < sub'.size := (Nat.sub_le _ _).trans_lt plain.here
      have less := levels.leafIndex_lt
      have back : (list.leafIndex + (list.leaves.length - 1)) % list.leaves.length =
          list.leavesBefore list.focusedIndex + (sub'.focusedIndex - 1) := by
        have split : list.leafIndex + (list.leaves.length - 1) =
            list.leafIndex - 1 + list.leaves.length := by omega
        rw [split, Nat.add_mod_right, Nat.mod_eq_of_lt (by omega), leaf]
        omega
      rw [if_neg isFirst, back]
      exact at_setSub levels holds plain inside

end Steps

/-! ## Main result -/

section Traversal

variable {list : CandidateList}

/-- **Every number of moves** to the next leaf. -/
theorem at_iterate_moveNext (levels : TwoLevels list) (k : Nat) :
    At list ((list.leafIndex + k) % list.leaves.length)
      ((fun l : CandidateList => l.moveNext.2)^[k] list) := by
  induction k with
  | zero => exact ⟨levels, rfl, (Nat.mod_eq_of_lt levels.leafIndex_lt).symm⟩
  | succ k ih =>
      rw [Function.iterate_succ_apply']
      have moved := at_moveNext ih.levels
      rw [leaves_congr ih.same, ih.leaf, Nat.mod_add_mod] at moved
      exact ⟨moved.levels, moved.same.trans ih.same, moved.leaf⟩

/-- Two lists with the same leaves and the focus on the same one have it on the same candidate. -/
theorem At.deepest {n : Nat} {moved : CandidateList} (arrived : At list n moved) :
    list.leaves[n]? = some moved.getDeepestFocusedCandidate := by
  rw [← arrived.leaf, ← leaves_congr arrived.same]
  exact arrived.levels.getElem?_leafIndex

/-- A step forth and a step back. -/
theorem mod_succ_pred {n x : Nat} (less : x < n) : ((x + 1) % n + (n - 1)) % n = x := by
  rw [Nat.mod_add_mod, show x + 1 + (n - 1) = x + n by omega, Nat.add_mod_right,
    Nat.mod_eq_of_lt less]

theorem mod_pred_succ {n x : Nat} (less : x < n) : ((x + (n - 1)) % n + 1) % n = x := by
  rw [Nat.mod_add_mod, show x + (n - 1) + 1 = x + n by omega, Nat.add_mod_right,
    Nat.mod_eq_of_lt less]

/-- **Walking through the list** from the first leaf, `MoveNext` is at the leaf `k` after `k` moves
and at the first one again after the last; and `MovePrev` and `MoveNext` are inverse to each other
on the leaves and on the deepest focused candidate. -/
theorem getDeepestFocusedCandidate_traversal (levels : TwoLevels list) :
    (list.leafIndex = 0 → ∀ k,
      let moved := (fun l : CandidateList => l.moveNext.2)^[k] list
      moved.leafIndex = k % list.leaves.length ∧
        list.leaves[k % list.leaves.length]? = some moved.getDeepestFocusedCandidate) ∧
    (list.moveNext.2.movePrev.2.leafIndex = list.leafIndex ∧
      list.moveNext.2.movePrev.2.getDeepestFocusedCandidate = list.getDeepestFocusedCandidate) ∧
    list.movePrev.2.moveNext.2.leafIndex = list.leafIndex ∧
      list.movePrev.2.moveNext.2.getDeepestFocusedCandidate = list.getDeepestFocusedCandidate := by
  have there := levels.getElem?_leafIndex
  refine ⟨fun first k => ?_, ?_, ?_⟩
  · have arrived := at_iterate_moveNext levels k
    rw [first, Nat.zero_add] at arrived
    exact ⟨arrived.leaf, arrived.deepest⟩
  · have next := at_moveNext levels
    have back := at_movePrev next.levels
    rw [leaves_congr next.same, next.leaf, mod_succ_pred levels.leafIndex_lt] at back
    have same := back.deepest
    rw [leaves_congr next.same, there] at same
    exact ⟨back.leaf, (Option.some.inj same).symm⟩
  · have prev := at_movePrev levels
    have back := at_moveNext prev.levels
    rw [leaves_congr prev.same, prev.leaf, mod_pred_succ levels.leafIndex_lt] at back
    have same := back.deepest
    rw [leaves_congr prev.same, there] at same
    exact ⟨back.leaf, (Option.some.inj same).symm⟩

/-- A candidate, a list of two whose second one has the focus from an earlier visit, and a candidate
again. -/
def three : CandidateList :=
  { candidates := [{ id := 0 },
      { subcandidateList := some { candidates := [{ id := 1 }, { id := 2 }], focusedIndex := 1 } },
      { id := 3 }]
    rotate := true }

theorem twoLevels_three : TwoLevels three := by
  refine ⟨rfl, Nat.succ_pos 2, fun i sub' holds => ?_⟩
  match i, holds with
  | 0, holds => cases holds
  | 1, holds =>
      cases holds
      refine ⟨rfl, Nat.one_lt_two, fun j => ?_⟩
      match j with
      | 0 => rfl
      | 1 => rfl
      | j + 2 => rfl
  | 2, holds => cases holds
  | i + 3, holds => cases holds

/-- The second move is to the second leaf of the four, and the inner list is entered at its
beginning. -/
theorem getDeepestFocusedCandidate_three :
    let moved := (fun l : CandidateList => l.moveNext.2)^[1] three
    moved.leafIndex = 1 % 4 ∧ three.leaves[1]? = some moved.getDeepestFocusedCandidate :=
  (getDeepestFocusedCandidate_traversal twoLevels_three).1 rfl 1

end Traversal

end Mozkey.Engine.CandidateList
