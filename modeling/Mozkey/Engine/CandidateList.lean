import Mozkey.Base.ByteString

/-!
# Candidate lists

The candidates of a conversion are shown in a list that is cut into pages, and one of them has the
focus.  A candidate may hold a list of its own, which has a focus as well; a move is tried there
first, and only when the inner list refuses it the outer one moves.

Indices and sizes of vectors stay far below 2^64 and are natural numbers here, but the index of
`MoveToPageIndex` may be any, and the sum it is part of is taken modulo 2^64.  The moves are meant
for lists that are not empty.
-/

namespace Mozkey.Engine

/-! ## Candidates and lists -/

/-- `engine::Candidate`, with a list of the type `L` of its own. -/
structure Candidate (L : Type) where
  id : Int := 0
  attributes : UInt32 := 0
  subcandidateList : Option L := none

namespace Candidate

variable {L : Type}

def addAttributes (candidate : Candidate L) (attributes : UInt32) : Candidate L :=
  { candidate with attributes := candidate.attributes ||| attributes }

def hasAttributes (candidate : Candidate L) (attributes : UInt32) : Bool :=
  candidate.attributes &&& attributes == attributes

end Candidate

/-- `CandidateList`.  A later entry of `alternativeIds` stands in front of an earlier one with the
same key and hides it. -/
structure CandidateList where
  pageSize : Nat := 9
  focusedIndex : Nat := 0
  candidates : List (Candidate CandidateList) := []
  addedCandidates : List (UInt64 × Int) := []
  alternativeIds : List (Int × Int) := []
  nextAvailableId : Int := 0
  rotate : Bool := false

namespace CandidateList

def size (list : CandidateList) : Nat := list.candidates.length

def lastIndex (list : CandidateList) : Nat := list.size - 1

/-- `candidates_[index]`.  Behind the end of the vector there is none; it is an empty one here. -/
def candidate (list : CandidateList) (index : Nat) : Candidate CandidateList :=
  list.candidates.getD index {}

def focusedCandidate (list : CandidateList) : Candidate CandidateList :=
  list.candidate list.focusedIndex

/-- The list that a candidate holds. -/
def sub (list : CandidateList) (index : Nat) : Option CandidateList :=
  (list.candidate index).subcandidateList

/-- The list that a candidate holds becomes another one. -/
def setSub (list : CandidateList) (index : Nat) (sub : CandidateList) : CandidateList :=
  { list with
    candidates := list.candidates.modify index fun c => { c with subcandidateList := some sub } }

def focus (list : CandidateList) (index : Nat) : CandidateList := { list with focusedIndex := index }

section Fields

variable (list sub' : CandidateList) (i j : Nat)

@[simp] theorem size_setSub : (list.setSub i sub').size = list.size := List.length_modify ..
@[simp] theorem focusedIndex_setSub : (list.setSub i sub').focusedIndex = list.focusedIndex := rfl
@[simp] theorem pageSize_setSub : (list.setSub i sub').pageSize = list.pageSize := rfl
@[simp] theorem rotate_setSub : (list.setSub i sub').rotate = list.rotate := rfl
@[simp] theorem size_focus : (list.focus i).size = list.size := rfl
@[simp] theorem focusedIndex_focus : (list.focus i).focusedIndex = i := rfl
@[simp] theorem pageSize_focus : (list.focus i).pageSize = list.pageSize := rfl
@[simp] theorem rotate_focus : (list.focus i).rotate = list.rotate := rfl
@[simp] theorem candidate_focus : (list.focus i).candidate j = list.candidate j := rfl
@[simp] theorem sub_focus : (list.focus i).sub j = list.sub j := rfl

theorem candidate_setSub (inside : i < list.size) :
    (list.setSub i sub').candidate j =
      if i = j then { list.candidate i with subcandidateList := some sub' }
      else list.candidate j := by
  simp only [candidate, setSub, List.getD_eq_getElem?_getD, List.getElem?_modify]
  split
  · rename_i same
    subst same
    obtain ⟨c, there⟩ : ∃ c, list.candidates[i]? = some c := ⟨_, List.getElem?_eq_getElem inside⟩
    rw [there]
    rfl
  · cases list.candidates[j]? <;> rfl

/-- A candidate that holds a list is one of the list. -/
theorem lt_size_of_sub {list sub' : CandidateList} {i : Nat} (holds : list.sub i = some sub') :
    i < list.size := by
  by_contra beyond
  rw [sub, candidate, List.getD_eq_default _ _ (Nat.le_of_not_lt beyond)] at holds
  cases holds

theorem sub_setSub (inside : i < list.size) :
    (list.setSub i sub').sub j = if i = j then some sub' else list.sub j := by
  rw [sub, candidate_setSub _ _ _ _ inside]
  split
  · rfl
  · rfl

end Fields

/-- A list that a candidate holds is smaller than the list of the candidate. -/
theorem sizeOf_sub_lt {list sub' : CandidateList} {i : Nat} (holds : list.sub i = some sub') :
    sizeOf sub' < sizeOf list := by
  have inside := lt_size_of_sub holds
  have member : list.candidate i ∈ list.candidates := by
    rw [candidate, List.getD_eq_getElem _ _ inside]
    exact List.getElem_mem inside
  have candidateLess := List.sizeOf_lt_of_mem member
  have subLess : sizeOf sub' < sizeOf (list.candidate i) := by
    unfold sub at holds
    cases isCandidate : list.candidate i with
    | mk id attributes subcandidateList =>
        rw [isCandidate] at holds
        obtain rfl : subcandidateList = some sub' := holds
        simp only [Candidate.mk.sizeOf_spec, Option.some.sizeOf_spec]
        omega
  cases list with
  | mk pageSize focusedIndex candidates addedCandidates alternativeIds nextAvailableId rotate =>
      simp only [CandidateList.mk.sizeOf_spec]
      have less : sizeOf sub' < sizeOf candidates := subLess.trans candidateLess
      omega

/-! ## Pages and steps -/

/-- `GetPageRange`. -/
def pageRange (list : CandidateList) (index : Nat) : Nat × Nat :=
  let start := index - index % list.pageSize
  (start, min list.size (start + list.pageSize))

def isFirstPage (list : CandidateList) (index : Nat) : Bool := index < list.pageSize

def isLastPage (list : CandidateList) (index : Nat) : Bool := (list.pageRange index).2 = list.size

def moveFirst (list : CandidateList) : CandidateList := list.focus 0

def moveLast (list : CandidateList) : CandidateList := list.focus list.lastIndex

/-- The focus goes to the beginning of its page. -/
def toPageStart (list : CandidateList) : CandidateList :=
  list.focus (list.focusedIndex - list.focusedIndex % list.pageSize)

/-- When the focused candidate holds a list, the focus in there is moved as well. -/
def enter (move : CandidateList → CandidateList) (list : CandidateList) : CandidateList :=
  match list.sub list.focusedIndex with
  | some sub => list.setSub list.focusedIndex (move sub)
  | none => list

/-- What `MoveNext` does with the list itself. -/
def stepNext (list : CandidateList) : Bool × CandidateList :=
  if list.focusedIndex = list.lastIndex then
    if list.rotate then (true, list.moveFirst.enter moveFirst) else (false, list.moveFirst)
  else (true, (list.focus (list.focusedIndex + 1)).enter moveFirst)

/-- What `MovePrev` does with the list itself. -/
def stepPrev (list : CandidateList) : Bool × CandidateList :=
  if list.focusedIndex = 0 then
    if list.rotate then (true, list.moveLast.enter moveLast) else (false, list.moveLast)
  else (true, (list.focus (list.focusedIndex - 1)).enter moveLast)

/-- What `MoveNextPage` does with the list itself. -/
def stepNextPage (list : CandidateList) : Bool × CandidateList :=
  if list.isLastPage list.focusedIndex then
    if list.rotate then (true, list.moveFirst.toPageStart.enter moveFirst) else (false, list)
  else (true, (list.focus (list.focusedIndex + list.pageSize)).toPageStart.enter moveFirst)

/-- What `MovePrevPage` does with the list itself. -/
def stepPrevPage (list : CandidateList) : Bool × CandidateList :=
  if list.isFirstPage list.focusedIndex then
    if list.rotate then (true, list.moveLast.toPageStart.enter moveFirst) else (false, list)
  else (true, (list.focus (list.focusedIndex - list.pageSize)).toPageStart.enter moveFirst)

/-- A move is tried in the list that the focused candidate holds, before the list itself moves. -/
def delegate (step : CandidateList → Bool × CandidateList) (list : CandidateList) :
    Bool × CandidateList :=
  match _holds : list.sub list.focusedIndex with
  | none => step list
  | some sub =>
      let moved := delegate step sub
      let list := list.setSub list.focusedIndex moved.2
      if moved.1 then (true, list) else step list
termination_by sizeOf list
decreasing_by exact sizeOf_sub_lt _holds

def moveNext : CandidateList → Bool × CandidateList := delegate stepNext

def movePrev : CandidateList → Bool × CandidateList := delegate stepPrev

def moveNextPage : CandidateList → Bool × CandidateList := delegate stepNextPage

def movePrevPage : CandidateList → Bool × CandidateList := delegate stepPrevPage

/-- `MoveToPageIndex`. -/
def moveToPageIndex (list : CandidateList) (pageIndex : UInt64) : Bool × CandidateList :=
  let page := list.pageRange list.focusedIndex
  let index := (page.1 + pageIndex.toNat) % 2 ^ 64
  if index > page.2 then (false, list) else (true, (list.focus index).enter moveFirst)

/-! ## Searches -/

/-- A search for a candidate: in which order the candidates are looked at, what is looked for in
the list once the list was asked, and which candidate is a hit. -/
structure Search (κ : Type) where
  order : CandidateList → List Nat
  key : CandidateList → κ → κ
  isHit : κ → Candidate CandidateList → Bool

/-- The loop of a search.  `found` is what the search in the list of a candidate gives. -/
def visit (found : Nat → Option (Bool × CandidateList)) (isHit : Candidate CandidateList → Bool) :
    List Nat → CandidateList → Bool × CandidateList
  | [], list => (false, list)
  | index :: indices, list =>
      match found index with
      | some (true, sub) => (true, (list.setSub index sub).focus index)
      | some (false, sub) =>
          let list := list.setSub index sub
          if isHit (list.candidate index) then (true, list.focus index)
          else visit found isHit indices list
      | none =>
          if isHit (list.candidate index) then (true, list.focus index)
          else visit found isHit indices list

/-- A search goes into the list of a candidate before it looks at the candidate itself. -/
def search {κ : Type} (s : Search κ) (list : CandidateList) (key : κ) : Bool × CandidateList :=
  let key := s.key list key
  visit
    (fun index =>
      match _holds : list.sub index with
      | some sub => some (search s sub key)
      | none => none)
    (s.isHit key) (s.order list) list
termination_by sizeOf list
decreasing_by exact sizeOf_sub_lt _holds

/-- From the focus on, and round. -/
def attributesSearch : Search UInt32 where
  order list := (List.range list.size).map fun i => (list.focusedIndex + i) % list.size
  key _ attributes := attributes
  isHit attributes candidate := candidate.hasAttributes attributes

def moveToAttributes (list : CandidateList) (attributes : UInt32) : Bool × CandidateList :=
  search attributesSearch list attributes

def moveNextAttributes (list : CandidateList) (attributes : UInt32) : Bool × CandidateList :=
  list.moveNext.2.moveToAttributes attributes

/-- From the first candidate on, for the id that stands for the given one. -/
def idSearch : Search Int where
  order list := List.range list.size
  key list id := (list.alternativeIds.lookup id).getD id
  isHit id candidate := candidate.id = id

def moveToId (list : CandidateList) (id : Int) : Bool × CandidateList := search idSearch list id

/-! ## Additions -/

section Additions

variable (fingerprint : ByteString → UInt64)

/-- `AddCandidateWithAttributes`. -/
def addCandidateWithAttributes (list : CandidateList) (id : Int) (value : ByteString)
    (attributes : UInt32) : CandidateList :=
  let nextAvailableId := if id ≥ 0 then id + 1 else list.nextAvailableId
  match list.addedCandidates.lookup (fingerprint value) with
  | some altId =>
      { list with
        nextAvailableId := nextAvailableId
        alternativeIds := (id, altId) :: list.alternativeIds
        candidates := list.candidates.map fun c =>
          if c.id = altId then c.addAttributes attributes else c }
  | none =>
      { list with
        nextAvailableId := nextAvailableId
        addedCandidates := (fingerprint value, id) :: list.addedCandidates
        candidates := list.candidates ++ [{ id := id, attributes := attributes }] }

/-- `AddSubCandidateList`. -/
def addSubCandidateList (list : CandidateList) : CandidateList :=
  { list with candidates := list.candidates ++ [{ subcandidateList := some {} }] }

/-- A change of the list that is held by a candidate of a list that is held by a candidate, and so
on. -/
def atPath (change : CandidateList → CandidateList) : List Nat → CandidateList → CandidateList
  | [], list => change list
  | index :: path, list =>
      match list.sub index with
      | some sub => list.setSub index (atPath change path sub)
      | none => list

/-- A candidate is added to the list, or to the innermost of some new lists, each in the one before
it. -/
def addCandidateBelow (id : Int) (value : ByteString) (attributes : UInt32) :
    Nat → CandidateList → CandidateList
  | 0, list => list.addCandidateWithAttributes fingerprint id value attributes
  | depth + 1, list =>
      list.addSubCandidateList.atPath (addCandidateBelow id value attributes depth) [list.size]

/-- What can be done with a list.  A candidate is added to the list at a path, or to a list that is
new there; a new list gets its first candidate in the same operation. -/
inductive Operation
  | moveFirst
  | moveLast
  | moveNext
  | movePrev
  | moveNextPage
  | movePrevPage
  | moveNextAttributes (attributes : UInt32)
  | moveToAttributes (attributes : UInt32)
  | moveToId (id : Int)
  | moveToPageIndex (pageIndex : UInt64)
  | addCandidate (path : List Nat) (depth : Nat) (id : Int) (value : ByteString)
      (attributes : UInt32)

def run (list : CandidateList) : Operation → CandidateList
  | .moveFirst => list.moveFirst
  | .moveLast => list.moveLast
  | .moveNext => list.moveNext.2
  | .movePrev => list.movePrev.2
  | .moveNextPage => list.moveNextPage.2
  | .movePrevPage => list.movePrevPage.2
  | .moveNextAttributes attributes => (list.moveNextAttributes attributes).2
  | .moveToAttributes attributes => (list.moveToAttributes attributes).2
  | .moveToId id => (list.moveToId id).2
  | .moveToPageIndex pageIndex => (list.moveToPageIndex pageIndex).2
  | .addCandidate path depth id value attributes =>
      list.atPath (addCandidateBelow fingerprint id value attributes depth) path

end Additions

/-! ## What additions change -/

/-- The list of a candidate of a longer list. -/
theorem sub_append (list : CandidateList) (c : Candidate CandidateList) (i : Nat) :
    ({ list with candidates := list.candidates ++ [c] } : CandidateList).sub i =
      if i = list.size then c.subcandidateList else list.sub i := by
  simp only [sub, candidate, List.getD_eq_getElem?_getD]
  split
  · rename_i same
    subst same
    rw [size, List.getElem?_append_right le_rfl, Nat.sub_self]
    rfl
  · rename_i differs
    rcases Nat.lt_or_gt_of_ne differs with less | greater
    · rw [List.getElem?_append_left less]
    · have beyond : list.candidates.length < i := greater
      rw [List.getElem?_eq_none (by simpa using beyond), List.getElem?_eq_none (by omega)]

theorem sub_map (list : CandidateList) {f : Candidate CandidateList → Candidate CandidateList}
    (same : ∀ c, (f c).subcandidateList = c.subcandidateList) (i : Nat) :
    ({ list with candidates := list.candidates.map f } : CandidateList).sub i = list.sub i := by
  simp only [sub, candidate, List.getD_eq_getElem?_getD, List.getElem?_map]
  cases list.candidates[i]? with
  | none => rfl
  | some c => exact same c

section Additions

variable {fingerprint : ByteString → UInt64} {list : CandidateList}

theorem sub_addCandidateWithAttributes (id : Int) (value : ByteString) (attributes : UInt32)
    (i : Nat) :
    (list.addCandidateWithAttributes fingerprint id value attributes).sub i = list.sub i := by
  unfold addCandidateWithAttributes
  dsimp only
  split
  · refine sub_map _ (fun c => ?_) i
    split <;> rfl
  · refine (sub_append _ _ i).trans ?_
    split
    · rename_i same
      subst same
      rw [sub, candidate, List.getD_eq_default]
      exact le_rfl
    · rfl

theorem fields_addCandidateWithAttributes (id : Int) (value : ByteString) (attributes : UInt32) :
    let added := list.addCandidateWithAttributes fingerprint id value attributes
    added.focusedIndex = list.focusedIndex ∧ added.pageSize = list.pageSize ∧
      list.size ≤ added.size := by
  unfold addCandidateWithAttributes size
  dsimp only
  split <;> simp

/-- A new list behind the others, with what is put into it. -/
theorem sub_addSubCandidateList (change : CandidateList → CandidateList) (i : Nat) :
    (list.addSubCandidateList.atPath change [list.size]).sub i =
      if list.size = i then some (change {}) else list.sub i := by
  have isNew : list.addSubCandidateList.sub list.size = some {} := by
    rw [CandidateList.addSubCandidateList, sub_append, if_pos rfl]
  rw [CandidateList.atPath, isNew]
  dsimp only [CandidateList.atPath]
  rw [sub_setSub _ _ _ _ (lt_size_of_sub isNew)]
  split
  · rfl
  · rename_i differs
    rw [CandidateList.addSubCandidateList, sub_append, if_neg (Ne.symm differs)]

theorem fields_addSubCandidateList (change : CandidateList → CandidateList) :
    let added := list.addSubCandidateList.atPath change [list.size]
    added.focusedIndex = list.focusedIndex ∧ added.pageSize = list.pageSize ∧
      added.size = list.size + 1 := by
  have isNew : list.addSubCandidateList.sub list.size = some {} := by
    rw [CandidateList.addSubCandidateList, sub_append, if_pos rfl]
  rw [CandidateList.atPath, isNew]
  exact ⟨rfl, rfl, (size_setSub ..).trans (List.length_append ..)⟩

end Additions

end CandidateList

end Mozkey.Engine
