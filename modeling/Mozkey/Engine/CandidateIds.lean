import Mozkey.Engine.CandidateList

/-!
# The ids of a candidate list

A candidate is added under an id.  When its value is in the list already, only the id is remembered,
as another name of the id under which the value is stored.  `MoveToId` looks for a candidate by its
id, in the order in which the candidates are shown and in a sublist before its holder.

The holder of a sublist is a candidate too, and its id is 0, which nobody gave to it.  And an id is
redirected anew in each list on the way down.  So the search can end at a holder when it looks for
0, and it can look for an id that was redirected twice.  Otherwise it finds what it should.
-/

namespace Mozkey.Engine

namespace CandidateList

/-- `focused_id`. -/
def focusedId (list : CandidateList) : Int :=
  if list.size = 0 then 0
  else
    match _holds : list.sub list.focusedIndex with
    | some sub => focusedId sub
    | none => list.focusedCandidate.id
termination_by sizeOf list
decreasing_by exact sizeOf_sub_lt _holds

end CandidateList

/-- The id that `focused_id` reports when the focus is on the candidate. -/
def Candidate.focusedId (c : Candidate CandidateList) : Int :=
  match c.subcandidateList with
  | some sub => sub.focusedId
  | none => c.id

namespace CandidateList

/-! ## Building a list -/

/-- A call of `AddCandidateWithAttributes`, or one of `AddSubCandidateList` with the calls for the
list it returns. -/
inductive Call
  | add (id : Int) (value : ByteString) (attributes : UInt32)
  | sub (inner : List Call)

/-- An id was added, to the list or to one of its sublists. -/
inductive Added : List Call → Int → Prop
  | here {calls : List Call} {id : Int} {value : ByteString} {attributes : UInt32}
      (isCall : .add id value attributes ∈ calls) : Added calls id
  | inside {calls inner : List Call} {id : Int} (isCall : .sub inner ∈ calls)
      (added : Added inner id) : Added calls id

/-- A value was added, to the list or to one of its sublists. -/
inductive HasValue : List Call → ByteString → Prop
  | here {calls : List Call} {id : Int} {value : ByteString} {attributes : UInt32}
      (isCall : .add id value attributes ∈ calls) : HasValue calls value
  | inside {calls inner : List Call} {value : ByteString} (isCall : .sub inner ∈ calls)
      (has : HasValue inner value) : HasValue calls value

/-- The id under which the call stores the value, unless it is stored already. -/
def Call.idOf (value : ByteString) : Call → Option Int
  | .add id value' _ => if value' = value then some id else none
  | .sub _ => none

/-- The id under which a list stores a value. -/
def storedId (calls : List Call) (value : ByteString) : Option Int :=
  calls.findSome? (Call.idOf value)

/-- In some list, `stored` is the id under which a value is stored that was added under `id`. -/
inductive Stored : List Call → Int → Int → Prop
  | here {calls : List Call} {id stored : Int} {value : ByteString} {attributes : UInt32}
      (isCall : .add id value attributes ∈ calls) (first : storedId calls value = some stored) :
      Stored calls id stored
  | inside {calls inner : List Call} {id stored : Int} (isCall : .sub inner ∈ calls)
      (found : Stored inner id stored) : Stored calls id stored

theorem Stored.added {calls : List Call} {id stored : Int} (found : Stored calls id stored) :
    Added calls id := by
  induction found with
  | here isCall _ => exact .here isCall
  | inside isCall _ ih => exact .inside isCall ih

/-- The fingerprints of distinct values are distinct. -/
def DistinctFingerprints (fingerprint : ByteString → UInt64) (calls : List Call) : Prop :=
  ∀ v w, HasValue calls v → HasValue calls w → fingerprint v = fingerprint w → v = w

/-- A list that was built by calls, and any candidate of it, and of its sublists, may have the
focus. -/
inductive Built (fingerprint : ByteString → UInt64) : List Call → CandidateList → Prop
  | empty (pageSize : Nat) (rotate : Bool) :
      Built fingerprint [] { pageSize := pageSize, rotate := rotate }
  | add {calls : List Call} {list : CandidateList} (id : Int) (value : ByteString)
      (attributes : UInt32) (built : Built fingerprint calls list) :
      Built fingerprint (calls ++ [.add id value attributes])
        (list.addCandidateWithAttributes fingerprint id value attributes)
  | sub {calls inner : List Call} {list sub' : CandidateList} (built : Built fingerprint calls list)
      (filled : Built fingerprint inner sub') :
      Built fingerprint (calls ++ [.sub inner]) (list.addSubCandidateList.setSub list.size sub')
  | focus {calls : List Call} {list : CandidateList} {i : Nat} (built : Built fingerprint calls list)
      (inside : i < list.size) : Built fingerprint calls (list.focus i)

section Calls

variable {calls : List Call} {id : Int} {value w : ByteString} {attributes : UInt32}

theorem storedId_append_add :
    storedId (calls ++ [.add id value attributes]) w =
      (storedId calls w).or (if value = w then some id else none) := by
  rw [storedId, List.findSome?_append]
  simp [storedId, Call.idOf]

theorem storedId_append_sub {inner : List Call} :
    storedId (calls ++ [.sub inner]) w = storedId calls w := by
  rw [storedId, List.findSome?_append]
  simp [storedId, Call.idOf]

theorem storedId_of_some {extra : List Call} {stored : Int} (first : storedId calls w = some stored) :
    storedId (calls ++ extra) w = some stored := by
  rw [storedId, List.findSome?_append, ← storedId, first, Option.some_or]

theorem DistinctFingerprints.of_append {fingerprint : ByteString → UInt64} {extra : List Call}
    (distinct : DistinctFingerprints fingerprint (calls ++ extra)) :
    DistinctFingerprints fingerprint calls := by
  have lift : ∀ v, HasValue calls v → HasValue (calls ++ extra) v := by
    rintro v (isCall | ⟨isCall, has⟩)
    · exact .here (List.mem_append_left _ isCall)
    · exact .inside (List.mem_append_left _ isCall) has
  exact fun v w hasV hasW => distinct v w (lift v hasV) (lift w hasW)

theorem DistinctFingerprints.inner {fingerprint : ByteString → UInt64} {inner : List Call}
    (distinct : DistinctFingerprints fingerprint calls) (isCall : .sub inner ∈ calls) :
    DistinctFingerprints fingerprint inner :=
  fun v w hasV hasW => distinct v w (.inside isCall hasV) (.inside isCall hasW)

end Calls

/-! ## What a list remembers of the calls -/

/-- The list holds what the calls have added. -/
structure Remembers (fingerprint : ByteString → UInt64) (calls : List Call) (list : CandidateList) :
    Prop where
  values : ∀ v, (∀ id w attributes, .add id w attributes ∈ calls → fingerprint v = fingerprint w →
    v = w) → list.addedCandidates.lookup (fingerprint v) = storedId calls v
  plain : ∀ c ∈ list.candidates, c.subcandidateList = none →
    ∃ v attributes, .add c.id v attributes ∈ calls ∧ storedId calls v = some c.id
  holder : ∀ c ∈ list.candidates, ∀ sub', c.subcandidateList = some sub' →
    c.id = 0 ∧ ∃ inner, .sub inner ∈ calls ∧ Built fingerprint inner sub'
  alternative : ∀ id alt, list.alternativeIds.lookup id = some alt →
    ∃ v attributes, .add id v attributes ∈ calls ∧ storedId calls v = some alt
  stored : ∀ v s, storedId calls v = some s → ∃ c ∈ list.candidates, c.id = s
  added : ∀ id v attributes, .add id v attributes ∈ calls →
    storedId calls v = some id ∨ (list.alternativeIds.lookup id).isSome
  inner : ∀ inner, .sub inner ∈ calls → ∃ c ∈ list.candidates, ∃ sub',
    c.subcandidateList = some sub' ∧ Built fingerprint inner sub'

namespace Remembers

variable {fingerprint : ByteString → UInt64} {calls : List Call} {list : CandidateList} {id : Int}
  {value : ByteString} {attributes : UInt32}

/-- A value that is new. -/
theorem add_new (remembers : Remembers fingerprint calls list)
    (isNew : storedId calls value = none) (nextAvailableId : Int) :
    Remembers fingerprint (calls ++ [.add id value attributes])
      { list with
        nextAvailableId := nextAvailableId
        addedCandidates := (fingerprint value, id) :: list.addedCandidates
        candidates := list.candidates ++ [{ id := id, attributes := attributes }] } where
  values v apart := by
    have apartCalls := remembers.values v fun id w attributes isCall =>
      apart id w attributes (List.mem_append_left _ isCall)
    have apartNew := apart id value attributes (List.mem_append_right _ List.mem_cons_self)
    rw [storedId_append_add, ← apartCalls, List.lookup_cons]
    by_cases same : fingerprint v = fingerprint value
    · obtain rfl := apartNew same
      rw [apartCalls, isNew]
      simp
    · have differs : value ≠ v := fun h => same (congrArg fingerprint h.symm)
      rw [if_neg differs, Option.or_none, beq_false_of_ne same]
  plain c isCandidate none := by
    rcases List.mem_append.1 isCandidate with old | new
    · obtain ⟨v, attributes, isCall, first⟩ := remembers.plain c old none
      exact ⟨v, attributes, List.mem_append_left _ isCall, storedId_of_some first⟩
    · obtain rfl := List.mem_singleton.1 new
      refine ⟨value, attributes, List.mem_append_right _ List.mem_cons_self, ?_⟩
      rw [storedId_append_add, isNew, if_pos rfl]
      rfl
  holder c isCandidate sub' holds := by
    rcases List.mem_append.1 isCandidate with old | new
    · obtain ⟨isZero, inner, isCall, built⟩ := remembers.holder c old sub' holds
      exact ⟨isZero, inner, List.mem_append_left _ isCall, built⟩
    · obtain rfl := List.mem_singleton.1 new
      cases holds
  alternative id' alt isAlt := by
    obtain ⟨v, attributes, isCall, first⟩ := remembers.alternative id' alt isAlt
    exact ⟨v, attributes, List.mem_append_left _ isCall, storedId_of_some first⟩
  stored v s first := by
    rw [storedId_append_add] at first
    rcases Option.or_eq_some_iff.1 first with old | ⟨-, new⟩
    · obtain ⟨c, isCandidate, isId⟩ := remembers.stored v s old
      exact ⟨c, List.mem_append_left _ isCandidate, isId⟩
    · split at new
      · cases new
        exact ⟨_, List.mem_append_right _ List.mem_cons_self, rfl⟩
      · cases new
  added id' v attributes' isCall := by
    rcases List.mem_append.1 isCall with old | new
    · rcases remembers.added id' v attributes' old with first | redirected
      · exact .inl (storedId_of_some first)
      · exact .inr redirected
    · cases List.mem_singleton.1 new
      refine .inl ?_
      rw [storedId_append_add, isNew, if_pos rfl]
      rfl
  inner inner isCall := by
    rcases List.mem_append.1 isCall with old | new
    · obtain ⟨c, isCandidate, sub', holds, built⟩ := remembers.inner inner old
      exact ⟨c, List.mem_append_left _ isCandidate, sub', holds, built⟩
    · cases List.mem_singleton.1 new

/-- A value that is in the list already. -/
theorem add_again (remembers : Remembers fingerprint calls list) {alt : Int}
    (isStored : storedId calls value = some alt) (nextAvailableId : Int)
    {merge : Candidate CandidateList → Candidate CandidateList}
    (sameId : ∀ c, (merge c).id = c.id)
    (sameSub : ∀ c, (merge c).subcandidateList = c.subcandidateList) :
    Remembers fingerprint (calls ++ [.add id value attributes])
      { list with
        nextAvailableId := nextAvailableId
        alternativeIds := (id, alt) :: list.alternativeIds
        candidates := list.candidates.map merge } where
  values v apart := by
    rw [remembers.values v fun id w attributes isCall =>
      apart id w attributes (List.mem_append_left _ isCall), storedId_append_add]
    split
    · rename_i same
      rw [← same, isStored]
      rfl
    · rw [Option.or_none]
  plain c isCandidate none := by
    obtain ⟨old, isOld, rfl⟩ := List.mem_map.1 isCandidate
    rw [sameSub] at none
    obtain ⟨v, attributes, isCall, first⟩ := remembers.plain old isOld none
    rw [sameId]
    exact ⟨v, attributes, List.mem_append_left _ isCall, storedId_of_some first⟩
  holder c isCandidate sub' holds := by
    obtain ⟨old, isOld, rfl⟩ := List.mem_map.1 isCandidate
    rw [sameSub] at holds
    obtain ⟨isZero, inner, isCall, built⟩ := remembers.holder old isOld sub' holds
    exact ⟨(sameId old).trans isZero, inner, List.mem_append_left _ isCall, built⟩
  alternative id' alt' isAlt := by
    rw [List.lookup_cons] at isAlt
    split at isAlt
    · rename_i same
      cases isAlt
      obtain rfl : id' = id := by simpa using same
      exact ⟨value, attributes, List.mem_append_right _ List.mem_cons_self,
        storedId_of_some isStored⟩
    · obtain ⟨v, attributes, isCall, first⟩ := remembers.alternative id' alt' isAlt
      exact ⟨v, attributes, List.mem_append_left _ isCall, storedId_of_some first⟩
  stored v s first := by
    have old : storedId calls v = some s := by
      rw [storedId_append_add] at first
      rcases Option.or_eq_some_iff.1 first with old | ⟨isNew, new⟩
      · exact old
      · split at new
        · rename_i same
          rw [← same, isStored] at isNew
          cases isNew
        · cases new
    obtain ⟨c, isCandidate, isId⟩ := remembers.stored v s old
    exact ⟨merge c, List.mem_map_of_mem isCandidate, (sameId c).trans isId⟩
  added id' v attributes' isCall := by
    rw [List.lookup_cons]
    rcases List.mem_append.1 isCall with old | new
    · rcases remembers.added id' v attributes' old with first | redirected
      · exact .inl (storedId_of_some first)
      · refine .inr ?_
        split
        · rfl
        · exact redirected
    · cases List.mem_singleton.1 new
      refine .inr ?_
      simp
  inner inner isCall := by
    rcases List.mem_append.1 isCall with old | new
    · obtain ⟨c, isCandidate, sub', holds, built⟩ := remembers.inner inner old
      exact ⟨merge c, List.mem_map_of_mem isCandidate, sub', (sameSub c).trans holds, built⟩
    · cases List.mem_singleton.1 new

theorem add (remembers : Remembers fingerprint calls list)
    (distinct : DistinctFingerprints fingerprint (calls ++ [.add id value attributes])) :
    Remembers fingerprint (calls ++ [.add id value attributes])
      (list.addCandidateWithAttributes fingerprint id value attributes) := by
  have known : list.addedCandidates.lookup (fingerprint value) = storedId calls value :=
    remembers.values value fun id' w attributes' isCall same =>
      distinct value w (.here (List.mem_append_right _ List.mem_cons_self))
        (.here (List.mem_append_left _ isCall)) same
  unfold addCandidateWithAttributes
  rw [known]
  cases first : storedId calls value with
  | some alt =>
      exact remembers.add_again first _ (fun c => by split <;> rfl) (fun c => by split <;> rfl)
  | none => exact remembers.add_new first _

theorem sub {inner : List Call} {sub' : CandidateList} (remembers : Remembers fingerprint calls list)
    (filled : Built fingerprint inner sub') :
    Remembers fingerprint (calls ++ [.sub inner]) (list.addSubCandidateList.setSub list.size sub') := by
  have behind : (list.addSubCandidateList.setSub list.size sub').candidates =
      list.candidates ++ [{ subcandidateList := some sub' }] := by
    show (list.candidates ++ [_]).modify list.candidates.length _ = _
    induction list.candidates with
    | nil => rfl
    | cons c candidates ih => exact congrArg (c :: ·) ih
  constructor
  case values =>
    intro v apart
    rw [storedId_append_sub]
    exact remembers.values v fun id w attributes isCall =>
      apart id w attributes (List.mem_append_left _ isCall)
  case plain =>
    intro c isCandidate none
    rw [behind] at isCandidate
    rcases List.mem_append.1 isCandidate with old | new
    · obtain ⟨v, attributes, isCall, first⟩ := remembers.plain c old none
      exact ⟨v, attributes, List.mem_append_left _ isCall, storedId_of_some first⟩
    · obtain rfl := List.mem_singleton.1 new
      cases none
  case holder =>
    intro c isCandidate sub'' holds
    rw [behind] at isCandidate
    rcases List.mem_append.1 isCandidate with old | new
    · obtain ⟨isZero, inner, isCall, built⟩ := remembers.holder c old sub'' holds
      exact ⟨isZero, inner, List.mem_append_left _ isCall, built⟩
    · obtain rfl := List.mem_singleton.1 new
      cases holds
      exact ⟨rfl, inner, List.mem_append_right _ List.mem_cons_self, filled⟩
  case alternative =>
    intro id alt isAlt
    obtain ⟨v, attributes, isCall, first⟩ := remembers.alternative id alt isAlt
    exact ⟨v, attributes, List.mem_append_left _ isCall, storedId_of_some first⟩
  case stored =>
    intro v s first
    rw [storedId_append_sub] at first
    obtain ⟨c, isCandidate, isId⟩ := remembers.stored v s first
    rw [behind]
    exact ⟨c, List.mem_append_left _ isCandidate, isId⟩
  case added =>
    intro id v attributes isCall
    rw [storedId_append_sub]
    rcases List.mem_append.1 isCall with old | new
    · exact remembers.added id v attributes old
    · cases List.mem_singleton.1 new
  case inner =>
    intro inner' isCall
    rw [behind]
    rcases List.mem_append.1 isCall with old | new
    · obtain ⟨c, isCandidate, sub'', holds, built⟩ := remembers.inner inner' old
      exact ⟨c, List.mem_append_left _ isCandidate, sub'', holds, built⟩
    · cases List.mem_singleton.1 new
      exact ⟨_, List.mem_append_right _ List.mem_cons_self, sub', rfl, filled⟩

end Remembers

/-- **A list that was built remembers** what was added. -/
theorem Built.remembers {fingerprint : ByteString → UInt64} {calls : List Call}
    {list : CandidateList} (built : Built fingerprint calls list)
    (distinct : DistinctFingerprints fingerprint calls) : Remembers fingerprint calls list := by
  induction built with
  | empty pageSize rotate =>
      constructor
      case values => exact fun _ _ => rfl
      all_goals simp [storedId]
  | add id value attributes built ih => exact (ih distinct.of_append).add distinct
  | sub built filled ih _ => exact (ih distinct.of_append).sub filled
  | focus built inside ih =>
      have old := ih distinct
      exact ⟨old.values, old.plain, old.holder, old.alternative, old.stored, old.added, old.inner⟩

/-! ## The search -/

/-- What a list looks for when it is asked for an id. -/
def redirect (list : CandidateList) (id : Int) : Int := (list.alternativeIds.lookup id).getD id

/-- How often a list changes the id it is asked for. -/
def redirections (list : CandidateList) (id : Int) : Nat := if list.redirect id = id then 0 else 1

/-- Looking for an id is not in vain. -/
inductive Found : CandidateList → Int → Prop
  | here {list : CandidateList} {id : Int} {i : Nat} (inside : i < list.size)
      (isHit : (list.candidate i).id = list.redirect id) : Found list id
  | within {list sub' : CandidateList} {id : Int} {i : Nat} (holds : list.sub i = some sub')
      (found : Found sub' (list.redirect id)) : Found list id

/-- Nothing is found at a candidate, neither in the list it holds nor as the candidate itself. -/
def Passed (list : CandidateList) (id : Int) (i : Nat) : Prop :=
  (list.candidate i).id ≠ list.redirect id ∧
    ∀ sub', list.sub i = some sub' → ¬ Found sub' (list.redirect id)

/-- **Where the search ends**: at the first candidate at which something is found, in the list it
holds before at itself; and how often the id was changed on the way. -/
inductive Leads : CandidateList → Int → Nat → Candidate CandidateList → Prop
  | here {list : CandidateList} {id : Int} {i : Nat} (inside : i < list.size)
      (before : ∀ j < i, list.Passed id j)
      (notWithin : ∀ sub', list.sub i = some sub' → ¬ Found sub' (list.redirect id))
      (isHit : (list.candidate i).id = list.redirect id) :
      Leads list id (list.redirections id) (list.candidate i)
  | within {list sub' : CandidateList} {id : Int} {i n : Nat} {c : Candidate CandidateList}
      (before : ∀ j < i, list.Passed id j) (holds : list.sub i = some sub')
      (leads : Leads sub' (list.redirect id) n c) : Leads list id (list.redirections id + n) c

section Search

variable {list sub' : CandidateList} {id : Int}

/-- What the search in the list of a candidate gives. -/
def inSub (list : CandidateList) (id : Int) (i : Nat) : Option (Bool × CandidateList) :=
  (list.sub i).map fun sub' => sub'.moveToId (list.redirect id)

theorem moveToId_eq (list : CandidateList) (id : Int) :
    list.moveToId id = list.visit (list.inSub id) (fun c => c.id = list.redirect id)
      (List.range list.size) := by
  rw [moveToId, search]
  refine congrArg (fun found => visit found _ _ list) (funext fun i => ?_)
  unfold inSub
  split
  · rename_i sub' holds
    rw [holds]
    rfl
  · rename_i holds
    rw [holds]
    rfl

/-- Putting back the list that a candidate holds changes nothing. -/
theorem setSub_sub {i : Nat} (holds : list.sub i = some sub') : list.setSub i sub' = list := by
  have inside := lt_size_of_sub holds
  have same : list.candidates.modify i (fun c => { c with subcandidateList := some sub' }) =
      list.candidates := by
    refine List.ext_getElem? fun j => ?_
    rw [List.getElem?_modify]
    split
    · rename_i here
      subst here
      rw [sub, candidate, List.getD_eq_getElem _ _ inside] at holds
      rw [List.getElem?_eq_getElem inside, ← holds]
      rfl
    · cases list.candidates[j]? <;> rfl
  refine (congrArg (fun candidates => { list with candidates := candidates }) same).trans ?_
  cases list
  rfl

/-- The loop passes over what is not a hit. -/
theorem visit_append {found : Nat → Option (Bool × CandidateList)}
    {isHit : Candidate CandidateList → Bool} {before after : List Nat}
    (passed : ∀ i ∈ before, isHit (list.candidate i) = false ∧
      ∀ r, found i = some r → r.1 = false ∧ list.sub i = some r.2) :
    list.visit found isHit (before ++ after) = list.visit found isHit after := by
  induction before with
  | nil => rfl
  | cons i before ih =>
      obtain ⟨⟨notHit, unchanged⟩, passed⟩ := List.forall_mem_cons.1 passed
      rw [List.cons_append, visit]
      split
      · rename_i sub' isFound
        cases (unchanged _ isFound).1
      · rename_i sub' isFound
        rw [setSub_sub (unchanged _ isFound).2]
        dsimp only
        rw [notHit]
        exact ih passed
      · rw [notHit]
        exact ih passed

/-- The candidates before a candidate, and those from it on. -/
theorem range_split {i n : Nat} (inside : i < n) :
    List.range n = List.range i ++ i :: (List.range (n - (i + 1))).map (i + 1 + ·) := by
  obtain ⟨k, rfl⟩ := Nat.exists_eq_add_of_lt inside
  rw [show i + k + 1 = i + (k + 1) by omega, List.range_add, List.range_succ_eq_map,
    show i + (k + 1) - (i + 1) = k by omega]
  simp [Function.comp_def, Nat.add_assoc, Nat.add_comm 1]

/-- **A search in vain** leaves the list as it is. -/
theorem moveToId_of_not_found (list : CandidateList) (id : Int) (vain : ¬ Found list id) :
    list.moveToId id = (false, list) := by
  have passed : ∀ i ∈ List.range list.size,
      decide ((list.candidate i).id = list.redirect id) = false ∧
        ∀ r, list.inSub id i = some r → r.1 = false ∧ list.sub i = some r.2 := by
    intro i member
    refine ⟨decide_eq_false fun isHit => vain (.here (List.mem_range.1 member) isHit), ?_⟩
    intro r isFound
    obtain ⟨sub', holds, rfl⟩ := Option.map_eq_some_iff.1 isFound
    rw [moveToId_of_not_found sub' (list.redirect id) fun found => vain (.within holds found)]
    exact ⟨rfl, holds⟩
  rw [moveToId_eq]
  have whole : list.visit (list.inSub id) (fun c => c.id = list.redirect id)
      (List.range list.size ++ []) = (false, list) := visit_append passed
  rw [List.append_nil] at whole
  exact whole
termination_by sizeOf list
decreasing_by exact sizeOf_sub_lt holds

theorem moveToId_passed {i : Nat} (inside : i < list.size) (before : ∀ j < i, list.Passed id j) :
    list.moveToId id = list.visit (list.inSub id) (fun c => c.id = list.redirect id)
      (i :: (List.range (list.size - (i + 1))).map (i + 1 + ·)) := by
  rw [moveToId_eq, range_split inside]
  refine visit_append fun j member => ?_
  obtain ⟨notHit, notWithin⟩ := before j (List.mem_range.1 member)
  refine ⟨decide_eq_false notHit, fun r isFound => ?_⟩
  obtain ⟨sub', holds, rfl⟩ := Option.map_eq_some_iff.1 isFound
  rw [moveToId_of_not_found sub' _ (notWithin sub' holds)]
  exact ⟨rfl, holds⟩

theorem focusedId_focus {i : Nat} (inside : i < list.size) :
    (list.focus i).focusedId = (list.candidate i).focusedId := by
  have nonempty : (list.focus i).size ≠ 0 := Nat.ne_of_gt (Nat.zero_lt_of_lt inside)
  rw [focusedId, if_neg nonempty, Candidate.focusedId]
  split
  · rename_i sub' holds
    have isHeld : (list.candidate i).subcandidateList = some sub' := holds
    rw [isHeld]
  · rename_i holds
    have isHeld : (list.candidate i).subcandidateList = none := holds
    rw [isHeld]
    rfl

/-- **The search succeeds** where something is found, and the focus is on the candidate at which it
ends. -/
theorem Leads.moveToId {n : Nat} {c : Candidate CandidateList} (leads : Leads list id n c) :
    (list.moveToId id).1 = true ∧ (list.moveToId id).2.focusedId = c.focusedId := by
  induction leads with
  | @here list id i inside before notWithin isHit =>
      have ends : list.moveToId id = (true, list.focus i) := by
        rw [moveToId_passed inside before, visit]
        split
        · rename_i sub' isFound
          obtain ⟨sub'', holds, isResult⟩ := Option.map_eq_some_iff.1 isFound
          rw [moveToId_of_not_found sub'' _ (notWithin sub'' holds)] at isResult
          cases isResult
        · rename_i sub' isFound
          obtain ⟨sub'', holds, isResult⟩ := Option.map_eq_some_iff.1 isFound
          rw [moveToId_of_not_found sub'' _ (notWithin sub'' holds)] at isResult
          cases isResult
          rw [setSub_sub holds]
          exact if_pos (decide_eq_true isHit)
        · exact if_pos (decide_eq_true isHit)
      rw [ends]
      exact ⟨rfl, focusedId_focus inside⟩
  | @within list sub' id i n c before holds leads ih =>
      have inside := lt_size_of_sub holds
      have isFound : list.inSub id i = some (true, (sub'.moveToId (list.redirect id)).2) := by
        rw [inSub, holds, Option.map_some, ← ih.1]
      have ends : list.moveToId id =
          (true, (list.setSub i (sub'.moveToId (list.redirect id)).2).focus i) := by
        rw [moveToId_passed inside before, visit, isFound]
      rw [ends]
      refine ⟨rfl, ?_⟩
      rw [focusedId_focus (by simpa using inside), candidate_setSub _ _ _ _ inside, if_pos rfl,
        Candidate.focusedId]
      exact ih.2

/-- Where something is found, the search ends somewhere. -/
theorem exists_leads (list : CandidateList) (id : Int) (found : Found list id) :
    ∃ n c, Leads list id n c := by
  have someHit : ∃ i, i < list.size ∧ ¬ list.Passed id i := by
    cases found with
    | here inside isHit => exact ⟨_, inside, fun passed => passed.1 isHit⟩
    | within holds found =>
        exact ⟨_, lt_size_of_sub holds, fun passed => passed.2 _ holds found⟩
  classical
  obtain ⟨inside, notPassed⟩ := Nat.find_spec someHit
  have before : ∀ j < Nat.find someHit, list.Passed id j := fun j less =>
    by_contra fun notPassed => Nat.find_min someHit less ⟨less.trans inside, notPassed⟩
  generalize Nat.find someHit = i at inside notPassed before
  by_cases within : ∃ sub', list.sub i = some sub' ∧ Found sub' (list.redirect id)
  · obtain ⟨sub', holds, foundWithin⟩ := within
    obtain ⟨n, c, leads⟩ := exists_leads sub' _ foundWithin
    exact ⟨_, c, .within before holds leads⟩
  · have notWithin : ∀ sub', list.sub i = some sub' → ¬ Found sub' (list.redirect id) :=
      fun sub' holds foundWithin => within ⟨sub', holds, foundWithin⟩
    have isHit : (list.candidate i).id = list.redirect id :=
      by_contra fun notHit => notPassed ⟨notHit, notWithin⟩
    exact ⟨_, _, .here inside before notWithin isHit⟩
termination_by sizeOf list
decreasing_by exact sizeOf_sub_lt holds

end Search

/-! ## Which ids are found -/

section Ids

variable {fingerprint : ByteString → UInt64} {calls : List Call} {list : CandidateList} {id : Int}
  {n : Nat} {c : Candidate CandidateList}

theorem exists_candidate (member : c ∈ list.candidates) : ∃ i < list.size, list.candidate i = c := by
  obtain ⟨i, inside, same⟩ := List.mem_iff_getElem.1 member
  exact ⟨i, inside, (List.getD_eq_getElem _ _ inside).trans same⟩

theorem candidate_mem {i : Nat} (inside : i < list.size) : list.candidate i ∈ list.candidates := by
  rw [candidate, List.getD_eq_getElem _ _ inside]
  exact List.getElem_mem inside

/-- A redirected id stands for a value, and the id of that value is in the list. -/
theorem Remembers.redirect_cases (remembers : Remembers fingerprint calls list) (id : Int) :
    list.redirect id = id ∧ list.alternativeIds.lookup id = none ∨
      Stored calls id (list.redirect id) ∧ ∃ c ∈ list.candidates, c.id = list.redirect id := by
  cases found : list.alternativeIds.lookup id with
  | none => exact .inl ⟨by rw [redirect, found]; rfl, rfl⟩
  | some alt =>
      have isAlt : list.redirect id = alt := by rw [redirect, found]; rfl
      obtain ⟨v, attributes, isCall, first⟩ := remembers.alternative id alt found
      rw [isAlt]
      exact .inr ⟨.here isCall first, remembers.stored v alt first⟩

/-- **Every id that was added is found.** -/
theorem Added.found (added : Added calls id) (built : Built fingerprint calls list)
    (distinct : DistinctFingerprints fingerprint calls) : Found list id := by
  induction added generalizing list with
  | @here calls id value attributes isCall =>
      have remembers := built.remembers distinct
      have hit : ∃ c ∈ list.candidates, c.id = list.redirect id := by
        rcases remembers.redirect_cases id with ⟨same, notRedirected⟩ | ⟨-, hit⟩
        · rcases remembers.added id value attributes isCall with first | redirected
          · rw [same]
            exact remembers.stored value id first
          · rw [notRedirected] at redirected
            cases redirected
        · exact hit
      obtain ⟨c, member, isHit⟩ := hit
      obtain ⟨i, inside, rfl⟩ := exists_candidate member
      exact .here inside isHit
  | @inside calls inner id isCall added ih =>
      have remembers := built.remembers distinct
      rcases remembers.redirect_cases id with ⟨same, -⟩ | ⟨-, c, member, isHit⟩
      · obtain ⟨c, member, sub', holds, filled⟩ := remembers.inner inner isCall
        obtain ⟨i, inside, rfl⟩ := exists_candidate member
        have found := ih filled (distinct.inner isCall)
        rw [← same] at found
        exact .within holds found
      · obtain ⟨i, inside, rfl⟩ := exists_candidate member
        exact .here inside isHit

/-- An id that is never changed is the id of the candidate. -/
theorem Leads.id_eq (leads : Leads list id n c) (unchanged : n = 0) : c.id = id := by
  have kept : ∀ {l : CandidateList} {id : Int}, l.redirections id = 0 → l.redirect id = id := by
    intro l id none
    by_contra differs
    rw [redirections, if_neg differs] at none
    cases none
  induction leads with
  | here inside before notWithin isHit => exact isHit.trans (kept unchanged)
  | within before holds leads ih =>
      exact (ih (Nat.eq_zero_of_add_eq_zero_left unchanged)).trans
        (kept (Nat.eq_zero_of_add_eq_zero_right unchanged))

/-- **A search that stays on its way** ends at the id under which a value is stored that was added
under the id that was looked for. -/
theorem Leads.stored (leads : Leads list id n c) (built : Built fingerprint calls list)
    (distinct : DistinctFingerprints fingerprint calls) (few : n ≤ 1)
    (plain : c.subcandidateList = none) : Stored calls id c.id := by
  induction leads generalizing calls with
  | @here list id i inside before notWithin isHit =>
      have remembers := built.remembers distinct
      rcases remembers.redirect_cases id with ⟨same, -⟩ | ⟨stored, -⟩
      · obtain ⟨v, attributes, isCall, first⟩ := remembers.plain _ (candidate_mem inside) plain
        rw [same] at isHit
        rw [isHit] at isCall first ⊢
        exact .here isCall first
      · rw [isHit]
        exact stored
  | @within list sub' id i n c before holds leads ih =>
      have remembers := built.remembers distinct
      by_cases same : list.redirect id = id
      · obtain ⟨-, inner, isCall, filled⟩ :=
          remembers.holder _ (candidate_mem (lt_size_of_sub holds)) sub' holds
        have stored := ih filled (distinct.inner isCall)
          ((Nat.le_add_left _ _).trans few) plain
        rw [same] at stored
        exact .inside isCall stored
      · -- The id was changed in this list, so it stays as it is further down.
        rw [redirections, if_neg same] at few
        have isId := leads.id_eq (by omega)
        rcases remembers.redirect_cases id with ⟨unchanged, -⟩ | ⟨stored, -⟩
        · exact absurd unchanged same
        · rw [isId]
          exact stored

end Ids

/-! ## Main result -/

/-- What `MoveToId` is for: it finds exactly the ids that were added, the focus goes to the id under
which a value of the id is stored, and a search in vain changes nothing. -/
structure FindsStored (calls : List Call) (list : CandidateList) (id : Int) : Prop where
  finds : (list.moveToId id).1 = true ↔ Added calls id
  stored : (list.moveToId id).1 = true → Stored calls id (list.moveToId id).2.focusedId
  unchanged : (list.moveToId id).1 = false → (list.moveToId id).2 = list

/-- Wherever the search ends, it has not been led astray: the id was changed at most once on the
way, and the candidate holds no list. -/
def OnItsWay (list : CandidateList) (id : Int) : Prop :=
  ∀ n c, Leads list id n c → n ≤ 1 ∧ c.subcandidateList = none

/-- The search was led astray, to the holder of a list or by a second change of the id, and the
focus is on a right id nevertheless. -/
def RightByChance (calls : List Call) (list : CandidateList) (id : Int) : Prop :=
  ∃ n c, Leads list id n c ∧ (1 < n ∨ c.subcandidateList ≠ none) ∧ Stored calls id c.focusedId

/-- **`MoveToId` does what it is for** when the search is not led astray, and otherwise at most by
chance. -/
theorem findsStored_of_onItsWay {fingerprint : ByteString → UInt64} {calls : List Call}
    {list : CandidateList} (built : Built fingerprint calls list)
    (distinct : DistinctFingerprints fingerprint calls) (id : Int) :
    (OnItsWay list id → FindsStored calls list id) ∧
      (FindsStored calls list id → OnItsWay list id ∨ RightByChance calls list id) := by
  constructor
  · intro onItsWay
    have stored : ∀ n c, Leads list id n c → Stored calls id c.focusedId := by
      intro n c leads
      obtain ⟨few, plain⟩ := onItsWay n c leads
      rw [Candidate.focusedId, plain]
      exact leads.stored built distinct few plain
    have isFound : (list.moveToId id).1 = true → Found list id := by
      intro isTrue
      by_contra vain
      rw [moveToId_of_not_found list id vain] at isTrue
      cases isTrue
    refine ⟨⟨fun isTrue => ?_, fun added => ?_⟩, fun isTrue => ?_, fun isFalse => ?_⟩
    · obtain ⟨n, c, leads⟩ := exists_leads list id (isFound isTrue)
      exact (stored n c leads).added
    · obtain ⟨n, c, leads⟩ := exists_leads list id (added.found built distinct)
      exact leads.moveToId.1
    · obtain ⟨n, c, leads⟩ := exists_leads list id (isFound isTrue)
      rw [leads.moveToId.2]
      exact stored n c leads
    · by_cases found : Found list id
      · obtain ⟨n, c, leads⟩ := exists_leads list id found
        rw [leads.moveToId.1] at isFalse
        cases isFalse
      · rw [moveToId_of_not_found list id found]
  · intro right
    rw [or_iff_not_imp_left, OnItsWay]
    intro astray
    push Not at astray
    obtain ⟨n, c, leads, isAstray⟩ := astray
    obtain ⟨isTrue, focused⟩ := leads.moveToId
    refine ⟨n, c, leads, ?_, focused ▸ right.stored isTrue⟩
    by_cases few : n ≤ 1
    · exact .inr (isAstray few)
    · exact .inl (Nat.lt_of_not_le few)

/-- A fingerprint that tells the values below apart. -/
def firstByte (value : ByteString) : UInt64 := (byteAt value 0).toUInt64

/-- One value under two ids. -/
def twoIds : CandidateList :=
  (({} : CandidateList).addCandidateWithAttributes firstByte 0 (ascii "a") 0).addCandidateWithAttributes
    firstByte 1 (ascii "a") 0

theorem built_twoIds :
    Built firstByte [.add 0 (ascii "a") 0, .add 1 (ascii "a") 0] twoIds :=
  .add 1 (ascii "a") 0 (.add 0 (ascii "a") 0 (.empty 9 false))

/-- The second id is found as the first one. -/
theorem findsStored_twoIds :
    FindsStored [.add 0 (ascii "a") 0, .add 1 (ascii "a") 0] twoIds 1 := by
  refine (findsStored_of_onItsWay built_twoIds ?_ 1).1 ?_
  · have only : ∀ v, HasValue [.add 0 (ascii "a") 0, .add 1 (ascii "a") 0] v → v = ascii "a" := by
      rintro v (isCall | ⟨isCall, -⟩)
      · simp only [List.mem_cons, Call.add.injEq, List.not_mem_nil, or_false] at isCall
        rcases isCall with ⟨-, same, -⟩ | ⟨-, same, -⟩ <;> exact same
      · simp at isCall
    intro v w hasV hasW _
    rw [only v hasV, only w hasW]
  · rintro n c (⟨inside, -, -, -⟩ | ⟨-, holds, -⟩)
    · obtain rfl := Nat.lt_one_iff.1 inside
      exact ⟨by decide, rfl⟩
    · have inside := lt_size_of_sub holds
      obtain rfl := Nat.lt_one_iff.1 inside
      cases holds

/-- The list of a sublist with one candidate, whose id is 5. -/
def holderOnly : CandidateList :=
  ({} : CandidateList).addSubCandidateList.setSub 0
    (({} : CandidateList).addCandidateWithAttributes firstByte 5 (ascii "a") 0)

/-- In a list that holds a sublist, 0 is found although nobody added it. -/
theorem not_findsStored_holderOnly :
    ¬ ∀ (fingerprint : ByteString → UInt64) (calls : List Call) (list : CandidateList) (id : Int),
      Built fingerprint calls list → DistinctFingerprints fingerprint calls →
        FindsStored calls list id := by
  intro claim
  have built : Built firstByte [.sub [.add 5 (ascii "a") 0]] holderOnly :=
    .sub (.empty 9 false) (.add 5 (ascii "a") 0 (.empty 9 false))
  have only : ∀ v, HasValue [.sub [.add 5 (ascii "a") 0]] v → v = ascii "a" := by
    rintro v (isCall | ⟨isCall, has⟩)
    · simp at isCall
    · obtain rfl := Call.sub.inj (List.mem_singleton.1 isCall)
      rcases has with isCall | ⟨isCall, -⟩
      · exact (Call.add.inj (List.mem_singleton.1 isCall)).2.1
      · simp at isCall
  have right := claim firstByte _ _ 0 built fun v w hasV hasW _ => by rw [only v hasV, only w hasW]
  have isFound : (holderOnly.moveToId 0).1 = true := by
    have leads : ∃ n c, Leads holderOnly 0 n c :=
      exists_leads _ _ (.here (show 0 < 1 by decide) rfl)
    obtain ⟨n, c, leads⟩ := leads
    exact leads.moveToId.1
  have added := right.finds.1 isFound
  rcases added with isCall | ⟨isCall, added⟩
  · simp at isCall
  · obtain rfl := Call.sub.inj (List.mem_singleton.1 isCall)
    rcases added with isCall | ⟨isCall, -⟩
    · have same := (Call.add.inj (List.mem_singleton.1 isCall)).1
      omega
    · simp at isCall

end CandidateList

end Mozkey.Engine
