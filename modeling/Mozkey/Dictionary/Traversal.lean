import Mozkey.Dictionary.Codec

/-!
# Traversing a dictionary

A lookup reports what it finds to a callback: each key, the actual key, and the tokens of the key.
The answers tell it how to go on.  A callback may keep a state of its own, so its answer depends on
all the calls that it has got.

`traverse` is what the interface of the dictionaries describes: the keys one after another, but
not those that extend a key for which culling was asked.
-/

namespace Mozkey.Dictionary

/-- `Callback::ResultType`. -/
inductive ResultType
  | traverseDone
  | traverseNextKey
  | traverseCull
  | traverseContinue
  deriving DecidableEq, Repr

/-- A call to a callback. -/
inductive Call
  | onKey (key : ByteString)
  | onActualKey (key actualKey : ByteString) (numExpanded : Int)
  | onToken (key expandedKey : ByteString) (token : Token)
  deriving DecidableEq, Repr

/-- A callback: the answer to the last of the calls that it has got. -/
abbrev Callback := List Call → ResultType

/-- What a visit of a key leads to. -/
inductive EmitResult
  | kContinue
  | kDone
  | kCull
  deriving DecidableEq, Repr

/-! ## One key -/

/-- The tokens of a key, one after another. -/
def visitTokens (callback : Callback) (key : ByteString) :
    List Token → List Call → EmitResult × List Call
  | [], calls => (.kContinue, calls)
  | token :: tokens, calls =>
      let calls := calls ++ [.onToken key key token]
      match callback calls with
      | .traverseDone => (.kDone, calls)
      | .traverseCull => (.kCull, calls)
      | .traverseNextKey => (.kContinue, calls)
      | .traverseContinue => visitTokens callback key tokens calls

/-- A key, its actual key, which is the key itself, and its tokens. -/
def visitKey (callback : Callback) (key : ByteString) (tokens : List Token) (calls : List Call) :
    EmitResult × List Call :=
  let calls := calls ++ [.onKey key]
  match callback calls with
  | .traverseDone => (.kDone, calls)
  | .traverseCull => (.kCull, calls)
  | .traverseNextKey => (.kContinue, calls)
  | .traverseContinue =>
      let calls := calls ++ [.onActualKey key key 0]
      match callback calls with
      | .traverseDone => (.kDone, calls)
      | .traverseCull => (.kCull, calls)
      | .traverseNextKey => (.kContinue, calls)
      | .traverseContinue => visitTokens callback key tokens calls

/-! ## All keys -/

/-- The key extends one of the keys that culling was asked for. -/
def isCulled (culled : List ByteString) (key : ByteString) : Bool := culled.any fun c => c.isPrefixOf key

/-- The keys with their tokens, in their order, except those that extend a culled key. -/
def traverse (callback : Callback) :
    List ByteString → List (ByteString × List Token) → List Call → List Call
  | _, [], calls => calls
  | culled, (key, tokens) :: groups, calls =>
      if isCulled culled key then traverse callback culled groups calls
      else
        match visitKey callback key tokens calls with
        | (.kDone, calls) => calls
        | (.kCull, calls) => traverse callback (key :: culled) groups calls
        | (.kContinue, calls) => traverse callback culled groups calls

/-- A key that extends a culled key does not change the traversal. -/
theorem traverse_filter (callback : Callback) (culled : List ByteString)
    (groups : List (ByteString × List Token)) (calls : List Call) (c : ByteString) (old : c ∈ culled) :
    traverse callback culled (groups.filter fun group => !c.isPrefixOf group.1) calls
      = traverse callback culled groups calls := by
  induction groups generalizing culled calls with
  | nil => rfl
  | cons group groups ih =>
      obtain ⟨key, tokens⟩ := group
      by_cases front : c.isPrefixOf key = true
      · have extended : isCulled culled key = true := List.any_eq_true.2 ⟨c, old, front⟩
        rw [List.filter_cons_of_neg (by simpa using front), traverse, if_pos extended]
        exact ih culled calls old
      · have kept : (!c.isPrefixOf key) = true := by rw [Bool.eq_false_of_not_eq_true front]; rfl
        rw [List.filter_cons_of_pos (a := (key, tokens)) kept, traverse, traverse]
        split
        · exact ih culled calls old
        · cases visitKey callback key tokens calls with
          | mk outcome next =>
              cases outcome with
              | kDone => rfl
              | kCull => exact ih (key :: culled) next (List.mem_cons_of_mem _ old)
              | kContinue => exact ih culled next old

/-- Only what is culled of the keys matters. -/
theorem traverse_congr (callback : Callback) (culled other : List ByteString)
    (groups : List (ByteString × List Token)) (calls : List Call)
    (same : ∀ group ∈ groups, isCulled culled group.1 = isCulled other group.1) :
    traverse callback culled groups calls = traverse callback other groups calls := by
  induction groups generalizing culled other calls with
  | nil => rfl
  | cons group groups ih =>
      obtain ⟨key, tokens⟩ := group
      obtain ⟨here, rest⟩ := List.forall_mem_cons.1 same
      rw [traverse, traverse, here]
      split
      · exact ih culled other calls rest
      · cases visitKey callback key tokens calls with
        | mk outcome next =>
            cases outcome with
            | kDone => rfl
            | kContinue => exact ih culled other next rest
            | kCull =>
                refine ih (key :: culled) (key :: other) next fun later member => ?_
                rw [isCulled, isCulled, List.any_cons, List.any_cons]
                exact congrArg _ (rest later member)

/-- Keys that are all culled are passed over. -/
theorem traverse_culled (callback : Callback) (culled : List ByteString)
    (groups : List (ByteString × List Token)) (calls : List Call)
    (all : ∀ group ∈ groups, isCulled culled group.1 = true) :
    traverse callback culled groups calls = calls := by
  induction groups with
  | nil => rfl
  | cons group groups ih =>
      obtain ⟨here, rest⟩ := List.forall_mem_cons.1 all
      rw [traverse, if_pos here]
      exact ih rest

/-- After a key was culled, the traversal goes on with the keys that do not extend it. -/
theorem traverse_one (callback : Callback) (key : ByteString)
    (groups : List (ByteString × List Token)) (calls : List Call) :
    traverse callback [key] groups calls
      = traverse callback [] (groups.filter fun group => !key.isPrefixOf group.1) calls := by
  rw [← traverse_filter callback [key] groups calls key (List.mem_singleton_self key)]
  refine traverse_congr callback _ _ _ _ fun group member => ?_
  have free := (List.mem_filter.1 member).2
  rw [Bool.not_eq_true'] at free
  rw [isCulled, isCulled, List.any_cons, free]
  rfl

end Mozkey.Dictionary
