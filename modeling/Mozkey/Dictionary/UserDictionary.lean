import Mozkey.Base.Unicode
import Mozkey.Dictionary.Traversal
import Mozkey.Lib.SortedRange

/-!
# The user dictionary

The tokens of the user dictionary are sorted by their keys, and by their ids where the keys are
equal.  Lookups go over a range of this list and make their calls token by token.

The costs of the parts of speech stand in a table that the build generates; it is a field here, and
so is the id that suggestion-only tokens get.
-/

namespace Mozkey.Dictionary

open Mozkey.Lib

/-! ## Tokens -/

/-- `UserDictionary::NO_POS`. -/
def noPos : UInt8 := 0

/-- `UserDictionary::SUGGESTION_ONLY`. -/
def suggestionOnly : UInt8 := 3

/-- `UserPos::Token::NON_JA_LOCALE`. -/
def nonJaLocale : UInt8 := 1

/-- `Token::USER_DICTIONARY`. -/
def userDictionary : UInt8 := (1 : UInt8) <<< 7

structure UserPos.Token where
  key : ByteString
  value : ByteString
  id : UInt16 := 0
  attributes : UInt8 := 0
  rawPosType : UInt8 := 0
  deriving DecidableEq, Repr

/-- `UserPos::GetCostFromPosType`, with the costs of `kPosTypeStringTable`. -/
def UserPos.getCostFromPosType (kPosTypeStringTable : List UInt16) (posType : UInt8) : UInt16 :=
  let cost := kPosTypeStringTable.getD posType.toNat 0
  if cost > 0 then cost else 5000

/-- `OrderByKeyThenById`. -/
def orderByKeyThenById (lhs rhs : UserPos.Token) : Bool :=
  if lhs.key = rhs.key then lhs.id < rhs.id else lhs.key < rhs.key

/-- `UserDictionary::TokensIndex`: no token comes behind a greater one. -/
structure TokensIndex where
  userPosTokens : List UserPos.Token
  sorted : userPosTokens.Pairwise fun lhs rhs => orderByKeyThenById rhs lhs = false

theorem key_le_of_orderByKeyThenById {lhs rhs : UserPos.Token}
    (order : orderByKeyThenById rhs lhs = false) : lhs.key ≤ rhs.key := by
  rw [orderByKeyThenById] at order
  split at order
  · rename_i same
    exact same.ge
  · exact not_lt.1 (of_decide_eq_false order)

/-- `UserDictionary::RequestType`. -/
inductive RequestType
  | prefix_
  | predictive
  | exact_
  deriving DecidableEq, Repr

structure UserDictionary where
  tokens : TokensIndex
  kPosTypeStringTable : List UInt16
  unknownId : UInt16

namespace UserDictionary

variable (dic : UserDictionary)

/-- `PopulateTokenFromUserPosToken`. -/
def populateToken (userPosToken : UserPos.Token) (requestType : RequestType) : Token :=
  let id := if userPosToken.rawPosType = suggestionOnly then dic.unknownId else userPosToken.id
  let cost : Int :=
    if userPosToken.attributes &&& nonJaLocale ≠ 0 then 10000
    else (UserPos.getCostFromPosType dic.kPosTypeStringTable userPosToken.rawPosType).toNat
  -- Shorter keys have more penalty, so that they are not shown in the context.
  let cost :=
    if userPosToken.rawPosType = noPos ∧ (requestType = .prefix_ ∨ requestType = .exact_) then
      cost + (4 - Strings.atLeastCharsLen userPosToken.key 4) * 2000
    else cost
  ⟨userPosToken.key, userPosToken.value, cost, id, id, userDictionary⟩

@[simp] theorem key_populateToken (userPosToken : UserPos.Token) (requestType : RequestType) :
    (dic.populateToken userPosToken requestType).key = userPosToken.key := rfl

/-! ## Lookups -/

/-- `std::equal_range` with `OrderByKeyPrefix`. -/
def equalRangeByKeyPrefix (key : ByteString) : List UserPos.Token :=
  let byPrefix := fun token : UserPos.Token => token.key.take key.length
  let first := lowerBound byPrefix dic.tokens.userPosTokens key
  between first (upperBound byPrefix first key)

/-- `std::equal_range` with `OrderByKey`. -/
def equalRangeByKey (key : ByteString) : List UserPos.Token :=
  let first := lowerBound UserPos.Token.key dic.tokens.userPosTokens key
  between first (upperBound UserPos.Token.key first key)

/-- The loop of `LookupPredictive`. -/
def lookupPredictiveFrom (callback : Callback) : List UserPos.Token → List Call → List Call
  | [], calls => calls
  | userPosToken :: rest, calls =>
      let calls := calls ++ [.onKey userPosToken.key]
      match callback calls with
      | .traverseDone => calls
      | .traverseNextKey => lookupPredictiveFrom callback rest calls
      | .traverseCull => lookupPredictiveFrom callback rest calls
      | .traverseContinue =>
          let calls := calls ++ [.onActualKey userPosToken.key userPosToken.key 0]
          if callback calls = .traverseDone then calls
          else
            let token := dic.populateToken userPosToken .predictive
            let calls := calls ++ [.onToken userPosToken.key userPosToken.key token]
            if callback calls = .traverseDone then calls
            else lookupPredictiveFrom callback rest calls

/-- `LookupPredictive`. -/
def lookupPredictive (callback : Callback) (key : ByteString) (calls : List Call) : List Call :=
  if key = [] then calls
  else if dic.tokens.userPosTokens = [] then calls
  else dic.lookupPredictiveFrom callback (dic.equalRangeByKeyPrefix key) calls

/-- The loop of `LookupPrefix`.  The process is aborted where the callback asks for culling. -/
def lookupPrefixFrom (callback : Callback) (key : ByteString) :
    List UserPos.Token → List Call → Option (List Call)
  | [], calls => some calls
  | userPosToken :: rest, calls =>
      if userPosToken.key > key then some calls
      else if userPosToken.rawPosType = suggestionOnly then lookupPrefixFrom callback key rest calls
      else if ¬ userPosToken.key <+: key then lookupPrefixFrom callback key rest calls
      else
        let calls := calls ++ [.onKey userPosToken.key]
        match callback calls with
        | .traverseDone => some calls
        | .traverseNextKey => lookupPrefixFrom callback key rest calls
        | .traverseCull => none
        | .traverseContinue =>
            let calls := calls ++ [.onActualKey userPosToken.key userPosToken.key 0]
            if callback calls = .traverseDone then some calls
            else
              let token := dic.populateToken userPosToken .prefix_
              let calls := calls ++ [.onToken userPosToken.key userPosToken.key token]
              match callback calls with
              | .traverseDone => some calls
              | .traverseCull => none
              | .traverseNextKey => lookupPrefixFrom callback key rest calls
              | .traverseContinue => lookupPrefixFrom callback key rest calls

/-- `LookupPrefix`. -/
def lookupPrefix (callback : Callback) (key : ByteString) (calls : List Call) : Option (List Call) :=
  if key = [] then some calls
  else if dic.tokens.userPosTokens = [] then some calls
  else
    dic.lookupPrefixFrom callback key
      (lowerBound UserPos.Token.key dic.tokens.userPosTokens (Strings.front key)) calls

/-- The loop of `LookupExact`. -/
def lookupExactFrom (callback : Callback) (key : ByteString) :
    List UserPos.Token → List Call → List Call
  | [], calls => calls
  | userPosToken :: rest, calls =>
      if userPosToken.rawPosType = suggestionOnly then lookupExactFrom callback key rest calls
      else
        let calls := calls ++ [.onToken key key (dic.populateToken userPosToken .exact_)]
        if callback calls ≠ .traverseContinue then calls
        else lookupExactFrom callback key rest calls

/-- `LookupExact`. -/
def lookupExact (callback : Callback) (key : ByteString) (calls : List Call) : List Call :=
  if key = [] ∨ dic.tokens.userPosTokens = [] then calls
  else
    let range := dic.equalRangeByKey key
    if range = [] then calls
    else
      let calls := calls ++ [.onKey key]
      if callback calls ≠ .traverseContinue then calls
      else
        let calls := calls ++ [.onActualKey key key 0]
        if callback calls ≠ .traverseContinue then calls
        else dic.lookupExactFrom callback key range calls

/-! ## The ranges of the lookups -/

theorem sorted_key : dic.tokens.userPosTokens.Pairwise fun a b => a.key ≤ b.key :=
  dic.tokens.sorted.imp key_le_of_orderByKeyThenById

theorem equalRangeByKey_eq (key : ByteString) :
    dic.equalRangeByKey key = dic.tokens.userPosTokens.filter fun token => token.key = key :=
  between_bounds dic.sorted_key key

/-- Cutting lists to a length keeps their order. -/
theorem take_le_take {a b : ByteString} (order : a ≤ b) (n : Nat) : a.take n ≤ b.take n := by
  by_contra wrong
  have less : b.take n < a.take n := not_le.1 wrong
  induction n generalizing a b with
  | zero => exact absurd less (lt_irrefl _)
  | succ n ih =>
      cases a with
      | nil => exact absurd less (List.not_lt_nil _)
      | cons x a =>
          cases b with
          | nil => exact absurd order (not_le.2 (List.nil_lt_cons x a))
          | cons y b =>
              rw [List.take_succ_cons, List.take_succ_cons, List.cons_lt_cons_iff] at less
              rcases cons_le_cons_iff.1 order with below | ⟨rfl, rest⟩
              · rcases less with above | ⟨rfl, _⟩
                · exact absurd below above.asymm
                · exact absurd below (lt_irrefl _)
              · rcases less with above | ⟨_, lessRest⟩
                · exact absurd above (lt_irrefl _)
                · exact ih rest (not_le.2 lessRest) lessRest

theorem equalRangeByKeyPrefix_eq (key : ByteString) :
    dic.equalRangeByKeyPrefix key = dic.tokens.userPosTokens.filter fun token => key <+: token.key := by
  have sorted : dic.tokens.userPosTokens.Pairwise
      fun a b => a.key.take key.length ≤ b.key.take key.length :=
    dic.sorted_key.imp fun {a b} order => take_le_take order key.length
  refine (between_bounds sorted key).trans (List.filter_congr fun token _ => ?_)
  exact decide_eq_decide.2 ⟨fun same => same ▸ List.take_prefix _ _,
    fun front => (List.prefix_iff_eq_take.1 front).symm⟩

end UserDictionary

end Mozkey.Dictionary
