import Mozkey.Dictionary.TraversalContract
import Mozkey.Dictionary.UserDictionary

/-!
# Lookups in the user dictionary

The exact lookup tells the tokens of one key; it obeys the contract of traversals in any case.  The
predictive lookup offers the matching tokens one by one, and so does the prefix lookup, for a
callback that never asks for culling.  The prefix lookup starts at the first character of the query,
and thus passes over tokens that stop within that character.  `lookupsObey_iff` puts this together.
-/

namespace Mozkey.Dictionary

open Mozkey.Lib

namespace UserDictionary

variable (dic : UserDictionary) (callback : Callback) (key : ByteString)

/-! ## The lookups -/

/-- The tokens whose key extends the query. -/
def predictiveMatches : List Token :=
  (dic.tokens.userPosTokens.filter fun token => key <+: token.key).map (dic.populateToken · .predictive)

/-- The tokens whose key is a prefix of the query, without those that are for suggestions only. -/
def prefixMatches : List Token :=
  (dic.tokens.userPosTokens.filter fun token =>
    token.key <+: key ∧ token.rawPosType ≠ suggestionOnly).map (dic.populateToken · .prefix_)

/-- The tokens whose key is the query, without those that are for suggestions only. -/
def exactMatches : List Token :=
  (dic.tokens.userPosTokens.filter fun token =>
    token.key = key ∧ token.rawPosType ≠ suggestionOnly).map (dic.populateToken · .exact_)

theorem sorted_matches (p : UserPos.Token → Bool) (requestType : RequestType) :
    ((dic.tokens.userPosTokens.filter p).map (dic.populateToken · requestType)).Pairwise
      fun a b => a.key ≤ b.key :=
  List.pairwise_map.2 (dic.sorted_key.filter p)

/-- **The predictive lookup** offers the matching tokens one by one. -/
theorem lookupPredictiveFrom_eq (tokens : List UserPos.Token) (calls : List Call) :
    dic.lookupPredictiveFrom callback tokens calls
      = calls ++ offer callback (tokens.map (dic.populateToken · .predictive)) calls := by
  induction tokens generalizing calls with
  | nil => exact (List.append_nil _).symm
  | cons token tokens ih =>
      rw [lookupPredictiveFrom, List.map_cons, offer]
      dsimp only
      rw [key_populateToken]
      cases callback (calls ++ [.onKey token.key]) with
      | traverseDone => rfl
      | traverseNextKey =>
          dsimp only
          rw [ih, List.append_assoc, List.singleton_append]
      | traverseCull =>
          dsimp only
          rw [ih, List.append_assoc, List.singleton_append]
      | traverseContinue =>
          dsimp only
          split
          · rw [List.append_assoc]
            rfl
          · split
            · simp
            · rw [ih]
              simp

theorem lookupPredictive_eq (nonempty : key ≠ []) (calls : List Call) :
    dic.lookupPredictive callback key calls
      = calls ++ offer callback (dic.predictiveMatches key) calls := by
  rw [lookupPredictive, if_neg nonempty, predictiveMatches, lookupPredictiveFrom_eq,
    equalRangeByKeyPrefix_eq]
  split
  · rename_i none
    rw [none]
    exact (List.append_nil _).symm
  · rfl

variable {callback} in
/-- **The prefix lookup** offers the matching tokens among those it goes over one by one, if the
callback never asks for culling. -/
theorem lookupPrefixFrom_eq (never : ∀ calls, callback calls ≠ .traverseCull)
    {tokens : List UserPos.Token} (sorted : tokens.Pairwise fun a b => a.key ≤ b.key)
    (calls : List Call) :
    dic.lookupPrefixFrom callback key tokens calls
      = some (calls ++ offer callback ((tokens.filter fun token =>
          token.key <+: key ∧ token.rawPosType ≠ suggestionOnly).map
            (dic.populateToken · .prefix_)) calls) := by
  induction tokens generalizing calls with
  | nil => exact congrArg some (List.append_nil _).symm
  | cons token tokens ih =>
      obtain ⟨above, sortedRest⟩ := List.pairwise_cons.1 sorted
      rw [lookupPrefixFrom]
      by_cases beyond : token.key > key
      · have none : ((token :: tokens).filter fun token =>
            token.key <+: key ∧ token.rawPosType ≠ suggestionOnly) = [] := by
          refine List.filter_eq_nil_iff.2 fun other member both => ?_
          have front := (of_decide_eq_true both).1
          have behind : token.key ≤ other.key := by
            rcases List.mem_cons.1 member with rfl | later
            · exact le_refl _
            · exact above other later
          exact absurd (beyond.trans_le behind) (not_lt.2 (le_of_isPrefix front))
        rw [if_pos beyond, none]
        exact congrArg some (List.append_nil _).symm
      rw [if_neg beyond]
      by_cases suggestion : token.rawPosType = suggestionOnly
      · rw [if_pos suggestion, ih sortedRest, List.filter_cons_of_neg (by simp [suggestion])]
      rw [if_neg suggestion]
      by_cases front : token.key <+: key
      · rw [if_neg (not_not_intro front), List.filter_cons_of_pos (by simp [front, suggestion]),
          List.map_cons, offer]
        dsimp only
        rw [key_populateToken]
        cases asked : callback (calls ++ [.onKey token.key]) with
        | traverseDone => rfl
        | traverseNextKey =>
            dsimp only
            rw [ih sortedRest, List.append_assoc, List.singleton_append]
        | traverseCull => exact absurd asked (never _)
        | traverseContinue =>
            dsimp only
            split
            · rw [List.append_assoc]
              rfl
            · cases told : callback (calls ++ [.onKey token.key]
                  ++ [.onActualKey token.key token.key 0]
                  ++ [.onToken token.key token.key (dic.populateToken token .prefix_)]) with
              | traverseDone => simp
              | traverseCull => exact absurd told (never _)
              | traverseNextKey =>
                  dsimp only
                  rw [ih sortedRest]
                  simp
              | traverseContinue =>
                  dsimp only
                  rw [ih sortedRest]
                  simp
      · rw [if_pos front, ih sortedRest, List.filter_cons_of_neg (by simp [front])]

variable {callback} in
theorem lookupPrefix_eq (nonempty : key ≠ []) (never : ∀ calls, callback calls ≠ .traverseCull)
    (calls : List Call) :
    dic.lookupPrefix callback key calls
      = some (calls ++ offer callback
          ((dic.prefixMatches key).filter fun token => Strings.front key ≤ token.key) calls) := by
  have kept : (dic.prefixMatches key).filter (fun token => Strings.front key ≤ token.key)
      = (((lowerBound UserPos.Token.key dic.tokens.userPosTokens (Strings.front key)).filter
          fun token => token.key <+: key ∧ token.rawPosType ≠ suggestionOnly).map
            (dic.populateToken · .prefix_)) := by
    rw [prefixMatches, List.filter_map, List.filter_filter, lowerBound_eq dic.sorted_key,
      List.filter_filter]
    refine congrArg _ (List.filter_congr fun token _ => ?_)
    exact Bool.and_comm _ _
  rw [lookupPrefix, if_neg nonempty, kept]
  split
  · rename_i none
    rw [none]
    exact congrArg some (List.append_nil _).symm
  · refine dic.lookupPrefixFrom_eq key never ?_ calls
    exact dic.sorted_key.sublist (List.dropWhile_sublist _)

theorem lookupExactFrom_eq (tokens : List UserPos.Token) (calls : List Call) :
    dic.lookupExactFrom callback key tokens calls
      = calls ++ tell callback key ((tokens.filter fun token =>
          token.rawPosType ≠ suggestionOnly).map (dic.populateToken · .exact_)) calls := by
  induction tokens generalizing calls with
  | nil => exact (List.append_nil _).symm
  | cons token tokens ih =>
      rw [lookupExactFrom]
      by_cases suggestion : token.rawPosType = suggestionOnly
      · rw [if_pos suggestion, ih, List.filter_cons_of_neg (by simp [suggestion])]
      · rw [if_neg suggestion, List.filter_cons_of_pos (by simp [suggestion]), List.map_cons, tell]
        dsimp only
        split
        · rfl
        · rw [ih, List.append_assoc, List.singleton_append]

/-- **The exact lookup** always obeys the contract. -/
theorem lookupExact_obeys (nonempty : key ≠ []) :
    Obeys callback [] (dic.exactMatches key) (dic.lookupExact callback key []) := by
  have tokenKeys : ∀ token ∈ dic.exactMatches key, token.key = key := by
    intro token member
    obtain ⟨userPosToken, kept, rfl⟩ := List.mem_map.1 member
    exact (of_decide_eq_true (List.mem_filter.1 kept).2).1
  have range : ((dic.equalRangeByKey key).filter fun token => token.rawPosType ≠ suggestionOnly).map
      (dic.populateToken · .exact_) = dic.exactMatches key := by
    rw [equalRangeByKey_eq, List.filter_filter, exactMatches]
    refine congrArg _ (List.filter_congr fun token _ => ?_)
    rw [← Bool.decide_and]
    exact decide_eq_decide.2 And.comm
  rw [lookupExact]
  split
  · rename_i empty
    have none : dic.exactMatches key = [] := by
      rw [exactMatches, empty.resolve_left nonempty]
      rfl
    rw [none]
    exact obeys_nil callback []
  dsimp only
  split
  · rename_i empty
    have none : dic.exactMatches key = [] := by
      rw [← range, empty]
      rfl
    rw [none]
    exact obeys_nil callback []
  split
  · rename_i stops
    refine obeys_of_onlyLast ⟨.inl rfl, trivial⟩ ?_ tokenKeys List.nil_prefix (.inr ⟨[], _, rfl, stops⟩)
    exact fun call member => List.mem_singleton.1 member ▸ rfl
  rename_i asked
  split
  · rename_i stops
    refine obeys_of_onlyLast ⟨.inr (not_not.1 asked), .inl rfl, trivial⟩ ?_ tokenKeys List.nil_prefix
      (.inr ⟨[.onKey key], _, rfl, stops⟩)
    exact List.forall_mem_cons.2 ⟨rfl, List.forall_mem_cons.2 ⟨rfl, List.forall_mem_nil _⟩⟩
  rename_i actual
  rw [lookupExactFrom_eq, range]
  obtain ⟨only, keys, front, all⟩ :=
    tell_spec callback key (dic.exactMatches key) ([] ++ [.onKey key] ++ [.onActualKey key key 0])
  refine @obeys_of_onlyLast _ _ _ _ key ⟨.inr (not_not.1 asked), .inr (not_not.1 actual), only⟩
    (List.forall_mem_cons.2 ⟨rfl, List.forall_mem_cons.2 ⟨rfl, keys⟩⟩) tokenKeys front ?_
  exact all.imp_right fun ends => ends.cons.cons

/-! ## The main result -/

/-- **The lookups of the user dictionary obey the traversal contract**; the prefix lookup does not
take callbacks that ask for culling. -/
structure LookupsObey : Prop where
  predictive : Obeys callback [] (dic.predictiveMatches key) (dic.lookupPredictive callback key [])
  prefix_ : (∀ calls, callback calls ≠ .traverseCull) →
    ∃ calls, dic.lookupPrefix callback key [] = some calls ∧
      Obeys callback [] (dic.prefixMatches key) calls
  exact_ : Obeys callback [] (dic.exactMatches key) (dic.lookupExact callback key [])

/-- **When the lookups obey the contract**: the callback is consistent when the matching tokens are
offered to it one by one, and for the prefix lookup no matching token sorts before the first
character of the query. -/
theorem lookupsObey_iff (nonempty : key ≠ []) :
    dic.LookupsObey callback key ↔
      Consistent callback [] (dic.predictiveMatches key) [] ∧
        ((∀ calls, callback calls ≠ .traverseCull) →
          (∀ token ∈ dic.prefixMatches key, Strings.front key ≤ token.key) ∧
            Consistent callback [] (dic.prefixMatches key) []) := by
  have sortedPrefix : (dic.prefixMatches key).Pairwise fun a b => a.key ≤ b.key :=
    dic.sorted_matches _ _
  have predictive : Obeys callback [] (dic.predictiveMatches key) (dic.lookupPredictive callback key [])
      ↔ Consistent callback [] (dic.predictiveMatches key) [] := by
    rw [lookupPredictive_eq dic callback key nonempty]
    exact obeys_offer_iff callback (dic.sorted_matches _ _) []
  have prefix_ : ∀ never : ∀ calls, callback calls ≠ .traverseCull,
      (∃ calls, dic.lookupPrefix callback key [] = some calls ∧
          Obeys callback [] (dic.prefixMatches key) calls) ↔
        (∀ token ∈ dic.prefixMatches key, Strings.front key ≤ token.key) ∧
          Consistent callback [] (dic.prefixMatches key) [] := by
    intro never
    rw [lookupPrefix_eq dic key nonempty never, List.nil_append]
    by_cases reached : ∀ token ∈ dic.prefixMatches key, Strings.front key ≤ token.key
    · have same : (dic.prefixMatches key).filter (fun token => Strings.front key ≤ token.key)
          = dic.prefixMatches key :=
        List.filter_eq_self.2 fun token member => decide_eq_true (reached token member)
      rw [same, ← obeys_offer_iff callback sortedPrefix]
      constructor
      · rintro ⟨_, found, obeys⟩
        cases found
        exact ⟨reached, obeys⟩
      · exact fun both => ⟨_, rfl, both.2⟩
    · refine iff_of_false ?_ fun both => reached both.1
      rintro ⟨_, found, obeys⟩
      cases found
      push Not at reached
      obtain ⟨token, member, below⟩ := reached
      refine not_obeys_of_below callback (sortedPrefix.filter _) member (fun other kept => ?_) obeys
      exact below.trans_le (of_decide_eq_true (List.mem_filter.1 kept).2)
  constructor
  · exact fun obey => ⟨predictive.1 obey.predictive, fun never => (prefix_ never).1 (obey.prefix_ never)⟩
  · exact fun both => ⟨predictive.2 both.1, fun never => (prefix_ never).2 (both.2 never),
      dic.lookupExact_obeys callback key nonempty⟩

/-- A callback that is content with one token of each key. -/
def oneToken : Callback := fun calls =>
  if (calls.getLast?.map Call.isToken) = some true then .traverseNextKey else .traverseContinue

/-- Three keys with one token each, one of them for suggestions only. -/
def threeKeys : UserDictionary where
  tokens := ⟨[⟨[0x6b], [0x31], 1, 0, 1⟩, ⟨[0x6b, 0x61], [0x32], 2, suggestionOnly, 1⟩,
    ⟨[0x6b, 0x61, 0x69], [0x33], 2, 0, 1⟩], by decide⟩
  kPosTypeStringTable := []
  unknownId := 0

/-- Where no key has two tokens, the lookups obey the callback. -/
theorem lookupsObey_threeKeys : threeKeys.LookupsObey oneToken [0x6b] := by
  refine (lookupsObey_iff _ _ _ (by decide)).2 ⟨?_, fun _ => ⟨by decide, ?_⟩⟩
  · exact .inr ⟨rfl, by decide, .inr ⟨rfl, by decide, .inr ⟨rfl, by decide, trivial⟩⟩⟩
  · exact .inr ⟨rfl, by decide, trivial⟩

/-- Two tokens of one key. -/
def twoTokens : UserDictionary where
  tokens := ⟨[⟨[0x6b], [0x31], 1, 0, 1⟩, ⟨[0x6b], [0x32], 2, 0, 1⟩], by decide⟩
  kPosTypeStringTable := []
  unknownId := 0

/-- The answer `TRAVERSE_NEXT_KEY` to `OnToken` does not suppress the other token of the key. -/
theorem not_lookupsObey_nextKey : ¬ twoTokens.LookupsObey oneToken [0x6b] := by
  intro obey
  let token := fun userPosToken => twoTokens.populateToken userPosToken .predictive
  have calls : twoTokens.lookupPredictive oneToken [0x6b] [] =
      [.onKey [0x6b], .onActualKey [0x6b] [0x6b] 0,
        .onToken [0x6b] [0x6b] (token ⟨[0x6b], [0x31], 1, 0, 1⟩),
        .onKey [0x6b], .onActualKey [0x6b] [0x6b] 0,
        .onToken [0x6b] [0x6b] (token ⟨[0x6b], [0x32], 2, 0, 1⟩)] := by decide
  have honours := obey.predictive.honours
  rw [calls] at honours
  exact honours.2.2.1 (.onToken [0x6b] [0x6b] (token ⟨[0x6b], [0x32], 2, 0, 1⟩)) (by decide) rfl rfl

end UserDictionary

end Mozkey.Dictionary
