import Mozkey.Dictionary.Traversal
import Mozkey.Lib.SortedRange

/-!
# The traversal contract, token by token

The interface of the dictionaries lets a callback end the traversal, give up the rest of a key, or
give up all keys that extend a key.  `Obeys` says what this means for the calls that a lookup makes
for a list of matching tokens.

`offer` makes the calls token by token, where the interface speaks of keys: it asks again with
`OnKey` for each token of a key, it heeds no answer to `OnActualKey` and `OnToken` other than
`TRAVERSE_DONE`, and it does not cull.  Whether the contract is obeyed then depends on how the
callback answers when it is asked again, which is what `Consistent` states (`obeys_offer_iff`).
`tell` makes the calls for the tokens of one key, which obey the contract in any case
(`obeys_of_onlyLast`, `tell_spec`).
-/

namespace Mozkey.Dictionary

open Mozkey.Lib

/-! ## What the contract says -/

/-- The key of a call. -/
def Call.key : Call → ByteString
  | .onKey key => key
  | .onActualKey key _ _ => key
  | .onToken key _ _ => key

def Call.isToken : Call → Bool
  | .onToken _ _ _ => true
  | _ => false

/-- The tokens that are reported. -/
def tokensReported (calls : List Call) : List Token :=
  calls.filterMap fun call =>
    match call with
    | .onToken _ _ token => some token
    | _ => none

/-- What the answer to a call means for the calls after it. -/
def Honoured : ResultType → Call → List Call → Prop
  | .traverseDone, _, after => after = []
  | .traverseNextKey, call, after => ∀ later ∈ after, later.isToken = true → later.key ≠ call.key
  | .traverseCull, call, after => ∀ later ∈ after, ¬ call.key <+: later.key
  | .traverseContinue, _, _ => True

/-- All answers are honoured, by a callback that had got some calls before. -/
def Honours (callback : Callback) : List Call → List Call → Prop
  | _, [] => True
  | history, call :: after =>
      Honoured (callback (history ++ [call])) call after ∧ Honours callback (history ++ [call]) after

/-- The answer to a call excuses that a token is not reported. -/
def Suppresses : ResultType → Call → Token → Prop
  | .traverseDone, call, token => call.key ≤ token.key
  | .traverseNextKey, call, token => call.key = token.key
  | .traverseCull, call, token => call.key <+: token.key
  | .traverseContinue, _, _ => False

/-- A token is suppressed by one of the calls, and this when no tokens had been reported but some
of those before it. -/
def Excused (callback : Callback) (history calls : List Call) (reported : List Token) (token : Token) :
    Prop :=
  ∃ before call after, calls = before ++ call :: after ∧
    Suppresses (callback (history ++ before ++ [call])) call token ∧
      tokensReported (before ++ [call]) <+: reported

/-- The tokens that are marked. -/
def marked (marks : List (Token × Bool)) : List Token := (marks.filter Prod.snd).map Prod.fst

/-- Each of the matching tokens is reported in its turn, or excused. -/
def ReportsAll (callback : Callback) (history : List Call) (matching : List Token)
    (calls : List Call) : Prop :=
  ∃ marks : List (Token × Bool), marks.map Prod.fst = matching ∧ tokensReported calls = marked marks ∧
    ∀ front token back, marks = front ++ (token, false) :: back →
      Excused callback history calls (marked front) token

/-- **The traversal contract** for the calls about some matching tokens. -/
structure Obeys (callback : Callback) (history : List Call) (matching : List Token)
    (calls : List Call) : Prop where
  honours : Honours callback history calls
  inOrder : (calls.map Call.key).Pairwise (· ≤ ·)
  reportsAll : ReportsAll callback history matching calls

/-! ## Offering tokens one by one -/

/-- The calls that are made when tokens are offered to a callback one after another, each with its
own `OnKey` and `OnActualKey`. -/
def offer (callback : Callback) : List Token → List Call → List Call
  | [], _ => []
  | token :: tokens, history =>
      let asked := history ++ [.onKey token.key]
      match callback asked with
      | .traverseDone => [.onKey token.key]
      | .traverseNextKey => .onKey token.key :: offer callback tokens asked
      | .traverseCull => .onKey token.key :: offer callback tokens asked
      | .traverseContinue =>
          let actual := asked ++ [.onActualKey token.key token.key 0]
          if callback actual = .traverseDone then [.onKey token.key, .onActualKey token.key token.key 0]
          else
            let told := actual ++ [.onToken token.key token.key token]
            .onKey token.key :: .onActualKey token.key token.key 0 ::
              .onToken token.key token.key token ::
                if callback told = .traverseDone then [] else offer callback tokens told

/-- A callback that is offered tokens one by one never goes on with what it gave up: it does not
answer `TRAVERSE_NEXT_KEY` or `TRAVERSE_CULL` to `OnActualKey`, it goes on with no token of a passed
key, and it asks for culling only where no later token extends the key. -/
def Consistent (callback : Callback) : List ByteString → List Token → List Call → Prop
  | _, [], _ => True
  | passed, token :: tokens, history =>
      let asked := history ++ [.onKey token.key]
      match callback asked with
      | .traverseDone => True
      | .traverseNextKey => Consistent callback (token.key :: passed) tokens asked
      | .traverseCull =>
          (∀ later ∈ tokens, ¬ token.key <+: later.key) ∧ Consistent callback passed tokens asked
      | .traverseContinue =>
          let actual := asked ++ [.onActualKey token.key token.key 0]
          let told := actual ++ [.onToken token.key token.key token]
          callback actual = .traverseDone ∨
            callback actual = .traverseContinue ∧ token.key ∉ passed ∧
              match callback told with
              | .traverseDone => True
              | .traverseNextKey => Consistent callback (token.key :: passed) tokens told
              | .traverseCull =>
                  (∀ later ∈ tokens, ¬ token.key <+: later.key) ∧ Consistent callback passed tokens told
              | .traverseContinue => Consistent callback passed tokens told

/-- The calls about one token, from the first one on. -/
inductive Block (token : Token) : List Call → Prop
  | asked : Block token [.onKey token.key]
  | actual : Block token [.onKey token.key, .onActualKey token.key token.key 0]
  | told : Block token [.onKey token.key, .onActualKey token.key token.key 0,
      .onToken token.key token.key token]

theorem Block.key_eq {token : Token} {block : List Call} (isBlock : Block token block) :
    ∀ call ∈ block, call.key = token.key := by
  cases isBlock with
  | asked => simp [Call.key]
  | actual => simp [Call.key]
  | told => simp [Call.key]

section Offer

variable (callback : Callback)

/-- **How a token is offered**: the offers end with the answer `TRAVERSE_DONE` to the last call
about the token; or they go on after the token was reported, or after it was refused. -/
theorem offer_cons (token : Token) (tokens : List Token) (history : List Call) :
    ∃ block, Block token block ∧
      ((offer callback (token :: tokens) history = block ∧ ∃ before call, block = before ++ [call] ∧
          callback (history ++ before ++ [call]) = .traverseDone) ∨
        offer callback (token :: tokens) history = block ++ offer callback tokens (history ++ block) ∧
          (tokensReported block = [token] ∨
            block = [.onKey token.key] ∧
              (callback (history ++ block) = .traverseNextKey ∨
                callback (history ++ block) = .traverseCull))) := by
  rw [offer]
  dsimp only
  cases asked : callback (history ++ [.onKey token.key]) with
  | traverseDone => exact ⟨_, .asked, .inl ⟨rfl, [], _, rfl, by simpa using asked⟩⟩
  | traverseNextKey => exact ⟨_, .asked, .inr ⟨rfl, .inr ⟨rfl, .inl asked⟩⟩⟩
  | traverseCull => exact ⟨_, .asked, .inr ⟨rfl, .inr ⟨rfl, .inr asked⟩⟩⟩
  | traverseContinue =>
      dsimp only
      split
      · rename_i done
        exact ⟨_, .actual, .inl ⟨rfl, [.onKey token.key], _, rfl, done⟩⟩
      · refine ⟨_, .told, ?_⟩
        have whole : history ++ [.onKey token.key] ++ [.onActualKey token.key token.key 0]
              ++ [.onToken token.key token.key token]
            = history ++ [.onKey token.key, .onActualKey token.key token.key 0,
                .onToken token.key token.key token] := by
          simp
        rw [whole]
        split
        · rename_i done
          refine .inl ⟨rfl, [.onKey token.key, .onActualKey token.key token.key 0], _, rfl, ?_⟩
          rw [List.append_assoc]
          exact done
        · exact .inr ⟨rfl, .inl rfl⟩

/-- All calls are about offered tokens. -/
theorem key_mem_offer (tokens : List Token) (history : List Call) :
    ∀ call ∈ offer callback tokens history, ∃ token ∈ tokens, token.key = call.key := by
  induction tokens generalizing history with
  | nil => exact fun _ absent => absurd absent List.not_mem_nil
  | cons token tokens ih =>
      intro call member
      obtain ⟨block, isBlock, ⟨all, _⟩ | ⟨all, _⟩⟩ := offer_cons callback token tokens history
      · rw [all] at member
        exact ⟨token, List.mem_cons_self .., (isBlock.key_eq call member).symm⟩
      · rw [all, List.mem_append] at member
        rcases member with here | later
        · exact ⟨token, List.mem_cons_self .., (isBlock.key_eq call here).symm⟩
        · obtain ⟨other, isOther, same⟩ := ih _ call later
          exact ⟨other, List.mem_cons_of_mem _ isOther, same⟩

/-- The first of the tokens is asked for in any case. -/
theorem onKey_mem_offer (token : Token) (tokens : List Token) (history : List Call) :
    Call.onKey token.key ∈ offer callback (token :: tokens) history := by
  obtain ⟨block, isBlock, ⟨all, _⟩ | ⟨all, _⟩⟩ := offer_cons callback token tokens history
  · rw [all]
    cases isBlock <;> exact List.mem_cons_self ..
  · rw [all]
    refine List.mem_append_left _ ?_
    cases isBlock <;> exact List.mem_cons_self ..

/-- No call extends a key exactly if no token does. -/
theorem offer_no_extension {key : ByteString} {tokens : List Token} {history : List Call}
    (above : ∀ token ∈ tokens, key ≤ token.key)
    (sorted : tokens.Pairwise fun a b => a.key ≤ b.key) :
    (∀ call ∈ offer callback tokens history, ¬ key <+: call.key) ↔
      ∀ token ∈ tokens, ¬ key <+: token.key := by
  constructor
  · intro none token member extends_
    cases tokens with
    | nil => cases member
    | cons first rest =>
        have below : first.key ≤ token.key := by
          rcases List.mem_cons.1 member with rfl | later
          · exact le_refl _
          · exact (List.pairwise_cons.1 sorted).1 token later
        refine none _ (onKey_mem_offer callback first rest history) ?_
        exact isPrefix_of_le_of_le extends_ (above first (List.mem_cons_self ..)) below
  · intro none call member extends_
    obtain ⟨token, isToken, same⟩ := key_mem_offer callback tokens history call member
    exact none token isToken (same ▸ extends_)

theorem inOrder_offer {tokens : List Token} (sorted : tokens.Pairwise fun a b => a.key ≤ b.key)
    (history : List Call) : ((offer callback tokens history).map Call.key).Pairwise (· ≤ ·) := by
  induction tokens generalizing history with
  | nil => exact List.Pairwise.nil
  | cons token tokens ih =>
      obtain ⟨above, sortedRest⟩ := List.pairwise_cons.1 sorted
      obtain ⟨block, isBlock, ends⟩ := offer_cons callback token tokens history
      have inBlock : (block.map Call.key).Pairwise (· ≤ ·) := by
        refine List.pairwise_map.2 (List.pairwise_of_forall_mem_list fun a isA b isB => ?_)
        rw [isBlock.key_eq a isA, isBlock.key_eq b isB]
      rcases ends with ⟨all, _⟩ | ⟨all, _⟩
      · rw [all]
        exact inBlock
      · rw [all, List.map_append, List.pairwise_append]
        refine ⟨inBlock, ih sortedRest _, ?_⟩
        rintro _ here _ later
        obtain ⟨a, isA, rfl⟩ := List.mem_map.1 here
        obtain ⟨b, isB, rfl⟩ := List.mem_map.1 later
        obtain ⟨other, isOther, same⟩ := key_mem_offer callback tokens _ b isB
        rw [isBlock.key_eq a isA, ← same]
        exact above other isOther

/-! ## What is reported -/

theorem tokensReported_append (calls more : List Call) :
    tokensReported (calls ++ more) = tokensReported calls ++ tokensReported more :=
  List.filterMap_append

theorem marked_cons (mark : Token × Bool) (marks : List (Token × Bool)) :
    marked (mark :: marks) = marked [mark] ++ marked marks := by
  rw [marked, marked, marked, ← List.map_append, ← List.filter_append, List.singleton_append]

/-- A token is reported by the calls about it, or not. -/
theorem Block.reported {token : Token} {block : List Call} (isBlock : Block token block) :
    ∃ b, tokensReported block = marked [(token, b)] := by
  cases isBlock with
  | asked => exact ⟨false, rfl⟩
  | actual => exact ⟨false, rfl⟩
  | told => exact ⟨true, rfl⟩

variable {callback}

theorem Excused.behind {history block calls : List Call} {reported : List Token} {token : Token}
    (excused : Excused callback (history ++ block) calls reported token) :
    Excused callback history (block ++ calls) (tokensReported block ++ reported) token := by
  obtain ⟨before, call, after, rfl, suppresses, front⟩ := excused
  refine ⟨block ++ before, call, after, (List.append_assoc ..).symm, ?_, ?_⟩
  · rw [← List.append_assoc]
    exact suppresses
  · rw [List.append_assoc, tokensReported_append]
    exact (List.prefix_append_right_inj _).2 front

/-- A token that is reported or refused, in front of others. -/
theorem ReportsAll.cons {history block calls : List Call} {token : Token} {tokens : List Token}
    {b : Bool} (reported : tokensReported block = marked [(token, b)])
    (excused : b = false → Excused callback history (block ++ calls) [] token)
    (rest : ReportsAll callback (history ++ block) tokens calls) :
    ReportsAll callback history (token :: tokens) (block ++ calls) := by
  obtain ⟨marks, all, told, others⟩ := rest
  refine ⟨(token, b) :: marks, congrArg _ all, ?_, ?_⟩
  · rw [tokensReported_append, reported, told, ← marked_cons]
  · intro front missed back split
    cases front with
    | nil =>
        obtain ⟨same, _⟩ := List.cons.inj split
        obtain ⟨rfl, unmarked⟩ := Prod.mk.inj same
        exact excused unmarked
    | cons mark front =>
        obtain ⟨rfl, rest⟩ := List.cons.inj split
        rw [marked_cons, ← reported]
        exact (others front missed back rest).behind

/-- Where the last call is answered by `TRAVERSE_DONE`, all tokens behind it are excused. -/
theorem reportsAll_done {history before : List Call} {call : Call} {token : Token}
    {tokens : List Token} (isBlock : Block token (before ++ [call]))
    (done : callback (history ++ before ++ [call]) = .traverseDone)
    (above : ∀ later ∈ tokens, token.key ≤ later.key) :
    ReportsAll callback history (token :: tokens) (before ++ [call]) := by
  obtain ⟨b, reported⟩ := isBlock.reported
  have none : marked (tokens.map fun later => (later, false)) = [] := by
    rw [marked, List.map_eq_nil_iff, List.filter_eq_nil_iff]
    intro mark member
    obtain ⟨_, _, rfl⟩ := List.mem_map.1 member
    exact Bool.false_ne_true
  refine ⟨(token, b) :: tokens.map fun later => (later, false), ?_, ?_, ?_⟩
  · rw [List.map_cons, List.map_map]
    exact congrArg _ (List.map_id _)
  · rw [marked_cons, none, List.append_nil, reported]
  · intro front missed back split
    have key : call.key = token.key := isBlock.key_eq call (List.mem_append_right _ (List.mem_singleton_self _))
    refine ⟨before, call, [], rfl, ?_, ?_⟩
    · rw [done]
      have isMark : (missed, false) ∈ (token, b) :: tokens.map fun later => (later, false) :=
        split ▸ List.mem_append_right _ (List.mem_cons_self ..)
      rcases List.mem_cons.1 isMark with here | later
      · exact (key.trans (congrArg Token.key (Prod.mk.inj here).1.symm)).le
      · obtain ⟨other, isOther, same⟩ := List.mem_map.1 later
        obtain ⟨rfl, _⟩ := Prod.mk.inj same
        exact key.le.trans (above other isOther)
    · rw [reported]
      cases front with
      | nil =>
          obtain ⟨same, _⟩ := List.cons.inj split
          rw [(Prod.mk.inj same).2]
          exact List.nil_prefix
      | cons mark front =>
          obtain ⟨rfl, _⟩ := List.cons.inj split
          rw [marked_cons (token, b) front]
          exact List.prefix_append _ _

variable (callback)

/-- **Tokens that are offered** are reported in their turn, or excused. -/
theorem reportsAll_offer {tokens : List Token} (sorted : tokens.Pairwise fun a b => a.key ≤ b.key)
    (history : List Call) : ReportsAll callback history tokens (offer callback tokens history) := by
  induction tokens generalizing history with
  | nil => exact ⟨[], rfl, rfl, fun front _ _ split => absurd split.symm (by simp)⟩
  | cons token tokens ih =>
      obtain ⟨above, sortedRest⟩ := List.pairwise_cons.1 sorted
      obtain ⟨block, isBlock, ⟨all, before, call, rfl, done⟩ | ⟨all, reported | ⟨rfl, refused⟩⟩⟩ :=
        offer_cons callback token tokens history
      · rw [all]
        exact reportsAll_done isBlock done above
      · rw [all]
        exact ReportsAll.cons (b := true) reported (fun wrong => absurd wrong.symm Bool.false_ne_true)
          (ih sortedRest _)
      · rw [all]
        refine ReportsAll.cons (b := false) rfl (fun _ => ?_) (ih sortedRest _)
        refine ⟨[], _, _, rfl, ?_, List.nil_prefix⟩
        rw [List.append_nil]
        rcases refused with nextKey | cull
        · rw [nextKey]
          exact rfl
        · rw [cull]
          exact List.prefix_refl _

/-! ## What is honoured -/

/-- No token of a passed key is reported. -/
def Avoids (passed : List ByteString) (calls : List Call) : Prop :=
  ∀ later ∈ calls, later.isToken = true → later.key ∉ passed

theorem avoids_nil (calls : List Call) : Avoids [] calls := fun _ _ _ => List.not_mem_nil

theorem avoids_cons_key (key : ByteString) (passed : List ByteString) (calls : List Call) :
    Avoids (key :: passed) calls ↔
      (∀ later ∈ calls, later.isToken = true → later.key ≠ key) ∧ Avoids passed calls := by
  constructor
  · intro avoids
    constructor
    · intro later member isToken same
      exact avoids later member isToken (same ▸ List.mem_cons_self ..)
    · intro later member isToken isPassed
      exact avoids later member isToken (List.mem_cons_of_mem _ isPassed)
  · rintro ⟨different, avoids⟩ later member isToken isPassed
    rcases List.mem_cons.1 isPassed with same | old
    · exact different later member isToken same
    · exact avoids later member isToken old

theorem avoids_cons_call (passed : List ByteString) (call : Call) (calls : List Call) :
    Avoids passed (call :: calls) ↔
      (call.isToken = true → call.key ∉ passed) ∧ Avoids passed calls :=
  List.forall_mem_cons

/-- **The answers are honoured** by offering tokens one by one exactly if the callback is
consistent. -/
theorem honours_offer_iff (passed : List ByteString) {tokens : List Token}
    (sorted : tokens.Pairwise fun a b => a.key ≤ b.key) (history : List Call) :
    Honours callback history (offer callback tokens history) ∧
        Avoids passed (offer callback tokens history) ↔
      Consistent callback passed tokens history := by
  induction tokens generalizing passed history with
  | nil => exact iff_of_true ⟨trivial, fun _ absent => absurd absent List.not_mem_nil⟩ trivial
  | cons token tokens ih =>
      obtain ⟨above, sortedRest⟩ := List.pairwise_cons.1 sorted
      have noExtension := fun history =>
        @offer_no_extension callback token.key tokens history above sortedRest
      have isKey : ∀ key, (Call.onKey key).isToken = false := fun _ => rfl
      have isActual : ∀ key, (Call.onActualKey key key 0).isToken = false := fun _ => rfl
      rw [offer, Consistent]
      dsimp only
      cases asked : callback (history ++ [.onKey token.key]) with
      | traverseDone => simp [Honours, Honoured, asked, isKey, Avoids]
      | traverseNextKey =>
          simp only [Honours, Honoured, asked, avoids_cons_call, isKey]
          rw [← ih (token.key :: passed) sortedRest, avoids_cons_key]
          simp only [Call.key]
          tauto
      | traverseCull =>
          simp only [Honours, Honoured, asked, avoids_cons_call, isKey]
          rw [← ih passed sortedRest, ← noExtension (history ++ [.onKey token.key])]
          simp only [Call.key]
          tauto
      | traverseContinue =>
          dsimp only
          cases actual : callback
              (history ++ [.onKey token.key] ++ [.onActualKey token.key token.key 0]) with
          | traverseDone =>
              simp only [if_true, Honours, asked, actual, Honoured, avoids_cons_call, isKey, isActual]
              simp [Avoids]
          | traverseNextKey =>
              refine iff_of_false (fun both => ?_) (by simp)
              simp only [reduceCtorEq, if_false, Honours, asked, actual, Honoured] at both
              exact both.1.2.1 _ (List.mem_cons_self ..) rfl rfl
          | traverseCull =>
              refine iff_of_false (fun both => ?_) (by simp)
              simp only [reduceCtorEq, if_false, Honours, asked, actual, Honoured] at both
              exact both.1.2.1 _ (List.mem_cons_self ..) (List.prefix_refl _)
          | traverseContinue =>
              simp only [reduceCtorEq, if_false, Honours, asked, actual, Honoured, avoids_cons_call,
                isKey, isActual]
              cases told : callback (history ++ [.onKey token.key]
                  ++ [.onActualKey token.key token.key 0] ++ [.onToken token.key token.key token]) with
              | traverseDone =>
                  simp [Honours, Avoids, Call.isToken, Call.key]
              | traverseNextKey =>
                  simp only [reduceCtorEq, if_false]
                  rw [← ih (token.key :: passed) sortedRest, avoids_cons_key]
                  simp only [Call.key, Call.isToken]
                  tauto
              | traverseCull =>
                  simp only [reduceCtorEq, if_false]
                  rw [← ih passed sortedRest, ← noExtension]
                  simp only [Call.key, Call.isToken]
                  tauto
              | traverseContinue =>
                  simp only [reduceCtorEq, if_false]
                  rw [← ih passed sortedRest]
                  simp only [Call.key, Call.isToken]
                  tauto

/-- **Tokens that are offered one by one** obey the contract exactly if the callback is
consistent. -/
theorem obeys_offer_iff {tokens : List Token} (sorted : tokens.Pairwise fun a b => a.key ≤ b.key)
    (history : List Call) :
    Obeys callback history tokens (offer callback tokens history) ↔
      Consistent callback [] tokens history := by
  rw [← honours_offer_iff callback [] sorted]
  constructor
  · exact fun obeys => ⟨obeys.honours, avoids_nil _⟩
  · exact fun both => ⟨both.1, inOrder_offer callback sorted history,
      reportsAll_offer callback sorted history⟩

variable {callback}

/-- What is reported is among what was to be reported. -/
theorem ReportsAll.subset {history calls : List Call} {matching : List Token}
    (reports : ReportsAll callback history matching calls) : tokensReported calls ⊆ matching := by
  obtain ⟨marks, rfl, told, _⟩ := reports
  rw [told]
  exact List.map_subset _ List.filter_sublist.subset

variable (callback)

/-- A token that is left out, and is below all those that are offered, has no excuse. -/
theorem not_obeys_of_below {tokens offered : List Token} {history : List Call} {token : Token}
    (sorted : offered.Pairwise fun a b => a.key ≤ b.key) (member : token ∈ tokens) (below : ∀ other ∈ offered, token.key < other.key) :
    ¬ Obeys callback history tokens (offer callback offered history) := by
  intro obeys
  obtain ⟨marks, rfl, told, others⟩ := obeys.reportsAll
  have above : ∀ call ∈ offer callback offered history, token.key < call.key := by
    intro call isCall
    obtain ⟨other, isOther, same⟩ := key_mem_offer callback offered history call isCall
    exact same ▸ below other isOther
  obtain ⟨⟨left, b⟩, isMark, rfl⟩ := List.mem_map.1 member
  cases b with
  | true =>
      have reported : left ∈ marked marks := List.mem_map.2 ⟨_, List.mem_filter.2 ⟨isMark, rfl⟩, rfl⟩
      rw [← told] at reported
      exact absurd (below left ((reportsAll_offer callback sorted history).subset reported)) (lt_irrefl _)
  | false =>
      obtain ⟨front, back, split⟩ := List.append_of_mem isMark
      obtain ⟨before, call, after, all, suppresses, _⟩ := others front _ back split
      have greater := above call (all ▸ List.mem_append_right _ (List.mem_cons_self ..))
      dsimp only at greater
      cases answer : callback (history ++ before ++ [call]) with
      | traverseDone =>
          rw [answer] at suppresses
          exact absurd greater (not_lt.2 suppresses)
      | traverseNextKey =>
          rw [answer] at suppresses
          exact absurd greater (not_lt.2 (le_of_eq suppresses))
      | traverseCull =>
          rw [answer] at suppresses
          exact absurd greater (not_lt.2 (le_of_isPrefix suppresses))
      | traverseContinue =>
          rw [answer] at suppresses
          exact suppresses

/-! ## Telling the tokens of one key -/

/-- Only the last call is answered by anything but `TRAVERSE_CONTINUE`. -/
def OnlyLast : List Call → List Call → Prop
  | _, [] => True
  | history, call :: after =>
      (after = [] ∨ callback (history ++ [call]) = .traverseContinue) ∧ OnlyLast (history ++ [call]) after

/-- The last call is not answered by `TRAVERSE_CONTINUE`. -/
def Ends (history calls : List Call) : Prop :=
  ∃ before call, calls = before ++ [call] ∧ callback (history ++ before ++ [call]) ≠ .traverseContinue

variable {callback}

theorem OnlyLast.honours {history calls : List Call} (only : OnlyLast callback history calls) :
    Honours callback history calls := by
  induction calls generalizing history with
  | nil => trivial
  | cons call after ih =>
      refine ⟨?_, ih only.2⟩
      rcases only.1 with rfl | goesOn
      · cases callback (history ++ [call]) with
        | traverseDone => rfl
        | traverseNextKey => exact fun _ absent => absurd absent List.not_mem_nil
        | traverseCull => exact fun _ absent => absurd absent List.not_mem_nil
        | traverseContinue => trivial
      · rw [goesOn]
        trivial

theorem Ends.cons {history after : List Call} {call : Call}
    (ends : Ends callback (history ++ [call]) after) : Ends callback history (call :: after) := by
  obtain ⟨before, last, rfl, stops⟩ := ends
  refine ⟨call :: before, last, rfl, ?_⟩
  rw [List.append_assoc history [call]] at stops
  exact stops

/-- **The calls about one key** obey the contract, if they stop at the first answer that is not
`TRAVERSE_CONTINUE`, or when all tokens have been told. -/
theorem obeys_of_onlyLast {history calls : List Call} {tokens : List Token} {key : ByteString}
    (only : OnlyLast callback history calls) (keys : ∀ call ∈ calls, call.key = key)
    (tokenKeys : ∀ token ∈ tokens, token.key = key) (front : tokensReported calls <+: tokens)
    (all : tokensReported calls = tokens ∨ Ends callback history calls) :
    Obeys callback history tokens calls := by
  refine ⟨only.honours, ?_, ?_⟩
  · refine List.pairwise_map.2 (List.pairwise_of_forall_mem_list fun a isA b isB => ?_)
    rw [keys a isA, keys b isB]
  obtain ⟨missing, rfl⟩ := front
  have marks : ∀ (b : Bool) (xs : List Token), marked (xs.map fun token => (token, b)) =
      if b then xs else [] := by
    intro b xs
    cases b with
    | true => simp [marked, List.filter_map, Function.comp_def]
    | false => simp [marked, List.filter_map, Function.comp_def]
  refine ⟨(tokensReported calls).map (fun token => (token, true)) ++ missing.map fun token => (token, false),
    ?_, ?_, ?_⟩
  · simp [Function.comp_def]
  · have told := marks true (tokensReported calls)
    have left := marks false missing
    rw [marked, List.filter_append, List.map_append]
    rw [marked] at told left
    rw [told, left]
    simp
  · intro before token back split
    have isMissing : missing ≠ [] := by
      rintro rfl
      have isMark : (token, false) ∈ (tokensReported calls).map fun token => (token, true) := by
        rw [List.map_nil, List.append_nil] at split
        exact split ▸ List.mem_append_right _ (List.mem_cons_self ..)
      obtain ⟨_, _, same⟩ := List.mem_map.1 isMark
      exact absurd (Prod.mk.inj same).2.symm Bool.false_ne_true
    have ends : Ends callback history calls := by
      refine all.resolve_left fun same => isMissing ?_
      exact List.append_right_eq_self.1 same.symm
    have isToken : token ∈ tokensReported calls ++ missing := by
      have isMark : (token, false) ∈ (tokensReported calls).map (fun token => (token, true))
          ++ missing.map fun token => (token, false) :=
        split ▸ List.mem_append_right _ (List.mem_cons_self ..)
      rcases List.mem_append.1 isMark with there | there
      · obtain ⟨_, isIn, same⟩ := List.mem_map.1 there
        exact List.mem_append_left _ ((Prod.mk.inj same).1 ▸ isIn)
      · obtain ⟨_, isIn, same⟩ := List.mem_map.1 there
        exact List.mem_append_right _ ((Prod.mk.inj same).1 ▸ isIn)
    obtain ⟨earlier, call, rfl, stops⟩ := ends
    have sameKey : call.key = token.key :=
      (keys call (List.mem_append_right _ (List.mem_singleton_self _))).trans (tokenKeys token isToken).symm
    refine ⟨earlier, call, [], rfl, ?_, ?_⟩
    · cases answer : callback (history ++ earlier ++ [call]) with
      | traverseDone => exact sameKey.le
      | traverseNextKey => exact sameKey
      | traverseCull =>
          change call.key <+: token.key
          rw [sameKey]
      | traverseContinue => exact absurd answer stops
    · -- All reported tokens stand before the first one that is not marked.
      have told := marks true (tokensReported (earlier ++ [call]))
      rcases List.append_eq_append_iff.1 split with ⟨more, rfl, _⟩ | ⟨more, marked_, rest⟩
      · rw [marked, List.filter_append, List.map_append]
        rw [marked] at told
        rw [told]
        exact List.prefix_append _ _
      · cases more with
        | nil =>
            rw [List.append_nil] at marked_
            rw [← marked_, told]
            exact List.prefix_refl _
        | cons mark more =>
            obtain ⟨rfl, _⟩ := List.cons.inj rest
            have isMark : (token, false) ∈ (tokensReported (earlier ++ [call])).map
                fun token => (token, true) :=
              marked_ ▸ List.mem_append_right _ (List.mem_cons_self ..)
            obtain ⟨_, _, same⟩ := List.mem_map.1 isMark
            exact absurd (Prod.mk.inj same).2.symm Bool.false_ne_true

variable (callback)

theorem obeys_nil (history : List Call) : Obeys callback history [] [] :=
  ⟨trivial, List.Pairwise.nil, [], rfl, rfl, fun _ _ _ split => absurd split.symm (by simp)⟩

/-- The calls that tell the tokens of a key, as long as the callback continues. -/
def tell (key : ByteString) : List Token → List Call → List Call
  | [], _ => []
  | token :: tokens, history =>
      .onToken key key token ::
        if callback (history ++ [.onToken key key token]) ≠ .traverseContinue then []
        else tell key tokens (history ++ [.onToken key key token])

theorem tell_spec (key : ByteString) (tokens : List Token) (history : List Call) :
    OnlyLast callback history (tell callback key tokens history) ∧
      (∀ call ∈ tell callback key tokens history, call.key = key) ∧
      tokensReported (tell callback key tokens history) <+: tokens ∧
      (tokensReported (tell callback key tokens history) = tokens ∨
        Ends callback history (tell callback key tokens history)) := by
  induction tokens generalizing history with
  | nil => exact ⟨trivial, List.forall_mem_nil _, List.prefix_refl _, .inl rfl⟩
  | cons token tokens ih =>
      rw [tell]
      split
      · rename_i stops
        refine ⟨⟨.inl rfl, trivial⟩, ?_, ⟨tokens, rfl⟩, .inr ⟨[], _, rfl, ?_⟩⟩
        · exact fun call member => List.mem_singleton.1 member ▸ rfl
        · rw [List.append_nil]
          exact stops
      · rename_i goesOn
        obtain ⟨only, keys, front, all⟩ := ih (history ++ [.onToken key key token])
        have told : ∀ calls, tokensReported (.onToken key key token :: calls)
            = token :: tokensReported calls := fun _ => rfl
        rw [told]
        refine ⟨⟨.inr (not_not.1 goesOn), only⟩, List.forall_mem_cons.2 ⟨rfl, keys⟩,
          List.cons_prefix_cons.2 ⟨rfl, front⟩, ?_⟩
        rcases all with same | ends
        · exact .inl (congrArg _ same)
        · exact .inr ends.cons

end Offer

end Mozkey.Dictionary
