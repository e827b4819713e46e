import Mozkey.Lib.LinkGraph
import Mozkey.Prediction.HistoryDic

/-!
# Cutting the chain that spells a word

Entries are linked to the entries that were committed after them, and a chain of
linked entries is suggested as one word.  To delete such a word, the predictor
searches the links depth first from an entry, with the lengths of the keys and the
values seen so far; at the target's lengths it compares the texts, and the link to
the last entry of the first chain that spells the target is cut.

The search returns that chain: the first of the chains from the entry in the order
of the links.
-/

namespace Mozkey.Prediction

open Mozkey.Lib

variable {cityFingerprint : ByteString → UInt64}

/-! ## The search -/

/-- `UserHistoryPredictor::EraseNextEntries`. -/
def eraseNextEntries (fp : UInt64) (entry : Entry) : Entry :=
  { entry with nextEntryFps := entry.nextEntryFps.filter (· ≠ fp) }

/-- The entry loses its links to another one. -/
def eraseNextEntriesChange (fp : UInt64) : HistoryDic.Change where
  apply := eraseNextEntries fp
  key _ := rfl
  value _ := rfl

/-- `RemoveNgramChainResult`; `done` comes with the storage whose link was cut.
`outOfFuel` stands for a search that goes on. -/
inductive RemoveNgramChainResult (cityFingerprint : ByteString → UInt64)
  | done (s : HistoryDic cityFingerprint)
  | tail
  | notFound
  | outOfFuel

/-- The loop over the links of an entry.  The entry that owns the links is the one
to lose the link to the last entry of the chain. -/
def overNextEntries (s : HistoryDic cityFingerprint) (owner : UInt64)
    (descend : UInt64 → RemoveNgramChainResult cityFingerprint) :
    List UInt64 → RemoveNgramChainResult cityFingerprint
  | [] => .notFound
  | fp :: fps =>
      match descend fp with
      | .done t => .done t
      | .tail => .done (s.update owner (eraseNextEntriesChange fp))
      | .notFound => overNextEntries s owner descend fps
      | .outOfFuel => .outOfFuel

/-- `remove_ngram_chain_internal`. -/
def removeNgramChainInternal (targetKey targetValue : ByteString)
    (s : HistoryDic cityFingerprint) : Nat → UInt64 → Entry → List ByteString → List ByteString →
    Nat → Nat → RemoveNgramChainResult cityFingerprint
  | 0, _, _, _, _, _, _ => .outOfFuel
  | fuel + 1, owner, entry, keyNgrams, valueNgrams, keyNgramsLen, valueNgramsLen =>
      let keyNgramsLen := keyNgramsLen + entry.key.length
      let valueNgramsLen := valueNgramsLen + entry.value.length
      let keyNgrams := keyNgrams ++ [entry.key]
      let valueNgrams := valueNgrams ++ [entry.value]
      if keyNgramsLen < targetKey.length ∧ valueNgramsLen < targetValue.length then
        overNextEntries s owner (fun fp =>
          match s.lookup fp with
          | none => .notFound
          | some next => removeNgramChainInternal targetKey targetValue s fuel fp next
              keyNgrams valueNgrams keyNgramsLen valueNgramsLen) entry.nextEntryFps
      else if keyNgramsLen = targetKey.length ∧ valueNgramsLen = targetValue.length then
        if keyNgrams.flatten = targetKey ∧ valueNgrams.flatten = targetValue then .tail
        else .notFound
      else .notFound

/-- `UserHistoryPredictor::RemoveNgramChain`.  Every key takes at least one byte, so
that the search never goes deeper than the target is long. -/
def removeNgramChain (targetKey targetValue : ByteString) (s : HistoryDic cityFingerprint)
    (fp : UInt64) (entry : Entry) : RemoveNgramChainResult cityFingerprint :=
  if entry.key <+: targetKey ∧ entry.value <+: targetValue then
    removeNgramChainInternal targetKey targetValue s (targetKey.length + 1) fp entry [] [] 0 0
  else .notFound

/-! ## Chains as paths -/

/-- The links of the entries, each labelled with its key and value. -/
def HistoryDic.graph (s : HistoryDic cityFingerprint) : LinkGraph UInt64 (ByteString × ByteString) :=
  fun fp => (s.lookup fp).map fun entry => ((entry.key, entry.value), entry.nextEntryFps)

/-- What is left of a key and a value behind a label. -/
def stripLabel (label target : ByteString × ByteString) : Option (ByteString × ByteString) :=
  if label.1 <+: target.1 ∧ label.2 <+: target.2 then
    some (target.1.drop label.1.length, target.2.drop label.2.length)
  else none

theorem stripLabel_eq_some_iff {label target rest : ByteString × ByteString} :
    stripLabel label target = some rest
      ↔ target.1 = label.1 ++ rest.1 ∧ target.2 = label.2 ++ rest.2 := by
  rw [stripLabel]
  constructor
  · intro stripped
    split at stripped
    · rename_i prefixes
      obtain ⟨⟨keyRest, sameKey⟩, valueRest, sameValue⟩ := prefixes
      rw [← Option.some.inj stripped, ← sameKey, ← sameValue]
      simp
    · cases stripped
  · rintro ⟨sameKey, sameValue⟩
    rw [if_pos ⟨⟨_, sameKey.symm⟩, _, sameValue.symm⟩, sameKey, sameValue]
    simp

theorem stripLabel_self (label : ByteString × ByteString) : stripLabel label label = some ([], []) :=
  stripLabel_eq_some_iff.2 ⟨(List.append_nil _).symm, (List.append_nil _).symm⟩

theorem stripLabel_append (label next target : ByteString × ByteString) :
    stripLabel (label.1 ++ next.1, label.2 ++ next.2) target
      = (stripLabel label target).bind (stripLabel next) := by
  refine Option.ext fun rest => ?_
  rw [Option.bind_eq_some_iff, stripLabel_eq_some_iff]
  constructor
  · rintro ⟨sameKey, sameValue⟩
    refine ⟨(next.1 ++ rest.1, next.2 ++ rest.2), stripLabel_eq_some_iff.2 ⟨?_, ?_⟩,
      stripLabel_eq_some_iff.2 ⟨rfl, rfl⟩⟩
    · rw [sameKey, List.append_assoc]
    · rw [sameValue, List.append_assoc]
  · rintro ⟨middle, first, second⟩
    obtain ⟨firstKey, firstValue⟩ := stripLabel_eq_some_iff.1 first
    obtain ⟨secondKey, secondValue⟩ := stripLabel_eq_some_iff.1 second
    constructor
    · rw [firstKey, secondKey, List.append_assoc]
    · rw [firstValue, secondValue, List.append_assoc]

/-- The chains of linked entries from a fingerprint that spell the key and the value,
in the order of the links. -/
def HistoryDic.chainsFrom (s : HistoryDic cityFingerprint) (key value : ByteString) (fp : UInt64) :
    List (List UInt64) :=
  spellings stripLabel ([], []) s.graph (key.length + 1) fp (key, value)

theorem HistoryDic.graph_eq_some_iff (s : HistoryDic cityFingerprint) {fp : UInt64}
    {label : ByteString × ByteString} {nexts : List UInt64} :
    s.graph fp = some (label, nexts) ↔ ∃ entry, s.lookup fp = some entry ∧
      (entry.key, entry.value) = label ∧ entry.nextEntryFps = nexts := by
  rw [graph, Option.map_eq_some_iff]
  simp only [Prod.mk.injEq]

/-- No key is empty, so that every entry of a chain uses up some of the target. -/
theorem HistoryDic.graph_progress (s : HistoryDic cityFingerprint) :
    s.graph.Progress stripLabel fun target => target.1.length := by
  intro fp label nexts node target rest stripped
  obtain ⟨entry, stored, rfl, -⟩ := s.graph_eq_some_iff.1 node
  have nonempty : 0 < entry.key.length := List.length_pos_iff.2 (s.nonempty fp entry stored).1
  have sameKey := congrArg List.length (stripLabel_eq_some_iff.1 stripped).1
  rw [List.length_append] at sameKey
  dsimp only at sameKey ⊢
  omega

/-- Where the key or the value is used up, no entry goes on. -/
theorem HistoryDic.spellings_of_used_up (s : HistoryDic cityFingerprint) (fuel : Nat) (fp : UInt64)
    {target : ByteString × ByteString} (usedUp : target.1 = [] ∨ target.2 = []) :
    spellings stripLabel ([], []) s.graph fuel fp target = [] := by
  cases fuel with
  | zero => rfl
  | succ fuel =>
      rw [spellings]
      cases node : s.graph fp with
      | none => rfl
      | some labelled =>
          obtain ⟨label, nexts⟩ := labelled
          obtain ⟨entry, stored, rfl, -⟩ := s.graph_eq_some_iff.1 node
          have nonempty := s.nonempty fp entry stored
          have missing : stripLabel (entry.key, entry.value) target = none := by
            rw [stripLabel, if_neg]
            rintro ⟨keyPrefix, valuePrefix⟩
            rcases usedUp with noKey | noValue
            · exact nonempty.1 (List.prefix_nil.1 (noKey ▸ keyPrefix))
            · exact nonempty.2 (List.prefix_nil.1 (noValue ▸ valuePrefix))
          dsimp only
          rw [missing]

theorem HistoryDic.graph_update_eraseNextEntries (s : HistoryDic cityFingerprint)
    (owner next : UInt64) :
    (s.update owner (eraseNextEntriesChange next)).graph = s.graph.cut (owner, next) := by
  funext fp
  rw [graph, LinkGraph.cut, graph, lookup_update]
  cases s.lookup fp with
  | none => split <;> rfl
  | some entry =>
      by_cases same : fp = owner
      · simp only [if_pos same]
        rfl
      · simp only [if_neg same]
        rfl

/-! ## The search finds the first chain -/

/-- The result of a search whose first chain is given. -/
def outcome (s : HistoryDic cityFingerprint) :
    Option (List UInt64) → RemoveNgramChainResult cityFingerprint
  | none => .notFound
  | some chain =>
      match lastLink chain with
      | none => .tail
      | some (owner, next) => .done (s.update owner (eraseNextEntriesChange next))

/-- The loop over the links, when every step finds the first of some chains. -/
theorem overNextEntries_eq_outcome (s : HistoryDic cityFingerprint) (owner : UInt64)
    {descend : UInt64 → RemoveNgramChainResult cityFingerprint}
    {chains : UInt64 → List (List UInt64)}
    (heads : ∀ fp, ∀ chain ∈ chains fp, ∃ tail, chain = fp :: tail)
    (step : ∀ fp, descend fp = outcome s (chains fp).head?) (fps : List UInt64) :
    overNextEntries s owner descend fps
      = outcome s (fps.flatMap fun fp => (chains fp).map (owner :: ·)).head? := by
  induction fps with
  | nil => rfl
  | cons fp fps ih =>
      rw [overNextEntries, step, List.flatMap_cons]
      cases found : chains fp with
      | nil => exact ih
      | cons chain others =>
          obtain ⟨tail, rfl⟩ := heads fp chain (by rw [found]; exact List.mem_cons_self)
          cases tail with
          | nil => rfl
          | cons second rest =>
              have long : 2 ≤ (fp :: second :: rest).length := by simp
              obtain ⟨link, isLast, -⟩ := exists_lastLink long
              rw [List.head?_cons, List.map_cons, List.cons_append, List.head?_cons]
              simp only [outcome, lastLink_cons_cons_cons, isLast]

/-- The chains from a stored entry, by what is left of the target behind it. -/
theorem HistoryDic.spellings_succ (s : HistoryDic cityFingerprint) {owner : UInt64} {entry : Entry}
    (stored : s.lookup owner = some entry) (fuel : Nat) (target : ByteString × ByteString) :
    spellings stripLabel ([], []) s.graph (fuel + 1) owner target
      = (stripLabel (entry.key, entry.value) target).elim [] fun rest =>
          if rest = ([], []) then [[owner]]
          else entry.nextEntryFps.flatMap fun fp =>
            (spellings stripLabel ([], []) s.graph fuel fp rest).map (owner :: ·) := by
  have node : s.graph owner = some ((entry.key, entry.value), entry.nextEntryFps) :=
    s.graph_eq_some_iff.2 ⟨entry, stored, rfl, rfl⟩
  rw [spellings, node]
  dsimp only
  cases stripLabel (entry.key, entry.value) target <;> rfl

/-- **The search returns the first chain from the entry.**  The texts seen so far
are stripped from the target; what is left is to be spelled from the entry on. -/
theorem removeNgramChainInternal_eq_outcome {targetKey targetValue : ByteString}
    (s : HistoryDic cityFingerprint) {fuel : Nat} {owner : UInt64} {entry : Entry}
    (stored : s.lookup owner = some entry) (keyNgrams valueNgrams : List ByteString)
    (unspent : keyNgrams.flatten.length ≤ targetKey.length)
    (enough : targetKey.length < keyNgrams.flatten.length + fuel) :
    removeNgramChainInternal targetKey targetValue s fuel owner entry keyNgrams valueNgrams
        keyNgrams.flatten.length valueNgrams.flatten.length
      = outcome s ((stripLabel (keyNgrams.flatten, valueNgrams.flatten)
          (targetKey, targetValue)).elim []
            (spellings stripLabel ([], []) s.graph fuel owner)).head? := by
  induction fuel generalizing owner entry keyNgrams valueNgrams with
  | zero => exact absurd enough (by omega)
  | succ fuel ih =>
      have keyNonempty : 0 < entry.key.length :=
        List.length_pos_iff.2 (s.nonempty owner entry stored).1
      have keyLength : (keyNgrams ++ [entry.key]).flatten.length
          = keyNgrams.flatten.length + entry.key.length := by simp
      have valueLength : (valueNgrams ++ [entry.value]).flatten.length
          = valueNgrams.flatten.length + entry.value.length := by simp
      -- the chains, by what is left behind the entry
      obtain ⟨rest, isRest⟩ : ∃ rest, stripLabel ((keyNgrams ++ [entry.key]).flatten,
          (valueNgrams ++ [entry.value]).flatten) (targetKey, targetValue) = rest := ⟨_, rfl⟩
      have chains : (stripLabel (keyNgrams.flatten, valueNgrams.flatten)
          (targetKey, targetValue)).elim []
            (spellings stripLabel ([], []) s.graph (fuel + 1) owner)
          = rest.elim [] fun rest => if rest = ([], []) then [[owner]]
              else entry.nextEntryFps.flatMap fun fp =>
                (spellings stripLabel ([], []) s.graph fuel fp rest).map (owner :: ·) := by
        rw [← isRest, List.flatten_append, List.flatten_append, List.flatten_singleton,
          List.flatten_singleton, stripLabel_append (_, _) (entry.key, entry.value)]
        cases stripLabel (keyNgrams.flatten, valueNgrams.flatten) (targetKey, targetValue) with
        | none => rfl
        | some target => exact s.spellings_succ stored fuel target
      have restLengths : ∀ {left}, rest = some left →
          targetKey.length = keyNgrams.flatten.length + entry.key.length + left.1.length ∧
          targetValue.length = valueNgrams.flatten.length + entry.value.length + left.2.length := by
        intro left isLeft
        obtain ⟨sameKey, sameValue⟩ := stripLabel_eq_some_iff.1 (isRest.trans isLeft)
        have keyTotal := congrArg List.length sameKey
        have valueTotal := congrArg List.length sameValue
        rw [List.length_append, keyLength] at keyTotal
        rw [List.length_append, valueLength] at valueTotal
        exact ⟨keyTotal, valueTotal⟩
      rw [chains, removeNgramChainInternal]
      split
      · -- both texts are short: on to the linked entries
        rename_i short
        have step : ∀ fp, (match s.lookup fp with
            | none => RemoveNgramChainResult.notFound
            | some next => removeNgramChainInternal targetKey targetValue s fuel fp next
                (keyNgrams ++ [entry.key]) (valueNgrams ++ [entry.value])
                (keyNgrams.flatten.length + entry.key.length)
                (valueNgrams.flatten.length + entry.value.length))
            = outcome s (rest.elim [] (spellings stripLabel ([], []) s.graph fuel fp)).head? := by
          intro fp
          cases found : s.lookup fp with
          | some next =>
              have inner := ih found (keyNgrams ++ [entry.key]) (valueNgrams ++ [entry.value])
                (by omega) (by omega)
              rw [keyLength, valueLength, isRest] at inner
              exact inner
          | none =>
              have nothing : ∀ target,
                  spellings stripLabel ([], []) s.graph fuel fp target = [] := by
                intro target
                cases fuel with
                | zero => rfl
                | succ fuel =>
                    rw [spellings, HistoryDic.graph, found]
                    rfl
              cases rest with
              | none => rfl
              | some left => rw [Option.elim_some, nothing]; rfl
        have heads : ∀ fp, ∀ chain ∈ rest.elim [] (spellings stripLabel ([], []) s.graph fuel fp),
            ∃ tail, chain = fp :: tail := by
          intro fp chain member
          cases rest with
          | none => exact absurd member List.not_mem_nil
          | some left => exact exists_tail_of_mem_spellings member
        rw [overNextEntries_eq_outcome s owner heads step]
        cases rest with
        | none =>
            rw [Option.elim_none, List.flatMap_eq_nil_iff.2 fun fp _ => by rfl]
        | some left =>
            have unfinished : left ≠ ([], []) := by
              rintro rfl
              have total := (restLengths rfl).1
              rw [List.length_nil] at total
              omega
            rw [Option.elim_some, if_neg unfinished]
            rfl
      · split
        · -- both texts have the lengths of the target
          rename_i long same
          cases rest with
          | none =>
              rw [if_neg]
              · rfl
              rintro ⟨sameKey, sameValue⟩
              rw [sameKey, sameValue, stripLabel_self] at isRest
              cases isRest
          | some left =>
              have total := restLengths rfl
              have isFinished : left = ([], []) :=
                Prod.ext (List.length_eq_zero_iff.1 (by omega)) (List.length_eq_zero_iff.1 (by omega))
              obtain ⟨sameKey, sameValue⟩ := stripLabel_eq_some_iff.1 isRest
              rw [isFinished, List.append_nil] at sameKey sameValue
              rw [if_pos ⟨sameKey.symm, sameValue.symm⟩, Option.elim_some, if_pos isFinished]
              rfl
        · -- one of the texts is used up and the other is not
          rename_i long different
          cases rest with
          | none => rfl
          | some left =>
              have total := restLengths rfl
              have usedUp : left.1 = [] ∨ left.2 = [] := by
                by_cases noKey : left.1 = []
                · exact .inl noKey
                · have keyLeft : 0 < left.1.length := List.length_pos_iff.2 noKey
                  exact .inr (List.length_eq_zero_iff.1 (by omega))
              have unfinished : left ≠ ([], []) := by
                rintro rfl
                simp only [List.length_nil, Nat.add_zero] at total
                exact different ⟨total.1.symm, total.2.symm⟩
              rw [Option.elim_some, if_neg unfinished, List.flatMap_eq_nil_iff.2 fun fp _ => by
                rw [s.spellings_of_used_up fuel fp usedUp]; rfl]
              rfl

/-- The search from a stored entry for a whole key and value. -/
theorem removeNgramChain_eq_outcome (s : HistoryDic cityFingerprint) (key value : ByteString)
    {fp : UInt64} {entry : Entry} (stored : s.lookup fp = some entry) :
    removeNgramChain key value s fp entry = outcome s (s.chainsFrom key value fp).head? := by
  have whole : stripLabel ([], []) (key, value) = some (key, value) :=
    stripLabel_eq_some_iff.2 ⟨rfl, rfl⟩
  rw [removeNgramChain]
  split
  · have enough : key.length < ([] : List ByteString).flatten.length + (key.length + 1) := by
      rw [List.flatten_nil, List.length_nil]
      omega
    have searched : removeNgramChainInternal key value s (key.length + 1) fp entry [] [] 0 0 = _ :=
      removeNgramChainInternal_eq_outcome s stored [] [] (Nat.zero_le _) enough
    rw [List.flatten_nil, whole] at searched
    exact searched
  · rename_i noPrefix
    have missing : stripLabel (entry.key, entry.value) (key, value) = none := if_neg noPrefix
    rw [HistoryDic.chainsFrom, s.spellings_succ stored, missing]
    rfl

end Mozkey.Prediction
