import Mozkey.Converter.InnerSegment
import Mozkey.Prediction.NgramChain

/-!
# Deleting a word from the history

The entry of the word is marked as removed.  Then every entry is visited in the
order of use: a chain from it that spells the word loses its last link, or the
entry is marked as removed when the word is a run of its inner segments.  A visit
cuts one link at most.
-/

namespace Mozkey.Prediction

open Mozkey.Lib Mozkey.Converter

variable {cityFingerprint : ByteString → UInt64}

/-! ## The deletion -/

/-- The loop of `RemoveEntryWithInnerSegment` over the inner segments.  The sums are
made in 32 bits, as the variables they are kept in. -/
def matchesInnerSegments (keyStart valueStart : Nat) (keyEnd valueEnd : UInt32) :
    List InnerSegment → UInt32 → UInt32 → Bool → Bool
  | [], _, _, _ => false
  | segment :: segments, keyLen, valueLen, startMatch =>
      let startMatch := startMatch ||
        (keyLen.toNat == keyStart && valueLen.toNat == valueStart)
      if (keyLen.toNat + segment.key.length = keyEnd.toNat ∧
            valueLen.toNat + segment.value.length = valueEnd.toNat) ∨
          (keyLen.toNat + segment.contentKey.length = keyEnd.toNat ∧
            valueLen.toNat + segment.contentValue.length = valueEnd.toNat) then
        startMatch
      else
        let keyLen := keyLen + UInt32.ofNat segment.key.length
        let valueLen := valueLen + UInt32.ofNat segment.value.length
        if !startMatch && (keyLen.toNat > keyStart || valueLen.toNat > valueStart) then false
        else matchesInnerSegments keyStart valueStart keyEnd valueEnd segments keyLen valueLen
          startMatch

/-- `UserHistoryPredictor::RemoveEntryWithInnerSegment`; `none` for `false`. -/
def removeEntryWithInnerSegment (key value : ByteString) (s : HistoryDic cityFingerprint)
    (fp : UInt64) (entry : Entry) : Option (HistoryDic cityFingerprint) :=
  if entry.innerSegmentBoundary = [] then none
  else
    match find entry.value value, find entry.key key with
    | some valueStart, some keyStart =>
        if matchesInnerSegments keyStart valueStart (UInt32.ofNat (keyStart + key.length))
            (UInt32.ofNat (valueStart + value.length))
            (innerSegments entry.key entry.value entry.innerSegmentBoundary) 0 0 false then
          some (s.update fp markRemovedChange)
        else none
    | _, _ => none

/-- The visit of one entry: the storage and whether something was deleted. -/
def visitEntry (key value : ByteString) (state : HistoryDic cityFingerprint × Bool) (fp : UInt64) :
    Option (HistoryDic cityFingerprint × Bool) :=
  match state.1.lookup fp with
  | none => some state
  | some entry =>
      match removeNgramChain key value state.1 fp entry with
      | .outOfFuel => none
      | .done t => some (t, true)
      | .tail | .notFound =>
          match removeEntryWithInnerSegment key value state.1 fp entry with
          | some t => some (t, true)
          | none => some state

/-- A leading space is stored as a space of no width. -/
def maybeNormalizePrefixSpace (str : ByteString) : ByteString :=
  if kPrefixFullSpace <+: str then kPrefixZeroSpace ++ str.drop kPrefixFullSpace.length
  else if kPrefixHalfSpace <+: str then kPrefixZeroSpace ++ str.drop kPrefixHalfSpace.length
  else str

/-- The first step: the entry of the word itself. -/
def removeExactEntry (key value : ByteString) (s : HistoryDic cityFingerprint) :
    HistoryDic cityFingerprint × Bool :=
  let fp := fingerprint cityFingerprint key value
  match s.lookup fp with
  | none => (s, false)
  | some entry => if entry.removed then (s, false) else (s.update fp markRemovedChange, true)

/-- `UserHistoryPredictor::ClearHistoryEntry`: the storage and the returned value. -/
def clearHistoryEntry (key value : ByteString) (s : HistoryDic cityFingerprint) :
    Option (HistoryDic cityFingerprint × Bool) :=
  let key := maybeNormalizePrefixSpace key
  let value := maybeNormalizePrefixSpace value
  s.dic.keys.foldlM (visitEntry key value) (removeExactEntry key value s)

/-! ## What is to be deleted -/

/-- A chain of two or more stored entries, each linked to the next, whose keys and
values together are the key and the value. -/
structure SpellingChain (s : HistoryDic cityFingerprint) (key value : ByteString)
    (chain : List (UInt64 × Entry)) : Prop where
  long : 2 ≤ chain.length
  stored : ∀ e ∈ chain, s.lookup e.1 = some e.2
  linked : chain.IsChain fun e next => next.1 ∈ e.2.nextEntryFps
  key : (chain.flatMap fun e => e.2.key) = key
  value : (chain.flatMap fun e => e.2.value) = value

/-- The entry of the word is marked as removed if it is stored. -/
def Marked (s : HistoryDic cityFingerprint) (key value : ByteString) : Prop :=
  ∀ fp entry, s.lookup fp = some entry → entry.key = key → entry.value = value →
    entry.removed = true

/-- The word is deleted: no entry and no chain brings it back. -/
structure Deleted (s : HistoryDic cityFingerprint) (key value : ByteString) : Prop where
  marked : Marked s key value
  unchained : ∀ chain, ¬ SpellingChain s key value chain

/-- The chains of two or more entries from an entry. -/
def HistoryDic.longChainsFrom (s : HistoryDic cityFingerprint) (key value : ByteString)
    (fp : UInt64) : List (List UInt64) :=
  (s.chainsFrom key value fp).filter fun chain => 2 ≤ chain.length

/-- Every chain that spells the word goes over a cut link, where each entry in turn
has the last link cut of the first chain from it that no earlier cut has broken. -/
def EveryChainCut (s : HistoryDic cityFingerprint) (key value : ByteString) : Prop :=
  ∀ fp ∈ s.dic.keys, ∀ chain ∈ s.longChainsFrom key value fp,
    ¬ Uncut (greedyCuts (s.longChainsFrom key value) s.dic.keys) chain

-- only the stored fingerprints are looked at, not all of them
instance (s : HistoryDic cityFingerprint) (key value : ByteString) :
    Decidable (EveryChainCut s key value) :=
  haveI : ∀ fp, Decidable (∀ chain ∈ s.longChainsFrom key value fp,
      ¬ Uncut (greedyCuts (s.longChainsFrom key value) s.dic.keys) chain) :=
    fun _ => List.decidableBAll _ _
  List.decidableBAll _ _

/-! ## Chains of entries and paths -/

theorem exists_chain_of_spells {s : HistoryDic cityFingerprint} {path : List UInt64}
    {target : ByteString × ByteString} (spells : Spells stripLabel ([], []) s.graph path target) :
    ∃ chain : List (UInt64 × Entry), chain.map Prod.fst = path ∧
      (∀ e ∈ chain, s.lookup e.1 = some e.2) ∧
      chain.IsChain (fun e next => next.1 ∈ e.2.nextEntryFps) ∧
      (chain.flatMap fun e => e.2.key) = target.1 ∧
      (chain.flatMap fun e => e.2.value) = target.2 := by
  induction spells with
  | last node spelled =>
      rename_i fp label nexts target
      obtain ⟨entry, stored, rfl, rfl⟩ := s.graph_eq_some_iff.1 node
      obtain ⟨sameKey, sameValue⟩ := stripLabel_eq_some_iff.1 spelled
      refine ⟨[(fp, entry)], rfl, List.forall_mem_singleton.2 stored, .singleton _, ?_, ?_⟩
      · rw [List.flatMap_singleton, sameKey, List.append_nil]
      · rw [List.flatMap_singleton, sameValue, List.append_nil]
  | link node linked spelled behind ih =>
      rename_i fp next label nexts path target rest
      obtain ⟨entry, stored, rfl, rfl⟩ := s.graph_eq_some_iff.1 node
      obtain ⟨sameKey, sameValue⟩ := stripLabel_eq_some_iff.1 spelled
      obtain ⟨chain, fps, allStored, allLinked, restKey, restValue⟩ := ih
      obtain ⟨e, tail, rfl, first, tailFps⟩ := List.map_eq_cons_iff.1 fps
      refine ⟨(fp, entry) :: e :: tail, ?_, List.forall_mem_cons.2 ⟨stored, allStored⟩,
        .cons_cons (first ▸ linked) allLinked, ?_, ?_⟩
      · rw [List.map_cons, fps]
      · rw [List.flatMap_cons, restKey, sameKey]
      · rw [List.flatMap_cons, restValue, sameValue]

theorem spells_of_chain {s : HistoryDic cityFingerprint} (chain : List (UInt64 × Entry))
    (nonempty : chain ≠ []) (stored : ∀ e ∈ chain, s.lookup e.1 = some e.2)
    (linked : chain.IsChain fun e next => next.1 ∈ e.2.nextEntryFps) :
    Spells stripLabel ([], []) s.graph (chain.map Prod.fst)
      (chain.flatMap fun e => e.2.key, chain.flatMap fun e => e.2.value) := by
  induction chain with
  | nil => exact absurd rfl nonempty
  | cons e tail ih =>
      have node : s.graph e.1 = some ((e.2.key, e.2.value), e.2.nextEntryFps) :=
        s.graph_eq_some_iff.2 ⟨e.2, stored e List.mem_cons_self, rfl, rfl⟩
      have spelled : stripLabel (e.2.key, e.2.value) ((e :: tail).flatMap fun e => e.2.key,
          (e :: tail).flatMap fun e => e.2.value)
          = some (tail.flatMap fun e => e.2.key, tail.flatMap fun e => e.2.value) := by
        refine stripLabel_eq_some_iff.2 ⟨?_, ?_⟩
        · dsimp only
          exact List.flatMap_cons
        · dsimp only
          exact List.flatMap_cons
      cases tail with
      | nil => exact .last node spelled
      | cons next tail =>
          have behind := ih (List.cons_ne_nil _ _) (fun e member => stored e (.tail _ member))
            (List.isChain_cons_cons.1 linked).2
          exact .link node (List.isChain_cons_cons.1 linked).1 spelled behind

/-- No chain spells the word if no entry starts a long path that does. -/
theorem unchained_iff (s : HistoryDic cityFingerprint) (key value : ByteString) :
    (∀ chain, ¬ SpellingChain s key value chain)
      ↔ ∀ fp ∈ s.dic.keys, s.longChainsFrom key value fp = [] := by
  constructor
  · intro unchained fp _
    refine List.filter_eq_nil_iff.2 fun path member long => ?_
    obtain ⟨chain, rfl, stored, linked, sameKey, sameValue⟩ :=
      exists_chain_of_spells (spells_of_mem_spellings member)
    have isLong : 2 ≤ chain.length := by
      rw [← List.length_map (f := Prod.fst)]
      exact of_decide_eq_true long
    exact unchained chain ⟨isLong, stored, linked, sameKey, sameValue⟩
  · intro nothing chain spelling
    obtain ⟨long, stored, linked, rfl, rfl⟩ := spelling
    cases chain with
    | nil => exact absurd long (by simp)
    | cons e tail =>
        have spells := spells_of_chain (e :: tail) (List.cons_ne_nil _ _) stored linked
        have member := mem_spellings_of_spells s.graph_progress rfl (Nat.le_succ _) spells
        have isStored : e.1 ∈ s.dic.keys :=
          s.dic.mem_keys_iff.2 ⟨e.2, stored e List.mem_cons_self⟩
        have listed : e.1 :: tail.map Prod.fst ∈ s.longChainsFrom
            ((e :: tail).flatMap fun e => e.2.key) ((e :: tail).flatMap fun e => e.2.value) e.1 := by
          refine List.mem_filter.2 ⟨member, decide_eq_true ?_⟩
          rw [List.length_cons, List.length_map]
          exact long
        rw [nothing e.1 isStored] at listed
        exact List.not_mem_nil listed

/-! ## One visit -/

theorem HistoryDic.graph_update_of_keeps_links (s : HistoryDic cityFingerprint) (fp : UInt64)
    (change : HistoryDic.Change)
    (keeps : ∀ entry, (change.apply entry).nextEntryFps = entry.nextEntryFps) :
    (s.update fp change).graph = s.graph := by
  funext other
  rw [graph, graph, lookup_update]
  cases s.lookup other with
  | none => split <;> rfl
  | some entry =>
      split
      · rw [Option.map_some, Option.map_some, Option.map_some, change.key, change.value, keeps]
      · rfl

theorem Marked.update {s : HistoryDic cityFingerprint} {key value : ByteString}
    (marked : Marked s key value) (fp : UInt64) (change : HistoryDic.Change)
    (keeps : ∀ entry, entry.removed = true → (change.apply entry).removed = true) :
    Marked (s.update fp change) key value := by
  intro other entry found sameKey sameValue
  rw [HistoryDic.lookup_update] at found
  split at found
  · obtain ⟨old, stored, rfl⟩ := Option.map_eq_some_iff.1 found
    rw [change.key] at sameKey
    rw [change.value] at sameValue
    exact keeps old (marked other old stored sameKey sameValue)
  · exact marked other entry found sameKey sameValue

/-- What the visits so far have done: the chains that are left are those that avoid
the cut links. -/
structure CutsMade (s t : HistoryDic cityFingerprint) (key value : ByteString)
    (cuts : List (UInt64 × UInt64)) : Prop where
  keys : t.dic.keys = s.dic.keys
  chains : ∀ fp, t.chainsFrom key value fp
    = (s.chainsFrom key value fp).filter fun chain => Uncut cuts chain
  marked : Marked t key value

theorem CutsMade.longChainsFrom {s t : HistoryDic cityFingerprint} {key value : ByteString}
    {cuts : List (UInt64 × UInt64)} (made : CutsMade s t key value cuts) (fp : UInt64) :
    t.longChainsFrom key value fp
      = (s.longChainsFrom key value fp).filter fun chain => Uncut cuts chain := by
  rw [HistoryDic.longChainsFrom, made.chains, HistoryDic.longChainsFrom, List.filter_filter,
    List.filter_filter]
  exact List.filter_congr fun chain _ => Bool.and_comm _ _

/-- An update that keeps the links makes no further cut. -/
theorem CutsMade.update {s t : HistoryDic cityFingerprint} {key value : ByteString}
    {cuts : List (UInt64 × UInt64)} (made : CutsMade s t key value cuts) (fp : UInt64) :
    CutsMade s (t.update fp markRemovedChange) key value cuts where
  keys := (t.keys_update fp _).trans made.keys
  chains other := by
    rw [HistoryDic.chainsFrom, t.graph_update_of_keeps_links fp _ fun _ => rfl]
    exact made.chains other
  marked := made.marked.update fp _ fun _ _ => rfl

/-- The link is cut in the chains that are left. -/
theorem CutsMade.cut {s t : HistoryDic cityFingerprint} {key value : ByteString}
    {cuts : List (UInt64 × UInt64)} (made : CutsMade s t key value cuts) (owner next : UInt64) :
    CutsMade s (t.update owner (eraseNextEntriesChange next)) key value ((owner, next) :: cuts) where
  keys := (t.keys_update owner _).trans made.keys
  chains fp := by
    rw [HistoryDic.chainsFrom, t.graph_update_eraseNextEntries, spellings_cut,
      show spellings stripLabel ([], []) t.graph (key.length + 1) fp (key, value)
        = t.chainsFrom key value fp from rfl, made.chains, List.filter_filter]
    refine List.filter_congr fun chain _ => ?_
    rw [← Bool.decide_and]
    exact decide_eq_decide.2 uncut_cons_cuts.symm
  marked := made.marked.update owner _ fun _ removed => removed

theorem removeEntryWithInnerSegment_eq (key value : ByteString) (s : HistoryDic cityFingerprint)
    (fp : UInt64) (entry : Entry) :
    removeEntryWithInnerSegment key value s fp entry = none ∨
      removeEntryWithInnerSegment key value s fp entry = some (s.update fp markRemovedChange) := by
  rw [removeEntryWithInnerSegment]
  split
  · exact .inl rfl
  · split
    · split
      · exact .inr rfl
      · exact .inl rfl
    · exact .inl rfl

/-- A visit without a chain to cut. -/
theorem CutsMade.visit_unlinked {s t : HistoryDic cityFingerprint} {key value : ByteString}
    {cuts : List (UInt64 × UInt64)} (made : CutsMade s t key value cuts) (deleted : Bool)
    {fp : UInt64} {entry : Entry} (stored : t.lookup fp = some entry)
    (result : removeNgramChain key value t fp entry = .tail ∨
      removeNgramChain key value t fp entry = .notFound) :
    ∃ state, visitEntry key value (t, deleted) fp = some state ∧
      CutsMade s state.1 key value cuts := by
  rw [visitEntry]
  dsimp only
  rw [stored]
  rcases result with result | result <;> dsimp only <;> rw [result] <;>
    rcases removeEntryWithInnerSegment_eq key value t fp entry with kept | removed
  · exact ⟨_, by rw [kept], made⟩
  · exact ⟨_, by rw [removed], made.update fp⟩
  · exact ⟨_, by rw [kept], made⟩
  · exact ⟨_, by rw [removed], made.update fp⟩

/-- **A visit cuts the first chain that is left.** -/
theorem CutsMade.visit {s t : HistoryDic cityFingerprint} {key value : ByteString}
    {cuts : List (UInt64 × UInt64)} (made : CutsMade s t key value cuts) (deleted : Bool)
    {fp : UInt64} (isStored : fp ∈ s.dic.keys) :
    ∃ state, visitEntry key value (t, deleted) fp = some state ∧
      CutsMade s state.1 key value (cutNext (s.longChainsFrom key value) cuts fp) := by
  obtain ⟨entry, stored⟩ := t.dic.mem_keys_iff.1 (made.keys.symm ▸ isStored)
  have searched := removeNgramChain_eq_outcome t key value stored
  have next : (s.longChainsFrom key value fp).find? (fun chain => Uncut cuts chain)
      = (t.longChainsFrom key value fp).head? := by
    rw [made.longChainsFrom, List.head?_filter]
  rw [cutNext, next, HistoryDic.longChainsFrom]
  rcases spellings_eq_singleton_or_long t.graph (key.length + 1) fp (key, value) with alone | long
  · -- the entry is the word itself
    have alone : t.chainsFrom key value fp = [[fp]] := alone
    rw [alone] at searched ⊢
    exact made.visit_unlinked deleted stored (.inl searched)
  · have long : ∀ chain ∈ t.chainsFrom key value fp, 2 ≤ chain.length := long
    rw [List.filter_eq_self.2 fun chain member => decide_eq_true (long chain member)]
    cases chains : t.chainsFrom key value fp with
    | nil =>
        rw [chains] at searched
        exact made.visit_unlinked deleted stored (.inr searched)
    | cons chain others =>
        obtain ⟨link, isLast, -⟩ := exists_lastLink (long chain (chains ▸ List.mem_cons_self))
        rw [chains, List.head?_cons, outcome, isLast] at searched
        rw [List.head?_cons, Option.bind_some, isLast, visitEntry]
        dsimp only
        rw [show t.lookup fp = some entry from stored]
        dsimp only
        rw [searched]
        exact ⟨_, rfl, made.cut link.1 link.2⟩

/-! ## All visits -/

theorem CutsMade.visits {s t : HistoryDic cityFingerprint} {key value : ByteString}
    {cuts : List (UInt64 × UInt64)} (made : CutsMade s t key value cuts) (deleted : Bool)
    {fps : List UInt64} (stored : fps ⊆ s.dic.keys) :
    ∃ state, fps.foldlM (visitEntry key value) (t, deleted) = some state ∧
      CutsMade s state.1 key value (fps.foldl (cutNext (s.longChainsFrom key value)) cuts) := by
  induction fps generalizing t deleted cuts with
  | nil => exact ⟨_, rfl, made⟩
  | cons fp fps ih =>
      obtain ⟨⟨u, deleted'⟩, visited, madeNext⟩ := made.visit deleted (stored List.mem_cons_self)
      obtain ⟨state, rest, madeAll⟩ :=
        ih madeNext deleted' (List.Subset.trans (List.subset_cons_self _ _) stored)
      exact ⟨state, by rw [List.foldlM_cons, visited]; exact rest, madeAll⟩

/-- The first step marks the entry of the word and cuts nothing. -/
theorem removeExactEntry_cutsMade (s : HistoryDic cityFingerprint) (key value : ByteString) :
    CutsMade s (removeExactEntry key value s).1 key value [] := by
  have uncut : ∀ fp, s.chainsFrom key value fp
      = (s.chainsFrom key value fp).filter fun chain => Uncut [] chain := fun fp =>
    (List.filter_eq_self.2 fun chain _ => decide_eq_true (uncut_nil chain)).symm
  -- an entry with the key and the value is the one found under their fingerprint
  have filed : ∀ fp entry, s.lookup fp = some entry → entry.key = key → entry.value = value →
      fp = fingerprint cityFingerprint key value := by
    rintro fp entry found rfl rfl
    exact s.filed fp entry found
  rw [removeExactEntry]
  cases found : s.lookup (fingerprint cityFingerprint key value) with
  | none =>
      refine ⟨rfl, uncut, fun fp entry stored sameKey sameValue => ?_⟩
      rw [filed fp entry stored sameKey sameValue] at stored
      cases found.symm.trans stored
  | some exact =>
      dsimp only
      split
      · rename_i removed
        refine ⟨rfl, uncut, fun fp entry stored sameKey sameValue => ?_⟩
        rw [filed fp entry stored sameKey sameValue] at stored
        rw [← Option.some.inj (found.symm.trans stored)]
        exact removed
      · refine ⟨s.keys_update _ _, fun fp => ?_, fun fp entry stored sameKey sameValue => ?_⟩
        · rw [HistoryDic.chainsFrom, s.graph_update_of_keeps_links _ _ fun _ => rfl]
          exact uncut fp
        · rw [HistoryDic.lookup_update] at stored
          split at stored
          · obtain ⟨old, -, rfl⟩ := Option.map_eq_some_iff.1 stored
            rfl
          · rename_i other
            exact absurd (filed fp entry stored sameKey sameValue) other

/-- A text without a space in front is its own normal form. -/
theorem maybeNormalizePrefixSpace_eq_self {str : ByteString} (fullSpace : ¬ kPrefixFullSpace <+: str)
    (halfSpace : ¬ kPrefixHalfSpace <+: str) : maybeNormalizePrefixSpace str = str := by
  rw [maybeNormalizePrefixSpace, if_neg fullSpace, if_neg halfSpace]

/-- A key or a value without a leading space. -/
def NoLeadingSpace (str : ByteString) : Prop :=
  ¬ kPrefixFullSpace <+: str ∧ ¬ kPrefixHalfSpace <+: str

instance : DecidablePred NoLeadingSpace := fun _ => inferInstanceAs (Decidable (_ ∧ _))

/-- What is left in the storage are the chains that avoid every cut link. -/
theorem clearHistoryEntry_cutsMade (s : HistoryDic cityFingerprint) {key value : ByteString}
    (plainKey : NoLeadingSpace key) (plainValue : NoLeadingSpace value) :
    ∃ state, clearHistoryEntry key value s = some state ∧
      CutsMade s state.1 key value (greedyCuts (s.longChainsFrom key value) s.dic.keys) := by
  rw [clearHistoryEntry, maybeNormalizePrefixSpace_eq_self plainKey.1 plainKey.2,
    maybeNormalizePrefixSpace_eq_self plainValue.1 plainValue.2]
  exact (removeExactEntry_cutsMade s key value).visits _ (List.Subset.refl _)

theorem CutsMade.deleted_iff {s t : HistoryDic cityFingerprint} {key value : ByteString}
    {cuts : List (UInt64 × UInt64)} (made : CutsMade s t key value cuts) :
    Deleted t key value
      ↔ ∀ fp ∈ s.dic.keys, ∀ chain ∈ s.longChainsFrom key value fp, ¬ Uncut cuts chain := by
  have left : (∀ chain, ¬ SpellingChain t key value chain)
      ↔ ∀ fp ∈ s.dic.keys, ∀ chain ∈ s.longChainsFrom key value fp, ¬ Uncut cuts chain := by
    rw [unchained_iff, made.keys]
    refine forall₂_congr fun fp _ => ?_
    rw [made.longChainsFrom, List.filter_eq_nil_iff]
    simp only [decide_eq_true_eq]
  rw [← left]
  exact ⟨Deleted.unchained, fun unchained => ⟨made.marked, unchained⟩⟩

/-- **When a word is deleted.**  The deletion returns, and it is complete exactly when
every chain that spells the word goes over a cut link. -/
theorem deleted_iff_everyChainCut (s : HistoryDic cityFingerprint) {key value : ByteString}
    (plainKey : NoLeadingSpace key) (plainValue : NoLeadingSpace value) :
    ∃ t deleted, clearHistoryEntry key value s = some (t, deleted) ∧
      (Deleted t key value ↔ EveryChainCut s key value) := by
  obtain ⟨⟨t, deleted⟩, cleared, made⟩ := clearHistoryEntry_cutsMade s plainKey plainValue
  exact ⟨t, deleted, cleared, made.deleted_iff⟩

/-! ## A word that comes back -/

/-- An entry whose key and value are one text, linked to others like it. -/
def wordEntry (word : ByteString) (nexts : List ByteString) : Entry where
  key := word
  value := word
  nextEntryFps := nexts.map fun next => fingerprint byteSum next next

/-- The words a, b, c and bc, linked as a-b-c and a-bc. -/
def branchingDic : HistoryDic byteSum :=
  HistoryDic.empty
    |>.insertEntry (wordEntry [99] []) (by decide)
    |>.insertEntry (wordEntry [98, 99] []) (by decide)
    |>.insertEntry (wordEntry [98] [[99]]) (by decide)
    |>.insertEntry (wordEntry [97] [[98], [98, 99]]) (by decide)

/-- **A deleted word comes back.**  Of the two chains that spell abc only the first is
cut. -/
theorem branchingDic_not_deleted : NoLeadingSpace [97, 98, 99] ∧
    ∃ t deleted, clearHistoryEntry [97, 98, 99] [97, 98, 99] branchingDic = some (t, deleted) ∧
      ¬ Deleted t [97, 98, 99] [97, 98, 99] := by
  have plain : NoLeadingSpace [97, 98, 99] := by decide
  obtain ⟨⟨t, deleted⟩, cleared, made⟩ := clearHistoryEntry_cutsMade branchingDic plain plain
  refine ⟨plain, t, deleted, cleared, fun isDeleted => ?_⟩
  have survives : ∃ fp ∈ branchingDic.dic.keys,
      ∃ chain ∈ branchingDic.longChainsFrom [97, 98, 99] [97, 98, 99] fp,
        Uncut (greedyCuts (branchingDic.longChainsFrom [97, 98, 99] [97, 98, 99])
          branchingDic.dic.keys) chain := by
    decide
  obtain ⟨fp, isStored, chain, member, uncut⟩ := survives
  exact made.deleted_iff.1 isDeleted fp isStored chain member uncut

/-- The words a, b and c, linked as a-b-c. -/
def chainDic : HistoryDic byteSum :=
  HistoryDic.empty
    |>.insertEntry (wordEntry [99] []) (by decide)
    |>.insertEntry (wordEntry [98] [[99]]) (by decide)
    |>.insertEntry (wordEntry [97] [[98]]) (by decide)

/-- The only chain that spells abc is cut. -/
theorem chainDic_deleted : NoLeadingSpace [97, 98, 99] ∧ ∃ t deleted,
    clearHistoryEntry [97, 98, 99] [97, 98, 99] chainDic = some (t, deleted) ∧
      Deleted t [97, 98, 99] [97, 98, 99] := by
  have plain : NoLeadingSpace [97, 98, 99] := by decide
  have everyCut : EveryChainCut chainDic [97, 98, 99] [97, 98, 99] := by decide
  obtain ⟨t, deleted, cleared, complete⟩ := deleted_iff_everyChainCut chainDic plain plain
  exact ⟨plain, t, deleted, cleared, complete.2 everyCut⟩

end Mozkey.Prediction
