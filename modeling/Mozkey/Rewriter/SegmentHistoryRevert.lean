import Mozkey.Rewriter.SegmentLessons

/-!
# Reverting what was learned for segments

The calls that finish a conversion leave under each fingerprint the value of the last
call for it, if anything was there before or was created.  The revert deletes the keys
that were written down and reach beyond the text that is left, also those that had been
stored before the commit.  So older learning survives only where the lessons of the commit
teach no feature that was known before, and a part of the commit is undone only where the
parts that its lessons stand for fit the text.
-/

namespace Mozkey.Rewriter

open Mozkey.Lib Mozkey.Converter

variable (M : Modules)

/-! ## What the calls leave -/

/-- Where a call writes; an empty feature is not written. -/
def StorageCall.fp : StorageCall → Option UInt64
  | .trigger key _ => some (M.fingerprint key)
  | .feature key _ _ _ _ => if key = [] then none else some (M.fingerprint key)

/-- Whether a call inserts an item that is not there. -/
def StorageCall.creates : StorageCall → Bool
  | .trigger _ _ => true
  | .feature _ _ _ _ force => force

def StorageCall.value : StorageCall → UInt32
  | .trigger _ candidatesSize => keyTriggerValue candidatesSize
  | .feature _ _ _ _ _ => featureValue

/-- The key of a feature that is written. -/
def StorageCall.featureKey : StorageCall → Option ByteString
  | .trigger _ _ => none
  | .feature key _ _ _ _ => if key = [] then none else some key

/-- The last call for a fingerprint. -/
def lastCall (calls : List StorageCall) (fp : UInt64) : Option StorageCall :=
  calls.reverse.find? fun call => call.fp M = some fp

/-- Some call inserts an item under the fingerprint. -/
def Created (calls : List StorageCall) (fp : UInt64) : Prop :=
  ∃ call ∈ calls, call.creates = true ∧ call.fp M = some fp

instance (calls : List StorageCall) (fp : UInt64) : Decidable (Created M calls fp) :=
  inferInstanceAs (Decidable (∃ call ∈ calls, _))

/-- What the calls make of the item under a fingerprint. -/
def itemAfter (now : UInt32) (calls : List StorageCall) (fp : UInt64) (old : Option Item) :
    Option Item :=
  match lastCall M calls fp with
  | none => old
  | some call => if old.isSome ∨ Created M calls fp then some ⟨call.value, now⟩ else none

/-- There is room for all new items. -/
def HasRoom (s : LruStorage) (calls : List StorageCall) : Prop :=
  (s.keys.toFinset ∪ (calls.filterMap (StorageCall.fp M)).toFinset).card ≤ kLruSize

variable {M}

theorem lookup_storageCall (now : UInt32) {s : LruStorage} {call : StorageCall}
    (room : ∀ fp ∈ call.fp M, s.Room fp) (fp : UInt64) :
    (storageCall M now s call).lookup fp
      = if call.fp M = some fp then
          if (s.lookup fp).isSome ∨ call.creates = true then some ⟨call.value, now⟩ else none
        else s.lookup fp := by
  cases call with
  | trigger key candidatesSize =>
      have isFp : StorageCall.fp M (.trigger key candidatesSize) = some (M.fingerprint key) := rfl
      refine (LruMap.lookup_insert_of_room (room _ isFp) _ fp).trans ?_
      rw [isFp]
      by_cases same : fp = M.fingerprint key
      · subst same
        rw [if_pos rfl, if_pos rfl, if_pos (.inr rfl)]
        rfl
      · rw [if_neg same, if_neg fun isFp => same (Option.some.inj isFp).symm]
  | feature key value valueBegin valueEnd force =>
      rw [storageCall, StorageCall.fp]
      rw [StorageCall.fp] at room
      by_cases isNil : key = []
      · rw [if_pos isNil, if_pos isNil, if_neg fun none => by cases none]
      · rw [if_neg isNil] at room
        rw [if_neg isNil, if_neg isNil]
        have inserted := fun item => LruMap.lookup_insert_of_room (room _ rfl) item fp
        by_cases same : fp = M.fingerprint key
        · subst same
          rw [if_pos rfl]
          cases force with
          | true =>
              rw [if_pos rfl, if_pos (.inr rfl), inserted, if_pos rfl]
              rfl
          | false =>
              rw [if_neg Bool.false_ne_true, tryInsert]
              cases found : s.lookup (M.fingerprint key) with
              | none =>
                  rw [found, Option.isSome_none, if_neg]
                  rintro (isSome | creates)
                  · exact Bool.false_ne_true isSome
                  · exact Bool.false_ne_true creates
              | some old =>
                  dsimp only
                  rw [inserted, if_pos rfl, Option.isSome_some, if_pos (.inl rfl)]
                  rfl
        · rw [if_neg fun isFp => same (Option.some.inj isFp).symm]
          cases force with
          | true => rw [if_pos rfl, inserted, if_neg same]
          | false =>
              rw [if_neg Bool.false_ne_true, tryInsert]
              cases s.lookup (M.fingerprint key) with
              | none => rfl
              | some old =>
                  dsimp only
                  rw [inserted, if_neg same]

/-- A call adds no key but its own. -/
theorem keys_storageCall_subset (now : UInt32) {s : LruStorage} {call : StorageCall}
    {known : Finset UInt64} (subset : s.keys.toFinset ⊆ known) (isKnown : ∀ fp ∈ call.fp M, fp ∈ known) :
    (storageCall M now s call).keys.toFinset ⊆ known := by
  have inserted : ∀ fp ∈ known, ∀ item, (s.insert fp item).keys.toFinset ⊆ known :=
    fun fp member item => (s.keys_insert_subset fp item).trans (Finset.insert_subset member subset)
  cases call with
  | trigger key candidatesSize => exact inserted _ (isKnown _ rfl) _
  | feature key value valueBegin valueEnd force =>
      rw [storageCall]
      rw [StorageCall.fp] at isKnown
      by_cases isNil : key = []
      · rw [if_pos isNil]
        exact subset
      · rw [if_neg isNil] at isKnown
        rw [if_neg isNil]
        split
        · exact inserted _ (isKnown _ rfl) _
        · rw [tryInsert]
          split
          · exact subset
          · exact inserted _ (isKnown _ rfl) _

theorem lastCall_append_singleton (calls : List StorageCall) (call : StorageCall) (fp : UInt64) :
    lastCall M (calls ++ [call]) fp
      = if call.fp M = some fp then some call else lastCall M calls fp := by
  rw [lastCall, List.reverse_append, List.reverse_singleton, List.singleton_append, List.find?_cons]
  by_cases same : call.fp M = some fp
  · rw [if_pos same, decide_eq_true same]
  · rw [if_neg same, decide_eq_false same]
    rfl

theorem created_append_singleton (calls : List StorageCall) (call : StorageCall) (fp : UInt64) :
    Created M (calls ++ [call]) fp
      ↔ Created M calls fp ∨ call.creates = true ∧ call.fp M = some fp := by
  rw [Created, Created]
  simp only [List.mem_append, List.mem_singleton, or_and_right, exists_or, exists_eq_left]

/-- **The last call decides.** -/
theorem lookup_foldl_storageCall {s : LruStorage} {calls : List StorageCall}
    (room : HasRoom M s calls) (now : UInt32) (fp : UInt64) :
    (calls.foldl (storageCall M now) s).lookup fp
      = itemAfter M now calls fp (s.lookup fp) := by
  generalize isKnown : s.keys.toFinset ∪ (calls.filterMap (StorageCall.fp M)).toFinset = known
  rw [HasRoom, isKnown] at room
  have subset : s.keys.toFinset ⊆ known := isKnown ▸ Finset.subset_union_left
  have allKnown : ∀ call ∈ calls, ∀ fp ∈ call.fp M, fp ∈ known := by
    intro call member fp isFp
    rw [← isKnown]
    exact Finset.mem_union_right _ (List.mem_toFinset.2 (List.mem_filterMap.2 ⟨call, member, isFp⟩))
  clear isKnown
  suffices both : (calls.foldl (storageCall M now) s).keys.toFinset ⊆ known ∧
      (calls.foldl (storageCall M now) s).lookup fp = itemAfter M now calls fp (s.lookup fp) from
    both.2
  induction calls using List.reverseRecOn with
  | nil => exact ⟨subset, rfl⟩
  | append_singleton calls call ih =>
      obtain ⟨keys, before⟩ := ih fun call member => allKnown call (List.mem_append_left _ member)
      have ownKnown := allKnown call (List.mem_append_right _ (List.mem_singleton_self _))
      rw [List.foldl_append, List.foldl_cons, List.foldl_nil]
      refine ⟨keys_storageCall_subset now keys ownKnown, ?_⟩
      rw [lookup_storageCall now fun fp isFp => LruMap.room_of_keys_subset keys room (ownKnown fp isFp),
        before, itemAfter, itemAfter, lastCall_append_singleton]
      by_cases same : call.fp M = some fp
      · rw [if_pos same, if_pos same]
        dsimp only
        refine if_congr ?_ rfl rfl
        rw [created_append_singleton, and_iff_left same, ← or_assoc]
        refine or_congr_left ?_
        cases last : lastCall M calls fp with
        | none =>
            dsimp only
            refine (or_iff_left ?_).symm
            rintro ⟨creator, member, -, isFp⟩
            have missing := List.find?_eq_none.1 last creator (List.mem_reverse.2 member)
            exact missing (decide_eq_true isFp)
        | some earlier =>
            dsimp only
            split
            · rename_i there
              simp [there]
            · rename_i absent
              simp [absent]
      · rw [if_neg same, if_neg same]
        cases lastCall M calls fp with
        | none => rfl
        | some earlier =>
            dsimp only
            refine if_congr (or_congr_right ?_) rfl rfl
            exact ((created_append_singleton calls call fp).trans
              (or_iff_left fun own => same own.2)).symm

/-! ## What the revert deletes -/

/-- The key reaches beyond every part of the committed value that ends the text. -/
def RevertEntry.Erased (entry : RevertEntry) (committedValue text : ByteString) : Prop :=
  entry.key ≠ [] ∧ ∀ size ≤ committedValue.length, committedValue.take size <:+ text →
    size < entry.valueEnd

theorem longestCommittedPrefixSuffixSize_lt_iff (committedValue text : ByteString) (valueEnd : Nat) :
    longestCommittedPrefixSuffixSize committedValue text < valueEnd
      ↔ ∀ size ≤ committedValue.length, committedValue.take size <:+ text → size < valueEnd := by
  rw [longestCommittedPrefixSuffixSize]
  cases found : (List.range (committedValue.length + 1)).reverse.find? fun size =>
      (committedValue.take size).isSuffixOf text with
  | none =>
      -- the empty prefix ends every text
      have missing := List.find?_eq_none.1 found 0
        (List.mem_reverse.2 (List.mem_range.2 (Nat.succ_pos _)))
      rw [List.take_zero] at missing
      exact absurd (List.isSuffixOf_iff_suffix.2 (List.nil_suffix)) missing
  | some longest =>
      rw [Option.getD_some]
      obtain ⟨isSuffix, before, after, split, longer⟩ := List.find?_eq_some_iff_append.1 found
      have inRange : longest ≤ committedValue.length := by
        have member : longest ∈ (List.range (committedValue.length + 1)).reverse := by
          rw [split]
          exact List.mem_append_right _ List.mem_cons_self
        exact Nat.lt_succ_iff.1 (List.mem_range.1 (List.mem_reverse.1 member))
      constructor
      · intro less size fits ends
        refine lt_of_le_of_lt ?_ less
        by_contra greater
        rw [not_le] at greater
        -- a longer prefix stands in front of the one that was found
        have member : size ∈ before ++ longest :: after := by
          rw [← split]
          exact List.mem_reverse.2 (List.mem_range.2 (Nat.lt_succ_iff.2 fits))
        have sorted : (before ++ longest :: after).Pairwise (· > ·) := by
          rw [← split]
          exact List.pairwise_reverse.2 List.pairwise_lt_range
        rcases List.mem_append.1 member with front | back
        · have isShort := longer size front
          rw [List.isSuffixOf_iff_suffix.2 ends] at isShort
          exact Bool.noConfusion isShort
        · rcases List.mem_cons.1 back with rfl | later
          · exact Nat.lt_irrefl _ greater
          · have smaller := (List.pairwise_cons.1 (List.pairwise_append.1 sorted).2.1).1 size later
            omega
      · intro all
        exact all longest inRange (List.isSuffixOf_iff_suffix.1 isSuffix)

variable (M) in
/-- The keys that wait for the next conversion once a commit is finished and reverted. -/
def pendingAfter (state : SegmentHistory) (request : ConversionRequest) (segments : Segments) :
    Option PendingRevert :=
  if revertEntries M request segments = [] then
    (state.revertCache.lookup segments.revertId).or state.pendingRevert
  else some ⟨revertEntries M request segments, (finishCalls M request segments).2⟩

variable (M) in
/-- Some key that waits is deleted under the fingerprint. -/
def ErasedAt (state : SegmentHistory) (request : ConversionRequest) (segments : Segments)
    (next : ConversionRequest) (fp : UInt64) : Prop :=
  AppliesRevert next ∧ ∃ pending ∈ pendingAfter M state request segments,
    ∃ entry ∈ pending.entries, entry.Erased pending.committedValue (textBefore next) ∧
      M.fingerprint entry.key = fp

theorem pendingRevert_revert_finish (state : SegmentHistory) (now : UInt32)
    (request : ConversionRequest) (segments : Segments) :
    (revert (finish M state now request segments) segments.revertId).pendingRevert
      = pendingAfter M state request segments := by
  rw [revert, pendingAfter]
  by_cases nothing : revertEntries M request segments = []
  · rw [if_pos nothing]
    have cache : (finish M state now request segments).revertCache = state.revertCache := if_pos nothing
    rw [cache]
    cases state.revertCache.lookup segments.revertId <;> rfl
  · rw [if_neg nothing]
    have cache : (finish M state now request segments).revertCache = state.revertCache.insert
        segments.revertId ⟨revertEntries M request segments, (finishCalls M request segments).2⟩ :=
      if_neg nothing
    rw [cache, LruMap.lookup_insert_self _ (by decide)]

theorem storage_revert (state : SegmentHistory) (revertId : UInt64) :
    (revert state revertId).storage = state.storage := by
  rw [revert]
  cases state.revertCache.lookup revertId <;> rfl

/-- The deletions leave the other items alone. -/
theorem lookup_foldl_erase (entries : List RevertEntry) (retainedSize : Nat) (s : LruStorage)
    (fp : UInt64) :
    (entries.foldl (fun s entry =>
        if entry.key = [] ∨ entry.valueEnd ≤ retainedSize then s
        else s.erase (M.fingerprint entry.key)) s).lookup fp
      = if ∃ entry ∈ entries, (entry.key ≠ [] ∧ retainedSize < entry.valueEnd) ∧
          M.fingerprint entry.key = fp then none else s.lookup fp := by
  induction entries generalizing s with
  | nil => simp
  | cons entry entries ih =>
      rw [List.foldl_cons, ih]
      by_cases kept : entry.key = [] ∨ entry.valueEnd ≤ retainedSize
      · rw [if_pos kept]
        refine if_congr ?_ rfl rfl
        have notErased : ¬ (entry.key ≠ [] ∧ retainedSize < entry.valueEnd) := by
          rintro ⟨some, beyond⟩
          rcases kept with isNil | within
          · exact some isNil
          · omega
        simp [notErased]
      · rw [if_neg kept, LruMap.lookup_erase]
        rw [not_or, not_le] at kept
        by_cases same : fp = M.fingerprint entry.key
        · rw [if_pos same, ite_self, if_pos ⟨entry, List.mem_cons_self, kept, same.symm⟩]
        · rw [if_neg same]
          refine if_congr ?_ rfl rfl
          simp [Ne.symm same]

/-- **What is left of a commit.**  The items under the deleted fingerprints are gone; the
others are as the commit left them. -/
theorem lookup_rewrite_revert_finish (state : SegmentHistory) (now : UInt32)
    (request : ConversionRequest) (segments : Segments) (next : ConversionRequest) (fp : UInt64) :
    (ErasedAt M state request segments next fp →
      (rewrite M (revert (finish M state now request segments) segments.revertId) next).storage.lookup
        fp = none) ∧
    (¬ ErasedAt M state request segments next fp →
      (rewrite M (revert (finish M state now request segments) segments.revertId) next).storage.lookup
        fp = (finish M state now request segments).storage.lookup fp) := by
  rw [rewrite, ErasedAt]
  by_cases applies : AppliesRevert next
  · rw [if_pos applies, maybeApplyPendingRevert, pendingRevert_revert_finish]
    cases pendingAfter M state request segments with
    | none =>
        refine ⟨fun ⟨_, pending, member, _⟩ => (by cases member), fun _ => ?_⟩
        rw [storage_revert]
    | some pending =>
        dsimp only
        rw [lookup_foldl_erase, storage_revert]
        have erased : (AppliesRevert next ∧ ∃ pending' ∈ some pending, ∃ entry ∈ pending'.entries,
            entry.Erased pending'.committedValue (textBefore next) ∧ M.fingerprint entry.key = fp)
              ↔ ∃ entry ∈ pending.entries, (entry.key ≠ [] ∧
                longestCommittedPrefixSuffixSize pending.committedValue (textBefore next)
                  < entry.valueEnd) ∧ M.fingerprint entry.key = fp := by
          simp only [applies, true_and, Option.mem_def, Option.some.injEq, exists_eq_left',
            RevertEntry.Erased, longestCommittedPrefixSuffixSize_lt_iff]
        rw [erased]
        exact ⟨fun isErased => if_pos isErased, fun kept => if_neg kept⟩
  · rw [if_neg applies, storage_revert]
    exact ⟨fun isErased => absurd isErased.1 applies, fun _ => rfl⟩

/-! ## What goes, told by the lessons -/

/-- The end of the part that a call stands for, if it is for the feature. -/
def StorageCall.stopOf (key : ByteString) : StorageCall → Option Nat
  | .trigger _ _ => none
  | .feature other _ _ stop _ => if other = key then some stop else none

/-- The end of the part that a feature stands for where it is taught first. -/
def firstStop (calls : List StorageCall) (key : ByteString) : Option Nat :=
  calls.findSome? (StorageCall.stopOf key)

/-- The features that calls write. -/
def featureKeys (calls : List StorageCall) : List ByteString :=
  calls.filterMap StorageCall.featureKey

/-- A part of the committed text that ends here goes beyond what is left of it. -/
def Beyond (stop : Nat) (committedText text : ByteString) : Prop :=
  ∀ size ≤ committedText.length, committedText.take size <:+ text → size < stop

variable (M) in
/-- A feature under the fingerprint is taught first for a part beyond the text that is
left.  Where no feature is taught, what was waiting before is meant. -/
def GoesAt (state : SegmentHistory) (request : ConversionRequest) (segments : Segments)
    (next : ConversionRequest) (fp : UInt64) : Prop :=
  AppliesRevert next ∧
    if featureKeys (lessons M request segments).flatten = [] then
      ∃ pending ∈ (state.revertCache.lookup segments.revertId).or state.pendingRevert,
        ∃ entry ∈ pending.entries, entry.key ≠ [] ∧
          Beyond entry.valueEnd pending.committedValue (textBefore next) ∧
          M.fingerprint entry.key = fp
    else
      ∃ key ≠ [], ∃ stop ∈ firstStop (lessons M request segments).flatten key,
        Beyond stop (committedText request segments) (textBefore next) ∧ M.fingerprint key = fp

theorem stopOf_feature {key other value : ByteString} {start stop : Nat} {force : Bool} :
    StorageCall.stopOf key (.feature other value start stop force)
      = if other = key then some stop else none := rfl

/-- A feature is written down with the part that it is taught for first. -/
theorem exists_revertEntry_iff (calls : List StorageCall) :
    (∀ entry ∈ calls.foldl maybeInsertRevertEntry [], entry.key ≠ []) ∧
      ∀ key ≠ [], ∀ stop, (∃ entry ∈ calls.foldl maybeInsertRevertEntry [],
        entry.key = key ∧ entry.valueEnd = stop) ↔ firstStop calls key = some stop := by
  induction calls using List.reverseRecOn with
  | nil => simp [firstStop]
  | append_singleton calls call ih =>
      obtain ⟨nonempty, recorded⟩ := ih
      have next (key : ByteString) : firstStop (calls ++ [call]) key
          = (firstStop calls key).or (call.stopOf key) := by
        rw [firstStop, List.findSome?_append, List.findSome?_singleton, ← firstStop]
      simp only [List.foldl_append, List.foldl_cons, List.foldl_nil, next]
      generalize calls.foldl maybeInsertRevertEntry [] = entries at nonempty recorded ⊢
      cases call with
      | trigger key candidatesSize =>
          refine ⟨nonempty, fun other some stop => ?_⟩
          rw [maybeInsertRevertEntry, recorded other some, StorageCall.stopOf, Option.or_none]
      | feature key value start stop force =>
          rw [maybeInsertRevertEntry]
          split_ifs with isNil known
          · subst isNil
            refine ⟨nonempty, fun other some stop' => ?_⟩
            rw [stopOf_feature, if_neg (Ne.symm some), Option.or_none, recorded other some]
          · refine ⟨nonempty, fun other some stop' => ?_⟩
            rw [recorded other some, stopOf_feature]
            by_cases same : key = other
            · subst same
              obtain ⟨entry, member, isKey⟩ := List.any_eq_true.1 known
              have first := (recorded key some entry.valueEnd).1
                ⟨entry, member, of_decide_eq_true isKey, rfl⟩
              rw [first, Option.some_or]
            · rw [if_neg same, Option.or_none]
          · have fresh : firstStop calls key = none := by
              rw [Option.eq_none_iff_forall_ne_some]
              intro stop' first
              obtain ⟨entry, member, isKey, -⟩ := (recorded key isNil stop').2 first
              exact known (List.any_eq_true.2 ⟨entry, member, decide_eq_true isKey⟩)
            refine ⟨?_, fun other some stop' => ?_⟩
            · rw [List.forall_mem_append]
              exact ⟨nonempty, by simpa using isNil⟩
            · simp only [List.mem_append, List.mem_singleton, or_and_right, exists_or,
                exists_eq_left, recorded other some, stopOf_feature]
              by_cases same : key = other
              · subst same
                rw [fresh]
                simp
              · simp [same]

theorem revertEntries_eq_nil_iff (calls : List StorageCall) :
    calls.foldl maybeInsertRevertEntry [] = [] ↔ featureKeys calls = [] := by
  obtain ⟨nonempty, recorded⟩ := exists_revertEntry_iff calls
  constructor
  · intro nothing
    rw [nothing] at recorded
    refine List.filterMap_eq_nil_iff.2 fun call member => ?_
    cases call with
    | trigger key candidatesSize => rfl
    | feature key value start stop force =>
        rw [StorageCall.featureKey]
        split_ifs with isNil
        · rfl
        · have found : (firstStop calls key).isSome := by
            rw [firstStop, List.findSome?_isSome_iff]
            exact ⟨_, member, by rw [stopOf_feature, if_pos rfl]; rfl⟩
          obtain ⟨first, isFirst⟩ := Option.isSome_iff_exists.1 found
          obtain ⟨entry, missing, -⟩ := (recorded key isNil first).2 isFirst
          cases missing
  · intro none
    refine List.eq_nil_iff_forall_not_mem.2 fun entry member => ?_
    have first := (recorded _ (nonempty entry member) _).1 ⟨entry, member, rfl, rfl⟩
    obtain ⟨call, isCall, isStop⟩ := List.exists_of_findSome?_eq_some first
    cases call with
    | trigger key candidatesSize => cases isStop
    | feature key value start stop force =>
        rw [stopOf_feature] at isStop
        split_ifs at isStop with same
        have unwritten := List.filterMap_eq_nil_iff.1 none _ isCall
        rw [StorageCall.featureKey, if_neg (same ▸ nonempty entry member)] at unwritten
        cases unwritten

/-- What is deleted is what goes. -/
theorem erasedAt_iff_goesAt (state : SegmentHistory) (request : ConversionRequest)
    (segments : Segments) (next : ConversionRequest) (fp : UInt64) :
    ErasedAt M state request segments next fp ↔ GoesAt M state request segments next fp := by
  have calls : allCalls M request segments = (lessons M request segments).flatten := by
    rw [allCalls, finishCalls_eq]
  have text : (finishCalls M request segments).2 = committedText request segments := by
    rw [finishCalls_eq]
  rw [ErasedAt, GoesAt, pendingAfter, revertEntries, calls, text]
  refine and_congr_right fun _ => ?_
  obtain ⟨nonempty, recorded⟩ := exists_revertEntry_iff (lessons M request segments).flatten
  by_cases nothing : featureKeys (lessons M request segments).flatten = []
  · rw [if_pos ((revertEntries_eq_nil_iff _).2 nothing), if_pos nothing]
    simp only [RevertEntry.Erased, Beyond, and_assoc]
  · rw [if_neg fun none => nothing ((revertEntries_eq_nil_iff _).1 none), if_neg nothing]
    simp only [Option.mem_def, Option.some.injEq, exists_eq_left']
    constructor
    · rintro ⟨entry, member, ⟨some, beyond⟩, isFp⟩
      exact ⟨entry.key, some, _, (recorded _ some _).1 ⟨entry, member, rfl, rfl⟩, beyond, isFp⟩
    · rintro ⟨key, some, stop, first, beyond, isFp⟩
      obtain ⟨entry, member, rfl, rfl⟩ := (recorded key some stop).2 first
      exact ⟨entry, member, ⟨some, beyond⟩, isFp⟩

/-! ## Older learning -/

variable (M) in
/-- Every feature has a score just when it had one before. -/
def KeepsOlder (s t : LruStorage) : Prop :=
  ∀ key weight, weight ≠ 0 →
    ((fetch M t key weight).score ≠ 0 ↔ (fetch M s key weight).score ≠ 0)

theorem keepsOlder_iff (s t : LruStorage) :
    KeepsOlder M s t ↔ ∀ key, Remembers M t key ↔ Remembers M s key := by
  constructor
  · intro keeps key
    have same := keeps key 1 (by decide)
    rw [Ne, Ne, fetch_score_eq_zero_iff (by decide), fetch_score_eq_zero_iff (by decide), not_not,
      not_not] at same
    exact same
  · intro same key weight counts
    rw [Ne, Ne, fetch_score_eq_zero_iff counts, fetch_score_eq_zero_iff counts, not_not, not_not]
    exact same key

variable (M) in
/-- No feature that goes was stored before, no trigger is the last thing written over a
stored feature, and no other feature is left where there was none. -/
structure TeachesOnlyNew (state : SegmentHistory) (request : ConversionRequest)
    (segments : Segments) (next : ConversionRequest) : Prop where
  goneNew : ∀ key, Remembers M state.storage key →
    ¬ GoesAt M state request segments next (M.fingerprint key)
  notOverwritten : ∀ key, Remembers M state.storage key →
    ∀ call ∈ lastCall M (lessons M request segments).flatten (M.fingerprint key),
      isFeatureValue call.value = true
  nothingLeft : ∀ key ≠ [], ¬ Remembers M state.storage key →
    ¬ GoesAt M state request segments next (M.fingerprint key) →
    ∀ call ∈ lastCall M (lessons M request segments).flatten (M.fingerprint key),
      isFeatureValue call.value = true →
        state.storage.lookup (M.fingerprint key) = none ∧
          ¬ Created M (lessons M request segments).flatten (M.fingerprint key)

theorem remembers_iff_of_lookup_eq {s t : LruStorage} {key : ByteString}
    (same : t.lookup (M.fingerprint key) = s.lookup (M.fingerprint key)) :
    Remembers M t key ↔ Remembers M s key := by
  rw [Remembers, Remembers, same]

section Reverted

variable (state : SegmentHistory) (now : UInt32) (request : ConversionRequest) (segments : Segments)
  (next : ConversionRequest) {key : ByteString}

/-- What goes is remembered no more. -/
theorem not_remembers_of_goesAt (goes : GoesAt M state request segments next (M.fingerprint key)) :
    ¬ Remembers M (rewrite M (revert (finish M state now request segments) segments.revertId)
      next).storage key := by
  rintro ⟨-, item, member, -⟩
  have left := lookup_rewrite_revert_finish (M := M) state now request segments next
  rw [(left _).1 ((erasedAt_iff_goesAt _ _ _ _ _).2 goes)] at member
  cases member

/-- What does not go is as the lessons leave it. -/
theorem lookup_of_not_goesAt (room : HasRoom M state.storage (lessons M request segments).flatten)
    {fp : UInt64} (kept : ¬ GoesAt M state request segments next fp) :
    (rewrite M (revert (finish M state now request segments) segments.revertId)
        next).storage.lookup fp
      = itemAfter M now (lessons M request segments).flatten fp (state.storage.lookup fp) := by
  have left := lookup_rewrite_revert_finish (M := M) state now request segments next
  rw [(left fp).2 fun erased => kept ((erasedAt_iff_goesAt _ _ _ _ _).1 erased), finish, allCalls,
    finishCalls_eq]
  exact lookup_foldl_storageCall room now fp

/-- What a lesson writes last and does not go is remembered if it is a feature that was there or
is inserted. -/
theorem remembers_of_lastCall
    (room : HasRoom M state.storage (lessons M request segments).flatten) (nonempty : key ≠ [])
    (kept : ¬ GoesAt M state request segments next (M.fingerprint key)) {call : StorageCall}
    (isLast : lastCall M (lessons M request segments).flatten (M.fingerprint key) = some call) :
    Remembers M (rewrite M (revert (finish M state now request segments) segments.revertId)
        next).storage key ↔
      isFeatureValue call.value = true ∧ ((state.storage.lookup (M.fingerprint key)).isSome ∨
        Created M (lessons M request segments).flatten (M.fingerprint key)) := by
  rw [Remembers, lookup_of_not_goesAt state now request segments next room kept, itemAfter, isLast]
  dsimp only
  split
  · rename_i there
    simp [nonempty, there]
  · rename_i absent
    simp [absent]

end Reverted

/-- **When older learning survives.** -/
theorem keepsOlder_iff_teachesOnlyNew {state : SegmentHistory} {request : ConversionRequest}
    {segments : Segments} (room : HasRoom M state.storage (lessons M request segments).flatten)
    (now : UInt32) (next : ConversionRequest) :
    KeepsOlder M state.storage
        (rewrite M (revert (finish M state now request segments) segments.revertId) next).storage
      ↔ TeachesOnlyNew M state request segments next := by
  have gone : ∀ key, GoesAt M state request segments next (M.fingerprint key) → _ := fun key =>
    @not_remembers_of_goesAt M state now request segments next key
  have taught : ∀ key ≠ [], ¬ GoesAt M state request segments next (M.fingerprint key) →
      ∀ call, _ → _ := fun key some kept call =>
    @remembers_of_lastCall M state now request segments next key room some kept call
  rw [keepsOlder_iff]
  constructor
  · intro same
    refine ⟨fun key stored goes => gone key goes ((same key).2 stored),
      fun key stored call isLast => ?_, fun key some absent kept call isLast isFeature => ?_⟩
    · have kept := fun goes => gone key goes ((same key).2 stored)
      exact ((taught key stored.1 kept call isLast).1 ((same key).2 stored)).1
    · by_contra left
      rw [not_and_or, not_not, ← ne_eq, ← Option.isSome_iff_ne_none] at left
      exact absent ((same key).1 ((taught key some kept call isLast).2 ⟨isFeature, left⟩))
  · rintro ⟨goneNew, notOverwritten, nothingLeft⟩ key
    by_cases goes : GoesAt M state request segments next (M.fingerprint key)
    · exact iff_of_false (gone key goes) fun stored => goneNew key stored goes
    · by_cases isNil : key = []
      · exact iff_of_false (fun stored => stored.1 isNil) (fun stored => stored.1 isNil)
      · cases isLast : lastCall M (lessons M request segments).flatten (M.fingerprint key) with
        | none =>
            refine remembers_iff_of_lookup_eq ?_
            rw [lookup_of_not_goesAt state now request segments next room goes, itemAfter, isLast]
        | some call =>
            rw [taught key isNil goes call isLast]
            constructor
            · rintro ⟨isFeature, there⟩
              by_contra absent
              obtain ⟨isNone, notCreated⟩ := nothingLeft key isNil absent goes call isLast isFeature
              rw [isNone] at there
              exact there.elim Bool.false_ne_true notCreated
            · intro stored
              obtain ⟨-, item, member, -⟩ := id stored
              refine ⟨notOverwritten key stored call isLast, .inl ?_⟩
              rw [Option.isSome_iff_exists]
              exact ⟨item, member⟩

/-- The segment a, for which A was chosen by hand. -/
def chosenFirst : Segments where
  segments := [{ segmentType := .fixedValue, key := [97]
                 candidates := [{ key := [97], value := [65], contentKey := [97],
                                  contentValue := [65], attributes := kReranked }] }]
  revertId := 1

/-- The next conversion, behind an empty text. -/
def nextConversion : ConversionRequest where
  key := [98]

/-- A word that is learned for the first time is forgotten by its revert, and nothing
else. -/
theorem firstChoice_keepsOlder :
    KeepsOlder plainModules LruMap.empty
      (rewrite plainModules (revert (finish plainModules ⟨LruMap.empty, LruMap.empty, none⟩ 1000 {}
        chosenFirst) chosenFirst.revertId) nextConversion).storage := by
  have room : HasRoom plainModules LruMap.empty (lessons plainModules {} chosenFirst).flatten := by
    rw [HasRoom]
    decide
  have allGo : ∀ call ∈ (lessons plainModules {} chosenFirst).flatten,
      isFeatureValue call.value = true → call.fp plainModules = none ∨
        ∃ key ∈ featureKeys (lessons plainModules {} chosenFirst).flatten, key ≠ [] ∧
          firstStop (lessons plainModules {} chosenFirst).flatten key = some 1 ∧
          call.fp plainModules = some (plainModules.fingerprint key) := by
    decide
  have beyond : Beyond 1 (committedText {} chosenFirst) (textBefore nextConversion) := by
    intro size fits ends
    have bound : ∀ size ≤ (committedText {} chosenFirst).length,
        (committedText {} chosenFirst).take size <:+ textBefore nextConversion → size < 1 := by
      decide
    exact bound size fits ends
  have taught : featureKeys (lessons plainModules {} chosenFirst).flatten ≠ [] := by decide
  refine (@keepsOlder_iff_teachesOnlyNew plainModules ⟨LruMap.empty, LruMap.empty, none⟩ _ _ room
    1000 nextConversion).2 ⟨?_, ?_, ?_⟩
  · rintro key ⟨-, item, member, -⟩
    cases member
  · rintro key ⟨-, item, member, -⟩
    cases member
  · intro key _ _ kept call isLast isFeature
    have member := List.mem_reverse.1 (List.mem_of_find?_eq_some isLast)
    have isFp : call.fp plainModules = some (plainModules.fingerprint key) := by
      have holds := List.find?_some (show List.find? _ _ = some call from isLast)
      exact of_decide_eq_true holds
    rcases allGo call member isFeature with none | ⟨key', -, some, first, same⟩
    · cases none.symm.trans isFp
    · refine absurd ⟨.inl rfl, ?_⟩ kept
      rw [if_neg taught]
      exact ⟨key', some, 1, first, beyond, Option.some.inj (same.symm.trans isFp)⟩

/-- The storage after A was chosen before. -/
def chosenBefore : LruStorage :=
  LruMap.empty.insert (plainModules.fingerprint (current [97] [65])) ⟨featureValue, 500⟩

/-- **Older learning is lost.**  A had been chosen for a before; it is chosen once more and
the commit is reverted.  Its feature is deleted although the commit did not create it. -/
theorem chosenBefore_not_kept :
    HasRoom plainModules chosenBefore (lessons plainModules {} chosenFirst).flatten ∧
      (∀ size ≤ (committedText {} chosenFirst).length,
        (committedText {} chosenFirst).take size <:+ nextConversion.precedingText → size = 0) ∧
      ¬ KeepsOlder plainModules chosenBefore
        (rewrite plainModules (revert (finish plainModules ⟨chosenBefore, LruMap.empty, none⟩ 1000 {}
          chosenFirst) chosenFirst.revertId) nextConversion).storage := by
  refine ⟨by rw [HasRoom]; decide, by decide, fun keeps => ?_⟩
  have before : (fetch plainModules chosenBefore (current [97] [65]) 36).score = 36 := by
    decide
  have after : (fetch plainModules (rewrite plainModules (revert (finish plainModules
      ⟨chosenBefore, LruMap.empty, none⟩ 1000 {} chosenFirst) chosenFirst.revertId)
        nextConversion).storage (current [97] [65]) 36).score = 0 := by
    decide
  exact (keeps (current [97] [65]) 36 (by decide)).2 (by rw [before]; decide) after

/-! ## A part of a commit -/

variable (M) in
/-- The features that the first `k` segments teach are as the commit left them, and those
that only later ones teach are gone. -/
structure PartlyUndone (request : ConversionRequest) (segments : Segments) (k : Nat)
    (t u : LruStorage) : Prop where
  firstKept : ∀ key ∈ featureKeys ((lessons M request segments).take k).flatten,
    u.lookup (M.fingerprint key) = t.lookup (M.fingerprint key)
  laterDeleted : ∀ key ∈ featureKeys ((lessons M request segments).drop k).flatten,
    key ∉ featureKeys ((lessons M request segments).take k).flatten →
      u.lookup (M.fingerprint key) = none

variable (M) in
/-- The fingerprints in order of use after a lesson: its own comes to the front if it is there or is
inserted, and the last one beyond the size is dropped. -/
def used (fps : List UInt64) (call : StorageCall) : List UInt64 :=
  match call.fp M with
  | none => fps
  | some fp =>
      if fp ∈ fps ∨ call.creates = true then (fp :: fps.filter (· ≠ fp)).take kLruSize else fps

variable (M) in
/-- Something is stored under the fingerprint behind the lessons. -/
def StoredBy (calls : List StorageCall) (fps : List UInt64) (fp : UInt64) : Prop :=
  fp ∈ calls.foldl (used M) fps

/-- Which items are stored does not depend on what they hold. -/
theorem keys_storageCall (now : UInt32) (s : LruStorage) (call : StorageCall) :
    (storageCall M now s call).keys = used M s.keys call := by
  cases call with
  | trigger key candidatesSize =>
      have isFp : StorageCall.fp M (.trigger key candidatesSize) = some (M.fingerprint key) := rfl
      rw [used, isFp]
      dsimp only
      rw [if_pos (.inr rfl)]
      exact s.keys_insert _ _
  | feature key value valueBegin valueEnd force =>
      rw [storageCall, used, StorageCall.fp]
      by_cases isNil : key = []
      · rw [if_pos isNil, if_pos isNil]
      · rw [if_neg isNil, if_neg isNil]
        dsimp only
        cases force with
        | true =>
            rw [if_pos rfl, if_pos (.inr rfl)]
            exact s.keys_insert _ _
        | false =>
            rw [if_neg Bool.false_ne_true, tryInsert]
            cases found : s.lookup (M.fingerprint key) with
            | none =>
                have absent := s.lookup_eq_none_iff.1 found
                rw [if_neg]
                rintro (member | creates)
                · exact absent member
                · exact Bool.false_ne_true creates
            | some old =>
                rw [if_pos (.inl (s.mem_keys_iff.2 ⟨old, found⟩))]
                exact s.keys_insert _ _

theorem storedBy_iff_isSome (calls : List StorageCall) (now : UInt32) (s : LruStorage)
    (fp : UInt64) :
    StoredBy M calls s.keys fp ↔ ((calls.foldl (storageCall M now) s).lookup fp).isSome := by
  rw [StoredBy, Option.isSome_iff_exists, ← LruMap.mem_keys_iff]
  induction calls generalizing s with
  | nil => rfl
  | cons call calls ih => rw [List.foldl_cons, List.foldl_cons, ← ih, keys_storageCall]

/-- In a storage with room, lessons leave what was there and what they insert. -/
theorem storedBy_iff {s : LruStorage} {calls : List StorageCall} (room : HasRoom M s calls)
    (fp : UInt64) :
    StoredBy M calls s.keys fp ↔ (s.lookup fp).isSome ∨ Created M calls fp := by
  rw [storedBy_iff_isSome calls 0, lookup_foldl_storageCall room, itemAfter]
  cases isLast : lastCall M calls fp with
  | none =>
      refine (or_iff_left ?_).symm
      rintro ⟨creator, member, -, isFp⟩
      have missing := List.find?_eq_none.1 isLast creator (List.mem_reverse.2 member)
      exact missing (decide_eq_true isFp)
  | some call =>
      dsimp only
      split
      · rename_i there
        simp [there]
      · rename_i absent
        simp [absent]

variable (M) in
/-- As far as the lessons leave them stored, the features of the first `k` segments stand for
parts of the text that is left, and those that only later ones teach for parts beyond it. -/
structure PartsFit (state : SegmentHistory) (request : ConversionRequest) (segments : Segments)
    (next : ConversionRequest) (k : Nat) : Prop where
  firstWithin : ∀ key ∈ featureKeys ((lessons M request segments).take k).flatten,
    StoredBy M (lessons M request segments).flatten state.storage.keys (M.fingerprint key) →
      ¬ GoesAt M state request segments next (M.fingerprint key)
  laterBeyond : ∀ key ∈ featureKeys ((lessons M request segments).drop k).flatten,
    key ∉ featureKeys ((lessons M request segments).take k).flatten →
      StoredBy M (lessons M request segments).flatten state.storage.keys (M.fingerprint key) →
        GoesAt M state request segments next (M.fingerprint key)

/-- **When a part of a commit is undone.** -/
theorem partlyUndone_iff_partsFit (state : SegmentHistory) (now : UInt32)
    (request : ConversionRequest) (segments : Segments) (next : ConversionRequest) (k : Nat) :
    PartlyUndone M request segments k (finish M state now request segments).storage
        (rewrite M (revert (finish M state now request segments) segments.revertId) next).storage
      ↔ PartsFit M state request segments next k := by
  have left := lookup_rewrite_revert_finish (M := M) state now request segments next
  simp only [erasedAt_iff_goesAt] at left
  have storage : (finish M state now request segments).storage
      = (lessons M request segments).flatten.foldl (storageCall M now) state.storage := by
    rw [finish, allCalls, finishCalls_eq]
  rw [storage] at left ⊢
  constructor
  · rintro ⟨firstKept, laterDeleted⟩
    refine ⟨fun key first stored goes => ?_, fun key later notFirst stored => ?_⟩
    · have same := firstKept key first
      rw [(left _).1 goes] at same
      rw [storedBy_iff_isSome _ now, ← same] at stored
      exact Bool.false_ne_true stored
    · by_contra kept
      have deleted := laterDeleted key later notFirst
      rw [(left _).2 kept] at deleted
      rw [storedBy_iff_isSome _ now, deleted] at stored
      exact Bool.false_ne_true stored
  · rintro ⟨firstWithin, laterBeyond⟩
    refine ⟨fun key first => ?_, fun key later notFirst => ?_⟩
    · by_cases goes : GoesAt M state request segments next (M.fingerprint key)
      · rw [(left _).1 goes]
        by_contra stored
        refine firstWithin key first ((storedBy_iff_isSome _ now _ _).2 ?_) goes
        exact Option.isSome_iff_ne_none.2 (Ne.symm stored)
      · exact (left _).2 goes
    · by_cases goes : GoesAt M state request segments next (M.fingerprint key)
      · exact (left _).1 goes
      · rw [(left _).2 goes]
        by_contra stored
        refine goes (laterBeyond key later notFirst ((storedBy_iff_isSome _ now _ _).2 ?_))
        exact Option.isSome_iff_ne_none.2 stored

/-- The word A and the number 1 behind it. -/
def wordAndNumber : Segments where
  segments := [{ segmentType := .fixedValue, key := [97]
                 candidates := [{ key := [97], value := [65], contentKey := [97],
                                  contentValue := [65] }] },
               { segmentType := .fixedValue, key := [49]
                 candidates := [{ key := [49], value := [49], contentKey := [49],
                                  contentValue := [49] }] }]
  revertId := 1

/-- The next conversion, behind the text A. -/
def behindWord : ConversionRequest where
  key := [98]
  precedingText := [65]

/-- **A number in the removed part stays learned.**  Only the word in front of it is left,
but the range of the number starts at zero and ends within the word. -/
theorem wordAndNumber_not_partlyUndone :
    committedText {} wordAndNumber = [65, 49] ∧
      ¬ [65, 49] <:+ behindWord.precedingText ∧
      ¬ PartlyUndone plainModules {} wordAndNumber 1
        (finish plainModules ⟨LruMap.empty, LruMap.empty, none⟩ 1000 {} wordAndNumber).storage
        (rewrite plainModules (revert (finish plainModules ⟨LruMap.empty, LruMap.empty, none⟩ 1000
          {} wordAndNumber) wordAndNumber.revertId) behindWord).storage := by
  refine ⟨by decide, by decide, fun undone => ?_⟩
  have later : number .defaultStyle ∈
      featureKeys ((lessons plainModules {} wordAndNumber).drop 1).flatten := by
    decide
  have notFirst : number .defaultStyle ∉
      featureKeys ((lessons plainModules {} wordAndNumber).take 1).flatten := by
    decide
  have stored : ((rewrite plainModules (revert (finish plainModules
      ⟨LruMap.empty, LruMap.empty, none⟩ 1000 {} wordAndNumber) wordAndNumber.revertId)
        behindWord).storage.lookup (plainModules.fingerprint (number .defaultStyle))).isSome := by
    decide
  rw [undone.laterDeleted _ later notFirst] at stored
  exact Bool.false_ne_true stored

end Mozkey.Rewriter
