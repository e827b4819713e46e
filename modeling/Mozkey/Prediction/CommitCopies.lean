import Mozkey.Prediction.Revert

/-!
# The copies a commit keeps

Of every entry only the last copy matters.  So a commit is followed one entry at a
time: what is stored under a fingerprint, and the last copy of it.  A word that is
learned, a link of the context and a candidate that is counted each change one such
slot and leave the others alone.
-/

namespace Mozkey.Prediction

open Mozkey.Lib

variable {M : Modules}

/-! ## One entry and its last copy -/

/-- An entry while a commit goes on, and the last copy that was made of it. -/
structure Slot where
  entry : Option Entry
  copy : Option Entry := none

namespace Slot

/-- A word is learned: the copy is the entry before, or one that is removed. -/
def learn (slot : Slot) (word : Word) : Slot where
  entry := some (word.learnInto (slot.entry.getD {}))
  copy := some (slot.entry.getD word.unlearned)

variable (M) in
/-- A candidate is counted: a copy is made if it is removed. -/
def count (slot : Slot) : Slot :=
  match slot.entry with
  | none => slot
  | some entry =>
      if M.belowMinSelectedRatio entry.suggestionFreq (entry.shownFreq + 1) then
        { entry := some (markRemoved entry)
          copy := some { entry with shownFreq := previousShownFreq (entry.shownFreq + 1) } }
      else { slot with entry := some (incrementShownFreq entry) }

/-- What a revert makes of the entry. -/
def restored (slot : Slot) : Option Entry := slot.entry.map slot.copy.getD

end Slot

theorem Entry.suggestionFreq_learned (entry : Entry) (words : List Word) :
    (entry.learned words).suggestionFreq = entry.suggestionFreq + UInt32.ofNat words.length := by
  induction words generalizing entry with
  | nil => exact (UInt32.add_zero _).symm
  | cons word words ih =>
      have first : (word.learnInto entry).suggestionFreq = entry.suggestionFreq + 1 := rfl
      rw [Entry.learned, List.foldl_cons, ← Entry.learned, ih, first, List.length_cons,
        Nat.add_comm, UInt32.ofNat_add, ← UInt32.add_assoc]
      rfl

theorem Entry.shownFreq_learned (entry : Entry) (words : List Word) :
    (entry.learned words).shownFreq = entry.shownFreq := by
  induction words generalizing entry with
  | nil => rfl
  | cons word words ih => exact ih (word.learnInto entry)

theorem Entry.removed_learned (entry : Entry) {words : List Word} (some_ : words ≠ []) :
    (entry.learned words).removed = false := by
  obtain ⟨front, word, rfl⟩ := List.eq_nil_or_concat words |>.resolve_left some_
  rw [Entry.learned, List.concat_eq_append, List.foldl_append]
  rfl

theorem Entry.suggestionFreq_of_content {entry entry' : Entry}
    (same : entry'.content = entry.content) : entry'.suggestionFreq = entry.suggestionFreq := by
  change entry'.content.suggestionFreq = entry.content.suggestionFreq
  rw [same]

theorem Entry.removed_of_content {entry entry' : Entry} (same : entry'.content = entry.content) :
    entry'.removed = entry.removed := by
  change entry'.content.removed = entry.content.removed
  rw [same]

/-- Fewer than 2 ^ 32 words change the frequency. -/
theorem suggestionFreq_add_ne (freq : UInt32) {n : Nat} (some_ : 0 < n) (few : n < 2 ^ 32) :
    freq + UInt32.ofNat n ≠ freq := by
  intro same
  have zero : UInt32.ofNat n = 0 := by
    have cancelled := congrArg (· - freq) same
    simpa [UInt32.add_comm freq] using cancelled
  have isZero := congrArg UInt32.toNat zero
  rw [UInt32.toNat_ofNat', Nat.mod_eq_of_lt few] at isZero
  exact absurd isZero (Nat.ne_of_gt some_)

namespace Slot

/-- Words are learned one after another.  The last copy is the first one only if it is the only
one. -/
theorem foldl_learn (old : Option Entry) {words : List Word} (some_ : words ≠ []) :
    ∃ copy, words.foldl learn { entry := old } =
        { entry := some ((old.getD {}).learned words), copy := some copy } ∧
      (∀ word, words = [word] → copy = old.getD word.unlearned) ∧
      (2 ≤ words.length → ∃ front ≠ [], front.length ≤ words.length ∧
        copy = (old.getD {}).learned front) := by
  induction words using List.reverseRecOn with
  | nil => exact absurd rfl some_
  | append_singleton front word ih =>
      rw [List.foldl_append, List.foldl_cons, List.foldl_nil]
      by_cases alone : front = []
      · subst alone
        refine ⟨old.getD word.unlearned, rfl, ?_, fun several => absurd several (by simp)⟩
        intro other same
        rw [(List.cons.inj same).1]
      · obtain ⟨copy, before, -⟩ := ih alone
        refine ⟨(old.getD {}).learned front, ?_, ?_, fun _ => ⟨front, alone, ?_, rfl⟩⟩
        · rw [before, learn, Entry.learned, Entry.learned, List.foldl_append]
          rfl
        · intro other same
          cases front with
          | nil => exact absurd rfl alone
          | cons => simp at same
        · rw [List.length_append]
          exact Nat.le_add_right _ _

/-- The same for an entry that is stored, where no word need be learned. -/
theorem foldl_learn_of_present {old : Option Entry} {words : List Word}
    (present : ¬ (old = none ∧ words = [])) :
    ∃ copy, words.foldl learn { entry := old } =
        { entry := some ((old.getD {}).learned words), copy } ∧
      (words = [] → copy = none) ∧
      (∀ word, words = [word] → copy = some (old.getD word.unlearned)) ∧
      (2 ≤ words.length → ∃ front ≠ [], front.length ≤ words.length ∧
        copy = some ((old.getD {}).learned front)) := by
  by_cases none_ : words = []
  · subst none_
    obtain ⟨entry, rfl⟩ := Option.ne_none_iff_exists'.1 fun isNone => present ⟨isNone, rfl⟩
    exact ⟨none, rfl, fun _ => rfl, fun _ same => (by cases same), fun several => absurd several (by simp)⟩
  · obtain ⟨copy, learned, single, several⟩ := foldl_learn old none_
    refine ⟨some copy, learned, fun isNil => absurd isNil none_, ?_, ?_⟩
    · exact fun word only => congrArg some (single word only)
    · intro more
      obtain ⟨front, some_, short, isCopy⟩ := several more
      exact ⟨front, some_, short, congrArg some isCopy⟩

theorem iterate_count_none (n : Nat) : (count M)^[n] { entry := none } = { entry := none } :=
  Function.iterate_fixed rfl n

/-- An entry is counted: without a removal no copy is made, after the first one the copy is the
entry as it was, and after the next ones it is as a removal leaves it. -/
theorem iterate_count (entry : Entry) (copy : Option Entry) (n : Nat) :
    ∃ entry' copy', (count M)^[n] { entry := some entry, copy } =
        { entry := some entry', copy := copy' } ∧
      (removals M entry.suggestionFreq entry.shownFreq n = 0 →
        copy' = copy ∧ entry'.content = entry.content) ∧
      (removals M entry.suggestionFreq entry.shownFreq n = 1 →
        ∃ last, copy' = some last ∧ last.content = entry.content) ∧
      (2 ≤ removals M entry.suggestionFreq entry.shownFreq n →
        ∃ last, copy' = some last ∧ last.content = (markRemoved entry).content) := by
  induction n generalizing entry copy with
  | zero =>
      refine ⟨entry, copy, rfl, fun _ => ⟨rfl, rfl⟩, fun once => ?_, fun again => ?_⟩
      · exact absurd once (by simp [removals])
      · exact absurd again (by simp [removals])
  | succ n ih =>
      rw [Function.iterate_succ_apply, removals, count]
      dsimp only
      by_cases below : M.belowMinSelectedRatio entry.suggestionFreq (entry.shownFreq + 1) = true
      · rw [if_pos below, if_pos below]
        obtain ⟨entry', copy', counted, kept, once, again⟩ := ih (markRemoved entry)
          (some { entry with shownFreq := previousShownFreq (entry.shownFreq + 1) })
        refine ⟨entry', copy', counted, fun none_ => absurd none_ (Nat.succ_ne_zero _), ?_, ?_⟩
        · intro first
          exact ⟨_, (kept (Nat.succ.inj first)).1, rfl⟩
        · intro more
          rcases Nat.lt_or_ge (removals M 0 0 n) 2 with less | several
          · exact once (by change removals M 0 0 n = 1; omega)
          · exact again several
      · rw [if_neg below, if_neg below]
        exact ih (incrementShownFreq entry) copy

theorem isSome_entry_foldl_learn (slot : Slot) (words : List Word) :
    (words.foldl learn slot).entry.isSome = true ↔ slot.entry.isSome = true ∨ words ≠ [] := by
  induction words generalizing slot with
  | nil => simp
  | cons word words ih =>
      rw [List.foldl_cons, ih]
      simp [learn]

theorem isSome_copy_foldl_learn (slot : Slot) (words : List Word) :
    (words.foldl learn slot).copy.isSome = true ↔ slot.copy.isSome = true ∨ words ≠ [] := by
  induction words generalizing slot with
  | nil => simp
  | cons word words ih =>
      rw [List.foldl_cons, ih]
      simp [learn]

theorem isSome_entry_iterate_count (slot : Slot) (n : Nat) :
    ((count M)^[n] slot).entry.isSome = slot.entry.isSome := by
  induction n generalizing slot with
  | zero => rfl
  | succ n ih =>
      rw [Function.iterate_succ_apply, ih, count]
      split
      · rfl
      · rename_i stored
        rw [stored]
        split <;> rfl

/-- A copy is made by a removal only. -/
theorem isSome_copy_iterate_count (slot : Slot) (n : Nat) :
    ((count M)^[n] slot).copy.isSome = true ↔ slot.copy.isSome = true ∨
      ∃ entry, slot.entry = some entry ∧
        removals M entry.suggestionFreq entry.shownFreq n ≠ 0 := by
  obtain ⟨stored, copy⟩ := slot
  cases stored with
  | none =>
      have fixed : (count M)^[n] { entry := none, copy } = { entry := none, copy } :=
        Function.iterate_fixed rfl n
      simp [fixed]
  | some entry =>
      obtain ⟨entry', copy', counted, kept, once, again⟩ := iterate_count (M := M) entry copy n
      rw [counted]
      rcases (by omega : removals M entry.suggestionFreq entry.shownFreq n = 0 ∨
          removals M entry.suggestionFreq entry.shownFreq n = 1 ∨
          2 ≤ removals M entry.suggestionFreq entry.shownFreq n) with zero | one | more
      · simp [(kept zero).1, zero]
      · obtain ⟨last, isLast, -⟩ := once one
        simp [isLast, one]
      · obtain ⟨last, isLast, -⟩ := again more
        refine iff_of_true (by rw [isLast]; rfl) (.inr ⟨entry, rfl, by omega⟩)

end Slot

theorem undoneAt_some {entry entry' : Entry} :
    UndoneAt (some entry) (some entry') ↔ entry'.content = entry.content := by
  constructor
  · intro undone
    obtain ⟨_, isNew, same⟩ := undone.existed entry rfl
    cases isNew
    exact same
  · intro same
    refine ⟨fun old isOld => ?_, fun _ isNone => by cases isNone⟩
    cases isOld
    exact ⟨entry', rfl, same⟩

theorem undoneAt_new {entry' : Entry} :
    UndoneAt none (some entry') ↔ entry'.removed = true ∧ entry'.suggestionFreq = 0 := by
  constructor
  · exact fun undone => undone.created entry' rfl rfl
  · intro removed
    refine ⟨fun _ isOld => (by cases isOld), fun other _ isNew => ?_⟩
    cases isNew
    exact removed

theorem undoneAt_none : UndoneAt none none where
  existed _ isOld := by cases isOld
  created _ _ isNew := by cases isNew

/-- A copy that is as it was when words had been learned does not undo them. -/
theorem not_undoneAt_learned {old : Option Entry} {words : List Word} {entry : Entry}
    (some_ : words ≠ []) (few : words.length < 2 ^ 32)
    (same : entry.content = ((old.getD {}).learned words).content) :
    ¬ UndoneAt old (some entry) := by
  intro undone
  cases old with
  | none =>
      have removed := (undoneAt_new.1 undone).1
      rw [Entry.removed_of_content same, Entry.removed_learned _ some_] at removed
      cases removed
  | some old =>
      have freq := Entry.suggestionFreq_of_content (same.symm.trans (undoneAt_some.1 undone))
      rw [Option.getD_some, Entry.suggestionFreq_learned] at freq
      exact suggestionFreq_add_ne _ (List.length_pos_of_ne_nil some_) few freq

namespace CopiedFirst

variable {old : Option Entry} {words : List Word} {shown : Nat}

variable (M old words shown) in
/-- How often the entry is removed once the words are learned. -/
def times : Nat :=
  removals M ((old.getD {}).suggestionFreq + UInt32.ofNat words.length) (old.getD {}).shownFreq shown

theorem iff_selected (selected : times M old words shown = 0) :
    CopiedFirst M old words shown ↔ words.length ≤ 1 := by
  constructor
  · exact fun first => first.selected selected
  · intro short
    refine ⟨fun _ => short, fun once => ?_, fun again => ?_⟩
    · exact absurd (selected.symm.trans once) Nat.zero_ne_one
    · exact absurd (again.trans_eq selected) (by decide)

theorem iff_removedOnce (once : times M old words shown = 1) :
    CopiedFirst M old words shown ↔ words = [] := by
  constructor
  · exact fun first => first.removedOnce once
  · intro none_
    refine ⟨fun selected => ?_, fun _ => none_, fun again => ?_⟩
    · exact absurd (selected.symm.trans once) Nat.zero_ne_one
    · exact absurd (again.trans_eq once) (by decide)

theorem iff_removedAgain (again : 2 ≤ times M old words shown) :
    CopiedFirst M old words shown ↔
      ∀ entry, old = some entry → (markRemoved (entry.learned words)).content = entry.content := by
  constructor
  · exact fun first => first.removedAgain again
  · intro same
    refine ⟨fun selected => ?_, fun once => ?_, fun _ => same⟩
    · exact absurd (again.trans_eq selected) (by decide)
    · exact absurd (again.trans_eq once) (by decide)

end CopiedFirst

/-- The only copy of an entry that was learned once. -/
theorem undoneAt_firstCopy (old : Option Entry) (word : Word) :
    UndoneAt old (some (old.getD word.unlearned)) := by
  cases old with
  | none => exact undoneAt_new.2 ⟨rfl, rfl⟩
  | some entry => exact undoneAt_some.2 rfl

/-- **An entry is undone exactly if its last copy is as good as the first one.** -/
theorem undoneAt_restored_iff (old : Option Entry) {words : List Word} (shown : Nat)
    (few : words.length < 2 ^ 32) :
    UndoneAt old ((Slot.count M)^[shown] (words.foldl Slot.learn { entry := old })).restored ↔
      CopiedFirst M old words shown := by
  by_cases absent : old = none ∧ words = []
  · obtain ⟨rfl, rfl⟩ := absent
    rw [List.foldl_nil, Slot.iterate_count_none]
    exact iff_of_true undoneAt_none ⟨fun _ => Nat.zero_le _, fun _ => rfl, fun _ _ isOld => by cases isOld⟩
  -- the entry is stored when it is counted
  obtain ⟨copy, learned, unlearned, single, several⟩ := Slot.foldl_learn_of_present absent
  obtain ⟨entry', copy', counted, kept, once, again⟩ :=
    Slot.iterate_count (M := M) ((old.getD {}).learned words) copy shown
  rw [Entry.suggestionFreq_learned, Entry.shownFreq_learned] at kept once again
  rw [learned, counted, Slot.restored, Option.map_some]
  rcases (by omega : CopiedFirst.times M old words shown = 0 ∨
      CopiedFirst.times M old words shown = 1 ∨ 2 ≤ CopiedFirst.times M old words shown)
    with zero | one | more
  · obtain ⟨rfl, same⟩ := kept zero
    rw [CopiedFirst.iff_selected zero]
    rcases (by omega : words.length = 0 ∨ words.length = 1 ∨ 2 ≤ words.length)
      with isNil | isSingle | isLong
    · rw [unlearned (List.length_eq_zero_iff.1 isNil), Option.getD_none]
      obtain rfl := List.length_eq_zero_iff.1 isNil
      obtain ⟨entry, rfl⟩ := Option.ne_none_iff_exists'.1 fun isNone => absent ⟨isNone, rfl⟩
      exact iff_of_true (undoneAt_some.2 same) (Nat.zero_le _)
    · obtain ⟨word, rfl⟩ := List.length_eq_one_iff.1 isSingle
      rw [single word rfl, Option.getD_some]
      exact iff_of_true (undoneAt_firstCopy old word) le_rfl
    · obtain ⟨front, some_, short, rfl⟩ := several isLong
      exact iff_of_false (not_undoneAt_learned some_ (short.trans_lt few) rfl) (by omega)
  · obtain ⟨last, rfl, same⟩ := once one
    rw [CopiedFirst.iff_removedOnce one, Option.getD_some]
    by_cases none_ : words = []
    · subst none_
      obtain ⟨entry, rfl⟩ := Option.ne_none_iff_exists'.1 fun isNone => absent ⟨isNone, rfl⟩
      exact iff_of_true (undoneAt_some.2 same) rfl
    · exact iff_of_false (not_undoneAt_learned none_ few same) none_
  · obtain ⟨last, rfl, same⟩ := again more
    rw [CopiedFirst.iff_removedAgain more, Option.getD_some]
    cases old with
    | none =>
        refine iff_of_true (undoneAt_new.2 ⟨?_, ?_⟩) fun _ isOld => by cases isOld
        · exact Entry.removed_of_content same
        · exact Entry.suggestionFreq_of_content same
    | some entry =>
        rw [undoneAt_some, same, Option.getD_some]
        constructor
        · intro isSame other isOld
          cases isOld
          exact isSame
        · exact fun all => all entry rfl

/-! ## The slots of a storage -/

theorem recordsOf_append_singleton (entries : List RevertEntry) (record : RevertEntry) :
    recordsOf M (entries ++ [record])
      = recordsOf M entries ++ [(StoredEntry.fingerprint M record.entry, record.entry.val)] := by
  rw [recordsOf, List.map_append]
  rfl

theorem fingerprint_of_find {s : Storage M} {fp : UInt64} {entry : StoredEntry}
    (found : s.find fp = some entry) : StoredEntry.fingerprint M entry = fp :=
  (s.filed fp entry.val (lookup_eq_some_of_find_eq_some found)).symm

/-- What a commit has made of an entry so far. -/
def slotOf (state : Storage M × RevertEntries) (fp : UInt64) : Slot where
  entry := state.1.lookup fp
  copy := lastRecord (recordsOf M state.2.entries) fp

/-- The copy that is made when a word is learned. -/
theorem copy_of_insert (s : Storage M) {word : Word} (acceptable : word.Acceptable M) :
    ∃ copy, (s.find (word.fingerprint M)).getD ⟨word.unlearned, acceptable.2.1.1⟩ = copy ∧
      StoredEntry.fingerprint M copy = word.fingerprint M ∧
      copy.val = (s.lookup (word.fingerprint M)).getD word.unlearned := by
  refine ⟨_, rfl, ?_⟩
  cases found : s.find (word.fingerprint M) with
  | none =>
      rw [lookup_eq_none_of_find_eq_none found]
      exact ⟨rfl, rfl⟩
  | some old =>
      rw [lookup_eq_some_of_find_eq_some found]
      exact ⟨fingerprint_of_find found, rfl⟩

/-- A word is learned into its own entry. -/
theorem slotOf_insert {state : Storage M × RevertEntries} {word : Word}
    (acceptable : word.Acceptable M) (room : state.1.dic.Room (word.fingerprint M)) (fp : UInt64) :
    slotOf (insert M state word) fp =
      if fp = word.fingerprint M then (slotOf state fp).learn word else slotOf state fp := by
  obtain ⟨copy, isCopy, copyFp, copyVal⟩ := copy_of_insert state.1 acceptable
  have old : (state.1.find (word.fingerprint M)).elim {} Subtype.val
      = (state.1.lookup (word.fingerprint M)).getD {} := by
    rw [← HistoryDic.find_map_val]
    cases state.1.find (word.fingerprint M) <;> rfl
  have stored : (state.1.insertEntry (word.learnInto ((state.1.lookup (word.fingerprint M)).getD {}))
      acceptable.2.1.1).lookup fp =
        if fp = word.fingerprint M then
          some (word.learnInto ((state.1.lookup (word.fingerprint M)).getD {}))
        else state.1.lookup fp :=
    LruMap.lookup_insert_of_room room _ fp
  rw [insert_of_acceptable M acceptable, isCopy, old]
  change Slot.mk (HistoryDic.lookup _ fp) (lastRecord (recordsOf M (_ ++ [_])) fp) = _
  rw [stored, recordsOf_append_singleton, lastRecord_append_singleton, copyFp, copyVal]
  by_cases same : fp = word.fingerprint M
  · rw [if_pos same, if_pos same, if_pos same, Slot.learn, slotOf, same]
  · rw [if_neg same, if_neg same, if_neg same]
    rfl

/-- What is stored stays when a word is learned. -/
theorem isSome_lookup_insert {state : Storage M × RevertEntries} {word : Word}
    (acceptable : word.Acceptable M) (room : state.1.dic.Room (word.fingerprint M)) {fp : UInt64}
    (stored : (state.1.lookup fp).isSome = true) :
    ((insert M state word).1.lookup fp).isSome = true := by
  have slot := congrArg Slot.entry (slotOf_insert acceptable room fp)
  change (insert M state word).1.lookup fp = _ at slot
  rw [slot]
  split
  · rfl
  · exact stored

/-- The words are learned, each into its own entry, as long as all of them fit. -/
theorem slotOf_foldl_insert {known : Finset UInt64} (fits : known.card ≤ kLruCacheSize)
    {words : List Word} {state : Storage M × RevertEntries}
    (stored : state.1.dic.keys.toFinset ⊆ known)
    (new : ∀ word ∈ words, word.Acceptable M → word.fingerprint M ∈ known) :
    (words.foldl (insert M) state).1.dic.keys.toFinset ⊆ known ∧
      ∀ fp, slotOf (words.foldl (insert M) state) fp =
        (((words.filter fun word => word.Acceptable M).filter fun word =>
          word.fingerprint M = fp).foldl Slot.learn (slotOf state fp)) := by
  induction words generalizing state with
  | nil => exact ⟨stored, fun _ => rfl⟩
  | cons word words ih =>
      have later : ∀ other ∈ words, other.Acceptable M → other.fingerprint M ∈ known :=
        fun other member => new other (.tail _ member)
      rw [List.foldl_cons]
      by_cases acceptable : word.Acceptable M
      · have isKnown := new word List.mem_cons_self acceptable
        have room := LruMap.room_of_keys_subset stored fits isKnown
        have stored' : (insert M state word).1.dic.keys.toFinset ⊆ known := by
          rw [insert_of_acceptable M acceptable]
          exact (state.1.dic.keys_insert_subset _ _).trans (Finset.insert_subset isKnown stored)
        obtain ⟨inside, slots⟩ := ih stored' later
        refine ⟨inside, fun fp => ?_⟩
        rw [slots, slotOf_insert acceptable room, List.filter_cons_of_pos (by simpa using acceptable)]
        by_cases same : word.fingerprint M = fp
        · rw [if_pos same.symm, List.filter_cons_of_pos (by simpa using same), List.foldl_cons]
        · rw [if_neg (Ne.symm same), List.filter_cons_of_neg (by simpa using same)]
      · rw [insert_of_not_acceptable M acceptable, List.filter_cons_of_neg (by simpa using acceptable)]
        exact ih stored later

/-- A candidate that was shown is counted in its own entry. -/
theorem slotOf_countShown (state : Storage M × RevertEntries) (result : Result) (fp : UInt64) :
    slotOf (countShown M state result) fp =
      if fp = fingerprint M.cityFingerprint result.key result.value then (slotOf state fp).count M
      else slotOf state fp := by
  rw [countShown]
  dsimp only
  generalize fingerprint M.cityFingerprint result.key result.value = shown
  have counted := HistoryDic.lookup_update state.1 shown shown incrementShownFreqChange
  rw [if_pos rfl] at counted
  cases found : (state.1.update shown incrementShownFreqChange).find shown with
  | none =>
      rw [lookup_eq_none_of_find_eq_none found] at counted
      have missing := Option.map_eq_none_iff.1 counted.symm
      by_cases same : fp = shown
      · rw [if_pos same, same, Slot.count, slotOf, missing]
      · rw [if_neg same]
  | some entry =>
      have copyFp := fingerprint_of_find found
      rw [lookup_eq_some_of_find_eq_some found] at counted
      obtain ⟨entry, nonempty⟩ := entry
      obtain ⟨old, stored, isCounted⟩ := Option.map_eq_some_iff.1 counted.symm
      obtain rfl : incrementShownFreq old = entry := isCounted
      dsimp only
      have ratio : M.belowMinSelectedRatio (incrementShownFreq old).suggestionFreq
          (incrementShownFreq old).shownFreq
            = M.belowMinSelectedRatio old.suggestionFreq (old.shownFreq + 1) := rfl
      by_cases same : fp = shown
      · subst same
        rw [if_pos rfl, ratio, Slot.count, slotOf, slotOf, stored]
        dsimp only
        split
        · rw [recordsOf_append_singleton, lastRecord_append_singleton]
          dsimp only
          rw [HistoryDic.lookup_update, if_pos rfl, HistoryDic.lookup_update, if_pos rfl, stored]
          exact congrArg (Slot.mk _) (if_pos copyFp.symm)
        · dsimp only
          rw [HistoryDic.lookup_update, if_pos rfl, stored]
          rfl
      · rw [if_neg same]
        split
        · rw [slotOf, recordsOf_append_singleton, lastRecord_append_singleton]
          dsimp only
          rw [HistoryDic.lookup_update, if_neg same, HistoryDic.lookup_update, if_neg same, if_neg]
          · rfl
          · exact fun isShown => same (isShown.trans copyFp)
        · rw [slotOf, HistoryDic.lookup_update, if_neg same]
          rfl

theorem slotOf_foldl_countShown (results : List Result) (state : Storage M × RevertEntries)
    (fp : UInt64) :
    slotOf (results.foldl (countShown M) state) fp =
      (Slot.count M)^[(results.map fun result =>
        fingerprint M.cityFingerprint result.key result.value).count fp] (slotOf state fp) := by
  induction results generalizing state with
  | nil => rfl
  | cons result results ih =>
      rw [List.foldl_cons, ih, slotOf_countShown, List.map_cons]
      by_cases same : fp = fingerprint M.cityFingerprint result.key result.value
      · rw [if_pos same, ← same, List.count_cons_self, Function.iterate_succ_apply]
      · rw [if_neg same, List.count_cons_of_ne (Ne.symm same)]

/-- Counting candidates stores and drops nothing. -/
theorem isSome_foldl_countShown (results : List Result) (state : Storage M × RevertEntries)
    (fp : UInt64) :
    ((results.foldl (countShown M) state).1.lookup fp).isSome = (state.1.lookup fp).isSome := by
  have slot := congrArg (fun slot => slot.entry.isSome) (slotOf_foldl_countShown results state fp)
  exact slot.trans (Slot.isSome_entry_iterate_count _ _)

end Mozkey.Prediction
