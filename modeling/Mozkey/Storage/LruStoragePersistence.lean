import Mozkey.Storage.LruStorageMerge
import Mozkey.Storage.LruStorageRefinement

/-!
# What `LruStorage` keeps in its file

At any time of a run the file holds all that the storage knows, so that opening it again
leads to the same entries in the same order, but for equal timestamps.  This rests on the
clock: a used item is known by its nonzero timestamp, and the order of the list is that of
the timestamps.
-/

namespace Mozkey.Storage

open Mozkey.Lib

/-- An operation of a storage: a call, or a merge of another file. -/
inductive LruOperation where
  | call (c : LruCall ByteString)
  | merge (mmap : ByteString)
  deriving DecidableEq, Repr

/-- The values of a call have the size of the storage, and no timestamp of a merged file is
later than now. -/
def LruOperation.Fits (valueSize : Nat) (now : UInt32) : LruOperation → Prop
  | .call c => ∀ value ∈ c.values, value.length = valueSize
  | .merge mmap => ∀ target, LruStorage.open_ mmap = some target →
      ∀ item ∈ target.slots, item.timestamp ≤ now

namespace LruStorage

/-- An operation at its time. -/
def operate (now : UInt32) (s : LruStorage) : LruOperation → LruStorage
  | .call c => s.call now c
  | .merge mmap => s.mergeFile mmap

/-- A run of operations, each at its time. -/
def operations (s : LruStorage) (steps : List (UInt32 × LruOperation)) : LruStorage :=
  steps.foldl (fun s step => s.operate step.1 step.2) s

/-- Opening the file of the storage again leads to the same entries, in the order of use up
to equal timestamps. -/
def Reopens (s : LruStorage) : Prop :=
  ∃ again, open_ s.file = some again ∧ again.entries.Perm s.entries ∧
    again.entries.map (fun e => e.2.2) = s.entries.map (fun e => e.2.2)

/-- What `Merge` should do: it succeeds, the used slots are contiguous from the first one
on, and the entries are the newest ones. -/
def MergesNewest (s target : LruStorage) : Prop :=
  ∃ merged, s.merge target = (merged, true) ∧
    Contiguous merged.valueSize merged.nextItem merged.slots ∧
    KeepsNewest s.size (usedEntries (s.slots ++ target.slots)) merged.entries

/-! ## The invariant -/

/-- The storage is in step with its file. -/
structure Kept (now : UInt32) (s : LruStorage) : Prop where
  linked : Linked s
  shaped : Shaped s
  contiguous : Contiguous s.valueSize s.nextItem s.slots
  sorted : NewestFirst s.entries
  past : ∀ e ∈ s.entries, e.2.2 ≤ now

theorem length_entries_le {s : LruStorage} (linked : Linked s) : s.entries.length ≤ s.size := by
  rw [entries, List.length_map, linked.length_list]
  exact linked.nextItem_le

theorem Kept.reopens {now : UInt32} {s : LruStorage} (kept : Kept now s) : Reopens s := by
  obtain ⟨again, opened, _, perm, sorted⟩ := open_file kept.linked kept.shaped kept.contiguous
  refine ⟨again, opened, perm, ?_⟩
  have newest : ∀ list : List (UInt64 × (ByteString × UInt32)), NewestFirst list →
      (list.map fun e => e.2.2).Pairwise fun a b => b ≤ a := fun list sorted =>
    List.pairwise_map.2 sorted
  apply (perm.map _).eq_of_pairwise _ (newest _ sorted) (newest _ kept.sorted)
  intro a b _ _ below above
  exact UInt32.le_antisymm above below

/-- **One call** keeps the storage in step with its file. -/
theorem Kept.call {now later : UInt32} {s : LruStorage} {c : LruCall ByteString}
    (kept : Kept now s) (le : now ≤ later) (nonzero : later ≠ 0)
    (fits : ∀ value ∈ c.values, value.length = s.valueSize) :
    Kept later (s.call later c) ∧ SameSizes s (s.call later c) := by
  obtain ⟨linked, shaped, contiguous, sorted, past⟩ := kept
  let m : UseMap UInt64 s.size := ⟨s.entries, linked.nodup_entries, length_entries_le linked⟩
  let byFp := c.map fun key => legacyFingerprintWithSeed key s.seed
  have called : Called s (s.call later c) (byFp.after later m).elements :=
    callFp_called later linked shaped sorted rfl (by simpa [byFp] using fits)
  have timed : Timed later (byFp.after later m) := Timed.after ⟨sorted, past⟩ le byFp
  obtain ⟨timeless, timestamps⟩ := (contiguous_iff linked).1 contiguous
  have times : ∀ e ∈ (s.call later c).entries, e.2.2 ≠ 0 := by
    intro e member
    rw [called.entries_eq] at member
    rcases byFp.after_sublist later m with fewer | ⟨key, _, value, added⟩
    · exact timestamps e (fewer.subset member)
    · rcases List.mem_cons.1 (added.subset member) with rfl | old
      · exact nonzero
      · exact timestamps e old
  refine ⟨⟨called.linked, called.shaped, ?_, ?_, ?_⟩, called.sizes⟩
  · exact (contiguous_iff called.linked).2 ⟨called.timeless timeless, times⟩
  · rw [called.entries_eq]
    exact timed.sorted
  · rw [called.entries_eq]
    exact timed.past

theorem mergeFile_of_none {s : LruStorage} {mmap : ByteString} (opened : open_ mmap = none) :
    s.mergeFile mmap = s := by
  rw [mergeFile, opened, Option.map_none, Option.getD_none]

theorem mergeFile_of_some {s target : LruStorage} {mmap : ByteString}
    (opened : open_ mmap = some target) : s.mergeFile mmap = (s.merge target).1 := by
  rw [mergeFile, opened, Option.map_some, Option.getD_some]

/-- **Merging a file** keeps the storage in step with its file. -/
theorem Kept.merge {now later : UInt32} {s : LruStorage} {mmap : ByteString} (kept : Kept now s)
    (le : now ≤ later) (past : ∀ target, open_ mmap = some target →
      ∀ item ∈ target.slots, item.timestamp ≤ later) :
    Kept later (s.mergeFile mmap) ∧ SameSizes s (s.mergeFile mmap) := by
  have unchanged : Kept later s ∧ SameSizes s s :=
    ⟨⟨kept.linked, kept.shaped, kept.contiguous, kept.sorted, fun e member =>
      UInt32.le_trans (kept.past e member) le⟩, rfl, rfl, rfl⟩
  cases opened : open_ mmap with
  | none =>
      rw [mergeFile_of_none opened]
      exact unchanged
  | some target =>
      rw [mergeFile_of_some opened]
      by_cases differ : target.valueSize ≠ s.valueSize ∨ s.seed ≠ target.seed
      · rw [merge_of_ne differ]
        exact unchanged
      · obtain ⟨sameValue, sameSeed⟩ := not_or.1 differ
        obtain ⟨merged, isMerged, linked, shaped, sizes, contiguous, sorted, keeps⟩ :=
          merge_spec ⟨kept.shaped, kept.linked.length_slots⟩ (wellFormed_of_open opened)
            (not_not.1 sameValue) (not_not.1 sameSeed)
        rw [isMerged]
        refine ⟨⟨linked, shaped, contiguous, sorted, ?_⟩, sizes⟩
        intro e member
        obtain ⟨item, inBoth, used, rfl⟩ := mem_usedEntries_iff.1 (keeps.newest e member).1
        rcases List.mem_append.1 inBoth with ours | theirs
        · -- an item of the storage itself that is in use
          obtain ⟨slot, inside, isItem⟩ := List.getElem_of_mem ours
          have here : s.itemAt slot = item := by
            rw [itemAt, List.getD_eq_getElem _ _ inside, isItem]
          have below : slot < s.nextItem := by
            apply (kept.contiguous.timestamps slot inside).1
            have same : s.slots.getD slot (LruItem.zero s.valueSize) = item := here
            rw [same]
            exact used
          have inEntries : entryOf (s.itemAt slot) ∈ s.entries := by
            rw [(perm_entries kept.linked).mem_iff]
            exact List.mem_map_of_mem (List.mem_range.2 below)
          rw [here] at inEntries
          exact UInt32.le_trans (kept.past _ inEntries) le
        · exact past target opened item theirs

/-- **One operation** keeps the storage in step with its file. -/
theorem Kept.operate {now later : UInt32} {s : LruStorage} {operation : LruOperation}
    (kept : Kept now s) (le : now ≤ later) (nonzero : later ≠ 0)
    (fits : operation.Fits s.valueSize later) :
    Kept later (s.operate later operation) ∧ SameSizes s (s.operate later operation) := by
  cases operation with
  | call c => exact kept.call le nonzero fits
  | merge mmap => exact kept.merge le fits

/-- **A run** keeps the storage in step with its file. -/
theorem Kept.operations {steps : List (UInt32 × LruOperation)} {now : UInt32} {s : LruStorage}
    (kept : Kept now s) (nonzero : ∀ step ∈ steps, step.1 ≠ 0)
    (fits : ∀ step ∈ steps, step.2.Fits s.valueSize step.1)
    (clock : (now :: steps.map Prod.fst).Pairwise (· ≤ ·)) :
    ∃ later, Kept later (s.operations steps) := by
  induction steps generalizing s now with
  | nil => exact ⟨now, kept⟩
  | cons step steps ih =>
      obtain ⟨later, operation⟩ := step
      obtain ⟨first, rest⟩ := List.pairwise_cons.1 clock
      obtain ⟨next, value, _⟩ := kept.operate (first later List.mem_cons_self)
        (nonzero (later, operation) List.mem_cons_self) (fits (later, operation) List.mem_cons_self)
      apply ih next (fun step member => nonzero step (List.mem_cons_of_mem _ member)) _ rest
      intro step member
      rw [value]
      exact fits step (List.mem_cons_of_mem _ member)

/-- A fresh storage is in step with its file. -/
theorem kept_fresh {valueSize size : Nat} {seed : UInt32} {file : ByteString} {s : LruStorage}
    (created : createStorageFile valueSize size seed = some file) (opened : open_ file = some s) :
    Kept 0 s ∧ s.valueSize = valueSize := by
  obtain ⟨fresh, zeroed, value⟩ := follows_fresh created opened (Set.injOn_empty _)
  have none_ : s.entries = [] := fresh.entries_eq
  refine ⟨⟨fresh.linked, fresh.shaped, ?_, fresh.sorted, ?_⟩, value⟩
  · rw [contiguous_iff fresh.linked, none_]
    refine ⟨fun i free => ?_, fun e member => absurd member List.not_mem_nil⟩
    rw [zeroed i free]
    rfl
  · rw [none_]
    exact fun e member => absurd member List.not_mem_nil

/-- **The file keeps the storage, and merging keeps the newest entries**: the file can be
opened again after each run whose clock is not zero and does not run backwards, and two
files of the same value size and seed are merged. -/
theorem persistent :
    (∀ (valueSize size : Nat) (seed : UInt32) (file : ByteString) (s : LruStorage)
        (steps : List (UInt32 × LruOperation)),
      createStorageFile valueSize size seed = some file → open_ file = some s →
      (∀ step ∈ steps, step.1 ≠ 0) → (∀ step ∈ steps, step.2.Fits valueSize step.1) →
      (steps.map Prod.fst).Pairwise (· ≤ ·) → Reopens (s.operations steps)) ∧
    ∀ (ours theirs : ByteString) (s target : LruStorage), open_ ours = some s →
      open_ theirs = some target → target.valueSize = s.valueSize →
      (s.seed = target.seed → MergesNewest s target) ∧
        (s.seed ≠ target.seed → s.merge target = (s, false)) := by
  constructor
  · intro valueSize size seed file s steps created opened nonzero fits clock
    obtain ⟨fresh, value⟩ := kept_fresh created opened
    have clockFromZero : (0 :: steps.map Prod.fst).Pairwise (· ≤ ·) :=
      List.pairwise_cons.2 ⟨fun t _ => UInt32.le_iff_toNat_le.2 (Nat.zero_le _), clock⟩
    obtain ⟨_, kept⟩ := fresh.operations nonzero (value.symm ▸ fits) clockFromZero
    exact kept.reopens
  · intro ours theirs s target opened openedToo sameValue
    constructor
    · intro sameSeed
      obtain ⟨merged, isMerged, _, _, _, contiguous, _, keeps⟩ :=
        merge_spec (wellFormed_of_open opened) (wellFormed_of_open openedToo) sameValue sameSeed
      exact ⟨merged, isMerged, contiguous, keeps⟩
    · intro differ
      exact merge_of_ne (.inr differ)

/-- A storage is filled, merged with a file and opened again. -/
theorem persistent_merged :
    (∃ file s, createStorageFile 4 2 0 = some file ∧ open_ file = some s ∧
      Reopens (s.operations [(1, .call (.insert [97] (some [1, 2, 3, 4]))),
        (2, .merge (lruFile 4 1 0 [⟨9, 2, [5, 6, 7, 8]⟩])), (2, .call (.delete [97]))])) ∧
    ∃ s target, open_ (lruFile 4 1 0 [⟨8, 1, [1, 2, 3, 4]⟩]) = some s ∧
      open_ (lruFile 4 1 0 [⟨9, 2, [5, 6, 7, 8]⟩]) = some target ∧ MergesNewest s target := by
  have created : createStorageFile 4 2 0 =
      some (lruFile 4 2 0 (List.replicate 2 (LruItem.zero 4))) := rfl
  obtain ⟨_, opened⟩ := open_createStorageFile created
  have ours : open_ (lruFile 4 1 0 [⟨8, 1, [1, 2, 3, 4]⟩]) =
      some (openSlots 4 1 0 [⟨8, 1, [1, 2, 3, 4]⟩]) := open_lruFile (by decide) (by simp [ValuesFit]) rfl
  have theirs : open_ (lruFile 4 1 0 [⟨9, 2, [5, 6, 7, 8]⟩]) =
      some (openSlots 4 1 0 [⟨9, 2, [5, 6, 7, 8]⟩]) := open_lruFile (by decide) (by simp [ValuesFit]) rfl
  refine ⟨⟨_, _, created, opened, persistent.1 4 2 0 _ _ _ created opened ?_ ?_ ?_⟩,
    _, _, ours, theirs, (persistent.2 _ _ _ _ ours theirs rfl).1 rfl⟩
  · decide
  · have fitsAll : LruOperation.Fits 4 2 (.merge (lruFile 4 1 0 [⟨9, 2, [5, 6, 7, 8]⟩])) := by
      intro target isTarget
      rw [← Option.some.inj (theirs.symm.trans isTarget)]
      decide
    simp only [List.forall_mem_cons]
    refine ⟨?_, fitsAll, ?_, fun step member => absurd member List.not_mem_nil⟩
    · simp [LruOperation.Fits, LruCall.values]
    · simp [LruOperation.Fits, LruCall.values]
  · decide

/-- Files of different seeds are not merged; an item that is written at time zero is lost;
and a clock that runs backwards changes the order. -/
theorem not_persistent :
    (∃ s target, open_ (lruFile 4 1 0 [LruItem.zero 4]) = some s ∧
      open_ (lruFile 4 1 1 [⟨9, 1, [1, 2, 3, 4]⟩]) = some target ∧
      target.valueSize = s.valueSize ∧ ¬ MergesNewest s target) ∧
    (∃ file s, createStorageFile 4 2 0 = some file ∧ open_ file = some s ∧
      ¬ Reopens (s.operations [(0, .call (.insert [97] (some [1, 2, 3, 4])))])) ∧
    (∃ file s, createStorageFile 4 2 0 = some file ∧ open_ file = some s ∧
      ¬ Reopens (s.operations [(2, .call (.insert [97] (some [1, 2, 3, 4]))),
        (1, .call (.insert [98] (some [5, 6, 7, 8])))])) ∧
    ∃ file s, createStorageFile 4 2 0 = some file ∧ open_ file = some s ∧
      ¬ Reopens (s.operations [(2, .merge (lruFile 4 1 0 [⟨9, 5, [5, 6, 7, 8]⟩])),
        (3, .call (.insert [98] (some [5, 6, 7, 8])))]) := by
  have created : createStorageFile 4 2 0 =
      some (lruFile 4 2 0 (List.replicate 2 (LruItem.zero 4))) := rfl
  obtain ⟨_, opened⟩ := open_createStorageFile created
  -- what is found when the file is opened again
  have again : ∀ {s : LruStorage} (times : List UInt32),
      (open_ s.file).map (fun again => again.entries.map fun e => e.2.2) = some times →
        s.entries.map (fun e => e.2.2) ≠ times → ¬ Reopens s := by
    rintro s times found differ ⟨again, isAgain, _, same⟩
    rw [isAgain] at found
    exact differ (same.symm.trans (Option.some.inj found))
  have ours : open_ (lruFile 4 1 0 [LruItem.zero 4]) = some (openSlots 4 1 0 [LruItem.zero 4]) :=
    open_lruFile (by decide) (by simp [ValuesFit, LruItem.zero]) rfl
  have theirs : open_ (lruFile 4 1 1 [⟨9, 1, [1, 2, 3, 4]⟩]) =
      some (openSlots 4 1 1 [⟨9, 1, [1, 2, 3, 4]⟩]) :=
    open_lruFile (by decide) (by simp [ValuesFit]) rfl
  refine ⟨⟨_, _, ours, theirs, rfl, ?_⟩, ⟨_, _, created, opened, again [] ?_ ?_⟩,
    ⟨_, _, created, opened, again [2, 1] ?_ ?_⟩, ⟨_, _, created, opened, again [5, 3] ?_ ?_⟩⟩
  · rintro ⟨merged, isMerged, _⟩
    rw [merge_of_ne (.inr (by decide))] at isMerged
    exact absurd (congrArg Prod.snd isMerged) Bool.false_ne_true
  · decide
  · decide
  · decide
  · decide
  · decide
  · decide

end LruStorage

end Mozkey.Storage
