import Mozkey.Storage.LruStorageCalls

/-!
# `LruStorage` as a map in order of use

A run of calls on a storage is compared with the same run on a bounded map whose keys are
the strings themselves.  As long as the strings of the run have different fingerprints and
the clock does not run backwards, the storage shows the map after each call.

The slots behind the used ones stay zero as well, with one exception: `Clear` begins to
fill the file eight bytes too late, as it takes the types of the members for those of the
header, and so it leaves the fingerprint of the first slot.  No fingerprint is zero.
-/

namespace Mozkey.Storage

open Mozkey.Lib

/-- A run of calls, each at its time, on a map in order of use. -/
def LruCall.runMap {size : Nat} (m : UseMap ByteString size)
    (steps : List (UInt32 × LruCall ByteString)) : UseMap ByteString size :=
  steps.foldl (fun m step => step.2.after step.1 m) m

namespace LruStorage

/-- A run of calls, each at its time. -/
def run (s : LruStorage) (steps : List (UInt32 × LruCall ByteString)) : LruStorage :=
  steps.foldl (fun s step => s.call step.1 step.2) s

/-- The storage shows a map in order of use, its structures are in step, and its unused
slots are zero. -/
structure Shows {size : Nat} (known : Set ByteString) (s : LruStorage)
    (m : UseMap ByteString size) : Prop where
  lookup : ∀ key ∈ known, s.lookup (legacyFingerprintWithSeed key s.seed) = m.lookup key
  getAllValues : s.getAllValues = m.values.map Prod.fst
  linked : Linked s
  zeroed : Zeroed s

/-! ## One call -/

/-- The storage has the entries of a map in order of use. -/
structure Follows {size : Nat} (known : Set ByteString) (now : UInt32) (s : LruStorage)
    (m : UseMap ByteString size) : Prop where
  linked : Linked s
  shaped : Shaped s
  size_eq : s.size = size
  distinct : Set.InjOn (fun key => legacyFingerprintWithSeed key s.seed) known
  within : ∀ e ∈ m.elements, e.1 ∈ known
  entries_eq : s.entries = LruMap.rekey (fun key => legacyFingerprintWithSeed key s.seed) m.elements
  timed : Timed now m

variable {size : Nat} {known : Set ByteString} {now : UInt32} {s : LruStorage}
  {m : UseMap ByteString size} {c : LruCall ByteString}

theorem Follows.sorted (follows : Follows known now s m) : NewestFirst s.entries := by
  rw [follows.entries_eq, NewestFirst, LruMap.rekey, List.pairwise_map]
  exact follows.timed.sorted

/-- **A call** changes the entries as it changes the map. -/
theorem Follows.called (follows : Follows known now s m) (later : UInt32)
    (keys : ∀ key ∈ c.keys, key ∈ known) (fits : ∀ value ∈ c.values, value.length = s.valueSize) :
    Called s (s.call later c)
      (LruMap.rekey (fun key => legacyFingerprintWithSeed key s.seed) (c.after later m).elements) := by
  have sorted := follows.sorted
  obtain ⟨linked, shaped, rfl, distinct, within, entries_eq, _⟩ := follows
  have same : s.entries = (m.rekeyed distinct within).elements := entries_eq
  have called := callFp_called later linked shaped sorted same
    (c := c.map fun key => legacyFingerprintWithSeed key s.seed) (by simpa using fits)
  rw [LruCall.after_rekeyed distinct within keys] at called
  exact called

/-- The first slot of a storage with entries holds a fingerprint of a string, which is not
zero. -/
theorem Follows.first_fp_ne_zero (follows : Follows known now s m) (some_ : s.lruList ≠ []) :
    (s.itemAt 0).fp ≠ 0 := by
  have positive : 0 < s.nextItem := by
    rw [← follows.linked.length_list]
    exact List.length_pos_iff.2 some_
  obtain ⟨⟨node, slot⟩, member, rfl⟩ := List.mem_map.1 ((follows.linked.used 0).2 positive)
  have entry : entryOf (s.itemAt 0) ∈ s.entries :=
    List.mem_map_of_mem (f := fun n => entryOf (s.itemAt n.2)) member
  rw [follows.entries_eq] at entry
  obtain ⟨e, _, same⟩ := List.mem_map.1 entry
  have fp : legacyFingerprintWithSeed e.1 s.seed = (s.itemAt 0).fp := congrArg Prod.fst same
  rw [← fp]
  exact legacyFingerprintWithSeed_ne_zero e.1 s.seed

/-- The storage and the map are empty together. -/
theorem Follows.empty_iff (follows : Follows known now s m) :
    s.lruList = [] ↔ m.elements = [] := by
  have lengths := congrArg List.length follows.entries_eq
  rw [entries, LruMap.rekey, List.length_map, List.length_map] at lengths
  rw [← List.length_eq_zero_iff, ← List.length_eq_zero_iff, lengths]

/-- Unused slots stay zero, but for a `Clear` when there are entries. -/
theorem Follows.zeroed_iff (follows : Follows known now s m) (later : UInt32)
    (fits : ∀ value ∈ c.values, value.length = s.valueSize) (zeroed : Zeroed s) :
    Zeroed (s.call later c) ↔ (c = .clear → m.elements = []) := by
  have first := zeroed_callFp_iff later follows.linked follows.shaped follows.sorted
    (c := c.map fun key => legacyFingerprintWithSeed key s.seed) (by simpa using fits) zeroed
  rw [call, first, LruCall.map_eq_clear_iff, ← follows.empty_iff]
  constructor
  · intro isZero isClear
    by_contra some_
    exact follows.first_fp_ne_zero some_ (isZero isClear some_)
  · intro empty isClear some_
    exact absurd (empty isClear) some_

/-- **One call** keeps the storage and the map in step. -/
theorem Follows.step (follows : Follows known now s m) {later : UInt32} (le : now ≤ later)
    (keys : ∀ key ∈ c.keys, key ∈ known) (fits : ∀ value ∈ c.values, value.length = s.valueSize) :
    Follows known later (s.call later c) (c.after later m) := by
  obtain ⟨linked, entries_eq, ⟨value, size', seed⟩, shaped, _⟩ := follows.called later keys fits
  constructor
  · exact linked
  · exact shaped
  · rw [size']
    exact follows.size_eq
  · rw [seed]
    exact follows.distinct
  · exact LruCall.within_after follows.within keys later
  · rw [seed]
    exact entries_eq
  · exact follows.timed.after le c

/-- A storage in step with a map shows it. -/
theorem Follows.shows (follows : Follows known now s m) (zeroed : Zeroed s) :
    Shows known s m := by
  have same : s.entries = (m.rekeyed follows.distinct follows.within).elements :=
    follows.entries_eq
  refine ⟨?_, ?_, follows.linked, zeroed⟩
  · intro key isKnown
    have onMap : (m.rekeyed follows.distinct follows.within).lookup (legacyFingerprintWithSeed key s.seed) =
        m.lookup key := LruMap.lookup_rekeyed isKnown
    rw [← onMap]
    refine Option.ext fun entry => ?_
    rw [follows.linked.lookup_eq_some_iff, LruMap.lookup_eq_some_iff, same]
  · have values : s.getAllValues = s.entries.map fun e => e.2.1 := by
      rw [getAllValues, entries, List.map_map]
      rfl
    rw [values, follows.entries_eq, LruMap.rekey, LruMap.values, List.map_map, List.map_map]
    rfl

/-! ## Runs -/

/-- **A run** keeps the storage and the map in step. -/
theorem Follows.run {steps : List (UInt32 × LruCall ByteString)} (follows : Follows known now s m)
    (keys : ∀ step ∈ steps, ∀ key ∈ step.2.keys, key ∈ known)
    (values : ∀ step ∈ steps, ∀ value ∈ step.2.values, value.length = s.valueSize)
    (clock : (now :: steps.map Prod.fst).Pairwise (· ≤ ·)) :
    (∃ later, Follows known later (s.run steps) (LruCall.runMap m steps)) ∧
      SameSizes s (s.run steps) := by
  induction steps generalizing s m now with
  | nil => exact ⟨⟨now, follows⟩, rfl, rfl, rfl⟩
  | cons step steps ih =>
      obtain ⟨later, c⟩ := step
      obtain ⟨first, rest⟩ := List.pairwise_cons.1 clock
      have keysHere := keys (later, c) List.mem_cons_self
      have valuesHere := values (later, c) List.mem_cons_self
      have next := follows.step (first later List.mem_cons_self) keysHere valuesHere
      obtain ⟨value, size', seed⟩ := (follows.called later keysHere valuesHere).sizes
      have valuesLater : ∀ step ∈ steps, ∀ v ∈ step.2.values,
          v.length = (s.call later c).valueSize := by
        intro step member v ofStep
        rw [value]
        exact values step (List.mem_cons_of_mem _ member) v ofStep
      obtain ⟨follows', value', size'', seed'⟩ :=
        ih next (fun step member => keys step (List.mem_cons_of_mem _ member)) valuesLater rest
      exact ⟨follows', value'.trans value, size''.trans size', seed'.trans seed⟩

/-- **A fresh file** is opened with all slots unused. -/
theorem open_createStorageFile {valueSize size : Nat} {seed : UInt32} {file : ByteString}
    (created : createStorageFile valueSize size seed = some file) :
    ValidSizes valueSize size ∧ open_ file =
      some (openSlots valueSize size seed (List.replicate size (LruItem.zero valueSize))) := by
  unfold createStorageFile at created
  split at created
  · rename_i valid
    have fits : ValuesFit valueSize (List.replicate size (LruItem.zero valueSize)) := by
      intro item member
      rw [List.eq_of_mem_replicate member]
      exact List.length_replicate
    rw [← Option.some.inj created]
    exact ⟨valid, open_lruFile valid fits List.length_replicate⟩
  · cases created

/-- A fresh storage is in step with the empty map. -/
theorem follows_fresh {valueSize size : Nat} {seed : UInt32} {file : ByteString} {s : LruStorage}
    (created : createStorageFile valueSize size seed = some file) (opened : open_ file = some s)
    (distinct : Set.InjOn (fun key => legacyFingerprintWithSeed key seed) known) :
    Follows known 0 s (LruMap.empty : UseMap ByteString size) ∧ Zeroed s ∧ s.valueSize = valueSize := by
  have unused : ∀ item ∈ List.replicate size (LruItem.zero valueSize),
      item = LruItem.zero valueSize := fun item member => List.eq_of_mem_replicate member
  obtain ⟨valid, opens⟩ := open_createStorageFile created
  have isOpened := Option.some.inj (opens.symm.trans opened)
  have noneUsed : Contiguous valueSize 0 (List.replicate size (LruItem.zero valueSize)) := by
    apply contiguous_unused
    intro item member
    rw [unused item member]
    rfl
  obtain ⟨linked, _, perm, _⟩ := openSlots_spec List.length_replicate noneUsed
  obtain ⟨value, size', seed', slots⟩ := fields_openSlots valueSize size seed
    (List.replicate size (LruItem.zero valueSize))
  rw [isOpened] at linked perm value size' seed' slots
  refine ⟨⟨linked, ⟨?_, ?_⟩, size', ?_, ?_, List.Perm.eq_nil perm, ?_⟩, ?_, value⟩
  · rw [value, size']
    exact valid
  · rw [value, slots]
    intro item member
    rw [unused item member]
    exact List.length_replicate
  · rw [seed']
    exact distinct
  · intro e member
    cases member
  · exact ⟨List.Pairwise.nil, fun e member => by cases member⟩
  · intro i _
    rw [itemAt, slots, value]
    by_cases inside : i < size
    · exact List.getD_replicate _ inside
    · exact List.getD_eq_default _ _ (by simpa using inside)

/-- **A storage is a map in order of use whose unused slots are zero**, in all states of a
run, exactly if no `Clear` of the run comes when there are entries. -/
theorem shows_iff_clears_empty {valueSize size : Nat} {seed : UInt32} {file : ByteString}
    {s : LruStorage} {steps : List (UInt32 × LruCall ByteString)}
    (created : createStorageFile valueSize size seed = some file) (opened : open_ file = some s)
    (distinct : Set.InjOn (fun key => legacyFingerprintWithSeed key seed) known)
    (keys : ∀ step ∈ steps, ∀ key ∈ step.2.keys, key ∈ known)
    (values : ∀ step ∈ steps, ∀ value ∈ step.2.values, value.length = valueSize)
    (clock : (steps.map Prod.fst).Pairwise (· ≤ ·)) :
    (∀ front, front <+: steps →
        Shows known (s.run front)
          (LruCall.runMap (LruMap.empty : UseMap ByteString size) front)) ↔
      ∀ front now rest, steps = front ++ (now, .clear) :: rest →
        (LruCall.runMap (LruMap.empty : UseMap ByteString size) front).elements = [] := by
  obtain ⟨fresh, zeroed, value⟩ := follows_fresh created opened distinct
  subst value
  have follows : ∀ front, front <+: steps →
      (∃ later, Follows known later (s.run front)
          (LruCall.runMap (LruMap.empty : UseMap ByteString size) front)) ∧
        SameSizes s (s.run front) := by
    intro front before
    apply fresh.run
    · exact fun step member => keys step (before.subset member)
    · exact fun step member => values step (before.subset member)
    · refine List.pairwise_cons.2 ⟨fun t _ => ?_, clock.sublist (before.sublist.map _)⟩
      exact UInt32.le_iff_toNat_le.2 (Nat.zero_le _)
  have last : ∀ front step, front ++ [step] <+: steps → Zeroed (s.run front) →
      (Zeroed (s.run (front ++ [step])) ↔
        (step.2 = .clear →
          (LruCall.runMap (LruMap.empty : UseMap ByteString size) front).elements = [])) := by
    intro front step before zeroed
    obtain ⟨⟨now, here⟩, value, _⟩ := follows front ((List.prefix_append front [step]).trans before)
    have member : step ∈ steps := before.subset (by simp)
    have fits : ∀ v ∈ step.2.values, v.length = (s.run front).valueSize :=
      fun v ofStep => (values step member v ofStep).trans value.symm
    have next : s.run (front ++ [step]) =
        (s.run front).call step.1 step.2 := by
      rw [LruStorage.run, List.foldl_append]
      rfl
    rw [next]
    exact here.zeroed_iff step.1 fits zeroed
  constructor
  · intro shows front now rest split
    have before : front ++ [(now, .clear)] <+: steps := by
      refine ⟨rest, ?_⟩
      rw [split, List.append_assoc, List.singleton_append]
    have zeroedHere := (shows front ((List.prefix_append _ _).trans before)).zeroed
    exact (last front _ before zeroedHere).1 (shows _ before).zeroed rfl
  · intro clears front before
    obtain ⟨now, here⟩ := (follows front before).1
    apply here.shows
    clear here
    induction front using List.reverseRecOn with
    | nil => exact zeroed
    | append_singleton front step ih =>
        have earlier : front <+: steps := (List.prefix_append front [step]).trans before
        refine (last front step before (ih earlier)).2 ?_
        intro isClear
        obtain ⟨rest, split⟩ := before
        apply clears front step.1 rest
        rw [← split, ← isClear]
        simp

/-- Two strings share a storage of two slots until the older one is deleted. -/
theorem shows_two_keys : ∃ file s, createStorageFile 4 2 5 = some file ∧ open_ file = some s ∧
    ∀ front, front <+: [(1, LruCall.insert [97] (some [1, 2, 3, 4])),
        (2, .insert [98] (some [5, 6, 7, 8])), (3, .touch [97]), (3, .deleteElementsBefore 3)] →
      Shows {[97], [98]} (s.run front) (LruCall.runMap (LruMap.empty : UseMap ByteString 2) front) := by
  have created : createStorageFile 4 2 5 =
      some (lruFile 4 2 5 (List.replicate 2 (LruItem.zero 4))) := rfl
  obtain ⟨_, opened⟩ := open_createStorageFile created
  refine ⟨_, _, created, opened, (shows_iff_clears_empty created opened ?_ ?_ ?_ ?_).2 ?_⟩
  · rw [Set.injOn_pair]
    intro same
    exact absurd same (by decide +kernel)
  · simp [LruCall.keys]
  · simp [LruCall.values]
  · decide
  · intro front now rest split
    have member : (now, LruCall.clear) ∈ front ++ (now, .clear) :: rest := by simp
    rw [← split] at member
    simp at member

/-- An item is inserted and the storage is cleared: the fingerprint of the item stays in the
unused slot. -/
theorem not_shows_after_clear :
    ∃ file s, createStorageFile 4 1 0 = some file ∧ open_ file = some s ∧
      ¬ Shows {[97]} (s.run [(1, .insert [97] (some [1, 2, 3, 4])), (2, .clear)])
        (LruCall.runMap (LruMap.empty : UseMap ByteString 1)
          [(1, .insert [97] (some [1, 2, 3, 4])), (2, .clear)]) := by
  refine ⟨_, _, rfl, rfl, ?_⟩
  intro shows
  have zero := shows.zeroed 0 (by decide +kernel)
  exact absurd zero (by decide +kernel)

end LruStorage

end Mozkey.Storage
