import Mozkey.Base.Hash
import Mozkey.Storage.LruStorageSteps

/-!
# Calls of `LruStorage`

A call of the storage is compared with the same call of a map in order of use: the keys of
that map are the fingerprints, and its elements are the entries of the storage.  The
timestamps of the map are in order as long as the clock does not run backwards.
-/

namespace Mozkey.Storage

open Mozkey.Lib

/-- A call of a storage.  Its keys are strings, or their fingerprints. -/
inductive LruCall (κ : Type*) where
  | insert (key : κ) (value : Option ByteString)
  | tryInsert (key : κ) (value : ByteString)
  | touch (key : κ)
  | delete (key : κ)
  | deleteElementsBefore (timestamp : UInt32)
  | clear
  deriving DecidableEq, Repr

/-- A map in order of use to values with timestamps. -/
abbrev UseMap (κ : Type*) (size : Nat) := LruMap κ (ByteString × UInt32) size

namespace LruCall

variable {κ ι : Type*}

/-- The keys of a call. -/
def keys : LruCall κ → List κ
  | .insert key _ | .tryInsert key _ | .touch key | .delete key => [key]
  | .deleteElementsBefore _ | .clear => []

/-- The values of a call. -/
def values : LruCall κ → List ByteString
  | .insert _ (some value) | .tryInsert _ value => [value]
  | .insert _ none | .touch _ | .delete _ | .deleteElementsBefore _ | .clear => []

/-- The call with other keys. -/
def map (f : κ → ι) : LruCall κ → LruCall ι
  | .insert key value => .insert (f key) value
  | .tryInsert key value => .tryInsert (f key) value
  | .touch key => .touch (f key)
  | .delete key => .delete (f key)
  | .deleteElementsBefore timestamp => .deleteElementsBefore timestamp
  | .clear => .clear

@[simp] theorem values_map (f : κ → ι) (c : LruCall κ) : (c.map f).values = c.values := by
  cases c with
  | insert key value => cases value <;> rfl
  | _ => rfl

@[simp] theorem map_eq_clear_iff {f : κ → ι} {c : LruCall κ} : c.map f = .clear ↔ c = .clear := by
  cases c <;> simp [map]

variable [DecidableEq κ] {size : Nat}

/-- What a call does to a map in order of use. -/
def after (now : UInt32) (m : UseMap κ size) : LruCall κ → UseMap κ size
  | .insert key (some value) => m.insert key (value, now)
  | .insert _ none => m
  | .tryInsert key value =>
      match m.lookup key with
      | none => m
      | some _ => m.insert key (value, now)
  | .touch key =>
      match m.lookup key with
      | none => m
      | some entry => m.insert key (entry.1, now)
  | .delete key => m.erase key
  | .deleteElementsBefore timestamp => m.restrict fun entry => timestamp ≤ entry.2
  | .clear => LruMap.empty

/-- A call only drops elements, or adds one of its own. -/
theorem after_sublist (now : UInt32) (m : UseMap κ size) (c : LruCall κ) :
    (c.after now m).elements.Sublist m.elements ∨
      ∃ key ∈ c.keys, ∃ value,
        (c.after now m).elements.Sublist ((key, (value, now)) :: m.elements) := by
  have known : ∀ key value, ∃ other ∈ [key], ∃ written,
      (m.insert key (value, now)).elements.Sublist ((other, (written, now)) :: m.elements) :=
    fun key value => ⟨key, List.mem_singleton_self key, value, m.insert_sublist key _⟩
  cases c with
  | insert key value =>
      cases value with
      | none => exact .inl (List.Sublist.refl _)
      | some value => exact .inr (known key value)
  | tryInsert key value =>
      rw [LruCall.after]
      cases m.lookup key with
      | none => exact .inl (List.Sublist.refl _)
      | some entry => exact .inr (known key value)
  | touch key =>
      rw [LruCall.after]
      cases m.lookup key with
      | none => exact .inl (List.Sublist.refl _)
      | some entry => exact .inr (known key entry.1)
  | delete key => exact .inl (LruMap.others_sublist key m.elements)
  | deleteElementsBefore timestamp => exact .inl List.filter_sublist
  | clear => exact .inl (List.nil_sublist _)

/-- The keys stay among known ones. -/
theorem within_after {known : Set κ} {m : UseMap κ size} {c : LruCall κ}
    (within : ∀ e ∈ m.elements, e.1 ∈ known) (keys : ∀ key ∈ c.keys, key ∈ known)
    (now : UInt32) : ∀ e ∈ (c.after now m).elements, e.1 ∈ known := by
  intro e member
  rcases after_sublist now m c with fewer | ⟨key, ofCall, value, added⟩
  · exact within e (fewer.subset member)
  · rcases List.mem_cons.1 (added.subset member) with rfl | old
    · exact keys key ofCall
    · exact within e old

/-- **Other keys** make no difference to a call, as long as they differ. -/
theorem after_rekeyed [DecidableEq ι] {f : κ → ι} {known : Set κ} {m : UseMap κ size}
    {c : LruCall κ} (distinct : Set.InjOn f known) (within : ∀ e ∈ m.elements, e.1 ∈ known)
    (keys : ∀ key ∈ c.keys, key ∈ known) (now : UInt32) :
    ((c.map f).after now (m.rekeyed distinct within)).elements =
      LruMap.rekey f (c.after now m).elements := by
  cases c with
  | insert key value =>
      cases value with
      | none => rfl
      | some value => exact LruMap.elements_insert_rekeyed (keys key List.mem_cons_self) _
  | tryInsert key value =>
      have isKnown := keys key List.mem_cons_self
      rw [map, after, after, LruMap.lookup_rekeyed isKnown]
      cases m.lookup key with
      | none => rfl
      | some entry => exact LruMap.elements_insert_rekeyed isKnown _
  | touch key =>
      have isKnown := keys key List.mem_cons_self
      rw [map, after, after, LruMap.lookup_rekeyed isKnown]
      cases m.lookup key with
      | none => rfl
      | some entry => exact LruMap.elements_insert_rekeyed isKnown _
  | delete key => exact LruMap.elements_erase_rekeyed (keys key List.mem_cons_self)
  | deleteElementsBefore timestamp =>
      exact LruMap.filter_rekey (fun entry : ByteString × UInt32 => timestamp ≤ entry.2) m.elements
  | clear => rfl

end LruCall

namespace LruStorage

/-! ## Timestamps -/

/-- The timestamps of a map are in order, and none is later than now. -/
structure Timed {κ : Type*} {size : Nat} (now : UInt32) (m : UseMap κ size) : Prop where
  sorted : NewestFirst m.elements
  past : ∀ e ∈ m.elements, e.2.2 ≤ now

theorem Timed.after {κ : Type*} [DecidableEq κ] {size : Nat} {now later : UInt32}
    {m : UseMap κ size} (timed : Timed now m) (le : now ≤ later) (c : LruCall κ) :
    Timed later (c.after later m) := by
  have past : ∀ e ∈ m.elements, e.2.2 ≤ later := fun e member =>
    UInt32.le_trans (timed.past e member) le
  rcases c.after_sublist later m with fewer | ⟨key, _, value, added⟩
  · exact ⟨timed.sorted.sublist fewer, fun e member => past e (fewer.subset member)⟩
  · have sorted : NewestFirst ((key, (value, later)) :: m.elements) :=
      List.pairwise_cons.2 ⟨past, timed.sorted⟩
    refine ⟨sorted.sublist added, ?_⟩
    intro e member
    rcases List.mem_cons.1 (added.subset member) with rfl | old
    · exact UInt32.le_refl later
    · exact past e old

/-! ## Calls of the storage -/

/-- A call of the storage, with fingerprints. -/
def callFp (now : UInt32) (s : LruStorage) : LruCall UInt64 → LruStorage
  | .insert fp value => (s.insert fp value now).1
  | .tryInsert fp value => (s.tryInsert fp value now).1
  | .touch fp => (s.touch fp now).1
  | .delete fp => (s.delete fp).1
  | .deleteElementsBefore timestamp => (s.deleteElementsBefore timestamp).1
  | .clear => s.clear.1

/-- A call of the storage, which takes the fingerprint of the string with its seed. -/
def call (now : UInt32) (s : LruStorage) (c : LruCall ByteString) : LruStorage :=
  s.callFp now (c.map fun key => legacyFingerprintWithSeed key s.seed)

variable {s : LruStorage} {m : UseMap UInt64 s.size} {c : LruCall UInt64}

/-- **A call** other than `Clear` changes the entries as it changes the map. -/
theorem callFp_becomes (now : UInt32) (linked : Linked s) (shaped : Shaped s) (sorted : NewestFirst s.entries)
    (same : s.entries = m.elements) (fits : ∀ value ∈ c.values, value.length = s.valueSize)
    (noClear : c ≠ .clear) : Becomes s (s.callFp now c) (c.after now m).elements := by
  have positive : 0 < s.size := shaped.valid.2.2.2.1
  cases c with
  | insert fp value =>
      cases value with
      | none => exact same ▸ Becomes.refl linked
      | some value =>
          exact insert_becomes linked same positive fp now (fits value List.mem_cons_self)
  | tryInsert fp value => exact tryInsert_becomes linked same fp now (fits value List.mem_cons_self)
  | touch fp => exact touch_becomes linked same fp now
  | delete fp => exact delete_becomes linked same fp
  | deleteElementsBefore timestamp =>
      have deletes := (deleteElementsBefore_becomes linked sorted timestamp).1
      rw [same] at deletes
      exact deletes
  | clear => exact absurd rfl noClear

/-- What all calls keep, `Clear` included. -/
structure Called (s t : LruStorage) (after : List (UInt64 × (ByteString × UInt32))) : Prop where
  linked : Linked t
  entries_eq : t.entries = after
  sizes : SameSizes s t
  shaped : Shaped t
  timeless : Timeless s → Timeless t

theorem callFp_called (now : UInt32) (linked : Linked s) (shaped : Shaped s) (sorted : NewestFirst s.entries)
    (same : s.entries = m.elements) (fits : ∀ value ∈ c.values, value.length = s.valueSize) :
    Called s (s.callFp now c) (c.after now m).elements := by
  by_cases isClear : c = .clear
  · subst isClear
    by_cases empty : s.lruList = []
    · have unchanged : s.callFp now .clear = s := by
        rw [callFp, clear, if_pos empty]
      have noEntries : s.entries = [] := by
        rw [entries, empty, List.map_nil]
      rw [unchanged]
      exact ⟨linked, noEntries, ⟨rfl, rfl, rfl⟩, shaped, id⟩
    · obtain ⟨linked', noEntries, sizes, fits', timeless, _⟩ := clear_spec linked shaped empty
      refine ⟨linked', noEntries, sizes, ⟨?_, fits'⟩, fun _ => timeless⟩
      obtain ⟨value, size, _⟩ := sizes
      have valid := shaped.valid
      rw [← value, ← size] at valid
      exact valid
  · have becomes := callFp_becomes now linked shaped sorted same fits isClear
    exact ⟨becomes.linked, becomes.entries_eq, becomes.sizes, becomes.shaped shaped,
      becomes.timeless⟩

/-- Unused slots stay zero, but for a `Clear` of a storage whose first slot is in use by a
fingerprint other than zero. -/
theorem zeroed_callFp_iff (now : UInt32) (linked : Linked s) (shaped : Shaped s) (sorted : NewestFirst s.entries)
    (fits : ∀ value ∈ c.values, value.length = s.valueSize) (zeroed : Zeroed s) :
    Zeroed (s.callFp now c) ↔ (c = .clear → s.lruList ≠ [] → (s.itemAt 0).fp = 0) := by
  by_cases isClear : c = .clear
  · subst isClear
    by_cases empty : s.lruList = []
    · have unchanged : s.callFp now .clear = s := by
        rw [callFp, clear, if_pos empty]
      rw [unchanged]
      exact ⟨fun _ _ some_ => absurd empty some_, fun _ => zeroed⟩
    · obtain ⟨_, _, _, _, _, first⟩ := clear_spec linked shaped empty
      exact ⟨fun cleared _ _ => first.1 cleared, fun isZero => first.2 (isZero rfl empty)⟩
  · have bound : s.entries.length ≤ s.size := by
      rw [entries, List.length_map, linked.length_list]
      exact linked.nextItem_le
    let m : UseMap UInt64 s.size := ⟨s.entries, linked.nodup_entries, bound⟩
    have same : s.entries = m.elements := rfl
    have becomes := callFp_becomes now linked shaped sorted same fits isClear
    exact ⟨fun _ isClear' => absurd isClear' isClear, fun _ => becomes.zeroed zeroed⟩

end LruStorage

end Mozkey.Storage
