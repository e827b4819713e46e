import Mozkey.Storage.LruStorageCalls

/-!
# Opening and merging `LruStorage`

`Open` knows nothing but the slots.  Where the used slots are those in front of the unused
ones, opening the file again finds the same entries, the newest first.  `Merge` makes such
slots of any two files: it sorts the items, keeps the first one of each fingerprint, and
cuts off what does not fit.
-/

namespace Mozkey.Storage

open Mozkey.Lib

namespace LruStorage

/-! ## Contiguous slots -/

section Linked

variable {s : LruStorage} (linked : Linked s)
include linked

/-- The entries are the items of the used slots. -/
theorem perm_entries :
    s.entries.Perm ((List.range s.nextItem).map fun i => entryOf (s.itemAt i)) := by
  have places : (s.lruList.map Prod.snd).Perm (List.range s.nextItem) := by
    rw [List.perm_ext_iff_of_nodup linked.places List.nodup_range]
    intro i
    rw [linked.used, List.mem_range]
  have items := places.map fun i => entryOf (s.itemAt i)
  rw [List.map_map] at items
  exact items

/-- The used slots have timestamps, and the others have none. -/
theorem contiguous_iff : Contiguous s.valueSize s.nextItem s.slots ↔
    Timeless s ∧ ∀ e ∈ s.entries, e.2.2 ≠ 0 := by
  constructor
  · intro contiguous
    constructor
    · intro i free
      by_cases inside : i < s.slots.length
      · exact not_not.1 ((contiguous.timestamps i inside).not.2 (Nat.not_lt.2 free))
      · rw [itemAt, List.getD_eq_default _ _ (Nat.le_of_not_lt inside)]
        rfl
    · rintro ⟨fp, entry⟩ member
      obtain ⟨node, slot, inList, _, rfl⟩ := mem_entries_iff.1 member
      have below := (linked.used slot).1 (List.mem_map_of_mem inList)
      exact (contiguous.timestamps slot (linked.slot_lt inList)).2 below
  · rintro ⟨timeless, timestamps⟩
    have node : ∀ i < s.nextItem, ∃ node, (node, i) ∈ s.lruList := by
      intro i below
      obtain ⟨⟨node, _⟩, inList, rfl⟩ := List.mem_map.1 ((linked.used i).2 below)
      exact ⟨node, inList⟩
    constructor
    · exact linked.nextItem_le.trans linked.length_slots.ge
    · intro i _
      constructor
      · intro used
        by_contra free
        exact used (timeless i (Nat.le_of_not_lt free))
      · intro below
        obtain ⟨node, inList⟩ := node i below
        exact timestamps _ (mem_entries_iff.2 ⟨node, i, inList, rfl, rfl⟩)
    · intro i j belowI belowJ same
      obtain ⟨nodeI, inListI⟩ := node i belowI
      obtain ⟨nodeJ, inListJ⟩ := node j belowJ
      have foundI := linked.lookup_fp inListI
      have foundJ := linked.lookup_fp inListJ
      have sameFp : (s.itemAt i).fp = (s.itemAt j).fp := same
      rw [sameFp, foundJ] at foundI
      have sameNode := Option.some.inj foundI
      exact linked.slot_eq inListI (sameNode ▸ inListJ)

/-- **Opening again** finds the same entries, the newest first. -/
theorem open_file (shaped : Shaped s) (contiguous : Contiguous s.valueSize s.nextItem s.slots) :
    ∃ again, open_ s.file = some again ∧ Linked again ∧ again.entries.Perm s.entries ∧
      NewestFirst again.entries := by
  obtain ⟨linked', _, perm, sorted⟩ := @openSlots_spec _ _ _ s.seed _ linked.length_slots contiguous
  refine ⟨_, open_lruFile shaped.valid shaped.fits linked.length_slots, linked', ?_, sorted⟩
  exact perm.trans (perm_entries linked).symm

end Linked

/-- The items of an opened file have values of the right size. -/
theorem fits_loadItems (valueSize : Nat) :
    ∀ (n : Nat) (ptr : ByteString), ptr.length = (kItemHeaderSize + valueSize) * n →
      ValuesFit valueSize (loadItems valueSize n ptr) ∧ (loadItems valueSize n ptr).length = n := by
  intro n
  induction n with
  | zero =>
      intro ptr _
      exact ⟨fun item (member : item ∈ []) => absurd member List.not_mem_nil, rfl⟩
  | succ n ih =>
      intro ptr length
      rw [Nat.mul_succ] at length
      have rest : (ptr.drop (kItemHeaderSize + valueSize)).length =
          (kItemHeaderSize + valueSize) * n := by
        rw [List.length_drop]
        omega
      obtain ⟨fits, count⟩ := ih _ rest
      constructor
      · intro item member
        rcases List.mem_cons.1 member with rfl | later
        · show ((ptr.drop kItemHeaderSize).take valueSize).length = valueSize
          rw [List.length_take, List.length_drop]
          omega
        · exact fits item later
      · rw [loadItems, List.length_cons, count]

/-- A storage whose file has the right shape. -/
structure WellFormed (s : LruStorage) : Prop where
  shaped : Shaped s
  length_slots : s.slots.length = s.size

/-- **Each file that is opened** has the right shape. -/
theorem wellFormed_of_open {mmap : ByteString} {s : LruStorage} (opened : open_ mmap = some s) :
    WellFormed s := by
  unfold open_ at opened
  dsimp only at opened
  split at opened
  · cases opened
  · rename_i valid
    split at opened
    · cases opened
    · rename_i length
      have rest : (mmap.drop kFileHeaderSize).length =
          (kItemHeaderSize + (loadUnaligned32At mmap).toNat) *
            (loadUnaligned32At (mmap.drop 4)).toNat := by
        rw [List.length_drop, not_not.1 length, Nat.add_sub_cancel_left]
      obtain ⟨fits, count⟩ := fits_loadItems _ _ _ rest
      have isOpened := Option.some.inj opened
      obtain ⟨value, size, _, slots⟩ := fields_openSlots (loadUnaligned32At mmap).toNat
        (loadUnaligned32At (mmap.drop 4)).toNat (loadUnaligned32At (mmap.drop 8))
        (loadItems (loadUnaligned32At mmap).toNat (loadUnaligned32At (mmap.drop 4)).toNat
          (mmap.drop kFileHeaderSize))
      rw [isOpened] at value size slots
      refine ⟨⟨?_, ?_⟩, ?_⟩
      · rw [value, size]
        exact not_not.1 valid
      · rw [value, slots]
        exact fits
      · rw [slots, size]
        exact count

/-! ## The items that stay -/

/-- The newest items come first. -/
def NewestItems (items : List LruItem) : Prop :=
  items.Pairwise fun a b => b.timestamp ≤ a.timestamp

theorem newestItems_sortBy (items : List LruItem) : NewestItems (sortBy newer items) := by
  have ranked : ∀ a b : LruItem, newer a b = true ↔
      OrderDual.toDual a.timestamp.toNat < OrderDual.toDual b.timestamp.toNat := by
    intro a b
    rw [OrderDual.toDual_lt_toDual, ← UInt32.lt_iff_toNat_lt]
    exact decide_eq_true_iff
  apply (sortBy_sorted ranked items).imp
  intro a b sorted
  exact UInt32.le_iff_toNat_le.2 (OrderDual.toDual_le_toDual.1 sorted)

theorem keepFirst_sublist (seen : List UInt64) (items : List LruItem) :
    (keepFirst seen items).Sublist items := by
  induction items generalizing seen with
  | nil => exact List.Sublist.refl []
  | cons first rest ih =>
      rw [keepFirst]
      split
      · exact (ih seen).cons first
      · exact (ih _).cons_cons first

theorem not_seen_of_mem_keepFirst {seen : List UInt64} {items : List LruItem} {kept : LruItem}
    (member : kept ∈ keepFirst seen items) : kept.fp ∉ seen := by
  induction items generalizing seen with
  | nil => cases member
  | cons first rest ih =>
      rw [keepFirst] at member
      split at member
      · exact ih member
      · rename_i isNew
        rcases List.mem_cons.1 member with rfl | later
        · exact isNew
        · exact fun inSeen => ih later (List.mem_cons_of_mem _ inSeen)

theorem nodup_keepFirst (seen : List UInt64) (items : List LruItem) :
    ((keepFirst seen items).map LruItem.fp).Nodup := by
  induction items generalizing seen with
  | nil => exact List.nodup_nil
  | cons first rest ih =>
      rw [keepFirst]
      split
      · exact ih seen
      · rw [List.map_cons, List.nodup_cons]
        refine ⟨?_, ih _⟩
        intro again
        obtain ⟨kept, member, same⟩ := List.mem_map.1 again
        exact not_seen_of_mem_keepFirst member (same ▸ List.mem_cons_self)

/-- Each fingerprint that was not seen before has an item that stays. -/
theorem exists_mem_keepFirst {seen : List UInt64} {items : List LruItem} {item : LruItem}
    (member : item ∈ items) (isNew : item.fp ∉ seen) :
    ∃ kept ∈ keepFirst seen items, kept.fp = item.fp := by
  induction items generalizing seen with
  | nil => cases member
  | cons first rest ih =>
      rw [keepFirst]
      split
      · rename_i old
        rcases List.mem_cons.1 member with rfl | later
        · exact absurd old isNew
        · exact ih later isNew
      · by_cases same : first.fp = item.fp
        · exact ⟨first, List.mem_cons_self, same⟩
        · rcases List.mem_cons.1 member with rfl | later
          · exact absurd rfl same
          · have stillNew : item.fp ∉ first.fp :: seen := by
              intro inSeen
              rcases List.mem_cons.1 inSeen with equal | old
              · exact same equal.symm
              · exact isNew old
            obtain ⟨kept, inRest, sameFp⟩ := ih later stillNew
            exact ⟨kept, List.mem_cons_of_mem _ inRest, sameFp⟩

/-- **The item that stays** is the newest one of its fingerprint. -/
theorem le_of_mem_keepFirst {seen : List UInt64} {items : List LruItem} (sorted : NewestItems items)
    {kept item : LruItem} (stays : kept ∈ keepFirst seen items) (member : item ∈ items)
    (same : item.fp = kept.fp) : item.timestamp ≤ kept.timestamp := by
  induction items generalizing seen with
  | nil => cases member
  | cons first rest ih =>
      obtain ⟨newest, sorted'⟩ := List.pairwise_cons.1 sorted
      rw [keepFirst] at stays
      split at stays
      · rename_i old
        rcases List.mem_cons.1 member with rfl | later
        · exact absurd (same ▸ old) (not_seen_of_mem_keepFirst stays)
        · exact ih sorted' stays later
      · rcases List.mem_cons.1 stays with rfl | staysLater
        · rcases List.mem_cons.1 member with rfl | later
          · exact UInt32.le_refl _
          · exact newest item later
        · rcases List.mem_cons.1 member with rfl | later
          · exact absurd (same ▸ List.mem_cons_self) (not_seen_of_mem_keepFirst staysLater)
          · exact ih sorted' staysLater later

/-- In sorted items, those without timestamps come last. -/
theorem split_of_newestItems {items : List LruItem} (sorted : NewestItems items) :
    ∃ used unused, items = used ++ unused ∧ (∀ item ∈ used, item.timestamp ≠ 0) ∧
      ∀ item ∈ unused, item.timestamp = 0 := by
  induction items with
  | nil => exact ⟨[], [], rfl, by simp, by simp⟩
  | cons first rest ih =>
      obtain ⟨newest, sorted'⟩ := List.pairwise_cons.1 sorted
      by_cases unusedFirst : first.timestamp = 0
      · refine ⟨[], first :: rest, rfl, by simp, ?_⟩
        intro item member
        rcases List.mem_cons.1 member with rfl | later
        · exact unusedFirst
        · have le := newest item later
          rw [unusedFirst] at le
          exact UInt32.le_zero_iff.1 le
      · obtain ⟨used, unused, rfl, isUsed, isUnused⟩ := ih sorted'
        refine ⟨first :: used, unused, rfl, ?_, isUnused⟩
        intro item member
        rcases List.mem_cons.1 member with rfl | later
        · exact unusedFirst
        · exact isUsed item later

/-- Used items in front of unused ones. -/
theorem contiguous_append {used unused : List LruItem} (valueSize : Nat)
    (isUsed : ∀ item ∈ used, item.timestamp ≠ 0) (isUnused : ∀ item ∈ unused, item.timestamp = 0)
    (distinct : (used.map LruItem.fp).Nodup) :
    Contiguous valueSize used.length (used ++ unused) := by
  have front : ∀ i (below : i < used.length),
      (used ++ unused).getD i (LruItem.zero valueSize) = used[i] := by
    intro i below
    rw [List.getD_append _ _ _ _ below, List.getD_eq_getElem _ _ below]
  constructor
  · rw [List.length_append]
    exact Nat.le_add_right _ _
  · intro i inside
    by_cases below : i < used.length
    · rw [front i below]
      exact iff_of_true (isUsed _ (List.getElem_mem below)) below
    · have behind := Nat.le_of_not_lt below
      rw [List.length_append] at inside
      have inUnused : i - used.length < unused.length := by omega
      rw [List.getD_append_right _ _ _ _ behind, List.getD_eq_getElem _ _ inUnused]
      exact iff_of_false (not_not.2 (isUnused _ (List.getElem_mem inUnused))) below
  · intro i j belowI belowJ same
    rw [front i belowI, front j belowJ] at same
    have inI : i < (used.map LruItem.fp).length := by simpa using belowI
    have inJ : j < (used.map LruItem.fp).length := by simpa using belowJ
    have sameFp : (used.map LruItem.fp)[i] = (used.map LruItem.fp)[j] := by simpa using same
    exact distinct.getElem_inj_iff.1 sameFp

/-! ## Merging -/

/-- The entries of the used items in some slots. -/
def usedEntries (slots : List LruItem) : List (UInt64 × (ByteString × UInt32)) :=
  (slots.filter fun item => item.timestamp ≠ 0).map entryOf

/-- The entries are the newest ones of their fingerprints, and those of the newest
fingerprints if there are more than fit. -/
structure KeepsNewest (size : Nat) (all entries : List (UInt64 × (ByteString × UInt32))) :
    Prop where
  distinct : (entries.map Prod.fst).Nodup
  newest : ∀ e ∈ entries, e ∈ all ∧ ∀ other ∈ all, other.1 = e.1 → other.2.2 ≤ e.2.2
  complete : ∀ e ∈ all, e.1 ∈ entries.map Prod.fst ∨
    entries.length = size ∧ ∀ kept ∈ entries, e.2.2 ≤ kept.2.2

theorem mem_usedEntries_iff {slots : List LruItem} {e : UInt64 × (ByteString × UInt32)} :
    e ∈ usedEntries slots ↔ ∃ item ∈ slots, item.timestamp ≠ 0 ∧ entryOf item = e := by
  simp only [usedEntries, List.mem_map, List.mem_filter, decide_eq_true_iff, and_assoc]

/-- The items that `Merge` copies into slots, as many as there are. -/
theorem keepsNewest_merged {ours theirs used unused : List LruItem} {size : Nat}
    (split : (mergedItems ours theirs).take size = used ++ unused)
    (isUsed : ∀ item ∈ used, item.timestamp ≠ 0) (isUnused : ∀ item ∈ unused, item.timestamp = 0) :
    KeepsNewest size (usedEntries (ours ++ theirs)) (used.map entryOf) := by
  have sorted := newestItems_sortBy (ours ++ theirs)
  have perm := sortBy_perm newer (ours ++ theirs)
  have inKept : ∀ item ∈ used, item ∈ mergedItems ours theirs := fun item member =>
    List.mem_of_mem_take (split ▸ List.mem_append_left unused member)
  have sortedKept : NewestItems (mergedItems ours theirs) :=
    sorted.sublist (keepFirst_sublist [] _)
  have fps : ((used ++ unused).map LruItem.fp).Nodup := by
    rw [← split]
    exact (nodup_keepFirst [] _).sublist ((List.take_sublist _ _).map _)
  constructor
  · rw [List.map_map]
    rw [List.map_append] at fps
    exact (List.nodup_append.1 fps).1
  · intro e member
    obtain ⟨kept, inUsed, rfl⟩ := List.mem_map.1 member
    constructor
    · have inAll := perm.mem_iff.1 ((keepFirst_sublist [] _).subset (inKept kept inUsed))
      exact mem_usedEntries_iff.2 ⟨kept, inAll, isUsed kept inUsed, rfl⟩
    · intro other inAll same
      obtain ⟨item, inItems, _, rfl⟩ := mem_usedEntries_iff.1 inAll
      exact le_of_mem_keepFirst sorted (inKept kept inUsed) (perm.mem_iff.2 inItems) same
  · intro e inAll
    obtain ⟨item, inItems, itemUsed, rfl⟩ := mem_usedEntries_iff.1 inAll
    have inSorted := perm.mem_iff.2 inItems
    obtain ⟨kept, stays, sameFp⟩ := exists_mem_keepFirst inSorted List.not_mem_nil
    have newer_ : item.timestamp ≤ kept.timestamp :=
      le_of_mem_keepFirst sorted stays inSorted sameFp.symm
    have nonzero : ∀ other : LruItem, kept.timestamp ≤ other.timestamp → other.timestamp ≠ 0 := by
      intro other le zero
      rw [zero] at le
      have keptZero := UInt32.le_zero_iff.1 le
      rw [keptZero] at newer_
      exact itemUsed (UInt32.le_zero_iff.1 newer_)
    have halves : mergedItems ours theirs =
        (mergedItems ours theirs).take size ++ (mergedItems ours theirs).drop size :=
      (List.take_append_drop _ _).symm
    have member : kept ∈ mergedItems ours theirs := stays
    rw [halves, List.mem_append] at member
    rcases member with copied | dropped
    · -- the item is copied, and it is in use
      refine .inl ?_
      rw [split, List.mem_append] at copied
      have inUsed : kept ∈ used := copied.resolve_right fun inUnused =>
        nonzero kept (UInt32.le_refl _) (isUnused kept inUnused)
      rw [List.map_map]
      have fp : (Prod.fst ∘ entryOf) kept = (entryOf item).1 := sameFp
      rw [← fp]
      exact List.mem_map_of_mem inUsed
    · -- all slots hold newer items
      refine .inr ?_
      have order : NewestItems ((mergedItems ours theirs).take size ++
          (mergedItems ours theirs).drop size) := halves ▸ sortedKept
      have above : ∀ other ∈ used ++ unused, kept.timestamp ≤ other.timestamp := by
        intro other inCopied
        rw [← split] at inCopied
        exact (List.pairwise_append.1 order).2.2 other inCopied kept dropped
      have none_ : unused = [] := by
        rw [List.eq_nil_iff_forall_not_mem]
        intro other inUnused
        exact nonzero other (above other (List.mem_append_right _ inUnused))
          (isUnused other inUnused)
      have positive := List.length_pos_of_mem dropped
      have length := congrArg List.length split
      rw [List.length_drop] at positive
      rw [none_, List.append_nil, List.length_take] at length
      rw [List.length_map]
      refine ⟨by omega, ?_⟩
      intro e' member
      obtain ⟨other, inUsed, rfl⟩ := List.mem_map.1 member
      exact UInt32.le_trans newer_ (above other (List.mem_append_left _ inUsed))

/-- **`Merge`** of a storage with the same value size and seed. -/
theorem merge_spec {s target : LruStorage} (ours : WellFormed s) (theirs : WellFormed target)
    (sameValue : target.valueSize = s.valueSize) (sameSeed : s.seed = target.seed) :
    ∃ merged, s.merge target = (merged, true) ∧ Linked merged ∧ Shaped merged ∧
      SameSizes s merged ∧ Contiguous merged.valueSize merged.nextItem merged.slots ∧
      NewestFirst merged.entries ∧
      KeepsNewest s.size (usedEntries (s.slots ++ target.slots)) merged.entries := by
  obtain ⟨⟨valid, fits⟩, length⟩ := ours
  let copied := (mergedItems s.slots target.slots).take s.size
  let zeros := List.replicate (s.size - copied.length) (LruItem.zero s.valueSize)
  have sorted : NewestItems copied :=
    (newestItems_sortBy _).sublist ((List.take_sublist _ _).trans (keepFirst_sublist [] _))
  obtain ⟨used, unused, split, isUsed, isUnused⟩ := split_of_newestItems sorted
  have fps : (copied.map LruItem.fp).Nodup :=
    (nodup_keepFirst [] _).sublist ((List.take_sublist _ _).map _)
  have distinct : (used.map LruItem.fp).Nodup := by
    rw [split, List.map_append] at fps
    exact (List.nodup_append.1 fps).1
  have isZero : ∀ item ∈ zeros, item = LruItem.zero s.valueSize := fun item member =>
    List.eq_of_mem_replicate member
  have slots : copied ++ zeros = used ++ (unused ++ zeros) := by
    rw [split, List.append_assoc]
  have newLength : (copied ++ zeros).length = s.size := by
    have short : copied.length ≤ s.size := by
      rw [List.length_take]
      exact Nat.min_le_left _ _
    rw [List.length_append, List.length_replicate]
    omega
  have newFits : ValuesFit s.valueSize (copied ++ zeros) := by
    intro item member
    rcases List.mem_append.1 member with inCopied | inZeros
    · have inBoth := (sortBy_perm newer _).mem_iff.1
        ((keepFirst_sublist [] _).subset (List.mem_of_mem_take inCopied))
      rcases List.mem_append.1 inBoth with inOurs | inTheirs
      · exact fits item inOurs
      · exact sameValue ▸ theirs.shaped.fits item inTheirs
    · rw [isZero item inZeros]
      exact List.length_replicate
  have contiguous : Contiguous s.valueSize used.length (copied ++ zeros) := by
    rw [slots]
    apply contiguous_append s.valueSize isUsed _ distinct
    intro item member
    rcases List.mem_append.1 member with inUnused | inZeros
    · exact isUnused item inUnused
    · rw [isZero item inZeros]
      rfl
  obtain ⟨linked, next, perm, newest⟩ := @openSlots_spec _ _ _ s.seed _ newLength contiguous
  obtain ⟨value, size, seed, sameSlots⟩ := fields_openSlots s.valueSize s.size s.seed (copied ++ zeros)
  have entries : (openSlots s.valueSize s.size s.seed (copied ++ zeros)).entries.Perm
      (used.map entryOf) := by
    have items : ((List.range used.length).map fun i =>
        entryOf ((copied ++ zeros).getD i (LruItem.zero s.valueSize))) = used.map entryOf := by
      apply List.ext_getElem
      · simp
      · intro i below _
        rw [List.length_map, List.length_range] at below
        rw [List.getElem_map, List.getElem_range, List.getElem_map, slots,
          List.getD_append _ _ _ _ below, List.getD_eq_getElem _ _ below]
    exact items ▸ perm
  have keeps := keepsNewest_merged split isUsed isUnused
  refine ⟨openSlots s.valueSize s.size s.seed (copied ++ zeros), ?_, linked, ?_, ⟨value, size, seed⟩,
    ?_, newest, ?_, ?_, ?_⟩
  · have opened : open_ (file { s with slots := copied ++ zeros }) =
        some (openSlots s.valueSize s.size s.seed (copied ++ zeros)) :=
      open_lruFile valid newFits newLength
    unfold merge
    rw [if_neg (not_not.2 sameValue), if_neg (not_not.2 sameSeed)]
    simp only [length]
    split
    · rename_i failed
      exact absurd (opened.symm.trans failed) (Option.some_ne_none _)
    · rename_i again found
      rw [Option.some.inj (found.symm.trans opened)]
  · constructor
    · rw [value, size]
      exact valid
    · rw [value, sameSlots]
      exact newFits
  · rw [value, next, sameSlots]
    exact contiguous
  · exact ((entries.map Prod.fst).nodup_iff).2 keeps.distinct
  · intro e member
    exact keeps.newest e (entries.mem_iff.1 member)
  · intro e inAll
    rcases keeps.complete e inAll with kept | ⟨full, below⟩
    · exact .inl ((entries.map Prod.fst).mem_iff.2 kept)
    · exact .inr ⟨entries.length_eq.trans full, fun kept member =>
        below kept (entries.mem_iff.1 member)⟩

/-- **Another value size or another seed** is refused. -/
theorem merge_of_ne {s target : LruStorage}
    (differ : target.valueSize ≠ s.valueSize ∨ s.seed ≠ target.seed) :
    s.merge target = (s, false) := by
  unfold merge
  split
  · rfl
  · rename_i sameValue
    rw [if_pos (differ.resolve_left sameValue)]

end LruStorage

end Mozkey.Storage
