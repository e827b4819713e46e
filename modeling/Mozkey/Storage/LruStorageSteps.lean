import Mozkey.Storage.LruStorageFile

/-!
# The operations of `LruStorage`

What each operation does to a storage whose links are in step is said at once
(`Becomes`): the links stay in step, the file keeps its shape, unused slots stay as they
are or become zero, and the entries change as the operation says.
-/

namespace Mozkey.Storage

open Mozkey.Lib

namespace LruStorage

/-- The unused slots are zero. -/
def Zeroed (s : LruStorage) : Prop :=
  ∀ i, s.nextItem ≤ i → s.itemAt i = LruItem.zero s.valueSize

/-- The unused slots have no timestamps. -/
def Timeless (s : LruStorage) : Prop := ∀ i, s.nextItem ≤ i → (s.itemAt i).timestamp = 0

/-- The file has valid sizes, and its values fit. -/
structure Shaped (s : LruStorage) : Prop where
  valid : ValidSizes s.valueSize s.size
  fits : ValuesFit s.valueSize s.slots

/-- Two storages of the same sizes and seed. -/
def SameSizes (s t : LruStorage) : Prop :=
  t.valueSize = s.valueSize ∧ t.size = s.size ∧ t.seed = s.seed

/-- A storage in step becomes another one with the given entries. -/
structure Becomes (s t : LruStorage) (after : List (UInt64 × (ByteString × UInt32))) : Prop where
  linked : Linked t
  entries_eq : t.entries = after
  sizes : SameSizes s t
  fits : ValuesFit s.valueSize s.slots → ValuesFit t.valueSize t.slots
  unused : ∀ i, t.nextItem ≤ i →
    t.itemAt i = LruItem.zero s.valueSize ∨ s.nextItem ≤ i ∧ t.itemAt i = s.itemAt i

theorem Becomes.refl {s : LruStorage} (linked : Linked s) : Becomes s s s.entries :=
  ⟨linked, rfl, ⟨rfl, rfl, rfl⟩, id, fun _ free => .inr ⟨free, rfl⟩⟩

theorem Becomes.trans {s t u : LruStorage} {middle after : List (UInt64 × (ByteString × UInt32))}
    (first : Becomes s t middle) (second : Becomes t u after) : Becomes s u after := by
  obtain ⟨value, size, seed⟩ := first.sizes
  obtain ⟨value', size', seed'⟩ := second.sizes
  exact
    { linked := second.linked
      entries_eq := second.entries_eq
      sizes := ⟨value'.trans value, size'.trans size, seed'.trans seed⟩
      fits := fun fits => second.fits (first.fits fits)
      unused := by
        intro i free
        rcases second.unused i free with zero | ⟨free', same⟩
        · exact .inl (value ▸ zero)
        · rw [same]
          exact first.unused i free' }

theorem Becomes.shaped {s t : LruStorage} {after : List (UInt64 × (ByteString × UInt32))}
    (becomes : Becomes s t after) (shaped : Shaped s) : Shaped t := by
  obtain ⟨value, size, _⟩ := becomes.sizes
  refine ⟨?_, becomes.fits shaped.fits⟩
  rw [value, size]
  exact shaped.valid

/-- The unused slots stay zero. -/
theorem Becomes.zeroed {s t : LruStorage} {after : List (UInt64 × (ByteString × UInt32))}
    (becomes : Becomes s t after) (zeroed : Zeroed s) : Zeroed t := by
  obtain ⟨value, _, _⟩ := becomes.sizes
  intro i free
  rw [value]
  rcases becomes.unused i free with zero | ⟨free', same⟩
  · exact zero
  · exact same.trans (zeroed i free')

/-- The unused slots stay without timestamps. -/
theorem Becomes.timeless {s t : LruStorage} {after : List (UInt64 × (ByteString × UInt32))}
    (becomes : Becomes s t after) (timeless : Timeless s) : Timeless t := by
  intro i free
  rcases becomes.unused i free with zero | ⟨free', same⟩
  · rw [zero]
    rfl
  · rw [same]
    exact timeless i free'

theorem fits_set {valueSize slot : Nat} {slots : List LruItem} {item : LruItem}
    (fits : ValuesFit valueSize slots) (itemFits : item.value.length = valueSize) :
    ValuesFit valueSize (slots.set slot item) := by
  intro other member
  rcases List.mem_or_eq_of_mem_set member with old | rfl
  · exact fits other old
  · exact itemFits

theorem fits_itemAt {s : LruStorage} (fits : ValuesFit s.valueSize s.slots) (slot : Nat) :
    (s.itemAt slot).value.length = s.valueSize := by
  by_cases inside : slot < s.slots.length
  · have here : s.itemAt slot = s.slots[slot] := by
      simp [itemAt, List.getD_eq_getElem?_getD, inside]
    rw [here]
    exact fits _ (List.getElem_mem inside)
  · have outside : s.itemAt slot = LruItem.zero s.valueSize := by
      simp [itemAt, List.getD_eq_getElem?_getD, Nat.le_of_not_lt inside]
    simp [outside, LruItem.zero]

/-! ## The building blocks -/

section Blocks

variable {s : LruStorage} (linked : Linked s)
include linked

theorem becomes_useNode {node slot : Nat} (member : (node, slot) ∈ s.lruList)
    (write : LruItem → LruItem) (sameFp : (write (s.itemAt slot)).fp = (s.itemAt slot).fp)
    (writeFits : ValuesFit s.valueSize s.slots →
      (write (s.itemAt slot)).value.length = s.valueSize) :
    Becomes s (s.useNode node write)
      (entryOf (write (s.itemAt slot)) :: LruMap.others (s.itemAt slot).fp s.entries) := by
  have items := linked.itemAt_useNode write member
  have below := (linked.used slot).1 (List.mem_map_of_mem member)
  refine ⟨linked.useNode write member sameFp, linked.entries_useNode write member, ?_, ?_, ?_⟩
  · rw [linked.useNode_eq write member]
    exact ⟨rfl, rfl, rfl⟩
  · intro fits
    rw [linked.useNode_eq write member]
    exact fits_set fits (writeFits fits)
  · intro i free
    rw [linked.useNode_eq write member] at free
    have elsewhere : i ≠ slot := by
      rintro rfl
      exact absurd below (Nat.not_lt.2 free)
    rw [items, if_neg elsewhere]
    exact .inr ⟨free, rfl⟩

theorem becomes_reuse {node slot : Nat} (member : (node, slot) ∈ s.lruList) (item : LruItem)
    (absent : s.lruMap.lookup item.fp = none) (itemFits : item.value.length = s.valueSize) :
    Becomes s
      { s.useNode node fun _ => item with
        lruMap := (s.lruMap.erase (s.itemAt slot).fp).insert item.fp node }
      (entryOf item :: LruMap.others (s.itemAt slot).fp s.entries) := by
  have items := linked.itemAt_useNode (fun _ => item) member
  have below := (linked.used slot).1 (List.mem_map_of_mem member)
  refine ⟨linked.reuse member absent, linked.entries_useNode (fun _ => item) member, ?_, ?_, ?_⟩
  · rw [linked.useNode_eq (fun _ => item) member]
    exact ⟨rfl, rfl, rfl⟩
  · intro fits
    rw [linked.useNode_eq (fun _ => item) member]
    exact fits_set fits itemFits
  · intro i free
    rw [linked.useNode_eq (fun _ => item) member] at free
    have elsewhere : i ≠ slot := by
      rintro rfl
      exact absurd below (Nat.not_lt.2 free)
    have same := items i
    rw [if_neg elsewhere] at same
    exact .inr ⟨free, same⟩

theorem becomes_pushItem (item : LruItem) (absent : s.lruMap.lookup item.fp = none)
    (room : s.nextItem < s.size) (itemFits : item.value.length = s.valueSize) :
    Becomes s (s.pushItem item) (entryOf item :: s.entries) := by
  have bound : s.nextItem < s.slots.length := by
    rw [linked.length_slots]
    exact room
  refine ⟨linked.pushItem absent room, linked.entries_pushItem room, ⟨rfl, rfl, rfl⟩, ?_, ?_⟩
  · intro fits
    exact fits_set fits itemFits
  · intro i free
    have later : s.nextItem < i := free
    refine .inr ⟨later.le, (itemAt_set rfl bound).trans ?_⟩
    rw [if_neg (Nat.ne_of_gt later)]

theorem becomes_withoutNode {node slot : Nat} (member : (node, slot) ∈ s.lruList) :
    Becomes s (s.withoutNode node slot) (LruMap.others (s.itemAt slot).fp s.entries) := by
  have below := (linked.used slot).1 (List.mem_map_of_mem member)
  refine ⟨linked.withoutNode member, linked.entries_withoutNode member, ⟨rfl, rfl, rfl⟩, ?_, ?_⟩
  · intro fits
    apply fits_set
    · exact fits_set fits (fits_itemAt fits _)
    · exact List.length_replicate
  · intro i free
    have free' : s.nextItem - 1 ≤ i := free
    rw [linked.itemAt_withoutNode member]
    split
    · exact .inl rfl
    · rename_i notLast
      have elsewhere : i ≠ slot := by omega
      rw [if_neg elsewhere]
      exact .inr ⟨by omega, rfl⟩

end Blocks

/-! ## Using and adding items -/

section Calls

variable {s : LruStorage} (linked : Linked s)
include linked

/-- A fingerprint that the map does not know is not among the entries. -/
theorem absent_of_lookup_eq_none {fp : UInt64} (absent : s.lruMap.lookup fp = none) :
    fp ∉ s.entries.map Prod.fst := by
  intro member
  obtain ⟨⟨fp', entry⟩, inEntries, rfl⟩ := List.mem_map.1 member
  obtain ⟨node, slot, inList, isFp, _⟩ := mem_entries_iff.1 inEntries
  exact linked.fp_ne_of_absent absent node slot inList isFp

/-- The map leads to the node of a fingerprint. -/
theorem node_of_lookup_eq_some {fp : UInt64} {node : Nat} (found : s.lruMap.lookup fp = some node) :
    ∃ slot, (node, slot) ∈ s.lruList ∧ (s.itemAt slot).fp = fp ∧
      (fp, ((s.itemAt slot).value, (s.itemAt slot).timestamp)) ∈ s.entries := by
  obtain ⟨slot, member, isFp⟩ := (linked.mapped fp node).1 found
  exact ⟨slot, member, isFp, mem_entries_iff.2 ⟨node, slot, member, isFp, rfl⟩⟩

variable {m : LruMap UInt64 (ByteString × UInt32) s.size} (same : s.entries = m.elements)
include same

theorem size_eq_nextItem : m.size = s.nextItem := by
  have length := congrArg List.length same
  rw [entries, List.length_map, linked.length_list] at length
  exact length.symm

omit linked in
theorem mem_keys_of_entry {fp : UInt64} {entry : ByteString × UInt32}
    (member : (fp, entry) ∈ s.entries) : fp ∈ m.keys := by
  rw [LruMap.keys, ← same]
  exact List.mem_map_of_mem member

theorem map_lookup_eq_none {fp : UInt64} (absent : s.lruMap.lookup fp = none) :
    m.lookup fp = none := by
  rw [m.lookup_eq_none_iff, LruMap.keys, ← same]
  exact absent_of_lookup_eq_none linked absent

/-- Writing a value for a fingerprint that is known. -/
theorem becomes_overwrite {fp : UInt64} {node : Nat} (found : s.lruMap.lookup fp = some node)
    {value : ByteString} (now : UInt32) (valueFits : value.length = s.valueSize) :
    Becomes s (s.useNode node fun _ => ⟨fp, now, value⟩) (m.insert fp (value, now)).elements ∧
      ∃ entry, m.lookup fp = some entry := by
  obtain ⟨slot, member, isFp, entry⟩ := node_of_lookup_eq_some linked found
  have known := mem_keys_of_entry same entry
  have becomes := becomes_useNode linked member (fun _ => ⟨fp, now, value⟩) isFp.symm
    fun _ => valueFits
  rw [LruMap.elements_insert_of_room (.inl known), ← same]
  rw [isFp] at becomes
  exact ⟨becomes, m.mem_keys_iff.1 known⟩

/-- **`TryInsert`** inserts where the fingerprint is known. -/
theorem tryInsert_becomes (fp : UInt64) {value : ByteString} (now : UInt32)
    (valueFits : value.length = s.valueSize) :
    Becomes s (s.tryInsert fp value now).1
      (match m.lookup fp with
        | none => m
        | some _ => m.insert fp (value, now)).elements := by
  unfold tryInsert
  cases found : s.lruMap.lookup fp with
  | none =>
      rw [map_lookup_eq_none linked same found]
      exact same ▸ Becomes.refl linked
  | some node =>
      obtain ⟨becomes, entry, known⟩ := becomes_overwrite linked same found now valueFits
      rw [known]
      exact becomes

/-- **`Touch`** gives a known fingerprint a new timestamp. -/
theorem touch_becomes (fp : UInt64) (now : UInt32) :
    Becomes s (s.touch fp now).1
      (match m.lookup fp with
        | none => m
        | some entry => m.insert fp (entry.1, now)).elements := by
  unfold touch
  cases found : s.lruMap.lookup fp with
  | none =>
      rw [map_lookup_eq_none linked same found]
      exact same ▸ Becomes.refl linked
  | some node =>
      obtain ⟨slot, member, isFp, entry⟩ := node_of_lookup_eq_some linked found
      have known := mem_keys_of_entry same entry
      have value : m.lookup fp = some ((s.itemAt slot).value, (s.itemAt slot).timestamp) := by
        rw [m.lookup_eq_some_iff, ← same]
        exact entry
      have becomes := becomes_useNode linked member
        (fun item => { item with timestamp := now }) rfl fun fits => fits_itemAt fits slot
      rw [value]
      dsimp only
      rw [LruMap.elements_insert_of_room (.inl known), ← same]
      rw [entryOf, isFp] at becomes
      exact becomes

/-- **`Insert`** inserts, and the least recently used entry gives way in a full storage. -/
theorem insert_becomes (some_ : 0 < s.size) (fp : UInt64) {value : ByteString} (now : UInt32)
    (valueFits : value.length = s.valueSize) :
    Becomes s (s.insert fp (some value) now).1 (m.insert fp (value, now)).elements := by
  unfold insert
  cases found : s.lruMap.lookup fp with
  | some node => exact (becomes_overwrite linked same found now valueFits).1
  | none =>
      have absent : fp ∉ m.keys := by
        rw [← m.lookup_eq_none_iff]
        exact map_lookup_eq_none linked same found
      have sizes := size_eq_nextItem linked same
      have lengths := linked.length_map
      have nodes := linked.length_list
      have slots := linked.length_slots
      have bound := linked.nextItem_le
      dsimp only
      by_cases full : s.nextItem = s.size
      · rw [if_pos (.inl (by omega))]
        cases last : s.lruList.getLast? with
        | none =>
            have empty := List.getLast?_eq_none_iff.1 last
            rw [empty] at nodes
            simp at nodes
            omega
        | some n =>
            obtain ⟨node, slot⟩ := n
            obtain ⟨front, list⟩ := List.getLast?_eq_some_iff.1 last
            have member : (node, slot) ∈ s.lruList := by
              rw [list]
              simp
            have split : s.entries = (front.map fun n => entryOf (s.itemAt n.2)) ++
                [entryOf (s.itemAt slot)] := by
              rw [entries, list]
              simp
            have becomes := becomes_reuse linked member ⟨fp, now, value⟩ found valueFits
            have others := LruMap.others_last (split ▸ linked.nodup_entries)
            rw [← split] at others
            rw [LruMap.elements_insert_of_full absent (same ▸ split) (sizes.trans full)]
            have fpIs : (entryOf (s.itemAt slot)).1 = (s.itemAt slot).fp := rfl
            rw [fpIs] at others
            rw [others] at becomes
            exact becomes
      · have room : ¬ (s.lruMap.entries.length ≥ s.size ∨ s.nextItem = s.slots.length) := by omega
        have inside : s.nextItem < s.slots.length := by omega
        have becomes := becomes_pushItem linked ⟨fp, now, value⟩ found (by omega) valueFits
        rw [if_neg room, if_pos inside,
          LruMap.elements_insert_of_room (.inr (by rw [sizes]; omega)), LruMap.others_eq_self absent,
          ← same]
        exact becomes

/-- **`Delete`** takes a fingerprint out. -/
theorem delete_becomes (fp : UInt64) : Becomes s (s.delete fp).1 (m.erase fp).elements := by
  have whole : (m.erase fp).elements = LruMap.others fp m.elements := rfl
  unfold delete
  cases found : s.lruMap.lookup fp with
  | none =>
      rw [whole, ← same, LruMap.others_eq_self (absent_of_lookup_eq_none linked found)]
      exact Becomes.refl linked
  | some node =>
      obtain ⟨slot, member, isFp, _⟩ := node_of_lookup_eq_some linked found
      have deleted := linked.deleteNode_eq member
      rw [isFp] at deleted
      dsimp only
      rw [deleted, whole, ← same, ← isFp]
      exact becomes_withoutNode linked member

end Calls

/-! ## Deleting old entries -/

/-- The least recently used node is deleted. -/
theorem deleteLast {s : LruStorage} (linked : Linked s) {front : List (Nat × Nat)}
    {node slot : Nat} (list : s.lruList = front ++ [(node, slot)]) :
    ∃ before, s.entries = before ++ [entryOf (s.itemAt slot)] ∧ before.length = front.length ∧
      s.deleteNode (s.itemAt slot).fp node = (s.withoutNode node slot, true) ∧
      Becomes s (s.withoutNode node slot) before := by
  have member : (node, slot) ∈ s.lruList := by
    rw [list]
    simp
  have split : s.entries = (front.map fun n => entryOf (s.itemAt n.2)) ++
      [entryOf (s.itemAt slot)] := by
    rw [entries, list]
    simp
  have becomes := becomes_withoutNode linked member
  have others := LruMap.others_last (split ▸ linked.nodup_entries)
  have fp : (entryOf (s.itemAt slot)).1 = (s.itemAt slot).fp := rfl
  rw [← split, fp] at others
  rw [others] at becomes
  exact ⟨_, split, List.length_map _, linked.deleteNode_eq member, becomes⟩

/-- The loop of `DeleteElementsBefore`, where the newest entries come first. -/
theorem deleteBefore_spec (timestamp : UInt32) :
    ∀ (fuel : Nat) (s : LruStorage) (deleted : Nat), Linked s → NewestFirst s.entries →
      s.lruList.length ≤ fuel →
        Becomes s (deleteBefore timestamp fuel s deleted).1
            (s.entries.filter fun e => timestamp ≤ e.2.2) ∧
          (deleteBefore timestamp fuel s deleted).2 =
            deleted + (s.entries.filter fun e => e.2.2 < timestamp).length := by
  intro fuel
  induction fuel with
  | zero =>
      intro s deleted linked _ short
      have empty : s.lruList = [] := List.length_eq_zero_iff.1 (Nat.le_zero.1 short)
      have noEntries : s.entries = [] := by
        rw [entries, empty, List.map_nil]
      have stays := Becomes.refl linked
      rw [noEntries] at stays ⊢
      exact ⟨stays, rfl⟩
  | succ fuel ih =>
      intro s deleted linked sorted short
      unfold deleteBefore
      cases last : s.lruList.getLast? with
      | none =>
          have empty := List.getLast?_eq_none_iff.1 last
          have noEntries : s.entries = [] := by
            rw [entries, empty, List.map_nil]
          have stays := Becomes.refl linked
          rw [noEntries] at stays ⊢
          exact ⟨stays, rfl⟩
      | some n =>
          obtain ⟨node, slot⟩ := n
          obtain ⟨front, list⟩ := List.getLast?_eq_some_iff.1 last
          obtain ⟨before, split, length, deletes, becomes⟩ := deleteLast linked list
          have order := List.pairwise_append.1 (split ▸ sorted)
          dsimp only
          by_cases young : (s.itemAt slot).timestamp ≥ timestamp
          · -- the last entry is the oldest one, so that all stay
            rw [if_pos young]
            have all : ∀ e ∈ s.entries, timestamp ≤ e.2.2 := by
              intro e member
              rw [split, List.mem_append, List.mem_singleton] at member
              rcases member with earlier | rfl
              · exact UInt32.le_trans young (order.2.2 e earlier _ (List.mem_singleton_self _))
              · exact young
            have kept : (s.entries.filter fun e => timestamp ≤ e.2.2) = s.entries :=
              List.filter_eq_self.2 fun e member => decide_eq_true (all e member)
            have none_ : (s.entries.filter fun e => e.2.2 < timestamp) = [] := by
              rw [List.filter_eq_nil_iff]
              intro e member old
              exact absurd (of_decide_eq_true old) (UInt32.not_lt.2 (all e member))
            rw [kept, none_]
            exact ⟨Becomes.refl linked, rfl⟩
          · rw [if_neg young, deletes]
            have old : (s.itemAt slot).timestamp < timestamp := UInt32.not_le.1 young
            have shorter : (s.withoutNode node slot).lruList.length ≤ fuel := by
              have lengths := congrArg List.length becomes.entries_eq
              rw [entries, List.length_map, length] at lengths
              rw [list, List.length_append, List.length_singleton] at short
              omega
            obtain ⟨rest, count⟩ := ih (s.withoutNode node slot) (deleted + 1) becomes.linked
              (becomes.entries_eq.symm ▸ order.1) shorter
            rw [becomes.entries_eq] at rest count
            have keeps : (s.entries.filter fun e => timestamp ≤ e.2.2) =
                before.filter fun e => timestamp ≤ e.2.2 := by
              rw [split, List.filter_append]
              simp [entryOf, old]
            have drops : (s.entries.filter fun e => e.2.2 < timestamp).length =
                (before.filter fun e => e.2.2 < timestamp).length + 1 := by
              rw [split, List.filter_append]
              simp [entryOf, old]
            rw [keeps, drops]
            refine ⟨becomes.trans rest, ?_⟩
            rw [count]
            omega

/-- **`DeleteElementsBefore`** deletes the entries with smaller timestamps, and counts them. -/
theorem deleteElementsBefore_becomes {s : LruStorage} (linked : Linked s)
    (sorted : NewestFirst s.entries) (timestamp : UInt32) :
    Becomes s (s.deleteElementsBefore timestamp).1
        (s.entries.filter fun e => timestamp ≤ e.2.2) ∧
      (s.deleteElementsBefore timestamp).2 =
        (s.entries.filter fun e => e.2.2 < timestamp).length := by
  obtain ⟨becomes, count⟩ := deleteBefore_spec timestamp _ s 0 linked sorted le_rfl
  exact ⟨becomes, count.trans (Nat.zero_add _)⟩

/-! ## Clearing -/

/-- **`Clear`** of a storage with entries opens the slots that it leaves. -/
theorem clear_eq {s : LruStorage} (linked : Linked s) (shaped : Shaped s) (some_ : s.lruList ≠ []) :
    s.clear =
      (openSlots s.valueSize s.size s.seed (clearedSlots s.valueSize s.slots), true) := by
  have slots : s.slots ≠ [] := by
    intro none_
    have length := linked.length_slots
    rw [none_, List.length_nil] at length
    have positive := shaped.valid.2.2.2.1
    omega
  have length : (clearedSlots s.valueSize s.slots).length = s.size := by
    rw [length_clearedSlots, linked.length_slots]
  have long : ¬ clearOffset ≥ s.file.length := by
    rw [file, length_lruFile shaped.fits linked.length_slots]
    have positive := shaped.valid.2.2.2.1
    have one : 12 + s.valueSize ≤ (12 + s.valueSize) * s.size := Nat.le_mul_of_pos_right _ positive
    have value := shaped.valid.2.1
    rw [clearOffset, kFileHeaderSize, kItemHeaderSize]
    omega
  rw [clear, if_neg some_, if_neg long, file, cleared_lruFile shaped.fits slots,
    open_lruFile shaped.valid (fits_clearedSlots _ _) length]

/-- What `Clear` of a storage with entries makes. -/
theorem clear_spec {s : LruStorage} (linked : Linked s) (shaped : Shaped s)
    (some_ : s.lruList ≠ []) :
    Linked s.clear.1 ∧ s.clear.1.entries = [] ∧ SameSizes s s.clear.1 ∧
      ValuesFit s.clear.1.valueSize s.clear.1.slots ∧
      Timeless s.clear.1 ∧ (Zeroed s.clear.1 ↔ (s.itemAt 0).fp = 0) := by
  have length : (clearedSlots s.valueSize s.slots).length = s.size := by
    rw [length_clearedSlots, linked.length_slots]
  obtain ⟨linked', next, perm, _⟩ := openSlots_spec length
    (contiguous_unused (unused_clearedSlots s.valueSize s.slots))
  obtain ⟨value, size, seed, slots⟩ := fields_openSlots s.valueSize s.size s.seed
    (clearedSlots s.valueSize s.slots)
  rw [clear_eq linked shaped some_]
  refine ⟨linked', ?_, ⟨value, size, seed⟩, ?_, ?_, ?_⟩
  · exact List.Perm.eq_nil perm
  · rw [value, slots]
    exact fits_clearedSlots _ _
  · intro i _
    rw [itemAt, slots, value]
    by_cases inside : i < (clearedSlots s.valueSize s.slots).length
    · rw [List.getD_eq_getElem _ _ inside]
      exact unused_clearedSlots _ _ _ (List.getElem_mem inside)
    · rw [List.getD_eq_default _ _ (Nat.le_of_not_lt inside)]
      rfl
  · unfold Zeroed itemAt
    rw [next, slots, value]
    cases s.slots with
    | nil => simp [clearedSlots, LruItem.zero]
    | cons first rest =>
        constructor
        · intro zeroed
          exact congrArg LruItem.fp (zeroed 0 (Nat.zero_le _))
        · intro isZero i _
          cases i with
          | zero =>
              have same : first.fp = 0 := isZero
              simp [clearedSlots, same, LruItem.zero]
          | succ i =>
              rw [clearedSlots, List.getD_cons_succ]
              by_cases inside : i < rest.length
              · exact List.getD_replicate _ inside
              · exact List.getD_eq_default _ _ (by simpa using inside)

end LruStorage

end Mozkey.Storage
