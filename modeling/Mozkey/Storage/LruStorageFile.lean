import Mozkey.Storage.LruStorageLinks

/-!
# The file of `LruStorage`

The items of a file are read back from its bytes.  `Open` sorts the slots by their
timestamps and skips those without one.  If the used slots are the first ones and hold
different fingerprints, it makes a storage whose links are in step and whose entries
are the used items, the newest first.

`Clear` fills the file with zeros from a place inside the first item on: the bytes in
front of it are the fingerprint, which stays.
-/

namespace Mozkey.Storage

open Mozkey.Lib

/-! ## Reading the items back -/

/-- The values of the items have the size that the file says. -/
def ValuesFit (valueSize : Nat) (slots : List LruItem) : Prop :=
  ∀ item ∈ slots, item.value.length = valueSize

theorem LruItem.length_bytes (item : LruItem) :
    item.bytes.length = kItemHeaderSize + item.value.length := by
  have header : (storeUnaligned64 item.fp ++ storeUnaligned32 item.timestamp).length =
      kItemHeaderSize := rfl
  rw [LruItem.bytes, List.length_append, header]

theorem length_flatMap_bytes {valueSize : Nat} {slots : List LruItem}
    (fits : ValuesFit valueSize slots) :
    (slots.flatMap LruItem.bytes).length = (kItemHeaderSize + valueSize) * slots.length := by
  induction slots with
  | nil => rfl
  | cons item slots ih =>
      have first := fits item List.mem_cons_self
      have later := ih fun other member => fits other (List.mem_cons_of_mem _ member)
      rw [List.flatMap_cons, List.length_append, later, LruItem.length_bytes, first,
        List.length_cons, Nat.mul_succ, Nat.add_comm]

/-- **The items of a file** are read back. -/
theorem loadItems_bytes {valueSize : Nat} {slots : List LruItem} (fits : ValuesFit valueSize slots)
    (rest : ByteString) :
    loadItems valueSize slots.length (slots.flatMap LruItem.bytes ++ rest) = slots := by
  induction slots with
  | nil => rfl
  | cons item slots ih =>
      have first := fits item List.mem_cons_self
      have later := ih fun other member => fits other (List.mem_cons_of_mem _ member)
      have length64 : (storeUnaligned64 item.fp).length = 8 := rfl
      have length32 : (storeUnaligned32 item.timestamp).length = 4 := rfl
      have bytes : (item :: slots).flatMap LruItem.bytes ++ rest = storeUnaligned64 item.fp ++
          (storeUnaligned32 item.timestamp ++ (item.value ++
            (slots.flatMap LruItem.bytes ++ rest))) := by
        simp [LruItem.bytes]
      have behindFp : ∀ r, (storeUnaligned64 item.fp ++ r).drop 8 = r := by
        intro r
        rw [← length64, List.drop_left]
      have behindTime : ∀ r, (storeUnaligned32 item.timestamp ++ r).drop 4 = r := by
        intro r
        rw [← length32, List.drop_left]
      have behindHeader : ∀ r, (storeUnaligned64 item.fp ++
          (storeUnaligned32 item.timestamp ++ r)).drop kItemHeaderSize = r := by
        intro r
        have twice : kItemHeaderSize = 8 + 4 := rfl
        rw [twice, ← List.drop_drop, behindFp, behindTime]
      have behindItem : ∀ r, (storeUnaligned64 item.fp ++ (storeUnaligned32 item.timestamp ++
          (item.value ++ r))).drop (kItemHeaderSize + valueSize) = r := by
        intro r
        rw [← List.drop_drop, behindHeader, ← first, List.drop_left]
      rw [List.length_cons, loadItems, bytes, loadUnaligned64_store, behindFp,
        loadUnaligned32At_store, behindHeader, behindItem, later, ← first, List.take_left]

theorem length_lruHeader (valueSize size : Nat) (seed : UInt32) :
    (lruHeader valueSize size seed).length = kFileHeaderSize := rfl

theorem length_lruFile {valueSize size : Nat} {seed : UInt32} {slots : List LruItem}
    (fits : ValuesFit valueSize slots) (length : slots.length = size) :
    (lruFile valueSize size seed slots).length =
      kFileHeaderSize + (kItemHeaderSize + valueSize) * size := by
  rw [lruFile, List.length_append, length_lruHeader, length_flatMap_bytes fits, length]

namespace LruStorage

/-- **Opening a file** finds what was written. -/
theorem open_lruFile {valueSize size : Nat} {seed : UInt32} {slots : List LruItem}
    (valid : ValidSizes valueSize size) (fits : ValuesFit valueSize slots)
    (length : slots.length = size) :
    open_ (lruFile valueSize size seed slots) = some (openSlots valueSize size seed slots) := by
  obtain ⟨_, _, small, _, few⟩ := id valid
  have valueSmall : valueSize ≤ 1024 := small
  have sizeSmall : size ≤ 1000000 := few
  have word : ∀ (x : UInt32) (r : ByteString), (storeUnaligned32 x ++ r).drop 4 = r := by
    intro x r
    have length32 : (storeUnaligned32 x).length = 4 := rfl
    rw [← length32, List.drop_left]
  have whole : lruFile valueSize size seed slots = storeUnaligned32 (UInt32.ofNat valueSize) ++
      (storeUnaligned32 (UInt32.ofNat size) ++
        (storeUnaligned32 seed ++ slots.flatMap LruItem.bytes)) := by
    simp [lruFile, lruHeader]
  have second : (lruFile valueSize size seed slots).drop 4 = storeUnaligned32 (UInt32.ofNat size) ++
      (storeUnaligned32 seed ++ slots.flatMap LruItem.bytes) := by
    rw [whole, word]
  have third : (lruFile valueSize size seed slots).drop 8 =
      storeUnaligned32 seed ++ slots.flatMap LruItem.bytes := by
    have twice : 8 = 4 + 4 := rfl
    rw [twice, ← List.drop_drop, second, word]
  have items : (lruFile valueSize size seed slots).drop kFileHeaderSize =
      slots.flatMap LruItem.bytes := by
    have twice : kFileHeaderSize = 8 + 4 := rfl
    rw [twice, ← List.drop_drop, third, word]
  have loaded := loadItems_bytes fits []
  rw [List.append_nil, length] at loaded
  have valueLoaded : (loadUnaligned32At (lruFile valueSize size seed slots)).toNat = valueSize := by
    rw [whole, loadUnaligned32At_store, UInt32.toNat_ofNat']
    exact Nat.mod_eq_of_lt (by omega)
  have sizeLoaded :
      (loadUnaligned32At ((lruFile valueSize size seed slots).drop 4)).toNat = size := by
    rw [second, loadUnaligned32At_store, UInt32.toNat_ofNat']
    exact Nat.mod_eq_of_lt (by omega)
  rw [open_, valueLoaded, sizeLoaded]
  rw [if_neg (not_not.2 valid), if_neg (not_not.2 (length_lruFile fits length)), third,
    loadUnaligned32At_store, items, loaded]

/-! ## Opening slots -/

/-- The slots are used from the first one on, and the used ones hold different
fingerprints. -/
structure Contiguous (valueSize used : Nat) (slots : List LruItem) : Prop where
  used_le : used ≤ slots.length
  timestamps : ∀ i < slots.length,
    (slots.getD i (LruItem.zero valueSize)).timestamp ≠ 0 ↔ i < used
  distinct : ∀ i j, i < used → j < used →
    (slots.getD i (LruItem.zero valueSize)).fp = (slots.getD j (LruItem.zero valueSize)).fp → i = j

/-- Where the loop of `Open` is after some slots. -/
structure Filled (closed s : LruStorage) (front : List Nat) : Prop where
  rest : ∃ list map next, s =
    { closed with lruList := list, lruMap := map, nextNode := next }
  places : s.lruList.map Prod.snd =
    front.filter fun slot => (closed.itemAt slot).timestamp ≠ 0
  nodes : (s.lruList.map Prod.fst).Nodup
  fresh : ∀ node ∈ s.lruList.map Prod.fst, node < s.nextNode
  mapped : ∀ fp node, s.lruMap.lookup fp = some node ↔
    ∃ slot, (node, slot) ∈ s.lruList ∧ (closed.itemAt slot).fp = fp

theorem Filled.itemAt_eq {closed s : LruStorage} {front : List Nat} (filled : Filled closed s front)
    (slot : Nat) : s.itemAt slot = closed.itemAt slot := by
  obtain ⟨list, map, next, rfl⟩ := filled.rest
  rfl

/-- **One slot is added.** -/
theorem Filled.step {closed s : LruStorage} {front : List Nat} (filled : Filled closed s front)
    {slot : Nat} (isNew : ∀ other ∈ front, (closed.itemAt other).timestamp ≠ 0 →
      (closed.itemAt slot).timestamp ≠ 0 → (closed.itemAt other).fp ≠ (closed.itemAt slot).fp) :
    Filled closed (s.addSlot slot) (front ++ [slot]) := by
  have item := filled.itemAt_eq slot
  unfold addSlot
  rw [item]
  by_cases unused : (closed.itemAt slot).timestamp = 0
  · rw [if_neg (not_not.2 unused)]
    refine ⟨filled.rest, ?_, filled.nodes, filled.fresh, filled.mapped⟩
    rw [filled.places, List.filter_append]
    simp [unused]
  · rw [if_pos unused]
    have newNode : s.nextNode ∉ s.lruList.map Prod.fst := fun member =>
      Nat.lt_irrefl _ (filled.fresh _ member)
    have newFp : ∀ node place, (node, place) ∈ s.lruList →
        (closed.itemAt place).fp ≠ (closed.itemAt slot).fp := by
      intro node place member
      have inFront : place ∈ front.filter fun slot => (closed.itemAt slot).timestamp ≠ 0 := by
        rw [← filled.places]
        exact List.mem_map_of_mem member
      obtain ⟨before, used⟩ := List.mem_filter.1 inFront
      exact isNew place before (of_decide_eq_true used) unused
    constructor
    · obtain ⟨list, map, next, rfl⟩ := filled.rest
      exact ⟨_, _, _, rfl⟩
    · rw [List.map_append, filled.places, List.filter_append]
      simp [unused]
    · rw [List.map_append, List.nodup_append]
      refine ⟨filled.nodes, List.nodup_singleton _, ?_⟩
      rintro node member other isLast rfl
      rw [List.map_cons, List.map_nil, List.mem_singleton] at isLast
      have same : node = s.nextNode := isLast
      exact newNode (same ▸ member)
    · intro node member
      rw [List.map_append, List.mem_append] at member
      show node < s.nextNode + 1
      rcases member with old | last
      · exact Nat.lt_succ_of_lt (filled.fresh node old)
      · rw [List.map_cons, List.map_nil, List.mem_singleton] at last
        omega
    · intro fp node
      simp only [List.mem_append, List.mem_singleton, Prod.mk.injEq]
      by_cases new : fp = (closed.itemAt slot).fp
      · subst new
        rw [AList.lookup_insert, Option.some.injEq]
        constructor
        · rintro rfl
          exact ⟨slot, .inr ⟨rfl, rfl⟩, rfl⟩
        · rintro ⟨place, old | ⟨rfl, _⟩, isFp⟩
          · exact absurd isFp (newFp node place old)
          · rfl
      · rw [AList.lookup_insert_ne new, filled.mapped]
        constructor
        · rintro ⟨place, old, isFp⟩
          exact ⟨place, .inl old, isFp⟩
        · rintro ⟨place, old | ⟨_, rfl⟩, isFp⟩
          · exact ⟨place, old, isFp⟩
          · exact absurd isFp.symm new

/-- All slots are added. -/
theorem filled_foldl {closed : LruStorage} (start : closed.lruList = [] ∧ closed.lruMap = ∅)
    {ary : List Nat} (once : ary.Nodup) (distinct : ∀ i ∈ ary, ∀ j ∈ ary,
      (closed.itemAt i).timestamp ≠ 0 → (closed.itemAt j).timestamp ≠ 0 →
        (closed.itemAt i).fp = (closed.itemAt j).fp → i = j) :
    Filled closed (ary.foldl addSlot closed) ary := by
  induction ary using List.reverseRecOn with
  | nil =>
      obtain ⟨list, map⟩ := start
      refine ⟨⟨_, _, _, rfl⟩, ?_, ?_, ?_, ?_⟩
      · simp [list]
      · simp [list]
      · simp [list]
      · intro fp node
        simp [list, map]
  | append_singleton front slot ih =>
      have before := ih (once.sublist (List.sublist_append_left _ _)) fun i inI j inJ =>
        distinct i (List.mem_append_left _ inI) j (List.mem_append_left _ inJ)
      rw [List.foldl_append]
      apply before.step
      intro other inFront used usedToo same
      have equal := distinct other (List.mem_append_left _ inFront) slot (by simp) used usedToo same
      exact List.disjoint_of_nodup_append once inFront (equal ▸ List.mem_singleton_self slot)

/-- `Open` only links the slots. -/
theorem fields_openSlots (valueSize size : Nat) (seed : UInt32) (slots : List LruItem) :
    (openSlots valueSize size seed slots).valueSize = valueSize ∧
      (openSlots valueSize size seed slots).size = size ∧
      (openSlots valueSize size seed slots).seed = seed ∧
      (openSlots valueSize size seed slots).slots = slots := by
  have kept : ∀ (ary : List Nat) (s : LruStorage), (ary.foldl addSlot s).valueSize = s.valueSize ∧
      (ary.foldl addSlot s).size = s.size ∧ (ary.foldl addSlot s).seed = s.seed ∧
      (ary.foldl addSlot s).slots = s.slots := by
    intro ary
    induction ary with
    | nil => simp
    | cons slot ary ih =>
        intro s
        obtain ⟨value, size, seed, slots⟩ := ih (s.addSlot slot)
        rw [List.foldl_cons, value, size, seed, slots, addSlot]
        split
        · simp
        · simp
  exact kept _ _

/-- The newest entries come first. -/
def NewestFirst {κ : Type*} (list : List (κ × (ByteString × UInt32))) : Prop :=
  list.Pairwise fun a b => b.2.2 ≤ a.2.2

/-- **Opening slots** makes a storage in step, with the used items as its entries. -/
theorem openSlots_spec {valueSize size used : Nat} {seed : UInt32} {slots : List LruItem}
    (length : slots.length = size) (contiguous : Contiguous valueSize used slots) :
    Linked (openSlots valueSize size seed slots) ∧
      (openSlots valueSize size seed slots).nextItem = used ∧
      (openSlots valueSize size seed slots).entries.Perm
        ((List.range used).map fun i => entryOf (slots.getD i (LruItem.zero valueSize))) ∧
      NewestFirst (openSlots valueSize size seed slots).entries := by
  obtain ⟨used_le, timestamps, distinct⟩ := contiguous
  let closed : LruStorage :=
    { valueSize := valueSize, size := size, seed := seed, slots := slots
      nextItem := slots.length, lruList := [], lruMap := ∅, nextNode := 0 }
  let better := fun a b => newer (closed.itemAt a) (closed.itemAt b)
  let ary := sortBy better (List.range slots.length)
  have perm : ary.Perm (List.range slots.length) := sortBy_perm better _
  have inAry : ∀ i ∈ ary, i < slots.length := fun i member =>
    List.mem_range.1 (perm.mem_iff.1 member)
  have usedIff : ∀ i < slots.length, (closed.itemAt i).timestamp ≠ 0 ↔ i < used := timestamps
  have filled : Filled closed (ary.foldl addSlot closed) ary := by
    apply filled_foldl ⟨rfl, rfl⟩ (perm.nodup_iff.2 List.nodup_range)
    intro i inI j inJ usedI usedJ same
    exact distinct i j ((usedIff i (inAry i inI)).1 usedI) ((usedIff j (inAry j inJ)).1 usedJ) same
  have next : (ary.find? fun slot => (closed.itemAt slot).timestamp = 0).getD slots.length =
      used := by
    -- sorting keeps the order of the unused slots
    have stable : ary.filter (fun slot => (closed.itemAt slot).timestamp = 0) =
        (List.range slots.length).filter fun slot => (closed.itemAt slot).timestamp = 0 := by
      apply filter_sortBy
      intro i _ j _ unusedI unusedJ
      have zeroI : (closed.itemAt i).timestamp = 0 := of_decide_eq_true unusedI
      have zeroJ : (closed.itemAt j).timestamp = 0 := of_decide_eq_true unusedJ
      simp [better, newer, zeroI, zeroJ]
    rw [← List.head?_filter, stable, List.head?_filter]
    rcases Nat.lt_or_eq_of_le used_le with some_ | all
    · have first : (List.range slots.length).find?
          (fun slot => (closed.itemAt slot).timestamp = 0) = some used := by
        rw [List.find?_range_eq_some]
        refine ⟨?_, List.mem_range.2 some_, ?_⟩
        · have unused := (usedIff used some_).not.2 (Nat.lt_irrefl used)
          simpa using unused
        · intro i before
          simpa using (usedIff i (before.trans some_)).2 before
      rw [first, Option.getD_some]
    · have none_ : (List.range slots.length).find?
          (fun slot => (closed.itemAt slot).timestamp = 0) = none := by
        rw [List.find?_range_eq_none]
        intro i inside
        simpa using (usedIff i inside).2 (all ▸ inside)
      rw [none_, Option.getD_none, all]
  have opened : openSlots valueSize size seed slots =
      { ary.foldl addSlot closed with nextItem := used } := by
    rw [← next]
    rfl
  have item : ∀ i, itemAt { ary.foldl addSlot closed with nextItem := used } i =
      slots.getD i (LruItem.zero valueSize) := filled.itemAt_eq
  have fields : ∃ list map next, ary.foldl addSlot closed =
      { closed with lruList := list, lruMap := map, nextNode := next } := filled.rest
  have entries_eq : (openSlots valueSize size seed slots).entries =
      (ary.filter fun slot => (closed.itemAt slot).timestamp ≠ 0).map
        fun i => entryOf (slots.getD i (LruItem.zero valueSize)) := by
    rw [opened, entries, ← filled.places, List.map_map]
    apply List.map_congr_left
    intro n _
    rw [item]
    rfl
  have places : (ary.filter fun slot => (closed.itemAt slot).timestamp ≠ 0).Perm
      (List.range used) := by
    rw [List.perm_ext_iff_of_nodup ((perm.nodup_iff.2 List.nodup_range).filter _)
      List.nodup_range]
    intro i
    rw [List.mem_filter, perm.mem_iff, List.mem_range, List.mem_range, decide_eq_true_iff]
    constructor
    · rintro ⟨inside, isUsed⟩
      exact (usedIff i inside).1 isUsed
    · intro before
      have inside := before.trans_le used_le
      exact ⟨inside, (usedIff i inside).2 before⟩
  refine ⟨?_, ?_, ?_, ?_⟩
  · rw [opened]
    constructor
    · obtain ⟨list, map, next, whole⟩ := fields
      rw [whole]
      exact length
    · obtain ⟨list, map, next, whole⟩ := fields
      rw [whole]
      exact used_le.trans length.le
    · exact filled.nodes
    · show ((ary.foldl addSlot closed).lruList.map Prod.snd).Nodup
      rw [filled.places]
      exact (perm.nodup_iff.2 List.nodup_range).filter _
    · intro i
      show i ∈ (ary.foldl addSlot closed).lruList.map Prod.snd ↔ i < used
      rw [filled.places, places.mem_iff, List.mem_range]
    · exact filled.fresh
    · intro fp node
      simp only [item]
      exact filled.mapped fp node
  · rw [opened]
  · rw [entries_eq]
    exact places.map _
  · rw [entries_eq, NewestFirst, List.pairwise_map]
    have ranked : ∀ i j, better i j = true ↔
        OrderDual.toDual (closed.itemAt i).timestamp.toNat <
          OrderDual.toDual (closed.itemAt j).timestamp.toNat := by
      intro i j
      rw [OrderDual.toDual_lt_toDual, ← UInt32.lt_iff_toNat_lt]
      exact decide_eq_true_iff
    apply ((sortBy_sorted ranked _).filter _).imp
    intro i j sorted
    exact UInt32.le_iff_toNat_le.2 (OrderDual.toDual_le_toDual.1 sorted)

/-! ## Files without used slots -/

/-- Slots without timestamps. -/
theorem contiguous_unused {valueSize : Nat} {slots : List LruItem}
    (unused : ∀ item ∈ slots, item.timestamp = 0) : Contiguous valueSize 0 slots := by
  constructor
  · exact Nat.zero_le _
  · intro i inside
    have here : slots.getD i (LruItem.zero valueSize) = slots[i] := by
      simp [List.getD_eq_getElem?_getD, inside]
    rw [here]
    simp [unused _ (List.getElem_mem inside)]
  · intro i j inside
    exact absurd inside (Nat.not_lt_zero i)

/-- The slots of a file that was cleared: the first fingerprint stays. -/
def clearedSlots (valueSize : Nat) (slots : List LruItem) : List LruItem :=
  match slots with
  | [] => []
  | first :: rest =>
      { LruItem.zero valueSize with fp := first.fp } ::
        List.replicate rest.length (LruItem.zero valueSize)

theorem fits_clearedSlots (valueSize : Nat) (slots : List LruItem) :
    ValuesFit valueSize (clearedSlots valueSize slots) := by
  intro item member
  cases slots with
  | nil => cases member
  | cons first rest =>
      rcases List.mem_cons.1 member with rfl | later
      · simp [LruItem.zero]
      · rw [List.eq_of_mem_replicate later]
        simp [LruItem.zero]

theorem length_clearedSlots (valueSize : Nat) (slots : List LruItem) :
    (clearedSlots valueSize slots).length = slots.length := by
  cases slots with
  | nil => rfl
  | cons first rest => simp [clearedSlots]

theorem unused_clearedSlots (valueSize : Nat) (slots : List LruItem) :
    ∀ item ∈ clearedSlots valueSize slots, item.timestamp = 0 := by
  intro item member
  cases slots with
  | nil => cases member
  | cons first rest =>
      rcases List.mem_cons.1 member with rfl | later
      · rfl
      · rw [List.eq_of_mem_replicate later]
        rfl

/-- The bytes of items whose bytes are zero. -/
theorem bytes_replicate_zero (valueSize n : Nat) :
    (List.replicate n (LruItem.zero valueSize)).flatMap LruItem.bytes =
      List.replicate ((kItemHeaderSize + valueSize) * n) 0 := by
  have one : (LruItem.zero valueSize).bytes = List.replicate (kItemHeaderSize + valueSize) 0 := by
    have header : storeUnaligned64 0 ++ storeUnaligned32 0 = List.replicate kItemHeaderSize 0 := by
      decide
    rw [List.replicate_add, ← header]
    rfl
  induction n with
  | zero => rfl
  | succ n ih =>
      rw [List.replicate_succ, List.flatMap_cons, ih, one, ← List.replicate_add, Nat.mul_succ,
        Nat.add_comm]

/-- **Filling a file with zeros** from the offset of `Clear` on leaves the first
fingerprint. -/
theorem cleared_lruFile {valueSize size : Nat} {seed : UInt32} {slots : List LruItem}
    (fits : ValuesFit valueSize slots) (some_ : slots ≠ []) :
    (lruFile valueSize size seed slots).take clearOffset ++
        List.replicate ((lruFile valueSize size seed slots).length - clearOffset) 0 =
      lruFile valueSize size seed (clearedSlots valueSize slots) := by
  cases slots with
  | nil => exact absurd rfl some_
  | cons first rest =>
      have whole : ∀ item : LruItem, ∀ items, lruFile valueSize size seed (item :: items) =
          lruHeader valueSize size seed ++ storeUnaligned64 item.fp ++
            (storeUnaligned32 item.timestamp ++ item.value ++ items.flatMap LruItem.bytes) := by
        intro item items
        simp [lruFile, LruItem.bytes]
      have offset : (lruHeader valueSize size seed ++ storeUnaligned64 first.fp).length =
          clearOffset := rfl
      have later := length_flatMap_bytes fun item member =>
        fits item (List.mem_cons_of_mem first member)
      have time : storeUnaligned32 0 = List.replicate 4 0 := by decide
      have length : (storeUnaligned32 first.timestamp ++ first.value ++
          rest.flatMap LruItem.bytes).length =
            4 + valueSize + (kItemHeaderSize + valueSize) * rest.length := by
        rw [List.length_append, List.length_append, later, fits first List.mem_cons_self]
        rfl
      rw [whole, ← offset, List.take_left, List.length_append, Nat.add_sub_cancel_left, length,
        clearedSlots, whole, bytes_replicate_zero, List.replicate_add, List.replicate_add, ← time]
      rfl

end LruStorage

end Mozkey.Storage
