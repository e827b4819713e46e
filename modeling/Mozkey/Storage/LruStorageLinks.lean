import Mozkey.Storage.LruStorage
import Mozkey.Lib.LruMap

/-!
# The links of `LruStorage`

The list, the map and the used slots stay in step: the used slots are those in front of
the first unused one, each has one node in the list, and the map leads from a
fingerprint to the node of the slot that holds it (`Linked`).  Each operation keeps this
and changes the entries, the used items in the order of the list, as a map in order of
use changes.
-/

namespace Mozkey.Storage

open Mozkey.Lib

namespace LruStorage

/-- What a used item holds: its fingerprint, and its value and timestamp. -/
def entryOf (item : LruItem) : UInt64 × (ByteString × UInt32) :=
  (item.fp, (item.value, item.timestamp))

/-- The used items, the most recently used one first. -/
def entries (s : LruStorage) : List (UInt64 × (ByteString × UInt32)) :=
  s.lruList.map fun n => entryOf (s.itemAt n.2)

/-- The list, the map and the used slots are in step. -/
structure Linked (s : LruStorage) : Prop where
  length_slots : s.slots.length = s.size
  nextItem_le : s.nextItem ≤ s.size
  nodes : (s.lruList.map Prod.fst).Nodup
  places : (s.lruList.map Prod.snd).Nodup
  used : ∀ i, i ∈ s.lruList.map Prod.snd ↔ i < s.nextItem
  fresh : ∀ node ∈ s.lruList.map Prod.fst, node < s.nextNode
  mapped : ∀ fp node, s.lruMap.lookup fp = some node ↔
    ∃ slot, (node, slot) ∈ s.lruList ∧ (s.itemAt slot).fp = fp

/-- The state after a new item is put into the first unused slot. -/
def pushItem (s : LruStorage) (item : LruItem) : LruStorage :=
  { s with
    slots := s.slots.set s.nextItem item
    lruList := (s.nextNode, s.nextItem) :: s.lruList
    lruMap := s.lruMap.insert item.fp s.nextNode
    nextItem := s.nextItem + 1
    nextNode := s.nextNode + 1 }

/-- The state after a node and its slot are deleted: the last item fills the slot. -/
def withoutNode (s : LruStorage) (node slot : Nat) : LruStorage :=
  { s with
    slots := (s.slots.set slot (s.itemAt (s.nextItem - 1))).set (s.nextItem - 1)
      (LruItem.zero s.valueSize)
    nextItem := s.nextItem - 1
    lruMap := s.lruMap.erase (s.itemAt slot).fp
    lruList := (s.lruList.filter fun n => n.1 ≠ node).map fun n =>
      (n.1, if n.2 = s.nextItem - 1 then slot else n.2) }

/-! ## Items -/

theorem itemAt_set {s : LruStorage} {slots : List LruItem} {slot other : Nat} {item : LruItem}
    (changed : slots = s.slots.set slot item) (bound : slot < s.slots.length) :
    slots.getD other (LruItem.zero s.valueSize) = if other = slot then item else s.itemAt other := by
  subst changed
  split
  · rename_i same
    simp [same, List.getD_eq_getElem?_getD, bound]
  · rename_i differ
    simp [itemAt, List.getD_eq_getElem?_getD, List.getElem?_set_ne (Ne.symm differ)]

theorem mem_entries_iff {s : LruStorage} {fp : UInt64} {entry : ByteString × UInt32} :
    (fp, entry) ∈ s.entries ↔ ∃ node slot, (node, slot) ∈ s.lruList ∧
      (s.itemAt slot).fp = fp ∧ ((s.itemAt slot).value, (s.itemAt slot).timestamp) = entry := by
  simp only [entries, entryOf, List.mem_map, Prod.exists, Prod.mk.injEq]

namespace Linked

variable {s : LruStorage} (linked : Linked s)
include linked

/-- A node has one slot. -/
theorem lookup_iff {node slot : Nat} :
    s.lruList.lookup node = some slot ↔ (node, slot) ∈ s.lruList :=
  LruMap.lookup_eq_some_iff ⟨s.lruList, linked.nodes, le_rfl⟩

theorem slot_eq {node slot other : Nat} (first : (node, slot) ∈ s.lruList)
    (second : (node, other) ∈ s.lruList) : slot = other := by
  rw [← linked.lookup_iff] at first second
  exact Option.some.inj (first.symm.trans second)

/-- A slot has one node. -/
theorem node_eq {node other slot : Nat} (first : (node, slot) ∈ s.lruList)
    (second : (other, slot) ∈ s.lruList) : node = other :=
  congrArg Prod.fst (List.inj_on_of_nodup_map linked.places first second rfl)

theorem slot_lt {node slot : Nat} (member : (node, slot) ∈ s.lruList) :
    slot < s.slots.length := by
  have below := (linked.used slot).1 (List.mem_map_of_mem member)
  have bound := linked.nextItem_le
  rw [linked.length_slots]
  omega

/-- A used item is found through the map. -/
theorem lookup_fp {node slot : Nat} (member : (node, slot) ∈ s.lruList) :
    s.lruMap.lookup (s.itemAt slot).fp = some node :=
  (linked.mapped _ node).2 ⟨slot, member, rfl⟩

/-- No two used items have the same fingerprint. -/
theorem nodup_entries : (s.entries.map Prod.fst).Nodup := by
  have list : s.lruList.Nodup := List.Nodup.of_map _ linked.nodes
  rw [entries, List.map_map]
  apply List.Nodup.map_on _ list
  intro first inList second inList' same
  have one := linked.lookup_fp inList
  have two := linked.lookup_fp inList'
  simp only [Function.comp, entryOf] at same
  rw [same, two] at one
  have node : second.1 = first.1 := Option.some.inj one
  have pair : (first.1, second.2) ∈ s.lruList := node ▸ inList'
  exact Prod.ext node.symm (linked.slot_eq inList pair)

/-- The list has a node for each used slot. -/
theorem length_list : s.lruList.length = s.nextItem := by
  have perm : (s.lruList.map Prod.snd).Perm (List.range s.nextItem) := by
    rw [List.perm_ext_iff_of_nodup linked.places List.nodup_range]
    intro i
    rw [linked.used, List.mem_range]
  simpa using perm.length_eq

/-- The map has a fingerprint for each node. -/
theorem length_map : s.lruMap.entries.length = s.lruList.length := by
  have perm : s.lruMap.keys.Perm (s.entries.map Prod.fst) := by
    rw [List.perm_ext_iff_of_nodup s.lruMap.keys_nodup linked.nodup_entries]
    intro fp
    rw [← AList.mem_keys, ← AList.lookup_isSome, Option.isSome_iff_exists]
    simp only [linked.mapped, entries, List.map_map, List.mem_map, Function.comp, entryOf,
      Prod.exists]
  have lengths := perm.length_eq
  simpa [AList.keys, List.keys, entries] using lengths

/-- **`Lookup`** finds an entry. -/
theorem lookup_eq_some_iff {fp : UInt64} {entry : ByteString × UInt32} :
    s.lookup fp = some entry ↔ (fp, entry) ∈ s.entries := by
  rw [mem_entries_iff]
  unfold lookup
  constructor
  · intro found
    cases node : s.lruMap.lookup fp with
    | none => simp [node] at found
    | some node' =>
        obtain ⟨slot, member, isFp⟩ := (linked.mapped fp node').1 node
        rw [node] at found
        simp only [linked.lookup_iff.2 member, Option.map_some, Option.some.injEq] at found
        exact ⟨node', slot, member, isFp, found⟩
  · rintro ⟨node, slot, member, isFp, isEntry⟩
    have found := linked.lookup_fp member
    rw [isFp] at found
    simp [found, linked.lookup_iff.2 member, isEntry]

/-! ## Moving a node to the front -/

/-- The list with a node at the front has the same nodes. -/
theorem perm_front {node slot : Nat} (member : (node, slot) ∈ s.lruList) :
    ((node, slot) :: s.lruList.filter fun n => n.1 ≠ node).Perm s.lruList := by
  have list : s.lruList.Nodup := List.Nodup.of_map _ linked.nodes
  have same : (s.lruList.filter fun n => n.1 ≠ node) = s.lruList.erase (node, slot) := by
    rw [list.erase_eq_filter]
    apply List.filter_congr
    rintro ⟨other, slot'⟩ inList
    by_cases isNode : other = node
    · subst isNode
      simp [linked.slot_eq inList member]
    · simp [isNode]
  rw [same]
  exact (List.perm_cons_erase member).symm

/-- The other nodes point to other slots. -/
theorem slot_ne {node slot : Nat} (member : (node, slot) ∈ s.lruList) {n : Nat × Nat}
    (other : n ∈ s.lruList.filter fun n => n.1 ≠ node) : n ∈ s.lruList ∧ n.2 ≠ slot := by
  obtain ⟨inList, differs⟩ := List.mem_filter.1 other
  refine ⟨inList, ?_⟩
  intro same
  have pair : (n.1, slot) ∈ s.lruList := same ▸ inList
  exact (of_decide_eq_true differs) (linked.node_eq pair member)

/-- The entries without that of a node are those of the other nodes. -/
theorem others_entries {node slot : Nat} (member : (node, slot) ∈ s.lruList) :
    LruMap.others (s.itemAt slot).fp s.entries =
      (s.lruList.filter fun n => n.1 ≠ node).map fun n => entryOf (s.itemAt n.2) := by
  rw [LruMap.others, entries, List.filter_map]
  congr 1
  apply List.filter_congr
  rintro ⟨other, slot'⟩ inList
  have found := linked.lookup_fp inList
  have isHere := linked.lookup_fp member
  simp only [Function.comp, entryOf]
  by_cases isNode : other = node
  · subst isNode
    simp [linked.slot_eq inList member]
  · have differs : (s.itemAt slot').fp ≠ (s.itemAt slot).fp := by
      intro same
      rw [same, isHere] at found
      exact isNode (Option.some.inj found).symm
    simp [isNode, differs]

variable (write : LruItem → LruItem)

/-- What `useNode` changes. -/
theorem useNode_eq {node slot : Nat} (member : (node, slot) ∈ s.lruList) :
    s.useNode node write =
      { s with
        slots := s.slots.set slot (write (s.itemAt slot))
        lruList := (node, slot) :: s.lruList.filter fun n => n.1 ≠ node } := by
  rw [useNode, linked.lookup_iff.2 member]

theorem itemAt_useNode {node slot : Nat} (member : (node, slot) ∈ s.lruList) (other : Nat) :
    (s.useNode node write).itemAt other =
      if other = slot then write (s.itemAt slot) else s.itemAt other := by
  rw [linked.useNode_eq write member]
  exact itemAt_set rfl (linked.slot_lt member)

/-- **Using an item** moves its entry to the front. -/
theorem entries_useNode {node slot : Nat} (member : (node, slot) ∈ s.lruList) :
    (s.useNode node write).entries =
      entryOf (write (s.itemAt slot)) :: LruMap.others (s.itemAt slot).fp s.entries := by
  have items := linked.itemAt_useNode write member
  rw [linked.others_entries member, entries]
  simp only [items]
  rw [linked.useNode_eq write member, List.map_cons, if_pos rfl]
  congr 1
  apply List.map_congr_left
  intro n other
  rw [if_neg (linked.slot_ne member other).2]

/-- Using an item keeps the links if the fingerprint stays. -/
theorem useNode {node slot : Nat} (member : (node, slot) ∈ s.lruList)
    (sameFp : (write (s.itemAt slot)).fp = (s.itemAt slot).fp) : Linked (s.useNode node write) := by
  have perm := linked.perm_front member
  have items := linked.itemAt_useNode write member
  have fps : ∀ other, ((s.useNode node write).itemAt other).fp = (s.itemAt other).fp := by
    intro other
    rw [items]
    split
    · rename_i same
      rw [sameFp, same]
    · rfl
  have fields := linked.useNode_eq write member
  constructor
  · rw [fields]
    simpa using linked.length_slots
  · rw [fields]
    exact linked.nextItem_le
  · rw [fields]
    exact (perm.map Prod.fst).nodup_iff.2 linked.nodes
  · rw [fields]
    exact (perm.map Prod.snd).nodup_iff.2 linked.places
  · intro i
    rw [fields]
    exact ((perm.map Prod.snd).mem_iff).trans (linked.used i)
  · intro other isNode
    rw [fields] at isNode ⊢
    exact linked.fresh other ((perm.map Prod.fst).mem_iff.1 isNode)
  · intro fp other
    have list : ∀ slot', (other, slot') ∈ (s.useNode node write).lruList ↔
        (other, slot') ∈ s.lruList := by
      intro slot'
      rw [fields]
      exact perm.mem_iff
    have map : (s.useNode node write).lruMap = s.lruMap := by rw [fields]
    simp only [fps, list, map]
    exact linked.mapped fp other

/-! ## A new fingerprint -/

/-- No used item has a fingerprint that the map does not know. -/
theorem fp_ne_of_absent {fp : UInt64} (absent : s.lruMap.lookup fp = none) :
    ∀ node slot, (node, slot) ∈ s.lruList → (s.itemAt slot).fp ≠ fp := by
  intro node slot member same
  have found := linked.lookup_fp member
  rw [same, absent] at found
  cases found

/-- The state after a node is given to another fingerprint. -/
theorem reuse {node slot : Nat} (member : (node, slot) ∈ s.lruList) {item : LruItem}
    (absent : s.lruMap.lookup item.fp = none) :
    Linked { s.useNode node fun _ => item with
      lruMap := (s.lruMap.erase (s.itemAt slot).fp).insert item.fp node } := by
  have perm := linked.perm_front member
  have items := linked.itemAt_useNode (fun _ => item) member
  have fields := linked.useNode_eq (fun _ => item) member
  have differs := linked.fp_ne_of_absent absent
  constructor
  · rw [fields]
    simpa using linked.length_slots
  · rw [fields]
    exact linked.nextItem_le
  · rw [fields]
    exact (perm.map Prod.fst).nodup_iff.2 linked.nodes
  · rw [fields]
    exact (perm.map Prod.snd).nodup_iff.2 linked.places
  · intro i
    rw [fields]
    exact ((perm.map Prod.snd).mem_iff).trans (linked.used i)
  · intro other isNode
    rw [fields] at isNode ⊢
    exact linked.fresh other ((perm.map Prod.fst).mem_iff.1 isNode)
  · intro fp other
    have list : ∀ slot', (other, slot') ∈ (s.useNode node fun _ => item).lruList ↔
        (other, slot') ∈ s.lruList := by
      intro slot'
      rw [fields]
      exact perm.mem_iff
    have itemAt : ∀ slot', itemAt { s.useNode node fun _ => item with
        lruMap := (s.lruMap.erase (s.itemAt slot).fp).insert item.fp node } slot' =
          if slot' = slot then item else s.itemAt slot' := items
    simp only [itemAt, list]
    by_cases new : fp = item.fp
    · subst new
      rw [AList.lookup_insert, Option.some.injEq]
      constructor
      · rintro rfl
        exact ⟨slot, member, by simp⟩
      · rintro ⟨slot', inList, isFp⟩
        by_cases here : slot' = slot
        · exact linked.node_eq member (here ▸ inList)
        · rw [if_neg here] at isFp
          exact absurd isFp (differs other slot' inList)
    · rw [AList.lookup_insert_ne new]
      by_cases old : fp = (s.itemAt slot).fp
      · subst old
        rw [AList.lookup_erase]
        constructor
        · intro found
          cases found
        · rintro ⟨slot', inList, isFp⟩
          by_cases here : slot' = slot
          · rw [if_pos here] at isFp
            exact absurd isFp.symm new
          · rw [if_neg here] at isFp
            have found := linked.lookup_fp inList
            rw [isFp, linked.lookup_fp member] at found
            have node' := Option.some.inj found
            exact absurd (linked.slot_eq inList (node' ▸ member)) here
      · rw [AList.lookup_erase_ne old, linked.mapped]
        constructor
        · rintro ⟨slot', inList, isFp⟩
          have elsewhere : slot' ≠ slot := by
            rintro rfl
            exact old isFp.symm
          exact ⟨slot', inList, by rw [if_neg elsewhere, isFp]⟩
        · rintro ⟨slot', inList, isFp⟩
          by_cases here : slot' = slot
          · rw [if_pos here] at isFp
            exact absurd isFp.symm new
          · rw [if_neg here] at isFp
            exact ⟨slot', inList, isFp⟩

/-- A new item gets the first unused slot. -/
theorem pushItem {item : LruItem} (absent : s.lruMap.lookup item.fp = none)
    (room : s.nextItem < s.size) : Linked (s.pushItem item) := by
  have bound : s.nextItem < s.slots.length := by
    rw [linked.length_slots]
    exact room
  have items : ∀ other, (s.pushItem item).itemAt other =
      if other = s.nextItem then item else s.itemAt other := fun other => itemAt_set rfl bound
  have differs := linked.fp_ne_of_absent absent
  have newNode : s.nextNode ∉ s.lruList.map Prod.fst := fun member =>
    Nat.lt_irrefl _ (linked.fresh _ member)
  have newSlot : s.nextItem ∉ s.lruList.map Prod.snd := fun member =>
    Nat.lt_irrefl _ ((linked.used _).1 member)
  constructor
  · simpa [LruStorage.pushItem] using linked.length_slots
  · exact room
  · exact List.nodup_cons.2 ⟨newNode, linked.nodes⟩
  · exact List.nodup_cons.2 ⟨newSlot, linked.places⟩
  · intro i
    have before := linked.used i
    simp only [LruStorage.pushItem, List.map_cons, List.mem_cons, before]
    omega
  · intro node member
    simp only [LruStorage.pushItem, List.map_cons, List.mem_cons] at member ⊢
    rcases member with rfl | old
    · omega
    · have before := linked.fresh node old
      omega
  · intro fp node
    simp only [items]
    simp only [LruStorage.pushItem, List.mem_cons, Prod.mk.injEq]
    by_cases new : fp = item.fp
    · subst new
      rw [AList.lookup_insert, Option.some.injEq]
      constructor
      · rintro rfl
        exact ⟨s.nextItem, .inl ⟨rfl, rfl⟩, by simp⟩
      · rintro ⟨slot, ⟨rfl, _⟩ | inList, isFp⟩
        · rfl
        · have elsewhere : slot ≠ s.nextItem := fun same =>
            newSlot (same ▸ List.mem_map_of_mem inList)
          rw [if_neg elsewhere] at isFp
          exact absurd isFp (differs node slot inList)
    · rw [AList.lookup_insert_ne new, linked.mapped]
      constructor
      · rintro ⟨slot, inList, isFp⟩
        have elsewhere : slot ≠ s.nextItem := fun same =>
          newSlot (same ▸ List.mem_map_of_mem inList)
        exact ⟨slot, .inr inList, by rw [if_neg elsewhere, isFp]⟩
      · rintro ⟨slot, ⟨_, rfl⟩ | inList, isFp⟩
        · rw [if_pos rfl] at isFp
          exact absurd isFp.symm new
        · have elsewhere : slot ≠ s.nextItem := fun same =>
            newSlot (same ▸ List.mem_map_of_mem inList)
          rw [if_neg elsewhere] at isFp
          exact ⟨slot, inList, isFp⟩

/-- **A new item** is an entry at the front. -/
theorem entries_pushItem {item : LruItem} (room : s.nextItem < s.size) :
    (s.pushItem item).entries = entryOf item :: s.entries := by
  have bound : s.nextItem < s.slots.length := by
    rw [linked.length_slots]
    exact room
  have items : ∀ other, (s.pushItem item).itemAt other =
      if other = s.nextItem then item else s.itemAt other := fun other => itemAt_set rfl bound
  rw [entries, entries]
  simp only [items]
  rw [LruStorage.pushItem, List.map_cons, if_pos rfl]
  congr 1
  apply List.map_congr_left
  intro n inList
  have elsewhere : n.2 ≠ s.nextItem := by
    intro same
    exact Nat.lt_irrefl _ ((linked.used _).1 (same ▸ List.mem_map_of_mem inList))
  rw [if_neg elsewhere]

/-! ## A deleted item -/

/-- What `deleteNode` changes. -/
theorem deleteNode_eq {node slot : Nat} (member : (node, slot) ∈ s.lruList) :
    s.deleteNode (s.itemAt slot).fp node = (s.withoutNode node slot, true) := by
  have below := (linked.used slot).1 (List.mem_map_of_mem member)
  have some_ : ¬ s.nextItem < 1 := by omega
  rw [deleteNode, if_neg some_, linked.lookup_iff.2 member]
  dsimp only
  by_cases isLast : s.nextItem - 1 = slot
  · -- the deleted slot is the last one, and nothing is moved
    have same : (fun n : Nat × Nat => (n.1, if n.2 = slot then slot else n.2)) = id := by
      funext n
      by_cases here : n.2 = slot
      · simp [← here]
      · simp [here]
    rw [if_neg (not_not.2 isLast)]
    simp only [withoutNode, isLast, List.set_set, same, List.map_id]
  · -- the last item has a node of its own, which gets the deleted slot
    obtain ⟨⟨node', last⟩, inList, rfl⟩ := List.mem_map.1
      ((linked.used (s.nextItem - 1)).2 (by omega))
    have differs : (s.itemAt (s.nextItem - 1)).fp ≠ (s.itemAt slot).fp := by
      intro same
      have found := linked.lookup_fp inList
      rw [same, linked.lookup_fp member] at found
      have nodes := Option.some.inj found
      exact isLast (linked.slot_eq inList (nodes ▸ member))
    have found : (s.lruMap.erase (s.itemAt slot).fp).lookup (s.itemAt (s.nextItem - 1)).fp =
        some node' := by
      rw [AList.lookup_erase_ne differs]
      exact linked.lookup_fp inList
    have lists : (s.lruList.filter fun n => n.1 ≠ node).map
        (fun n => if n.1 = node' then (node', slot) else n) =
          (s.lruList.filter fun n => n.1 ≠ node).map fun n =>
            (n.1, if n.2 = s.nextItem - 1 then slot else n.2) := by
      apply List.map_congr_left
      intro n other
      have inList' := (linked.slot_ne member other).1
      by_cases isNode : n.1 = node'
      · have place : n.2 = s.nextItem - 1 :=
          linked.slot_eq (isNode ▸ inList' : (node', n.2) ∈ s.lruList) inList
        simp [isNode, place]
      · have place : n.2 ≠ s.nextItem - 1 := fun same =>
          isNode (linked.node_eq (same ▸ inList' : (n.1, s.nextItem - 1) ∈ s.lruList) inList)
        simp [isNode, place]
    rw [if_pos isLast]
    simp only [moveNode, found, lists, withoutNode]

/-- Where the items are after a deletion. -/
theorem itemAt_withoutNode {node slot : Nat} (member : (node, slot) ∈ s.lruList) (other : Nat) :
    (s.withoutNode node slot).itemAt other =
      if other = s.nextItem - 1 then LruItem.zero s.valueSize
      else if other = slot then s.itemAt (s.nextItem - 1) else s.itemAt other := by
  have bound := linked.slot_lt member
  have below := (linked.used slot).1 (List.mem_map_of_mem member)
  have fits := linked.nextItem_le
  have lengths := linked.length_slots
  have last : s.nextItem - 1 < s.slots.length := by omega
  simp only [withoutNode, itemAt, List.getD_eq_getElem?_getD]
  by_cases isLast : other = s.nextItem - 1
  · simp [isLast, last]
  · rw [List.getElem?_set_ne (Ne.symm isLast), if_neg isLast]
    by_cases here : other = slot
    · subst here
      simp [bound]
    · rw [List.getElem?_set_ne (Ne.symm here), if_neg here]

/-- The other nodes keep their items, wherever they are. -/
theorem item_withoutNode {node slot : Nat} (member : (node, slot) ∈ s.lruList) {n : Nat × Nat}
    (other : n ∈ s.lruList.filter fun n => n.1 ≠ node) :
    (s.withoutNode node slot).itemAt (if n.2 = s.nextItem - 1 then slot else n.2) =
      s.itemAt n.2 := by
  have differs := (linked.slot_ne member other).2
  rw [linked.itemAt_withoutNode member]
  by_cases isLast : n.2 = s.nextItem - 1
  · have moved : slot ≠ s.nextItem - 1 := fun same => differs (isLast.trans same.symm)
    rw [if_pos isLast, if_neg moved, if_pos rfl, isLast]
  · rw [if_neg isLast, if_neg isLast, if_neg differs]

/-- **Deleting** takes the entry out. -/
theorem entries_withoutNode {node slot : Nat} (member : (node, slot) ∈ s.lruList) :
    (s.withoutNode node slot).entries = LruMap.others (s.itemAt slot).fp s.entries := by
  have list : (s.withoutNode node slot).lruList = (s.lruList.filter fun n => n.1 ≠ node).map
      fun n => (n.1, if n.2 = s.nextItem - 1 then slot else n.2) := rfl
  rw [linked.others_entries member, entries, list, List.map_map]
  apply List.map_congr_left
  intro n other
  exact congrArg entryOf (linked.item_withoutNode member other)

/-- A node without its slot is deleted. -/
theorem withoutNode {node slot : Nat} (member : (node, slot) ∈ s.lruList) :
    Linked (s.withoutNode node slot) := by
  have below := (linked.used slot).1 (List.mem_map_of_mem member)
  have fits := linked.nextItem_le
  have kept : ∀ n ∈ s.lruList.filter fun n => n.1 ≠ node, n ∈ s.lruList ∧ n.2 ≠ slot :=
    fun n other => linked.slot_ne member other
  have isKept : ∀ n ∈ s.lruList, n.2 ≠ slot → n ∈ s.lruList.filter fun n => n.1 ≠ node := by
    rintro ⟨other, place⟩ inList differs
    refine List.mem_filter.2 ⟨inList, decide_eq_true ?_⟩
    rintro rfl
    exact differs (linked.slot_eq inList member)
  have list : (s.withoutNode node slot).lruList = (s.lruList.filter fun n => n.1 ≠ node).map
      fun n => (n.1, if n.2 = s.nextItem - 1 then slot else n.2) := rfl
  have sublist : ((s.withoutNode node slot).lruList.map Prod.fst).Sublist
      (s.lruList.map Prod.fst) := by
    rw [list, List.map_map]
    exact List.filter_sublist.map Prod.fst
  constructor
  · simpa [LruStorage.withoutNode] using linked.length_slots
  · have bound : s.nextItem - 1 ≤ s.size := by omega
    exact bound
  · exact linked.nodes.sublist sublist
  · rw [list, List.map_map]
    apply List.Nodup.map_on _ ((List.Nodup.of_map _ linked.nodes).filter _)
    intro first inFirst second inSecond same
    apply List.inj_on_of_nodup_map linked.places (kept first inFirst).1 (kept second inSecond).1
    have one := (kept first inFirst).2
    have two := (kept second inSecond).2
    simp only [Function.comp] at same
    split at same
    · split at same
      · omega
      · exact absurd same.symm two
    · split at same
      · exact absurd same one
      · exact same
  · intro i
    rw [list, List.map_map, List.mem_map]
    constructor
    · rintro ⟨n, other, rfl⟩
      have inRange := (linked.used n.2).1 (List.mem_map_of_mem (kept n other).1)
      have differs := (kept n other).2
      show (if n.2 = s.nextItem - 1 then slot else n.2) < s.nextItem - 1
      split
      · omega
      · omega
    · intro inRange
      have inRange' : i < s.nextItem - 1 := inRange
      by_cases here : i = slot
      · -- the last item has moved here
        obtain ⟨n, inList, place⟩ := List.mem_map.1 ((linked.used (s.nextItem - 1)).2 (by omega))
        refine ⟨n, isKept n inList (by omega), ?_⟩
        simp [place, here]
      · obtain ⟨n, inList, place⟩ := List.mem_map.1 ((linked.used i).2 (by omega))
        refine ⟨n, isKept n inList (by omega), ?_⟩
        simp [place, Nat.ne_of_lt inRange']
  · intro other isNode
    exact linked.fresh other (sublist.subset isNode)
  · intro fp other
    have pairs : ∀ place, (other, place) ∈ (s.withoutNode node slot).lruList ↔
        ∃ n ∈ s.lruList.filter fun n => n.1 ≠ node, n.1 = other ∧
          (if n.2 = s.nextItem - 1 then slot else n.2) = place := by
      intro place
      rw [list, List.mem_map]
      simp only [Prod.mk.injEq]
    have map : (s.withoutNode node slot).lruMap = s.lruMap.erase (s.itemAt slot).fp := rfl
    rw [map]
    constructor
    · intro found
      have notErased : fp ≠ (s.itemAt slot).fp := by
        rintro rfl
        rw [AList.lookup_erase] at found
        cases found
      rw [AList.lookup_erase_ne notErased, linked.mapped] at found
      obtain ⟨place, inList, isFp⟩ := found
      have differs : place ≠ slot := by
        rintro rfl
        exact notErased isFp.symm
      have other' := isKept (other, place) inList differs
      exact ⟨_, (pairs _).2 ⟨(other, place), other', rfl, rfl⟩,
        (congrArg LruItem.fp (linked.item_withoutNode member other')).trans isFp⟩
    · rintro ⟨place, inList, isFp⟩
      obtain ⟨n, inFilter, rfl, rfl⟩ := (pairs place).1 inList
      rw [linked.item_withoutNode member inFilter] at isFp
      have found := linked.lookup_fp (kept n inFilter).1
      rw [isFp] at found
      have notErased : fp ≠ (s.itemAt slot).fp := by
        rintro rfl
        rw [linked.lookup_fp member] at found
        have same := Option.some.inj found
        exact (of_decide_eq_true (List.mem_filter.1 inFilter).2) same.symm
      rw [AList.lookup_erase_ne notErased]
      exact found

end Linked

end LruStorage

end Mozkey.Storage
