import Mozkey.Base.Bits
import Mozkey.Lib.Best

/-!
# `LruStorage`

A file of fixed size is mapped into memory and holds a number of items in slots.  A used
item has a nonzero timestamp.  The storage keeps a list of the used slots, the most
recently used one first, and a map from fingerprints to the nodes of that list, and it
knows the first unused slot.

A pointer to an item is the number of its slot.  The nodes of the list have identities,
as the map holds iterators: a node keeps its identity when it is moved to the front and
when it gets another slot.  A step that the source leaves undefined (an iterator that
points nowhere) changes nothing here; it does not occur.

`Open` and `Clear` work on the bytes of the file, and so they do here.
-/

namespace Mozkey.Storage

/-! ## Items and files -/

/-- An item of the file: its fingerprint, its timestamp and its value. -/
structure LruItem where
  fp : UInt64
  timestamp : UInt32
  value : ByteString
  deriving DecidableEq, Repr

namespace LruItem

/-- An item whose bytes are zero. -/
def zero (valueSize : Nat) : LruItem := ⟨0, 0, List.replicate valueSize 0⟩

/-- The bytes of an item. -/
def bytes (item : LruItem) : ByteString :=
  storeUnaligned64 item.fp ++ storeUnaligned32 item.timestamp ++ item.value

end LruItem

def kMaxLruSize : Nat := 1000000
def kMaxValueSize : Nat := 1024
def kFileHeaderSize : Nat := 12
def kItemHeaderSize : Nat := 12

/-- The header of a file. -/
def lruHeader (valueSize size : Nat) (seed : UInt32) : ByteString :=
  storeUnaligned32 (UInt32.ofNat valueSize) ++ storeUnaligned32 (UInt32.ofNat size) ++
    storeUnaligned32 seed

/-- The bytes of a file. -/
def lruFile (valueSize size : Nat) (seed : UInt32) (slots : List LruItem) : ByteString :=
  lruHeader valueSize size seed ++ slots.flatMap LruItem.bytes

/-- The sizes that a file may have. -/
def ValidSizes (valueSize size : Nat) : Prop :=
  valueSize % 4 = 0 ∧ 0 < valueSize ∧ valueSize ≤ kMaxValueSize ∧ 0 < size ∧ size ≤ kMaxLruSize

instance instDecidableValidSizes (valueSize size : Nat) : Decidable (ValidSizes valueSize size) :=
  inferInstanceAs (Decidable (_ ∧ _ ∧ _ ∧ _ ∧ _))

/-- `LruStorage::CreateStorageFile`: the file that it writes. -/
def createStorageFile (valueSize size : Nat) (seed : UInt32) : Option ByteString :=
  if ValidSizes valueSize size then
    some (lruFile valueSize size seed (List.replicate size (LruItem.zero valueSize)))
  else none

/-- The items at a pointer. -/
def loadItems (valueSize : Nat) : Nat → ByteString → List LruItem
  | 0, _ => []
  | n + 1, ptr =>
      { fp := loadUnaligned64 ptr
        timestamp := loadUnaligned32At (ptr.drop 8)
        value := (ptr.drop kItemHeaderSize).take valueSize } ::
        loadItems valueSize n (ptr.drop (kItemHeaderSize + valueSize))

/-! ## The storage -/

/-- The storage.  A node of the list is its identity and the slot it points to. -/
structure LruStorage where
  valueSize : Nat
  size : Nat
  seed : UInt32
  slots : List LruItem
  nextItem : Nat
  lruList : List (Nat × Nat)
  lruMap : AList fun _ : UInt64 => Nat
  nextNode : Nat

namespace LruStorage

/-- The item in a slot. -/
def itemAt (s : LruStorage) (slot : Nat) : LruItem :=
  s.slots.getD slot (LruItem.zero s.valueSize)

/-- The bytes of the mapped file. -/
def file (s : LruStorage) : ByteString := lruFile s.valueSize s.size s.seed s.slots

/-! ## Opening -/

/-- `CompareByTimeStamp`: the newest items come first. -/
def newer (a b : LruItem) : Bool := b.timestamp < a.timestamp

/-- The loop of `Open` over the sorted slots, as far as it fills the list and the map. -/
def addSlot (s : LruStorage) (slot : Nat) : LruStorage :=
  if (s.itemAt slot).timestamp ≠ 0 then
    { s with
      lruList := s.lruList ++ [(s.nextNode, slot)]
      lruMap := s.lruMap.insert (s.itemAt slot).fp s.nextNode
      nextNode := s.nextNode + 1 }
  else s

/-- What `Open` does once the sizes are checked. -/
def openSlots (valueSize size : Nat) (seed : UInt32) (slots : List LruItem) : LruStorage :=
  let closed : LruStorage :=
    { valueSize := valueSize, size := size, seed := seed, slots := slots
      nextItem := slots.length, lruList := [], lruMap := ∅, nextNode := 0 }
  let ary := Lib.sortBy (fun a b => newer (closed.itemAt a) (closed.itemAt b))
    (List.range slots.length)
  { ary.foldl addSlot closed with
    nextItem :=
      (ary.find? fun slot => (closed.itemAt slot).timestamp = 0).getD slots.length }

/-- `LruStorage::Open`, of the mapped file. -/
def open_ (mmap : ByteString) : Option LruStorage :=
  let valueSize := (loadUnaligned32At mmap).toNat
  let size := (loadUnaligned32At (mmap.drop 4)).toNat
  if ¬ ValidSizes valueSize size then none
  else if mmap.length ≠ kFileHeaderSize + (kItemHeaderSize + valueSize) * size then none
  else
    some (openSlots valueSize size (loadUnaligned32At (mmap.drop 8))
      (loadItems valueSize size (mmap.drop kFileHeaderSize)))

/-! ## Using an item -/

/-- Writes to the item of a node and moves the node to the front. -/
def useNode (s : LruStorage) (node : Nat) (write : LruItem → LruItem) : LruStorage :=
  match s.lruList.lookup node with
  | none => s
  | some slot =>
      { s with
        slots := s.slots.set slot (write (s.itemAt slot))
        lruList := (node, slot) :: s.lruList.filter fun n => n.1 ≠ node }

/-- `LruStorage::Lookup`: the value and the time of the last access. -/
def lookup (s : LruStorage) (fp : UInt64) : Option (ByteString × UInt32) :=
  match s.lruMap.lookup fp with
  | none => none
  | some node =>
      (s.lruList.lookup node).map fun slot => ((s.itemAt slot).value, (s.itemAt slot).timestamp)

/-- `LruStorage::GetAllValues`. -/
def getAllValues (s : LruStorage) : List ByteString :=
  s.lruList.map fun n => (s.itemAt n.2).value

/-- `LruStorage::Touch`. -/
def touch (s : LruStorage) (fp : UInt64) (now : UInt32) : LruStorage × Bool :=
  match s.lruMap.lookup fp with
  | none => (s, false)
  | some node => (s.useNode node fun item => { item with timestamp := now }, true)

/-- `LruStorage::Insert`; there is no value for a null pointer. -/
def insert (s : LruStorage) (fp : UInt64) (value : Option ByteString) (now : UInt32) :
    LruStorage × Bool :=
  match value with
  | none => (s, false)
  | some value =>
      match s.lruMap.lookup fp with
      | some node => (s.useNode node fun _ => ⟨fp, now, value⟩, true)
      | none =>
          if s.lruMap.entries.length ≥ s.size ∨ s.nextItem = s.slots.length then
            match s.lruList.getLast? with
            | none => (s, true)
            | some (node, slot) =>
                ({ s.useNode node fun _ => ⟨fp, now, value⟩ with
                    lruMap := (s.lruMap.erase (s.itemAt slot).fp).insert fp node }, true)
          else if s.nextItem < s.slots.length then
            ({ s with
                slots := s.slots.set s.nextItem ⟨fp, now, value⟩
                lruList := (s.nextNode, s.nextItem) :: s.lruList
                lruMap := s.lruMap.insert fp s.nextNode
                nextItem := s.nextItem + 1
                nextNode := s.nextNode + 1 }, true)
          else (s, false)

/-- `LruStorage::TryInsert`. -/
def tryInsert (s : LruStorage) (fp : UInt64) (value : ByteString) (now : UInt32) :
    LruStorage × Bool :=
  match s.lruMap.lookup fp with
  | none => (s, true)
  | some node => (s.useNode node fun _ => ⟨fp, now, value⟩, true)

/-! ## Deleting -/

/-- Gives the node of a fingerprint another slot: `*lru_map_[fp] = slot`. -/
def moveNode (s : LruStorage) (fp : UInt64) (slot : Nat) : LruStorage :=
  match s.lruMap.lookup fp with
  | none => s
  | some node =>
      { s with lruList := s.lruList.map fun n => if n.1 = node then (node, slot) else n }

/-- `LruStorage::Delete` of a fingerprint and its node. -/
def deleteNode (s : LruStorage) (fp : UInt64) (node : Nat) : LruStorage × Bool :=
  if s.nextItem < 1 then (s, false)
  else
    match s.lruList.lookup node with
    | none => (s, true)
    | some deletedItemPos =>
        let last := s.nextItem - 1
        let erased :=
          { s with
            nextItem := last
            lruMap := s.lruMap.erase fp
            lruList := s.lruList.filter fun n => n.1 ≠ node }
        let moved :=
          if last ≠ deletedItemPos then
            { erased with slots := s.slots.set deletedItemPos (s.itemAt last) }.moveNode
              (s.itemAt last).fp deletedItemPos
          else erased
        ({ moved with slots := moved.slots.set last (LruItem.zero s.valueSize) }, true)

/-- `LruStorage::Delete` of a fingerprint. -/
def delete (s : LruStorage) (fp : UInt64) : LruStorage × Bool :=
  match s.lruMap.lookup fp with
  | none => (s, true)
  | some node => s.deleteNode fp node

/-- The loop of `DeleteElementsBefore`, with at most `fuel` iterations; each of them deletes
a node. -/
def deleteBefore (timestamp : UInt32) : Nat → LruStorage → Nat → LruStorage × Nat
  | 0, s, deleted => (s, deleted)
  | fuel + 1, s, deleted =>
      match s.lruList.getLast? with
      | none => (s, deleted)
      | some (node, slot) =>
          if (s.itemAt slot).timestamp ≥ timestamp then (s, deleted)
          else
            match s.deleteNode (s.itemAt slot).fp node with
            | (s, true) => deleteBefore timestamp fuel s (deleted + 1)
            | (s, false) => (s, deleted)

/-- `LruStorage::DeleteElementsBefore`: the number of deleted items. -/
def deleteElementsBefore (s : LruStorage) (timestamp : UInt32) : LruStorage × Nat :=
  deleteBefore timestamp s.lruList.length s 0

/-! ## Clearing and merging -/

/-- Where `Clear` begins to fill the file with zeros: `sizeof(value_size_) + sizeof(size_) +
sizeof(seed_)`, where the first two are of type `size_t`. -/
def clearOffset : Nat := 8 + 8 + 4

/-- `LruStorage::Clear`. -/
def clear (s : LruStorage) : LruStorage × Bool :=
  if s.lruList = [] then (s, true)
  else if clearOffset ≥ s.file.length then (s, false)
  else
    match open_ (s.file.take clearOffset ++ List.replicate (s.file.length - clearOffset) 0) with
    | none => (s, true)
    | some opened => (opened, true)

/-- Keeps the first item of each fingerprint that was not seen before. -/
def keepFirst : List UInt64 → List LruItem → List LruItem
  | _, [] => []
  | seen, item :: rest =>
      if item.fp ∈ seen then keepFirst seen rest else item :: keepFirst (item.fp :: seen) rest

/-- The items of two files in the order in which `Merge` copies them. -/
def mergedItems (ours theirs : List LruItem) : List LruItem :=
  keepFirst [] (Lib.sortBy newer (ours ++ theirs))

/-- `LruStorage::Merge`. -/
def merge (s target : LruStorage) : LruStorage × Bool :=
  if target.valueSize ≠ s.valueSize then (s, false)
  else if s.seed ≠ target.seed then (s, false)
  else
    let copied := (mergedItems s.slots target.slots).take s.slots.length
    let merged :=
      { s with
        slots := copied ++
          List.replicate (s.slots.length - copied.length) (LruItem.zero s.valueSize) }
    match open_ merged.file with
    | none => (merged, false)
    | some opened => (opened, true)

/-- `LruStorage::Merge` of a file: the storage after it, which is the same where the file
cannot be opened. -/
def mergeFile (s : LruStorage) (mmap : ByteString) : LruStorage :=
  ((open_ mmap).map fun target => (s.merge target).1).getD s

end LruStorage

end Mozkey.Storage
