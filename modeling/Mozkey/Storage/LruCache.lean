import Mathlib

/-!
# The cache `LruCache`

A cache keeps elements in blocks that it allocates when it needs them.  An element is on the
free list, which is linked forwards, or on the LRU list, which is linked in both directions,
the most recently used element first.  A table leads from keys to the elements of the LRU list.

An insertion takes an element off the free list; when there is none and no block can be added,
it evicts the tail of the LRU list.  A failed `CHECK` ends the program.
-/

namespace Mozkey.Storage

/-- `LruCache::Element`. -/
structure Element (K V : Type) where
  next : Option Nat
  prev : Option Nat
  key : K
  value : V

/-- `LruCache`.  The elements of the blocks are numbered in the order of their allocation. -/
structure LruCache (K V : Type) where
  table : AList fun _ : K => Nat
  heap : Nat → Element K V
  freeList : Option Nat
  lruHead : Option Nat
  lruTail : Option Nat
  blockCount : Nat
  blockCapacity : Nat
  nextBlockSize : Nat
  maxElements : Nat

namespace LruCache

variable {K V : Type} [DecidableEq K]

/-- The number of blocks a cache may have. -/
def maxBlocks : Nat := 10

/-! ## Fields of elements -/

def update (s : LruCache K V) (e : Nat) (change : Element K V → Element K V) : LruCache K V :=
  { s with heap := Function.update s.heap e (change (s.heap e)) }

def setNext (s : LruCache K V) (e : Nat) (next : Option Nat) : LruCache K V :=
  s.update e fun element => { element with next := next }

def setPrev (s : LruCache K V) (e : Nat) (prev : Option Nat) : LruCache K V :=
  s.update e fun element => { element with prev := prev }

def setKey (s : LruCache K V) (e : Nat) (key : K) : LruCache K V :=
  s.update e fun element => { element with key := key }

def modifyValue (s : LruCache K V) (e : Nat) (change : V → V) : LruCache K V :=
  s.update e fun element => { element with value := change element.value }

/-- A write through a pointer that may be null. -/
def setNextAt (s : LruCache K V) (p : Option Nat) (next : Option Nat) : LruCache K V :=
  match p with
  | some e => s.setNext e next
  | none => s

def setPrevAt (s : LruCache K V) (p : Option Nat) (prev : Option Nat) : LruCache K V :=
  match p with
  | some e => s.setPrev e prev
  | none => s

/-! ## The free list -/

/-- `PushFreeList`. -/
def pushFreeList (s : LruCache K V) (element : Nat) : LruCache K V :=
  let s := s.setPrev element none
  let s := s.setNext element s.freeList
  { s with freeList := some element }

/-- `PopFreeList`; `none` where the `CHECK` fails. -/
def popFreeList (s : LruCache K V) : Option (Option Nat × LruCache K V) :=
  match s.freeList with
  | none => some (none, s)
  | some r =>
      if (s.heap r).prev = none then
        let s := { s with freeList := (s.heap r).next }
        let s := s.setPrevAt s.freeList none
        some (some r, s.setNext r none)
      else none

/-- The size of the block after the next one. -/
def sizeAfter (blockCount blockCapacity nextBlockSize maxElements : Nat) : Nat :=
  let blocksRemaining := maxBlocks - blockCount
  if 0 < blocksRemaining then
    let next := nextBlockSize <<< 1
    let elementsRemaining := maxElements - blockCapacity
    let next :=
      if elementsRemaining / blocksRemaining < next then elementsRemaining / blocksRemaining
      else next
    if maxElements < blockCapacity + next then maxElements - blockCapacity else next
  else nextBlockSize

/-- `AddBlock`. -/
def addBlock (s : LruCache K V) : LruCache K V :=
  if s.blockCount < maxBlocks ∧ s.blockCapacity < s.maxElements then
    let base := s.blockCapacity
    let s := { s with blockCapacity := s.blockCapacity + s.nextBlockSize }
    let s := (List.range s.nextBlockSize).foldl (fun s i => s.pushFreeList (base + i)) s
    let s := { s with blockCount := s.blockCount + 1 }
    { s with
      nextBlockSize := sizeAfter s.blockCount s.blockCapacity s.nextBlockSize s.maxElements }
  else s

/-- `NextFreeElement`. -/
def nextFreeElement (s : LruCache K V) : Option (Option Nat × LruCache K V) := do
  let (r, s) ← s.popFreeList
  match r with
  | some e => return (some e, s)
  | none => s.addBlock.popFreeList

/-! ## The LRU list -/

/-- `RemoveFromLRU`. -/
def removeFromLRU (s : LruCache K V) (element : Nat) : LruCache K V :=
  let s := if s.lruHead = some element then { s with lruHead := (s.heap element).next } else s
  let s := if s.lruTail = some element then { s with lruTail := (s.heap element).prev } else s
  let s := s.setNextAt (s.heap element).prev (s.heap element).next
  let s := s.setPrevAt (s.heap element).next (s.heap element).prev
  (s.setPrev element none).setNext element none

/-- `PushLRUHead`. -/
def pushLRUHead (s : LruCache K V) (element : Nat) : LruCache K V :=
  if s.lruHead = some element then s
  else
    let s := s.removeFromLRU element
    let s := s.setNext element s.lruHead
    let s := { s with lruHead := some element }
    let s := s.setPrevAt (s.heap element).next (some element)
    if s.lruTail = none then { s with lruTail := some element } else s

/-! ## Operations -/

/-- The loop of the constructor; it ends before the size reaches that of the cache. -/
def growBlockSize (maxElements : Nat) : Nat → Nat → Nat
  | 0, size => size
  | fuel + 1, size =>
      if size <<< maxBlocks < maxElements then growBlockSize maxElements fuel (size <<< 1) else size

/-- The size of the first block. -/
def firstBlockSize (maxElements : Nat) : Nat :=
  if maxElements ≤ 128 then maxElements else growBlockSize maxElements maxElements 64

/-- `LruCache(max_elements)`. -/
def new [Inhabited K] [Inhabited V] (maxElements : Nat) : LruCache K V where
  table := ∅
  heap := fun _ => ⟨none, none, default, default⟩
  freeList := none
  lruHead := none
  lruTail := none
  blockCount := 0
  blockCapacity := 0
  nextBlockSize := firstBlockSize maxElements
  maxElements := maxElements

/-- `LookupInternal`. -/
def lookupInternal (s : LruCache K V) (key : K) : Option Nat := s.table.lookup key

/-- `Evict`: whether an element was evicted; `none` where the `CHECK` fails. -/
def evict (s : LruCache K V) (e : Option Nat) : Option (Bool × LruCache K V) :=
  match e with
  | some e =>
      if (s.heap e).key ∈ s.table then
        let s := { s with table := s.table.erase (s.heap e).key }
        some (true, (s.removeFromLRU e).pushFreeList e)
      else none
  | none => some (false, s)

/-- The element that `Insert` will use: a free one, or that of the evicted tail. -/
def takeElement (s : LruCache K V) : Option (Nat × LruCache K V) := do
  let (e, s) ← s.nextFreeElement
  match e with
  | some e => return (e, s)
  | none =>
      let (erased, s) ← s.evict s.lruTail
      guard erased
      let (e, s) ← s.nextFreeElement
      return (← e, s)

/-- The front of `Insert`, which evicts the element that has the key. -/
def evictKey (s : LruCache K V) (key : K) : Option (LruCache K V) :=
  match s.lookupInternal key with
  | some e => do
      let (erased, s) ← s.evict (some e)
      guard erased
      return s
  | none => some s

/-- `Insert(key)`. -/
def insertKey (s : LruCache K V) (key : K) : Option (Nat × LruCache K V) := do
  let s ← s.evictKey key
  let (e, s) ← s.takeElement
  let s := s.setKey e key
  let s := { s with table := s.table.insert key e }
  return (e, s.pushLRUHead e)

/-- `Insert(key, value)`. -/
def insert (s : LruCache K V) (key : K) (value : V) : Option (LruCache K V) := do
  let (e, s) ← s.insertKey key
  return s.modifyValue e fun _ => value

/-- `MutableLookup`: the element the pointer to the value leads to. -/
def mutableLookup (s : LruCache K V) (key : K) : Option Nat × LruCache K V :=
  match s.lookupInternal key with
  | some e => (some e, s.pushLRUHead e)
  | none => (none, s)

/-- `Lookup`. -/
def lookup (s : LruCache K V) (key : K) : Option V × LruCache K V :=
  let (e, s) := s.mutableLookup key
  (e.map fun e => (s.heap e).value, s)

/-- `LookupWithoutInsert`. -/
def lookupWithoutInsert (s : LruCache K V) (key : K) : Option V :=
  (s.lookupInternal key).map fun e => (s.heap e).value

/-- `Erase`. -/
def erase (s : LruCache K V) (key : K) : Option (Bool × LruCache K V) :=
  s.evict (s.lookupInternal key)

/-- The loop of `Clear`, over an iterator that knows the next element before the body runs;
`none` where it does not end. -/
def clearLoop : Nat → Option Nat → LruCache K V → Option (LruCache K V)
  | _, none, s => some s
  | 0, some _, _ => none
  | fuel + 1, some e, s => clearLoop fuel (s.heap e).next (s.pushFreeList e)

/-- `Clear`. -/
def clear (s : LruCache K V) : Option (LruCache K V) := do
  let s := { s with table := ∅ }
  let s ← clearLoop s.blockCapacity s.lruHead s
  return { s with lruHead := none, lruTail := none }

/-! ## Runs -/

/-- The operations.  The caller of `Insert(key)` and of `MutableLookup` may write to the value. -/
inductive Op (K V : Type)
  | insert (key : K) (value : V)
  | insertKey (key : K) (write : V → V)
  | lookup (key : K)
  | lookupWithoutInsert (key : K)
  | mutableLookup (key : K) (write : V → V)
  | erase (key : K)
  | clear

/-- One operation. -/
def step (s : LruCache K V) : Op K V → Option (LruCache K V)
  | .insert key value => s.insert key value
  | .insertKey key write => do
      let (e, s) ← s.insertKey key
      return s.modifyValue e write
  | .lookup key => some (s.lookup key).2
  | .lookupWithoutInsert _ => some s
  | .mutableLookup key write =>
      match s.mutableLookup key with
      | (some e, s) => some (s.modifyValue e write)
      | (none, s) => some s
  | .erase key => (s.erase key).map Prod.snd
  | .clear => s.clear

/-- A sequence of operations. -/
def run [Inhabited K] [Inhabited V] (maxElements : Nat) (ops : List (Op K V)) :
    Option (LruCache K V) :=
  ops.foldlM step (new maxElements)

end LruCache

end Mozkey.Storage
