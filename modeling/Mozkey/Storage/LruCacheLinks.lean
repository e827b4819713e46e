import Mozkey.Storage.LruCache
import Mozkey.Lib.LinkedList

/-!
# The lists of `LruCache`

Every element of the blocks is in exactly one of the two lists, the LRU list is doubly linked,
and the table leads from a key to the element of the LRU list that has it (`Consistent`).  The
primitives that push, pop and remove elements are stated on the lists of their elements.
-/

namespace Mozkey.Storage

open Mozkey.Lib

namespace LruCache

variable {K V : Type}

def nextOf (s : LruCache K V) (e : Nat) : Option Nat := (s.heap e).next
def prevOf (s : LruCache K V) (e : Nat) : Option Nat := (s.heap e).prev
def keyOf (s : LruCache K V) (e : Nat) : K := (s.heap e).key

/-- The two lists: the LRU list, and the free list, whose elements have no links backwards. -/
structure Lists (s : LruCache K V) (order free : List Nat) : Prop where
  lru : DoublyLinked s.nextOf s.prevOf s.lruHead s.lruTail order
  freeLeads : Leads s.nextOf s.freeList free none
  unlinked : ∀ e ∈ free, s.prevOf e = none
  nodup : (order ++ free).Nodup

/-- **The structure of the cache**: every allocated element is in one of the lists, and the table
maps a key to the element of the LRU list that has it. -/
structure Consistent [DecidableEq K] (s : LruCache K V) (order free : List Nat) : Prop extends Lists s order free where
  allocated : ∀ e, e ∈ order ++ free ↔ e < s.blockCapacity
  mapped : ∀ key e, s.table.lookup key = some e ↔ e ∈ order ∧ s.keyOf e = key

/-- Nothing but the links of elements, and where the lists start and end, differs. -/
structure SameContents (s s' : LruCache K V) : Prop where
  table : s'.table = s.table
  keyOf : s'.keyOf = s.keyOf
  blockCount : s'.blockCount = s.blockCount
  blockCapacity : s'.blockCapacity = s.blockCapacity
  nextBlockSize : s'.nextBlockSize = s.nextBlockSize
  maxElements : s'.maxElements = s.maxElements

namespace SameContents

theorem refl (s : LruCache K V) : SameContents s s := ⟨rfl, rfl, rfl, rfl, rfl, rfl⟩

theorem trans {s s' s'' : LruCache K V} (first : SameContents s s') (second : SameContents s' s'') :
    SameContents s s'' :=
  ⟨second.table.trans first.table, second.keyOf.trans first.keyOf,
    second.blockCount.trans first.blockCount, second.blockCapacity.trans first.blockCapacity,
    second.nextBlockSize.trans first.nextBlockSize, second.maxElements.trans first.maxElements⟩

end SameContents

/-! ## Fields -/

section
variable (s : LruCache K V) (e : Nat) (link : Option Nat)

@[simp] theorem nextOf_setNext : (s.setNext e link).nextOf = Function.update s.nextOf e link := by
  funext p
  by_cases same : p = e
  · subst same
    simp [nextOf, setNext, update]
  · simp [nextOf, setNext, update, same]

@[simp] theorem prevOf_setPrev : (s.setPrev e link).prevOf = Function.update s.prevOf e link := by
  funext p
  by_cases same : p = e
  · subst same
    simp [prevOf, setPrev, update]
  · simp [prevOf, setPrev, update, same]

@[simp] theorem prevOf_setNext : (s.setNext e link).prevOf = s.prevOf := by
  funext p
  by_cases same : p = e
  · subst same
    simp [prevOf, setNext, update]
  · simp [prevOf, setNext, update, same]

@[simp] theorem nextOf_setPrev : (s.setPrev e link).nextOf = s.nextOf := by
  funext p
  by_cases same : p = e
  · subst same
    simp [nextOf, setPrev, update]
  · simp [nextOf, setPrev, update, same]

theorem sameContents_setNext : SameContents s (s.setNext e link) := by
  refine ⟨rfl, ?_, rfl, rfl, rfl, rfl⟩
  funext p
  by_cases same : p = e
  · subst same
    simp [keyOf, setNext, update]
  · simp [keyOf, setNext, update, same]

theorem sameContents_setPrev : SameContents s (s.setPrev e link) := by
  refine ⟨rfl, ?_, rfl, rfl, rfl, rfl⟩
  funext p
  by_cases same : p = e
  · subst same
    simp [keyOf, setPrev, update]
  · simp [keyOf, setPrev, update, same]

end

/-! ## Pushing to and popping from the free list -/

section
variable {s : LruCache K V} {order free front back : List Nat} {e : Nat}

theorem sameContents_pushFreeList (s : LruCache K V) (e : Nat) :
    SameContents s (s.pushFreeList e) := by
  have first := sameContents_setPrev s e none
  have second := sameContents_setNext (s.setPrev e none) e s.freeList
  exact (first.trans second).trans ⟨rfl, rfl, rfl, rfl, rfl, rfl⟩

theorem nextOf_pushFreeList (s : LruCache K V) (e : Nat) :
    (s.pushFreeList e).nextOf = Function.update s.nextOf e s.freeList := by
  have pushed : (s.pushFreeList e).nextOf = ((s.setPrev e none).setNext e s.freeList).nextOf := rfl
  rw [pushed, nextOf_setNext, nextOf_setPrev]

theorem prevOf_pushFreeList (s : LruCache K V) (e : Nat) :
    (s.pushFreeList e).prevOf = Function.update s.prevOf e none := by
  have pushed : (s.pushFreeList e).prevOf = ((s.setPrev e none).setNext e s.freeList).prevOf := rfl
  rw [pushed, prevOf_setNext, prevOf_setPrev]

/-- The links of an element outside of a list may change. -/
theorem doublyLinked_update {next prev : Nat → Option Nat} {head tail : Option Nat}
    (outside : e ∉ order) (linked : DoublyLinked next prev head tail order) (link link' : Option Nat) :
    DoublyLinked (Function.update next e link) (Function.update prev e link') head tail order :=
  ⟨linked.forward.update_of_not_mem outside,
    linked.backward.update_of_not_mem (fun member => outside (List.mem_reverse.1 member))⟩

/-- An element of no list is pushed to the free list. -/
theorem Lists.pushFreeList (lists : Lists s order free) (fresh : e ∉ order ++ free) :
    Lists (s.pushFreeList e) order (e :: free) := by
  obtain ⟨notInOrder, notInFree⟩ := not_or.1 fun or_ => fresh (List.mem_append.2 or_)
  refine ⟨?_, ?_, ?_, ?_⟩
  · rw [nextOf_pushFreeList, prevOf_pushFreeList]
    exact doublyLinked_update notInOrder lists.lru _ _
  · rw [nextOf_pushFreeList]
    exact lists.freeLeads.cons notInFree
  · rw [prevOf_pushFreeList]
    intro f member
    rcases List.mem_cons.1 member with rfl | inFree
    · exact Function.update_self ..
    · rw [Function.update_of_ne fun same : f = e => notInFree (same ▸ inFree)]
      exact lists.unlinked f inFree
  · exact (List.perm_middle.nodup_iff).2 (List.nodup_cons.2 ⟨fresh, lists.nodup⟩)

/-- An element that was taken off its list. -/
structure Taken (s : LruCache K V) (order free : List Nat) (e : Nat) : Prop extends
    Lists s order free where
  fresh : e ∉ order ++ free
  next : s.nextOf e = none
  prev : s.prevOf e = none

theorem popFreeList_nil (lists : Lists s order []) : s.popFreeList = some (none, s) := by
  have empty : s.freeList = none := lists.freeLeads
  rw [popFreeList, empty]

/-- The first element of the free list is popped. -/
theorem popFreeList_cons (lists : Lists s order (e :: free)) :
    ∃ s', s.popFreeList = some (some e, s') ∧ Taken s' order free e ∧ SameContents s s' := by
  obtain ⟨isFirst, behind⟩ := lists.freeLeads
  have fresh : e ∉ order ++ free :=
    (List.nodup_cons.1 (List.perm_middle.nodup_iff.1 lists.nodup)).1
  obtain ⟨notInOrder, notInFree⟩ := not_or.1 fun or_ => fresh (List.mem_append.2 or_)
  have noPrev : (s.heap e).prev = none := lists.unlinked e List.mem_cons_self
  let popped : LruCache K V := { s with freeList := s.nextOf e }
  -- setting the backward link of the next free element to none changes nothing
  let cleared : LruCache K V := popped.setPrevAt (s.nextOf e) none
  have result : s.popFreeList = some (some e, cleared.setNext e none) := by
    rw [popFreeList, isFirst]
    dsimp only
    rw [if_pos noPrev]
    rfl
  have clearedSpec : cleared.nextOf = s.nextOf ∧ cleared.prevOf = s.prevOf ∧
      SameContents s cleared ∧ cleared.lruHead = s.lruHead ∧ cleared.lruTail = s.lruTail ∧
        cleared.freeList = s.nextOf e := by
    dsimp only [cleared]
    cases isNext : s.nextOf e with
    | some first =>
      have member : first ∈ free := by
        have isHead := behind.start_eq
        rw [isNext] at isHead
        exact List.mem_of_mem_head? isHead.symm
      have unlinked : s.prevOf first = none :=
        lists.unlinked first (List.mem_cons_of_mem _ member)
      refine ⟨?_, ?_, ?_, rfl, rfl, isNext⟩
      · rw [setPrevAt, nextOf_setPrev]
        rfl
      · rw [setPrevAt, prevOf_setPrev]
        exact (congrArg _ unlinked.symm).trans (Function.update_eq_self first s.prevOf)
      · have contents : SameContents s popped := ⟨rfl, rfl, rfl, rfl, rfl, rfl⟩
        exact contents.trans (sameContents_setPrev popped first none)
    | none => exact ⟨rfl, rfl, ⟨rfl, rfl, rfl, rfl, rfl, rfl⟩, rfl, rfl, isNext⟩
  obtain ⟨sameNext, samePrev, contents, sameHead, sameTail, isFree⟩ := clearedSpec
  refine ⟨_, result, ⟨⟨?_, ?_, ?_, ?_⟩, fresh, ?_, ?_⟩,
    contents.trans (sameContents_setNext cleared e none)⟩
  · have keep : Function.update s.prevOf e (s.prevOf e) = s.prevOf := Function.update_eq_self e _
    rw [nextOf_setNext, prevOf_setNext, sameNext, samePrev, ← keep]
    have linked := doublyLinked_update notInOrder lists.lru none (s.prevOf e)
    rw [← sameHead, ← sameTail] at linked
    exact linked
  · rw [nextOf_setNext, sameNext]
    have behind' : Leads (Function.update s.nextOf e none) (s.nextOf e) free none :=
      behind.update_of_not_mem notInFree
    rw [← isFree] at behind'
    exact behind'
  · intro f member
    rw [prevOf_setNext, samePrev]
    exact lists.unlinked f (List.mem_cons_of_mem _ member)
  · exact (List.nodup_cons.1 (List.perm_middle.nodup_iff.1 lists.nodup)).2
  · rw [nextOf_setNext, Function.update_self]
  · rw [prevOf_setNext, samePrev]
    exact noPrev

/-! ## Adding a block -/

theorem sameContents_pushAll (s : LruCache K V) (elements : List Nat) :
    SameContents s (elements.foldl LruCache.pushFreeList s) := by
  induction elements generalizing s with
  | nil => exact .refl s
  | cons e elements ih =>
      rw [List.foldl_cons]
      exact (sameContents_pushFreeList s e).trans (ih _)

/-- The elements of a new block are pushed one after another. -/
theorem Lists.pushAll {s : LruCache K V} {order free : List Nat} (lists : Lists s order free)
    {elements : List Nat} (fresh : ∀ e ∈ elements, e ∉ order ++ free) (distinct : elements.Nodup) :
    Lists (elements.foldl LruCache.pushFreeList s) order (elements.reverse ++ free) := by
  induction elements generalizing s free with
  | nil => exact lists
  | cons e elements ih =>
      obtain ⟨first, others⟩ := List.forall_mem_cons.1 fresh
      obtain ⟨notMember, distinct'⟩ := List.nodup_cons.1 distinct
      have fresh' : ∀ f ∈ elements, f ∉ order ++ e :: free := by
        intro f member
        rw [List.mem_append, List.mem_cons]
        rintro (inOrder | rfl | inFree)
        · exact others f member (List.mem_append_left _ inOrder)
        · exact notMember member
        · exact others f member (List.mem_append_right _ inFree)
      rw [List.foldl_cons, List.reverse_cons, List.append_assoc]
      exact ih (lists.pushFreeList first) fresh' distinct'

/-- The numbers of the elements of the next block. -/
def nextBlock (s : LruCache K V) : List Nat :=
  (List.range s.nextBlockSize).map fun i => s.blockCapacity + i

theorem mem_nextBlock {s : LruCache K V} {e : Nat} :
    e ∈ s.nextBlock ↔ s.blockCapacity ≤ e ∧ e < s.blockCapacity + s.nextBlockSize := by
  simp only [nextBlock, List.mem_map, List.mem_range]
  constructor
  · rintro ⟨i, less, rfl⟩
    omega
  · rintro ⟨least, less⟩
    exact ⟨e - s.blockCapacity, by omega, by omega⟩

/-- What an added block is. -/
theorem addBlock_eq {s : LruCache K V}
    (room : s.blockCount < maxBlocks ∧ s.blockCapacity < s.maxElements) :
    ∃ count size, s.addBlock =
      { s.nextBlock.foldl LruCache.pushFreeList
          { s with blockCapacity := s.blockCapacity + s.nextBlockSize } with
        blockCount := count
        nextBlockSize := size } := by
  rw [addBlock, if_pos room]
  dsimp only
  rw [nextBlock, List.foldl_map]
  exact ⟨_, _, rfl⟩

/-- What adding a block does to the lists, when no element is free. -/
theorem addBlock_spec {s : LruCache K V} {order : List Nat} (lists : Lists s order [])
    (allocated : ∀ e, e ∈ order ↔ e < s.blockCapacity) :
    ∃ free, Lists s.addBlock order free ∧
      (∀ e, e ∈ order ++ free ↔ e < s.addBlock.blockCapacity) ∧ s.addBlock.table = s.table ∧
        s.addBlock.keyOf = s.keyOf ∧ s.addBlock.maxElements = s.maxElements := by
  by_cases room : s.blockCount < maxBlocks ∧ s.blockCapacity < s.maxElements
  · obtain ⟨count, size, added⟩ := addBlock_eq room
    let grown : LruCache K V := { s with blockCapacity := s.blockCapacity + s.nextBlockSize }
    have isGrown : Lists grown order [] := ⟨lists.lru, lists.freeLeads, lists.unlinked, lists.nodup⟩
    have fresh : ∀ e ∈ s.nextBlock, e ∉ order ++ [] := by
      intro e member inOrder
      rw [List.append_nil] at inOrder
      have below := (allocated e).1 inOrder
      have above := (mem_nextBlock.1 member).1
      omega
    have distinct : s.nextBlock.Nodup :=
      List.nodup_range.map fun i j same => Nat.add_left_cancel same
    have pushed := isGrown.pushAll fresh distinct
    have contents := sameContents_pushAll grown s.nextBlock
    rw [added]
    refine ⟨s.nextBlock.reverse ++ [],
      ⟨pushed.lru, pushed.freeLeads, pushed.unlinked, pushed.nodup⟩, ?_, contents.table,
      contents.keyOf, contents.maxElements⟩
    intro e
    have capacity : (s.nextBlock.foldl LruCache.pushFreeList grown).blockCapacity =
        s.blockCapacity + s.nextBlockSize := contents.blockCapacity
    rw [capacity, List.append_nil, List.mem_append, List.mem_reverse, mem_nextBlock, allocated]
    omega
  · rw [addBlock, if_neg room]
    refine ⟨[], lists, fun e => ?_, rfl, rfl, rfl⟩
    rw [List.append_nil]
    exact allocated e

/-- The first block of a cache that may hold an element is not empty. -/
def Sized (s : LruCache K V) : Prop :=
  s.blockCapacity = 0 → s.blockCount = 0 ∧ (0 < s.maxElements → 0 < s.nextBlockSize)

theorem SameContents.sized {s s' : LruCache K V} (contents : SameContents s s') (sized : Sized s) :
    Sized s' := by
  rw [Sized, contents.blockCapacity, contents.blockCount, contents.maxElements,
    contents.nextBlockSize]
  exact sized

/-- After `AddBlock` there is an element, unless the cache may hold none. -/
theorem sized_addBlock {s : LruCache K V} (sized : Sized s) :
    Sized s.addBlock ∧ (s.addBlock.blockCapacity = 0 → s.maxElements = 0) := by
  by_cases room : s.blockCount < maxBlocks ∧ s.blockCapacity < s.maxElements
  · obtain ⟨count, size, added⟩ := addBlock_eq room
    have capacity : s.addBlock.blockCapacity = s.blockCapacity + s.nextBlockSize := by
      rw [added]
      exact (sameContents_pushAll _ s.nextBlock).blockCapacity
    have nonempty : s.addBlock.blockCapacity ≠ 0 := by
      intro empty
      rw [capacity] at empty
      have first := (sized (by omega)).2 (by omega)
      omega
    exact ⟨fun empty => absurd empty nonempty, fun empty => absurd empty nonempty⟩
  · rw [addBlock, if_neg room]
    refine ⟨sized, fun empty => ?_⟩
    have count := (sized empty).1
    have blocks : (0 : Nat) < maxBlocks := by decide
    rw [count, empty] at room
    omega

/-! ## Removing from and pushing to the LRU list -/

/-- Links through a pointer that may be null. -/
theorem sameContents_setNextAt (s : LruCache K V) (p link : Option Nat) :
    SameContents s (s.setNextAt p link) := by
  cases p with
  | none => exact .refl s
  | some e => exact sameContents_setNext s e link

theorem sameContents_setPrevAt (s : LruCache K V) (p link : Option Nat) :
    SameContents s (s.setPrevAt p link) := by
  cases p with
  | none => exact .refl s
  | some e => exact sameContents_setPrev s e link

theorem nextOf_setPrevAt (s : LruCache K V) (p link : Option Nat) :
    (s.setPrevAt p link).nextOf = s.nextOf := by
  cases p with
  | none => rfl
  | some e => exact nextOf_setPrev s e link

theorem prevOf_setNextAt (s : LruCache K V) (p link : Option Nat) :
    (s.setNextAt p link).prevOf = s.prevOf := by
  cases p with
  | none => rfl
  | some e => exact prevOf_setNext s e link

/-- The lists of `RemoveFromLRU`, apart from their ends: the neighbours of an element are linked to
one another, and the element to nothing. -/
def unlinkElement (s : LruCache K V) (e : Nat) : LruCache K V :=
  let s := s.setNextAt (s.prevOf e) (s.nextOf e)
  let s := s.setPrevAt (s.nextOf e) (s.prevOf e)
  (s.setPrev e none).setNext e none

/-- Where the lists start and end is not read by links. -/
theorem unlinkElement_ends (s : LruCache K V) (e : Nat) (head tail : Option Nat) :
    ({ s with lruHead := head, lruTail := tail } : LruCache K V).unlinkElement e =
      { s.unlinkElement e with lruHead := head, lruTail := tail } := by
  have nextAt : ∀ (s : LruCache K V) (p link : Option Nat),
      ({ s with lruHead := head, lruTail := tail } : LruCache K V).setNextAt p link =
        { s.setNextAt p link with lruHead := head, lruTail := tail } := by
    intro s p link
    cases p <;> rfl
  have prevAt : ∀ (s : LruCache K V) (p link : Option Nat),
      ({ s with lruHead := head, lruTail := tail } : LruCache K V).setPrevAt p link =
        { s.setPrevAt p link with lruHead := head, lruTail := tail } := by
    intro s p link
    cases p <;> rfl
  have first := nextAt s (s.prevOf e) (s.nextOf e)
  unfold unlinkElement
  dsimp only
  have fields : ({ s with lruHead := head, lruTail := tail } : LruCache K V).prevOf e = s.prevOf e ∧
      ({ s with lruHead := head, lruTail := tail } : LruCache K V).nextOf e = s.nextOf e :=
    ⟨rfl, rfl⟩
  rw [fields.1, fields.2, first]
  have second := prevAt (s.setNextAt (s.prevOf e) (s.nextOf e))
    ((s.setNextAt (s.prevOf e) (s.nextOf e)).nextOf e)
    ((s.setNextAt (s.prevOf e) (s.nextOf e)).prevOf e)
  exact congrArg (fun s : LruCache K V => (s.setPrev e none).setNext e none) second

theorem removeFromLRU_eq (s : LruCache K V) (e : Nat) :
    s.removeFromLRU e =
      { s.unlinkElement e with
        lruHead := if s.lruHead = some e then s.nextOf e else s.lruHead
        lruTail := if s.lruTail = some e then s.prevOf e else s.lruTail } := by
  rw [← unlinkElement_ends]
  unfold removeFromLRU
  by_cases first : s.lruHead = some e <;> by_cases last : s.lruTail = some e
  · rw [if_pos first, if_pos first]
    dsimp only
    rw [if_pos last, if_pos last]
    rfl
  · rw [if_pos first, if_pos first]
    dsimp only
    rw [if_neg last, if_neg last]
    rfl
  · rw [if_neg first, if_neg first]
    dsimp only
    rw [if_pos last, if_pos last]
    rfl
  · rw [if_neg first, if_neg first]
    dsimp only
    rw [if_neg last, if_neg last]
    rfl

/-- An element that does not link to itself is cut out. -/
theorem unlinkElement_spec (s : LruCache K V) {e : Nat} (before : s.prevOf e ≠ some e) :
    (s.unlinkElement e).nextOf = Leads.unlinked s.nextOf s.prevOf e ∧
      (s.unlinkElement e).prevOf = Leads.unlinked s.prevOf s.nextOf e ∧
        SameContents s (s.unlinkElement e) ∧ (s.unlinkElement e).freeList = s.freeList := by
  have nextKept : (s.setNextAt (s.prevOf e) (s.nextOf e)).nextOf e = s.nextOf e := by
    cases isPrev : s.prevOf e with
    | none => rfl
    | some p =>
        have other : e ≠ p := fun same => before (same ▸ isPrev)
        rw [setNextAt, nextOf_setNext, Function.update_of_ne other]
  unfold unlinkElement
  dsimp only
  rw [nextKept, prevOf_setNextAt]
  refine ⟨?_, ?_, ?_, ?_⟩
  · rw [nextOf_setNext, nextOf_setPrev, nextOf_setPrevAt, Leads.unlinked]
    cases s.prevOf e with
    | none => rfl
    | some p => rw [setNextAt, nextOf_setNext]
  · rw [prevOf_setNext, prevOf_setPrev, Leads.unlinked]
    cases s.nextOf e with
    | none => rw [setPrevAt, prevOf_setNextAt]
    | some n => rw [setPrevAt, prevOf_setPrev, prevOf_setNextAt]
  · refine .trans ?_ (sameContents_setNext _ e none)
    refine .trans ?_ (sameContents_setPrev _ e none)
    exact (sameContents_setNextAt s _ _).trans (sameContents_setPrevAt _ _ _)
  · cases s.prevOf e <;> cases s.nextOf e <;> rfl

/-- **An element is removed** from the LRU list. -/
theorem Lists.removeFromLRU {s : LruCache K V} {front back free : List Nat} {e : Nat}
    (lists : Lists s (front ++ e :: back) free) :
    Taken (s.removeFromLRU e) (front ++ back) free e ∧ SameContents s (s.removeFromLRU e) := by
  have nodup := (List.nodup_append.1 lists.nodup).1
  have whole : (e :: (front ++ back) ++ free).Nodup :=
    ((List.perm_middle.append_right free).nodup_iff).1 lists.nodup
  obtain ⟨fresh, nodup'⟩ := List.nodup_cons.1 whole
  have inNone : ∀ {p}, p ∈ front ++ back ∨ p ∈ free → p ≠ e := by
    rintro p member rfl
    exact fresh (List.mem_append.2 member)
  have before : s.prevOf e ≠ some e := by
    intro self
    rw [lists.lru.prev_eq] at self
    exact inNone (Or.inl (List.mem_append_left _ (List.mem_of_getLast? self))) rfl
  have behind : s.nextOf e = back.head? := lists.lru.next_eq
  obtain ⟨sameNext, samePrev, contents, sameFree⟩ := unlinkElement_spec s before
  rw [removeFromLRU_eq]
  -- the elements of the free list keep their links
  have keeps : ∀ f ∈ free, ∀ next prev : Nat → Option Nat, (∀ p, prev e = some p → p ∈ front ++ back) →
      Leads.unlinked next prev e f = next f := by
    intro f inFree next prev inList
    unfold Leads.unlinked
    rw [Function.update_of_ne (inNone (Or.inr inFree))]
    cases isPrev : prev e with
    | none => rfl
    | some p =>
        refine Function.update_of_ne ?_ _ _
        rintro rfl
        exact (List.disjoint_of_nodup_append nodup') (inList _ isPrev) inFree
  have prevIn : ∀ p, s.prevOf e = some p → p ∈ front ++ back := by
    intro p isPrev
    rw [lists.lru.prev_eq] at isPrev
    exact List.mem_append_left _ (List.mem_of_getLast? isPrev)
  have nextIn : ∀ p, s.nextOf e = some p → p ∈ front ++ back := by
    intro p isNext
    rw [behind] at isNext
    exact List.mem_append_right _ (List.mem_of_mem_head? isNext)
  refine ⟨⟨⟨?_, ?_, ?_, nodup'⟩, fresh, ?_, ?_⟩, contents.trans ⟨rfl, rfl, rfl, rfl, rfl, rfl⟩⟩
  · have cut := lists.lru.unlink nodup
    rw [← sameNext, ← samePrev] at cut
    exact cut
  · have same := lists.freeLeads.congr fun f inFree => keeps f inFree s.nextOf s.prevOf prevIn
    rw [← sameNext, ← sameFree] at same
    exact same
  · intro f inFree
    have kept := keeps f inFree s.prevOf s.nextOf nextIn
    rw [← samePrev] at kept
    exact kept.trans (lists.unlinked f inFree)
  · have isNone : (s.unlinkElement e).nextOf e = none := by
      rw [sameNext, Leads.unlinked, Function.update_self]
    exact isNone
  · have isNone : (s.unlinkElement e).prevOf e = none := by
      rw [samePrev, Leads.unlinked, Function.update_self]
    exact isNone

/-- Removing an element that is on no list changes nothing. -/
theorem Taken.removeFromLRU {s : LruCache K V} {order free : List Nat} {e : Nat}
    (taken : Taken s order free e) :
    Taken (s.removeFromLRU e) order free e ∧ SameContents s (s.removeFromLRU e) := by
  have before : s.prevOf e ≠ some e := by
    rw [taken.prev]
    exact Option.some_ne_none e |>.symm
  obtain ⟨sameNext, samePrev, contents, sameFree⟩ := unlinkElement_spec s before
  have keepNext : (s.unlinkElement e).nextOf = s.nextOf := by
    rw [sameNext, Leads.unlinked, taken.prev]
    exact (congrArg _ taken.next.symm).trans (Function.update_eq_self e s.nextOf)
  have keepPrev : (s.unlinkElement e).prevOf = s.prevOf := by
    rw [samePrev, Leads.unlinked, taken.next]
    exact (congrArg _ taken.prev.symm).trans (Function.update_eq_self e s.prevOf)
  have notInOrder : e ∉ order := fun member => taken.fresh (List.mem_append_left _ member)
  have notHead : s.lruHead ≠ some e := by
    rw [taken.lru.forward.start_eq]
    exact fun isHead => notInOrder (List.mem_of_mem_head? isHead)
  have notTail : s.lruTail ≠ some e := by
    rw [taken.lru.backward.start_eq]
    exact fun isTail => notInOrder (List.mem_reverse.1 (List.mem_of_mem_head? isTail))
  rw [removeFromLRU_eq, if_neg notHead, if_neg notTail]
  have lru := taken.lru
  have leads := taken.freeLeads
  have unlinked := taken.unlinked
  have next := taken.next
  have prev := taken.prev
  rw [← keepNext] at next lru leads
  rw [← keepPrev] at prev lru unlinked
  rw [← sameFree] at leads
  exact ⟨⟨⟨lru, leads, unlinked, taken.nodup⟩, taken.fresh, next, prev⟩,
    contents.trans ⟨rfl, rfl, rfl, rfl, rfl, rfl⟩⟩

/-- The end of `PushLRUHead`, for an element that is on no list. -/
def linkHead (s : LruCache K V) (e : Nat) : LruCache K V :=
  let s := s.setNext e s.lruHead
  let s := { s with lruHead := some e }
  let s := s.setPrevAt (s.nextOf e) (some e)
  if s.lruTail = none then { s with lruTail := some e } else s

theorem pushLRUHead_eq (s : LruCache K V) (e : Nat) :
    s.pushLRUHead e = if s.lruHead = some e then s else (s.removeFromLRU e).linkHead e := rfl

/-- The fields after an element is linked in front. -/
theorem linkHead_spec (s : LruCache K V) (e : Nat) :
    (s.linkHead e).nextOf = Function.update s.nextOf e s.lruHead ∧
      (s.linkHead e).prevOf = DoublyLinked.linkedBack s.prevOf s.lruHead e ∧
        (s.linkHead e).lruHead = some e ∧
          (s.linkHead e).lruTail = (if s.lruTail = none then some e else s.lruTail) ∧
            (s.linkHead e).freeList = s.freeList ∧ SameContents s (s.linkHead e) := by
  let pointed : LruCache K V := { s.setNext e s.lruHead with lruHead := some e }
  have isNext : pointed.nextOf e = s.lruHead := by
    have fields : pointed.nextOf = (s.setNext e s.lruHead).nextOf := rfl
    rw [fields, nextOf_setNext, Function.update_self]
  have linked : s.linkHead e =
      if s.lruTail = none then { pointed.setPrevAt s.lruHead (some e) with lruTail := some e }
      else pointed.setPrevAt s.lruHead (some e) := by
    have unfolded : s.linkHead e =
        if (pointed.setPrevAt (pointed.nextOf e) (some e)).lruTail = none then
          { pointed.setPrevAt (pointed.nextOf e) (some e) with lruTail := some e }
        else pointed.setPrevAt (pointed.nextOf e) (some e) := rfl
    rw [unfolded, isNext]
    cases s.lruHead <;> rfl
  have next : (pointed.setPrevAt s.lruHead (some e)).nextOf =
      Function.update s.nextOf e s.lruHead := by
    rw [nextOf_setPrevAt]
    exact nextOf_setNext s e s.lruHead
  have prev : (pointed.setPrevAt s.lruHead (some e)).prevOf =
      DoublyLinked.linkedBack s.prevOf s.lruHead e := by
    have fields : pointed.prevOf = s.prevOf := prevOf_setNext s e s.lruHead
    cases s.lruHead with
    | none => exact fields
    | some first =>
        rw [setPrevAt, prevOf_setPrev, fields]
        rfl
  have others : (pointed.setPrevAt s.lruHead (some e)).lruHead = some e ∧
      (pointed.setPrevAt s.lruHead (some e)).lruTail = s.lruTail ∧
        (pointed.setPrevAt s.lruHead (some e)).freeList = s.freeList := by
    cases s.lruHead <;> exact ⟨rfl, rfl, rfl⟩
  have contents : SameContents s (pointed.setPrevAt s.lruHead (some e)) := by
    refine .trans ?_ (sameContents_setPrevAt pointed s.lruHead (some e))
    exact (sameContents_setNext s e s.lruHead).trans ⟨rfl, rfl, rfl, rfl, rfl, rfl⟩
  rw [linked]
  by_cases empty : s.lruTail = none
  · rw [if_pos empty, if_pos empty]
    exact ⟨next, prev, others.1, rfl, others.2.2, contents.trans ⟨rfl, rfl, rfl, rfl, rfl, rfl⟩⟩
  · rw [if_neg empty, if_neg empty]
    exact ⟨next, prev, others.1, others.2.1, others.2.2, contents⟩

theorem Taken.linkHead {s : LruCache K V} {order free : List Nat} {e : Nat}
    (taken : Taken s order free e) :
    Lists (s.linkHead e) (e :: order) free ∧ SameContents s (s.linkHead e) := by
  obtain ⟨next, prev, head, tail, sameFree, contents⟩ := linkHead_spec s e
  obtain ⟨notInOrder, notInFree⟩ := not_or.1 fun or_ => taken.fresh (List.mem_append.2 or_)
  refine ⟨⟨?_, ?_, ?_, List.nodup_cons.2 ⟨taken.fresh, taken.nodup⟩⟩, contents⟩
  · rw [next, prev, head, tail]
    exact taken.lru.cons notInOrder taken.prev (List.nodup_append.1 taken.nodup).1
  · rw [next, sameFree]
    exact taken.freeLeads.update_of_not_mem notInFree
  · intro f inFree
    rw [prev]
    have kept := taken.unlinked f inFree
    cases isHead : s.lruHead with
    | none => exact kept
    | some first =>
        have inOrder : first ∈ order := by
          have starts := taken.lru.forward.start_eq
          rw [isHead] at starts
          exact List.mem_of_mem_head? starts.symm
        have other : f ≠ first := by
          rintro rfl
          exact List.disjoint_of_nodup_append taken.nodup inOrder inFree
        exact (Function.update_of_ne other _ _).trans kept

/-- **An element of no list** is pushed to the head of the LRU list. -/
theorem Taken.pushLRUHead {s : LruCache K V} {order free : List Nat} {e : Nat}
    (taken : Taken s order free e) :
    Lists (s.pushLRUHead e) (e :: order) free ∧ SameContents s (s.pushLRUHead e) := by
  have notHead : s.lruHead ≠ some e := by
    rw [taken.lru.forward.start_eq]
    exact fun isHead => taken.fresh (List.mem_append_left _ (List.mem_of_mem_head? isHead))
  obtain ⟨removed, contents⟩ := taken.removeFromLRU
  obtain ⟨linked, contents'⟩ := removed.linkHead
  rw [pushLRUHead_eq, if_neg notHead]
  exact ⟨linked, contents.trans contents'⟩

/-- **An element of the LRU list** is pushed to its head. -/
theorem Lists.pushLRUHead {s : LruCache K V} {front back free : List Nat} {e : Nat}
    (lists : Lists s (front ++ e :: back) free) :
    Lists (s.pushLRUHead e) (e :: (front ++ back)) free ∧ SameContents s (s.pushLRUHead e) := by
  rw [pushLRUHead_eq]
  by_cases isHead : s.lruHead = some e
  · rw [if_pos isHead]
    cases front with
    | nil => exact ⟨lists, .refl s⟩
    | cons first front =>
        -- the head occurs once
        rw [lists.lru.forward.start_eq] at isHead
        have same : first = e := Option.some.inj isHead
        subst same
        exact absurd (List.mem_append_right _ List.mem_cons_self)
          (List.nodup_cons.1 (List.nodup_append.1 lists.nodup).1).1
  · rw [if_neg isHead]
    obtain ⟨removed, contents⟩ := lists.removeFromLRU
    obtain ⟨linked, contents'⟩ := removed.linkHead
    exact ⟨linked, contents.trans contents'⟩

end

end LruCache

end Mozkey.Storage
