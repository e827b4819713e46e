import Mozkey.Storage.LruCacheLinks

/-!
# Runs of `LruCache`

Every operation keeps the structure of the cache.  An insertion or a lookup that finds its key
brings the key to the front, the others keep their order, and an insertion evicts at most the
tail.  So after any sequence of operations the LRU list is in the order of most recent use.
-/

namespace Mozkey.Storage

open Mozkey.Lib

namespace LruCache

variable {K V : Type} [DecidableEq K]

/-! ## Evicting -/

section
variable {s : LruCache K V} {order free front back : List Nat} {e : Nat} {key : K}

/-- The element that a key leads to is on the list. -/
theorem Consistent.lookup_keyOf (consistent : Consistent s order free) (member : e ∈ order) :
    s.table.lookup (s.keyOf e) = some e :=
  (consistent.mapped _ e).2 ⟨member, rfl⟩

theorem Consistent.lookup_eq_none (consistent : Consistent s order free) :
    s.table.lookup key = none ↔ ∀ e ∈ order, s.keyOf e ≠ key := by
  constructor
  · intro absent e member same
    rw [(consistent.mapped key e).2 ⟨member, same⟩] at absent
    cases absent
  · intro others
    cases found : s.table.lookup key with
    | none => rfl
    | some e =>
        obtain ⟨member, same⟩ := (consistent.mapped key e).1 found
        exact absurd same (others e member)

/-- **An element is evicted.** -/
theorem Consistent.evict (consistent : Consistent s (front ++ e :: back) free) :
    ∃ s', s.evict (some e) = some (true, s') ∧ Consistent s' (front ++ back) (e :: free) ∧
      s'.keyOf = s.keyOf ∧ s'.maxElements = s.maxElements ∧ (Sized s → Sized s') := by
  have member : e ∈ front ++ e :: back := List.mem_append_right _ List.mem_cons_self
  have found := consistent.lookup_keyOf member
  let erased : LruCache K V := { s with table := s.table.erase (s.keyOf e) }
  have lists : Lists erased (front ++ e :: back) free :=
    ⟨consistent.lru, consistent.freeLeads, consistent.unlinked, consistent.nodup⟩
  obtain ⟨removed, contents⟩ := lists.removeFromLRU
  have pushed := removed.toLists.pushFreeList removed.fresh
  have contents' := contents.trans (sameContents_pushFreeList (erased.removeFromLRU e) e)
  have inTable : (s.heap e).key ∈ s.table := by
    rw [← AList.lookup_isSome]
    exact Option.isSome_iff_exists.2 ⟨e, found⟩
  refine ⟨(erased.removeFromLRU e).pushFreeList e, ?_, ⟨pushed, ?_, ?_⟩, contents'.keyOf,
    contents'.maxElements, fun sized => contents'.sized sized⟩
  · rw [LruCache.evict, if_pos inTable]
    rfl
  · intro e'
    rw [contents'.blockCapacity, ← consistent.allocated e']
    simp only [List.mem_append, List.mem_cons]
    tauto
  · intro key e'
    rw [contents'.table, contents'.keyOf]
    have keys : erased.keyOf = s.keyOf := rfl
    have table : erased.table = s.table.erase (s.keyOf e) := rfl
    rw [keys, table]
    by_cases same : key = s.keyOf e
    · subst same
      rw [AList.lookup_erase]
      constructor
      · intro impossible
        cases impossible
      · rintro ⟨inOthers, sameKey⟩
        -- the key leads to one element
        have inOrder : e' ∈ front ++ e :: back := by
          rw [List.mem_append, List.mem_cons]
          rw [List.mem_append] at inOthers
          tauto
        have found' := (consistent.mapped _ e').2 ⟨inOrder, sameKey⟩
        rw [found] at found'
        rw [← Option.some.inj found'] at inOthers
        exact absurd (List.mem_append_left _ inOthers) removed.fresh
    · rw [AList.lookup_erase_ne same, consistent.mapped]
      refine and_congr_left fun isKey => ?_
      have other : e' ≠ e := by
        rintro rfl
        exact same isKey.symm
      rw [List.mem_append, List.mem_append, List.mem_cons, or_iff_right other]

/-! ## Taking an element -/

/-- An element was taken, and everything else is in place. -/
structure Ready (s : LruCache K V) (order free : List Nat) (e : Nat) : Prop extends
    Taken s order free e where
  allocated : ∀ e', e' ∈ e :: (order ++ free) ↔ e' < s.blockCapacity
  mapped : ∀ key e', s.table.lookup key = some e' ↔ e' ∈ order ∧ s.keyOf e' = key
  sized : Sized s

/-- A free element is popped. -/
theorem Consistent.popFreeList (consistent : Consistent s order (e :: free)) (sized : Sized s) :
    ∃ s', s.popFreeList = some (some e, s') ∧ Ready s' order free e ∧ s'.keyOf = s.keyOf ∧
      s'.maxElements = s.maxElements := by
  obtain ⟨s', popped, taken, contents⟩ := popFreeList_cons consistent.toLists
  refine ⟨s', popped, ⟨taken, ?_, ?_, contents.sized sized⟩, contents.keyOf, contents.maxElements⟩
  · intro e'
    rw [contents.blockCapacity, ← consistent.allocated, List.perm_middle.mem_iff]
  · intro key e'
    rw [contents.table, contents.keyOf]
    exact consistent.mapped key e'

/-- The next free element, from the free list or from a new block. -/
theorem Consistent.nextFreeElement (consistent : Consistent s order free) (sized : Sized s) :
    (∃ e s' free', s.nextFreeElement = some (some e, s') ∧ Ready s' order free' e ∧
        s'.keyOf = s.keyOf ∧ s'.maxElements = s.maxElements) ∨
      free = [] ∧ ∃ s', s.nextFreeElement = some (none, s') ∧ Consistent s' order [] ∧ Sized s' ∧
        s'.keyOf = s.keyOf ∧ s'.maxElements = s.maxElements ∧
          (order = [] → s.maxElements = 0) := by
  cases free with
  | cons e free =>
      obtain ⟨s', popped, ready, keys, most⟩ := consistent.popFreeList sized
      refine Or.inl ⟨e, s', free, ?_, ready, keys, most⟩
      rw [LruCache.nextFreeElement, popped]
      rfl
  | nil =>
      have result : s.nextFreeElement = s.addBlock.popFreeList := by
        rw [LruCache.nextFreeElement, popFreeList_nil consistent.toLists]
        rfl
      have allocated : ∀ e, e ∈ order ↔ e < s.blockCapacity := by
        intro e
        rw [← consistent.allocated, List.append_nil]
      obtain ⟨free, lists, all, table, keys, most⟩ := addBlock_spec consistent.toLists allocated
      obtain ⟨sized', nonempty⟩ := sized_addBlock sized
      have added : Consistent s.addBlock order free := by
        refine ⟨lists, all, fun key e => ?_⟩
        rw [table, keys]
        exact consistent.mapped key e
      rw [result]
      cases free with
      | cons e free =>
          obtain ⟨s', popped, ready, keys', most'⟩ := added.popFreeList sized'
          exact Or.inl ⟨e, s', free, popped, ready, keys'.trans keys, most'.trans most⟩
      | nil =>
          refine Or.inr ⟨rfl, s.addBlock, popFreeList_nil lists, added, sized', keys, most, ?_⟩
          rintro rfl
          refine nonempty ?_
          by_contra some_
          exact List.not_mem_nil ((all 0).2 (Nat.pos_of_ne_zero some_))

/-- **The element that an insertion uses**: a free one, or that of the tail, which is evicted when no
element is free. -/
theorem Consistent.takeElement (consistent : Consistent s order free) (sized : Sized s) :
    s.takeElement = none ∧ s.maxElements = 0 ∨
      ∃ e s' order' free', s.takeElement = some (e, s') ∧ Ready s' order' free' e ∧
        s'.keyOf = s.keyOf ∧ s'.maxElements = s.maxElements ∧
          (order' = order ∨ free = [] ∧ s.lruTail = some e ∧ order = order' ++ [e]) := by
  rcases consistent.nextFreeElement sized with
    ⟨e, s', free', next, ready, keys, most⟩ | ⟨rfl, s', next, consistent', sized', keys, most, none_⟩
  · refine Or.inr ⟨e, s', order, free', ?_, ready, keys, most, Or.inl rfl⟩
    rw [LruCache.takeElement, next]
    rfl
  · rcases List.eq_nil_or_concat order with rfl | ⟨init, last, rfl⟩
    · have empty : s'.lruTail = none := consistent'.lru.backward.start_eq
      refine Or.inl ⟨?_, none_ rfl⟩
      rw [LruCache.takeElement, next]
      simp [LruCache.evict, empty]
    · rw [List.concat_eq_append] at consistent consistent' ⊢
      have isTail : ∀ {s : LruCache K V}, Consistent s (init ++ [last]) [] → s.lruTail = some last := by
        intro s consistent
        rw [consistent.lru.backward.start_eq, List.reverse_append]
        rfl
      obtain ⟨s'', evicted, consistent'', keys'', most'', sized''⟩ := consistent'.evict
      obtain ⟨s₃, popped, ready, keys₃, most₃⟩ := consistent''.popFreeList (sized'' sized')
      rw [List.append_nil] at ready
      have next'' : s''.nextFreeElement = some (some last, s₃) := by
        rw [LruCache.nextFreeElement, popped]
        rfl
      refine Or.inr ⟨last, s₃, init, [], ?_, ready, keys₃.trans (keys''.trans keys),
        most₃.trans (most''.trans most), Or.inr ⟨rfl, isTail consistent, rfl⟩⟩
      rw [LruCache.takeElement, next]
      simp [isTail consistent', evicted, next'']

/-! ## Inserting -/

/-- The front of an insertion: no element of the list has the key any more. -/
theorem Consistent.evictKey (consistent : Consistent s order free) (sized : Sized s) (key : K) :
    ∃ s' order' free', s.evictKey key = some s' ∧ Consistent s' order' free' ∧ Sized s' ∧
      s'.keyOf = s.keyOf ∧ s'.maxElements = s.maxElements ∧
        order' = order.filter (fun e => s.keyOf e ≠ key) ∧
          (s.table.lookup key = none ∧ s' = s ∧ free' = free ∨ free' ≠ []) := by
  cases found : s.table.lookup key with
  | none =>
      have others := consistent.lookup_eq_none.1 found
      refine ⟨s, order, free, ?_, consistent, sized, rfl, rfl, ?_, Or.inl ⟨rfl, rfl, rfl⟩⟩
      · rw [LruCache.evictKey, lookupInternal, found]
      · exact (List.filter_eq_self.2 fun e member => decide_eq_true (others e member)).symm
  | some e =>
      obtain ⟨member, isKey⟩ := (consistent.mapped key e).1 found
      obtain ⟨front, back, rfl⟩ := List.append_of_mem member
      obtain ⟨s', evicted, consistent', keys, most, sized'⟩ := consistent.evict
      have others : ∀ f ∈ front ++ back, s.keyOf f ≠ key := by
        intro f inOthers same
        have inOrder : f ∈ front ++ e :: back := by
          rw [List.mem_append, List.mem_cons]
          rw [List.mem_append] at inOthers
          tauto
        have found' := (consistent.mapped key f).2 ⟨inOrder, same⟩
        rw [found] at found'
        rw [← Option.some.inj found'] at inOthers
        have nodup := (List.nodup_append.1 consistent.nodup).1
        exact (List.nodup_cons.1 (List.perm_middle.nodup_iff.1 nodup)).1 inOthers
      refine ⟨s', front ++ back, e :: free, ?_, consistent', sized' sized, keys, most, ?_,
        Or.inr (List.cons_ne_nil _ _)⟩
      · rw [LruCache.evictKey, lookupInternal, found]
        simp [evicted]
      · obtain ⟨inFront, inBack⟩ := List.forall_mem_append.1 others
        have dropped : ¬ (decide (s.keyOf e ≠ key) = true) := by simpa using isKey
        rw [List.filter_append, List.filter_cons, if_neg dropped,
          List.filter_eq_self.2 fun f member => decide_eq_true (inFront f member),
          List.filter_eq_self.2 fun f member => decide_eq_true (inBack f member)]

/-- What an insertion does to the LRU list: the key comes first, and of the other elements no other
than the tail is missing, and only when the key is a new one. -/
structure Inserted (s : LruCache K V) (order : List Nat) (key : K) (s' : LruCache K V) (e : Nat)
    (kept : List Nat) : Prop where
  isKey : s'.keyOf e = key
  sublist : kept.Sublist order
  others : ∀ f ∈ kept, s'.keyOf f = s.keyOf f ∧ s.keyOf f ≠ key
  missing : ∀ f ∈ order, s.keyOf f ≠ key → f ∉ kept →
    s.lruTail = some f ∧ s.table.lookup key = none

/-- **`Insert(key)`** keeps the structure; it fails when the cache may hold no element. -/
theorem Consistent.insertKey (consistent : Consistent s order free) (sized : Sized s) (key : K) :
    s.insertKey key = none ∧ s.maxElements = 0 ∨
      ∃ e s' kept free', s.insertKey key = some (e, s') ∧ Consistent s' (e :: kept) free' ∧
        Sized s' ∧ s'.maxElements = s.maxElements ∧ Inserted s order key s' e kept := by
  obtain ⟨s₁, order₁, free₁, evicted, consistent₁, sized₁, keys₁, most₁, rfl, absent⟩ :=
    consistent.evictKey sized key
  rcases consistent₁.takeElement sized₁ with
    ⟨fails, none_⟩ | ⟨e, s₂, kept, free₂, taken, ready, keys₂, most₂, which⟩
  · refine Or.inl ⟨?_, most₁ ▸ none_⟩
    rw [LruCache.insertKey, evicted]
    simp [fails]
  · -- the element gets its key, and the table leads to it
    let keyed : LruCache K V := { s₂.setKey e key with table := s₂.table.insert key e }
    have nextKept : keyed.nextOf = s₂.nextOf := by
      funext p
      by_cases same : p = e
      · subst same
        simp [keyed, nextOf, setKey, update]
      · simp [keyed, nextOf, setKey, update, same]
    have prevKept : keyed.prevOf = s₂.prevOf := by
      funext p
      by_cases same : p = e
      · subst same
        simp [keyed, prevOf, setKey, update]
      · simp [keyed, prevOf, setKey, update, same]
    have keyAt : keyed.keyOf = Function.update s₂.keyOf e key := by
      funext p
      by_cases same : p = e
      · subst same
        simp [keyed, keyOf, setKey, update]
      · simp [keyed, keyOf, setKey, update, same]
    have isTaken : Taken keyed kept free₂ e := by
      obtain ⟨⟨lru, leads, unlinked, nodup⟩, fresh, next, prev⟩ := ready.toTaken
      rw [← nextKept] at lru leads next
      rw [← prevKept] at lru unlinked prev
      exact ⟨⟨lru, leads, unlinked, nodup⟩, fresh, next, prev⟩
    obtain ⟨lists, contents⟩ := isTaken.pushLRUHead
    have sublist : kept.Sublist (order.filter fun e => s.keyOf e ≠ key) := by
      rcases which with rfl | ⟨_, _, whole⟩
      · exact List.Sublist.refl _
      · rw [whole]
        exact List.sublist_append_left _ _
    have others : ∀ f ∈ kept, s.keyOf f ≠ key := fun f member =>
      of_decide_eq_true (List.mem_filter.1 (sublist.subset member)).2
    have notKept : e ∉ kept := fun member => ready.fresh (List.mem_append_left _ member)
    have otherKey : ∀ f ∈ kept, keyed.keyOf f = s.keyOf f := by
      intro f member
      have other : f ≠ e := fun same => notKept (same ▸ member)
      rw [keyAt, Function.update_of_ne other, keys₂, keys₁]
    have selfKey : keyed.keyOf e = key := by rw [keyAt, Function.update_self]
    refine Or.inr ⟨e, keyed.pushLRUHead e, kept, free₂, ?_, ⟨lists, ?_, ?_⟩, ?_, ?_, ?_⟩
    · rw [LruCache.insertKey, evicted]
      simp [taken]
      rfl
    · intro e'
      rw [contents.blockCapacity]
      exact ready.allocated e'
    · intro key' e'
      have table : keyed.table = s₂.table.insert key e := rfl
      rw [contents.table, contents.keyOf, table]
      by_cases same : key' = key
      · subst same
        rw [AList.lookup_insert, Option.some_inj]
        constructor
        · rintro rfl
          exact ⟨List.mem_cons_self, selfKey⟩
        · rintro ⟨member, isKey⟩
          rcases List.mem_cons.1 member with same | inKept
          · exact same.symm
          · exact absurd ((otherKey e' inKept).symm.trans isKey) (others e' inKept)
      · rw [AList.lookup_insert_ne same, ready.mapped]
        constructor
        · rintro ⟨inKept, isKey⟩
          refine ⟨List.mem_cons_of_mem _ inKept, ?_⟩
          rw [otherKey e' inKept, ← keys₁, ← keys₂]
          exact isKey
        · rintro ⟨member, isKey⟩
          rcases List.mem_cons.1 member with rfl | inKept
          · exact absurd (isKey.symm.trans selfKey) same
          · refine ⟨inKept, ?_⟩
            rw [keys₂, keys₁, ← otherKey e' inKept]
            exact isKey
    · exact contents.sized (fun empty => ready.sized empty)
    · exact contents.maxElements.trans (most₂.trans most₁)
    · refine ⟨contents.keyOf ▸ selfKey, sublist.trans List.filter_sublist, ?_, ?_⟩
      · intro f member
        rw [contents.keyOf]
        exact ⟨otherKey f member, others f member⟩
      · intro f member other notIn
        have inFiltered : f ∈ order.filter fun e => s.keyOf e ≠ key :=
          List.mem_filter.2 ⟨member, decide_eq_true other⟩
        rcases which with rfl | ⟨noFree, isTail, whole⟩
        · exact absurd inFiltered notIn
        · -- no element was free, so the key is a new one, and the missing element is the tail
          rcases absent with ⟨isNew, rfl, rfl⟩ | some_
          · rw [whole, List.mem_append, List.mem_singleton] at inFiltered
            rcases inFiltered with inKept | rfl
            · exact absurd inKept notIn
            · exact ⟨isTail, isNew⟩
          · exact absurd noFree some_

/-! ## Looking up, erasing and clearing -/

/-- **`MutableLookup`** of a key that is found brings its element to the front. -/
theorem Consistent.mutableLookup (consistent : Consistent s order free) (sized : Sized s) (key : K) :
    (s.mutableLookup key = (none, s) ∧ s.table.lookup key = none) ∨
      ∃ e s' front back, order = front ++ e :: back ∧ s.keyOf e = key ∧
        s.mutableLookup key = (some e, s') ∧ Consistent s' (e :: (front ++ back)) free ∧ Sized s' ∧
          s'.keyOf = s.keyOf ∧ s'.maxElements = s.maxElements := by
  cases found : s.table.lookup key with
  | none =>
      refine Or.inl ⟨?_, rfl⟩
      rw [LruCache.mutableLookup, lookupInternal, found]
  | some e =>
      obtain ⟨member, isKey⟩ := (consistent.mapped key e).1 found
      obtain ⟨front, back, rfl⟩ := List.append_of_mem member
      obtain ⟨lists, contents⟩ := consistent.toLists.pushLRUHead
      refine Or.inr ⟨e, s.pushLRUHead e, front, back, rfl, isKey, ?_, ⟨lists, ?_, ?_⟩,
        contents.sized sized, contents.keyOf, contents.maxElements⟩
      · rw [LruCache.mutableLookup, lookupInternal, found]
      · intro e'
        rw [contents.blockCapacity, ← consistent.allocated]
        exact (List.perm_middle.append_right free).symm.mem_iff
      · intro key' e'
        rw [contents.table, contents.keyOf, consistent.mapped, List.perm_middle.mem_iff]

/-- A write to a value changes nothing of the structure. -/
theorem Consistent.modifyValue (consistent : Consistent s order free) (e : Nat) (write : V → V) :
    Consistent (s.modifyValue e write) order free ∧ SameContents s (s.modifyValue e write) := by
  have next : (s.modifyValue e write).nextOf = s.nextOf := by
    funext p
    by_cases same : p = e
    · subst same
      simp [nextOf, LruCache.modifyValue, update]
    · simp [nextOf, LruCache.modifyValue, update, same]
  have prev : (s.modifyValue e write).prevOf = s.prevOf := by
    funext p
    by_cases same : p = e
    · subst same
      simp [prevOf, LruCache.modifyValue, update]
    · simp [prevOf, LruCache.modifyValue, update, same]
  have keys : (s.modifyValue e write).keyOf = s.keyOf := by
    funext p
    by_cases same : p = e
    · subst same
      simp [keyOf, LruCache.modifyValue, update]
    · simp [keyOf, LruCache.modifyValue, update, same]
  obtain ⟨⟨lru, leads, unlinked, nodup⟩, allocated, mapped⟩ := consistent
  refine ⟨⟨⟨?_, ?_, ?_, nodup⟩, allocated, ?_⟩, rfl, keys, rfl, rfl, rfl, rfl⟩
  · rw [next, prev]
    exact lru
  · rw [next]
    exact leads
  · rw [prev]
    exact unlinked
  · rw [keys]
    exact mapped

/-- **`Erase`** takes the element of a key off the list. -/
theorem Consistent.erase (consistent : Consistent s order free) (sized : Sized s) (key : K) :
    ∃ erased s' order' free', s.erase key = some (erased, s') ∧ Consistent s' order' free' ∧
      Sized s' ∧ s'.keyOf = s.keyOf ∧ s'.maxElements = s.maxElements ∧ order'.Sublist order := by
  cases found : s.table.lookup key with
  | none =>
      refine ⟨false, s, order, free, ?_, consistent, sized, rfl, rfl, List.Sublist.refl _⟩
      rw [LruCache.erase, lookupInternal, found, LruCache.evict]
  | some e =>
      obtain ⟨member, _⟩ := (consistent.mapped key e).1 found
      obtain ⟨front, back, rfl⟩ := List.append_of_mem member
      obtain ⟨s', evicted, consistent', keys, most, sized'⟩ := consistent.evict
      refine ⟨true, s', front ++ back, e :: free, ?_, consistent', sized' sized, keys, most, ?_⟩
      · rw [LruCache.erase, lookupInternal, found, evicted]
      · exact (List.Sublist.refl front).append (List.sublist_cons_self e back)

omit [DecidableEq K] in
/-- The loop of `Clear` moves the elements of a list to the free list. -/
theorem clearLoop_spec {elements : List Nat} {current : Option Nat} {fuel : Nat}
    (leads : Leads s.nextOf current elements none) (leadsFree : Leads s.nextOf s.freeList free none)
    (unlinked : ∀ f ∈ free, s.prevOf f = none) (nodup : (elements ++ free).Nodup)
    (enough : elements.length ≤ fuel) :
    ∃ s', clearLoop fuel current s = some s' ∧
      Leads s'.nextOf s'.freeList (elements.reverse ++ free) none ∧
        (∀ f ∈ elements.reverse ++ free, s'.prevOf f = none) ∧ SameContents s s' := by
  induction elements generalizing s current fuel free with
  | nil =>
      have atEnd : current = none := leads
      subst atEnd
      refine ⟨s, ?_, leadsFree, unlinked, .refl s⟩
      cases fuel <;> rfl
  | cons e elements ih =>
      obtain ⟨rfl, behind⟩ := leads
      obtain ⟨fresh, nodup'⟩ := List.nodup_cons.1 nodup
      obtain ⟨notBehind, notFree⟩ := not_or.1 fun or_ => fresh (List.mem_append.2 or_)
      cases fuel with
      | zero => exact absurd enough (Nat.not_succ_le_zero _)
      | succ fuel =>
          have leads' : Leads (s.pushFreeList e).nextOf (s.nextOf e) elements none := by
            rw [nextOf_pushFreeList]
            exact behind.update_of_not_mem notBehind
          have leadsFree' : Leads (s.pushFreeList e).nextOf (s.pushFreeList e).freeList
              (e :: free) none := by
            rw [nextOf_pushFreeList]
            exact leadsFree.cons notFree
          have unlinked' : ∀ f ∈ e :: free, (s.pushFreeList e).prevOf f = none := by
            rw [prevOf_pushFreeList]
            intro f member
            rcases List.mem_cons.1 member with rfl | inFree
            · exact Function.update_self ..
            · rw [Function.update_of_ne fun same : f = e => notFree (same ▸ inFree)]
              exact unlinked f inFree
          obtain ⟨s', result, all, none_, contents⟩ := ih leads' leadsFree' unlinked'
            (List.perm_middle.nodup_iff.2 nodup) (Nat.le_of_succ_le_succ enough)
          refine ⟨s', result, ?_, ?_, (sameContents_pushFreeList s e).trans contents⟩
          · rw [List.reverse_cons, List.append_assoc]
            exact all
          · rw [List.reverse_cons, List.append_assoc]
            exact none_

/-- **`Clear`** empties the LRU list and the table. -/
theorem Consistent.clear (consistent : Consistent s order free) (sized : Sized s) :
    ∃ s' free', s.clear = some s' ∧ Consistent s' [] free' ∧ Sized s' ∧
      s'.maxElements = s.maxElements := by
  let cleared : LruCache K V := { s with table := ∅ }
  have nodup := (List.nodup_append.1 consistent.nodup).1
  have enough : order.length ≤ s.blockCapacity := by
    have within : order ⊆ List.range s.blockCapacity := by
      intro e member
      exact List.mem_range.2 ((consistent.allocated e).1 (List.mem_append_left _ member))
    have length := (nodup.subperm within).length_le
    rwa [List.length_range] at length
  have leads : Leads cleared.nextOf s.lruHead order none := consistent.lru.forward
  have leadsFree : Leads cleared.nextOf cleared.freeList free none := consistent.freeLeads
  obtain ⟨s', looped, all, none_, contents⟩ :=
    clearLoop_spec leads leadsFree consistent.unlinked consistent.nodup enough
  refine ⟨{ s' with lruHead := none, lruTail := none }, order.reverse ++ free, ?_,
    ⟨⟨⟨rfl, rfl⟩, all, none_, ?_⟩, ?_, ?_⟩, contents.sized sized, contents.maxElements⟩
  · have result : s.clear = (clearLoop s.blockCapacity s.lruHead cleared).map fun s =>
        { s with lruHead := none, lruTail := none } := by
      rw [LruCache.clear]
      cases clearLoop s.blockCapacity s.lruHead cleared <;> rfl
    rw [result, looped, Option.map_some]
  · exact ((List.reverse_perm order).append_right free).nodup_iff.2 consistent.nodup
  · intro e
    have capacity : s'.blockCapacity = s.blockCapacity := contents.blockCapacity
    rw [List.nil_append, ((List.reverse_perm order).append_right free).mem_iff]
    exact (consistent.allocated e).trans (capacity ▸ Iff.rfl)
  · intro key e
    have table : s'.table = ∅ := contents.table
    constructor
    · intro found
      have absent : s'.table.lookup key = none := by
        rw [table]
        rfl
      exact absurd (absent.symm.trans found) (by simp)
    · rintro ⟨member, _⟩
      exact absurd member List.not_mem_nil

end

/-! ## Recency -/

/-- An operation inserts a key or looks it up. -/
def Op.Uses : Op K V → K → Prop
  | .insert key _, used | .insertKey key _, used | .lookup key, used
  | .mutableLookup key _, used => key = used
  | .lookupWithoutInsert _, _ | .erase _, _ | .clear, _ => False

omit [DecidableEq K] in
theorem Op.Uses.unique {op : Op K V} {key key' : K} (uses : op.Uses key) (uses' : op.Uses key') :
    key = key' := by
  cases op with
  | insert | insertKey | lookup | mutableLookup => exact Eq.trans (Eq.symm uses) uses'
  | lookupWithoutInsert | erase | clear => exact absurd uses id

/-- The last use of a key is behind every use of another one.  A key of the cache is in it since its
last use, so that this was an insertion or a lookup that found it. -/
def MoreRecent (ops : List (Op K V)) (key other : K) : Prop :=
  ∃ before op after, ops = before ++ op :: after ∧ op.Uses key ∧
    ∀ later ∈ op :: after, ¬ later.Uses other

/-- What an operation does to the keys in the order of the list: it brings the key that it uses to
the front, or it uses none of them, and it adds no others. -/
inductive Moves (op : Op K V) (keys : List K) : List K → Prop
  | front {key : K} {kept : List K} (uses : op.Uses key) (others : key ∉ kept)
      (sublist : kept.Sublist keys) : Moves op keys (key :: kept)
  | rest {kept : List K} (sublist : kept.Sublist keys) (unused : ∀ key ∈ kept, ¬ op.Uses key) :
      Moves op keys kept

omit [DecidableEq K] in
theorem MoreRecent.snoc {ops : List (Op K V)} {key other : K} (recent : MoreRecent ops key other)
    {op : Op K V} (unused : ¬ op.Uses other) : MoreRecent (ops ++ [op]) key other := by
  obtain ⟨before, use, after, rfl, uses, later⟩ := recent
  refine ⟨before, use, after ++ [op], by simp, uses, ?_⟩
  rw [← List.cons_append]
  intro later' member
  rcases List.mem_append.1 member with earlier | last
  · exact later later' earlier
  · rw [List.mem_singleton.1 last]
    exact unused

omit [DecidableEq K] in
/-- **One operation keeps the order of most recent use.** -/
theorem Moves.pairwise {op : Op K V} {ops : List (Op K V)} {keys keys' : List K}
    (moves : Moves op keys keys') (ordered : keys.Pairwise (MoreRecent ops)) :
    keys'.Pairwise (MoreRecent (ops ++ [op])) := by
  cases moves with
  | @front key kept uses others sublist =>
      have unused : ∀ other ∈ kept, ¬ op.Uses other := by
        intro other member used
        exact others (uses.unique used ▸ member)
      refine List.pairwise_cons.2 ⟨fun other member => ?_, ?_⟩
      · refine ⟨ops, op, [], rfl, uses, fun later isLast => ?_⟩
        rw [List.mem_singleton.1 isLast]
        exact unused other member
      · refine (ordered.sublist sublist).imp_of_mem ?_
        intro key other _ member recent
        exact recent.snoc (unused other member)
  | rest sublist unused =>
      refine (ordered.sublist sublist).imp_of_mem ?_
      intro key other _ member recent
      exact recent.snoc (unused other member)

/-! ## Steps and runs -/

/-- The keys in the order of the list. -/
def keys (s : LruCache K V) (order : List Nat) : List K := order.map s.keyOf

section
variable {s : LruCache K V} {order free : List Nat}

/-- The keys of the list are distinct. -/
theorem Consistent.keys_nodup (consistent : Consistent s order free) : (s.keys order).Nodup := by
  refine (List.nodup_append.1 consistent.nodup).1.map_on fun e member f member' same => ?_
  have found := consistent.lookup_keyOf member
  rw [same, consistent.lookup_keyOf member'] at found
  exact (Option.some.inj found).symm

/-- The keys after an insertion. -/
theorem Inserted.moves {s' : LruCache K V} {e : Nat} {kept : List Nat} {key : K} {op : Op K V}
    (inserted : Inserted s order key s' e kept) (uses : op.Uses key) :
    Moves op (s.keys order) (s'.keys (e :: kept)) := by
  have same : kept.map s'.keyOf = kept.map s.keyOf :=
    List.map_congr_left fun f member => (inserted.others f member).1
  rw [keys, keys, List.map_cons, inserted.isKey, same]
  refine .front uses ?_ (inserted.sublist.map s.keyOf)
  intro member
  obtain ⟨f, inKept, isKey⟩ := List.mem_map.1 member
  exact (inserted.others f inKept).2 isKey

/-- What a step leaves behind. -/
def Stepped (s : LruCache K V) (order : List Nat) (op : Op K V) (s' : LruCache K V) : Prop :=
  ∃ order' free', Consistent s' order' free' ∧ Sized s' ∧ s'.maxElements = s.maxElements ∧
    Moves op (s.keys order) (s'.keys order')

/-- A lookup that may write to the value that is found. -/
theorem Consistent.stepLookup (consistent : Consistent s order free) (sized : Sized s) (op : Op K V)
    {key : K} (uses : op.Uses key) (write : V → V) :
    Stepped s order op (match s.mutableLookup key with
      | (some e, s) => s.modifyValue e write
      | (none, s) => s) := by
  rcases consistent.mutableLookup sized key with
    ⟨looked, absent⟩ | ⟨e, s', front, back, rfl, isKey, looked, consistent', sized', keys_, most⟩
  · rw [looked]
    refine ⟨order, free, consistent, sized, rfl, .rest (List.Sublist.refl _) ?_⟩
    intro other member used
    obtain ⟨e, inOrder, isOther⟩ := List.mem_map.1 member
    exact consistent.lookup_eq_none.1 absent e inOrder (isOther.trans (used.unique uses))
  · rw [looked]
    obtain ⟨written, contents⟩ := consistent'.modifyValue e write
    refine ⟨e :: (front ++ back), free, written, contents.sized sized', contents.maxElements.trans most,
      ?_⟩
    have nodup := written.keys_nodup
    have sublist : (front ++ back).Sublist (front ++ e :: back) :=
      (List.Sublist.refl front).append (List.sublist_cons_self e back)
    have after : (s'.modifyValue e write).keys (e :: (front ++ back)) =
        key :: (front ++ back).map s.keyOf := by
      rw [keys, List.map_cons, contents.keyOf, keys_, isKey]
    dsimp only
    rw [after] at nodup ⊢
    exact .front uses (List.nodup_cons.1 nodup).1 (sublist.map s.keyOf)

/-- **One operation** keeps the structure and moves the key that it uses to the front.  It fails only
when the cache may hold no element. -/
theorem Consistent.step (consistent : Consistent s order free) (sized : Sized s) (op : Op K V) :
    s.step op = none ∧ s.maxElements = 0 ∨ ∃ s', s.step op = some s' ∧ Stepped s order op s' := by
  cases op with
  | insert key value =>
      rcases consistent.insertKey sized key with
        ⟨fails, none_⟩ | ⟨e, s', kept, free', result, consistent', sized', most, inserted⟩
      · refine Or.inl ⟨?_, none_⟩
        simp [LruCache.step, LruCache.insert, fails]
      · obtain ⟨written, contents⟩ := consistent'.modifyValue e fun _ => value
        refine Or.inr ⟨s'.modifyValue e fun _ => value, ?_, e :: kept, free', written,
          contents.sized sized', contents.maxElements.trans most, ?_⟩
        · simp [LruCache.step, LruCache.insert, result]
        · rw [keys, keys, contents.keyOf]
          exact inserted.moves rfl
  | insertKey key write =>
      rcases consistent.insertKey sized key with
        ⟨fails, none_⟩ | ⟨e, s', kept, free', result, consistent', sized', most, inserted⟩
      · refine Or.inl ⟨?_, none_⟩
        simp [LruCache.step, fails]
      · obtain ⟨written, contents⟩ := consistent'.modifyValue e write
        refine Or.inr ⟨s'.modifyValue e write, ?_, e :: kept, free', written,
          contents.sized sized', contents.maxElements.trans most, ?_⟩
        · simp [LruCache.step, result]
        · rw [keys, keys, contents.keyOf]
          exact inserted.moves rfl
  | lookup key =>
      refine Or.inr ⟨(s.lookup key).2, rfl, ?_⟩
      have stepped := consistent.stepLookup sized (.lookup key) rfl id
      rw [LruCache.lookup]
      rcases looked : s.mutableLookup key with ⟨_ | e, s'⟩
      · rw [looked] at stepped
        exact stepped
      · rw [looked] at stepped
        have unchanged : s'.modifyValue e id = s' := by
          have heap : Function.update s'.heap e (s'.heap e) = s'.heap := Function.update_eq_self e _
          exact congrArg (fun heap => { s' with heap := heap }) heap
        dsimp only at stepped
        rw [unchanged] at stepped
        exact stepped
  | lookupWithoutInsert key =>
      refine Or.inr ⟨s, rfl, order, free, consistent, sized, rfl, ?_⟩
      exact .rest (List.Sublist.refl _) fun _ _ => id
  | mutableLookup key write =>
      refine Or.inr ⟨_, ?_, consistent.stepLookup sized (.mutableLookup key write) rfl write⟩
      rw [LruCache.step]
      rcases s.mutableLookup key with ⟨_ | e, s'⟩ <;> rfl
  | erase key =>
      obtain ⟨erased, s', order', free', result, consistent', sized', keys_, most, sublist⟩ :=
        consistent.erase sized key
      refine Or.inr ⟨s', ?_, order', free', consistent', sized', most, ?_⟩
      · rw [LruCache.step, result, Option.map_some]
      · rw [keys, keys, keys_]
        exact .rest (sublist.map s.keyOf) fun _ _ => id
  | clear =>
      obtain ⟨s', free', result, consistent', sized', most⟩ := consistent.clear sized
      refine Or.inr ⟨s', result, [], free', consistent', sized', most, ?_⟩
      exact .rest (List.nil_sublist _) fun _ _ => id

end

/-- A new cache has no elements. -/
theorem consistent_new [Inhabited K] [Inhabited V] (maxElements : Nat) :
    Consistent (new maxElements : LruCache K V) [] [] ∧ Sized (new maxElements : LruCache K V) := by
  refine ⟨⟨⟨⟨rfl, rfl⟩, rfl, fun _ member => absurd member List.not_mem_nil, List.nodup_nil⟩,
    fun e => ?_, fun key e => ?_⟩, fun _ => ⟨rfl, fun positive => ?_⟩⟩
  · exact iff_of_false List.not_mem_nil (Nat.not_lt_zero e)
  · constructor
    · intro found
      exact absurd found (by simp [new])
    · rintro ⟨member, _⟩
      exact absurd member List.not_mem_nil
  · have grows : ∀ fuel size, 0 < size → 0 < growBlockSize maxElements fuel size := by
      intro fuel
      induction fuel with
      | zero => exact fun _ some_ => some_
      | succ fuel ih =>
          intro size some_
          rw [growBlockSize]
          split
          · refine ih _ ?_
            rw [Nat.shiftLeft_eq]
            omega
          · exact some_
    have first : (new maxElements : LruCache K V).nextBlockSize = firstBlockSize maxElements := rfl
    rw [first, firstBlockSize]
    split
    · exact positive
    · exact grows _ _ (by decide)

/-! ## Main result -/

/-- An operation inserts a key. -/
def Op.Inserts : Op K V → K → Prop
  | .insert key _, inserted | .insertKey key _, inserted => key = inserted
  | _, _ => False

/-- An insertion evicts nothing but the tail, and it evicts the tail only for a key that is new. -/
def EvictsTailOnly (s : LruCache K V) : Prop :=
  ∀ op key s', Op.Inserts op key → s.step op = some s' → ∀ other ∈ s.table, other ∉ s'.table →
    key ∉ s.table ∧ ∃ tail, s.lruTail = some tail ∧ s.keyOf tail = other

/-- What an insertion evicts. -/
theorem Inserted.evicts {s s' : LruCache K V} {order free kept free' : List Nat} {e : Nat} {key : K}
    (consistent : Consistent s order free) (consistent' : Consistent s' (e :: kept) free')
    (inserted : Inserted s order key s' e kept) {other : K} (before : other ∈ s.table)
    (after : other ∉ s'.table) :
    key ∉ s.table ∧ ∃ tail, s.lruTail = some tail ∧ s.keyOf tail = other := by
  have gone : ∀ f, s'.table.lookup other ≠ some f := by
    intro f found
    refine after ?_
    rw [← AList.lookup_isSome, found]
    rfl
  obtain ⟨f, found⟩ := Option.isSome_iff_exists.1 (AList.lookup_isSome.2 before)
  obtain ⟨member, isOther⟩ := (consistent.mapped other f).1 found
  have differs : s.keyOf f ≠ key := by
    rintro rfl
    refine gone e ((consistent'.mapped other e).2 ⟨List.mem_cons_self, ?_⟩)
    rw [inserted.isKey, isOther]
  have missing : f ∉ kept := by
    intro inKept
    refine gone f ((consistent'.mapped other f).2 ⟨List.mem_cons_of_mem _ inKept, ?_⟩)
    rw [(inserted.others f inKept).1, isOther]
  obtain ⟨isTail, isNew⟩ := inserted.missing f member differs missing
  refine ⟨?_, f, isTail, isOther⟩
  rw [← AList.lookup_isSome, isNew]
  exact Bool.false_ne_true

/-- An insertion writes to the element of its key. -/
theorem exists_insertKey_of_step {s s' : LruCache K V} {op : Op K V} {key : K}
    (inserts : Op.Inserts op key) (stepped : s.step op = some s') :
    ∃ e s₁ write, s.insertKey key = some (e, s₁) ∧ s' = s₁.modifyValue e write := by
  cases op with
  | insert key' value =>
      cases (inserts : key' = key)
      simp only [LruCache.step, LruCache.insert, Option.bind_eq_bind, Option.bind_eq_some_iff] at stepped
      obtain ⟨⟨e, s₁⟩, result, isNext⟩ := stepped
      exact ⟨e, s₁, _, result, (Option.some.inj isNext).symm⟩
  | insertKey key' write =>
      cases (inserts : key' = key)
      simp only [LruCache.step, Option.bind_eq_bind, Option.bind_eq_some_iff] at stepped
      obtain ⟨⟨e, s₁⟩, result, isNext⟩ := stepped
      exact ⟨e, s₁, _, result, (Option.some.inj isNext).symm⟩
  | lookup | lookupWithoutInsert | mutableLookup | erase | clear => exact absurd inserts id

theorem Consistent.evictsTailOnly {s : LruCache K V} {order free : List Nat}
    (consistent : Consistent s order free) (sized : Sized s) : EvictsTailOnly s := by
  intro op key s' inserts stepped other before after
  obtain ⟨e, s₁, write, result, rfl⟩ := exists_insertKey_of_step inserts stepped
  rcases consistent.insertKey sized key with
    ⟨fails, _⟩ | ⟨e', s₂, kept, free', result', consistent', _, _, inserted⟩
  · rw [fails] at result
    cases result
  · rw [result'] at result
    cases result
    exact inserted.evicts consistent consistent' before after

/-- An insertion puts its key in front, and the table leads there. -/
def InsertsInFront (s : LruCache K V) : Prop :=
  ∀ op key s', Op.Inserts op key → s.step op = some s' →
    ∃ head, s'.lruHead = some head ∧ s'.keyOf head = key ∧ s'.table.lookup key = some head

theorem Consistent.insertsInFront {s : LruCache K V} {order free : List Nat}
    (consistent : Consistent s order free) (sized : Sized s) : InsertsInFront s := by
  intro op key s' inserts stepped
  obtain ⟨e, s₁, write, result, rfl⟩ := exists_insertKey_of_step inserts stepped
  rcases consistent.insertKey sized key with
    ⟨fails, _⟩ | ⟨e', s₂, kept, free', result', consistent', _, _, inserted⟩
  · rw [fails] at result
    cases result
  · rw [result'] at result
    cases result
    obtain ⟨written, contents⟩ := consistent'.modifyValue e write
    have isKey : (s₁.modifyValue e write).keyOf e = key := by
      rw [contents.keyOf]
      exact inserted.isKey
    exact ⟨e, written.lru.forward.1, isKey, (written.mapped key e).2 ⟨List.mem_cons_self, isKey⟩⟩

/-- **The structure of the cache**: its elements are each in one of the two lists, which are linked
consistently, the table leads to the elements of the LRU list, the list is in the order of most
recent use, and an insertion evicts nothing but its tail and puts its key in front. -/
def Structured (ops : List (Op K V)) (s : LruCache K V) : Prop :=
  ∃ order free, Consistent s order free ∧ (s.keys order).Pairwise (MoreRecent ops) ∧
    EvictsTailOnly s ∧ InsertsInFront s

/-- What every run leaves behind. -/
theorem run_spec [Inhabited K] [Inhabited V] (maxElements : Nat) (ops : List (Op K V)) :
    run maxElements ops = none ∧ maxElements = 0 ∨
      ∃ s, run maxElements ops = some s ∧ s.maxElements = maxElements ∧
        ∃ order free, Consistent s order free ∧ Sized s ∧
          (s.keys order).Pairwise (MoreRecent ops) := by
  induction ops using List.reverseRecOn with
  | nil =>
      obtain ⟨consistent, sized⟩ := @consistent_new K V _ _ _ maxElements
      exact Or.inr ⟨new maxElements, rfl, rfl, [], [], consistent, sized, List.Pairwise.nil⟩
  | append_singleton ops op ih =>
      have last : run maxElements (ops ++ [op]) = (run maxElements ops).bind fun s => s.step op := by
        rw [run, List.foldlM_append]
        refine congrArg (Option.bind _) (funext fun s => ?_)
        rw [List.foldlM_cons]
        simp
      rw [last]
      rcases ih with ⟨fails, none_⟩ | ⟨s, result, most, order, free, consistent, sized, ordered⟩
      · exact Or.inl ⟨by rw [fails, Option.bind_none], none_⟩
      · rw [result, Option.bind_some]
        rcases consistent.step sized op with
          ⟨fails, none_⟩ | ⟨s', stepped, order', free', consistent', sized', most', moves⟩
        · exact Or.inl ⟨fails, most ▸ none_⟩
        · exact Or.inr ⟨s', stepped, most'.trans most, order', free', consistent', sized',
            moves.pairwise ordered⟩

/-- **Every sequence of operations** leaves the cache structured, and completes on a cache that may
hold an element. -/
theorem structured [Inhabited K] [Inhabited V] (maxElements : Nat) (ops : List (Op K V)) :
    (0 < maxElements → (run maxElements ops).isSome) ∧
      ∀ s ∈ run maxElements ops, Structured ops s := by
  rcases run_spec maxElements ops with
    ⟨fails, none_⟩ | ⟨s, result, _, order, free, consistent, sized, ordered⟩
  · rw [fails, none_]
    exact ⟨fun positive => absurd positive (Nat.lt_irrefl 0), fun s member => by cases member⟩
  · rw [result]
    refine ⟨fun _ => rfl, fun s' member => ?_⟩
    cases member
    exact ⟨order, free, consistent, ordered, consistent.evictsTailOnly sized,
      consistent.insertsInFront sized⟩

end LruCache

end Mozkey.Storage
