import Mozkey.Storage.LruCacheRuns

/-!
# The capacity of `LruCache`

The blocks of a cache are sized so that the ten of them hold the elements that the cache may hold.
The size of the first block is chosen as if the sizes, each twice the one before, added up to 1024
times the first; they add up to 1023 times the first.

Beyond `2 ^ 63` elements the shifts of the constructor lose the size, and it never returns.

**`keepsUntilFull_iff`** says which caches evict no element before they are full.
-/

namespace Mozkey.Storage

namespace LruCache

variable {K V : Type} [DecidableEq K]

/-! ## The blocks -/

/-- What the sizes of blocks are computed from. -/
structure Blocks where
  count : Nat
  capacity : Nat
  nextSize : Nat
  maxElements : Nat

/-- `AddBlock`, as far as the sizes go. -/
def Blocks.add (b : Blocks) : Blocks :=
  if b.count < maxBlocks ∧ b.capacity < b.maxElements then
    { b with
      count := b.count + 1
      capacity := b.capacity + b.nextSize
      nextSize := sizeAfter (b.count + 1) (b.capacity + b.nextSize) b.nextSize b.maxElements }
  else b

/-- Some blocks more. -/
inductive Blocks.Grows (b : Blocks) : Blocks → Prop
  | refl : Grows b b
  | add {b' : Blocks} (grows : Grows b b') : Grows b b'.add

theorem Blocks.Grows.trans {b b' b'' : Blocks} (first : b.Grows b') (second : b'.Grows b'') :
    b.Grows b'' := by
  induction second with
  | refl => exact first
  | add _ ih => exact .add ih

/-- The blocks of a cache. -/
def blocks (s : LruCache K V) : Blocks :=
  ⟨s.blockCount, s.blockCapacity, s.nextBlockSize, s.maxElements⟩

/-! ## What the operations do to the blocks and to the table -/

section
variable {s s' : LruCache K V} {e : Nat}

omit [DecidableEq K] in
theorem SameContents.blocks (contents : SameContents s s') : s'.blocks = s.blocks := by
  rw [LruCache.blocks, contents.blockCount, contents.blockCapacity, contents.nextBlockSize,
    contents.maxElements]
  rfl

omit [DecidableEq K] in
theorem sameContents_unlinkElement (s : LruCache K V) (e : Nat) :
    SameContents s (s.unlinkElement e) :=
  (((sameContents_setNextAt _ _ _).trans (sameContents_setPrevAt _ _ _)).trans
    (sameContents_setPrev _ _ _)).trans (sameContents_setNext _ _ _)

omit [DecidableEq K] in
theorem sameContents_removeFromLRU (s : LruCache K V) (e : Nat) :
    SameContents s (s.removeFromLRU e) := by
  rw [removeFromLRU_eq]
  obtain ⟨table, keyOf, count, capacity, size, most⟩ := sameContents_unlinkElement s e
  exact ⟨table, keyOf, count, capacity, size, most⟩

omit [DecidableEq K] in
theorem sameContents_pushLRUHead (s : LruCache K V) (e : Nat) :
    SameContents s (s.pushLRUHead e) := by
  unfold pushLRUHead
  split
  · exact .refl s
  · have linked := (sameContents_removeFromLRU s e).trans
      (sameContents_setNext (s.removeFromLRU e) e (s.removeFromLRU e).lruHead)
    let headed : LruCache K V :=
      { (s.removeFromLRU e).setNext e (s.removeFromLRU e).lruHead with lruHead := some e }
    have withHead : SameContents s headed :=
      linked.trans ⟨rfl, rfl, rfl, rfl, rfl, rfl⟩
    have pushed := withHead.trans (sameContents_setPrevAt headed (headed.heap e).next (some e))
    dsimp only
    split
    · exact pushed.trans ⟨rfl, rfl, rfl, rfl, rfl, rfl⟩
    · exact pushed

omit [DecidableEq K] in
theorem sameContents_popFreeList {r : Option Nat} (popped : s.popFreeList = some (r, s')) :
    SameContents s s' := by
  unfold popFreeList at popped
  split at popped
  · cases popped
    exact .refl s
  · split at popped
    · rename_i e _ _
      cases popped
      let rest : LruCache K V := { s with freeList := (s.heap e).next }
      have unlinked : SameContents s rest := ⟨rfl, rfl, rfl, rfl, rfl, rfl⟩
      exact (unlinked.trans (sameContents_setPrevAt rest rest.freeList none)).trans
        (sameContents_setNext _ e none)
    · cases popped

omit [DecidableEq K] in
theorem addBlock_contents (s : LruCache K V) :
    s.addBlock.table = s.table ∧ s.addBlock.blocks = s.blocks.add := by
  by_cases room : s.blockCount < maxBlocks ∧ s.blockCapacity < s.maxElements
  · have pushed := sameContents_pushAll
      ({ s with blockCapacity := s.blockCapacity + s.nextBlockSize } : LruCache K V) s.nextBlock
    rw [nextBlock, List.foldl_map] at pushed
    obtain ⟨table, -, count, capacity, size, most⟩ := pushed
    have grown : s.blocks.add =
        ⟨s.blockCount + 1, s.blockCapacity + s.nextBlockSize,
          sizeAfter (s.blockCount + 1) (s.blockCapacity + s.nextBlockSize) s.nextBlockSize
            s.maxElements, s.maxElements⟩ := if_pos room
    rw [grown, addBlock, if_pos room]
    refine ⟨table, ?_⟩
    dsimp only [LruCache.blocks]
    rw [count, capacity, size, most]
  · rw [addBlock, if_neg room, Blocks.add]
    exact ⟨rfl, (if_neg room).symm⟩

omit [DecidableEq K] in
/-- The next free element is taken from the free list, or one block is added. -/
theorem nextFreeElement_contents {r : Option Nat} (next : s.nextFreeElement = some (r, s')) :
    s'.table = s.table ∧ s.blocks.Grows s'.blocks := by
  simp only [nextFreeElement, Option.bind_eq_bind, Option.bind_eq_some_iff] at next
  obtain ⟨⟨r₁, s₁⟩, popped, rest⟩ := next
  have first := sameContents_popFreeList popped
  cases r₁ with
  | some e =>
      cases rest
      refine ⟨first.table, ?_⟩
      rw [first.blocks]
      exact .refl
  | none =>
      obtain ⟨table, grown⟩ := addBlock_contents s₁
      have second := sameContents_popFreeList rest
      refine ⟨second.table.trans (table.trans first.table), ?_⟩
      rw [second.blocks, grown, first.blocks]
      exact .add .refl

omit [DecidableEq K] in
/-- Where there is no free element, a block was added if one could be. -/
theorem nextFreeElement_none (next : s.nextFreeElement = some (none, s')) :
    s'.blocks = s.blocks.add := by
  simp only [nextFreeElement, Option.bind_eq_bind, Option.bind_eq_some_iff] at next
  obtain ⟨⟨r₁, s₁⟩, popped, rest⟩ := next
  cases r₁ with
  | some e => cases rest
  | none =>
      rw [(sameContents_popFreeList rest).blocks, (addBlock_contents s₁).2,
        (sameContents_popFreeList popped).blocks]

theorem evict_blocks {p : Option Nat} {erased : Bool} (evicted : s.evict p = some (erased, s')) :
    s'.blocks = s.blocks := by
  unfold evict at evicted
  split at evicted
  · rename_i e
    split at evicted
    · cases evicted
      let dropped : LruCache K V := { s with table := s.table.erase (s.heap e).key }
      have contents := (sameContents_removeFromLRU dropped e).trans
        (sameContents_pushFreeList (dropped.removeFromLRU e) e)
      exact contents.blocks
    · cases evicted
  · cases evicted
    rfl

theorem evictKey_blocks {key : K} (evicted : s.evictKey key = some s') : s'.blocks = s.blocks := by
  unfold evictKey at evicted
  split at evicted
  · simp only [Option.bind_eq_bind, Option.bind_eq_some_iff] at evicted
    obtain ⟨⟨erased, s₁⟩, first, _, -, same⟩ := evicted
    cases same
    exact evict_blocks first
  · cases evicted
    rfl

theorem takeElement_blocks (taken : s.takeElement = some (e, s')) : s.blocks.Grows s'.blocks := by
  simp only [takeElement, Option.bind_eq_bind, Option.bind_eq_some_iff] at taken
  obtain ⟨⟨r₁, s₁⟩, next, rest⟩ := taken
  have first := (nextFreeElement_contents next).2
  cases r₁ with
  | some e =>
      cases rest
      exact first
  | none =>
      simp only [Option.bind_eq_some_iff] at rest
      obtain ⟨⟨erased, s₂⟩, evicted, _, -, ⟨r₃, s₃⟩, again, _, -, same⟩ := rest
      cases same
      have second := (nextFreeElement_contents again).2
      rw [evict_blocks evicted] at second
      exact first.trans second

theorem insertKey_blocks {key : K} (inserted : s.insertKey key = some (e, s')) :
    s.blocks.Grows s'.blocks := by
  simp only [insertKey, Option.bind_eq_bind, Option.bind_eq_some_iff] at inserted
  obtain ⟨s₁, evicted, ⟨f, s₂⟩, taken, same⟩ := inserted
  cases same
  have grows := takeElement_blocks taken
  rw [evictKey_blocks evicted] at grows
  rw [(sameContents_pushLRUHead _ _).blocks]
  exact grows

theorem mutableLookup_blocks (s : LruCache K V) (key : K) :
    (s.mutableLookup key).2.blocks = s.blocks := by
  unfold mutableLookup
  split
  · exact (sameContents_pushLRUHead s _).blocks
  · rfl

omit [DecidableEq K] in
theorem clearLoop_blocks {fuel : Nat} {p : Option Nat} (cleared : clearLoop fuel p s = some s') :
    s'.blocks = s.blocks := by
  induction fuel generalizing s p with
  | zero =>
      cases p with
      | none =>
          cases cleared
          rfl
      | some e => cases cleared
  | succ fuel ih =>
      cases p with
      | none =>
          cases cleared
          rfl
      | some e =>
          rw [ih cleared]
          exact (sameContents_pushFreeList s e).blocks

/-- No operation does anything else to the blocks than to add some. -/
theorem step_blocks {op : Op K V} (stepped : s.step op = some s') : s.blocks.Grows s'.blocks := by
  have same {s s' : LruCache K V} (blocks : s'.blocks = s.blocks) : s.blocks.Grows s'.blocks := by
    rw [blocks]
    exact .refl
  cases op with
  | insert key value =>
      simp only [LruCache.step, LruCache.insert, Option.bind_eq_bind, Option.bind_eq_some_iff] at stepped
      obtain ⟨⟨e, s₁⟩, inserted, isNext⟩ := stepped
      cases isNext
      have grows := insertKey_blocks inserted
      exact grows
  | insertKey key write =>
      simp only [LruCache.step, Option.bind_eq_bind, Option.bind_eq_some_iff] at stepped
      obtain ⟨⟨e, s₁⟩, inserted, isNext⟩ := stepped
      cases isNext
      have grows := insertKey_blocks inserted
      exact grows
  | lookup key =>
      cases stepped
      exact same (mutableLookup_blocks s key)
  | lookupWithoutInsert key =>
      cases stepped
      exact .refl
  | mutableLookup key write =>
      have blocks := mutableLookup_blocks s key
      rw [LruCache.step] at stepped
      generalize s.mutableLookup key = result at stepped blocks
      obtain ⟨_ | e, s₁⟩ := result
      · cases stepped
        exact same blocks
      · cases stepped
        exact same blocks
  | erase key =>
      simp only [LruCache.step, Option.map_eq_some_iff] at stepped
      obtain ⟨⟨erased, s₁⟩, evicted, isNext⟩ := stepped
      cases isNext
      exact same (evict_blocks evicted)
  | clear =>
      simp only [LruCache.step, LruCache.clear, Option.bind_eq_bind, Option.bind_eq_some_iff] at stepped
      obtain ⟨s₁, looped, isNext⟩ := stepped
      cases isNext
      have blocks := clearLoop_blocks looped
      exact same blocks

theorem run_blocks [Inhabited K] [Inhabited V] {maxElements : Nat} {ops : List (Op K V)}
    (result : run maxElements ops = some s) :
    (new maxElements : LruCache K V).blocks.Grows s.blocks := by
  unfold run at result
  generalize (new maxElements : LruCache K V) = start at result ⊢
  induction ops generalizing start with
  | nil =>
      cases result
      exact .refl
  | cons op ops ih =>
      simp only [List.foldlM_cons, Option.bind_eq_bind, Option.bind_eq_some_iff] at result
      obtain ⟨s₁, stepped, rest⟩ := result
      exact (step_blocks stepped).trans (ih _ rest)

end

/-! ## The sizes -/

/-- How far the blocks got.  The sizes double as long as what is left to allocate can be shared
among the blocks that are left; from then on they are equal shares. -/
inductive Phase (first most : Nat) : Blocks → Prop
  | start : Phase first most ⟨0, 0, first, most⟩
  | doubling {i capacity size : Nat} (least : 1 ≤ i) (notLast : i ≤ 9) (positive : 0 < first)
      (doubled : size = 2 ^ i * first) (sum : capacity + first = size)
      (fits : size * (10 - i) + capacity ≤ most) :
      Phase first most ⟨i, capacity, size, most⟩
  | even {i capacity size : Nat} (left : Nat) (least : 1 ≤ i) (notLast : i ≤ 9)
      (isLeft : capacity + left = most) (positive : 1 ≤ size) (shares : size * (10 - i) ≤ left)
      (noMore : left < (size + 1) * (10 - i)) (reached : most ≤ 1023 * first) :
      Phase first most ⟨i, capacity, size, most⟩
  | filled {i size : Nat} (reached : most ≤ 1023 * first) : Phase first most ⟨i, most, size, most⟩
  | short {size : Nat} (missed : 1023 * first < most) :
      Phase first most ⟨10, 1023 * first, size, most⟩

theorem sizeAfter_eq {count capacity size most : Nat} (notLast : count < 10)
    (inside : capacity ≤ most) :
    sizeAfter count capacity size most = min (2 * size) ((most - capacity) / (10 - count)) := by
  have shared : (most - capacity) / (10 - count) ≤ most - capacity := Nat.div_le_self _ _
  have left : 0 < maxBlocks - count := Nat.sub_pos_of_lt notLast
  have ten : maxBlocks - count = 10 - count := rfl
  rw [sizeAfter, if_pos left, Nat.shiftLeft_eq, ten]
  dsimp only
  generalize (most - capacity) / (10 - count) = share at shared ⊢
  by_cases shares : share < size * 2 ^ 1
  · rw [if_pos shares, if_neg (by omega)]
    omega
  · rw [if_neg shares, if_neg (by omega)]
    omega

/-- The block after the next one, when there is one. -/
theorem Blocks.add_eq {count capacity size most : Nat} (notLast : count + 1 < 10)
    (inside : capacity + size ≤ most) (room : capacity < most) :
    Blocks.add ⟨count, capacity, size, most⟩ =
      ⟨count + 1, capacity + size,
        min (2 * size) ((most - (capacity + size)) / (10 - (count + 1))), most⟩ := by
  rw [Blocks.add, if_pos ⟨Nat.lt_of_succ_lt notLast, room⟩]
  dsimp only
  rw [sizeAfter_eq notLast inside]

/-- The tenth block. -/
theorem Blocks.add_last {capacity size most : Nat} (room : capacity < most) :
    Blocks.add ⟨9, capacity, size, most⟩ = ⟨10, capacity + size, size, most⟩ := by
  rw [Blocks.add, if_pos ⟨Nat.lt_succ_self 9, room⟩]
  rfl

variable {first most : Nat} {b : Blocks}

theorem Phase.add (phase : Phase first most b)
    (roomy : first = most ∨ 0 < first ∧ first + 9 ≤ most) : Phase first most b.add := by
  cases phase with
  | start =>
      rcases roomy with rfl | ⟨positive, roomy⟩
      · by_cases none_ : first = 0
        · subst none_
          exact .filled (Nat.le_refl 0)
        · have reached : first ≤ 1023 * first := Nat.le_mul_of_pos_left _ (by decide)
          rw [Blocks.add_eq (by decide) (by omega) (by omega), Nat.zero_add first]
          exact .filled reached
      · rw [Blocks.add_eq (by decide) (by omega) (by omega), Nat.zero_add, Nat.zero_add]
        by_cases fits : 2 * first ≤ (most - first) / (10 - 1)
        · rw [min_eq_left fits]
          exact .doubling (Nat.le_refl 1) (by decide) positive rfl (by omega) (by omega)
        · rw [min_eq_right (by omega)]
          have shares := Nat.div_add_mod (most - first) (10 - 1)
          refine .even (most - first) (Nat.le_refl 1) (by decide) (by omega) ?_ ?_ ?_ ?_
          all_goals omega
  | @doubling i capacity size least notLast positive doubled sum fits =>
      rcases Nat.lt_or_ge i 9 with before | last
      · interval_cases i
        all_goals
          rw [Blocks.add_eq (by decide) (by omega) (by omega)]
          rcases min_choice (2 * size) ((most - (capacity + size)) / _) with more | less
          · rw [more]
            exact .doubling (by decide) (by decide) positive (by omega) (by omega) (by omega)
          · rw [less]
            refine .even (most - (capacity + size)) (by decide) (by decide) ?_ ?_ ?_ ?_ ?_
            all_goals omega
      · obtain rfl : i = 9 := le_antisymm notLast last
        have whole : capacity + size = 1023 * first := by omega
        rw [Blocks.add_last (by omega), whole]
        rcases Nat.lt_or_ge (1023 * first) most with missed | reached
        · exact .short missed
        · obtain rfl : most = 1023 * first := by omega
          exact .filled reached
  | @even i capacity size left least notLast isLeft positive shares noMore reached =>
      rcases Nat.lt_or_ge i 9 with before | last
      · interval_cases i
        all_goals
          rw [Blocks.add_eq (by decide) (by omega) (by omega), min_eq_right (by omega)]
          refine .even (left - size) (by decide) (by decide) ?_ ?_ ?_ ?_ ?_
          all_goals omega
      · obtain rfl : i = 9 := le_antisymm notLast last
        obtain rfl : capacity + size = most := by omega
        rw [Blocks.add_last (by omega)]
        exact .filled reached
  | filled reached =>
      rw [Blocks.add, if_neg fun room => Nat.lt_irrefl _ room.2]
      exact .filled reached
  | short missed =>
      rw [Blocks.add, if_neg fun room => Nat.lt_irrefl _ room.1]
      exact .short missed

theorem Phase.grows {b' : Blocks} (grows : b.Grows b') (phase : Phase first most b)
    (roomy : first = most ∨ 0 < first ∧ first + 9 ≤ most) : Phase first most b' := by
  induction grows with
  | refl => exact phase
  | add _ ih => exact ih.add roomy

/-- When all blocks that may be added add nothing, they hold as many elements as the cache may. -/
theorem Phase.capacity_eq (phase : Phase first most b) (reached : most ≤ 1023 * first)
    (noMore : b.add.capacity = b.capacity) : b.capacity = most := by
  have grown (room : b.count < maxBlocks ∧ b.capacity < b.maxElements) :
      b.add.capacity = b.capacity + b.nextSize := by rw [Blocks.add, if_pos room]
  cases phase with
  | start =>
      by_cases empty : most = 0
      · exact empty.symm
      · have added := grown ⟨Nat.succ_pos 9, Nat.pos_of_ne_zero empty⟩
        dsimp only at added noMore ⊢
        omega
  | @doubling i capacity size least notLast positive doubled sum fits =>
      have some_ : first ≤ 2 ^ i * first := Nat.le_mul_of_pos_left _ (Nat.two_pow_pos i)
      have shares : size ≤ size * (10 - i) := Nat.le_mul_of_pos_right _ (by omega)
      have added := grown ⟨Nat.lt_succ_of_le notLast, by dsimp only; omega⟩
      dsimp only at added noMore ⊢
      omega
  | @even i capacity size left least notLast isLeft positive shares noMore' reached =>
      have some_ : size ≤ size * (10 - i) := Nat.le_mul_of_pos_right _ (by omega)
      have added := grown ⟨Nat.lt_succ_of_le notLast, by dsimp only; omega⟩
      dsimp only at added noMore ⊢
      omega
  | filled reached => rfl
  | short missed => exact absurd reached (Nat.not_le_of_lt missed)

/-- The ten blocks hold 1023 times as many elements as the first one, and no more. -/
theorem Phase.capacity_le (phase : Phase first most b) (missed : 1023 * first < most) :
    b.capacity ≤ 1023 * first := by
  cases phase with
  | start => exact Nat.zero_le _
  | @doubling i capacity size least notLast positive doubled sum fits =>
      have most_ : 2 ^ i * first ≤ 2 ^ 9 * first :=
        Nat.mul_le_mul_right _ (Nat.pow_le_pow_right (by decide) notLast)
      dsimp only
      omega
  | even _ _ _ _ _ _ _ reached => exact absurd reached (Nat.not_le_of_lt missed)
  | filled reached => exact absurd reached (Nat.not_le_of_lt missed)
  | short _ => exact Nat.le_refl _

/-! ## The first block -/

theorem growBlockSize_spec (maxElements fuel : Nat) {size : Nat} (positive : 0 < size)
    (enough : maxElements ≤ size + fuel) :
    ∃ k, growBlockSize maxElements fuel size = size * 2 ^ k ∧ maxElements ≤ size * 2 ^ k * 1024 ∧
      ∀ j < k, size * 2 ^ j * 1024 < maxElements := by
  induction fuel generalizing size with
  | zero => exact ⟨0, by simp [growBlockSize], by omega, fun j less => absurd less (Nat.not_lt_zero j)⟩
  | succ fuel ih =>
      have shifted : size <<< maxBlocks = size * 1024 := Nat.shiftLeft_eq size maxBlocks
      have twice : size <<< 1 = size * 2 := Nat.shiftLeft_eq size 1
      rw [growBlockSize, shifted, twice]
      by_cases small : size * 1024 < maxElements
      · obtain ⟨k, result, reached, before⟩ := ih (Nat.mul_pos positive Nat.two_pos) (by omega)
        have power (j : Nat) : size * 2 ^ (j + 1) = size * 2 * 2 ^ j := by
          rw [Nat.pow_succ', Nat.mul_assoc]
        refine ⟨k + 1, by rw [if_pos small, result, power], by rwa [power], fun j less => ?_⟩
        cases j with
        | zero => simpa using small
        | succ j =>
            rw [power]
            exact before j (Nat.lt_of_succ_lt_succ less)
      · exact ⟨0, by rw [if_neg small, Nat.pow_zero, Nat.mul_one], by omega,
          fun j less => absurd less (Nat.not_lt_zero j)⟩

/-- The last 1024th below a power of two, where the doubled sizes do not add up. -/
def FallsShort (maxElements : Nat) : Prop :=
  ∃ k, 1023 * 2 ^ (6 + k) < maxElements ∧ maxElements ≤ 1024 * 2 ^ (6 + k)

theorem firstBlockSize_spec (maxElements : Nat) :
    (firstBlockSize maxElements = maxElements ∨
        0 < firstBlockSize maxElements ∧ firstBlockSize maxElements + 9 ≤ maxElements) ∧
      (¬ FallsShort maxElements ↔ maxElements ≤ 1023 * firstBlockSize maxElements) := by
  by_cases small : maxElements ≤ 128
  · have first : firstBlockSize maxElements = maxElements := if_pos small
    refine ⟨.inl first, iff_of_true ?_ (by omega)⟩
    rintro ⟨k, least, -⟩
    have power : 2 ^ 6 ≤ 2 ^ (6 + k) := Nat.pow_le_pow_right (by decide) (Nat.le_add_right 6 k)
    omega
  · obtain ⟨k, result, reached, before⟩ :=
      growBlockSize_spec maxElements maxElements (Nat.succ_pos 63) (by omega)
    have first : firstBlockSize maxElements = 64 * 2 ^ k := by
      rw [firstBlockSize, if_neg small, result]
    have power (j : Nat) : 2 ^ (6 + j) = 64 * 2 ^ j := Nat.pow_add 2 6 j
    have positive : 0 < 2 ^ k := Nat.two_pow_pos k
    rw [first]
    refine ⟨.inr ⟨by omega, ?_⟩, ?_⟩
    · cases k with
      | zero => omega
      | succ k =>
          have smaller := before k (Nat.lt_succ_self k)
          have some_ := Nat.two_pow_pos k
          rw [Nat.pow_succ]
          omega
    · constructor
      · intro fits
        by_contra missed
        exact fits ⟨k, by rw [power]; omega, by rw [power]; omega⟩
      · rintro fits ⟨j, least, most⟩
        rw [power] at least most
        rcases Nat.lt_or_ge j k with less | notLess
        · have smaller := before j less
          omega
        · have larger : 2 ^ k ≤ 2 ^ j := Nat.pow_le_pow_right (by decide) notLess
          omega

/-! ## Evicting -/

section
variable {s s' : LruCache K V} {order free : List Nat} {e : Nat} {key : K}

/-- The table has as many keys as the LRU list has elements. -/
theorem Consistent.table_length (consistent : Consistent s order free) :
    s.table.keys.length = order.length := by
  have nodup : order.Nodup := (List.nodup_append.1 consistent.nodup).1
  have injective : ∀ e ∈ order, ∀ f ∈ order, s.keyOf e = s.keyOf f → e = f := by
    intro e member f member' same
    have found := consistent.lookup_keyOf member
    rw [same, consistent.lookup_keyOf member'] at found
    exact (Option.some.inj found).symm
  have same : s.table.keys.Perm (order.map s.keyOf) := by
    refine (List.perm_ext_iff_of_nodup s.table.keys_nodup ?_).2 fun key => ?_
    · exact nodup.map_on injective
    · have inTable : key ∈ s.table.keys ↔ (s.table.lookup key).isSome := AList.lookup_isSome.symm
      rw [inTable, List.mem_map, Option.isSome_iff_exists]
      exact exists_congr fun e => consistent.mapped key e
  rw [same.length_eq, List.length_map]

/-- Without free elements, all elements of the blocks are on the list. -/
theorem Consistent.order_length (consistent : Consistent s order []) :
    order.length = s.blockCapacity := by
  have nodup : order.Nodup := (List.nodup_append.1 consistent.nodup).1
  have all : order.Perm (List.range s.blockCapacity) := by
    refine (List.perm_ext_iff_of_nodup nodup List.nodup_range).2 fun e => ?_
    rw [List.mem_range, ← consistent.allocated, List.append_nil]
  rw [all.length_eq, List.length_range]

/-- An insertion of a new key takes an element, and the key is added to the table that is left. -/
theorem insertKey_new (isNew : key ∉ s.table) (inserted : s.insertKey key = some (e, s')) :
    ∃ s₁, s.takeElement = some (e, s₁) ∧ s'.table = s₁.table.insert key e := by
  have absent : s.lookupInternal key = none := AList.lookup_eq_none.2 isNew
  simp only [insertKey, Option.bind_eq_bind, Option.bind_eq_some_iff] at inserted
  obtain ⟨s₀, evicted, ⟨f, s₁⟩, taken, same⟩ := inserted
  cases same
  rw [evictKey, absent] at evicted
  cases evicted
  exact ⟨s₁, taken, (sameContents_pushLRUHead _ _).table⟩

/-- **Keys are only evicted when no block has a free element and none can be added.** -/
theorem Consistent.insertKey_evicts (consistent : Consistent s order free) (sized : Sized s)
    (isNew : key ∉ s.table) (inserted : s.insertKey key = some (e, s')) {other : K}
    (before : other ∈ s.table) (after : other ∉ s'.table) :
    s.table.keys.length = s.blocks.capacity ∧ s.blocks.add.capacity = s.blocks.capacity := by
  obtain ⟨s₁, taken, table⟩ := insertKey_new isNew inserted
  rw [table] at after
  rcases consistent.nextFreeElement sized with
    ⟨f, s₂, free', next, -⟩ | ⟨rfl, s₂, next, consistent', -⟩
  · -- the table is not touched
    have same : s₁.table = s.table := by
      rw [LruCache.takeElement, next] at taken
      cases taken
      exact (nextFreeElement_contents next).1
    rw [same] at after
    exact absurd ((AList.mem_insert _).2 (Or.inr before)) after
  · have grown : s.blocks.add.capacity = s₂.blockCapacity := by
      rw [← nextFreeElement_none next]
      rfl
    have capacity : s.blocks.capacity = s.blockCapacity := rfl
    rw [consistent.table_length, grown, capacity, ← consistent.order_length,
      ← consistent'.order_length]
    exact ⟨rfl, rfl⟩

/-- An insertion evicts an element only when the cache holds as many as it may. -/
def EvictsOnlyWhenFull (s : LruCache K V) : Prop :=
  ∀ op key s', Op.Inserts op key → key ∉ s.table → s.step op = some s' →
    ∀ other ∈ s.table, other ∉ s'.table → s.table.keys.length = s.maxElements

theorem Consistent.evictsOnlyWhenFull (consistent : Consistent s order free) (sized : Sized s)
    {first : Nat} (phase : Phase first s.maxElements s.blocks)
    (reached : s.maxElements ≤ 1023 * first) : EvictsOnlyWhenFull s := by
  intro op key s' inserts isNew stepped other before after
  have written : ∀ e (s₁ : LruCache K V), s.insertKey key = some (e, s₁) →
      s'.table = s₁.table → s.table.keys.length = s.maxElements := by
    intro e s₁ inserted table
    rw [table] at after
    obtain ⟨length, noMore⟩ := consistent.insertKey_evicts sized isNew inserted before after
    rw [length, phase.capacity_eq reached noMore]
  cases op with
  | insert key' value =>
      cases (inserts : key' = key)
      simp only [LruCache.step, LruCache.insert, Option.bind_eq_bind, Option.bind_eq_some_iff] at stepped
      obtain ⟨⟨e, s₁⟩, inserted, isNext⟩ := stepped
      cases isNext
      exact written e s₁ inserted rfl
  | insertKey key' write =>
      cases (inserts : key' = key)
      simp only [LruCache.step, Option.bind_eq_bind, Option.bind_eq_some_iff] at stepped
      obtain ⟨⟨e, s₁⟩, inserted, isNext⟩ := stepped
      cases isNext
      exact written e s₁ inserted rfl
  | lookup | lookupWithoutInsert | mutableLookup | erase | clear => exact absurd inserts id

end

/-! ## The constructor on 64 bits -/

/-- The loop of the constructor, with shifts of 64 bits; `none` while it has not ended. -/
def growBlockSizeWord (maxElements : Nat) : Nat → Nat → Option Nat
  | 0, _ => none
  | fuel + 1, size =>
      if size <<< maxBlocks % 2 ^ 64 < maxElements then
        growBlockSizeWord maxElements fuel (size <<< 1 % 2 ^ 64)
      else some size

/-- `LruCache(max_elements)` on 64 bits. -/
def construct [Inhabited K] [Inhabited V] (maxElements fuel : Nat) : Option (LruCache K V) :=
  if maxElements ≤ 128 then some (new maxElements)
  else (growBlockSizeWord maxElements fuel 64).map fun size =>
    { new maxElements with nextBlockSize := size }

/-- Up to `2 ^ 63` no bit is lost. -/
theorem growBlockSizeWord_eq {maxElements : Nat} (fits : maxElements ≤ 2 ^ 63) (fuel i : Nat)
    (inside : i ≤ 53) (enough : 54 ≤ fuel + i) :
    growBlockSizeWord maxElements fuel (2 ^ i) = some (growBlockSize maxElements fuel (2 ^ i)) := by
  induction fuel generalizing i with
  | zero => omega
  | succ fuel ih =>
      have below : 2 ^ i * 1024 ≤ 2 ^ 63 := by
        have power : 2 ^ i * 2 ^ 10 = 2 ^ (i + 10) := (Nat.pow_add 2 i 10).symm
        calc
          2 ^ i * 1024 = 2 ^ (i + 10) := power
          _ ≤ 2 ^ 63 := Nat.pow_le_pow_right (by decide) (by omega)
      have shifted : 2 ^ i <<< maxBlocks = 2 ^ i * 1024 := Nat.shiftLeft_eq _ _
      have twice : 2 ^ i <<< 1 = 2 ^ (i + 1) := by rw [Nat.shiftLeft_eq, ← Nat.pow_add]
      have twiceFits : 2 ^ (i + 1) < 2 ^ 64 := Nat.pow_lt_pow_right (by decide) (by omega)
      rw [growBlockSizeWord, growBlockSize, shifted, Nat.mod_eq_of_lt (by omega), twice,
        Nat.mod_eq_of_lt twiceFits]
      by_cases small : 2 ^ i * 1024 < maxElements
      · have notLast : i ≠ 53 := by
          rintro rfl
          omega
        rw [if_pos small, if_pos small, ih (i + 1) (by omega) (by omega)]
      · rw [if_neg small, if_neg small]

/-- Beyond, the loop does not end: the shifted size never gets there. -/
theorem growBlockSizeWord_none {maxElements : Nat} (large : 2 ^ 63 < maxElements) (fuel : Nat)
    {size : Nat} (power : size = 0 ∨ ∃ i, size = 2 ^ i) :
    growBlockSizeWord maxElements fuel size = none := by
  have shiftMod (i : Nat) : 2 ^ i % 2 ^ 64 = 0 ∨ 2 ^ i % 2 ^ 64 = 2 ^ i ∧ 2 ^ i ≤ 2 ^ 63 := by
    rcases Nat.lt_or_ge i 64 with less | more
    · have below : 2 ^ i ≤ 2 ^ 63 := Nat.pow_le_pow_right (by decide) (by omega)
      exact .inr ⟨Nat.mod_eq_of_lt (by omega), below⟩
    · exact .inl (Nat.mod_eq_zero_of_dvd (Nat.pow_dvd_pow 2 more))
  induction fuel generalizing size with
  | zero => rfl
  | succ fuel ih =>
      have small : size <<< maxBlocks % 2 ^ 64 < maxElements := by
        rcases power with rfl | ⟨i, rfl⟩
        · rw [Nat.zero_shiftLeft]
          omega
        · rw [Nat.shiftLeft_eq, ← Nat.pow_add]
          rcases shiftMod (i + maxBlocks) with lost | ⟨kept, below⟩ <;> omega
      rw [growBlockSizeWord, if_pos small]
      refine ih ?_
      rcases power with rfl | ⟨i, rfl⟩
      · exact .inl (by rw [Nat.zero_shiftLeft, Nat.zero_mod])
      · rw [Nat.shiftLeft_eq, ← Nat.pow_add]
        rcases shiftMod (i + 1) with lost | ⟨kept, -⟩
        · exact .inl lost
        · exact .inr ⟨_, kept⟩

/-- The loop ends once. -/
theorem growBlockSizeWord_mono {maxElements fuel size result : Nat}
    (ended : growBlockSizeWord maxElements fuel size = some result) (more : Nat) :
    growBlockSizeWord maxElements (fuel + more) size = some result := by
  induction fuel generalizing size with
  | zero => cases ended
  | succ fuel ih =>
      rw [growBlockSizeWord] at ended
      rw [Nat.succ_add, growBlockSizeWord]
      split at ended
      · rename_i small
        rw [if_pos small]
        exact ih ended
      · rename_i large
        rw [if_neg large]
        exact ended

omit [DecidableEq K] in
theorem construct_eq [Inhabited K] [Inhabited V] {maxElements : Nat} (fits : maxElements ≤ 2 ^ 63) :
    ∃ fuel, construct maxElements fuel = some (new maxElements : LruCache K V) := by
  by_cases small : maxElements ≤ 128
  · exact ⟨0, if_pos small⟩
  · have grown := growBlockSizeWord_eq fits maxElements 6 (by decide) (by omega)
    refine ⟨maxElements, ?_⟩
    have first : firstBlockSize maxElements = growBlockSize maxElements maxElements (2 ^ 6) :=
      if_neg small
    have word : growBlockSizeWord maxElements maxElements 64 = some (firstBlockSize maxElements) := by
      rw [first]
      exact grown
    rw [construct, if_neg small, word]
    rfl

omit [DecidableEq K] in
theorem construct_unique [Inhabited K] [Inhabited V] {maxElements fuel fuel' : Nat}
    {start start' : LruCache K V} (built : construct maxElements fuel = some start)
    (built' : construct maxElements fuel' = some start') : start = start' := by
  unfold construct at built built'
  split at built
  · rename_i small
    rw [if_pos small] at built'
    exact Option.some.inj (built.symm.trans built')
  · rename_i large
    rw [if_neg large] at built'
    obtain ⟨size, ended, rfl⟩ := Option.map_eq_some_iff.1 built
    obtain ⟨size', ended', rfl⟩ := Option.map_eq_some_iff.1 built'
    have later := growBlockSizeWord_mono ended fuel'
    rw [Nat.add_comm, growBlockSizeWord_mono ended' fuel] at later
    rw [Option.some.inj later]

omit [DecidableEq K] in
theorem construct_none [Inhabited K] [Inhabited V] {maxElements : Nat}
    (large : 2 ^ 63 < maxElements) (fuel : Nat) :
    (construct maxElements fuel : Option (LruCache K V)) = none := by
  have big : ¬ maxElements ≤ 128 := by omega
  have loops : growBlockSizeWord maxElements fuel 64 = none :=
    growBlockSizeWord_none large fuel (.inr ⟨6, rfl⟩)
  rw [construct, if_neg big, loops, Option.map_none]

/-! ## Main result -/

/-- **A cache is built, evicts an element only when it is full, and retains as many insertions as it
may hold elements.** -/
def KeepsUntilFull (maxElements : Nat) : Prop :=
  ∀ (K V : Type) [DecidableEq K] [Inhabited K] [Inhabited V],
    ∃ fuel, ∃ start : LruCache K V, construct maxElements fuel = some start ∧
      (∀ (ops : List (Op K V)) (s : LruCache K V),
        ops.foldlM step start = some s → EvictsOnlyWhenFull s) ∧
      ∀ items : List (K × V), (items.map Prod.fst).Nodup → items.length ≤ maxElements →
        ∃ s, (items.map fun item => Op.insert item.1 item.2).foldlM step start = some s ∧
          ∀ item ∈ items, item.1 ∈ s.table

theorem evictsOnlyWhenFull_of_run [Inhabited K] [Inhabited V] {maxElements : Nat}
    (adds : ¬ FallsShort maxElements) {ops : List (Op K V)} {s : LruCache K V}
    (result : run maxElements ops = some s) : EvictsOnlyWhenFull s := by
  obtain ⟨roomy, reach⟩ := firstBlockSize_spec maxElements
  rcases run_spec maxElements ops with
    ⟨fails, _⟩ | ⟨s', result', rfl, order, free, consistent, sized, -⟩
  · rw [fails] at result
    cases result
  · rw [result'] at result
    cases result
    have phase := Phase.grows (run_blocks result') .start roomy
    exact consistent.evictsOnlyWhenFull sized phase (reach.1 adds)

/-- An insertion adds its key; that of a new key keeps the others, unless the cache is full. -/
theorem Consistent.insertKey_table {s s' : LruCache K V} {order free : List Nat} {e : Nat} {key : K}
    (consistent : Consistent s order free) (sized : Sized s) (evicts : EvictsOnlyWhenFull s)
    (isNew : key ∉ s.table) (room : s.table.keys.length < s.maxElements)
    (inserted : s.insertKey key = some (e, s')) (other : K) :
    other ∈ s'.table ↔ other = key ∨ other ∈ s.table := by
  obtain ⟨s₁, taken, table⟩ := insertKey_new isNew inserted
  constructor
  · intro after
    rcases consistent.insertKey sized key with
      ⟨fails, _⟩ | ⟨e', s'', kept, free', result, consistent', -, -, isInserted⟩
    · rw [fails] at inserted
      cases inserted
    · rw [result] at inserted
      cases inserted
      obtain ⟨f, found⟩ := Option.isSome_iff_exists.1 (AList.lookup_isSome.2 after)
      obtain ⟨member, isOther⟩ := (consistent'.mapped other f).1 found
      rcases List.mem_cons.1 member with rfl | inKept
      · exact .inl (isOther.symm.trans isInserted.isKey)
      · have inOrder := isInserted.sublist.subset inKept
        rw [(isInserted.others f inKept).1] at isOther
        exact .inr (AList.lookup_isSome.1
          (Option.isSome_iff_exists.2 ⟨f, (consistent.mapped other f).2 ⟨inOrder, isOther⟩⟩))
  · rintro (rfl | before)
    · rw [table]
      exact (AList.mem_insert _).2 (Or.inl rfl)
    · by_contra after
      have stepped : s.step (.insertKey key id) = some (s'.modifyValue e id) := by
        rw [LruCache.step, inserted]
        rfl
      exact absurd (evicts (.insertKey key id) key _ rfl isNew stepped other before after)
        (Nat.ne_of_lt room)

/-- Insertions of different keys leave these keys behind. -/
theorem run_inserts [Inhabited K] [Inhabited V] {maxElements : Nat} (adds : ¬ FallsShort maxElements)
    (items : List (K × V)) (different : (items.map Prod.fst).Nodup)
    (most : items.length ≤ maxElements) :
    ∃ s : LruCache K V, run maxElements (items.map fun item => Op.insert item.1 item.2) = some s ∧
      s.table.keys.Perm (items.map Prod.fst) := by
  induction items using List.reverseRecOn with
  | nil => exact ⟨new maxElements, rfl, List.Perm.refl _⟩
  | append_singleton items item ih =>
      obtain ⟨key, value⟩ := item
      rw [List.map_append, List.map_singleton, List.nodup_append] at different
      rw [List.length_append, List.length_singleton] at most
      obtain ⟨s, result, keys⟩ := ih different.1 (Nat.le_of_succ_le most)
      have evicts := evictsOnlyWhenFull_of_run adds result
      have isNew : key ∉ s.table := fun member =>
        different.2.2 key (keys.mem_iff.1 member) key List.mem_cons_self rfl
      rcases run_spec maxElements (items.map fun item => Op.insert item.1 item.2) with
        ⟨fails, _⟩ | ⟨s', result', rfl, order, free, consistent, sized, -⟩
      · rw [fails] at result
        cases result
      · rw [result'] at result
        cases result
        have room : s.table.keys.length < s.maxElements := by
          rw [keys.length_eq, List.length_map]
          exact most
        rcases consistent.insertKey sized key with
          ⟨-, none_⟩ | ⟨e, s', kept, free', inserted, -⟩
        · omega
        · refine ⟨s'.modifyValue e fun _ => value, ?_, ?_⟩
          · rw [run] at result'
            rw [run, List.map_append, List.foldlM_append, result']
            simp [LruCache.step, LruCache.insert, inserted]
          · have table : (s'.modifyValue e fun _ => value).table = s'.table := rfl
            rw [table, List.map_append]
            refine (List.perm_ext_iff_of_nodup s'.table.keys_nodup
              (List.nodup_append.2 different)).2 fun other => ?_
            have added := consistent.insertKey_table sized evicts isNew room inserted other
            rw [List.mem_append, ← keys.mem_iff, List.mem_singleton, or_comm]
            exact added

theorem keepsUntilFull_of_fits {maxElements : Nat} (fits : maxElements ≤ 2 ^ 63)
    (adds : ¬ FallsShort maxElements) : KeepsUntilFull maxElements := by
  intro K V _ _ _
  obtain ⟨fuel, built⟩ := construct_eq (K := K) (V := V) fits
  refine ⟨fuel, new maxElements, built, fun ops s => evictsOnlyWhenFull_of_run adds, ?_⟩
  intro items different most
  obtain ⟨s, result, keys⟩ := run_inserts adds items different most
  exact ⟨s, result, fun item member => keys.mem_iff.2 (List.mem_map_of_mem member)⟩

/-- A cache never has more elements than its blocks. -/
theorem table_length_le [Inhabited K] [Inhabited V] {maxElements : Nat} (short : FallsShort maxElements)
    {ops : List (Op K V)} {s : LruCache K V} (result : run maxElements ops = some s) :
    s.table.keys.length < maxElements := by
  obtain ⟨roomy, reach⟩ := firstBlockSize_spec maxElements
  have missed : 1023 * firstBlockSize maxElements < maxElements :=
    Nat.lt_of_not_le fun reached => reach.2 reached short
  rcases run_spec maxElements ops with
    ⟨fails, _⟩ | ⟨s', result', rfl, order, free, consistent, -, -⟩
  · rw [fails] at result
    cases result
  · rw [result'] at result
    cases result
    have phase := Phase.grows (run_blocks result') .start roomy
    have capacity : s.blockCapacity ≤ _ := phase.capacity_le missed
    have within : order ⊆ List.range s.blockCapacity := by
      intro e member
      exact List.mem_range.2 ((consistent.allocated e).1 (List.mem_append_left _ member))
    have length := ((List.nodup_append.1 consistent.nodup).1.subperm within).length_le
    rw [List.length_range] at length
    rw [consistent.table_length]
    exact Nat.lt_of_le_of_lt (length.trans capacity) missed

theorem not_keepsUntilFull_of_fallsShort {maxElements : Nat} (short : FallsShort maxElements) :
    ¬ KeepsUntilFull maxElements := by
  intro keeps
  obtain ⟨fuel, start, built, -, retains⟩ := keeps Nat Nat
  have fits : maxElements ≤ 2 ^ 63 := by
    by_contra large
    rw [construct_none (Nat.lt_of_not_le large)] at built
    cases built
  obtain ⟨fuel', built'⟩ := construct_eq (K := Nat) (V := Nat) fits
  obtain rfl := construct_unique built built'
  let items := (List.range maxElements).map fun i => (i, 0)
  have keys : items.map Prod.fst = List.range maxElements := by
    rw [List.map_map]
    exact List.map_id _
  obtain ⟨s, result, kept⟩ := retains items (keys ▸ List.nodup_range) (by simp [items])
  have all : List.range maxElements ⊆ s.table.keys := by
    intro i member
    exact kept (i, 0) (List.mem_map_of_mem member)
  have length := (List.nodup_range.subperm all).length_le
  rw [List.length_range] at length
  exact absurd length (Nat.not_le_of_lt (table_length_le short result))

/-- **Exactly the caches whose ten blocks add up keep their elements until they are full.** -/
theorem keepsUntilFull_iff (maxElements : Nat) :
    KeepsUntilFull maxElements ↔ maxElements ≤ 2 ^ 63 ∧ ¬ FallsShort maxElements := by
  constructor
  · intro keeps
    constructor
    · by_contra large
      obtain ⟨fuel, start, built, -⟩ := keeps Nat Nat
      rw [construct_none (Nat.lt_of_not_le large)] at built
      cases built
    · exact fun short => not_keepsUntilFull_of_fallsShort short keeps
  · rintro ⟨fits, adds⟩
    exact keepsUntilFull_of_fits fits adds

/-- A cache of 65536 elements has blocks for 65472 of them. -/
theorem not_keepsUntilFull : ¬ KeepsUntilFull 65536 :=
  not_keepsUntilFull_of_fallsShort ⟨0, by decide, by decide⟩

end LruCache

end Mozkey.Storage
