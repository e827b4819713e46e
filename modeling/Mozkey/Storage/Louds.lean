import Mozkey.Lib.Louds
import Mozkey.Storage.BitVectorBasedArrayImage

/-!
# Trees in a succinct bit vector

`Louds` walks in a tree that is given by its level-order unary degree sequence.  A node is the
place of its bit together with its number; the first child, the next sibling and the parent are
computed from a rank or a select of the bit vector, and the selects for the nodes near the root
are kept in a cache.

On the sequence of any tree these moves are those of the tree, whatever the sizes of the caches.
-/

namespace Mozkey.Storage

open Mozkey.Lib CachedBitVectorIndex

/-- `Louds::Node`.  A default node is the root. -/
structure LoudsNode where
  edgeIndex : Nat := 0
  nodeId : Nat := 1
  deriving DecidableEq, Repr

/-- `Louds`.  The cache of selects is kept in its two parts. -/
structure Louds where
  index : CachedBitVectorIndex
  select0Cache : List Nat
  select1Cache : List Nat
  deriving Repr

namespace CachedBitVectorIndex

/-- `GetNum1Bits`. -/
def getNum1Bits (vector : CachedBitVectorIndex) : Nat := vector.index.getLastD 0

/-- `GetNum0Bits`. -/
def getNum0Bits (vector : CachedBitVectorIndex) : Nat :=
  8 * vector.length - vector.index.getLastD 0

/-- `Get`, inside of the data. -/
def getInside (vector : CachedBitVectorIndex) (i : Nat) : Except Failure Bool :=
  if vector.data.length ≤ i / 8 then .error .outside else .ok (vector.get i)

end CachedBitVectorIndex

namespace Louds

/-- The loop that fills a part of the cache. -/
def fillCache (select : Nat → Except Failure Nat) (size : Nat) : Except Failure (List Nat) :=
  (List.range size).mapM fun i => if i = 0 then .ok 0 else select i

/-- `Select0(i) + 1`, as `Init` and `MoveToFirstChild` take it. -/
def behindZero (index : CachedBitVectorIndex) (i : Nat) : Except Failure Nat := do
  let position ← index.select0 i
  return (position + 1).toNat

def positionOfOne (index : CachedBitVectorIndex) (i : Nat) : Except Failure Nat := do
  let position ← index.select1 i
  return position.toNat

/-- `Init`. -/
def init (image : ByteString) (length bitvecLb0CacheSize bitvecLb1CacheSize select0CacheSize
    select1CacheSize : Nat) : Except Failure Louds := do
  let index ← CachedBitVectorIndex.init maxPointers 32 image length bitvecLb0CacheSize
    bitvecLb1CacheSize
  let select0Cache ← fillCache (behindZero index) (min select0CacheSize index.getNum0Bits)
  let select1Cache ← fillCache (positionOfOne index) (min select1CacheSize index.getNum1Bits)
  return { index, select0Cache, select1Cache }

/-- What the cache holds, or else the select. -/
def cached (cache : List Nat) (select : Nat → Except Failure Nat) (nodeId : Nat) :
    Except Failure Nat :=
  match cache[nodeId]? with
  | some position => .ok position
  | none => select nodeId

/-- `InitNodeFromNodeId`. -/
def initNodeFromNodeId (louds : Louds) (nodeId : Nat) : Except Failure LoudsNode := do
  let edgeIndex ← cached louds.select1Cache (positionOfOne louds.index) nodeId
  return { edgeIndex, nodeId }

/-- `IsRoot`. -/
def isRoot (node : LoudsNode) : Bool := node.nodeId == 1

/-- `MoveToFirstChild`. -/
def moveToFirstChild (louds : Louds) (node : LoudsNode) : Except Failure LoudsNode := do
  let edgeIndex ← cached louds.select0Cache (behindZero louds.index) node.nodeId
  return { edgeIndex, nodeId := edgeIndex + 1 - node.nodeId }

/-- `MoveToNextSibling`. -/
def moveToNextSibling (node : LoudsNode) : LoudsNode :=
  { edgeIndex := node.edgeIndex + 1, nodeId := node.nodeId + 1 }

/-- `MoveToParent`. -/
def moveToParent (louds : Louds) (node : LoudsNode) : Except Failure LoudsNode :=
  louds.initNodeFromNodeId (node.edgeIndex + 1 - node.nodeId)

/-- `IsValidNode`. -/
def isValidNode (louds : Louds) (node : LoudsNode) : Except Failure Bool :=
  louds.index.getInside node.edgeIndex

/-! ## The caches -/

/-- A cache holds what the selects return. -/
def Caches (select : Nat → Except Failure Nat) (cache : List Nat) : Prop :=
  ∀ i position, 1 ≤ i → cache[i]? = some position → select i = .ok position

theorem cached_eq {select : Nat → Except Failure Nat} {cache : List Nat}
    (caches : Caches select cache) {i : Nat} (positive : 1 ≤ i) :
    cached cache select i = select i := by
  unfold cached
  cases found : cache[i]? with
  | none => rfl
  | some position => exact (caches i position positive found).symm

/-- Where the selects are found, a cache of any size is filled with them. -/
theorem fillCache_ok {select : Nat → Except Failure Nat} {position : Nat → Nat} {size : Nat}
    (selects : ∀ i, 1 ≤ i → i < size → select i = .ok (position i)) :
    ∃ cache, fillCache select size = .ok cache ∧ Caches select cache := by
  have filled : fillCache select size
      = .ok ((List.range size).map fun i => if i = 0 then 0 else position i) := by
    refine mapM_ok fun i inside => ?_
    rw [List.mem_range] at inside
    split
    · rfl
    · exact selects i (by omega) inside
  refine ⟨_, filled, fun i found positive here => ?_⟩
  rw [List.getElem?_map, Option.map_eq_some_iff] at here
  obtain ⟨j, isIndex, isFound⟩ := here
  obtain ⟨inside, rfl⟩ := List.getElem?_eq_some_iff.1 isIndex
  rw [List.length_range] at inside
  rw [List.getElem_range, if_neg (by omega)] at isFound
  rw [← isFound]
  exact selects i positive inside

/-! ## The moves of a tree -/

/-- The bit vector is the sequence of a tree, filled up with zero bits, and its selects are right
in the caches as well. -/
structure Represents {α : Type} (louds : Louds) (children : α → List α) (nodes : List α) :
    Prop where
  data : ∃ padding, bitsOf louds.index.data
    = Lib.louds children nodes ++ List.replicate padding false
  agrees : Agrees louds.index (bitsOf louds.index.data)
  isInit : ∀ i, louds.index.get i = (bitsOf louds.index.data).getD i false
  caches0 : Caches (behindZero louds.index) louds.select0Cache
  caches1 : Caches (positionOfOne louds.index) louds.select1Cache

/-- The node with the number of its place in the list of nodes. -/
def nodeAt (bits : List Bool) (place : Nat) : LoudsNode :=
  { edgeIndex := select true bits (place + 1), nodeId := place + 1 }

/-- Where a child of the node behind `before` is, or the end of its children. -/
def childAt {α : Type} (children : α → List α) (before : List α) (k : Nat) : LoudsNode :=
  { edgeIndex := firstChild children before + (before.length + 1) + k
    nodeId := firstChild children before + k + 1 }

theorem moveToNextSibling_childAt {α : Type} (children : α → List α) (before : List α) (k : Nat) :
    moveToNextSibling (childAt children before k) = childAt children before (k + 1) := rfl

section Moves

variable {α : Type} {louds : Louds} {children : α → List α} {root node : α}
  {nodes before after : List α}

theorem nodeAt_zero (represents : Represents louds children nodes) :
    nodeAt (bitsOf louds.index.data) 0 = {} := by
  obtain ⟨padding, bits⟩ := represents.data
  rw [bits, nodeAt, select_true_louds_root]

/-- A node is made from its number. -/
theorem initNodeFromNodeId_eq (represents : Represents louds children nodes)
    (ordered : LevelOrdered children root nodes) {place : Nat} (inside : place < nodes.length) :
    louds.initNodeFromNodeId (place + 1)
      = .ok (nodeAt (bitsOf louds.index.data) place) := by
  obtain ⟨padding, bits⟩ := represents.data
  have ones : place + 1 ≤ (bitsOf louds.index.data).count true := by
    rw [bits, List.count_append, count_true_louds ordered]
    omega
  rw [initNodeFromNodeId, cached_eq represents.caches1 (Nat.succ_pos place), positionOfOne,
    represents.agrees.select1 _ (Nat.succ_pos place) ones]
  rfl

variable (split : nodes = before ++ node :: after)
include split

/-- A child that is there is the node of its place. -/
theorem childAt_eq_nodeAt (represents : Represents louds children nodes) {k : Nat}
    (less : k < (children node).length) :
    childAt children before k
      = nodeAt (bitsOf louds.index.data) (firstChild children before + k) := by
  obtain ⟨padding, bits⟩ := represents.data
  rw [childAt, nodeAt, bits, Nat.add_assoc _ k 1, select_true_louds children split less]

theorem moveToFirstChild_eq (represents : Represents louds children nodes) :
    louds.moveToFirstChild (nodeAt (bitsOf louds.index.data) before.length)
      = .ok (childAt children before 0) := by
  obtain ⟨padding, bits⟩ := represents.data
  have zeros : before.length + 1 ≤ (bitsOf louds.index.data).count false := by
    rw [bits, List.count_append, count_false_louds, split, List.length_append, List.length_cons]
    omega
  have found := select_false_louds children split (List.replicate padding false)
  rw [← bits] at found
  have position : behindZero louds.index (before.length + 1)
      = .ok (firstChild children before + (before.length + 1)) := by
    rw [behindZero, represents.agrees.select0 _ (Nat.succ_pos _) zeros, ← found]
    rfl
  have id_ : firstChild children before + (before.length + 1) + 1 - (before.length + 1)
      = firstChild children before + 0 + 1 := by omega
  show (cached louds.select0Cache (behindZero louds.index) (before.length + 1) >>= fun edgeIndex =>
    Except.ok (LoudsNode.mk edgeIndex (edgeIndex + 1 - (before.length + 1)))) = _
  rw [cached_eq represents.caches0 (Nat.succ_pos _), position, bind_ok_, id_]
  rfl

/-- A node is valid as long as it is one of the children. -/
theorem isValidNode_childAt (represents : Represents louds children nodes) {k : Nat}
    (le : k ≤ (children node).length) :
    louds.isValidNode (childAt children before k) = .ok (decide (k < (children node).length)) := by
  obtain ⟨padding, bits⟩ := represents.data
  have bit := louds_getElem? children split le (List.replicate padding false)
  rw [← bits] at bit
  obtain ⟨inside, isBit⟩ := List.getElem?_eq_some_iff.1 bit
  rw [length_bitsOf] at inside
  show (if louds.index.data.length
      ≤ (firstChild children before + (before.length + 1) + k) / 8 then _ else _) = _
  rw [if_neg (by omega), represents.isInit]
  show Except.ok ((bitsOf louds.index.data).getD
    (firstChild children before + (before.length + 1) + k) false) = _
  rw [List.getD_eq_getElem?_getD, bit, Option.getD_some]

theorem moveToParent_childAt (represents : Represents louds children nodes)
    (ordered : LevelOrdered children root nodes) (k : Nat) :
    louds.moveToParent (childAt children before k)
      = .ok (nodeAt (bitsOf louds.index.data) before.length) := by
  have id_ : firstChild children before + (before.length + 1) + k + 1
      - (firstChild children before + k + 1) = before.length + 1 := by omega
  show louds.initNodeFromNodeId (firstChild children before + (before.length + 1) + k + 1
    - (firstChild children before + k + 1)) = _
  rw [id_]
  refine initNodeFromNodeId_eq represents ordered ?_
  rw [split, List.length_append, List.length_cons]
  omega

end Moves

/-! ## Opening the sequence of a tree -/

/-- **The sequence of a tree is opened** when its bits are counted by an `int` and no cache of the
bit vector is too long; the caches of selects may have any size. -/
theorem init_represents_iff {α : Type} {children : α → List α} {root : α} {nodes : List α}
    (ordered : LevelOrdered children root nodes) {image : ByteString} (words : 4 ∣ image.length)
    {padding : Nat}
    (bits : bitsOf image = Lib.louds children nodes ++ List.replicate padding false)
    (lb0 lb1 select0CacheSize select1CacheSize : Nat) :
    (∃ louds, init image image.length lb0 lb1 select0CacheSize select1CacheSize = .ok louds ∧
        louds.index.data = image ∧ Represents louds children nodes) ↔
      8 * image.length < 2 ^ 31 ∧ lb0 + 2 ≤ maxPointers ∧ lb1 + 2 ≤ maxPointers := by
  have ones : 0 < (bitsOf image).count true := by
    have size := congrArg List.length ordered
    rw [List.length_cons] at size
    rw [bits, List.count_append, count_true_louds ordered]
    omega
  have agrees_iff := init_agrees_iff maxPointers (show 2 ≤ 5 by decide) words lb0 lb1
  rw [show 2 ^ 5 = 32 from rfl] at agrees_iff
  constructor
  · rintro ⟨louds, done, isImage, represents⟩
    obtain ⟨index, isIndex, done⟩ := bind_eq_ok_iff.1 done
    obtain ⟨cache0, -, done⟩ := bind_eq_ok_iff.1 done
    obtain ⟨cache1, -, done⟩ := bind_eq_ok_iff.1 done
    cases done
    have agrees := represents.agrees
    rw [isImage] at agrees
    obtain ⟨-, fits, -, fits0, fits1⟩ := agrees_iff.1 ⟨index, isIndex, agrees⟩
    exact ⟨fits, fits0, fits1⟩
  · rintro ⟨fits, fits0, fits1⟩
    obtain ⟨index, isIndex, agrees⟩ :=
      agrees_iff.2 ⟨by decide, fits, .inl ones, fits0, fits1⟩
    obtain ⟨-, -, isVector, -⟩ := init_eq_ok_iff.1 isIndex
    have isData : index.data = image := by rw [isVector]; rfl
    have whole := List.count_true_add_count_false (bitsOf image)
    rw [length_bitsOf] at whole
    have last : index.index.getLastD 0 = (bitsOf image).count true := by
      rw [isVector]
      exact getLastD_initIndex (show 0 < 8 by decide) words
    have num0 : index.getNum0Bits = (bitsOf image).count false := by
      have length : index.length = image.length := by rw [isVector]; rfl
      rw [getNum0Bits, length, last]
      omega
    have num1 : index.getNum1Bits = (bitsOf image).count true := last
    obtain ⟨cache0, isCache0, caches0⟩ := @fillCache_ok (behindZero index)
      (fun i => select false (bitsOf image) i + 1) (min select0CacheSize index.getNum0Bits) (by
        intro i positive less
        rw [behindZero, agrees.select0 i positive (by omega)]
        rfl)
    obtain ⟨cache1, isCache1, caches1⟩ := @fillCache_ok (positionOfOne index)
      (fun i => select true (bitsOf image) i) (min select1CacheSize index.getNum1Bits) (by
        intro i positive less
        rw [positionOfOne, agrees.select1 i positive (by omega)]
        rfl)
    have isInit (i : Nat) : index.get i = (bitsOf index.data).getD i false := by
      rw [isVector]
      exact SimpleSuccinctBitVectorIndex.get_init _ _ _ i
    refine ⟨⟨index, cache0, cache1⟩, ?_, isData, ?_⟩
    · rw [init, isIndex, bind_ok_, isCache0, bind_ok_, isCache1]
      rfl
    · exact ⟨⟨padding, by rw [isData, bits]⟩, by rw [isData]; exact agrees, isInit, caches0,
        caches1⟩

end Louds

end Mozkey.Storage
