import Mozkey.Storage.Louds
import Mozkey.Storage.LoudsTrieBuilder

/-!
# Tries in an image

`LoudsTrie` opens an image with the level-order sequence of a tree, the characters of its edges
and the ends of its words, and searches in it.  A node of the tree stands for the prefix that leads
to it, and a word that ends there has the number of such ends before it as its id.

On the image of the builder each move is the one of the tree of the prefixes, so that the words are
found with the ids of the builder, restored from their ids, and met as prefixes of other strings.
-/

namespace Mozkey.Storage

open Mozkey.Lib CachedBitVectorIndex LoudsTrieBuilder

/-- `LoudsTrie`, opened. -/
structure LoudsTrie where
  louds : Louds
  terminalBitVector : CachedBitVectorIndex
  edgeCharacter : ByteString
  deriving Repr

/-- The sizes of the caches that are given to `Open`. -/
structure TrieCacheSizes where
  loudsLb0 : Nat := 0
  loudsLb1 : Nat := 0
  loudsSelect0 : Nat := 0
  loudsSelect1 : Nat := 0
  termvecLb1 : Nat := 0
  deriving DecidableEq, Repr

namespace LoudsTrie

def kMaxDepth : Nat := 256

/-- `Open`. -/
def openImage (image : ByteString) (sizes : TrieCacheSizes) : Except Failure LoudsTrie := do
  let loudsSize := toInt (loadUnaligned32At image).toNat
  let terminalSize := toInt (loadUnaligned32At (image.drop 4)).toNat
  let numCharacterBits := toInt (loadUnaligned32At (image.drop 8)).toNat
  let edgeCharacterSize := toInt (loadUnaligned32At (image.drop 12)).toNat
  if numCharacterBits ≠ 8 then throw .checkFails
  if edgeCharacterSize ≤ 0 then throw .checkFails
  -- A negative size moves the pointers in front of the image.
  if loudsSize < 0 ∨ terminalSize < 0 then throw .outside
  let loudsImage := (image.drop 16).take loudsSize.toNat
  let terminalImage := ((image.drop 16).drop loudsSize.toNat).take terminalSize.toNat
  let edgeCharacter := ((image.drop 16).drop loudsSize.toNat).drop terminalSize.toNat
  let louds ← Louds.init loudsImage loudsSize.toNat sizes.loudsLb0 sizes.loudsLb1
    sizes.loudsSelect0 sizes.loudsSelect1
  let terminalBitVector ← CachedBitVectorIndex.init maxPointers 32 terminalImage
    terminalSize.toNat 0 sizes.termvecLb1
  return { louds, terminalBitVector, edgeCharacter }

/-- `IsTerminalNode`. -/
def isTerminalNode (trie : LoudsTrie) (node : LoudsNode) : Except Failure Bool :=
  trie.terminalBitVector.getInside (node.nodeId - 1)

/-- `GetEdgeLabelToParentNode`. -/
def getEdgeLabelToParentNode (trie : LoudsTrie) (node : LoudsNode) : Except Failure UInt8 :=
  elementAt trie.edgeCharacter (node.nodeId - 1)

/-- `GetKeyIdOfTerminalNode`. -/
def getKeyIdOfTerminalNode (trie : LoudsTrie) (node : LoudsNode) : Except Failure Int :=
  trie.terminalBitVector.rank1 (node.nodeId - 1)

/-- `GetTerminalNodeFromKeyId`. -/
def getTerminalNodeFromKeyId (trie : LoudsTrie) (keyId : Nat) : Except Failure LoudsNode := do
  let position ← trie.terminalBitVector.select1 (keyId + 1)
  trie.louds.initNodeFromNodeId (position + 1).toNat

/-- The loop of `RestoreKeyString`, with so many bytes left in front of the pointer. -/
def restoreLoop (trie : LoudsTrie) : Nat → LoudsNode → ByteString → Except Failure ByteString
  | 0, node, key => if Louds.isRoot node then .ok key else .error .outside
  | space + 1, node, key =>
      if Louds.isRoot node then .ok key
      else do
        let label ← trie.getEdgeLabelToParentNode node
        let parent ← trie.louds.moveToParent node
        restoreLoop trie space parent (label :: key)

/-- `RestoreKeyString` of a node. -/
def restoreKeyStringOfNode (trie : LoudsTrie) (node : LoudsNode) : Except Failure ByteString :=
  trie.restoreLoop kMaxDepth node []

/-- `RestoreKeyString` of an id. -/
def restoreKeyString (trie : LoudsTrie) (keyId : Int) : Except Failure ByteString := do
  if keyId < 0 then return []
  let node ← trie.getTerminalNodeFromKeyId keyId.toNat
  trie.restoreKeyStringOfNode node

/-- The loop of `MoveToChildByLabel`. -/
def labelLoop (trie : LoudsTrie) (label : UInt8) :
    Nat → LoudsNode → Except Failure (Option LoudsNode)
  | 0, _ => .error .outside
  | rounds + 1, node => do
      if ← trie.louds.isValidNode node then
        if (← trie.getEdgeLabelToParentNode node) = label then return some node
        labelLoop trie label rounds (Louds.moveToNextSibling node)
      else return none

/-- `MoveToChildByLabel`, with the node if there is one. -/
def moveToChildByLabel (trie : LoudsTrie) (label : UInt8) (node : LoudsNode) :
    Except Failure (Option LoudsNode) := do
  let child ← trie.louds.moveToFirstChild node
  trie.labelLoop label (8 * trie.louds.index.data.length + 1) child

/-- `Traverse`. -/
def traverse (trie : LoudsTrie) : ByteString → LoudsNode → Except Failure (Option LoudsNode)
  | [], node => .ok (some node)
  | c :: key, node => do
      match ← trie.moveToChildByLabel c node with
      | none => return none
      | some child => traverse trie key child

/-- `HasKey`. -/
def hasKey (trie : LoudsTrie) (key : ByteString) : Except Failure Bool := do
  match ← trie.traverse key {} with
  | none => return false
  | some node => trie.isTerminalNode node

/-- `ExactSearch`. -/
def exactSearch (trie : LoudsTrie) (key : ByteString) : Except Failure Int := do
  match ← trie.traverse key {} with
  | none => return -1
  | some node =>
      if ← trie.isTerminalNode node then trie.getKeyIdOfTerminalNode node else return -1

/-- The loop of `PrefixSearch` over what is left of the key: the lengths and the nodes that are
given to the callback. -/
def prefixLoop (trie : LoudsTrie) : Nat → ByteString → LoudsNode →
    Except Failure (List (Nat × LoudsNode))
  | _, [], _ => .ok []
  | i, c :: key, node => do
      match ← trie.moveToChildByLabel c node with
      | none => return []
      | some child =>
          let isTerminal ← trie.isTerminalNode child
          let others ← prefixLoop trie (i + 1) key child
          return if isTerminal then (i + 1, child) :: others else others

/-- `PrefixSearch`. -/
def prefixSearch (trie : LoudsTrie) (key : ByteString) : Except Failure (List (Nat × LoudsNode)) :=
  trie.prefixLoop 0 key {}

/-! ## The trie of some words -/

/-- An opened trie has the prefixes of some words as its nodes. -/
structure IsTrie (trie : LoudsTrie) (words : List ByteString) : Prop where
  sorted : words.Pairwise (· < ·)
  represents : Louds.Represents trie.louds (PrefixTree.children words) (PrefixTree.nodes words)
  terminals : ∃ padding, bitsOf trie.terminalBitVector.data
    = (PrefixTree.nodes words).map (fun node => decide (node ∈ words))
      ++ List.replicate padding false
  agrees : Agrees trie.terminalBitVector (bitsOf trie.terminalBitVector.data)
  isInit : ∀ i, trie.terminalBitVector.get i = (bitsOf trie.terminalBitVector.data).getD i false
  edges : trie.edgeCharacter = (PrefixTree.nodes words).map edgeLabel

/-- The node of a prefix. -/
def nodeOf (trie : LoudsTrie) (words : List ByteString) (p : ByteString) : LoudsNode :=
  Louds.nodeAt (bitsOf trie.louds.index.data) ((PrefixTree.nodes words).idxOf p)

/-- The id of a word: how many words end before it, level by level. -/
def idOf (words : List ByteString) (word : ByteString) : Int :=
  idAmong (wordsAmong words (PrefixTree.nodes words)) word

variable {trie : LoudsTrie} {words : List ByteString}

theorem mem_nodes_of_mem {word : ByteString} (member : word ∈ words) :
    word ∈ PrefixTree.nodes words :=
  PrefixTree.mem_nodes.2 (.inr ⟨word, member, List.prefix_refl word⟩)

theorem mem_wordsAmong {word : ByteString} :
    word ∈ wordsAmong words (PrefixTree.nodes words) ↔ word ∈ words := by
  rw [wordsAmong, List.mem_filter, decide_eq_true_iff]
  exact ⟨And.right, fun member => ⟨mem_nodes_of_mem member, member⟩⟩

theorem idOf_of_mem {word : ByteString} (member : word ∈ words) :
    idOf words word = ((wordsAmong words (PrefixTree.nodes words)).idxOf word : Nat) := by
  rw [idOf, idAmong, if_pos (mem_wordsAmong.2 member)]

theorem idOf_of_not_mem {word : ByteString} (absent : word ∉ words) : idOf words word = -1 := by
  rw [idOf, idAmong, if_neg (mt mem_wordsAmong.1 absent)]

namespace IsTrie

variable (isTrie : IsTrie trie words)
include isTrie

theorem nodup : (PrefixTree.nodes words).Nodup := PrefixTree.nodup_nodes isTrie.sorted

omit isTrie in
/-- The nodes around a prefix. -/
theorem exists_split {p : ByteString} (node : p ∈ PrefixTree.nodes words) :
    ∃ before after, PrefixTree.nodes words = before ++ p :: after ∧
      (PrefixTree.nodes words).idxOf p = before.length := by
  have inside := List.idxOf_lt_length_iff.2 node
  refine ⟨(PrefixTree.nodes words).take ((PrefixTree.nodes words).idxOf p),
    (PrefixTree.nodes words).drop ((PrefixTree.nodes words).idxOf p + 1), ?_, ?_⟩
  · have cut := List.take_append_drop ((PrefixTree.nodes words).idxOf p) (PrefixTree.nodes words)
    rwa [List.drop_eq_getElem_cons inside, List.getElem_idxOf, eq_comm] at cut
  · rw [List.length_take, Nat.min_eq_left inside.le]

theorem idxOf_eq {p : ByteString} {i : Nat} (here : (PrefixTree.nodes words)[i]? = some p) :
    (PrefixTree.nodes words).idxOf p = i := by
  obtain ⟨inside, rfl⟩ := List.getElem?_eq_some_iff.1 here
  exact List.Nodup.idxOf_getElem isTrie.nodup i inside

/-- The default node is the root. -/
theorem nodeOf_nil : trie.nodeOf words [] = {} := by
  have first : (PrefixTree.nodes words).idxOf [] = 0 := by
    rw [PrefixTree.levelOrdered_nodes words]
    exact List.idxOf_cons_self
  rw [nodeOf, first]
  exact Louds.nodeAt_zero isTrie.represents

omit isTrie in
theorem nodeId_nodeOf (p : ByteString) :
    (trie.nodeOf words p).nodeId - 1 = (PrefixTree.nodes words).idxOf p :=
  Nat.add_sub_cancel _ _

theorem isTerminalNode_eq {p : ByteString} (node : p ∈ PrefixTree.nodes words) :
    trie.isTerminalNode (trie.nodeOf words p) = .ok (decide (p ∈ words)) := by
  obtain ⟨padding, bits⟩ := isTrie.terminals
  have inside := List.idxOf_lt_length_iff.2 node
  have length := congrArg List.length bits
  rw [length_bitsOf, List.length_append, List.length_map] at length
  rw [isTerminalNode, nodeId_nodeOf, getInside, if_neg (by omega), isTrie.isInit, bits,
    List.getD_append _ _ _ _ (by rwa [List.length_map]),
    List.getD_eq_getElem _ _ (by rwa [List.length_map]), List.getElem_map, List.getElem_idxOf]

theorem getEdgeLabelToParentNode_eq {p : ByteString} (node : p ∈ PrefixTree.nodes words) :
    trie.getEdgeLabelToParentNode (trie.nodeOf words p) = .ok (edgeLabel p) := by
  have inside := List.idxOf_lt_length_iff.2 node
  rw [getEdgeLabelToParentNode, nodeId_nodeOf, elementAt, isTrie.edges, List.getElem?_map,
    List.getElem?_eq_getElem inside, List.getElem_idxOf, Option.map_some]

/-- How many words end before a word. -/
theorem rank_terminals {p : ByteString} (member : p ∈ words) :
    rank true (bitsOf trie.terminalBitVector.data) ((PrefixTree.nodes words).idxOf p)
        = (wordsAmong words (PrefixTree.nodes words)).idxOf p ∧
      select true (bitsOf trie.terminalBitVector.data)
          ((wordsAmong words (PrefixTree.nodes words)).idxOf p + 1)
        = (PrefixTree.nodes words).idxOf p := by
  obtain ⟨padding, bits⟩ := isTrie.terminals
  obtain ⟨before, after, split, place⟩ := exists_split (mem_nodes_of_mem member)
  have fresh : p ∉ wordsAmong words before := by
    intro inside
    have distinct := isTrie.nodup
    rw [split, List.nodup_middle, List.nodup_cons] at distinct
    exact distinct.1 (List.mem_append_left _ (List.mem_filter.1 inside).1)
  have id_ : (wordsAmong words (PrefixTree.nodes words)).idxOf p
      = (wordsAmong words before).length := by
    rw [split, wordsAmong, List.filter_append, List.filter_cons_of_pos (by exact decide_eq_true member),
      ← wordsAmong, List.idxOf_append_of_notMem fresh, List.idxOf_cons_self, Nat.add_zero]
  have counted : (before.map fun node => decide (node ∈ words)).count true
      = (wordsAmong words before).length := by
    rw [List.count, List.countP_map, wordsAmong, ← List.countP_eq_length_filter]
    refine List.countP_congr fun node _ => ?_
    rw [Function.comp_apply, beq_true]
  have lengthBefore : (before.map fun node => decide (node ∈ words)).length = before.length :=
    List.length_map _
  have form : bitsOf trie.terminalBitVector.data
      = (before.map fun node => decide (node ∈ words)) ++ (true ::
        ((after.map fun node => decide (node ∈ words)) ++ List.replicate padding false)) := by
    rw [bits, split, List.map_append, List.map_cons, decide_eq_true member, List.append_assoc,
      List.cons_append]
  rw [place, id_, form]
  constructor
  · rw [← lengthBefore, rank_append_length, counted]
  · rw [← counted, select_append, Nat.zero_add, select_cons_self_one, Nat.add_zero, lengthBefore]

theorem getKeyIdOfTerminalNode_eq {p : ByteString} (member : p ∈ words) :
    trie.getKeyIdOfTerminalNode (trie.nodeOf words p) = .ok (idOf words p) := by
  obtain ⟨padding, bits⟩ := isTrie.terminals
  have inside := List.idxOf_lt_length_iff.2 (mem_nodes_of_mem member)
  rw [getKeyIdOfTerminalNode, nodeId_nodeOf, isTrie.agrees.rank1 _ (by
    rw [bits, List.length_append, List.length_map]
    omega), (isTrie.rank_terminals member).1, idOf_of_mem member]

theorem getTerminalNodeFromKeyId_eq {p : ByteString} (member : p ∈ words) :
    trie.getTerminalNodeFromKeyId (idOf words p).toNat = .ok (trie.nodeOf words p) := by
  obtain ⟨padding, bits⟩ := isTrie.terminals
  have enough : (wordsAmong words (PrefixTree.nodes words)).idxOf p + 1
      ≤ (bitsOf trie.terminalBitVector.data).count true := by
    have inside := List.idxOf_lt_length_iff.2 (mem_wordsAmong.2 member)
    have all : (bitsOf trie.terminalBitVector.data).count true
        = (wordsAmong words (PrefixTree.nodes words)).length := by
      rw [bits, List.count_append, List.count_eq_zero_of_not_mem (l := List.replicate padding false)
        (by simp), Nat.add_zero, List.count, List.countP_map, wordsAmong,
        ← List.countP_eq_length_filter]
      refine List.countP_congr fun node _ => ?_
      rw [Function.comp_apply, beq_true]
    omega
  have made := Louds.initNodeFromNodeId_eq isTrie.represents
    (PrefixTree.levelOrdered_nodes words)
    (List.idxOf_lt_length_iff.2 (mem_nodes_of_mem member))
  rw [getTerminalNodeFromKeyId, idOf_of_mem member, Int.toNat_natCast,
    isTrie.agrees.select1 _ (Nat.succ_pos _) enough, (isTrie.rank_terminals member).2]
  exact made

/-! ## Children -/

section Children

variable {before after : List ByteString} {p : ByteString}
  (split : PrefixTree.nodes words = before ++ p :: after)
include split

/-- The places of the children of a prefix. -/
theorem childAt_eq {k : Nat} {q : ByteString}
    (isChild : (PrefixTree.children words p)[k]? = some q) :
    Louds.childAt (PrefixTree.children words) before k = trie.nodeOf words q ∧
      q ∈ PrefixTree.nodes words := by
  obtain ⟨less, -⟩ := List.getElem?_eq_some_iff.1 isChild
  have here := getElem?_firstChild (PrefixTree.children words) split (PrefixTree.levelOrdered_nodes words) less
  rw [isChild] at here
  refine ⟨?_, List.mem_of_getElem? here⟩
  rw [Louds.childAt_eq_nodeAt split isTrie.represents less, nodeOf, isTrie.idxOf_eq here]

theorem labelLoop_eq {label : UInt8} {k rounds : Nat}
    (le : k ≤ (PrefixTree.labels words p).length)
    (enough : (PrefixTree.labels words p).length < k + rounds) :
    trie.labelLoop label rounds (Louds.childAt (PrefixTree.children words) before k)
      = .ok (if label ∈ (PrefixTree.labels words p).drop k
          then some (trie.nodeOf words (p ++ [label])) else none) := by
  have size : (PrefixTree.children words p).length = (PrefixTree.labels words p).length :=
    List.length_map _
  induction rounds generalizing k with
  | zero => omega
  | succ rounds ih =>
      rw [labelLoop, Louds.isValidNode_childAt split isTrie.represents (by omega), bind_ok_, size]
      rcases Nat.lt_or_eq_of_le le with less | rfl
      · have isChild : (PrefixTree.children words p)[k]?
            = some (p ++ [(PrefixTree.labels words p)[k]]) := by
          rw [PrefixTree.children, List.getElem?_map, List.getElem?_eq_getElem less,
            Option.map_some]
        obtain ⟨isNode, node⟩ := isTrie.childAt_eq split isChild
        have split_ : label ∈ (PrefixTree.labels words p).drop k ↔
            label = (PrefixTree.labels words p)[k] ∨
              label ∈ (PrefixTree.labels words p).drop (k + 1) := by
          rw [List.drop_eq_getElem_cons less, List.mem_cons]
        rw [decide_eq_true less, if_pos rfl, if_congr split_ rfl rfl]
        by_cases here : label = (PrefixTree.labels words p)[k]
        · rw [isNode, isTrie.getEdgeLabelToParentNode_eq node, bind_ok_, edgeLabel,
            List.getLastD_concat, if_pos here.symm, if_pos (.inl here), here]
          rfl
        · rw [isNode, isTrie.getEdgeLabelToParentNode_eq node, bind_ok_, edgeLabel,
            List.getLastD_concat, if_neg (Ne.symm here), ← isNode,
            Louds.moveToNextSibling_childAt, ih less (by omega)]
          simp only [here, false_or]
      · rw [decide_eq_false (Nat.lt_irrefl _), if_neg Bool.false_ne_true, List.drop_length,
          if_neg List.not_mem_nil]
        rfl

/-- There are fewer children than bits. -/
theorem length_children_le :
    (PrefixTree.children words p).length ≤ 8 * trie.louds.index.data.length := by
  obtain ⟨padding, bits⟩ := isTrie.represents.data
  have length := congrArg List.length bits
  have degrees := louds_getElem? (PrefixTree.children words) split le_rfl
    (List.replicate padding false)
  rw [← bits] at degrees
  obtain ⟨inside, -⟩ := List.getElem?_eq_some_iff.1 degrees
  rw [length_bitsOf] at inside
  omega

end Children

theorem moveToChildByLabel_eq {p : ByteString} (node : p ∈ PrefixTree.nodes words)
    (label : UInt8) :
    trie.moveToChildByLabel label (trie.nodeOf words p)
      = .ok (if p ++ [label] ∈ PrefixTree.nodes words
          then some (trie.nodeOf words (p ++ [label])) else none) := by
  obtain ⟨before, after, split, place⟩ := exists_split node
  have few := isTrie.length_children_le split
  rw [PrefixTree.children, List.length_map] at few
  rw [moveToChildByLabel, nodeOf, place, Louds.moveToFirstChild_eq split isTrie.represents,
    bind_ok_, isTrie.labelLoop_eq split (Nat.zero_le _) (by omega), List.drop_zero]
  refine congrArg Except.ok (if_congr ?_ rfl rfl)
  rw [PrefixTree.mem_labels, PrefixTree.mem_nodes]
  simp

theorem moveToParent_eq {p : ByteString} {c : UInt8}
    (node : p ++ [c] ∈ PrefixTree.nodes words) :
    trie.louds.moveToParent (trie.nodeOf words (p ++ [c])) = .ok (trie.nodeOf words p) ∧
      p ∈ PrefixTree.nodes words := by
  obtain ⟨w, member, extends_⟩ := (PrefixTree.mem_nodes.1 node).resolve_left (by simp)
  have isNode : p ∈ PrefixTree.nodes words :=
    PrefixTree.mem_nodes.2 (.inr ⟨w, member, (List.prefix_append p [c]).trans extends_⟩)
  obtain ⟨before, after, split, place⟩ := exists_split isNode
  obtain ⟨k, inside, here⟩ := List.getElem_of_mem
    (PrefixTree.mem_children.2 ⟨c, rfl, w, member, extends_⟩)
  have isChild : (PrefixTree.children words p)[k]? = some (p ++ [c]) := by
    rw [List.getElem?_eq_getElem inside, here]
  refine ⟨?_, isNode⟩
  rw [← (isTrie.childAt_eq split isChild).1, Louds.moveToParent_childAt split isTrie.represents
    (PrefixTree.levelOrdered_nodes words), nodeOf, place]

/-! ## Searches -/

theorem traverse_eq {p : ByteString} (node : p ∈ PrefixTree.nodes words) (key : ByteString) :
    trie.traverse key (trie.nodeOf words p)
      = .ok (if p ++ key ∈ PrefixTree.nodes words
          then some (trie.nodeOf words (p ++ key)) else none) := by
  induction key generalizing p with
  | nil => rw [traverse, List.append_nil, if_pos node]
  | cons c key ih =>
      rw [traverse, isTrie.moveToChildByLabel_eq node, bind_ok_]
      by_cases child : p ++ [c] ∈ PrefixTree.nodes words
      · rw [if_pos child]
        dsimp only
        rw [ih child, List.append_assoc, List.singleton_append]
      · rw [if_neg child, if_neg]
        · rfl
        · intro later
          obtain ⟨w, member, extends_⟩ := (PrefixTree.mem_nodes.1 later).resolve_left (by simp)
          refine child (PrefixTree.mem_nodes.2 (.inr ⟨w, member, ?_⟩))
          exact List.IsPrefix.trans ⟨key, by simp⟩ extends_

theorem traverse_root (key : ByteString) :
    trie.traverse key {} = .ok (if key ∈ PrefixTree.nodes words
      then some (trie.nodeOf words key) else none) := by
  have found := isTrie.traverse_eq (PrefixTree.mem_nodes.2 (.inl rfl)) key
  rwa [isTrie.nodeOf_nil, List.nil_append] at found

/-- **The words are found.** -/
theorem hasKey_eq (key : ByteString) : trie.hasKey key = .ok (decide (key ∈ words)) := by
  rw [hasKey, isTrie.traverse_root, bind_ok_]
  by_cases node : key ∈ PrefixTree.nodes words
  · rw [if_pos node]
    exact isTrie.isTerminalNode_eq node
  · rw [if_neg node, decide_eq_false (mt mem_nodes_of_mem node)]
    rfl

/-- **The words are found with their ids.** -/
theorem exactSearch_eq (key : ByteString) : trie.exactSearch key = .ok (idOf words key) := by
  rw [exactSearch, isTrie.traverse_root, bind_ok_]
  by_cases node : key ∈ PrefixTree.nodes words
  · rw [if_pos node]
    dsimp only
    rw [isTrie.isTerminalNode_eq node, bind_ok_]
    by_cases member : key ∈ words
    · rw [decide_eq_true member, if_pos rfl, isTrie.getKeyIdOfTerminalNode_eq member]
    · rw [decide_eq_false member, if_neg Bool.false_ne_true, idOf_of_not_mem member]
      rfl
  · rw [if_neg node, idOf_of_not_mem (mt mem_nodes_of_mem node)]
    rfl

theorem restoreLoop_eq {p : ByteString} (node : p ∈ PrefixTree.nodes words) {space : Nat}
    (enough : p.length ≤ space) (key : ByteString) :
    trie.restoreLoop space (trie.nodeOf words p) key = .ok (p ++ key) := by
  induction p using List.reverseRecOn generalizing space key with
  | nil =>
      rw [isTrie.nodeOf_nil]
      cases space <;> rfl
  | append_singleton p c ih =>
      obtain ⟨moved, isNode⟩ := isTrie.moveToParent_eq node
      rw [List.length_append, List.length_singleton] at enough
      obtain ⟨space, rfl⟩ := Nat.exists_eq_add_of_le' (Nat.one_le_of_lt enough)
      have notRoot : ¬ Louds.isRoot (trie.nodeOf words (p ++ [c])) = true := by
        intro isRoot
        rw [Louds.isRoot, beq_iff_eq] at isRoot
        have first : (PrefixTree.nodes words).idxOf (p ++ [c]) = 0 := Nat.succ_inj.1 isRoot
        have inside := List.idxOf_lt_length_iff.2 node
        have here := List.getElem_idxOf inside
        simp only [first] at here
        have root := isTrie.nodup
        have head : (PrefixTree.nodes words)[0]? = some [] := by
          rw [PrefixTree.levelOrdered_nodes words]
          rfl
        rw [first] at inside
        rw [List.getElem?_eq_getElem inside, here, Option.some_inj] at head
        exact absurd head (by simp)
      rw [restoreLoop, if_neg notRoot, isTrie.getEdgeLabelToParentNode_eq node, bind_ok_, moved, bind_ok_,
        ih isNode (by omega), edgeLabel, List.getLastD_concat, List.append_assoc,
        List.singleton_append]

/-- **A node is restored to its prefix**, if the buffer is long enough. -/
theorem restoreKeyStringOfNode_eq {p : ByteString} (node : p ∈ PrefixTree.nodes words)
    (short : p.length ≤ kMaxDepth) :
    trie.restoreKeyStringOfNode (trie.nodeOf words p) = .ok p := by
  rw [restoreKeyStringOfNode, isTrie.restoreLoop_eq node short, List.append_nil]

theorem restoreKeyString_eq {word : ByteString} (member : word ∈ words)
    (short : word.length ≤ kMaxDepth) : trie.restoreKeyString (idOf words word) = .ok word := by
  have positive : ¬ idOf words word < 0 := by
    rw [idOf_of_mem member]
    omega
  rw [restoreKeyString, if_neg positive, isTrie.getTerminalNodeFromKeyId_eq member]
  exact isTrie.restoreKeyStringOfNode_eq (mem_nodes_of_mem member) short

theorem prefixLoop_eq {p : ByteString} (node : p ∈ PrefixTree.nodes words) (key : ByteString) :
    trie.prefixLoop p.length key (trie.nodeOf words p)
      = .ok ((((List.range key.length).map fun i => key.take (i + 1)).filter
          fun front => decide (p ++ front ∈ words)).map fun front =>
            (p.length + front.length, trie.nodeOf words (p ++ front))) := by
  induction key generalizing p with
  | nil => rfl
  | cons c key ih =>
      have fronts : (List.range (c :: key).length).map (fun i => (c :: key).take (i + 1))
          = [c] :: ((List.range key.length).map fun i => key.take (i + 1)).map (c :: ·) := by
        rw [List.length_cons, List.range_succ_eq_map, List.map_cons, List.map_map, List.map_map]
        rfl
      rw [prefixLoop, isTrie.moveToChildByLabel_eq node, bind_ok_, fronts]
      by_cases child : p ++ [c] ∈ PrefixTree.nodes words
      · have rest := ih child
        rw [List.length_append, List.length_singleton] at rest
        rw [if_pos child]
        dsimp only
        rw [isTrie.isTerminalNode_eq child, bind_ok_, rest, bind_ok_]
        have same : (((List.range key.length).map fun i => key.take (i + 1)).filter
              fun front => decide (p ++ [c] ++ front ∈ words)).map
              (fun front => (p.length + 1 + front.length, trie.nodeOf words (p ++ [c] ++ front)))
            = ((((List.range key.length).map fun i => key.take (i + 1)).map (c :: ·)).filter
              fun front => decide (p ++ front ∈ words)).map
              (fun front => (p.length + front.length, trie.nodeOf words (p ++ front))) := by
          rw [List.filter_map (f := (c :: ·)), List.map_map (f := (c :: ·))]
          simp only [Function.comp_def, List.append_assoc, List.singleton_append,
            List.length_cons, Nat.add_assoc, Nat.add_comm 1]
        rw [same]
        by_cases member : p ++ [c] ∈ words
        · rw [decide_eq_true member, if_pos rfl,
            List.filter_cons_of_pos (by exact decide_eq_true member)]
          rfl
        · rw [decide_eq_false member, if_neg Bool.false_ne_true,
            List.filter_cons_of_neg (by exact fun isTrue => member (of_decide_eq_true isTrue))]
          rfl
      · rw [if_neg child]
        dsimp only
        rw [List.filter_eq_nil_iff.2]
        · rfl
        · intro front inside member
          rw [decide_eq_true_eq] at member
          refine child (PrefixTree.mem_nodes.2 (.inr ⟨_, member, ?_⟩))
          rcases List.mem_cons.1 inside with rfl | later
          · exact List.prefix_refl _
          · obtain ⟨rest, -, rfl⟩ := List.mem_map.1 later
            exact ⟨rest, by simp⟩

/-- **The words that are prefixes** of a key are met, the shorter ones first. -/
theorem prefixSearch_eq (key : ByteString) :
    trie.prefixSearch key
      = .ok ((((List.range key.length).map fun i => key.take (i + 1)).filter
          fun front => decide (front ∈ words)).map fun front =>
            (front.length, trie.nodeOf words front)) := by
  have found := isTrie.prefixLoop_eq (PrefixTree.mem_nodes.2 (.inl rfl)) key
  rw [isTrie.nodeOf_nil] at found
  simp only [List.nil_append, List.length_nil, Nat.zero_add] at found
  exact found

end IsTrie

end LoudsTrie

end Mozkey.Storage
