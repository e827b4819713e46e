import Mozkey.Base.ByteString
import Mozkey.Lib.Run

/-!
# The lattice

A lattice has the words that may stand in a key: every word is a node, listed under the
position where it begins and under the one where it ends.  The sentence begins with a node
that ends at the first position and ends with a node that begins at the last one.

Nodes are told apart by the order in which they were made.  What the search writes in them,
the links to the best path and its cost, is kept apart from what they are made with.
-/

namespace Mozkey.Converter

/-! ## Nodes -/

/-- What a node is made with. -/
structure Node where
  constrainedPrev : Option Nat := none
  rid : UInt16 := 0
  lid : UInt16 := 0
  beginPos : Nat := 0
  endPos : Nat := 0
  wcost : Int := 0
  deriving DecidableEq, Repr

/-- What the search writes in a node. -/
structure Link where
  prev : Option Nat := none
  next : Option Nat := none
  cost : Int := 0
  deriving DecidableEq, Repr

/-- The links of all nodes. -/
abbrev Links := Nat → Link

/-- The links of nodes that were just inserted. -/
def freshLinks : Links := fun _ => {}

def Links.set (links : Links) (id : Nat) (link : Link) : Links := Function.update links id link

@[simp] theorem Links.set_self (links : Links) (id : Nat) (link : Link) :
    links.set id link id = link := Function.update_self ..

theorem Links.set_of_ne (links : Links) {id other : Nat} (link : Link) (differs : other ≠ id) :
    links.set id link other = links other := Function.update_of_ne differs ..

/-! ## Lattices -/

structure Lattice where
  key : ByteString
  nodes : List Node
  beginNodesOf : List (List Nat)
  endNodesOf : List (List Nat)
  deriving DecidableEq, Repr

namespace Lattice

def node (lattice : Lattice) (id : Nat) : Node := lattice.nodes.getD id {}

/-- The nodes that begin at a position. -/
def beginNodes (lattice : Lattice) (pos : Nat) : List Nat := lattice.beginNodesOf.getD pos []

/-- The nodes that end at a position. -/
def endNodes (lattice : Lattice) (pos : Nat) : List Nat := lattice.endNodesOf.getD pos []

def bosNode (lattice : Lattice) : Nat := (lattice.endNodes 0).headD 0
def eosNode (lattice : Lattice) : Nat := (lattice.beginNodes lattice.key.length).headD 0

/-- `SetKey`. -/
def setKey (key : ByteString) (bosId : UInt16) : Lattice where
  key := key
  nodes := [{ rid := bosId }, { beginPos := key.length, endPos := key.length }]
  beginNodesOf := (List.replicate (key.length + 1) []).modify key.length (· ++ [1])
  endNodesOf := (List.replicate (key.length + 1) []).modify 0 (· ++ [0])

/-- `Insert`, of a node with a key of some size. -/
def insert (lattice : Lattice) (pos keySize : Nat) (node : Node) : Lattice where
  key := lattice.key
  nodes :=
    lattice.nodes ++ [{ node with beginPos := pos, endPos := min (keySize + pos) lattice.key.length }]
  beginNodesOf := lattice.beginNodesOf.modify pos (· ++ [lattice.nodes.length])
  endNodesOf :=
    lattice.endNodesOf.modify (min (keySize + pos) lattice.key.length) (· ++ [lattice.nodes.length])

/-! ## Well-formed lattices -/

/-- What the operations keep.  No id is as great as the number of rows of a connection
matrix can be, which is 65535. -/
structure WellFormed (lattice : Lattice) : Prop where
  sizes : lattice.beginNodesOf.length = lattice.key.length + 1 ∧
    lattice.endNodesOf.length = lattice.key.length + 1
  bos : lattice.endNodes 0 = [lattice.bosNode]
  eos : lattice.beginNodes lattice.key.length = [lattice.eosNode]
  eosFree : (lattice.node lattice.eosNode).constrainedPrev = none
  eosEnd : (lattice.node lattice.eosNode).endPos = lattice.key.length
  begins : ∀ {pos r}, r ∈ lattice.beginNodes pos →
    r < lattice.nodes.length ∧ r ≠ lattice.bosNode ∧ (lattice.node r).beginPos = pos ∧
      (lattice.node r).lid ≠ 65535
  long : ∀ {pos r}, r ∈ lattice.beginNodes pos → r ≠ lattice.eosNode →
    pos < (lattice.node r).endPos ∧ (lattice.node r).endPos ≤ lattice.key.length
  ends : ∀ {pos l}, l ∈ lattice.endNodes pos →
    l < lattice.nodes.length ∧ l ≠ lattice.eosNode ∧ (lattice.node l).endPos = pos
  listed : ∀ {pos l}, l ∈ lattice.endNodes pos → l ≠ lattice.bosNode →
    l ∈ lattice.beginNodes (lattice.node l).beginPos
  constrained : ∀ {pos r c}, r ∈ lattice.beginNodes pos →
    (lattice.node r).constrainedPrev = some c → c ∈ lattice.endNodes pos

theorem mem_getD_modify {xss : List (List Nat)} {i j x : Nat} {y : Nat} (inside : i < xss.length) :
    x ∈ (xss.modify i (· ++ [y])).getD j [] ↔ x ∈ xss.getD j [] ∨ (j = i ∧ x = y) := by
  simp only [List.getD_eq_getElem?_getD, List.getElem?_modify]
  by_cases same : i = j
  · subst same
    simp [List.getElem?_eq_getElem inside]
  · have differs : ¬j = i := fun eq => same eq.symm
    simp [same, differs]

theorem mem_getD_replicate {n j x : Nat} : x ∉ (List.replicate n ([] : List Nat)).getD j [] := by
  rw [List.getD_eq_getElem?_getD, List.getElem?_replicate]
  split <;> simp

theorem mem_beginNodes_setKey {key : ByteString} {bosId : UInt16} {pos r : Nat} :
    r ∈ (setKey key bosId).beginNodes pos ↔ pos = key.length ∧ r = 1 := by
  rw [beginNodes, setKey, mem_getD_modify (by simp)]
  exact or_iff_right mem_getD_replicate

theorem mem_endNodes_setKey {key : ByteString} {bosId : UInt16} {pos l : Nat} :
    l ∈ (setKey key bosId).endNodes pos ↔ pos = 0 ∧ l = 0 := by
  rw [endNodes, setKey, mem_getD_modify (by simp)]
  exact or_iff_right mem_getD_replicate

/-- **A lattice without words is well formed.** -/
theorem setKey_wellFormed (key : ByteString) (bosId : UInt16) : (setKey key bosId).WellFormed := by
  have ends : (setKey key bosId).endNodes 0 = [0] := by
    rw [endNodes, setKey, List.replicate_succ]
    rfl
  have begins : (setKey key bosId).beginNodes key.length = [1] := by
    rw [beginNodes, setKey, List.getD_eq_getElem?_getD, List.getElem?_modify]
    simp
  have bosNode : (setKey key bosId).bosNode = 0 := by rw [Lattice.bosNode, ends]; rfl
  have eosNode : (setKey key bosId).eosNode = 1 := by
    rw [Lattice.eosNode]
    show ((setKey key bosId).beginNodes key.length).headD 0 = 1
    rw [begins]
    rfl
  refine ⟨by simp [setKey], by rw [bosNode, ends], ?_, by rw [eosNode]; rfl, by rw [eosNode]; rfl,
    ?_, ?_, ?_, ?_, ?_⟩
  · rw [eosNode]
    exact begins
  · intro pos r begin
    obtain ⟨rfl, rfl⟩ := mem_beginNodes_setKey.1 begin
    exact ⟨Nat.lt_succ_self 1, by rw [bosNode]; decide, rfl, (by decide : (0 : UInt16) ≠ 65535)⟩
  · intro pos r begin notEos
    exact absurd ((mem_beginNodes_setKey.1 begin).2.trans eosNode.symm) notEos
  · intro pos l last
    obtain ⟨rfl, rfl⟩ := mem_endNodes_setKey.1 last
    exact ⟨Nat.zero_lt_two, by rw [eosNode]; decide, rfl⟩
  · intro pos l last notBos
    exact absurd ((mem_endNodes_setKey.1 last).2.trans bosNode.symm) notBos
  · intro pos r c begin isConstrained
    obtain ⟨rfl, rfl⟩ := mem_beginNodes_setKey.1 begin
    cases isConstrained

/-- What a word must be like: it begins in the key, is not empty, has an id of the matrix,
and is constrained to a word that ends where it begins. -/
structure Insertable (lattice : Lattice) (pos keySize : Nat) (node : Node) : Prop where
  inside : pos < lattice.key.length
  nonempty : 0 < keySize
  lid : node.lid ≠ 65535
  constrained : ∀ {c}, node.constrainedPrev = some c → c ∈ lattice.endNodes pos

/-- **Inserting a word keeps a lattice well formed.** -/
theorem insert_wellFormed {lattice : Lattice} (wf : lattice.WellFormed) {pos keySize : Nat}
    {node : Node} (insertable : lattice.Insertable pos keySize node) :
    (lattice.insert pos keySize node).WellFormed := by
  obtain ⟨beginSize, endSize⟩ := wf.sizes
  have inside := insertable.inside
  have nonempty := insertable.nonempty
  have memBegin : ∀ p r, r ∈ (lattice.insert pos keySize node).beginNodes p ↔
      r ∈ lattice.beginNodes p ∨ (p = pos ∧ r = lattice.nodes.length) :=
    fun p r => mem_getD_modify (by omega)
  have memEnd : ∀ p l, l ∈ (lattice.insert pos keySize node).endNodes p ↔
      l ∈ lattice.endNodes p ∨
        (p = min (keySize + pos) lattice.key.length ∧ l = lattice.nodes.length) :=
    fun p l => mem_getD_modify (by omega)
  have old : ∀ {id}, id < lattice.nodes.length →
      (lattice.insert pos keySize node).node id = lattice.node id :=
    fun less => List.getD_append _ _ _ _ less
  have new : (lattice.insert pos keySize node).node lattice.nodes.length
      = { node with beginPos := pos, endPos := min (keySize + pos) lattice.key.length } := by
    rw [Lattice.node, Lattice.insert, List.getD_append_right _ _ _ _ le_rfl, Nat.sub_self]
    rfl
  have endNodes0 : (lattice.insert pos keySize node).endNodes 0 = lattice.endNodes 0 := by
    have differs : min (keySize + pos) lattice.key.length ≠ 0 := by omega
    simp only [endNodes, insert, List.getD_eq_getElem?_getD, List.getElem?_modify, if_neg differs]
    simp
  have beginNodesEnd : (lattice.insert pos keySize node).beginNodes lattice.key.length
      = lattice.beginNodes lattice.key.length := by
    have differs : pos ≠ lattice.key.length := by omega
    simp only [beginNodes, insert, List.getD_eq_getElem?_getD, List.getElem?_modify, if_neg differs]
    simp
  have bosNode : (lattice.insert pos keySize node).bosNode = lattice.bosNode := by
    rw [Lattice.bosNode, endNodes0, Lattice.bosNode]
  have eosNode : (lattice.insert pos keySize node).eosNode = lattice.eosNode :=
    congrArg (·.headD 0) beginNodesEnd
  have bosLess : lattice.bosNode < lattice.nodes.length :=
    (wf.ends (show lattice.bosNode ∈ lattice.endNodes 0 by rw [wf.bos]; exact List.mem_singleton_self _)).1
  have eosLess : lattice.eosNode < lattice.nodes.length :=
    (wf.begins (show lattice.eosNode ∈ lattice.beginNodes lattice.key.length by
      rw [wf.eos]; exact List.mem_singleton_self _)).1
  refine ⟨⟨by simp [insert, beginSize], by simp [insert, endSize]⟩, ?_, ?_, ?_, ?_, ?_, ?_, ?_, ?_, ?_⟩
  · rw [bosNode, endNodes0, wf.bos]
  · rw [eosNode]
    exact beginNodesEnd.trans wf.eos
  · rw [eosNode, old eosLess, wf.eosFree]
  · rw [eosNode, old eosLess, wf.eosEnd]
    rfl
  · intro p r begin
    rw [bosNode]
    rcases (memBegin p r).1 begin with before | ⟨rfl, rfl⟩
    · obtain ⟨less, rest⟩ := wf.begins before
      rw [old less]
      exact ⟨less.trans_le (by simp [insert]), rest⟩
    · rw [new]
      exact ⟨by simp [insert], by omega, rfl, insertable.lid⟩
  · intro p r begin notEos
    rw [eosNode] at notEos
    rcases (memBegin p r).1 begin with before | ⟨rfl, rfl⟩
    · rw [old (wf.begins before).1]
      exact wf.long before notEos
    · rw [new]
      show p < min (keySize + p) lattice.key.length ∧ min _ _ ≤ lattice.key.length
      omega
  · intro p l last
    rw [eosNode]
    rcases (memEnd p l).1 last with before | ⟨rfl, rfl⟩
    · obtain ⟨less, rest⟩ := wf.ends before
      rw [old less]
      exact ⟨less.trans_le (by simp [insert]), rest⟩
    · rw [new]
      exact ⟨by simp [insert], by omega, rfl⟩
  · intro p l last notBos
    rw [bosNode] at notBos
    rw [memBegin]
    rcases (memEnd p l).1 last with before | ⟨rfl, rfl⟩
    · rw [old (wf.ends before).1]
      exact .inl (wf.listed before notBos)
    · rw [new]
      exact .inr ⟨rfl, rfl⟩
  · intro p r c begin isConstrained
    rw [memEnd]
    rcases (memBegin p r).1 begin with before | ⟨rfl, rfl⟩
    · rw [old (wf.begins before).1] at isConstrained
      exact .inl (wf.constrained before isConstrained)
    · rw [new] at isConstrained
      exact .inl (insertable.constrained isConstrained)

/-- `Insert` of a word: its position, the size of its key, and its node. -/
def insertWord (lattice : Lattice) (word : Nat × Nat × Node) : Lattice :=
  lattice.insert word.1 word.2.1 word.2.2

/-- **Every lattice that is built word by word is well formed.** -/
theorem wellFormed_of_inserts (key : ByteString) (bosId : UInt16) {words : List (Nat × Nat × Node)}
    (insertable : Lib.AllAlong insertWord
      (fun lattice word => lattice.Insertable word.1 word.2.1 word.2.2) (setKey key bosId) words) :
    (words.foldl insertWord (setKey key bosId)).WellFormed :=
  @Lib.foldl_preserves _ _ insertWord _ WellFormed (fun _ _ can wf => insert_wellFormed wf can) _ _
    insertable (setKey_wellFormed key bosId)

/-- Two letters as two words, the second of which is constrained to the first, as one word, and a
word that is longer than the key. -/
def lettersAndWord : List (Nat × Nat × Node) :=
  [(0, 1, { lid := 3, rid := 4, wcost := 100 }),
    (1, 1, { constrainedPrev := some 2, lid := 5, rid := 6, wcost := 200 }),
    (0, 2, { lid := 7, rid := 7, wcost := 400 }), (1, 5, { lid := 8 })]

theorem wellFormed_of_inserts_lettersAndWord :
    (lettersAndWord.foldl insertWord (setKey (ascii "ab") 0)).WellFormed := by
  refine wellFormed_of_inserts _ _ ⟨⟨by decide, by decide, by decide, fun isC => by cases isC⟩,
    ⟨by decide, by decide, by decide, fun isC => ?_⟩,
    ⟨by decide, by decide, by decide, fun isC => by cases isC⟩,
    ⟨by decide, by decide, by decide, fun isC => by cases isC⟩, trivial⟩
  cases isC
  decide

namespace WellFormed

variable {lattice : Lattice} (wf : lattice.WellFormed)
include wf

theorem bos_mem : lattice.bosNode ∈ lattice.endNodes 0 := by
  rw [wf.bos]
  exact List.mem_singleton_self _

theorem eos_mem : lattice.eosNode ∈ lattice.beginNodes lattice.key.length := by
  rw [wf.eos]
  exact List.mem_singleton_self _

theorem eos_ne_bos : lattice.eosNode ≠ lattice.bosNode := (wf.begins wf.eos_mem).2.1

theorem eq_bos_of_mem {l : Nat} (last : l ∈ lattice.endNodes 0) : l = lattice.bosNode := by
  rw [wf.bos] at last
  exact List.mem_singleton.1 last

theorem ne_bos {pos l : Nat} (positive : 0 < pos) (last : l ∈ lattice.endNodes pos) :
    l ≠ lattice.bosNode := by
  rintro rfl
  have zero := (wf.ends wf.bos_mem).2.2
  have here := (wf.ends last).2.2
  omega

/-- A word that ends at a position begins before it. -/
theorem begin_lt {pos l : Nat} (last : l ∈ lattice.endNodes pos) (notBos : l ≠ lattice.bosNode) :
    (lattice.node l).beginPos < pos := by
  have long := (wf.long (wf.listed last notBos) (wf.ends last).2.1).1
  rwa [(wf.ends last).2.2] at long

theorem begin_le {pos r : Nat} (begin : r ∈ lattice.beginNodes pos) : pos ≤ lattice.key.length := by
  by_contra late
  rw [beginNodes, List.getD_eq_default _ _ (by rw [wf.sizes.1]; omega)] at begin
  exact absurd begin List.not_mem_nil

theorem end_le {pos r : Nat} (begin : r ∈ lattice.beginNodes pos) :
    pos ≤ (lattice.node r).endPos ∧ (lattice.node r).endPos ≤ lattice.key.length := by
  by_cases isEos : r = lattice.eosNode
  · subst isEos
    rw [wf.eosEnd]
    exact ⟨wf.begin_le begin, le_rfl⟩
  · obtain ⟨less, le⟩ := wf.long begin isEos
    exact ⟨less.le, le⟩

end WellFormed

end Lattice

end Mozkey.Converter
