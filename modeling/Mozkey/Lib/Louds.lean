import Mozkey.Lib.BitVector

/-!
# Level-order unary degree sequences

The nodes of a tree are listed level by level, so that the children of a node stand next to
each other, behind those of the nodes before it.  Then the numbers of children alone tell the
tree.  They are written as bits, a one bit for each child and a zero bit behind them, and a
node with a single child is put in front of the root.

In such a sequence the one bits are the nodes and the zero bits their ends.  Where a node's
children begin is found by a select of the zero bits, and where a node stands among the
children by a select of the one bits.
-/

namespace Mozkey.Lib

/-! ## Numbers in unary -/

/-- One bits for each number, and a zero bit behind them. -/
def unary (degrees : List Nat) : List Bool :=
  degrees.flatMap fun degree => List.replicate degree true ++ [false]

theorem unary_cons (degree : Nat) (degrees : List Nat) :
    unary (degree :: degrees) = List.replicate degree true ++ false :: unary degrees := by
  rw [unary, List.flatMap_cons, List.append_assoc, List.singleton_append, unary]

theorem unary_append (front back : List Nat) : unary (front ++ back) = unary front ++ unary back :=
  List.flatMap_append

theorem count_false_unary (degrees : List Nat) : (unary degrees).count false = degrees.length := by
  induction degrees with
  | nil => rfl
  | cons degree degrees ih =>
      rw [unary_cons, List.count_append, List.count_cons_self, ih,
        List.count_eq_zero_of_not_mem (by simp), Nat.zero_add, List.length_cons]

theorem count_true_unary (degrees : List Nat) : (unary degrees).count true = degrees.sum := by
  induction degrees with
  | nil => rfl
  | cons degree degrees ih =>
      rw [unary_cons, List.count_append, List.count_replicate_self,
        List.count_cons_of_ne (by decide), ih, List.sum_cons]

theorem length_unary (degrees : List Nat) :
    (unary degrees).length = degrees.sum + degrees.length := by
  rw [← count_true_unary, ← count_false_unary, List.count_true_add_count_false]

/-- Behind the zero bit of the last number before, the bits of the next number begin. -/
theorem select_false_unary {front : List Nat} {n : Nat} (size : front.length = n + 1)
    (rest : List Bool) :
    select false (unary front ++ rest) (n + 1) + 1 = (unary front).length := by
  obtain ⟨init, last, rfl⟩ : ∃ init last, front = init ++ [last] := by
    have some_ : front ≠ [] := by
      rintro rfl
      exact absurd size (Nat.succ_ne_zero n).symm
    exact ⟨front.dropLast, front.getLast some_, (List.dropLast_append_getLast some_).symm⟩
  rw [List.length_append, List.length_singleton, Nat.add_right_cancel_iff] at size
  have ones : (List.replicate last true).count false = 0 :=
    List.count_eq_zero_of_not_mem (by simp)
  have zeros : (unary init ++ List.replicate last true).count false = n := by
    rw [List.count_append, count_false_unary, ones, size, Nat.add_zero]
  have form : unary (init ++ [last]) = (unary init ++ List.replicate last true) ++ [false] := by
    rw [unary_append, unary_cons, List.append_assoc]
    rfl
  rw [form, List.append_assoc, List.singleton_append, ← zeros]
  rw [select_append, Nat.zero_add, select_cons_self_one, Nat.add_zero, ← List.length_singleton,
    ← List.length_append]

/-- The one bits of the next number come behind those of the numbers before. -/
theorem select_true_unary (front : List Nat) {degree k : Nat} (less : k < degree)
    (rest : List Bool) :
    select true (unary front ++ (List.replicate degree true ++ rest)) (front.sum + (k + 1))
      = (unary front).length + k := by
  obtain ⟨more, rfl⟩ := Nat.exists_eq_add_of_lt less
  have form : List.replicate (k + more + 1) true ++ rest
      = List.replicate k true ++ (true :: (List.replicate more true ++ rest)) := by
    rw [Nat.add_assoc, List.replicate_add, List.replicate_succ, List.append_assoc,
      List.cons_append]
  have inside := select_append (b := true) (List.replicate k true)
    (true :: (List.replicate more true ++ rest)) 0
  rw [List.count_replicate_self, List.length_replicate] at inside
  rw [← count_true_unary, select_append, form, inside, Nat.zero_add, select_cons_self_one,
    Nat.add_zero]

/-- Which of the next bits are one bits. -/
theorem unary_getElem? (front : List Nat) {degree k : Nat} (le : k ≤ degree) (rest : List Bool) :
    (unary front ++ (List.replicate degree true ++ false :: rest))[(unary front).length + k]?
      = some (decide (k < degree)) := by
  rw [List.getElem?_append_right (Nat.le_add_right _ _), Nat.add_sub_cancel_left]
  rcases Nat.lt_or_eq_of_le le with less | rfl
  · rw [List.getElem?_append_left (by rwa [List.length_replicate]),
      List.getElem?_replicate_of_lt less, decide_eq_true less]
  · rw [List.getElem?_append_right (by rw [List.length_replicate]), List.length_replicate,
      Nat.sub_self, decide_eq_false (Nat.lt_irrefl k)]
    rfl

/-! ## Nodes level by level -/

section LevelOrder

variable {α : Type*} (children : α → List α)

/-- The level so many levels below. -/
def levelAt : Nat → List α → List α
  | 0, level => level
  | n + 1, level => levelAt n (level.flatMap children)

/-- The nodes of so many levels, level by level. -/
def levelOrder : Nat → List α → List α
  | 0, _ => []
  | n + 1, level => level ++ levelOrder n (level.flatMap children)

/-- The children of the listed nodes are the listed nodes below the first level and the next
level. -/
theorem levelOrder_flatMap (n : Nat) (level : List α) :
    level ++ (levelOrder children n level).flatMap children
      = levelOrder children n level ++ levelAt children n level := by
  induction n generalizing level with
  | zero => exact List.append_nil level
  | succ n ih =>
      rw [levelOrder, levelAt, List.flatMap_append, ih, List.append_assoc]

theorem levelAt_succ (n : Nat) (level : List α) :
    levelAt children (n + 1) level = (levelAt children n level).flatMap children := by
  induction n generalizing level with
  | zero => rfl
  | succ n ih =>
      rw [levelAt, ih]
      rfl

theorem mem_levelOrder {n : Nat} {level : List α} {x : α} :
    x ∈ levelOrder children n level ↔ ∃ d < n, x ∈ levelAt children d level := by
  induction n generalizing level with
  | zero => simp [levelOrder]
  | succ n ih =>
      rw [levelOrder, List.mem_append, ih]
      constructor
      · rintro (here | ⟨d, less, below⟩)
        · exact ⟨0, Nat.succ_pos n, here⟩
        · exact ⟨d + 1, Nat.succ_lt_succ less, below⟩
      · rintro ⟨d, less, member⟩
        cases d with
        | zero => exact .inl member
        | succ d => exact .inr ⟨d, Nat.lt_of_succ_lt_succ less, member⟩

/-- The children stand behind the root, in the order of their parents. -/
def LevelOrdered (root : α) (nodes : List α) : Prop := nodes = root :: nodes.flatMap children

/-- Listing as many levels as there are orders all nodes. -/
theorem levelOrdered_levelOrder {n : Nat} {root : α}
    (deep : levelAt children (n + 1) [root] = []) :
    LevelOrdered children root (levelOrder children (n + 1) [root]) := by
  have whole := levelOrder_flatMap children (n + 1) [root]
  rw [deep, List.append_nil] at whole
  exact whole.symm

/-- The unary degree sequence of the nodes, with a node of one child in front. -/
def louds (nodes : List α) : List Bool :=
  unary (1 :: nodes.map fun node => (children node).length)

/-- Where the children of the node behind `before` begin in the list of nodes. -/
def firstChild (before : List α) : Nat := (before.flatMap children).length + 1

end LevelOrder

/-! ## Navigation -/

section Navigation

variable {α : Type*} {children : α → List α} {root node : α} {nodes before after : List α}

theorem sum_degrees (xs : List α) :
    (xs.map fun x => (children x).length).sum = (xs.flatMap children).length := by
  rw [List.length_flatMap]

/-- The number of bits is that of the nodes twice, and one more. -/
theorem length_louds (ordered : LevelOrdered children root nodes) :
    (louds children nodes).length = 2 * nodes.length + 1 := by
  have size := congrArg List.length ordered
  rw [List.length_cons] at size
  rw [louds, length_unary, List.sum_cons, sum_degrees, List.length_cons, List.length_map]
  omega

theorem count_false_louds (nodes : List α) :
    (louds children nodes).count false = nodes.length + 1 := by
  rw [louds, count_false_unary, List.length_cons, List.length_map]

theorem count_true_louds (ordered : LevelOrdered children root nodes) :
    (louds children nodes).count true = nodes.length := by
  have size := congrArg List.length ordered
  rw [List.length_cons] at size
  rw [louds, count_true_unary, List.sum_cons, sum_degrees]
  omega

section Around

variable (children) (split : nodes = before ++ node :: after)
include split

/-- The bits around the children of a node. -/
theorem louds_split (more : List Bool) :
    ∃ rest, louds children nodes ++ more
        = unary (1 :: before.map fun x => (children x).length)
          ++ (List.replicate (children node).length true ++ false :: rest) := by
  refine ⟨unary (after.map fun x => (children x).length) ++ more, ?_⟩
  rw [louds, split, List.map_append, List.map_cons, ← List.cons_append, unary_append,
    unary_cons (children node).length, List.append_assoc, List.append_assoc, List.cons_append]

omit split in
theorem length_unary_before :
    (unary (1 :: before.map fun x => (children x).length)).length
      = firstChild children before + (before.length + 1) := by
  rw [length_unary, List.sum_cons, sum_degrees, List.length_cons, List.length_map, firstChild]
  omega

/-- The children of a node begin behind the zero bit of the node before it. -/
theorem select_false_louds (more : List Bool) :
    select false (louds children nodes ++ more) (before.length + 1) + 1
      = firstChild children before + (before.length + 1) := by
  obtain ⟨rest, form⟩ := louds_split children split more
  rw [form, select_false_unary (by rw [List.length_cons, List.length_map]),
    length_unary_before children]

/-- The bit of a child. -/
theorem select_true_louds {k : Nat} (less : k < (children node).length) (more : List Bool) :
    select true (louds children nodes ++ more) (firstChild children before + (k + 1))
      = firstChild children before + (before.length + 1) + k := by
  obtain ⟨rest, form⟩ := louds_split children split more
  have sum : (1 :: before.map fun x => (children x).length).sum = firstChild children before := by
    rw [List.sum_cons, sum_degrees, firstChild, Nat.add_comm]
  rw [form, ← sum, select_true_unary _ less, length_unary_before, sum]

/-- Behind the bits of the children there is a zero bit. -/
theorem louds_getElem? {k : Nat} (le : k ≤ (children node).length) (more : List Bool) :
    (louds children nodes ++ more)[firstChild children before + (before.length + 1) + k]?
      = some (decide (k < (children node).length)) := by
  obtain ⟨rest, form⟩ := louds_split children split more
  rw [form, ← length_unary_before, unary_getElem? _ le]

/-- A child in the list of the nodes. -/
theorem getElem?_firstChild (ordered : LevelOrdered children root nodes) {k : Nat}
    (less : k < (children node).length) :
    nodes[firstChild children before + k]? = (children node)[k]? := by
  have behind : (nodes.flatMap children)[(before.flatMap children).length + k]?
      = (children node)[k]? := by
    rw [split, List.flatMap_append, List.flatMap_cons,
      List.getElem?_append_right (Nat.le_add_right _ _), Nat.add_sub_cancel_left,
      List.getElem?_append_left less]
  conv_lhs => rw [ordered]
  rw [firstChild, Nat.add_right_comm, List.getElem?_cons_succ, behind]

end Around

/-- The root's bit comes first. -/
theorem select_true_louds_root (nodes : List α) (more : List Bool) :
    select true (louds children nodes ++ more) 1 = 0 := by
  rw [louds, unary_cons]
  exact select_cons_self_one _

end Navigation

end Mozkey.Lib
