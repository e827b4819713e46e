import Mozkey.Lib.Louds
import Mozkey.Lib.SortedRange

/-!
# The tree of the prefixes of some words

The prefixes of a sorted list of words form a tree: the children of a prefix are the prefixes
that go on by one letter, in the order of the letters.  The words below a prefix stand together,
the prefix itself first if it is a word and then the words below each child.

So the words that are long enough for a level are the words below the nodes of the level, one
node after another.
-/

namespace Mozkey.Lib

variable {κ : Type} [LinearOrder κ]

namespace PrefixTree

variable (words : List (List κ))

/-- The words that go on from a prefix. -/
def below (p : List κ) : List (List κ) := words.filter fun w => p.isPrefixOf w

/-- The letters that come behind a prefix. -/
def labels (p : List κ) : List κ :=
  ((below words p).filterMap fun w => w[p.length]?).destutter (· ≠ ·)

def children (p : List κ) : List (List κ) := (labels words p).map fun c => p ++ [c]

/-- The length of the longest word. -/
def depth : Nat := (words.map List.length).foldr max 0

/-- All prefixes, level by level. -/
def nodes : List (List κ) := levelOrder (children words) (depth words + 1) [[]]

variable {words}

theorem mem_below {p w : List κ} : w ∈ below words p ↔ w ∈ words ∧ p <+: w := by
  rw [below, List.mem_filter, List.isPrefixOf_iff_prefix]

theorem below_nil : below words [] = words := by
  rw [below, List.filter_eq_self]
  intro w _
  rfl

omit [LinearOrder κ] in
/-- A prefix that goes on by a letter. -/
theorem concat_prefix_iff {p w : List κ} {c : κ} :
    p ++ [c] <+: w ↔ p <+: w ∧ w[p.length]? = some c := by
  constructor
  · rintro ⟨rest, rfl⟩
    refine ⟨⟨c :: rest, by simp⟩, ?_⟩
    rw [List.append_assoc, List.getElem?_append_right le_rfl, Nat.sub_self]
    rfl
  · rintro ⟨⟨rest, rfl⟩, here⟩
    rw [List.getElem?_append_right le_rfl, Nat.sub_self] at here
    cases rest with
    | nil => cases here
    | cons d rest =>
        obtain rfl : d = c := Option.some.inj here
        exact ⟨rest, by simp⟩

theorem mem_labels {p : List κ} {c : κ} : c ∈ labels words p ↔ ∃ w ∈ words, p ++ [c] <+: w := by
  have kept : c ∈ labels words p ↔ c ∈ (below words p).filterMap fun w => w[p.length]? := by
    refine ⟨fun member => (List.destutter_sublist _ _).subset member, fun member => ?_⟩
    obtain ⟨d, found, same⟩ := @exists_mem_destutter _ _ _ id _ _ member
    obtain rfl : d = c := same
    exact found
  rw [kept, List.mem_filterMap]
  constructor
  · rintro ⟨w, member, here⟩
    rw [mem_below] at member
    exact ⟨w, member.1, concat_prefix_iff.2 ⟨member.2, here⟩⟩
  · rintro ⟨w, member, extends_⟩
    rw [concat_prefix_iff] at extends_
    exact ⟨w, mem_below.2 ⟨member, extends_.1⟩, extends_.2⟩

theorem mem_children {p q : List κ} :
    q ∈ children words p ↔ ∃ c, q = p ++ [c] ∧ ∃ w ∈ words, p ++ [c] <+: w := by
  rw [children, List.mem_map]
  constructor
  · rintro ⟨c, member, rfl⟩
    exact ⟨c, rfl, mem_labels.1 member⟩
  · rintro ⟨c, rfl, found⟩
    exact ⟨c, mem_labels.2 found, rfl⟩

omit [LinearOrder κ] in
theorem length_le_depth {w : List κ} (member : w ∈ words) : w.length ≤ depth words := by
  unfold depth
  induction words with
  | nil => cases member
  | cons first others ih =>
      rw [List.map_cons, List.foldr_cons]
      rcases List.mem_cons.1 member with rfl | later
      · exact le_max_left _ _
      · exact (ih later).trans (le_max_right _ _)

/-! ## Levels -/

theorem mem_levelAt {d : Nat} {p : List κ} :
    p ∈ levelAt (children words) d [[]]
      ↔ p.length = d ∧ (p = [] ∨ ∃ w ∈ words, p <+: w) := by
  induction d generalizing p with
  | zero =>
      rw [levelAt, List.mem_singleton]
      constructor
      · rintro rfl
        exact ⟨rfl, .inl rfl⟩
      · exact fun both => List.eq_nil_of_length_eq_zero both.1
  | succ d ih =>
      rw [levelAt_succ, List.mem_flatMap]
      constructor
      · rintro ⟨q, above, isChild⟩
        obtain ⟨c, rfl, found⟩ := mem_children.1 isChild
        rw [List.length_append, (ih.1 above).1]
        exact ⟨rfl, .inr found⟩
      · rintro ⟨length, some_⟩
        have nonempty : p ≠ [] := by
          rintro rfl
          cases length
        obtain ⟨w, member, extends_⟩ := some_.resolve_left nonempty
        obtain ⟨q, c, rfl⟩ : ∃ q c, p = q ++ [c] :=
          ⟨p.dropLast, p.getLast nonempty, (List.dropLast_append_getLast nonempty).symm⟩
        rw [List.length_append, List.length_singleton, Nat.add_right_cancel_iff] at length
        exact ⟨q, ih.2 ⟨length, .inr ⟨w, member, (List.prefix_append q [c]).trans extends_⟩⟩,
          mem_children.2 ⟨c, rfl, w, member, extends_⟩⟩

variable (words) in
/-- There are no nodes below the longest word. -/
theorem levelAt_depth : levelAt (children words) (depth words + 1) [[]] = [] := by
  refine List.eq_nil_iff_forall_not_mem.2 fun p member => ?_
  obtain ⟨length, rfl | ⟨w, isWord, extends_⟩⟩ := mem_levelAt.1 member
  · cases length
  · have := extends_.length_le
    have := length_le_depth isWord
    omega

variable (words) in
theorem levelOrdered_nodes : LevelOrdered (children words) [] (nodes words) :=
  levelOrdered_levelOrder _ (levelAt_depth words)

theorem mem_nodes {p : List κ} : p ∈ nodes words ↔ p = [] ∨ ∃ w ∈ words, p <+: w := by
  rw [nodes, mem_levelOrder]
  constructor
  · rintro ⟨d, -, member⟩
    exact (mem_levelAt.1 member).2
  · intro some_
    refine ⟨p.length, ?_, mem_levelAt.2 ⟨rfl, some_⟩⟩
    rcases some_ with rfl | ⟨w, member, extends_⟩
    · exact Nat.succ_pos _
    · exact Nat.lt_succ_of_le (extends_.length_le.trans (length_le_depth member))

/-! ## Sorted words -/

section Sorted

/-- Lists that differ behind a prefix. -/
theorem concat_append_lt {p x y : List κ} {a b : κ} (less : a < b) :
    p ++ [a] ++ x < p ++ [b] ++ y := by
  rw [List.append_assoc, List.append_assoc]
  exact List.append_left_lt (List.cons_lt_cons_iff.2 (.inl less))

theorem lt_of_isPrefix {p w : List κ} (extends_ : p <+: w) (differs : p ≠ w) : p < w :=
  (le_of_isPrefix extends_).lt_of_ne differs

variable (sorted : words.Pairwise (· < ·))
include sorted

theorem pairwise_below (p : List κ) : (below words p).Pairwise (· < ·) :=
  sorted.sublist List.filter_sublist

/-- The letters behind a prefix are in order. -/
theorem pairwise_labels (p : List κ) : (labels words p).Pairwise (· < ·) := by
  have weak : ((below words p).filterMap fun w => w[p.length]?).Pairwise
      fun a b => id a ≤ id b := by
    rw [List.pairwise_filterMap]
    refine (pairwise_below sorted p).imp_of_mem ?_
    intro v w isFirst isSecond less a here b there
    by_contra greater
    obtain ⟨x, rfl⟩ := concat_prefix_iff.2 ⟨(mem_below.1 isFirst).2, here⟩
    obtain ⟨y, rfl⟩ := concat_prefix_iff.2 ⟨(mem_below.1 isSecond).2, there⟩
    exact absurd less (concat_append_lt (not_le.1 greater)).asymm
  exact pairwise_lt_destutter weak

theorem pairwise_children (p : List κ) : (children words p).Pairwise (· < ·) := by
  rw [children, List.pairwise_map]
  refine (pairwise_labels sorted p).imp fun less => ?_
  have := concat_append_lt (p := p) (x := []) (y := []) less
  rwa [List.append_nil, List.append_nil] at this

/-- **The words below a node** are the node itself, if it is a word, and the words below its
children. -/
theorem below_eq (p : List κ) :
    below words p = (if p ∈ words then [p] else []) ++
      (children words p).flatMap (below words) := by
  refine eq_of_pairwise_lt (pairwise_below sorted p) ?_ ?_
  · rw [List.pairwise_append]
    refine ⟨by split <;> simp, ?_, ?_⟩
    · rw [children, List.flatMap_map, List.pairwise_flatMap]
      refine ⟨fun c _ => pairwise_below sorted _, ?_⟩
      refine (pairwise_labels sorted p).imp fun less v isFirst w isSecond => ?_
      obtain ⟨x, rfl⟩ := (mem_below.1 isFirst).2
      obtain ⟨y, rfl⟩ := (mem_below.1 isSecond).2
      exact concat_append_lt less
    · intro v isNode w isBelow
      obtain rfl : v = p := by
        split at isNode
        · exact List.mem_singleton.1 isNode
        · cases isNode
      obtain ⟨q, isChild, isWord⟩ := List.mem_flatMap.1 isBelow
      obtain ⟨c, rfl, -⟩ := mem_children.1 isChild
      obtain ⟨x, rfl⟩ := (mem_below.1 isWord).2
      refine lt_of_isPrefix ⟨c :: x, by simp⟩ fun same => ?_
      have := congrArg List.length same
      rw [List.length_append, List.length_append, List.length_singleton] at this
      omega
  · intro w
    rw [mem_below, List.mem_append, List.mem_flatMap]
    constructor
    · rintro ⟨member, rest, rfl⟩
      cases rest with
      | nil =>
          rw [List.append_nil] at member ⊢
          exact .inl (by rw [if_pos member]; exact List.mem_singleton_self p)
      | cons c rest =>
          have extends_ : p ++ [c] <+: p ++ c :: rest := ⟨rest, by simp⟩
          exact .inr ⟨p ++ [c], mem_children.2 ⟨c, rfl, _, member, extends_⟩,
            mem_below.2 ⟨member, extends_⟩⟩
    · rintro (isNode | ⟨q, isChild, isWord⟩)
      · split at isNode
        · next member =>
          rw [List.mem_singleton.1 isNode]
          exact ⟨member, List.prefix_refl p⟩
        · cases isNode
      · obtain ⟨c, rfl, -⟩ := mem_children.1 isChild
        obtain ⟨member, extends_⟩ := mem_below.1 isWord
        exact ⟨member, (List.prefix_append p [c]).trans extends_⟩

/-- **The words that reach a level** are the words below its nodes. -/
theorem filter_length_eq (d : Nat) :
    (words.filter fun w => decide (d ≤ w.length))
      = (levelAt (children words) d [[]]).flatMap (below words) := by
  induction d with
  | zero =>
      rw [levelAt, List.flatMap_singleton, below_nil, List.filter_eq_self]
      intro w _
      exact decide_eq_true (Nat.zero_le _)
  | succ d ih =>
      have twice : (words.filter fun w => decide (d + 1 ≤ w.length))
          = (words.filter fun w => decide (d ≤ w.length)).filter
            fun w => decide (d + 1 ≤ w.length) := by
        rw [List.filter_filter]
        refine List.filter_congr fun w _ => ?_
        by_cases long : d + 1 ≤ w.length
        · rw [decide_eq_true long, decide_eq_true (Nat.le_of_succ_le long), Bool.and_true]
        · rw [decide_eq_false long, Bool.false_and]
      rw [twice, ih, levelAt_succ, List.filter_flatMap, List.flatMap_assoc]
      refine List.flatMap_congr fun p member => ?_
      have length := (mem_levelAt.1 member).1
      rw [below_eq sorted p, List.filter_append]
      have node : (if p ∈ words then [p] else []).filter
          (fun w => decide (d + 1 ≤ w.length)) = [] := by
        rw [List.filter_eq_nil_iff]
        intro w isNode
        split at isNode
        · rw [List.mem_singleton.1 isNode, length, decide_eq_true_eq]
          omega
        · cases isNode
      rw [node, List.nil_append, List.filter_eq_self]
      intro w isBelow
      obtain ⟨q, isChild, isWord⟩ := List.mem_flatMap.1 isBelow
      obtain ⟨c, rfl, -⟩ := mem_children.1 isChild
      have := (mem_below.1 isWord).2.length_le
      rw [List.length_append, List.length_singleton, length] at this
      exact decide_eq_true this

theorem pairwise_levelAt (d : Nat) :
    (levelAt (children words) d [[]]).Pairwise (· < ·) := by
  induction d with
  | zero => exact List.pairwise_singleton _ _
  | succ d ih =>
      rw [levelAt_succ, List.pairwise_flatMap]
      refine ⟨fun p _ => pairwise_children sorted p, ih.imp_of_mem ?_⟩
      intro p q isFirst isSecond less v isChild w isOther
      have same : p.length = q.length :=
        (mem_levelAt.1 isFirst).1.trans (mem_levelAt.1 isSecond).1.symm
      obtain ⟨a, rfl, -⟩ := mem_children.1 isChild
      obtain ⟨b, rfl, -⟩ := mem_children.1 isOther
      by_contra above
      have between := isPrefix_of_le_of_le (List.prefix_append p [a]) less.le
        (((le_of_isPrefix (List.prefix_append q [b])).trans (not_lt.1 above)))
      exact absurd (between.eq_of_length same) less.ne

theorem nodup_nodes : (nodes words).Nodup := by
  suffices all : ∀ n d, (levelOrder (children words) n
      (levelAt (children words) d [[]])).Nodup ∧
        ∀ p ∈ levelOrder (children words) n (levelAt (children words) d [[]]), d ≤ p.length by
    exact (all _ 0).1
  intro n
  induction n with
  | zero => exact fun d => ⟨List.nodup_nil, by simp [levelOrder]⟩
  | succ n ih =>
      intro d
      obtain ⟨distinct, long⟩ := ih (d + 1)
      rw [levelOrder, ← levelAt_succ]
      refine ⟨List.nodup_append.2 ⟨(pairwise_levelAt sorted d).imp ne_of_lt, distinct, ?_⟩, ?_⟩
      · rintro p here q later rfl
        have := (mem_levelAt.1 here).1
        have := long p later
        omega
      · intro p member
        rcases List.mem_append.1 member with here | later
        · exact (mem_levelAt.1 here).1.ge
        · exact (Nat.le_succ d).trans (long p later)

end Sorted

end PrefixTree

end Mozkey.Lib
