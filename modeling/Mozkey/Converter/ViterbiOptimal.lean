import Mozkey.Converter.ViterbiSearch

/-!
# The best path is found

The search links the end of the sentence to its beginning along a cheapest path, if there is
a path.  The traversal goes back along these links and links the nodes of the path forwards.

Paths whose costs get too high on the way are given up, so that the cheapest path is found
where the costs of all beginnings of paths are below the limit.
-/

namespace Mozkey.Converter

open Mozkey.Lib

/-! ## The traversal -/

section Traversal

/-- A list of nodes that are linked backwards. -/
def Backwards (links : Links) : List Nat → Prop := List.IsChain fun l r => (links r).prev = some l

/-- A list of nodes that are linked forwards. -/
def Forwards (links : Links) : List Nat → Prop := List.IsChain fun l r => (links l).next = some r

theorem isChain_concat {R : Nat → Nat → Prop} {front : List Nat} {l r : Nat} :
    (front ++ [l, r]).IsChain R ↔ (front ++ [l]).IsChain R ∧ R l r := by
  rw [List.isChain_append_cons_cons]
  exact ⟨fun ⟨chain, step, _⟩ => ⟨chain, step⟩, fun ⟨chain, step⟩ => ⟨chain, step, .singleton r⟩⟩

/-- **The traversal goes back along a path, and links it forwards.** -/
theorem traverse_path {links : Links} {front : List Nat} {x : Nat} (nodup : (front ++ [x]).Nodup)
    (backwards : Backwards links (front ++ [x]))
    (first : ∀ y, (front ++ [x]).head? = some y → (links y).prev = none) {fuel : Nat}
    (enough : (front ++ [x]).length ≤ fuel) (prev : Option Nat) :
    ∃ links', traverse fuel links x prev = some (links', if front = [] then prev else front.head?) ∧
      (∀ y, (links' y).prev = (links y).prev ∧ (links' y).cost = (links y).cost) ∧
      (∀ y, y ∉ front → (links' y).next = (links y).next) ∧ Forwards links' (front ++ [x]) := by
  induction front using List.reverseRecOn generalizing links x prev fuel with
  | nil =>
      cases fuel with
      | zero => exact absurd enough (by simp)
      | succ fuel =>
          refine ⟨links, ?_, fun _ => ⟨rfl, rfl⟩, fun _ _ => rfl, .singleton _⟩
          rw [traverse, first x rfl]
          rfl
  | append_singleton front y ih =>
      cases fuel with
      | zero => exact absurd enough (by simp)
      | succ fuel =>
          rw [List.append_assoc] at nodup backwards first enough ⊢
          have split : front ++ ([y] ++ [x]) = front ++ [y, x] := rfl
          rw [split] at nodup backwards first enough ⊢
          obtain ⟨backwardsFront, isPrev⟩ := isChain_concat.1 backwards
          obtain ⟨links₁, isLinks₁⟩ : ∃ links₁, links₁ = links.set y { links y with next := some x } :=
            ⟨_, rfl⟩
          have same : ∀ z, (links₁ z).prev = (links z).prev ∧ (links₁ z).cost = (links z).cost := by
            intro z
            rw [isLinks₁]
            by_cases eq : z = y
            · rw [eq, Links.set_self]
              exact ⟨rfl, rfl⟩
            · rw [Links.set_of_ne links _ eq]
              exact ⟨rfl, rfl⟩
          have nodup' : (front ++ [y]).Nodup := by
            refine nodup.sublist ?_
            exact List.Sublist.append_left (List.sublist_append_left [y] [x]) front
          have absent : y ∉ front := fun member =>
            (List.nodup_append.1 nodup').2.2 y member y (List.mem_singleton_self y) rfl
          have head : (front ++ [y, x]).head? = (front ++ [y]).head? := by cases front <;> rfl
          obtain ⟨links', traversed, kept, nexts, forwards⟩ := ih nodup'
            (backwardsFront.imp fun l r isPrev => (same r).1.trans isPrev)
            (fun z isFirst => (same z).1.trans (first z (head.trans isFirst)))
            (Nat.le_of_succ_le_succ (by simpa using enough)) (some y)
          have isNext : (links' y).next = some x := by
            rw [nexts y absent, isLinks₁, Links.set_self]
          refine ⟨links', ?_, fun z => ⟨(kept z).1.trans (same z).1, (kept z).2.trans (same z).2⟩,
            fun z outside => ?_, isChain_concat.2 ⟨forwards, isNext⟩⟩
          · have step : traverse (fuel + 1) links x prev = traverse fuel links₁ y (some y) := by
              rw [traverse, isPrev, isLinks₁]
            rw [step, traversed]
            cases front <;> rfl
          · rw [List.mem_append, not_or, List.mem_singleton] at outside
            rw [nexts z outside.1, isLinks₁, Links.set_of_ne links _ outside.2]

end Traversal

/-! ## Paths through the sentence -/

section Sentence

variable (transition : UInt16 → UInt16 → Int) (lattice : Lattice) (segments : Segments)

/-- A path from the beginning of the sentence to its end. -/
structure IsPath (path : List Nat) : Prop where
  head : path.head? = some lattice.bosNode
  last : path.getLast? = some lattice.eosNode
  chain : path.IsChain (Admissible lattice segments)

/-- The word costs and transition costs along a path. -/
def pathCost (path : List Nat) : Int := CostGraph.chainCost (weight transition lattice) path

/-- Going along a path from its beginning, the cost of going to the next word stays below
the limit. -/
def StaysSmall (path : List Nat) : Prop :=
  ∀ front l r back, path = front ++ l :: r :: back →
    pathCost transition lattice (front ++ [l])
      + transition (lattice.node l).rid (lattice.node r).lid < kVeryBigCost

/-- The links are those of a cheapest path, in both directions. -/
structure Realises (links : Links) (path : List Nat) : Prop where
  isPath : IsPath lattice segments path
  least : ∀ other, IsPath lattice segments other →
    pathCost transition lattice path ≤ pathCost transition lattice other
  cost : (links lattice.eosNode).cost = pathCost transition lattice path
  backwards : Backwards links path
  forwards : Forwards links path
  first : (links lattice.bosNode).prev = none
  last : (links lattice.eosNode).next = none

end Sentence

section Optimal

variable {transition : UInt16 → UInt16 → Int} {memory : Nat → Int} {lattice : Lattice}
  {segments : Segments} {links : Links} (wf : lattice.WellFormed)
include wf

/-- The order in which nodes stand on a path. -/
def nodeRank (lattice : Lattice) (x : Nat) : Nat :=
  if x = lattice.bosNode then 0 else (lattice.node x).beginPos + 1

theorem nodeRank_lt {pos l r : Nat} (last : l ∈ lattice.endNodes pos)
    (begin : r ∈ lattice.beginNodes pos) : nodeRank lattice l < nodeRank lattice r := by
  rw [nodeRank, nodeRank, if_neg (wf.begins begin).2.1, (wf.begins begin).2.2.1]
  split
  · omega
  · next notFirst =>
      have := wf.begin_lt last notFirst
      omega

theorem nodeRank_increases (l r : Nat) (admissible : Admissible lattice segments l r) :
    nodeRank lattice l < nodeRank lattice r := by
  obtain ⟨pos, last, begin⟩ := admissible.adjacent
  exact nodeRank_lt wf last begin

/-- A node that is linked has a path whose nodes are linked. -/
theorem exists_path {p : Nat} (done : Done transition lattice segments p links) {pos r : Nat}
    (begin : r ∈ lattice.beginNodes pos) (before : pos < p) (linked : (links r).prev ≠ none) :
    ∃ path, (graph transition lattice segments).PathTo path r (links r).cost ∧
      Backwards links path := by
  induction pos using Nat.strong_induction_on generalizing r with
  | _ pos ih =>
      rcases done.settled begin before with ⟨none, _⟩ | ⟨l, c, settled⟩
      · exact absurd none linked
      · have last := mem_endNodes_of_guard wf begin settled.guard
        obtain ⟨path, isPath, backwards⟩ : ∃ path,
            (graph transition lattice segments).PathTo path l c ∧ Backwards links path := by
          have best := settled.bestLeft
          by_cases isBos : l = lattice.bosNode
          · rw [bestCost, if_pos isBos] at best
            obtain rfl := Option.some.inj best
            exact ⟨[l], isBos ▸ CostGraph.PathTo.start, .singleton _⟩
          · rw [bestCost_of_ne isBos] at best
            split at best
            · cases best
            · next linkedLeft =>
                obtain rfl := Option.some.inj best
                have lower := wf.begin_lt last isBos
                exact ih _ lower (wf.listed last isBos) (lower.trans before) linkedLeft
        refine ⟨path ++ [r], ?_, ?_⟩
        · rw [settled.cost]
          exact .step isPath settled.guard
        · obtain ⟨front, rfl⟩ := isPath.exists_front
          rw [Backwards, List.append_assoc]
          exact isChain_concat.2 ⟨backwards, settled.prev⟩

omit wf in
/-- A path of the graph to the end of the sentence is a path. -/
theorem isPath_of_pathTo {path : List Nat} {c : Int}
    (isPath : (graph transition lattice segments).PathTo path lattice.eosNode c) :
    IsPath lattice segments path ∧ c = pathCost transition lattice path := by
  obtain ⟨head, chain, cost⟩ := isPath.isChain
  obtain ⟨front, rfl⟩ := isPath.exists_front
  exact ⟨⟨head, List.getLast?_concat, chain.imp fun l r ⟨_, guard⟩ => guard.2.1⟩, cost⟩

/-- A path that stays small is a path of the graph. -/
theorem pathTo_of_isPath {path : List Nat} (isPath : IsPath lattice segments path)
    (small : StaysSmall transition lattice path) :
    (graph transition lattice segments).PathTo path lattice.eosNode (pathCost transition lattice path) := by
  obtain ⟨front, rfl⟩ := List.getLast?_eq_some_iff.1 isPath.last
  refine CostGraph.pathTo_of_list isPath.head fun front' l r back split => ?_
  have admissible := List.isChain_iff_forall_rel_of_append_cons_cons.1 isPath.chain split
  obtain ⟨pos, _, begin⟩ := admissible.adjacent
  exact ⟨(wf.begins begin).2.1, admissible, fun _ _ => small front' l r back split⟩

omit wf in
/-- A node that is linked costs what a path costs, which is an int. -/
theorem isInt32_of_linked (within : WithinInts transition lattice) {p : Nat}
    (done : Done transition lattice segments p links) {pos r : Nat} (begin : r ∈ lattice.beginNodes pos)
    (before : pos < p) (linked : (links r).prev ≠ none) : IsInt32 (links r).cost := by
  have wf := within.toWellFormed
  obtain ⟨path, isPath, -⟩ := exists_path wf done begin before linked
  obtain ⟨head, chain, cost⟩ := isPath.isChain
  obtain ⟨front, rfl⟩ := isPath.exists_front
  rw [cost]
  induction front using List.reverseRecOn with
  | nil => exact absurd (Option.some.inj head) (wf.begins begin).2.1
  | append_singleton front l _ =>
      rw [List.append_assoc] at chain ⊢
      rw [List.singleton_append, CostGraph.chainCost_concat]
      exact (within.sums front l r (chain.imp fun x y ⟨_, guard⟩ => guard.2.1.adjacent)).2.2

omit wf in
/-- **The search finds a cheapest path if there is a path at all.**  The links that it leaves
go backwards and forwards along the path, and the cost of the end of the sentence is the
cost of the path.  All costs that it leaves in linked nodes are ints. -/
theorem viterbi_optimal (within : WithinInts transition lattice) {first : Segment}
    {back : List Segment} (split : segments.segments = first :: back) (nonempty : first.key ≠ [])
    (partition : segments.segments.flatMap Segment.key = lattice.key)
    (small : ∀ path, IsPath lattice segments path → StaysSmall transition lattice path) :
    ∃ found links, viterbi transition memory lattice segments freshLinks = some (found, links) ∧
      (found = true ↔ ∃ path, IsPath lattice segments path) ∧
      (found = true → ∃ path, Realises transition lattice segments links path) ∧
      ∀ {pos r}, r ∈ lattice.beginNodes pos → (links r).prev ≠ none → IsInt32 (links r).cost := by
  have wf := within.toWellFormed
  have done := done_viterbiLinks transition memory wf split
    (List.length_pos_iff.2 nonempty) partition
  rw [viterbi]
  generalize viterbiLinks transition memory lattice segments freshLinks = links at done ⊢
  have ints : ∀ {pos r}, r ∈ lattice.beginNodes pos → (links r).prev ≠ none →
      IsInt32 (links r).cost :=
    fun begin linked =>
      isInt32_of_linked within done begin (Nat.lt_succ_of_le (wf.begin_le begin)) linked
  have positive : 0 < lattice.key.length := by
    rw [← partition, split, List.flatMap_cons, List.length_append]
    have := List.length_pos_iff.2 nonempty
    omega
  rcases done.settled wf.eos_mem (Nat.lt_succ_self _) with ⟨unlinked, empty⟩ | ⟨l, c, settled⟩
  · have stops : traverse (traversalSteps lattice) links lattice.eosNode none = some (links, none) := by
      rw [traversalSteps, traverse, unlinked]
    refine ⟨false, links, ?_, ⟨fun isTrue => absurd isTrue Bool.false_ne_true, ?_⟩,
      fun isTrue => absurd isTrue Bool.false_ne_true, ints⟩
    · rw [stops]
      rfl
    · rintro ⟨path, isPath⟩
      have isCost := pathTo_of_isPath wf isPath (small path isPath)
      exact absurd ⟨path, isCost⟩ (empty ▸ Set.notMem_empty _)
  · obtain ⟨path, isPathTo, backwards⟩ := exists_path wf done wf.eos_mem (Nat.lt_succ_self _)
      (by rw [settled.prev]; exact Option.some_ne_none l)
    obtain ⟨isPath, cost⟩ := isPath_of_pathTo isPathTo
    obtain ⟨front, rfl⟩ := isPathTo.exists_front
    obtain ⟨nodup, length, _⟩ := CostGraph.isChain_increasing (nodeRank_increases wf) isPath.chain
    rw [nodeRank, if_neg wf.eos_ne_bos, (wf.begins wf.eos_mem).2.2.1] at length
    have bosFree : (links lattice.bosNode).prev = none := by rw [done.bos]
    obtain ⟨links', traversed, kept, nexts, forwards⟩ := traverse_path nodup backwards
      (fun y isFirst => by rw [Option.some.inj (isFirst.symm.trans isPath.head), bosFree])
      (show _ ≤ traversalSteps lattice by rw [traversalSteps]; omega) none
    have notEmpty : front ≠ [] := by
      rintro rfl
      exact wf.eos_ne_bos (Option.some.inj isPath.head)
    have head : front.head? = some lattice.bosNode := by
      rw [← isPath.head]
      cases front with
      | nil => exact absurd rfl notEmpty
      | cons x front => rfl
    rw [if_neg notEmpty, head] at traversed
    refine ⟨true, links', ?_, ⟨fun _ => ⟨_, isPath⟩, fun _ => rfl⟩, fun _ => ⟨_, isPath, ?_, ?_, ?_,
      forwards, ?_, ?_⟩, fun begin linked => ?_⟩
    · rw [traversed, Option.map_some]
      simp only [decide_true]
    · intro other isOther
      rw [← cost]
      exact settled.least.2 ⟨other, pathTo_of_isPath wf isOther (small other isOther)⟩
    · rw [(kept _).2, cost]
    · exact backwards.imp fun l r isPrev => (kept r).1.trans isPrev
    · rw [(kept _).1, bosFree]
    · have absent : lattice.eosNode ∉ front := fun member =>
        (List.nodup_append.1 nodup).2.2 _ member _ (List.mem_singleton_self _) rfl
      rw [nexts _ absent, done.next]
    · rw [(kept _).1] at linked
      rw [(kept _).2]
      exact ints begin linked

end Optimal

/-! ## Short keys and bounded costs -/

section Bounds

variable {transition : UInt16 → UInt16 → Int} {lattice : Lattice} {segments : Segments} {bound : Int}
  (wf : lattice.WellFormed)
  (costs : ∀ rid lid x, |transition rid lid| + |(lattice.node x).wcost| ≤ bound)
include wf costs

/-- Words that follow each other in a short key cost little. -/
theorem abs_chainCost_le_of_short {front : List Nat} {l r : Nat}
    (chain : (front ++ [l, r]).IsChain (Neighbours lattice)) :
    |CostGraph.chainCost (weight transition lattice) (front ++ [l])|
      ≤ bound * (lattice.key.length + 1) := by
  obtain ⟨chain, ⟨pos, last, _⟩, _⟩ := List.isChain_append_cons_cons.1 chain
  obtain ⟨_, length, _⟩ := CostGraph.isChain_increasing
    (fun l r (neighbours : Neighbours lattice l r) => by
      obtain ⟨pos, last, begin⟩ := neighbours
      exact nodeRank_lt wf last begin) chain
  have rank : nodeRank lattice l ≤ lattice.key.length := by
    rw [nodeRank]
    split
    · exact Nat.zero_le _
    · next notBos =>
        have lower := wf.begin_lt last notBos
        have upper := (wf.long (wf.listed last notBos) (wf.ends last).2.1).2
        rw [(wf.ends last).2.2] at upper
        omega
  have nonneg : 0 ≤ bound :=
    (Int.add_nonneg (abs_nonneg _) (abs_nonneg _)).trans (costs 0 0 0)
  refine (CostGraph.abs_chainCost_le nonneg (fun x y => ?_) _).trans
    (Int.mul_le_mul_of_nonneg_left (by omega) nonneg)
  exact (abs_add_le _ _).trans (costs _ _ y)

/-- **Where costs are bounded and the key is short**, all sums are ints. -/
theorem withinInts_of_short (short : lattice.key.length < 2 ^ 16)
    (small : bound * (lattice.key.length + 2) ≤ 2 ^ 30) : WithinInts transition lattice := by
  have total : bound * ((lattice.key.length : Int) + 2)
      = bound * (lattice.key.length + 1) + bound := by
    ring
  have nonneg : 0 ≤ bound * ((lattice.key.length : Int) + 1) := by
    refine Int.mul_nonneg ?_ (by omega)
    exact (Int.add_nonneg (abs_nonneg _) (abs_nonneg _)).trans (costs 0 0 0)
  refine ⟨wf, short, fun x => isInt32_of_abs_lt ?_, fun front l r chain => ?_⟩
  · have sum := abs_add_le kVeryBigCost (lattice.node x).wcost
    have big : |kVeryBigCost| = 536870911 := rfl
    have step := costs 0 0 x
    have := abs_nonneg (transition 0 0)
    omega
  · have before := abs_chainCost_le_of_short wf costs chain
    have step := costs (lattice.node l).rid (lattice.node r).lid r
    have word := abs_nonneg (lattice.node r).wcost
    have edge := abs_nonneg (transition (lattice.node l).rid (lattice.node r).lid)
    have both : |weight transition lattice l r|
        ≤ |transition (lattice.node l).rid (lattice.node r).lid| + |(lattice.node r).wcost| :=
      abs_add_le _ _
    refine ⟨isInt32_of_abs_lt ?_, isInt32_of_abs_lt ?_, isInt32_of_abs_lt ?_⟩
    · exact (abs_add_le _ _).trans_lt (by omega)
    · exact (abs_add_le _ _).trans_lt (by omega)
    · exact (abs_add_le _ _).trans_lt (by omega)

/-- All paths stay small, where they are yet shorter. -/
theorem staysSmall_of_short (small : bound * (lattice.key.length + 2) < kVeryBigCost)
    {path : List Nat} (isPath : IsPath lattice segments path) :
    StaysSmall transition lattice path := by
  rintro front l r back rfl
  have chain : (front ++ [l, r]).IsChain (Neighbours lattice) := by
    have whole := isPath.chain.imp fun l r (admissible : Admissible lattice segments l r) =>
      (admissible.adjacent : Neighbours lattice l r)
    rw [List.isChain_append_cons_cons] at whole ⊢
    exact ⟨whole.1, whole.2.1, .singleton r⟩
  have before := abs_le.1 (abs_chainCost_le_of_short wf costs chain)
  have step := costs (lattice.node l).rid (lattice.node r).lid r
  have := le_abs_self (transition (lattice.node l).rid (lattice.node r).lid)
  have := abs_nonneg (lattice.node r).wcost
  have total : bound * ((lattice.key.length : Int) + 2)
      = bound * (lattice.key.length + 1) + bound := by
    ring
  have cost : pathCost transition lattice (front ++ [l])
      = CostGraph.chainCost (weight transition lattice) (front ++ [l]) := rfl
  omega

end Bounds

/-! ## An example, and the limits of the search -/

/-- Two words of one letter each. -/
def twoLetters (firstCost secondCost : Int) : Lattice :=
  ((Lattice.setKey (ascii "ab") 0).insert 0 1 { wcost := firstCost }).insert 1 1 { wcost := secondCost }

theorem twoLetters_wellFormed (firstCost secondCost : Int) :
    (twoLetters firstCost secondCost).WellFormed := by
  refine Lattice.insert_wellFormed (Lattice.insert_wellFormed (Lattice.setKey_wellFormed _ _) ?_) ?_
  · exact ⟨Nat.zero_lt_two, Nat.one_pos, (by decide : (0 : UInt16) ≠ 65535),
      fun isC => by cases isC⟩
  · exact ⟨Nat.one_lt_two, Nat.one_pos, (by decide : (0 : UInt16) ≠ 65535),
      fun isC => by cases isC⟩

/-- Two words of one letter each, and one of both. -/
def twoWords (firstCost secondCost wholeCost : Int) : Lattice :=
  (twoLetters firstCost secondCost).insert 0 2 { wcost := wholeCost }

theorem twoWords_wellFormed (firstCost secondCost wholeCost : Int) :
    (twoWords firstCost secondCost wholeCost).WellFormed :=
  Lattice.insert_wellFormed (twoLetters_wellFormed _ _) ⟨Nat.zero_lt_two, Nat.two_pos,
    (by decide : (0 : UInt16) ≠ 65535), fun isC => by cases isC⟩

theorem twoWords_costs (_rid _lid : UInt16) (x : Nat) :
    |(10 : Int)| + |((twoWords 100 200 400).node x).wcost| ≤ 410 := by
  match x with
  | 0 | 1 | 2 | 3 | 4 => decide
  | x + 5 => exact (by decide : |(10 : Int)| + |(0 : Int)| ≤ 410)

def oneSegment : Segments := { segments := [{ key := ascii "ab" }] }

/-- The cheaper of two paths is found. -/
theorem viterbi_optimal_twoWords :
    ∃ found links, viterbi (fun _ _ => 10) (fun _ => 7) (twoWords 100 200 400) oneSegment freshLinks
        = some (found, links) ∧
      (found = true ↔ ∃ path, IsPath (twoWords 100 200 400) oneSegment path) ∧
      (found = true → ∃ path, Realises (fun _ _ => 10) (twoWords 100 200 400) oneSegment links path) ∧
      ∀ {pos r}, r ∈ (twoWords 100 200 400).beginNodes pos → (links r).prev ≠ none →
        IsInt32 (links r).cost := by
  refine viterbi_optimal ?_ rfl (by decide) (by decide) fun path isPath => ?_
  · exact withinInts_of_short (twoWords_wellFormed _ _ _) twoWords_costs (by decide) (by decide)
  · exact staysSmall_of_short (twoWords_wellFormed _ _ _) twoWords_costs (by decide) isPath

/-- A word of one letter at most crosses no boundary. -/
theorem admissible_of_letter {lattice : Lattice} {segments : Segments} {pos l r : Nat}
    (last : l ∈ lattice.endNodes pos) (begin : r ∈ lattice.beginNodes pos)
    (letter : (lattice.node r).endPos ≤ (lattice.node r).beginPos + 1)
    (free : (lattice.node r).constrainedPrev = none) : Admissible lattice segments l r := by
  refine ⟨⟨pos, last, begin⟩, fun boundary _ crosses => ?_, fun c isC => ?_⟩
  · omega
  · cases free.symm.trans isC

theorem twoLetters_path (firstCost secondCost : Int) (segments : Segments) :
    IsPath (twoLetters firstCost secondCost) segments [0, 2, 3, 1] := by
  refine ⟨rfl, rfl, ?_⟩
  have first : Admissible (twoLetters firstCost secondCost) segments 0 2 :=
    @admissible_of_letter _ _ 0 _ _ (List.mem_singleton_self 0) (List.mem_singleton_self 2) le_rfl rfl
  have second : Admissible (twoLetters firstCost secondCost) segments 2 3 :=
    @admissible_of_letter _ _ 1 _ _ (List.mem_singleton_self 2) (List.mem_singleton_self 3) le_rfl rfl
  have last : Admissible (twoLetters firstCost secondCost) segments 3 1 :=
    @admissible_of_letter _ _ 2 _ _ (List.mem_singleton_self 3) (List.mem_singleton_self 1)
      (Nat.le_succ 2) rfl
  exact .cons_cons first (.cons_cons second (.cons_cons last (.singleton 1)))

/-- Both words are on every path. -/
theorem twoLetters_only {firstCost secondCost : Int} {segments : Segments} {path : List Nat}
    (isPath : IsPath (twoLetters firstCost secondCost) segments path) : path = [0, 2, 3, 1] := by
  have next : ∀ l r, Admissible (twoLetters firstCost secondCost) segments l r →
      (l = 0 ∧ r = 2) ∨ (l = 2 ∧ r = 3) ∨ (l = 3 ∧ r = 1) := by
    rintro l r ⟨⟨pos, last, begin⟩, _, _⟩
    match pos with
    | 0 => exact .inl ⟨List.mem_singleton.1 last, List.mem_singleton.1 begin⟩
    | 1 => exact .inr (.inl ⟨List.mem_singleton.1 last, List.mem_singleton.1 begin⟩)
    | 2 => exact .inr (.inr ⟨List.mem_singleton.1 last, List.mem_singleton.1 begin⟩)
    | pos + 3 => exact absurd last List.not_mem_nil
  obtain ⟨head, last, chain⟩ := isPath
  have bos : (twoLetters firstCost secondCost).bosNode = 0 := rfl
  have eos : (twoLetters firstCost secondCost).eosNode = 1 := rfl
  rw [bos] at head
  rw [eos] at last
  match path with
  | [a] => simp_all
  | [a, b] =>
      have := next a b (List.isChain_cons_cons.1 chain).1
      simp_all
  | [a, b, x] =>
      have := next a b (List.isChain_cons_cons.1 chain).1
      have := next b x (List.isChain_cons_cons.1 (List.isChain_cons_cons.1 chain).2).1
      simp_all
  | a :: b :: x :: d :: rest =>
      obtain ⟨ab, chainB⟩ := List.isChain_cons_cons.1 chain
      obtain ⟨bx, chainX⟩ := List.isChain_cons_cons.1 chainB
      obtain ⟨xd, chainD⟩ := List.isChain_cons_cons.1 chainX
      have first := next a b ab
      have second := next b x bx
      have third := next x d xd
      obtain rfl : a = 0 := Option.some.inj head
      obtain rfl : b = 2 := by omega
      obtain rfl : x = 3 := by omega
      obtain rfl : d = 1 := by omega
      cases rest with
      | nil => rfl
      | cons e rest =>
          have := next 1 e (List.isChain_cons_cons.1 chainD).1
          omega

/-- An empty word behind the word that it could stand in front of. -/
def emptyWord : Lattice := (twoLetters 0 0).insert 1 0 { wcost := -5 }

theorem emptyWord_path : IsPath emptyWord oneSegment [0, 2, 4, 3, 1] := by
  have step : ∀ pos l r, l ∈ emptyWord.endNodes pos → r ∈ emptyWord.beginNodes pos →
      (emptyWord.node r).endPos ≤ (emptyWord.node r).beginPos + 1 →
      (emptyWord.node r).constrainedPrev = none → Admissible emptyWord oneSegment l r :=
    fun _ _ _ => admissible_of_letter
  refine ⟨rfl, rfl, ?_⟩
  exact .cons_cons (step 0 0 2 (by decide) (by decide) (by decide) rfl)
    (.cons_cons (step 1 2 4 (by decide) (by decide) (by decide) rfl)
      (.cons_cons (step 1 4 3 (by decide) (by decide) (by decide) rfl)
        (.cons_cons (step 2 3 1 (by decide) (by decide) (by decide) rfl) (.singleton 1))))

/-- The search misses paths that are dear on the way although they are cheap in the end, all
paths when the first segment is empty, and cheap paths through empty words. -/
theorem viterbi_limits :
    ((∀ path, IsPath (twoLetters 536870912 (-536870912)) oneSegment path →
        pathCost (fun _ _ => 0) (twoLetters 536870912 (-536870912)) path < kVeryBigCost) ∧
      (∃ path, IsPath (twoLetters 536870912 (-536870912)) oneSegment path) ∧
      (viterbi (fun _ _ => 0) (fun _ => 0) (twoLetters 536870912 (-536870912)) oneSegment
        freshLinks).map Prod.fst = some false) ∧
    ((∃ path, IsPath (twoLetters 0 0) { segments := [{}, { key := ascii "ab" }] } path) ∧
      (viterbi (fun _ _ => 0) (fun _ => 0) (twoLetters 0 0) { segments := [{}, { key := ascii "ab" }] }
        freshLinks).map Prod.fst = some false) ∧
    ((∃ path, IsPath emptyWord oneSegment path ∧ pathCost (fun _ _ => 0) emptyWord path = -5) ∧
      (viterbi (fun _ _ => 0) (fun _ => 0) emptyWord oneSegment freshLinks).map
        (fun result => (result.2 emptyWord.eosNode).cost) = some 0) := by
  refine ⟨⟨fun path isPath => ?_, ⟨_, twoLetters_path _ _ _⟩, by decide +kernel⟩,
    ⟨⟨_, twoLetters_path _ _ _⟩, by decide +kernel⟩, ⟨_, emptyWord_path, by decide⟩, by decide +kernel⟩
  rw [twoLetters_only isPath]
  decide

end Mozkey.Converter
