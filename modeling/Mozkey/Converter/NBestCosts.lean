import Mozkey.Converter.NBestGenerator

/-!
# What candidates cost

The first candidate is made from the path of the search, and its costs are differences of the costs
of nodes.  The other candidates are made from paths that the generator grew from right to left, and
their costs were added up.  Inside a segment both count the same.  At its edges they may not.
-/

namespace Mozkey.Converter

namespace NBestGenerator

namespace Generator

/-! ## One step of the queue -/

/-- Two nodes that are connected, but not by a grammatical boundary. -/
def WeaklyConnected (G : Generator) (lnode rnode : Nat) : Prop :=
  G.boundaryCheck lnode rnode true = .validWeakConnected

/-- How much is added to a cost at an edge. -/
def penalty (G : Generator) (lnode rnode : Nat) (amount : Int) : Int :=
  if G.boundaryCheck lnode rnode true = .validWeakConnected then amount else 0

variable {G : Generator} {top cell : QueueCell} {behind : List QueueCell} {lnode : Nat}

/-- Nodes are weakly connected at edges only. -/
theorem boundaryCheck_inner (lnode rnode : Nat) :
    G.boundaryCheck lnode rnode false ≠ .validWeakConnected := by
  unfold boundaryCheck
  split_ifs
  · rintro ⟨⟩
  · rintro ⟨⟩
  · cases G.options.boundaryMode with
    | strict =>
        dsimp only
        unfold checkStrict
        split_ifs <;> rintro ⟨⟩
    | onlyMid =>
        dsimp only
        unfold checkOnlyMid
        cases G.isGrammarBoundary lnode rnode false <;> rintro ⟨⟩
    | onlyEdge =>
        dsimp only
        unfold checkOnlyEdge
        split_ifs <;> rintro ⟨⟩

/-- What an element costs, compared with the one behind it. -/
structure Extends (G : Generator) (cell top : QueueCell) (penalized : Bool) : Prop where
  gx : cell.gx = (G.costDiff cell.node top.node).cost +
    (if penalized then kWeakConnectedPenalty else 0) + top.gx
  structureGx : cell.structureGx = (G.costDiff cell.node top.node).structureCost +
    (if penalized then kWeakConnectedPenalty / 2 else 0) + top.structureGx
  wGx : cell.wGx = (G.costDiff cell.node top.node).wcost +
    (if penalized then kWeakConnectedPenalty / 2 else 0) + top.wGx

theorem expandTo_extends (made : G.expandTo top lnode = some cell) :
    cell.node = lnode ∧ G.Extends cell top (G.boundaryCheck lnode top.node
      (G.isRightEdge top.node || G.isLeftEdge top.node) = .validWeakConnected) := by
  unfold expandTo at made
  dsimp only at made
  split_ifs at made
  generalize G.boundaryCheck lnode top.node (G.isRightEdge top.node || G.isLeftEdge top.node) =
    check at made ⊢
  cases check with
  | invalid => cases made
  | valid =>
      obtain rfl := Option.some.inj made
      refine ⟨rfl, ?_, ?_, ?_⟩
      · exact congrArg (· + top.gx) (Int.add_zero _).symm
      · exact congrArg (· + top.structureGx) (Int.add_zero _).symm
      · exact congrArg (· + top.wGx) (Int.add_zero _).symm
  | validWeakConnected =>
      obtain rfl := Option.some.inj made
      exact ⟨rfl, rfl, rfl, rfl⟩

/-! ## Elements that grew -/

/-- An element of the queue in some run. -/
inductive Grown (G : Generator) : QueueElement → Prop
  | start {node : Nat} (isRight : node ∈ G.lattice.beginNodes (G.node G.endNode).beginPos) :
      Grown G [⟨node, G.cost node, 0, 0, 0⟩]
  | grow {cell top : QueueCell} {behind : List QueueCell} (grown : Grown G (top :: behind))
      (made : G.expandTo top cell.node = some cell) : Grown G (cell :: top :: behind)

theorem bestLeftElement_mem {elements : List QueueCell}
    (best : bestLeftElement elements = some cell) : cell ∈ elements := by
  unfold bestLeftElement at best
  revert best
  refine List.foldlRecOn (motive := fun found => found = some cell → cell ∈ elements) elements _
    (fun same => nomatch same) fun found before element member same => ?_
  cases found with
  | none =>
      obtain rfl := Option.some.inj same
      exact member
  | some other =>
      dsimp only at same
      split_ifs at same
      · obtain rfl := Option.some.inj same
        exact member
      · exact before same

theorem mem_expand (member : cell ∈ G.expand top) : G.expandTo top cell.node = some cell := by
  have among : cell ∈ (G.lattice.endNodes (G.node top.node).beginPos).filterMap
      (G.expandTo top) := by
    unfold expand at member
    dsimp only at member
    split_ifs at member
    · exact bestLeftElement_mem (Option.mem_toList.1 member)
    · exact member
  obtain ⟨lnode, -, made⟩ := List.mem_filterMap.1 among
  rwa [(expandTo_extends made).1]

/-- **All elements of a queue grew.** -/
theorem Queue.grown {queue : List QueueElement} (isQueue : G.Queue queue) :
    ∀ element ∈ queue, G.Grown element := by
  induction isQueue with
  | reset =>
      intro element member
      unfold Generator.reset at member
      obtain ⟨node, isRight, rfl⟩ := List.mem_map.1 member
      exact .start (List.mem_filter.1 isRight).1
  | @next queue rest top behind _ takes _ ih =>
      intro element member
      rcases List.mem_append.1 member with waiting | pushed
      · exact ih element (takes.symm.subset (List.mem_cons_of_mem _ waiting))
      · split_ifs at pushed
        · cases pushed
        · obtain ⟨cell, isCell, rfl⟩ := List.mem_map.1 pushed
          exact .grow (ih _ (takes.symm.subset List.mem_cons_self)) (mem_expand isCell)

theorem Grown.tail (grown : G.Grown (cell :: top :: behind)) : G.Grown (top :: behind) := by
  cases grown with
  | grow grown _ => exact grown

theorem Grown.extends (grown : G.Grown (cell :: top :: behind)) :
    G.Extends cell top (G.boundaryCheck cell.node top.node
      (G.isRightEdge top.node || G.isLeftEdge top.node) = .validWeakConnected) := by
  cases grown with
  | grow _ made => exact (expandTo_extends made).2

theorem Grown.of_append {front : List QueueCell} (grown : G.Grown (front ++ top :: behind)) :
    G.Grown (top :: behind) := by
  induction front with
  | nil => exact grown
  | cons cell front ih =>
      refine ih ?_
      cases front with
      | nil => exact grown.tail
      | cons next front => exact grown.tail

/-! ## Inside a segment -/

/-- A step of the path of the search between nodes of the range. -/
structure InnerStep (G : Generator) (l r : Nat) : Prop where
  cost : G.cost r = G.cost l + G.getTransitionCost l r + (G.node r).wcost
  notRight : G.isRightEdge r = false
  notLeft : G.isLeftEdge r = false

/-- **Costs that were added up are differences.** -/
theorem Grown.inner {first : QueueCell} {cells : List QueueCell} {last : QueueCell}
    {behind : List QueueCell} (grown : G.Grown (first :: cells ++ behind))
    (isLast : (first :: cells).getLast? = some last)
    (steps : ((first :: cells).map QueueCell.node).IsChain G.InnerStep) :
    first.gx = last.gx + (G.cost last.node - G.cost first.node) ∧
      first.structureGx = last.structureGx +
        (G.cost last.node - G.cost first.node - G.wcosts (cells.map QueueCell.node)) ∧
      first.wGx = last.wGx + (G.cost last.node - G.cost first.node) := by
  induction cells generalizing first with
  | nil =>
      obtain rfl : first = last := Option.some.inj isLast
      have none_ : G.wcosts (([] : List QueueCell).map QueueCell.node) = 0 := rfl
      rw [none_]
      omega
  | cons next cells ih =>
      rw [List.map_cons, List.map_cons, List.isChain_cons_cons] at steps
      obtain ⟨step, steps⟩ := steps
      have cost := step.cost
      obtain ⟨gx, structureGx, wGx⟩ := ih grown.tail isLast steps
      have more := grown.extends
      rw [step.notRight, step.notLeft, Bool.or_self,
        decide_eq_false (boundaryCheck_inner _ _)] at more
      have diff : G.costDiff first.node next.node =
          ⟨G.getTransitionCost first.node next.node + (G.node next.node).wcost,
            G.getTransitionCost first.node next.node,
            G.getTransitionCost first.node next.node + (G.node next.node).wcost⟩ := by
        unfold costDiff
        rw [step.notRight, step.notLeft]
        rfl
      have moreGx := more.gx
      have moreStructureGx := more.structureGx
      have moreWGx := more.wGx
      rw [diff] at moreGx moreStructureGx moreWGx
      have sum : G.wcosts ((next :: cells).map QueueCell.node) =
          (G.node next.node).wcost + G.wcosts (cells.map QueueCell.node) := List.sum_cons
      rw [sum]
      simp only [Bool.false_eq_true, if_false] at moreGx moreStructureGx moreWGx
      omega

/-! ## At the edges -/

/-- The element in front of a segment. -/
theorem Grown.left (grown : G.Grown (cell :: top :: behind))
    (isLeft : G.isLeftEdge top.node = true) (notRight : G.isRightEdge top.node = false) :
    cell.gx = G.getTransitionCost cell.node top.node + (G.node top.node).wcost +
        (G.cost cell.node - G.cost G.beginNode) +
          G.penalty cell.node top.node kWeakConnectedPenalty + top.gx ∧
      cell.structureGx = G.penalty cell.node top.node (kWeakConnectedPenalty / 2) +
        top.structureGx ∧
      cell.wGx = (G.node top.node).wcost +
        G.penalty cell.node top.node (kWeakConnectedPenalty / 2) + top.wGx := by
  have more := grown.extends
  have diff : G.costDiff cell.node top.node =
      ⟨G.getTransitionCost cell.node top.node + (G.node top.node).wcost +
        (G.cost cell.node - G.cost G.beginNode), 0, (G.node top.node).wcost⟩ := by
    unfold costDiff
    rw [isLeft, notRight]
    rfl
  rw [isLeft, Bool.or_true] at more
  obtain ⟨gx, structureGx, wGx⟩ := more
  rw [diff] at gx structureGx wGx
  simp only [decide_eq_true_eq] at gx structureGx wGx
  unfold penalty
  refine ⟨gx, ?_, wGx⟩
  rw [structureGx, Int.zero_add]

/-- The last element of a segment, and the one behind it. -/
theorem Grown.right {right : QueueCell} (wf : G.lattice.WellFormed)
    (grown : G.Grown [cell, right]) :
    cell.gx = G.getTransitionCost cell.node right.node +
        (G.cost right.node - G.cost G.endNode) +
          G.penalty cell.node right.node kWeakConnectedPenalty ∧
      cell.structureGx = G.penalty cell.node right.node (kWeakConnectedPenalty / 2) ∧
      cell.wGx = G.penalty cell.node right.node (kWeakConnectedPenalty / 2) ∧
      right.gx = 0 ∧ right.structureGx = 0 ∧ right.wGx = 0 := by
  have more := grown.extends
  cases grown.tail with
  | @start node isRight =>
      have atRight : G.isRightEdge node = true := decide_eq_true (wf.begins isRight).2.2.1
      have diff : G.costDiff cell.node node =
          ⟨G.getTransitionCost cell.node node + (G.cost node - G.cost G.endNode), 0, 0⟩ := by
        unfold costDiff
        rw [atRight]
        rfl
      dsimp only at more ⊢
      rw [atRight, Bool.true_or] at more
      obtain ⟨gx, structureGx, wGx⟩ := more
      dsimp only at gx structureGx wGx
      rw [diff] at gx structureGx wGx
      simp only [decide_eq_true_eq, Int.zero_add, Int.add_zero] at gx structureGx wGx
      unfold penalty
      exact ⟨gx, structureGx, wGx, rfl, rfl, rfl⟩

/-! ## The range on the path -/

/-- A lattice after one of the searches found a path. -/
def AfterSearch (transition : UInt16 → UInt16 → Int) (lattice : Lattice) (links : Links) : Prop :=
  (∃ memory segments first back, segments.segments = first :: back ∧ first.key ≠ [] ∧
      segments.segments.flatMap Segment.key = lattice.key ∧
      viterbi transition memory lattice segments freshLinks = some (true, links)) ∨
    ∃ segments, segments.segments.flatMap Segment.key = lattice.key ∧
      (∀ x, (lattice.node x).constrainedPrev = none) ∧
      predictionViterbi transition lattice segments freshLinks = some (true, links)

theorem AfterSearch.exists_path {transition : UInt16 → UInt16 → Int} {lattice : Lattice}
    {links : Links} (wf : lattice.WellFormed) (searched : AfterSearch transition lattice links) :
    ∃ path, LinkedPath transition lattice links path := by
  rcases searched with
    ⟨_, _, _, _, split, nonempty, partition, result⟩ | ⟨_, partition, free, result⟩
  · exact viterbi_linkedPath wf split nonempty partition result
  · exact predictionViterbi_linkedPath wf partition free result

/-- One step of the path, as the generator sees it. -/
theorem cost_of_step {l r : Nat} (step : LinkedStep G.transition G.lattice G.links l r) :
    G.cost r = G.cost l + G.getTransitionCost l r + (G.node r).wcost := by
  have cost := step.cost
  have same : G.getTransitionCost l r = G.transition (G.node l).rid (G.node r).lid := by
    unfold getTransitionCost
    cases isC : (G.node r).constrainedPrev with
    | none => rfl
    | some c =>
        obtain rfl := step.constrained c isC
        exact if_neg (not_not_intro rfl)
  rw [same, Int.add_assoc]
  exact cost

theorem beginPos_of_step (wf : G.lattice.WellFormed) {l r : Nat}
    (step : LinkedStep G.transition G.lattice G.links l r) :
    (G.node r).beginPos = (G.node l).endPos := by
  obtain ⟨pos, last, begin⟩ := step.adjacent
  exact (wf.begins begin).2.2.1.trans (wf.ends last).2.2.symm

theorem beginPos_lt_of_step (wf : G.lattice.WellFormed) {k l r : Nat}
    (step' : LinkedStep G.transition G.lattice G.links k l)
    (step : LinkedStep G.transition G.lattice G.links l r) :
    (G.node l).beginPos < (G.node r).beginPos := by
  obtain ⟨pos, last, begin⟩ := step.adjacent
  obtain ⟨pos', -, begin'⟩ := step'.adjacent
  have less := wf.begin_lt last (wf.begins begin').2.1
  unfold node
  rwa [(wf.begins begin).2.2.1]

/-- The nodes of the range: they begin in front of the last one, and all but the first one behind
the left edge. -/
theorem innerSteps (wf : G.lattice.WellFormed) {k first : Nat} {nodes : List Nat}
    (step : LinkedStep G.transition G.lattice G.links k first)
    (steps : (first :: nodes ++ [G.endNode]).IsChain (LinkedStep G.transition G.lattice G.links))
    (behind : (G.node G.beginNode).endPos ≤ (G.node first).beginPos) :
    (G.node first).beginPos < (G.node G.endNode).beginPos ∧
      (first :: nodes).IsChain G.InnerStep := by
  induction nodes generalizing k first with
  | nil => exact ⟨beginPos_lt_of_step wf step (List.isChain_pair.1 steps), .singleton _⟩
  | cons next nodes ih =>
      rw [List.cons_append, List.cons_append, List.isChain_cons_cons] at steps
      obtain ⟨here, steps⟩ := steps
      have less := beginPos_lt_of_step wf step here
      obtain ⟨less', inner⟩ := ih here steps (behind.trans less.le)
      refine ⟨less.trans less', .cons_cons ⟨cost_of_step here, ?_, ?_⟩ inner⟩
      · exact decide_eq_false less'.ne
      · exact decide_eq_false (behind.trans_lt less).ne'

/-- What the links lead through is a part of the path. -/
theorem nodesFrom_split {path front back : List Nat} {first fuel : Nat} {nodes : List Nat}
    (isPath : LinkedPath G.transition G.lattice G.links path)
    (split : path = front ++ first :: back) (walked : G.nodesFrom fuel first = some nodes) :
    ∃ rest, first :: back = nodes ++ G.endNode :: rest := by
  induction fuel generalizing first front back nodes with
  | zero => cases walked
  | succ fuel ih =>
      rw [nodesFrom] at walked
      split_ifs at walked with atEnd
      · obtain rfl := Option.some.inj walked
        exact ⟨back, by rw [atEnd]; rfl⟩
      · cases isNext : (G.links first).next with
        | none =>
            rw [isNext] at walked
            cases walked
        | some next =>
            rw [isNext] at walked
            obtain ⟨nodes', walked', rfl⟩ := Option.map_eq_some_iff.1 walked
            cases back with
            | nil =>
                have isEos := isPath.last
                rw [split, List.getLast?_concat] at isEos
                rw [Option.some.inj isEos, isPath.stop] at isNext
                cases isNext
            | cons next' back =>
                have step := List.isChain_iff_forall_rel_of_append_cons_cons.1 isPath.steps split
                obtain rfl := Option.some.inj (isNext.symm.trans step.next)
                have split' : path = (front ++ [first]) ++ next :: back := by
                  rw [split, List.append_assoc]
                  rfl
                obtain ⟨rest, same⟩ := ih split' walked'
                exact ⟨rest, by rw [same]; rfl⟩

/-- The nodes of a range between two nodes of the path. -/
structure Range (G : Generator) (first : Nat) (nodes : List Nat) (last : Nat) : Prop where
  isLast : (first :: nodes).getLast? = some last
  prev : (G.links G.endNode).prev = some last
  firstCost : G.cost first =
    G.cost G.beginNode + G.getTransitionCost G.beginNode first + (G.node first).wcost
  endCost : G.cost G.endNode =
    G.cost last + G.getTransitionCost last G.endNode + (G.node G.endNode).wcost
  isLeft : G.isLeftEdge first = true
  notRight : G.isRightEdge first = false
  steps : (first :: nodes).IsChain G.InnerStep

theorem exists_range (wf : G.lattice.WellFormed)
    (searched : AfterSearch G.transition G.lattice G.links)
    (onPath : Relation.ReflTransGen (fun l r => (G.links l).next = some r) G.lattice.bosNode
      G.beginNode)
    {fuel first : Nat} {all : List Nat} (isFirst : (G.links G.beginNode).next = some first)
    (walked : G.nodesFrom fuel first = some all) (nonempty : all ≠ []) :
    ∃ nodes last, all = first :: nodes ∧ G.Range first nodes last := by
  obtain ⟨path, isPath⟩ := searched.exists_path wf
  obtain ⟨front, back, split⟩ := isPath.exists_split onPath
  cases back with
  | nil =>
      have isEos := isPath.last
      rw [split, List.getLast?_concat] at isEos
      rw [Option.some.inj isEos, isPath.stop] at isFirst
      cases isFirst
  | cons first' back =>
      have step := List.isChain_iff_forall_rel_of_append_cons_cons.1 isPath.steps split
      obtain rfl := Option.some.inj (isFirst.symm.trans step.next)
      have split' : path = (front ++ [G.beginNode]) ++ first :: back := by
        rw [split, List.append_assoc]
        rfl
      obtain ⟨rest, same⟩ := nodesFrom_split isPath split' walked
      cases all with
      | nil => exact absurd rfl nonempty
      | cons first' nodes =>
          obtain ⟨rfl, rfl⟩ := List.cons.inj same
          have steps : (G.beginNode :: first :: (nodes ++ [G.endNode])).IsChain
              (LinkedStep G.transition G.lattice G.links) := by
            refine isPath.steps.infix ⟨front, rest, ?_⟩
            rw [split]
            simp only [List.append_assoc, List.cons_append, List.nil_append]
            rfl
          obtain ⟨step, steps⟩ := List.isChain_cons_cons.1 steps
          obtain ⟨last, isLast⟩ : ∃ last, (first :: nodes).getLast? = some last :=
            ⟨_, List.getLast?_eq_some_getLast (List.cons_ne_nil first nodes)⟩
          obtain ⟨before, same⟩ := List.getLast?_eq_some_iff.1 isLast
          have around : first :: (nodes ++ [G.endNode]) = before ++ last :: [G.endNode] := by
            rw [← List.cons_append, same, List.append_assoc]
            rfl
          have step' := List.isChain_iff_forall_rel_of_append_cons_cons.1 steps around
          have atLeft := beginPos_of_step wf step
          obtain ⟨less, inner⟩ := innerSteps wf step steps atLeft.ge
          exact ⟨nodes, last, rfl, isLast, step'.prev, cost_of_step step, cost_of_step step',
            decide_eq_true atLeft, decide_eq_false less.ne, inner⟩

/-! ## Both candidates -/

/-- A right edge that is counted: the only ones that are not stand behind a first inner segment with
a boundary. -/
def CountsRight (G : Generator) (last r : Nat) : Prop :=
  G.options.buildFromOnlyFirstInnerSegment = true → G.isBoundary last r false = false

instance (G : Generator) (last r : Nat) : Decidable (G.CountsRight last r) :=
  inferInstanceAs (Decidable (_ → _))

/-- The condition on the edges under which the costs that were added up are those of the path: no
edge that counts is weakly connected, and the edges cost what they cost on the path.  A candidate of
the first inner segment has the cost of all that is in front of it there. -/
structure EdgesAgree (G : Generator) (l first last r : Nat) : Prop where
  left : ¬ G.WeaklyConnected l first
  right : G.CountsRight last r → ¬ G.WeaklyConnected last r
  costs : G.cost l + G.getTransitionCost l first +
      (if G.CountsRight last r then G.getTransitionCost last r + (G.cost r - G.cost G.endNode)
        else 0) =
    G.cost G.beginNode + G.getTransitionCost G.beginNode first +
      if G.options.buildFromOnlyFirstInnerSegment then G.cost G.beginNode
        else G.getTransitionCost last G.endNode

/-- The same for an element and the nodes of its candidate. -/
def Agrees (G : Generator) (element : QueueElement) (nodes : List Nat) : Prop :=
  ∃ l first last r, (element.map QueueCell.node).head? = some l ∧ nodes.head? = some first ∧
    nodes.getLast? = some last ∧ (element.map QueueCell.node)[nodes.length + 1]? = some r ∧
    G.EdgesAgree l first last r

/-- The first candidate: its nodes begin the range, and its costs are differences. -/
structure IsTop (G : Generator) (best : CandidateCosts) (first : Nat) (nodes : List Nat)
    (last : Nat) : Prop where
  isNodes : best.nodes = first :: nodes
  isLast : (first :: nodes).getLast? = some last
  steps : (first :: nodes).IsChain G.InnerStep
  firstCost : G.cost first =
    G.cost G.beginNode + G.getTransitionCost G.beginNode first + (G.node first).wcost
  isLeft : G.isLeftEdge first = true
  notRight : G.isRightEdge first = false
  structureCost : best.structureCost = G.cost last - G.cost first - G.wcosts nodes
  wcost : best.wcost = G.cost last - G.cost first + (G.node first).wcost
  cost : best.cost = if G.options.buildFromOnlyFirstInnerSegment then G.cost last
    else G.cost last + G.getTransitionCost last G.endNode - G.cost G.beginNode

theorem upToBoundary_prefix (nodes : List Nat) : G.upToBoundary nodes <+: nodes := by
  induction nodes with
  | nil => exact List.prefix_rfl
  | cons x nodes ih =>
      cases nodes with
      | nil => exact List.prefix_rfl
      | cons y nodes =>
          unfold upToBoundary
          split_ifs
          · exact ⟨y :: nodes, rfl⟩
          · exact (List.prefix_cons_inj x).2 ih

theorem isTop_of_topCandidate (wf : G.lattice.WellFormed)
    (searched : AfterSearch G.transition G.lattice G.links)
    (onPath : Relation.ReflTransGen (fun l r => (G.links l).next = some r) G.lattice.bosNode
      G.beginNode)
    {fuel : Nat} {best : CandidateCosts} (isBest : G.topCandidate fuel = some best)
    (nonempty : best.nodes ≠ []) : ∃ first nodes last, G.IsTop best first nodes last := by
  unfold topCandidate at isBest
  split_ifs at isBest with isPrefix
  · unfold makePrefixCandidateFromBestPath at isBest
    simp only [Option.bind_eq_bind, Option.bind_eq_some_iff] at isBest
    obtain ⟨first, isFirst, all, walked, back, isBack, made⟩ := isBest
    obtain rfl := Option.some.inj made
    have notNil : all ≠ [] := by
      rintro rfl
      exact nonempty rfl
    obtain ⟨nodes, last, rfl, range⟩ := exists_range wf searched onPath isFirst walked notNil
    obtain ⟨nodes', isNodes⟩ : ∃ nodes', G.upToBoundary (first :: nodes) = first :: nodes' := by
      cases nodes with
      | nil => exact ⟨[], rfl⟩
      | cons y nodes =>
          unfold upToBoundary
          split_ifs
          · exact ⟨[], rfl⟩
          · exact ⟨_, rfl⟩
    have short : G.upToBoundary (first :: nodes) <+: first :: nodes := upToBoundary_prefix _
    have steps := range.steps.prefix short
    rw [isNodes] at isBack steps
    refine ⟨first, nodes', back, isNodes, isBack, steps, range.firstCost, range.isLeft,
      range.notRight, ?_, rfl, ?_⟩
    · rw [isNodes]
      rfl
    · rw [if_pos isPrefix]
  · unfold makeCandidateFromBestPath at isBest
    simp only [Option.bind_eq_bind, Option.bind_eq_some_iff] at isBest
    obtain ⟨first, isFirst, all, walked, isBest⟩ := isBest
    split_ifs at isBest
    · obtain ⟨_, gaveUp, _⟩ := Option.bind_eq_some_iff.1 isBest
      cases gaveUp
    · obtain ⟨prev, isPrev, made⟩ := Option.bind_eq_some_iff.1 isBest
      obtain rfl := Option.some.inj made
      obtain ⟨nodes, last, rfl, range⟩ := exists_range wf searched onPath isFirst walked nonempty
      obtain rfl := Option.some.inj (isPrev.symm.trans range.prev)
      refine ⟨first, nodes, prev, rfl, range.isLast, range.steps, range.firstCost, range.isLeft,
        range.notRight, rfl, rfl, ?_⟩
      rw [if_neg isPrefix]
      have endCost := range.endCost
      dsimp only
      omega

/-- The costs of a candidate are those of an element without those of another one. -/
structure CostsFrom (candidate : CandidateCosts) (element other : QueueCell) : Prop where
  cost : candidate.cost = element.gx - other.gx
  structureCost : candidate.structureCost = element.structureGx - other.structureGx
  wcost : candidate.wcost = element.wGx - other.wGx

/-- The cells of a candidate: the one on the left, those of its nodes, and those behind them. -/
structure Cells (G : Generator) (element : QueueElement) (candidate : CandidateCosts)
    (l c : QueueCell) (cells : List QueueCell) (last r : QueueCell) (behind : List QueueCell) :
    Prop where
  isElement : element = l :: c :: cells ++ r :: behind
  isNodes : candidate.nodes = (c :: cells).map QueueCell.node
  isLast : (c :: cells).getLast? = some last
  counted : G.CountsRight last.node r.node → behind = [] ∧ CostsFrom candidate l r
  uncounted : ¬ G.CountsRight last.node r.node → CostsFrom candidate l last

theorem firstInnerSegment_spec {elements : List QueueCell} {nodes : List Nat} {elm : QueueCell}
    (found : G.firstInnerSegment elements = some (nodes, elm)) (nonempty : nodes ≠ []) :
    ∃ c cells last r behind, elements = c :: cells ++ r :: behind ∧
      nodes = (c :: cells).map QueueCell.node ∧ (c :: cells).getLast? = some last ∧
      if G.isBoundary last.node r.node false then elm = last else behind = [] ∧ elm = r := by
  induction elements generalizing nodes with
  | nil => cases found
  | cons c elements ih =>
      cases elements with
      | nil =>
          obtain ⟨rfl, rfl⟩ := Prod.mk.inj (Option.some.inj found)
          exact absurd rfl nonempty
      | cons next rest =>
          rw [firstInnerSegment] at found
          split_ifs at found with alphabet isBoundary
          · obtain ⟨rfl, rfl⟩ := Prod.mk.inj (Option.some.inj found)
            exact ⟨c, [], c, next, rest, rfl, rfl, rfl, by rw [if_pos isBoundary]⟩
          · obtain ⟨⟨nodes', elm'⟩, found', same⟩ := Option.map_eq_some_iff.1 found
            obtain ⟨rfl, rfl⟩ := Prod.mk.inj same
            by_cases isEmpty : nodes' = []
            · subst isEmpty
              cases rest with
              | nil =>
                  obtain rfl : next = elm' := (Prod.mk.inj (Option.some.inj found')).2
                  refine ⟨c, [], c, next, [], rfl, rfl, rfl, ?_⟩
                  rw [if_neg isBoundary]
                  exact ⟨rfl, rfl⟩
              | cons other rest =>
                  rw [firstInnerSegment] at found'
                  split_ifs at found'
                  · cases (Prod.mk.inj (Option.some.inj found')).1
                  · obtain ⟨_, _, same⟩ := Option.map_eq_some_iff.1 found'
                    cases (Prod.mk.inj same).1
            · obtain ⟨c', cells, last, r, behind, split, rfl, isLast, ends⟩ := ih found' isEmpty
              refine ⟨c, c' :: cells, last, r, behind, congrArg (c :: ·) split, rfl, ?_, ends⟩
              rw [List.getLast?_cons_cons]
              exact isLast

theorem exists_cells (wf : G.lattice.WellFormed) {element : QueueElement}
    {candidate : CandidateCosts} (grown : G.Grown element) (made : G.makeCandidateFromElement element = some candidate)
    (nonempty : candidate.nodes ≠ []) :
    ∃ l c cells last r behind, G.Cells element candidate l c cells last r behind := by
  cases element with
  | nil => cases made
  | cons l next =>
      cases next with
      | nil => cases made
      | cons c next =>
          rw [makeCandidateFromElement.eq_3 _ _ _ (List.cons_ne_nil c next)] at made
          split_ifs at made with isPrefix
          · obtain ⟨⟨nodes, elm⟩, found, rfl⟩ := Option.map_eq_some_iff.1 made
            obtain ⟨c', cells, last, r, behind, same, isNodes, isLast, ends⟩ :=
              firstInnerSegment_spec found nonempty
            refine ⟨l, c', cells, last, r, behind, congrArg (l :: ·) same, isNodes, isLast, ?_, ?_⟩
            · intro counts
              rw [if_neg (by rw [counts isPrefix]; exact Bool.false_ne_true)] at ends
              obtain ⟨isEnd, rfl⟩ := ends
              exact ⟨isEnd, rfl, rfl, rfl⟩
            · intro uncounted
              have isBoundary : G.isBoundary last.node r.node false = true := by
                by_contra notBoundary
                exact uncounted fun _ => Bool.eq_false_iff.2 notBoundary
              rw [if_pos isBoundary] at ends
              obtain rfl := ends
              exact ⟨rfl, rfl, rfl⟩
          · obtain rfl := Option.some.inj made
            cases next with
            | nil => exact absurd rfl nonempty
            | cons c₂ next =>
                obtain ⟨front, r, same⟩ := List.eq_nil_or_concat' (c₂ :: next) |>.resolve_left
                  (List.cons_ne_nil _ _)
                have whole : c :: c₂ :: next = c :: front ++ [r] := congrArg (c :: ·) same
                obtain ⟨last, isLast⟩ : ∃ last, (c :: front).getLast? = some last :=
                  ⟨_, List.getLast?_eq_some_getLast (List.cons_ne_nil c front)⟩
                rw [whole] at grown ⊢
                refine ⟨l, c, front, last, r, [], rfl, ?_, isLast, ?_, ?_⟩
                · dsimp only
                  rw [List.dropLast_concat]
                · intro _
                  obtain ⟨before, around⟩ := List.getLast?_eq_some_iff.1 isLast
                  have atEnd : G.Grown [last, r] := by
                    have all : l :: (c :: front ++ [r]) = (l :: before) ++ last :: [r] := by
                      rw [around, List.append_assoc]
                      rfl
                    rw [all] at grown
                    exact grown.of_append
                  obtain ⟨-, -, -, gx, structureGx, wGx⟩ := atEnd.right wf
                  refine ⟨rfl, ?_, ?_, ?_⟩
                  · rw [gx, Int.sub_zero]
                  · rw [structureGx, Int.sub_zero]
                  · rw [wGx, Int.sub_zero]
                · exact fun uncounted => absurd (fun isTrue => absurd isTrue isPrefix) uncounted

theorem penalty_of_firm {l r : Nat} (firm : ¬ G.WeaklyConnected l r) (amount : Int) :
    G.penalty l r amount = 0 := if_neg firm

theorem halfPenalty_nonneg (G : Generator) (l r : Nat) :
    0 ≤ G.penalty l r (kWeakConnectedPenalty / 2) := by
  unfold penalty
  split_ifs <;> decide

/-- A penalty shows in the structure cost. -/
theorem firm_of_halfPenalty {l r : Nat}
    (noPenalty : G.penalty l r (kWeakConnectedPenalty / 2) = 0) : ¬ G.WeaklyConnected l r := by
  intro weak
  have positive : (kWeakConnectedPenalty / 2 : Int) ≠ 0 := by decide
  exact positive ((if_pos weak).symm.trans noPenalty)

/-- Candidates with the same nodes are the same when their costs are. -/
theorem candidate_eq_iff {candidate best : CandidateCosts} (same : candidate.nodes = best.nodes) :
    candidate = best ↔ candidate.cost = best.cost ∧
      candidate.structureCost = best.structureCost ∧ candidate.wcost = best.wcost := by
  constructor
  · rintro rfl
    exact ⟨rfl, rfl, rfl⟩
  · rintro ⟨cost, structureCost, wcost⟩
    obtain ⟨_, _, _, _⟩ := candidate
    obtain ⟨_, _, _, _⟩ := best
    obtain rfl := same
    obtain rfl := cost
    obtain rfl := structureCost
    obtain rfl := wcost
    rfl

/-- The two candidates, from what is known of either. -/
theorem eq_iff_edgesAgree (wf : G.lattice.WellFormed) {best candidate : CandidateCosts}
    {first : Nat} {nodes : List Nat} {back : Nat} (isTop : G.IsTop best first nodes back)
    {element : QueueElement} (grown : G.Grown element) {l c last r : QueueCell}
    {cells behind : List QueueCell}
    (isCells : G.Cells element candidate l c cells last r behind)
    (same : candidate.nodes = best.nodes) :
    candidate = best ↔ G.EdgesAgree l.node first back r.node := by
  have sameNodes := isCells.isNodes.symm.trans (same.trans isTop.isNodes)
  obtain ⟨rfl, sameNodes'⟩ := List.cons.inj sameNodes
  have isBack : last.node = back := by
    have isLast := congrArg (Option.map QueueCell.node) isCells.isLast
    rw [← List.getLast?_map, sameNodes, isTop.isLast] at isLast
    exact (Option.some.inj isLast).symm
  have steps := isTop.steps
  rw [← sameNodes] at steps
  rw [isCells.isElement] at grown
  obtain ⟨leftGx, leftStructureGx, leftWGx⟩ := grown.left isTop.isLeft isTop.notRight
  obtain ⟨innerGx, innerStructureGx, innerWGx⟩ := grown.tail.inner isCells.isLast steps
  rw [sameNodes'] at innerStructureGx
  have firstCost := isTop.firstCost
  have structureCost := isTop.structureCost
  have wcost := isTop.wcost
  have cost := isTop.cost
  rw [candidate_eq_iff same]
  rw [← isBack] at cost structureCost wcost ⊢
  by_cases counts : G.CountsRight last.node r.node
  · obtain ⟨rfl, cost', structureCost', wcost'⟩ := isCells.counted counts
    have atEnd : G.Grown [last, r] := by
      obtain ⟨before, around⟩ := List.getLast?_eq_some_iff.1 isCells.isLast
      have all : l :: c :: cells ++ [r] = (l :: before) ++ last :: [r] := by
        rw [List.cons_append, around, List.append_assoc]
        rfl
      rw [all] at grown
      exact grown.of_append
    obtain ⟨rightGx, rightStructureGx, rightWGx, gx, structureGx, wGx⟩ := atEnd.right wf
    have nonneg := halfPenalty_nonneg G l.node c.node
    have nonneg' := halfPenalty_nonneg G last.node r.node
    constructor
    · rintro ⟨sameCost, sameStructure, -⟩
      have left := firm_of_halfPenalty (G := G) (l := l.node) (r := c.node) (by omega)
      have right := firm_of_halfPenalty (G := G) (l := last.node) (r := r.node) (by omega)
      rw [penalty_of_firm left] at leftGx
      rw [penalty_of_firm right] at rightGx
      refine ⟨left, fun _ => right, ?_⟩
      rw [if_pos counts]
      split_ifs at cost ⊢ <;> omega
    · rintro ⟨left, right, costs⟩
      rw [if_pos counts] at costs
      rw [penalty_of_firm left] at leftGx leftStructureGx leftWGx
      rw [penalty_of_firm (right counts)] at rightGx rightStructureGx rightWGx
      refine ⟨?_, by omega, by omega⟩
      split_ifs at cost costs <;> omega
  · obtain ⟨cost', structureCost', wcost'⟩ := isCells.uncounted counts
    have isPrefix : G.options.buildFromOnlyFirstInnerSegment = true := by
      by_contra other
      exact counts fun isPrefix => absurd isPrefix other
    rw [if_pos isPrefix] at cost
    constructor
    · rintro ⟨sameCost, sameStructure, -⟩
      have left := firm_of_halfPenalty (G := G) (l := l.node) (r := c.node) (by omega)
      rw [penalty_of_firm left] at leftGx
      refine ⟨left, fun counted => absurd counted counts, ?_⟩
      rw [if_neg counts, if_pos isPrefix]
      omega
    · rintro ⟨left, -, costs⟩
      rw [if_neg counts, if_pos isPrefix] at costs
      rw [penalty_of_firm left] at leftGx leftStructureGx leftWGx
      exact ⟨by omega, by omega, by omega⟩

theorem Generates.grown {element : QueueElement} (generated : G.Generates element) :
    G.Grown element := by
  obtain ⟨queue, rest, top, behind, isQueue, takes, rfl, -, -⟩ := generated
  exact isQueue.grown _ (takes.symm.subset List.mem_cons_self)

/-- A generator within the numbers of the source.  Positions have 16 bits.  All costs along a
path, with those of what stands around it, its penalties and `kVeryBigCost` for a node that was
not reached, are an int. -/
structure WithinInts (G : Generator) : Prop extends G.lattice.WellFormed where
  short : G.lattice.key.length < 2 ^ 16
  small : ∃ bound : Int, kInvalidPenaltyCost ≤ bound ∧
    (∀ rid lid x, |G.transition rid lid| + |(G.node x).wcost| ≤ bound) ∧
      bound * (G.lattice.key.length + 2) ≤ 2 ^ 28

/-- **When the first candidate costs what the search counts for it**: exactly when the edges
agree. -/
theorem candidate_eq_topCandidate_iff (within : G.WithinInts)
    (searched : AfterSearch G.transition G.lattice G.links)
    (onPath : Relation.ReflTransGen (fun l r => (G.links l).next = some r) G.lattice.bosNode
      G.beginNode)
    {fuel : Nat} {best candidate : CandidateCosts} {element : QueueElement}
    (isBest : G.topCandidate fuel = some best) (nonempty : best.nodes ≠ [])
    (generated : G.Generates element)
    (made : G.makeCandidateFromElement element = some candidate)
    (same : candidate.nodes = best.nodes) : candidate = best ↔ G.Agrees element best.nodes := by
  have wf := within.toWellFormed
  obtain ⟨first, nodes, back, isTop⟩ := isTop_of_topCandidate wf searched onPath isBest nonempty
  obtain ⟨l, c, cells, last, r, behind, isCells⟩ :=
    exists_cells wf generated.grown made (same ▸ nonempty)
  have onLeft : (element.map QueueCell.node).head? = some l.node := by
    rw [isCells.isElement]
    rfl
  have onRight : (element.map QueueCell.node)[best.nodes.length + 1]? = some r.node := by
    rw [isCells.isElement, ← same, isCells.isNodes, List.length_map, List.map_append,
      List.getElem?_append_right (by simp)]
    simp
  rw [eq_iff_edgesAgree wf isTop generated.grown isCells same]
  constructor
  · exact fun agree => ⟨l.node, first, back, r.node, onLeft, congrArg List.head? isTop.isNodes,
      (congrArg List.getLast? isTop.isNodes).trans isTop.isLast, onRight, agree⟩
  · rintro ⟨l', first', back', r', isL, isFirst, isBack, isR, agree⟩
    obtain rfl := Option.some.inj (isL.symm.trans onLeft)
    obtain rfl := Option.some.inj (isR.symm.trans onRight)
    rw [isTop.isNodes] at isFirst isBack
    obtain rfl := Option.some.inj isFirst
    obtain rfl := Option.some.inj (isBack.symm.trans isTop.isLast)
    exact agree

/-! ## A word behind a context -/

/-- A word of one letter behind a context of one letter. -/
def contextLattice : Lattice :=
  ((Lattice.setKey (ascii "12") 0).insert 0 1 { wcost := 0 }).insert 1 1 { wcost := 100 }

def contextSegments : Segments where
  segments := [{ key := ascii "1", segmentType := .history }, { key := ascii "2" }]

def contextLinks : Links :=
  ((predictionViterbi (fun _ _ => 10) contextLattice contextSegments freshLinks).map
    Prod.snd).getD freshLinks

/-- The generator for the word. -/
def contextGenerator (options : Options) : Generator where
  lattice := contextLattice
  links := contextLinks
  text := fun x =>
    match x with
    | 0 => { nodeType := .bosNode }
    | 1 => { nodeType := .eosNode }
    | 2 => { nodeType := .hisNode, key := ascii "1" }
    | _ => { key := ascii "2" }
  transition := fun _ _ => 10
  boundary := fun _ _ => true
  beginNode := 2
  endNode := 1
  options := options

theorem contextLattice_wellFormed : contextLattice.WellFormed := by
  refine Lattice.insert_wellFormed (Lattice.insert_wellFormed (Lattice.setKey_wellFormed _ _) ?_) ?_
  · exact ⟨Nat.zero_lt_two, Nat.one_pos, (by decide : (0 : UInt16) ≠ 65535),
      fun isC => by cases isC⟩
  · exact ⟨Nat.one_lt_two, Nat.one_pos, (by decide : (0 : UInt16) ≠ 65535),
      fun isC => by cases isC⟩

theorem context_withinInts (options : Options) : (contextGenerator options).WithinInts := by
  have costs (x : Nat) : |(10 : Int)| + |(contextLattice.node x).wcost| ≤ kInvalidPenaltyCost := by
    match x with
    | 0 | 1 | 2 | 3 => decide
    | x + 4 => exact (by decide : |(10 : Int)| + |(0 : Int)| ≤ kInvalidPenaltyCost)
  exact ⟨contextLattice_wellFormed, (by decide : (2 : Nat) < 2 ^ 16), kInvalidPenaltyCost, le_rfl,
    fun _ _ => costs, (by decide : kInvalidPenaltyCost * (2 + 2) ≤ 2 ^ 28)⟩

theorem context_afterSearch : AfterSearch (fun _ _ => 10) contextLattice contextLinks := by
  refine .inr ⟨contextSegments, by decide, ?_, ?_⟩
  · intro x
    match x with
    | 0 | 1 | 2 | 3 => rfl
    | x + 4 => rfl
  · have found : (predictionViterbi (fun _ _ => 10) contextLattice contextSegments
        freshLinks).map Prod.fst = some true := by decide
    unfold contextLinks
    obtain ⟨⟨found', links⟩, result, isTrue⟩ := Option.map_eq_some_iff.1 found
    obtain rfl : found' = true := isTrue
    rw [result]
    rfl

theorem context_onPath (options : Options) :
    Relation.ReflTransGen (fun l r => ((contextGenerator options).links l).next = some r)
      (contextGenerator options).lattice.bosNode (contextGenerator options).beginNode := by
  refine .single ?_
  show (contextLinks 0).next = some 2
  decide

/-- The path that the generator finds. -/
def contextElement : QueueElement :=
  [⟨2, 130, 120, 0, 100⟩, ⟨3, 130, 10, 0, 0⟩, ⟨1, 130, 0, 0, 0⟩]

theorem context_generates (isPrefix : Bool) :
    (contextGenerator ⟨.onlyEdge, isPrefix⟩).Generates contextElement := by
  generalize isG : contextGenerator ⟨.onlyEdge, isPrefix⟩ = G
  have atReset : G.reset = [[⟨1, 130, 0, 0, 0⟩]] := by
    subst isG
    cases isPrefix <;> decide
  have first : ([] ++ if G.isGoal 1 then [] else
      (G.expand ⟨1, 130, 0, 0, 0⟩).map fun element => element :: [⟨1, 130, 0, 0, 0⟩]) =
        [contextElement.tail] := by
    subst isG
    cases isPrefix <;> decide
  have second : ([] ++ if G.isGoal 3 then [] else
      (G.expand ⟨3, 130, 10, 0, 0⟩).map fun element => element :: contextElement.tail) =
        [contextElement] := by
    subst isG
    cases isPrefix <;> decide
  have atGoal : G.isGoal 2 = true := by
    subst isG
    cases isPrefix <;> decide
  have nothing {P : QueueElement → Prop} : ∀ other ∈ ([] : List QueueElement), P other :=
    fun other member => absurd member List.not_mem_nil
  have queue : G.Queue [[⟨1, 130, 0, 0, 0⟩]] := atReset ▸ .reset
  have queue' : G.Queue [contextElement.tail] :=
    first ▸ .next queue (List.Perm.refl _) nothing
  have queue'' : G.Queue [contextElement] :=
    second ▸ .next queue' (List.Perm.refl _) nothing
  exact ⟨_, [], _, _, queue'', List.Perm.refl _, rfl, nothing, atGoal⟩

/-- The whole range behind the context: the search counts what the first candidate does. -/
theorem candidate_eq_topCandidate_iff_context :
    (⟨120, 0, 100, [3]⟩ : CandidateCosts) = ⟨120, 0, 100, [3]⟩ ↔
      (contextGenerator ⟨.onlyEdge, false⟩).Agrees contextElement [3] :=
  candidate_eq_topCandidate_iff (context_withinInts _) context_afterSearch (context_onPath _)
    (by decide : (contextGenerator ⟨.onlyEdge, false⟩).topCandidate 3 = _)
    (List.cons_ne_nil 3 []) (context_generates false) (by decide) rfl

/-- The first inner segment behind the context: the first candidate counts the context, too. -/
theorem not_candidate_eq_topCandidate :
    ¬ ∀ (G : Generator) (fuel : Nat) (best candidate : CandidateCosts) (element : QueueElement),
      G.WithinInts → AfterSearch G.transition G.lattice G.links →
      Relation.ReflTransGen (fun l r => (G.links l).next = some r) G.lattice.bosNode G.beginNode →
      G.topCandidate fuel = some best → best.nodes ≠ [] → G.Generates element →
      G.makeCandidateFromElement element = some candidate →
      element.map QueueCell.node = G.beginNode :: (best.nodes ++ [G.endNode]) →
      candidate.nodes = best.nodes → candidate = best := by
  intro all
  have same := all (contextGenerator ⟨.onlyEdge, true⟩) 3 ⟨120, 0, 100, [3]⟩ ⟨110, 0, 100, [3]⟩
    contextElement (context_withinInts _) context_afterSearch (context_onPath _)
    (by decide) (List.cons_ne_nil 3 []) (context_generates true) (by decide)
    (by decide) rfl
  exact absurd same (by decide)

end Generator

end NBestGenerator

end Mozkey.Converter
