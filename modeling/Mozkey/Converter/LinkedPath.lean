import Mozkey.Converter.PredictionViterbi

/-!
# The path that a search leaves

Both searches leave links along one path from the beginning of the sentence to its end, in both
directions.  Along it every node costs what the node in front of it costs, the transition between
the two, and its own word.  Whether the path is a cheapest one does not matter for that.
-/

namespace Mozkey.Converter

open Mozkey.Lib

/-! ## Links -/

section Links

variable (transition : UInt16 → UInt16 → Int) (lattice : Lattice)

/-- Links to nodes in front, with the costs that come from them. -/
structure Linking (links : Links) : Prop where
  bos : (links lattice.bosNode).prev = none
  next : ∀ x, (links x).next = none
  last : ∀ {pos r l}, r ∈ lattice.beginNodes pos → (links r).prev = some l →
    l ∈ lattice.endNodes pos
  constrained : ∀ {pos r l}, r ∈ lattice.beginNodes pos → (links r).prev = some l →
    ∀ c, (lattice.node r).constrainedPrev = some c → c = l
  cost : ∀ {pos r l}, r ∈ lattice.beginNodes pos → (links r).prev = some l →
    (links r).cost = (links l).cost + weight transition lattice l r

/-- One step of the path that a search leaves. -/
structure LinkedStep (links : Links) (l r : Nat) : Prop where
  adjacent : ∃ pos, l ∈ lattice.endNodes pos ∧ r ∈ lattice.beginNodes pos
  next : (links l).next = some r
  prev : (links r).prev = some l
  constrained : ∀ c, (lattice.node r).constrainedPrev = some c → c = l
  cost : (links r).cost = (links l).cost + weight transition lattice l r

/-- The path that a search leaves. -/
structure LinkedPath (links : Links) (path : List Nat) : Prop where
  head : path.head? = some lattice.bosNode
  last : path.getLast? = some lattice.eosNode
  steps : path.IsChain (LinkedStep transition lattice links)
  stop : (links lattice.eosNode).next = none

end Links

section Paths

variable {transition : UInt16 → UInt16 → Int} {memory : Nat → Int} {lattice : Lattice}
  {segments : Segments} {links : Links} (wf : lattice.WellFormed)
include wf

/-- Going back along links ends at a node without one. -/
theorem Linking.exists_front (linking : Linking transition lattice links) {pos r : Nat}
    (begin : r ∈ lattice.beginNodes pos) :
    ∃ front, Backwards links (front ++ [r]) ∧
      (∀ y, (front ++ [r]).head? = some y → (links y).prev = none) ∧
      (front ++ [r]).IsChain
        (fun l r => ∃ pos, l ∈ lattice.endNodes pos ∧ r ∈ lattice.beginNodes pos) := by
  induction pos using Nat.strong_induction_on generalizing r with
  | _ pos ih =>
      cases isPrev : (links r).prev with
      | none =>
          refine ⟨[], .singleton r, fun y isFirst => ?_, .singleton r⟩
          rw [← Option.some.inj isFirst, isPrev]
      | some l =>
          have last := linking.last begin isPrev
          by_cases isBos : l = lattice.bosNode
          · refine ⟨[l], .cons_cons isPrev (.singleton r), fun y isFirst => ?_,
              .cons_cons ⟨pos, last, begin⟩ (.singleton r)⟩
            rw [← Option.some.inj isFirst, isBos, linking.bos]
          · obtain ⟨front, backwards, first, adjacent⟩ :=
              ih _ (wf.begin_lt last isBos) (wf.listed last isBos)
            refine ⟨front ++ [l], ?_, fun y isFirst => first y ?_, ?_⟩
            · rw [List.append_assoc]
              exact isChain_concat.2 ⟨backwards, isPrev⟩
            · rw [← isFirst]
              cases front <;> rfl
            · rw [List.append_assoc]
              exact isChain_concat.2 ⟨adjacent, pos, last, begin⟩

/-- **A traversal that comes to the beginning of the sentence leaves a path.** -/
theorem Linking.exists_path (linking : Linking transition lattice links) {links' : Links}
    (traversed : traverse (traversalSteps lattice) links lattice.eosNode none =
      some (links', some lattice.bosNode)) :
    ∃ path, LinkedPath transition lattice links' path := by
  obtain ⟨front, backwards, first, adjacent⟩ := linking.exists_front wf wf.eos_mem
  have increases : ∀ l r, (∃ pos, l ∈ lattice.endNodes pos ∧ r ∈ lattice.beginNodes pos) →
      nodeRank lattice l < nodeRank lattice r := by
    rintro l r ⟨pos, last, begin⟩
    exact nodeRank_lt wf last begin
  obtain ⟨nodup, length, _⟩ := CostGraph.isChain_increasing increases adjacent
  rw [nodeRank, if_neg wf.eos_ne_bos, (wf.begins wf.eos_mem).2.2.1] at length
  obtain ⟨links'', traversed', kept, nexts, forwards⟩ := traverse_path nodup backwards first
    (show _ ≤ traversalSteps lattice by rw [traversalSteps]; omega) none
  obtain ⟨rfl, head⟩ := Prod.mk.inj (Option.some.inj (traversed.symm.trans traversed'))
  split_ifs at head with isEmpty
  refine ⟨front ++ [lattice.eosNode], ?_, List.getLast?_concat, ?_, ?_⟩
  · rw [List.head?_append, ← head]
    rfl
  · refine List.isChain_iff_forall_rel_of_append_cons_cons.2 fun l r before after split => ?_
    have isPrev := List.isChain_iff_forall_rel_of_append_cons_cons.1 backwards split
    have isNext := List.isChain_iff_forall_rel_of_append_cons_cons.1 forwards split
    obtain ⟨pos, last, begin⟩ := List.isChain_iff_forall_rel_of_append_cons_cons.1 adjacent split
    refine ⟨⟨pos, last, begin⟩, isNext, (kept r).1.trans isPrev,
      linking.constrained begin isPrev, ?_⟩
    rw [(kept r).2, (kept l).2]
    exact linking.cost begin isPrev
  · rw [nexts _ fun member => (List.nodup_append.1 nodup).2.2 _ member _
      (List.mem_singleton_self _) rfl, linking.next]

/-! ## The two searches -/

omit wf in
theorem Done.cost_left (done : Done transition lattice segments (lattice.key.length + 1) links)
    {l : Nat} {c : Int} (best : bestCost lattice links l = some c) : c = (links l).cost := by
  rw [bestCost] at best
  split_ifs at best with isBos
  · rw [isBos, done.bos]
    exact (Option.some.inj best).symm
  · exact (Option.some.inj best).symm

/-- The search links nodes. -/
theorem Done.linking (done : Done transition lattice segments (lattice.key.length + 1) links) :
    Linking transition lattice links := by
  have linked {pos r l : Nat} (begin : r ∈ lattice.beginNodes pos)
      (isPrev : (links r).prev = some l) : ∃ c, Linked transition lattice segments links r l c := by
    rcases done.settled begin (Nat.lt_succ_of_le (wf.begin_le begin)) with
      ⟨unlinked, _⟩ | ⟨l', c, settled⟩
    · rw [unlinked] at isPrev
      cases isPrev
    · obtain rfl := Option.some.inj (isPrev.symm.trans settled.prev)
      exact ⟨c, settled⟩
  constructor
  · rw [done.bos]
  · exact done.next
  · intro pos r l begin isPrev
    obtain ⟨c, settled⟩ := linked begin isPrev
    exact mem_endNodes_of_guard wf begin settled.guard
  · intro pos r l begin isPrev
    obtain ⟨c, settled⟩ := linked begin isPrev
    exact settled.guard.2.1.constrained
  · intro pos r l begin isPrev
    obtain ⟨c, settled⟩ := linked begin isPrev
    rw [settled.cost, done.cost_left settled.bestLeft]

/-- The search for predictions links nodes, too, if none of them is constrained. -/
theorem Searched.linking {visited : Nat → Prop}
    (searched : Searched transition lattice visited links)
    (free : ∀ x, (lattice.node x).constrainedPrev = none) : Linking transition lattice links := by
  have linked {pos r l : Nat} (begin : r ∈ lattice.beginNodes pos)
      (isPrev : (links r).prev = some l) : l ∈ lattice.endNodes pos ∧
        (links r).cost = (links l).cost + weight transition lattice l r := by
    by_cases isVisited : visited r
    · obtain ⟨best, selected, isLink⟩ := searched.predicted begin isVisited
      rw [isLink] at isPrev ⊢
      rcases selected.found with rfl | ⟨x, last, isCost, chosen, _⟩
      · cases isPrev
      · obtain ⟨cost, lnode⟩ := best
        obtain rfl : lnode = some x := chosen
        obtain rfl := Option.some.inj isPrev
        refine ⟨last, ?_⟩
        have total : cost = (links x).cost +
            transition (lattice.node x).rid (lattice.node r).lid := (Option.some.inj isCost).symm
        show cost + (lattice.node r).wcost = _
        rw [total, weight, Int.add_assoc]
    · rw [searched.others r fun pos' begin' => isVisited] at isPrev
      cases isPrev
  constructor
  · rw [searched.others _ fun pos begin => absurd rfl (wf.begins begin).2.1]
  · intro x
    by_cases isVisited : ∃ pos, x ∈ lattice.beginNodes pos ∧ visited x
    · obtain ⟨pos, begin, isVisited⟩ := isVisited
      obtain ⟨⟨cost, lnode⟩, -, isLink⟩ := searched.predicted begin isVisited
      rw [isLink]
      cases lnode <;> rfl
    · rw [searched.others x fun pos begin seen => isVisited ⟨pos, begin, seen⟩]
  · exact fun begin isPrev => (linked begin isPrev).1
  · intro pos r l begin isPrev c isC
    rw [free r] at isC
    cases isC
  · exact fun begin isPrev => (linked begin isPrev).2

omit wf in
/-- The nodes that the links lead to from the beginning of the sentence are on the path. -/
theorem LinkedPath.exists_split {path : List Nat}
    (isPath : LinkedPath transition lattice links path) {x : Nat}
    (reached : Relation.ReflTransGen (fun l r => (links l).next = some r) lattice.bosNode x) :
    ∃ front back, path = front ++ x :: back := by
  induction reached with
  | refl =>
      obtain ⟨back, rfl⟩ := List.head?_eq_some_iff.1 isPath.head
      exact ⟨[], back, rfl⟩
  | @tail y z _ isNext ih =>
      obtain ⟨front, back, rfl⟩ := ih
      cases back with
      | nil =>
          have isEos := isPath.last
          rw [List.getLast?_concat] at isEos
          rw [Option.some.inj isEos, isPath.stop] at isNext
          cases isNext
      | cons z' back =>
          have step := List.isChain_iff_forall_rel_of_append_cons_cons.1 isPath.steps rfl
          obtain rfl := Option.some.inj (isNext.symm.trans step.next)
          exact ⟨front ++ [y], back, by rw [List.append_assoc]; rfl⟩

theorem viterbi_linkedPath {first : Segment} {back : List Segment}
    (split : segments.segments = first :: back) (nonempty : first.key ≠ [])
    (partition : segments.segments.flatMap Segment.key = lattice.key)
    (result : viterbi transition memory lattice segments freshLinks = some (true, links)) :
    ∃ path, LinkedPath transition lattice links path := by
  have done :=
    done_viterbiLinks transition memory wf split (List.length_pos_iff.2 nonempty) partition
  rw [viterbi, Option.map_eq_some_iff] at result
  obtain ⟨⟨links', prev⟩, traversed, same⟩ := result
  obtain ⟨isBos, rfl⟩ := Prod.mk.inj same
  obtain rfl := of_decide_eq_true isBos
  exact (done.linking wf).exists_path wf traversed

theorem predictionViterbi_linkedPath
    (partition : segments.segments.flatMap Segment.key = lattice.key)
    (free : ∀ x, (lattice.node x).constrainedPrev = none)
    (result : predictionViterbi transition lattice segments freshLinks = some (true, links)) :
    ∃ path, LinkedPath transition lattice links path := by
  have searched : Searched transition lattice _ _ := searched_predictionLinks wf partition
  rw [predictionViterbi, Option.map_eq_some_iff] at result
  obtain ⟨⟨links', prev⟩, traversed, same⟩ := result
  obtain ⟨isBos, rfl⟩ := Prod.mk.inj same
  obtain rfl := of_decide_eq_true isBos
  exact (searched.linking wf free).exists_path wf traversed

end Paths

end Mozkey.Converter
