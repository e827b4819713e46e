import Mozkey.Converter.Viterbi

/-!
# What the search settles

Each word of a path begins where the one in front of it ends, does not cross the end of a
segment, and follows the node that it is constrained to.

After the search has gone through the positions in front of some position, the nodes that
begin there are settled: they are linked to a node in front on a cheapest path, or no path
leads to them.
-/

namespace Mozkey.Converter

open Mozkey.Lib

/-! ## Paths of a lattice -/

section Graph

variable (transition : UInt16 → UInt16 → Int) (lattice : Lattice) (segments : Segments)

/-- Where one segment ends and another begins, or either end of the key. -/
def IsBoundary (boundary : Nat) : Prop :=
  ∃ front back, segments.segments = front ++ back ∧ boundary = (front.flatMap Segment.key).length

/-- A node that does not cross the end of a segment. -/
def Inside (r : Nat) : Prop :=
  ∀ boundary, IsBoundary segments boundary →
    ¬((lattice.node r).beginPos < boundary ∧ boundary < (lattice.node r).endPos)

/-- Two nodes that may stand next to each other. -/
structure Admissible (l r : Nat) : Prop where
  adjacent : ∃ pos, l ∈ lattice.endNodes pos ∧ r ∈ lattice.beginNodes pos
  inside : Inside lattice segments r
  constrained : ∀ c, (lattice.node r).constrainedPrev = some c → c = l

/-- The cost of a node behind a node. -/
def weight (l r : Nat) : Int :=
  transition (lattice.node l).rid (lattice.node r).lid + (lattice.node r).wcost

/-- A number that an int of the source holds. -/
def IsInt32 (n : Int) : Prop := -2 ^ 31 ≤ n ∧ n < 2 ^ 31

omit transition lattice segments in
theorem isInt32_of_abs_lt {n : Int} (small : |n| < 2 ^ 31) : IsInt32 n :=
  ⟨(abs_lt.1 small).1.le, (abs_lt.1 small).2⟩

/-- Two nodes the second of which begins where the first one ends. -/
def Neighbours (l r : Nat) : Prop := ∃ pos, l ∈ lattice.endNodes pos ∧ r ∈ lattice.beginNodes pos

/-- A lattice within the numbers of the source.  Positions have 16 bits.  The sums of the costs
along words that follow each other are ints, in whichever order the costs of the last word are
added, and so is the cost of a word that is not linked. -/
structure WithinInts : Prop extends lattice.WellFormed where
  short : lattice.key.length < 2 ^ 16
  unlinked : ∀ x, IsInt32 (kVeryBigCost + (lattice.node x).wcost)
  sums : ∀ front l r, (front ++ [l, r]).IsChain (Neighbours lattice) →
    let cost := CostGraph.chainCost (weight transition lattice) (front ++ [l])
    IsInt32 (cost + transition (lattice.node l).rid (lattice.node r).lid) ∧
      IsInt32 (cost + (lattice.node r).wcost) ∧ IsInt32 (cost + weight transition lattice l r)

/-- The graph of a search.  Beyond the first node, paths are given up that cost too much. -/
def graph : CostGraph Nat where
  start := lattice.bosNode
  weight := weight transition lattice
  guard l r c := r ≠ lattice.bosNode ∧ Admissible lattice segments l r ∧
    (l ≠ lattice.bosNode → (lattice.node r).constrainedPrev = none →
      c + transition (lattice.node l).rid (lattice.node r).lid < kVeryBigCost)
  downward := by
    rintro l r c c' le ⟨notBos, admissible, small⟩
    refine ⟨notBos, admissible, fun notFirst free => ?_⟩
    have := small notFirst free
    omega
  fresh _ _ guard := guard.1 rfl

/-- The least cost of a node, as far as the links tell. -/
def bestCost (links : Links) (x : Nat) : Option Int :=
  if x = lattice.bosNode then some 0
  else if (links x).prev = none then none
  else some (links x).cost

/-- A link that is on a cheapest path to a node. -/
def Cheapest (links : Links) (r : Nat) : Option (Nat × Int) → Prop
  | none => (graph transition lattice segments).Costs r = ∅
  | some (l, cost) => ∃ c, bestCost lattice links l = some c ∧
      (graph transition lattice segments).guard l r c ∧ cost = c + weight transition lattice l r ∧
        IsLeast ((graph transition lattice segments).Costs r) cost

/-- A node whose link is on a cheapest path to it. -/
structure Linked (links : Links) (r l : Nat) (c : Int) : Prop where
  prev : (links r).prev = some l
  bestLeft : bestCost lattice links l = some c
  guard : (graph transition lattice segments).guard l r c
  cost : (links r).cost = c + weight transition lattice l r
  least : IsLeast ((graph transition lattice segments).Costs r) (links r).cost

/-- A node whose link is final. -/
def Settled (links : Links) (r : Nat) : Prop :=
  ((links r).prev = none ∧ (graph transition lattice segments).Costs r = ∅) ∨
    ∃ l c, Linked transition lattice segments links r l c

/-- The search has gone through the positions in front of a position. -/
structure Done (p : Nat) (links : Links) : Prop where
  bos : links lattice.bosNode = {}
  settled : ∀ {pos r}, r ∈ lattice.beginNodes pos → pos < p → Settled transition lattice segments links r
  next : ∀ x, (links x).next = none

end Graph

section Search

variable {transition : UInt16 → UInt16 → Int} {memory : Nat → Int} {lattice : Lattice}
  {segments : Segments} {links : Links}

theorem bestCost_of_ne {x : Nat} (notBos : x ≠ lattice.bosNode) :
    bestCost lattice links x = if (links x).prev = none then none else some (links x).cost :=
  if_neg notBos

theorem known_of_settled {x : Nat} (notBos : x ≠ lattice.bosNode)
    (settled : Settled transition lattice segments links x) :
    (graph transition lattice segments).Known x (bestCost lattice links x) := by
  rw [bestCost_of_ne notBos]
  rcases settled with ⟨none, empty⟩ | ⟨l, c, linked⟩
  · rw [if_pos none]
    exact empty
  · rw [if_neg (by rw [linked.prev]; exact Option.some_ne_none l)]
    exact linked.least

/-- What is in front of a node is known, when the positions in front are done. -/
theorem known_left (wf : lattice.WellFormed) {pos r : Nat} (begin : r ∈ lattice.beginNodes pos)
    (done : Done transition lattice segments pos links) (l : Nat) (c : Int)
    (guard : (graph transition lattice segments).guard l r c) :
    (graph transition lattice segments).Known l (bestCost lattice links l) := by
  obtain ⟨_, ⟨⟨pos', last, begin'⟩, _, _⟩, _⟩ := guard
  obtain rfl : pos' = pos := (wf.begins begin').2.2.1.symm.trans (wf.begins begin).2.2.1
  by_cases isBos : l = lattice.bosNode
  · rw [bestCost, if_pos isBos, isBos]
    exact CostGraph.costs_start (g := graph transition lattice segments)
  · exact known_of_settled isBos (done.settled (wf.listed last isBos) (wf.begin_lt last isBos))

/-- The cost that the loop over the nodes in front sees. -/
theorem leftCost_eq {r l : Nat} (notBos : l ≠ lattice.bosNode) :
    leftCost transition lattice links r l
      = (bestCost lattice links l).map (· + transition (lattice.node l).rid (lattice.node r).lid) := by
  rw [leftCost, bestCost_of_ne notBos]
  split <;> rfl

section Relax

variable (wf : lattice.WellFormed) {pos r : Nat} (begin : r ∈ lattice.beginNodes pos)
  (positive : 0 < pos) (done : Done transition lattice segments pos links)
include wf begin

/-- A node in front of a node ends where the node begins. -/
theorem mem_endNodes_of_guard {l : Nat} {c : Int}
    (guard : (graph transition lattice segments).guard l r c) : l ∈ lattice.endNodes pos := by
  obtain ⟨_, ⟨⟨pos', last, begin'⟩, _, _⟩, _⟩ := guard
  obtain rfl : pos' = pos := (wf.begins begin').2.2.1.symm.trans (wf.begins begin).2.2.1
  exact last

include positive done

/-- The only node in front of a constrained node. -/
theorem cheapest_constrained {c : Nat} (constrained : (lattice.node r).constrainedPrev = some c)
    (inside : Inside lattice segments r) :
    Cheapest transition lattice segments links r
      ((leftCost transition lattice links r c).map fun cost => (c, cost + (lattice.node r).wcost)) := by
  have notBos := (wf.begins begin).2.1
  have known := known_left wf begin done
  have last := wf.constrained begin constrained
  have only : ∀ {l cost}, (graph transition lattice segments).guard l r cost → l = c :=
    fun guard => (guard.2.1.constrained _ constrained).symm
  rw [leftCost_eq (wf.ne_bos positive last)]
  cases bestLeft : bestCost lattice links c with
  | none =>
      refine CostGraph.costs_eq_empty notBos known fun l cost isBest guard => ?_
      rw [only guard, bestLeft] at isBest
      cases isBest
  | some cost =>
      have guard : (graph transition lattice segments).guard c r cost := by
        refine ⟨notBos, ⟨⟨pos, last, begin⟩, inside, fun c' isC => ?_⟩, fun _ free => ?_⟩
        · exact Option.some.inj (isC.symm.trans constrained)
        · cases free.symm.trans constrained
      have total : cost + transition (lattice.node c).rid (lattice.node r).lid + (lattice.node r).wcost
          = cost + weight transition lattice c r := Int.add_assoc ..
      refine ⟨cost, bestLeft, guard, total, ?_⟩
      rw [total]
      refine CostGraph.isLeast_of_left notBos known bestLeft guard fun l' cost' isBest guard' => ?_
      obtain rfl := only guard'
      rw [Option.some.inj (isBest.symm.trans bestLeft)]

/-- The cheapest of the nodes in front of a node that is not constrained. -/
theorem cheapest_free (free : (lattice.node r).constrainedPrev = none)
    (inside : Inside lattice segments r) {best : Int × Option Nat}
    (selected : Selected (leftCost transition lattice links r) (lattice.endNodes pos)
      (kVeryBigCost, none) best) :
    Cheapest transition lattice segments links r
      (best.2.map fun lnode => (lnode, best.1 + (lattice.node r).wcost)) := by
  have notBos := (wf.begins begin).2.1
  have known := known_left wf begin done
  have lower : ∀ l c, bestCost lattice links l = some c →
      (graph transition lattice segments).guard l r c →
      best.1 ≤ c + transition (lattice.node l).rid (lattice.node r).lid := by
    intro l c isBest guard
    have last := mem_endNodes_of_guard wf begin guard
    refine selected.least l last _ ?_
    rw [leftCost_eq (wf.ne_bos positive last), isBest, Option.map_some]
  rcases selected.found with start | ⟨l, last, isCost, chosen, small⟩
  · subst start
    refine CostGraph.costs_eq_empty notBos known fun l c isBest guard => ?_
    have last := mem_endNodes_of_guard wf begin guard
    have bound := lower l c isBest guard
    have limit := guard.2.2 (wf.ne_bos positive last) free
    omega
  · rw [leftCost_eq (wf.ne_bos positive last), Option.map_eq_some_iff] at isCost
    obtain ⟨c, bestLeft, isCost⟩ := isCost
    have guard : (graph transition lattice segments).guard l r c := by
      refine ⟨notBos, ⟨⟨pos, last, begin⟩, inside, fun c' isC => ?_⟩, fun _ _ => ?_⟩
      · cases free.symm.trans isC
      · rw [isCost]
        exact small
    have total : best.1 + (lattice.node r).wcost = c + weight transition lattice l r := by
      rw [← isCost, weight, Int.add_assoc]
    rw [chosen]
    refine ⟨c, bestLeft, guard, total, ?_⟩
    rw [total]
    refine CostGraph.isLeast_of_left notBos known bestLeft guard fun l' c' isBest guard' => ?_
    have bound := lower l' c' isBest guard'
    show c + weight transition lattice l r ≤ c' + weight transition lattice l' r
    rw [← total, weight]
    omega

/-- **What a node is linked to is on a cheapest path to it.** -/
theorem relax_cheapest {rightBoundary : Nat}
    (right : Inside lattice segments r ↔ (lattice.node r).endPos ≤ rightBoundary) :
    Cheapest transition lattice segments links r
      (relax transition lattice links pos rightBoundary r) := by
  by_cases crosses : (lattice.node r).endPos > rightBoundary
  · rw [relax_crossing links pos crosses]
    refine CostGraph.costs_eq_empty (wf.begins begin).2.1 (known_left wf begin done) fun l c _ guard => ?_
    have inside := right.1 guard.2.1.inside
    omega
  · have within := not_lt.1 crosses
    cases isConstrained : (lattice.node r).constrainedPrev with
    | some c =>
        rw [relax_constrained links pos within isConstrained]
        exact cheapest_constrained wf begin positive done isConstrained (right.2 within)
    | none =>
        rw [relax_free links pos within isConstrained]
        exact cheapest_free wf begin positive done isConstrained (right.2 within)
          (selectLeast_selected _ _ _)

end Relax

/-! ## All positions -/

/-- The end of the segment that a node begins in. -/
theorem inside_iff (wf : lattice.WellFormed) {front back : List Segment} {segment : Segment}
    (split : segments.segments = front ++ segment :: back) {pos r : Nat}
    (begin : r ∈ lattice.beginNodes pos) (left : (front.flatMap Segment.key).length ≤ pos)
    (right : pos < (front.flatMap Segment.key).length + segment.key.length) :
    Inside lattice segments r ↔
      (lattice.node r).endPos ≤ (front.flatMap Segment.key).length + segment.key.length := by
  have position := (wf.begins begin).2.2.1
  constructor
  · intro inside
    have boundary : IsBoundary segments ((front.flatMap Segment.key).length + segment.key.length) :=
      ⟨front ++ [segment], back, by rw [split, List.append_assoc]; rfl, by simp⟩
    have := inside _ boundary
    omega
  · rintro within boundary ⟨front', back', split', rfl⟩
    rw [split, List.append_eq_append_iff] at split'
    rcases split' with ⟨t, rfl, rest⟩ | ⟨t, rfl, _⟩
    · cases t with
      | nil =>
          rw [List.append_nil]
          omega
      | cons first t =>
          obtain rfl : segment = first := (List.cons.inj rest).1
          rw [List.flatMap_append, List.flatMap_cons, List.length_append, List.length_append]
          omega
    · rw [List.flatMap_append, List.length_append] at left
      omega

theorem Settled.congr {links' : Links} (wf : lattice.WellFormed) {pos r : Nat}
    (begin : r ∈ lattice.beginNodes pos) (settled : Settled transition lattice segments links r)
    (same : links' r = links r) (sameLeft : ∀ l ∈ lattice.endNodes pos, links' l = links l) :
    Settled transition lattice segments links' r := by
  rcases settled with ⟨none, empty⟩ | ⟨l, c, linked⟩
  · exact .inl ⟨by rw [same, none], empty⟩
  · refine .inr ⟨l, c, ?_, ?_, linked.guard, ?_, ?_⟩
    · rw [same, linked.prev]
    · have best := linked.bestLeft
      rw [bestCost] at best ⊢
      rwa [sameLeft l (mem_endNodes_of_guard wf begin linked.guard)]
    · rw [same, linked.cost]
    · rw [same]
      exact linked.least

/-- A node is settled when it is linked to a node on a cheapest path. -/
theorem settled_of_cheapest {links' : Links} (wf : lattice.WellFormed) {pos r : Nat}
    (begin : r ∈ lattice.beginNodes pos) {result : Option (Nat × Int)}
    (cheapest : Cheapest transition lattice segments links r result) (isTo : (links' r).To result)
    (sameLeft : ∀ l ∈ lattice.endNodes pos, links' l = links l) :
    Settled transition lattice segments links' r := by
  cases result with
  | none => exact .inl ⟨isTo, cheapest⟩
  | some found =>
      obtain ⟨l, cost⟩ := found
      obtain ⟨c, bestLeft, guard, total, least⟩ := cheapest
      obtain ⟨prev, isCost⟩ := isTo
      refine .inr ⟨l, c, prev, ?_, guard, isCost.trans total, ?_⟩
      · rw [bestCost] at bestLeft ⊢
        rwa [sameLeft l (mem_endNodes_of_guard wf begin guard)]
      · rw [isCost]
        exact least

section Steps

variable (wf : lattice.WellFormed)
include wf

/-- A position is done when its nodes are settled and the others are left as they are. -/
theorem Done.next_pos {links' : Links} {pos : Nat}
    (done : Done transition lattice segments pos links)
    (settled : ∀ r ∈ lattice.beginNodes pos, Settled transition lattice segments links' r)
    (same : ∀ x, x ∉ lattice.beginNodes pos → links' x = links x)
    (nexts : ∀ x, (links' x).next = (links x).next) :
    Done transition lattice segments (pos + 1) links' := by
  refine ⟨?_, fun {p r} begin before => ?_, fun x => by rw [nexts, done.next]⟩
  · rw [same _ fun begin => (wf.begins begin).2.1 rfl, done.bos]
  · rcases Nat.lt_succ_iff_lt_or_eq.1 before with earlier | rfl
    · refine (done.settled begin earlier).congr wf begin (same r fun here => ?_) fun l last =>
        same l fun here => ?_
      · have := (wf.begins begin).2.2.1.symm.trans (wf.begins here).2.2.1
        omega
      · have position := (wf.begins here).2.2.1
        have lower := wf.begin_lt last (wf.begins here).2.1
        omega
    · exact settled r begin

/-- **One position of the search.** -/
theorem done_viterbiInternal {pos : Nat} (positive : 0 < pos)
    (done : Done transition lattice segments pos links) {rightBoundary : Nat}
    (right : ∀ r ∈ lattice.beginNodes pos,
      (Inside lattice segments r ↔ (lattice.node r).endPos ≤ rightBoundary)) :
    Done transition lattice segments (pos + 1)
      (viterbiInternal transition memory lattice rightBoundary links pos) := by
  obtain ⟨relaxed, same, nexts⟩ :=
    viterbiInternal_spec transition memory wf rightBoundary links pos
  refine done.next_pos wf (fun r begin => ?_) same nexts
  refine settled_of_cheapest wf begin (relax_cheapest wf begin positive done (right r begin))
    (relaxed r begin) fun l last => same l fun here => ?_
  have position := (wf.begins here).2.2.1
  have lower := wf.begin_lt last (wf.begins here).2.1
  omega

/-- The positions of a segment. -/
theorem done_positions {front back : List Segment} {segment : Segment}
    (split : segments.segments = front ++ segment :: back) {first last : Nat} (positive : 0 < first)
    (left : (front.flatMap Segment.key).length ≤ first) (le : first ≤ last)
    (isLast : last = (front.flatMap Segment.key).length + segment.key.length)
    (done : Done transition lattice segments first links) :
    Done transition lattice segments last
      ((positions first last).foldl (viterbiInternal transition memory lattice last) links) := by
  obtain ⟨n, rfl⟩ := Nat.exists_eq_add_of_le le
  rw [positions, Nat.add_sub_cancel_left]
  suffices steps : ∀ k ≤ n, Done transition lattice segments (first + k)
      ((List.range' first k).foldl (viterbiInternal transition memory lattice (first + n)) links) from
    steps n le_rfl
  intro k less
  induction k with
  | zero => exact done
  | succ k ih =>
      rw [List.range'_concat, List.foldl_append, Nat.one_mul]
      refine done_viterbiInternal wf (by omega) (ih (by omega)) fun r begin => ?_
      rw [isLast]
      exact inside_iff wf split begin (by omega) (by omega)

variable (memory) in
/-- The loop over the segments behind the first one. -/
theorem done_processSegments {front back : List Segment} (split : segments.segments = front ++ back)
    (positive : 0 < (front.flatMap Segment.key).length)
    (done : Done transition lattice segments (front.flatMap Segment.key).length links) :
    Done transition lattice segments (segments.segments.flatMap Segment.key).length
      (processSegments transition memory lattice (front.flatMap Segment.key).length back links) := by
  induction back generalizing front links with
  | nil =>
      rw [split, List.append_nil]
      exact done
  | cons segment back ih =>
      have length : ((front ++ [segment]).flatMap Segment.key).length
          = (front.flatMap Segment.key).length + segment.key.length := by simp
      rw [processSegments, ← length]
      refine ih (by rw [split, List.append_assoc]; rfl) (by omega) ?_
      rw [length]
      exact done_positions wf split positive le_rfl (by omega) rfl done

end Steps

/-! ## Both ends of the sentence -/

variable (transition segments) in
theorem processBos_spec (wf : lattice.WellFormed) (links : Links) :
    (∀ r ∈ lattice.beginNodes 0,
      (lattice.node r).endPos ≤ (segments.segment 0).key.length →
      (processBos transition lattice segments links r).To
        (some (lattice.bosNode, (links lattice.bosNode).cost + weight transition lattice lattice.bosNode r))) ∧
    (∀ x, (x ∈ lattice.beginNodes 0 → (segments.segment 0).key.length < (lattice.node x).endPos) →
      processBos transition lattice segments links x = links x) ∧
    ∀ x, (processBos transition lattice segments links x).next = (links x).next := by
  rw [processBos]
  suffices loop : ∀ rnodes : List Nat, rnodes ⊆ lattice.beginNodes 0 → ∀ links' : Links,
      links' lattice.bosNode = links lattice.bosNode →
      let result := rnodes.foldl (fun links rnode =>
        if (lattice.node rnode).endPos > (segments.segment 0).key.length then links
        else
          links.set rnode { links rnode with
            prev := some lattice.bosNode
            cost := (links lattice.bosNode).cost +
              transition (lattice.node lattice.bosNode).rid (lattice.node rnode).lid +
                (lattice.node rnode).wcost }) links'
      (∀ r ∈ rnodes, (lattice.node r).endPos ≤ (segments.segment 0).key.length →
        (result r).To (some (lattice.bosNode,
          (links lattice.bosNode).cost + weight transition lattice lattice.bosNode r))) ∧
      (∀ x, (x ∈ rnodes → (segments.segment 0).key.length < (lattice.node x).endPos) →
        result x = links' x) ∧ ∀ x, (result x).next = (links' x).next from
    loop _ (List.Subset.refl _) links rfl
  intro rnodes
  induction rnodes with
  | nil => exact fun _ _ _ => ⟨by simp, fun _ _ => rfl, fun _ => rfl⟩
  | cons rnode rnodes ih =>
      intro subset links' sameBos
      have subset' : rnodes ⊆ lattice.beginNodes 0 := fun x member =>
        subset (List.mem_cons_of_mem rnode member)
      dsimp only
      rw [List.foldl_cons]
      by_cases crosses : (lattice.node rnode).endPos > (segments.segment 0).key.length
      · rw [if_pos crosses]
        obtain ⟨linked, others, nexts⟩ := ih subset' links' sameBos
        refine ⟨fun r member within => ?_, fun x outside => ?_, nexts⟩
        · rcases List.mem_cons.1 member with rfl | later
          · omega
          · exact linked r later within
        · exact others x fun later => outside (List.mem_cons_of_mem rnode later)
      · rw [if_neg crosses]
        have notBos := (wf.begins (subset (List.mem_cons_self ..))).2.1
        obtain ⟨linked, others, nexts⟩ := ih subset' _
          ((Links.set_of_ne links' _ (Ne.symm notBos)).trans sameBos)
        refine ⟨fun r member within => ?_, fun x outside => ?_, fun x => ?_⟩
        · by_cases later : r ∈ rnodes
          · exact linked r later within
          · obtain rfl := (List.mem_cons.1 member).resolve_right later
            rw [others r fun here => absurd here later, Links.set_self, sameBos]
            exact ⟨rfl, Int.add_assoc ..⟩
        · have differs : x ≠ rnode := by
            rintro rfl
            exact crosses (outside (List.mem_cons_self ..))
          rw [others x fun later => outside (List.mem_cons_of_mem rnode later),
            Links.set_of_ne links' _ differs]
        · rw [nexts x]
          by_cases eq : x = rnode
          · rw [eq, Links.set_self]
          · rw [Links.set_of_ne links' _ eq]

section Ends

variable (wf : lattice.WellFormed)
include wf

/-- The first position. -/
theorem done_processBos {first : Segment} {back : List Segment}
    (split : segments.segments = first :: back) (nonempty : 0 < first.key.length) :
    Done transition lattice segments 1 (processBos transition lattice segments freshLinks) := by
  obtain ⟨linked, others, nexts⟩ :=
    processBos_spec transition segments wf freshLinks
  have isFirst : segments.segment 0 = first := by
    rw [Segments.segment, split]
    rfl
  have sameBos : processBos transition lattice segments freshLinks lattice.bosNode = {} :=
    others _ fun begin => absurd rfl (wf.begins begin).2.1
  have before : Done transition lattice segments 0 freshLinks := ⟨rfl, by omega, fun _ => rfl⟩
  have onlyBos : ∀ {r l c}, r ∈ lattice.beginNodes 0 →
      (graph transition lattice segments).guard l r c → l = lattice.bosNode :=
    fun begin guard => wf.eq_bos_of_mem (mem_endNodes_of_guard wf begin guard)
  refine ⟨sameBos, fun {pos r} begin zero => ?_, nexts⟩
  obtain rfl : pos = 0 := by omega
  have right : Inside lattice segments r ↔ (lattice.node r).endPos ≤ first.key.length := by
    have inside := inside_iff wf (show segments.segments = [] ++ first :: back from split) begin (Nat.zero_le _)
      (by rw [List.flatMap_nil, List.length_nil]; omega)
    rwa [List.flatMap_nil, List.length_nil, Nat.zero_add] at inside
  have notBos := (wf.begins begin).2.1
  by_cases within : (lattice.node r).endPos ≤ first.key.length
  · have bestBos : bestCost lattice freshLinks lattice.bosNode = some 0 := if_pos rfl
    have guard : (graph transition lattice segments).guard lattice.bosNode r 0 := by
      refine ⟨notBos, ⟨⟨0, wf.bos_mem, begin⟩, right.2 within, fun c constrained => ?_⟩, fun isBos => ?_⟩
      · exact wf.eq_bos_of_mem (wf.constrained begin constrained)
      · exact absurd rfl isBos
    have least : IsLeast ((graph transition lattice segments).Costs r)
        (0 + weight transition lattice lattice.bosNode r) := by
      refine CostGraph.isLeast_of_left notBos (known_left wf begin before) bestBos guard
        fun l c isBest guard' => ?_
      obtain rfl := onlyBos begin guard'
      rw [Option.some.inj (isBest.symm.trans bestBos)]
    have cheapest : Cheapest transition lattice segments freshLinks r
        (some (lattice.bosNode, 0 + weight transition lattice lattice.bosNode r)) :=
      ⟨0, bestBos, guard, rfl, least⟩
    refine settled_of_cheapest wf begin cheapest (linked r begin (by rwa [isFirst])) fun l last => ?_
    rw [wf.eq_bos_of_mem last]
    exact sameBos
  · refine .inl ⟨?_, CostGraph.costs_eq_empty notBos (known_left wf begin before) fun l c _ guard => ?_⟩
    · rw [others r fun _ => by rw [isFirst]; omega]
      rfl
    · exact within (right.1 guard.2.1.inside)

/-- The last position. -/
theorem done_processEos (positive : 0 < lattice.key.length)
    (done : Done transition lattice segments lattice.key.length links) :
    Done transition lattice segments (lattice.key.length + 1) (processEos transition lattice links) := by
  have begin := wf.eos_mem
  have inside : Inside lattice segments lattice.eosNode := by
    rintro boundary _ ⟨lower, upper⟩
    rw [(wf.begins begin).2.2.1] at lower
    rw [wf.eosEnd] at upper
    omega
  have within : (lattice.node lattice.eosNode).endPos ≤ lattice.key.length := wf.eosEnd.le
  have apart : ∀ l ∈ lattice.endNodes lattice.key.length, l ≠ lattice.eosNode :=
    fun l last => (wf.ends last).2.1
  rw [processEos]
  refine done.next_pos wf (fun r isEos => ?_) (fun x absent => ?_) fun x => ?_
  · rw [wf.eos, List.mem_singleton] at isEos
    subst isEos
    refine settled_of_cheapest wf begin
      (relax_cheapest wf begin positive done ⟨fun _ => within, fun _ => inside⟩) ?_
      fun l last => Links.set_of_ne links _ (apart l last)
    rw [relax_free links _ within wf.eosFree, Links.set_self]
    cases isBest : (selectLeast (leftCost transition lattice links lattice.eosNode)
      (lattice.endNodes lattice.key.length) (kVeryBigCost, none)).2 with
    | none => rfl
    | some l => exact ⟨rfl, rfl⟩
  · rw [wf.eos, List.mem_singleton] at absent
    exact Links.set_of_ne links _ absent
  · by_cases eq : x = lattice.eosNode
    · rw [eq, Links.set_self]
    · rw [Links.set_of_ne links _ eq]

variable (transition memory) in
/-- **Everything is settled when the search ends.** -/
theorem done_viterbiLinks {first : Segment} {back : List Segment}
    (split : segments.segments = first :: back) (nonempty : 0 < first.key.length)
    (partition : segments.segments.flatMap Segment.key = lattice.key) :
    Done transition lattice segments (lattice.key.length + 1)
      (viterbiLinks transition memory lattice segments freshLinks) := by
  have isFirst : segments.segment 0 = first := by
    rw [Segments.segment, split]
    rfl
  have firstLength : (([first] : List Segment).flatMap Segment.key).length = first.key.length := by simp
  have positive : 0 < lattice.key.length := by
    rw [← partition, split, List.flatMap_cons, List.length_append]
    omega
  have bos : Done transition lattice segments 1 _ := done_processBos wf split nonempty
  have firstDone : Done transition lattice segments first.key.length
      ((positions 1 first.key.length).foldl (viterbiInternal transition memory lattice first.key.length)
        (processBos transition lattice segments freshLinks)) :=
    done_positions wf (show segments.segments = [] ++ first :: back from split) Nat.zero_lt_one
      (Nat.zero_le _) nonempty (by simp) bos
  rw [← firstLength] at firstDone nonempty
  have others := done_processSegments memory wf
    (show segments.segments = [first] ++ back from split) nonempty firstDone
  rw [partition, firstLength] at others
  have eos := done_processEos wf positive others
  rw [viterbiLinks, processFirst, isFirst, split]
  exact eos

end Ends

end Search

end Mozkey.Converter
