import Mozkey.Converter.Lattice
import Mozkey.Converter.Segments
import Mozkey.Lib.BestPath

/-!
# The search for the best path

The search goes through the positions of the key, segment by segment.  At every position it
links each node that begins there to the cheapest of the nodes that end there and were
reached, unless the node crosses the end of the segment; a node can be constrained to one
node in front of it.  The costs of transitions into one node are cached.

Costs are integers here.  Transition costs are a function of two ids.
-/

namespace Mozkey.Converter

open Mozkey.Lib

/-! ## Transition costs -/

/-- The size of the cache of `CachingConnector`. -/
def kTransitionCacheSize : Nat := 2048

/-- `CachingConnector`, without the connector. -/
structure CachingConnector where
  cacheLid : UInt16
  cache : Nat → Int

namespace CachingConnector

/-- A cache is made without contents: what it holds at first is whatever the memory held. -/
def make (memory : Nat → Int) : CachingConnector where
  cacheLid := 65535
  cache := memory

/-- `ResetCacheIfNecessary`. -/
def resetCacheIfNecessary (conn : CachingConnector) (rnodeLid : UInt16) : CachingConnector :=
  if conn.cacheLid ≠ rnodeLid then ⟨rnodeLid, fun _ => -1⟩ else conn

/-- `GetTransitionCost`. -/
def getTransitionCost (transition : UInt16 → UInt16 → Int) (conn : CachingConnector)
    (lnodeRid rnodeLid : UInt16) : CachingConnector × Int :=
  if lnodeRid.toNat ≥ kTransitionCacheSize then (conn, transition lnodeRid rnodeLid)
  else if conn.cache lnodeRid.toNat ≠ -1 then (conn, conn.cache lnodeRid.toNat)
  else
    let cost := transition lnodeRid rnodeLid
    ({ conn with cache := Function.update conn.cache lnodeRid.toNat cost }, cost)

end CachingConnector

/-- `INT_MAX >> 2`. -/
def kVeryBigCost : Int := 536870911

section Algorithm

variable (transition : UInt16 → UInt16 → Int) (memory : Nat → Int) (lattice : Lattice)

/-! ## One position -/

/-- The loop over the nodes in front of a node: the first cheapest of those that were
reached. -/
def bestLeft (links : Links) (rnodeLid : UInt16) :
    CachingConnector → List Nat → Int × Option Nat → CachingConnector × (Int × Option Nat)
  | conn, [], best => (conn, best)
  | conn, lnode :: lnodes, best =>
      if (links lnode).prev = none then bestLeft links rnodeLid conn lnodes best
      else
        let (conn, transitionCost) :=
          conn.getTransitionCost transition (lattice.node lnode).rid rnodeLid
        let cost := (links lnode).cost + transitionCost
        bestLeft links rnodeLid conn lnodes (if cost < best.1 then (cost, some lnode) else best)

/-- One turn of the loop of `ViterbiInternal`. -/
def visit (pos rightBoundary : Nat) (state : CachingConnector × Links) (rnode : Nat) :
    CachingConnector × Links :=
  let (conn, links) := state
  let node := lattice.node rnode
  if node.endPos > rightBoundary then
    (conn, links.set rnode { links rnode with prev := none })
  else
    let conn := conn.resetCacheIfNecessary node.lid
    match node.constrainedPrev with
    | some constrainedPrev =>
        if (links constrainedPrev).prev = none then
          (conn, links.set rnode { links rnode with prev := none })
        else
          let (conn, transitionCost) :=
            conn.getTransitionCost transition (lattice.node constrainedPrev).rid node.lid
          (conn, links.set rnode { links rnode with
            prev := some constrainedPrev
            cost := (links constrainedPrev).cost + node.wcost + transitionCost })
    | none =>
        let (conn, best) :=
          bestLeft transition lattice links node.lid conn (lattice.endNodes pos) (kVeryBigCost, none)
        (conn, links.set rnode { links rnode with prev := best.2, cost := best.1 + node.wcost })

/-- `ViterbiInternal`. -/
def viterbiInternal (rightBoundary : Nat) (links : Links) (pos : Nat) : Links :=
  ((lattice.beginNodes pos).foldl (visit transition lattice pos rightBoundary)
    (.make memory, links)).2

/-! ## The whole key -/

/-- The positions from one on and before another. -/
def positions (first last : Nat) : List Nat := List.range' first (last - first)

/-- Processes the node that begins the sentence. -/
def processBos (segments : Segments) (links : Links) : Links :=
  let bosNode := lattice.bosNode
  let rightBoundary := (segments.segment 0).key.length
  (lattice.beginNodes 0).foldl (fun links rnode =>
    if (lattice.node rnode).endPos > rightBoundary then links
    else
      links.set rnode { links rnode with
        prev := some bosNode
        cost := (links bosNode).cost +
          transition (lattice.node bosNode).rid (lattice.node rnode).lid + (lattice.node rnode).wcost })
    links

/-- The first segment, the left boundary of which was processed before. -/
def processFirst (segments : Segments) (links : Links) : Links :=
  let rightBoundary := (segments.segment 0).key.length
  (positions 1 rightBoundary).foldl (viterbiInternal transition memory lattice rightBoundary) links

/-- The loop over the other segments. -/
def processSegments : Nat → List Segment → Links → Links
  | _, [], links => links
  | leftBoundary, segment :: segments, links =>
      let rightBoundary := leftBoundary + segment.key.length
      processSegments rightBoundary segments
        ((positions leftBoundary rightBoundary).foldl
          (viterbiInternal transition memory lattice rightBoundary) links)

/-- The cost of going from a node in front to a node, if it was reached. -/
def leftCost (links : Links) (rnode lnode : Nat) : Option Int :=
  if (links lnode).prev = none then none
  else some ((links lnode).cost + transition (lattice.node lnode).rid (lattice.node rnode).lid)

/-- Processes the node that ends the sentence. -/
def processEos (links : Links) : Links :=
  let eosNode := lattice.eosNode
  let best := selectLeast (leftCost transition lattice links eosNode)
    (lattice.endNodes lattice.key.length) (kVeryBigCost, none)
  links.set eosNode { links eosNode with
    prev := best.2, cost := best.1 + (lattice.node eosNode).wcost }

/-- The traversal from the end to the beginning.  It is given a number of steps, and has no
result when they do not suffice. -/
def traverse : Nat → Links → Nat → Option Nat → Option (Links × Option Nat)
  | 0, _, _, _ => none
  | fuel + 1, links, node, prev =>
      match (links node).prev with
      | none => some (links, prev)
      | some p => traverse fuel (links.set p { links p with next := some node }) p (some p)

/-- The steps that a traversal is given: one for every position, and for either end. -/
def traversalSteps : Nat := lattice.key.length + 3

/-- What `Viterbi` computes before the traversal. -/
def viterbiLinks (segments : Segments) (links : Links) : Links :=
  let links := processBos transition lattice segments links
  let links := processFirst transition memory lattice segments links
  let links := processSegments transition memory lattice (segments.segment 0).key.length
    (segments.segments.drop 1) links
  processEos transition lattice links

/-- `Viterbi`: whether there is a path, and the links. -/
def viterbi (segments : Segments) (links : Links) : Option (Bool × Links) :=
  (traverse (traversalSteps lattice) (viterbiLinks transition memory lattice segments links)
    lattice.eosNode none).map fun result => (result.2 = some lattice.bosNode, result.1)

end Algorithm

/-! ## The cache -/

namespace CachingConnector

variable {transition : UInt16 → UInt16 → Int}

/-- What is cached is the transition cost into the nodes of one left id. -/
def SoundFor (transition : UInt16 → UInt16 → Int) (conn : CachingConnector) (lid : UInt16) : Prop :=
  conn.cacheLid = lid ∧ ∀ rid : UInt16, rid.toNat < kTransitionCacheSize →
    conn.cache rid.toNat ≠ -1 → conn.cache rid.toNat = transition rid lid

/-- A cache is sound, or was never filled. -/
def Sound (transition : UInt16 → UInt16 → Int) (conn : CachingConnector) : Prop :=
  conn.cacheLid = 65535 ∨ ∃ lid, conn.SoundFor transition lid

theorem resetCacheIfNecessary_sound {conn : CachingConnector} (sound : conn.Sound transition)
    {lid : UInt16} (isId : lid ≠ 65535) :
    (conn.resetCacheIfNecessary lid).SoundFor transition lid := by
  rw [resetCacheIfNecessary]
  split
  · exact ⟨rfl, fun rid _ filled => absurd rfl filled⟩
  · next same =>
      rw [not_not] at same
      rcases sound with never | ⟨lid', soundFor⟩
      · exact absurd (same.symm.trans never) isId
      · obtain rfl := soundFor.1.symm.trans same
        exact soundFor

theorem getTransitionCost_sound {conn : CachingConnector} {lid : UInt16}
    (sound : conn.SoundFor transition lid) (rid : UInt16) :
    (conn.getTransitionCost transition rid lid).2 = transition rid lid ∧
      (conn.getTransitionCost transition rid lid).1.SoundFor transition lid := by
  rw [getTransitionCost]
  split
  · exact ⟨rfl, sound⟩
  · next small =>
      split
      · next filled => exact ⟨sound.2 rid (not_le.1 small) filled, sound⟩
      · refine ⟨rfl, sound.1, fun other inside filled => ?_⟩
        by_cases same : other = rid
        · subst same
          exact Function.update_self ..
        · have differs : other.toNat ≠ rid.toNat := fun eq => same (UInt16.toNat_inj.1 eq)
          dsimp only at filled ⊢
          rw [Function.update_of_ne differs] at filled ⊢
          exact sound.2 other inside filled

end CachingConnector

/-! ## One position -/

section Position

variable {transition : UInt16 → UInt16 → Int} {memory : Nat → Int} {lattice : Lattice}

/-- With a sound cache, the loop selects the least cost. -/
theorem bestLeft_eq (links : Links) (rnode : Nat) {conn : CachingConnector}
    (sound : conn.SoundFor transition (lattice.node rnode).lid) (lnodes : List Nat)
    (best : Int × Option Nat) :
    (bestLeft transition lattice links (lattice.node rnode).lid conn lnodes best).2
        = selectLeast (leftCost transition lattice links rnode) lnodes best ∧
      (bestLeft transition lattice links (lattice.node rnode).lid conn lnodes best).1.SoundFor
        transition (lattice.node rnode).lid := by
  induction lnodes generalizing conn best with
  | nil => exact ⟨rfl, sound⟩
  | cons lnode lnodes ih =>
      rw [bestLeft, selectLeast, leftCost]
      split
      · exact ih sound best
      · obtain ⟨cost, soundNext⟩ :=
          CachingConnector.getTransitionCost_sound sound (lattice.node lnode).rid
        rw [← cost]
        exact ih soundNext _

/-- What a node is linked to, and at which cost. -/
def relax (transition : UInt16 → UInt16 → Int) (lattice : Lattice) (links : Links)
    (pos rightBoundary rnode : Nat) : Option (Nat × Int) :=
  let node := lattice.node rnode
  if node.endPos > rightBoundary then none
  else
    match node.constrainedPrev with
    | some constrainedPrev =>
        (leftCost transition lattice links rnode constrainedPrev).map fun cost =>
          (constrainedPrev, cost + node.wcost)
    | none =>
        let best := selectLeast (leftCost transition lattice links rnode) (lattice.endNodes pos)
          (kVeryBigCost, none)
        best.2.map fun lnode => (lnode, best.1 + node.wcost)

section Relax

variable (links : Links) (pos : Nat) {rightBoundary rnode : Nat}

theorem relax_crossing (crosses : (lattice.node rnode).endPos > rightBoundary) :
    relax transition lattice links pos rightBoundary rnode = none := if_pos crosses

theorem relax_constrained (within : (lattice.node rnode).endPos ≤ rightBoundary) {c : Nat}
    (constrained : (lattice.node rnode).constrainedPrev = some c) :
    relax transition lattice links pos rightBoundary rnode
      = (leftCost transition lattice links rnode c).map fun cost =>
          (c, cost + (lattice.node rnode).wcost) := by
  rw [relax]
  dsimp only
  rw [if_neg (not_lt.2 within), constrained]

theorem relax_free (within : (lattice.node rnode).endPos ≤ rightBoundary)
    (free : (lattice.node rnode).constrainedPrev = none) :
    relax transition lattice links pos rightBoundary rnode
      = (selectLeast (leftCost transition lattice links rnode) (lattice.endNodes pos)
          (kVeryBigCost, none)).2.map fun lnode => (lnode,
            (selectLeast (leftCost transition lattice links rnode) (lattice.endNodes pos)
              (kVeryBigCost, none)).1 + (lattice.node rnode).wcost) := by
  rw [relax]
  dsimp only
  rw [if_neg (not_lt.2 within), free]

end Relax

/-- A link to a node at a cost, or to none. -/
def Link.To (link : Link) : Option (Nat × Int) → Prop
  | none => link.prev = none
  | some (lnode, cost) => link.prev = some lnode ∧ link.cost = cost

theorem visit_spec (pos rightBoundary : Nat) {conn : CachingConnector} (links : Links)
    (sound : conn.Sound transition) {rnode : Nat} (isId : (lattice.node rnode).lid ≠ 65535) :
    (visit transition lattice pos rightBoundary (conn, links) rnode).1.Sound transition ∧
      ∃ link : Link, link.To (relax transition lattice links pos rightBoundary rnode) ∧
        link.next = (links rnode).next ∧
        (visit transition lattice pos rightBoundary (conn, links) rnode).2 = links.set rnode link := by
  have soundFor := CachingConnector.resetCacheIfNecessary_sound sound isId
  rw [visit, relax]
  dsimp only
  split
  · refine ⟨sound, _, ?_, ?_, rfl⟩ <;> rfl
  · cases constrained : (lattice.node rnode).constrainedPrev with
    | some c =>
        dsimp only
        rw [leftCost]
        split
        · refine ⟨.inr ⟨_, soundFor⟩, _, ?_, ?_, rfl⟩ <;> rfl
        · obtain ⟨cost, soundNext⟩ :=
            CachingConnector.getTransitionCost_sound soundFor (lattice.node c).rid
          refine ⟨.inr ⟨_, soundNext⟩, _, ?_, ?_, rfl⟩
          · refine ⟨rfl, ?_⟩
            dsimp only
            rw [cost]
            omega
          · rfl
    | none =>
        obtain ⟨same, soundNext⟩ := bestLeft_eq links rnode soundFor (lattice.endNodes pos)
          (kVeryBigCost, none)
        dsimp only
        refine ⟨.inr ⟨_, soundNext⟩, _, ?_, ?_, rfl⟩
        · rw [← same]
          cases isBest : (bestLeft transition lattice links (lattice.node rnode).lid
            (conn.resetCacheIfNecessary (lattice.node rnode).lid) (lattice.endNodes pos)
            (kVeryBigCost, none)).2.2 with
          | none => rfl
          | some lnode => exact ⟨rfl, rfl⟩
        · rfl

/-- What `relax` depends on: the links of the nodes in front. -/
theorem relax_congr {links links' : Links} {pos : Nat} (same : ∀ l ∈ lattice.endNodes pos, links' l = links l)
    {rnode : Nat}
    (constrained : ∀ {c}, (lattice.node rnode).constrainedPrev = some c → c ∈ lattice.endNodes pos)
    (rightBoundary : Nat) :
    relax transition lattice links' pos rightBoundary rnode
      = relax transition lattice links pos rightBoundary rnode := by
  have cost : ∀ l ∈ lattice.endNodes pos, leftCost transition lattice links' rnode l
      = leftCost transition lattice links rnode l := by
    intro l last
    rw [leftCost, leftCost, same l last]
  by_cases crosses : (lattice.node rnode).endPos > rightBoundary
  · rw [relax_crossing links' pos crosses, relax_crossing links pos crosses]
  · have within := not_lt.1 crosses
    cases isConstrained : (lattice.node rnode).constrainedPrev with
    | some c =>
        rw [relax_constrained links' pos within isConstrained, cost c (constrained isConstrained),
          relax_constrained links pos within isConstrained]
    | none =>
        rw [relax_free links' pos within isConstrained, selectLeast_congr cost,
          relax_free links pos within isConstrained]

variable (transition memory) in
/-- **What the search does at a position.** -/
theorem viterbiInternal_spec (wf : lattice.WellFormed) (rightBoundary : Nat) (links : Links)
    (pos : Nat) :
    (∀ r ∈ lattice.beginNodes pos,
      (viterbiInternal transition memory lattice rightBoundary links pos r).To
        (relax transition lattice links pos rightBoundary r)) ∧
    (∀ x, x ∉ lattice.beginNodes pos →
      viterbiInternal transition memory lattice rightBoundary links pos x = links x) ∧
    ∀ x, (viterbiInternal transition memory lattice rightBoundary links pos x).next = (links x).next := by
  -- The nodes in front are not among those that are linked.
  have apart : ∀ l ∈ lattice.endNodes pos, l ∉ lattice.beginNodes pos := by
    intro l last begin
    obtain ⟨_, notBos, position, _⟩ := wf.begins begin
    have before := wf.begin_lt last notBos
    omega
  suffices loop : ∀ (rnodes : List Nat), rnodes ⊆ lattice.beginNodes pos →
      ∀ conn : CachingConnector, conn.Sound transition → ∀ links' : Links,
      (∀ l ∈ lattice.endNodes pos, links' l = links l) →
      let result := (rnodes.foldl (visit transition lattice pos rightBoundary) (conn, links')).2
      (∀ r ∈ rnodes, (result r).To (relax transition lattice links pos rightBoundary r)) ∧
      (∀ x, x ∉ rnodes → result x = links' x) ∧ ∀ x, (result x).next = (links' x).next from
    loop _ (List.Subset.refl _) _ (.inl rfl) links fun _ _ => rfl
  intro rnodes
  induction rnodes with
  | nil => exact fun _ _ _ _ _ => ⟨by simp, fun _ _ => rfl, fun _ => rfl⟩
  | cons rnode rnodes ih =>
      intro subset conn sound links' same
      have begin := subset (List.mem_cons_self ..)
      obtain ⟨_, _, _, isId⟩ := wf.begins begin
      obtain ⟨soundNext, link, isTo, next, isLink⟩ := visit_spec pos
        rightBoundary links' sound isId
      rw [relax_congr same (fun isConstrained => wf.constrained begin isConstrained)] at isTo
      have sameNext : ∀ l ∈ lattice.endNodes pos, links'.set rnode link l = links l := by
        intro l last
        have differs : l ≠ rnode := fun eq => apart l last (eq ▸ begin)
        rw [Links.set_of_ne links' link differs, same l last]
      obtain ⟨relaxed, others, nexts⟩ := ih (fun x member => subset (List.mem_cons_of_mem rnode member))
        _ soundNext _ sameNext
      dsimp only
      rw [List.foldl_cons, show visit transition lattice pos rightBoundary (conn, links') rnode
        = ((visit transition lattice pos rightBoundary (conn, links') rnode).1, links'.set rnode link)
        from Prod.ext rfl isLink]
      refine ⟨fun r member => ?_, fun x absent => ?_, fun x => ?_⟩
      · by_cases later : r ∈ rnodes
        · exact relaxed r later
        · obtain rfl := (List.mem_cons.1 member).resolve_right later
          rw [others r later, Links.set_self]
          exact isTo
      · rw [List.mem_cons, not_or] at absent
        rw [others x absent.2, Links.set_of_ne links' link absent.1]
      · rw [nexts x]
        by_cases eq : x = rnode
        · rw [eq, Links.set_self, next]
        · rw [Links.set_of_ne links' link eq]

end Position

end Mozkey.Converter
