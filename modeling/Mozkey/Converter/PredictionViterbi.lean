import Mozkey.Converter.ViterbiOptimal
import Mozkey.Lib.SortedMap

/-!
# The search for predictions

For predictions there is a faster search.  Of the nodes that end at a position and have the
same right id only the cheapest can be the best one in front of a node, and which one is best
depends on the left id of the node alone.  So the search keeps one node for each right id and
computes one best cost for each left id.  It goes through the history first, and then
through the rest of the key.

It does not skip the nodes that were not reached.  They count with the cost that they were
made with, which is zero.
-/

namespace Mozkey.Converter

open Mozkey.Lib

/-- `INT_MAX`. -/
def kIntMax : Int := 2147483647

section Algorithm

variable (transition : UInt16 → UInt16 → Int) (lattice : Lattice)

/-! ## One position -/

/-- Keeps the cheapest node of every right id. -/
def keepLeft (links : Links) (lbest : SortedMap Nat (Int × Nat)) (lnode : Nat) :
    SortedMap Nat (Int × Nat) :=
  let rid := (lattice.node lnode).rid.toNat
  match lbest.find rid with
  | none => lbest.assign rid ((links lnode).cost, lnode)
  | some best =>
      if (links lnode).cost < best.1 then lbest.assign rid ((links lnode).cost, lnode) else lbest

/-- Collects the left ids. -/
def keepRight (calcEndPos : Nat) (rbest : SortedMap Nat (Int × Option Nat)) (rnode : Nat) :
    SortedMap Nat (Int × Option Nat) :=
  let node := lattice.node rnode
  if node.endPos > calcEndPos then rbest
  else
    match rbest.find node.lid.toNat with
    | none => rbest.assign node.lid.toNat (kIntMax, none)
    | some _ => rbest

/-- The better of what is known for a left id and a node with a right id. -/
def betterLeft (lid : Nat) (best : Int × Option Nat) (liter : Nat × (Int × Nat)) :
    Int × Option Nat :=
  let cost := liter.2.1 + transition (.ofNat liter.1) (.ofNat lid)
  if cost < best.1 then (cost, some liter.2.2) else best

/-- Connects the node of a right id with all left ids. -/
def connectLeft (rbest : SortedMap Nat (Int × Option Nat)) (liter : Nat × (Int × Nat)) :
    SortedMap Nat (Int × Option Nat) :=
  rbest.update fun lid best => betterLeft transition lid best liter

/-- Links a node to the best node for its left id. -/
def linkRight (calcEndPos : Nat) (rbest : SortedMap Nat (Int × Option Nat)) (links : Links)
    (rnode : Nat) : Links :=
  let node := lattice.node rnode
  if node.endPos > calcEndPos then links
  else
    match rbest.find node.lid.toNat with
    | some (cost, some lnode) =>
        links.set rnode { links rnode with cost := cost + node.wcost, prev := some lnode }
    | _ => links

/-- One turn of the loop of `PredictionViterbiInternal`. -/
def predictionPosition (calcEndPos : Nat) (links : Links) (pos : Nat) : Links :=
  let lbest := (lattice.endNodes pos).foldl (keepLeft lattice links) .empty
  if lbest.elements = [] then links
  else
    let rbest := (lattice.beginNodes pos).foldl (keepRight lattice calcEndPos) .empty
    if rbest.elements = [] then links
    else
      let rbest := lbest.elements.foldl (connectLeft transition) rbest
      (lattice.beginNodes pos).foldl (linkRight lattice calcEndPos rbest) links

/-- `PredictionViterbiInternal`.  The last position is included. -/
def predictionViterbiInternal (calcBeginPos calcEndPos : Nat) (links : Links) : Links :=
  (positions calcBeginPos (calcEndPos + 1)).foldl
    (predictionPosition transition lattice calcEndPos) links

/-! ## The whole key -/

/-- `Segments::history_segments`. -/
def historySegments (segments : Segments) : List Segment :=
  segments.segments.take segments.historySegmentsSize

def historyLength (segments : Segments) : Nat :=
  ((historySegments segments).map fun segment => segment.key.length).sum

/-- What `PredictionViterbi` computes before the traversal. -/
def predictionLinks (segments : Segments) (links : Links) : Links :=
  predictionViterbiInternal transition lattice (historyLength segments) lattice.key.length
    (predictionViterbiInternal transition lattice 0 (historyLength segments) links)

/-- `PredictionViterbi`: whether the links lead to the beginning, and the links. -/
def predictionViterbi (segments : Segments) (links : Links) : Option (Bool × Links) :=
  (traverse (traversalSteps lattice) (predictionLinks transition lattice segments links)
    lattice.eosNode none).map fun result => (result.2 = some lattice.bosNode, result.1)

end Algorithm

/-! ## What is kept for the ids -/

section Position

variable {transition : UInt16 → UInt16 → Int} {lattice : Lattice} {links : Links}

/-- One node is kept for the right id of every node, and it costs no more. -/
structure KeepsLeft (lattice : Lattice) (links : Links) (lnodes : List Nat)
    (lbest : SortedMap Nat (Int × Nat)) : Prop where
  sound : ∀ e ∈ lbest.elements,
    e.2.2 ∈ lnodes ∧ (lattice.node e.2.2).rid.toNat = e.1 ∧ (links e.2.2).cost = e.2.1
  complete : ∀ l ∈ lnodes, ∃ best, ((lattice.node l).rid.toNat, best) ∈ lbest.elements ∧
    best.1 ≤ (links l).cost

theorem KeepsLeft.keepLeft {lnodes : List Nat} {lbest : SortedMap Nat (Int × Nat)}
    (keeps : KeepsLeft lattice links lnodes lbest) (lnode : Nat) :
    KeepsLeft lattice links (lnodes ++ [lnode]) (keepLeft lattice links lbest lnode) := by
  -- The node replaces what is kept for its right id.
  have assigned (dearer : ∀ best, ((lattice.node lnode).rid.toNat, best) ∈ lbest.elements →
      (links lnode).cost ≤ best.1) : KeepsLeft lattice links (lnodes ++ [lnode])
        (lbest.assign (lattice.node lnode).rid.toNat ((links lnode).cost, lnode)) := by
    refine ⟨fun e member => ?_, fun l member => ?_⟩
    · rcases SortedMap.mem_assign.1 member with rfl | ⟨before, _⟩
      · exact ⟨by simp, rfl, rfl⟩
      · obtain ⟨inside, rest⟩ := keeps.sound e before
        exact ⟨List.mem_append_left _ inside, rest⟩
    · by_cases same : (lattice.node l).rid.toNat = (lattice.node lnode).rid.toNat
      · refine ⟨((links lnode).cost, lnode), SortedMap.mem_assign.2 (.inl (by rw [same])), ?_⟩
        rcases List.mem_append.1 member with before | new
        · obtain ⟨best, kept, le⟩ := keeps.complete l before
          exact (dearer best (same ▸ kept)).trans le
        · rw [List.mem_singleton.1 new]
      · have before : l ∈ lnodes := (List.mem_append.1 member).resolve_right fun new =>
          same (by rw [List.mem_singleton.1 new])
        obtain ⟨best, kept, le⟩ := keeps.complete l before
        exact ⟨best, SortedMap.mem_assign.2 (.inr ⟨kept, same⟩), le⟩
  rw [Converter.keepLeft]
  cases found : lbest.find (lattice.node lnode).rid.toNat with
  | none => exact assigned fun best member => absurd rfl (SortedMap.find_eq_none.1 found _ member)
  | some best =>
      dsimp only
      split
      · next less =>
          refine assigned fun best' member => ?_
          rw [Option.some.inj ((SortedMap.find_eq_some.2 member).symm.trans found)]
          exact less.le
      · next notLess =>
          refine ⟨fun e member => ?_, fun l member => ?_⟩
          · obtain ⟨inside, rest⟩ := keeps.sound e member
            exact ⟨List.mem_append_left _ inside, rest⟩
          · rcases List.mem_append.1 member with before | new
            · exact keeps.complete l before
            · rw [List.mem_singleton.1 new]
              exact ⟨best, SortedMap.mem_of_find found, not_lt.1 notLess⟩

variable (lattice links) in
theorem keepsLeft_foldl (lnodes : List Nat) :
    KeepsLeft lattice links lnodes (lnodes.foldl (keepLeft lattice links) .empty) := by
  induction lnodes using List.reverseRecOn with
  | nil => exact ⟨by simp [SortedMap.empty], by simp⟩
  | append_singleton lnodes lnode ih =>
      rw [List.foldl_append]
      exact ih.keepLeft lnode

/-- The left ids of the nodes that do not end too late, for which nothing is known. -/
structure KeepsRight (lattice : Lattice) (calcEndPos : Nat) (rnodes : List Nat)
    (rbest : SortedMap Nat (Int × Option Nat)) : Prop where
  unknown : ∀ e ∈ rbest.elements, e.2 = (kIntMax, none)
  complete : ∀ r ∈ rnodes, (lattice.node r).endPos ≤ calcEndPos →
    ∃ best, ((lattice.node r).lid.toNat, best) ∈ rbest.elements

theorem KeepsRight.keepRight {calcEndPos : Nat} {rnodes : List Nat}
    {rbest : SortedMap Nat (Int × Option Nat)} (keeps : KeepsRight lattice calcEndPos rnodes rbest)
    (rnode : Nat) :
    KeepsRight lattice calcEndPos (rnodes ++ [rnode]) (keepRight lattice calcEndPos rbest rnode) := by
  rw [Converter.keepRight]
  split
  · next late =>
      refine ⟨keeps.unknown, fun r member within => keeps.complete r ?_ within⟩
      refine (List.mem_append.1 member).resolve_right fun new => ?_
      rw [List.mem_singleton.1 new] at within
      omega
  · cases found : rbest.find (lattice.node rnode).lid.toNat with
    | none =>
        refine ⟨fun e member => ?_, fun r member within => ?_⟩
        · rcases SortedMap.mem_assign.1 member with rfl | ⟨before, _⟩
          · rfl
          · exact keeps.unknown e before
        · by_cases same : (lattice.node r).lid.toNat = (lattice.node rnode).lid.toNat
          · exact ⟨(kIntMax, none), SortedMap.mem_assign.2 (.inl (by rw [same]))⟩
          · have before : r ∈ rnodes := (List.mem_append.1 member).resolve_right fun new =>
              same (by rw [List.mem_singleton.1 new])
            obtain ⟨best, kept⟩ := keeps.complete r before within
            exact ⟨best, SortedMap.mem_assign.2 (.inr ⟨kept, same⟩)⟩
    | some best =>
        refine ⟨keeps.unknown, fun r member within => ?_⟩
        rcases List.mem_append.1 member with before | new
        · exact keeps.complete r before within
        · rw [List.mem_singleton.1 new]
          exact ⟨best, SortedMap.mem_of_find found⟩

variable (lattice) in
theorem keepsRight_foldl (calcEndPos : Nat) (rnodes : List Nat) :
    KeepsRight lattice calcEndPos rnodes (rnodes.foldl (keepRight lattice calcEndPos) .empty) := by
  induction rnodes using List.reverseRecOn with
  | nil => exact ⟨by simp [SortedMap.empty], by simp⟩
  | append_singleton rnodes rnode ih =>
      rw [List.foldl_append]
      exact ih.keepRight rnode

/-- What is known for a left id after the double loop depends on this id alone. -/
theorem find_connectLeft (liters : List (Nat × (Int × Nat)))
    (rbest : SortedMap Nat (Int × Option Nat)) (lid : Nat) :
    (liters.foldl (connectLeft transition) rbest).find lid
      = (rbest.find lid).map fun best => liters.foldl (betterLeft transition lid) best := by
  induction liters generalizing rbest with
  | nil => exact Option.map_id'.symm
  | cons liter liters ih =>
      rw [List.foldl_cons, ih, connectLeft, SortedMap.find_update, Option.map_map]
      rfl

/-- The cost of going from a node in front to a node, whether it was reached or not. -/
def frontCost (transition : UInt16 → UInt16 → Int) (lattice : Lattice) (links : Links)
    (rnode lnode : Nat) : Option Int :=
  some ((links lnode).cost + transition (lattice.node lnode).rid (lattice.node rnode).lid)

theorem foldl_betterLeft {liters : List (Nat × (Int × Nat))} (rnode : Nat)
    (sound : ∀ e ∈ liters, (lattice.node e.2.2).rid.toNat = e.1 ∧ (links e.2.2).cost = e.2.1)
    (best : Int × Option Nat) :
    liters.foldl (betterLeft transition (lattice.node rnode).lid.toNat) best
      = selectLeast (frontCost transition lattice links rnode) (liters.map fun e => e.2.2) best := by
  induction liters generalizing best with
  | nil => rfl
  | cons liter liters ih =>
      obtain ⟨rid, cost⟩ := sound liter (List.mem_cons_self ..)
      rw [List.foldl_cons, List.map_cons, selectLeast, frontCost, betterLeft, ← rid, ← cost,
        UInt16.ofNat_toNat, UInt16.ofNat_toNat]
      exact ih (fun e member => sound e (List.mem_cons_of_mem liter member)) _

/-! ## One position -/

/-- A link after the search has been through the position, and what it found there. -/
def Link.relink (link : Link) (wcost : Int) : Int × Option Nat → Link
  | (cost, some lnode) => { link with cost := cost + wcost, prev := some lnode }
  | (_, none) => link

theorem Link.relink_relink (link : Link) (wcost : Int) (best : Int × Option Nat) :
    (link.relink wcost best).relink wcost best = link.relink wcost best := by
  obtain ⟨cost, lnode⟩ := best
  cases lnode <;> rfl

theorem linkRight_apply (calcEndPos : Nat) (rbest : SortedMap Nat (Int × Option Nat))
    (links : Links) (rnode x : Nat) :
    linkRight lattice calcEndPos rbest links rnode x
      = if x = rnode ∧ (lattice.node x).endPos ≤ calcEndPos then
          (links x).relink (lattice.node x).wcost
            ((rbest.find (lattice.node x).lid.toNat).getD (kIntMax, none))
        else links x := by
  rw [linkRight]
  by_cases isNode : x = rnode
  · subst isNode
    by_cases late : (lattice.node x).endPos > calcEndPos
    · rw [if_pos late, if_neg fun both => by omega]
    · rw [if_neg late, if_pos ⟨rfl, not_lt.1 late⟩]
      rcases rbest.find (lattice.node x).lid.toNat with _ | ⟨cost, _ | lnode⟩
      · rfl
      · rfl
      · exact Links.set_self ..
  · rw [if_neg (c := x = rnode ∧ _) fun both => isNode both.1]
    split
    · rfl
    · rcases rbest.find (lattice.node rnode).lid.toNat with _ | ⟨cost, _ | lnode⟩
      · rfl
      · rfl
      · exact Links.set_of_ne _ _ isNode

theorem foldl_linkRight (calcEndPos : Nat) (rbest : SortedMap Nat (Int × Option Nat))
    (rnodes : List Nat) (links : Links) (x : Nat) :
    rnodes.foldl (linkRight lattice calcEndPos rbest) links x
      = if x ∈ rnodes ∧ (lattice.node x).endPos ≤ calcEndPos then
          (links x).relink (lattice.node x).wcost
            ((rbest.find (lattice.node x).lid.toNat).getD (kIntMax, none))
        else links x := by
  induction rnodes generalizing links with
  | nil => simp
  | cons rnode rnodes ih =>
      rw [List.foldl_cons, ih, linkRight_apply]
      by_cases within : (lattice.node x).endPos ≤ calcEndPos
      · by_cases isNode : x = rnode
        · by_cases later : x ∈ rnodes
          · rw [if_pos ⟨later, within⟩, if_pos ⟨isNode, within⟩, Link.relink_relink,
              if_pos ⟨List.mem_cons_of_mem rnode later, within⟩]
          · rw [if_neg fun both => later both.1, if_pos ⟨isNode, within⟩,
              if_pos ⟨isNode ▸ List.mem_cons_self .., within⟩]
        · simp [within, isNode]
      · simp [within]

variable (transition lattice) in
/-- **What the search does at a position.**  A node that does not end too late is linked to
the first cheapest of the nodes in front, or left as it is when none costs less than
`INT_MAX`. -/
theorem predictionPosition_spec (calcEndPos : Nat) (links : Links) (pos : Nat) :
    (∀ r ∈ lattice.beginNodes pos, (lattice.node r).endPos ≤ calcEndPos →
      ∃ best, Selected (frontCost transition lattice links r) (lattice.endNodes pos) (kIntMax, none) best ∧
        predictionPosition transition lattice calcEndPos links pos r
          = (links r).relink (lattice.node r).wcost best) ∧
    ∀ x, (x ∈ lattice.beginNodes pos → calcEndPos < (lattice.node x).endPos) →
      predictionPosition transition lattice calcEndPos links pos x = links x := by
  obtain ⟨sound, complete⟩ := keepsLeft_foldl lattice links (lattice.endNodes pos)
  have rights := keepsRight_foldl lattice calcEndPos (lattice.beginNodes pos)
  rw [predictionPosition]
  split
  · next empty =>
      refine ⟨fun r _ _ => ⟨(kIntMax, none), ⟨fun l last => ?_, le_rfl, .inl rfl⟩, rfl⟩, fun _ _ => rfl⟩
      obtain ⟨best, kept, _⟩ := complete l last
      exact absurd kept (empty ▸ List.not_mem_nil)
  · dsimp only
    split
    · next empty =>
        refine ⟨fun r begin within => ?_, fun _ _ => rfl⟩
        obtain ⟨best, kept⟩ := rights.complete r begin within
        exact absurd kept (empty ▸ List.not_mem_nil)
    · refine ⟨fun r begin within => ?_, fun x outside => ?_⟩
      · obtain ⟨best, kept⟩ := rights.complete r begin within
        obtain rfl : best = (kIntMax, none) := rights.unknown _ kept
        rw [foldl_linkRight, if_pos ⟨begin, within⟩, find_connectLeft, SortedMap.find_eq_some.2 kept,
          Option.map_some, Option.getD_some, foldl_betterLeft r fun e member => (sound e member).2]
        refine ⟨_, (selectLeast_selected _ _ _).of_subset (fun l kept => ?_) (fun l last c isCost => ?_), rfl⟩
        · obtain ⟨e, member, rfl⟩ := List.mem_map.1 kept
          exact (sound e member).1
        · obtain ⟨least, member, le⟩ := complete l last
          obtain ⟨_, rid, cost⟩ := sound _ member
          refine ⟨least.2, List.mem_map_of_mem member, _, rfl, ?_⟩
          rw [UInt16.toNat_inj.1 rid, cost, ← Option.some.inj isCost]
          exact Int.add_le_add_right le _
      · rw [foldl_linkRight, if_neg]
        rintro ⟨begin, within⟩
        have late := outside begin
        omega

end Position

/-! ## All positions -/

section Search

variable (transition : UInt16 → UInt16 → Int) (lattice : Lattice)

/-- A node that is linked to the cheapest of the nodes in front, whether they were reached or
not. -/
def Predicted (links : Links) (pos r : Nat) : Prop :=
  ∃ best, Selected (frontCost transition lattice links r) (lattice.endNodes pos) (kIntMax, none) best ∧
    links r = ({} : Link).relink (lattice.node r).wcost best

/-- The search has been through some nodes. -/
structure Searched (visited : Nat → Prop) (links : Links) : Prop where
  predicted : ∀ {pos r}, r ∈ lattice.beginNodes pos → visited r → Predicted transition lattice links pos r
  others : ∀ x, (∀ pos, x ∈ lattice.beginNodes pos → ¬visited x) → links x = {}

variable {transition lattice}

theorem Searched.of_iff {visited visited' : Nat → Prop} {links : Links}
    (searched : Searched transition lattice visited links)
    (same : ∀ {pos r}, r ∈ lattice.beginNodes pos → (visited' r ↔ visited r)) :
    Searched transition lattice visited' links :=
  ⟨fun begin isVisited => searched.predicted begin ((same begin).1 isVisited),
    fun x unvisited => searched.others x fun pos begin isVisited =>
      unvisited pos begin ((same begin).2 isVisited)⟩

theorem searched_freshLinks : Searched transition lattice (fun _ => False) freshLinks :=
  ⟨fun _ => False.elim, fun _ _ => rfl⟩

section Steps

variable (wf : lattice.WellFormed)
include wf

/-- **One position of the search.** -/
theorem Searched.position {visited : Nat → Prop} {links : Links}
    (searched : Searched transition lattice visited links) {pos : Nat}
    (before : ∀ r, visited r → (lattice.node r).beginPos ≤ pos) (calcEndPos : Nat) :
    Searched transition lattice
      (fun r => visited r ∨ ((lattice.node r).beginPos = pos ∧ (lattice.node r).endPos ≤ calcEndPos))
      (predictionPosition transition lattice calcEndPos links pos) := by
  obtain ⟨linked, others⟩ := predictionPosition_spec transition lattice calcEndPos links pos
  generalize predictionPosition transition lattice calcEndPos links pos = links' at linked others
  -- Nodes in front of this position, or of an earlier one, are left as they are.
  have left : ∀ {p l}, p ≤ pos → l ∈ lattice.endNodes p → links' l = links l := by
    intro p l le last
    refine others l fun begin => absurd (wf.begin_lt last (wf.begins begin).2.1) ?_
    rw [(wf.begins begin).2.2.1]
    omega
  have front : ∀ {p r best}, p ≤ pos →
      Selected (frontCost transition lattice links r) (lattice.endNodes p) (kIntMax, none) best →
      Selected (frontCost transition lattice links' r) (lattice.endNodes p) (kIntMax, none) best :=
    fun le selected => selected.congr fun l last => by rw [frontCost, frontCost, left le last]
  refine ⟨fun {p r} begin isVisited => ?_, fun x unvisited => ?_⟩
  · have position := (wf.begins begin).2.2.1
    by_cases here : (lattice.node r).beginPos = pos ∧ (lattice.node r).endPos ≤ calcEndPos
    · obtain rfl : p = pos := position.symm.trans here.1
      obtain ⟨best, selected, isLink⟩ := linked r begin here.2
      by_cases seen : visited r
      · -- A node that is visited again is linked anew, or keeps the link that it has.
        obtain ⟨best', selected', isLink'⟩ := searched.predicted begin seen
        obtain ⟨cost, lnode⟩ := best
        cases lnode with
        | none => exact ⟨best', front le_rfl selected', isLink.trans isLink'⟩
        | some lnode =>
            refine ⟨_, front le_rfl selected, isLink.trans ?_⟩
            obtain ⟨cost', lnode'⟩ := best'
            cases lnode' with
            | none =>
                rw [isLink']
                rfl
            | some lnode' =>
                rw [isLink']
                rfl
      · refine ⟨best, front le_rfl selected, isLink.trans ?_⟩
        rw [searched.others r fun _ _ => seen]
    · have seen := isVisited.resolve_right here
      have le := position ▸ before r seen
      obtain ⟨best, selected, isLink⟩ := searched.predicted begin seen
      refine ⟨best, front le selected, (others r fun begin' => ?_).trans isLink⟩
      have := (wf.begins begin').2.2.1
      omega
  · rw [others x fun begin => ?_]
    · exact searched.others x fun pos begin seen => unvisited pos begin (.inl seen)
    · by_contra within
      exact unvisited _ begin (.inr ⟨(wf.begins begin).2.2.1, not_lt.1 within⟩)

/-- **The positions of a part of the key.** -/
theorem Searched.internal {visited : Nat → Prop} {links : Links}
    (searched : Searched transition lattice visited links) (calcBeginPos : Nat)
    (before : ∀ r, visited r → (lattice.node r).beginPos ≤ calcBeginPos) (calcEndPos : Nat) :
    Searched transition lattice
      (fun r => visited r ∨ (calcBeginPos ≤ (lattice.node r).beginPos ∧
        (lattice.node r).beginPos ≤ calcEndPos ∧ (lattice.node r).endPos ≤ calcEndPos))
      (predictionViterbiInternal transition lattice calcBeginPos calcEndPos links) := by
  suffices steps : ∀ k, Searched transition lattice
      (fun r => visited r ∨ (calcBeginPos ≤ (lattice.node r).beginPos ∧
        (lattice.node r).beginPos < calcBeginPos + k ∧ (lattice.node r).endPos ≤ calcEndPos))
      ((List.range' calcBeginPos k).foldl (predictionPosition transition lattice calcEndPos) links) by
    refine (steps (calcEndPos + 1 - calcBeginPos)).of_iff fun _ => or_congr_right ?_
    omega
  intro k
  induction k with
  | zero => exact searched.of_iff fun _ => or_iff_left fun both => by omega
  | succ k ih =>
      rw [List.range'_concat, List.foldl_append, Nat.one_mul]
      refine (ih.position wf (fun r seen => ?_) calcEndPos).of_iff fun _ => ?_
      · rcases seen with earlier | ⟨_, less, _⟩
        · exact (before r earlier).trans (Nat.le_add_right ..)
        · exact less.le
      · rw [or_assoc]
        refine or_congr_right ?_
        omega

end Steps

end Search

/-! ## The two searches -/

section Comparison

variable (transition : UInt16 → UInt16 → Int) (memory : Nat → Int) (lattice : Lattice)
  (segments : Segments)

/-- A node that crosses the end of the history. -/
def CrossesHistory (r : Nat) : Prop :=
  (lattice.node r).beginPos < historyLength segments ∧ historyLength segments < (lattice.node r).endPos

/-- What a node in front counts for in the search for predictions: the cost of a cheapest
path, or zero when there is no path. -/
def CountsAs (l : Nat) (c : Int) : Prop :=
  IsLeast ((graph transition lattice segments).Costs l) c ∨
    ((graph transition lattice segments).Costs l = ∅ ∧ c = 0)

/-- Going to a node from a node in front, which may be one without a path, is never cheaper
than the cheapest path to the node.  Going to a first node costs less than `INT_MAX`. -/
structure NoShortcut : Prop where
  costs : ∀ {pos l r c}, l ∈ lattice.endNodes pos → r ∈ lattice.beginNodes pos →
    ¬CrossesHistory lattice segments r → CountsAs transition lattice segments l c →
    c + transition (lattice.node l).rid (lattice.node r).lid < kIntMax →
    ∃ c' ∈ (graph transition lattice segments).Costs r, c' ≤ c + weight transition lattice l r
  first : ∀ {r}, Admissible lattice segments lattice.bosNode r →
    transition (lattice.node lattice.bosNode).rid (lattice.node r).lid < kIntMax

/-- Both searches end, and find the same least cost for every node, or none. -/
def SameBestCosts : Prop :=
  ∃ found links found' links', viterbi transition memory lattice segments freshLinks = some (found, links) ∧
    predictionViterbi transition lattice segments freshLinks = some (found', links') ∧
    ∀ {pos r}, r ∈ lattice.beginNodes pos → bestCost lattice links' r = bestCost lattice links r

end Comparison

/-! ## The traversal -/

/-- The traversal ends where links decrease a rank, and leaves the links back and the costs as
they are. -/
theorem traverse_total {reach : Nat → Prop} {rank : Nat → Nat} {fuel : Nat} {links : Links}
    (decreases : ∀ y l, reach y → (links y).prev = some l → reach l ∧ rank l < rank y) {x : Nat}
    (isReached : reach x) (enough : rank x < fuel) (prev : Option Nat) :
    ∃ links' prev', traverse fuel links x prev = some (links', prev') ∧
      ∀ y, (links' y).prev = (links y).prev ∧ (links' y).cost = (links y).cost := by
  induction fuel generalizing links x prev with
  | zero => exact absurd enough (Nat.not_lt_zero _)
  | succ fuel ih =>
      rw [traverse]
      cases isPrev : (links x).prev with
      | none => exact ⟨links, prev, rfl, fun _ => ⟨rfl, rfl⟩⟩
      | some p =>
          have same : ∀ y, (links.set p { links p with next := some x } y).prev = (links y).prev ∧
              (links.set p { links p with next := some x } y).cost = (links y).cost := by
            intro y
            by_cases eq : y = p
            · rw [eq, Links.set_self]
              exact ⟨rfl, rfl⟩
            · rw [Links.set_of_ne links _ eq]
              exact ⟨rfl, rfl⟩
          obtain ⟨reachLeft, less⟩ := decreases x p isReached isPrev
          obtain ⟨links', prev', traversed, kept⟩ := ih
            (fun y l isReached isPrev => decreases y l isReached ((same y).1.symm.trans isPrev)) reachLeft
            (by omega) (some p)
          exact ⟨links', prev', traversed, fun y =>
            ⟨(kept y).1.trans (same y).1, (kept y).2.trans (same y).2⟩⟩

section Sentence

variable {transition : UInt16 → UInt16 → Int} {memory : Nat → Int} {lattice : Lattice}
  {segments : Segments} {links : Links}

theorem bestCost_congr {links' : Links} {x : Nat} (prev : (links' x).prev = (links x).prev)
    (cost : (links' x).cost = (links x).cost) : bestCost lattice links' x = bestCost lattice links x := by
  rw [bestCost, bestCost, prev, cost]

variable (wf : lattice.WellFormed)
include wf

/-- The traversal of a lattice ends when every node is linked to a node in front. -/
theorem traverse_ends (bosFree : (links lattice.bosNode).prev = none)
    (linked : ∀ {pos r l}, r ∈ lattice.beginNodes pos → (links r).prev = some l →
      l ∈ lattice.endNodes pos) :
    ∃ links' prev', traverse (traversalSteps lattice) links lattice.eosNode none = some (links', prev') ∧
      ∀ y, bestCost lattice links' y = bestCost lattice links y := by
  have decreases : ∀ y l, (y = lattice.bosNode ∨ ∃ pos, y ∈ lattice.beginNodes pos) →
      (links y).prev = some l → (l = lattice.bosNode ∨ ∃ pos, l ∈ lattice.beginNodes pos) ∧
        nodeRank lattice l < nodeRank lattice y := by
    rintro y l (rfl | ⟨pos, begin⟩) isPrev
    · cases bosFree.symm.trans isPrev
    · have last := linked begin isPrev
      exact ⟨or_iff_not_imp_left.2 fun notBos => ⟨_, wf.listed last notBos⟩, nodeRank_lt wf last begin⟩
  have enough : nodeRank lattice lattice.eosNode < traversalSteps lattice := by
    rw [nodeRank, if_neg wf.eos_ne_bos, (wf.begins wf.eos_mem).2.2.1, traversalSteps]
    omega
  obtain ⟨links', prev', traversed, kept⟩ := traverse_total decreases (.inr ⟨_, wf.eos_mem⟩) enough none
  exact ⟨links', prev', traversed, fun y => bestCost_congr (kept y).1 (kept y).2⟩

variable (transition memory) in
/-- The plain search ends, and knows every node. -/
theorem viterbi_known {first : Segment} {back : List Segment}
    (split : segments.segments = first :: back) (nonempty : first.key ≠ [])
    (partition : segments.segments.flatMap Segment.key = lattice.key) :
    ∃ found links, viterbi transition memory lattice segments freshLinks = some (found, links) ∧
      ∀ {pos r}, r ∈ lattice.beginNodes pos →
        (graph transition lattice segments).Known r (bestCost lattice links r) := by
  have done := done_viterbiLinks transition memory wf split
    (List.length_pos_iff.2 nonempty) partition
  rw [viterbi]
  generalize viterbiLinks transition memory lattice segments freshLinks = links at done ⊢
  have before : ∀ {pos r}, r ∈ lattice.beginNodes pos → pos < lattice.key.length + 1 :=
    fun begin => Nat.lt_succ_of_le (wf.begin_le begin)
  have bosFree : (links lattice.bosNode).prev = none := by rw [done.bos]
  obtain ⟨links', prev', traversed, kept⟩ := traverse_ends wf bosFree
    (fun {pos r l} begin isPrev => by
      rcases done.settled begin (before begin) with ⟨none, _⟩ | ⟨l', c, settled⟩
      · cases none.symm.trans isPrev
      · obtain rfl := Option.some.inj (settled.prev.symm.trans isPrev)
        exact mem_endNodes_of_guard wf begin settled.guard)
  refine ⟨_, links', by rw [traversed]; rfl, fun {pos r} begin => ?_⟩
  rw [kept]
  exact known_of_settled (wf.begins begin).2.1 (done.settled begin (before begin))

omit wf in
theorem isBoundary_historyLength : IsBoundary segments (historyLength segments) :=
  ⟨_, _, (List.take_append_drop segments.historySegmentsSize segments.segments).symm, by
    rw [historyLength, historySegments, List.length_flatMap]⟩

/-- The search for predictions goes through all nodes that do not cross the end of the
history. -/
theorem searched_predictionLinks (partition : segments.segments.flatMap Segment.key = lattice.key) :
    Searched transition lattice (fun r => ¬CrossesHistory lattice segments r)
      (predictionLinks transition lattice segments freshLinks) := by
  have within : historyLength segments ≤ lattice.key.length := by
    obtain ⟨front, back, split, isLength⟩ := isBoundary_historyLength 
    rw [isLength, ← partition, split, List.flatMap_append, List.length_append]
    exact Nat.le_add_right ..
  have history := (searched_freshLinks : Searched transition lattice _ _).internal wf 0
    (fun _ => False.elim) (historyLength segments)
  have all := history.internal wf (historyLength segments)
    (fun r seen => (seen.resolve_left id).2.1) lattice.key.length
  refine all.of_iff fun {pos r} begin => ?_
  have position := (wf.begins begin).2.2.1
  have first := wf.begin_le begin
  obtain ⟨lower, upper⟩ := wf.end_le begin
  rw [CrossesHistory, false_or]
  omega

variable (transition) in
/-- The search for predictions ends, with the links of a search. -/
theorem predictionViterbi_searched (partition : segments.segments.flatMap Segment.key = lattice.key) :
    ∃ found links searched, predictionViterbi transition lattice segments freshLinks = some (found, links) ∧
      Searched transition lattice (fun r => ¬CrossesHistory lattice segments r) searched ∧
      ∀ y, bestCost lattice links y = bestCost lattice searched y := by
  have searched : Searched transition lattice _ _ := searched_predictionLinks wf partition
  rw [predictionViterbi]
  generalize predictionLinks transition lattice segments freshLinks = links at searched ⊢
  have bosFree : (links lattice.bosNode).prev = none := by
    rw [searched.others _ fun pos begin => absurd rfl (wf.begins begin).2.1]
  obtain ⟨links', prev', traversed, kept⟩ := traverse_ends wf bosFree
    (fun {pos r l} begin isPrev => by
      by_cases crosses : CrossesHistory lattice segments r
      · rw [searched.others r fun _ _ => not_not_intro crosses] at isPrev
        cases isPrev
      · obtain ⟨best, selected, isLink⟩ := searched.predicted begin crosses
        rw [isLink] at isPrev
        rcases selected.found with rfl | ⟨x, last, _, chosen, _⟩
        · cases isPrev
        · obtain ⟨cost, lnode⟩ := best
          obtain rfl : lnode = some x := chosen
          obtain rfl := Option.some.inj isPrev
          exact last)
  exact ⟨_, links', links, by rw [traversed]; rfl, searched, kept⟩

end Sentence

/-! ## When the searches agree -/

section Agreement

variable {transition : UInt16 → UInt16 → Int} {memory : Nat → Int} {lattice : Lattice}
  {segments : Segments} {links : Links}

theorem CountsAs.unique {l : Nat} {c c' : Int} (counts : CountsAs transition lattice segments l c)
    (counts' : CountsAs transition lattice segments l c') : c = c' := by
  rcases counts with least | ⟨empty, rfl⟩
  · rcases counts' with least' | ⟨empty, _⟩
    · exact least.unique least'
    · exact absurd least.1 (empty ▸ Set.notMem_empty c)
  · rcases counts' with least' | ⟨_, rfl⟩
    · exact absurd least'.1 (empty ▸ Set.notMem_empty c')
    · rfl

/-- A cost of a node is not below what a node in front of it counts for. -/
theorem CountsAs.exists_left (wf : lattice.WellFormed) {pos r : Nat} (begin : r ∈ lattice.beginNodes pos)
    (free : (lattice.node r).constrainedPrev = none)
    (first : ∀ {x}, Admissible lattice segments lattice.bosNode x →
      transition (lattice.node lattice.bosNode).rid (lattice.node x).lid < kIntMax)
    {c : Int} (isCost : c ∈ (graph transition lattice segments).Costs r) :
    ∃ l ∈ lattice.endNodes pos, ∀ c', CountsAs transition lattice segments l c' →
      c' + transition (lattice.node l).rid (lattice.node r).lid < kIntMax ∧
        c' + weight transition lattice l r ≤ c := by
  obtain ⟨l, d, isCostLeft, guard, rfl⟩ := CostGraph.exists_left (wf.begins begin).2.1 isCost
  refine ⟨l, mem_endNodes_of_guard wf begin guard, fun c' counts => ?_⟩
  have least : IsLeast ((graph transition lattice segments).Costs l) c' :=
    counts.resolve_right fun unreached => absurd isCostLeft (unreached.1 ▸ Set.notMem_empty d)
  have below := least.2 isCostLeft
  refine ⟨?_, Int.add_le_add_right below _⟩
  by_cases isBos : l = lattice.bosNode
  · subst isBos
    obtain rfl : c' = 0 := least.unique (CostGraph.costs_start (g := graph transition lattice segments))
    rw [Int.zero_add]
    exact first guard.2.1
  · have limit := guard.2.2 isBos free
    have : kVeryBigCost < kIntMax := by decide
    omega

theorem Searched.bos {visited : Nat → Prop} (searched : Searched transition lattice visited links)
    (wf : lattice.WellFormed) : links lattice.bosNode = {} :=
  searched.others _ fun _ begin => absurd rfl (wf.begins begin).2.1

/-- A node that is not linked has the cost that it was made with. -/
theorem Searched.cost_eq_zero {visited : Nat → Prop}
    (searched : Searched transition lattice visited links) {x : Nat} (unlinked : (links x).prev = none) :
    (links x).cost = 0 := by
  by_cases seen : ∃ pos, x ∈ lattice.beginNodes pos ∧ visited x
  · obtain ⟨pos, begin, isVisited⟩ := seen
    obtain ⟨⟨cost, lnode⟩, _, isLink⟩ := searched.predicted begin isVisited
    cases lnode with
    | none =>
        rw [isLink]
        rfl
    | some lnode =>
        rw [isLink] at unlinked
        cases unlinked
  · rw [searched.others x fun pos begin isVisited => seen ⟨pos, begin, isVisited⟩]

theorem bestCost_relink {r : Nat} (notBos : r ≠ lattice.bosNode) {best : Int × Option Nat}
    (isLink : links r = ({} : Link).relink (lattice.node r).wcost best) :
    bestCost lattice links r = best.2.map fun _ => best.1 + (lattice.node r).wcost := by
  rw [bestCost_of_ne notBos, isLink]
  obtain ⟨cost, lnode⟩ := best
  cases lnode <;> rfl

/-- What a node in front counts for, when its least cost is known. -/
theorem Searched.countsAs {visited : Nat → Prop} (searched : Searched transition lattice visited links)
    (wf : lattice.WellFormed) {l : Nat} (known : l ≠ lattice.bosNode →
      (graph transition lattice segments).Known l (bestCost lattice links l)) :
    CountsAs transition lattice segments l (links l).cost := by
  by_cases isBos : l = lattice.bosNode
  · rw [isBos, searched.bos wf]
    exact .inl CostGraph.costs_start
  · have isKnown := known isBos
    rw [bestCost_of_ne isBos] at isKnown
    split at isKnown
    · next unlinked => exact .inr ⟨isKnown, searched.cost_eq_zero unlinked⟩
    · exact .inl isKnown

section Known

variable (wf : lattice.WellFormed)
  (searched : Searched transition lattice (fun r => ¬CrossesHistory lattice segments r) links)
include wf searched

/-- **The least costs are known when there is no shortcut.** -/
theorem NoShortcut.known (noShortcut : NoShortcut transition lattice segments)
    (free : ∀ {pos r}, r ∈ lattice.beginNodes pos → (lattice.node r).constrainedPrev = none) {pos r : Nat}
    (begin : r ∈ lattice.beginNodes pos) :
    (graph transition lattice segments).Known r (bestCost lattice links r) := by
  induction pos using Nat.strong_induction_on generalizing r with
  | _ pos ih =>
      have notBos := (wf.begins begin).2.1
      have counts : ∀ l ∈ lattice.endNodes pos, CountsAs transition lattice segments l (links l).cost :=
        fun l last => searched.countsAs wf fun isWord =>
          ih _ (wf.begin_lt last isWord) (wf.listed last isWord)
      by_cases crosses : CrossesHistory lattice segments r
      · rw [bestCost_of_ne notBos, searched.others r fun _ _ => not_not_intro crosses, if_pos rfl]
        refine Set.eq_empty_of_forall_notMem fun c isCost => ?_
        obtain ⟨l, _, _, guard, _⟩ := CostGraph.exists_left notBos isCost
        exact guard.2.1.inside _ isBoundary_historyLength crosses
      · obtain ⟨best, selected, isLink⟩ := searched.predicted begin crosses
        -- No path costs less than what was found.
        have lower : ∀ c ∈ (graph transition lattice segments).Costs r,
            best.1 < kIntMax ∧ best.1 + (lattice.node r).wcost ≤ c := by
          intro c isCost
          obtain ⟨l, last, below⟩ := CountsAs.exists_left wf begin (free begin) noShortcut.first isCost
          obtain ⟨small, le⟩ := below _ (counts l last)
          have bound := selected.least l last _ rfl
          rw [weight] at le
          omega
        rcases selected.found with rfl | ⟨x, last, isCost, chosen, small⟩
        · rw [bestCost_relink notBos isLink]
          refine Set.eq_empty_of_forall_notMem fun c isCost => ?_
          exact absurd (lower c isCost).1 (lt_irrefl _)
        · obtain ⟨cost, lnode⟩ := best
          obtain rfl : lnode = some x := chosen
          have isFront := Option.some.inj isCost
          dsimp only at isFront small lower
          rw [← isFront] at small
          obtain ⟨c, isCost', le⟩ := noShortcut.costs last begin crosses (counts x last) small
          have bound := (lower c isCost').2
          rw [weight] at le
          obtain rfl : c = cost + (lattice.node r).wcost := by omega
          rw [bestCost_relink notBos isLink]
          exact ⟨isCost', fun d isCostD => (lower d isCostD).2⟩

/-- **There is no shortcut when the least costs are known.** -/
theorem noShortcut_of_known (known : ∀ {pos r}, r ∈ lattice.beginNodes pos →
      (graph transition lattice segments).Known r (bestCost lattice links r)) :
    NoShortcut transition lattice segments := by
  have counts : ∀ {pos l}, l ∈ lattice.endNodes pos →
      CountsAs transition lattice segments l (links l).cost :=
    fun last => searched.countsAs wf fun isWord => known (wf.listed last isWord)
  refine ⟨fun {pos l r c} last begin within countsLeft small => ?_, fun {r} admissible => ?_⟩
  · obtain rfl := countsLeft.unique (counts last)
    obtain ⟨⟨cost, lnode⟩, selected, isLink⟩ := searched.predicted begin within
    have bound := selected.least l last _ rfl
    rcases selected.found with start | ⟨x, _, _, chosen, _⟩
    · rw [(Prod.mk.inj start).1] at bound
      omega
    · obtain rfl : lnode = some x := chosen
      have isKnown := known begin
      rw [bestCost_relink (wf.begins begin).2.1 isLink] at isKnown
      refine ⟨_, isKnown.1, ?_⟩
      show cost + (lattice.node r).wcost ≤ _
      rw [weight]
      dsimp only at bound
      omega
  · obtain ⟨pos, last, begin⟩ := admissible.adjacent
    obtain rfl : pos = 0 := (wf.ends last).2.2.symm.trans (wf.ends wf.bos_mem).2.2
    have guard : (graph transition lattice segments).guard lattice.bosNode r 0 :=
      ⟨(wf.begins begin).2.1, admissible, fun notBos => absurd rfl notBos⟩
    have reached : (graph transition lattice segments).Costs r ≠ ∅ := fun empty =>
      absurd ⟨_, .step .start guard⟩ (Set.eq_empty_iff_forall_notMem.1 empty _)
    have within : ¬CrossesHistory lattice segments r := admissible.inside _ isBoundary_historyLength
    obtain ⟨best, selected, isLink⟩ := searched.predicted begin within
    rcases selected.found with rfl | ⟨x, lastX, isCost, _, small⟩
    · have isKnown := known begin
      rw [bestCost_relink (wf.begins begin).2.1 isLink] at isKnown
      exact absurd isKnown reached
    · obtain rfl := wf.eq_bos_of_mem lastX
      have isFront := Option.some.inj isCost
      rw [searched.bos wf] at isFront
      dsimp only at isFront
      omega

end Known

variable (wf : lattice.WellFormed)
include wf

omit wf in
/-- **The search for predictions finds the same costs as the plain search exactly if there is
no shortcut.** -/
theorem sameBestCosts_iff_noShortcut (within : WithinInts transition lattice)
    (free : ∀ {pos r}, r ∈ lattice.beginNodes pos → (lattice.node r).constrainedPrev = none)
    {first : Segment} {back : List Segment} (split : segments.segments = first :: back)
    (nonempty : first.key ≠ []) (partition : segments.segments.flatMap Segment.key = lattice.key) :
    SameBestCosts transition memory lattice segments ↔ NoShortcut transition lattice segments := by
  have wf := within.toWellFormed
  obtain ⟨found, links, isViterbi, known⟩ :=
    viterbi_known transition memory wf split nonempty partition
  obtain ⟨found', links', searched, isPrediction, isSearched, kept⟩ :=
    predictionViterbi_searched transition wf partition
  constructor
  · rintro ⟨_, links₁, _, links₂, isViterbi₁, isPrediction₂, same⟩
    obtain ⟨_, rfl⟩ := Prod.mk.inj (Option.some.inj (isViterbi₁.symm.trans isViterbi))
    obtain ⟨_, rfl⟩ := Prod.mk.inj (Option.some.inj (isPrediction₂.symm.trans isPrediction))
    refine noShortcut_of_known wf isSearched fun begin => ?_
    rw [← kept, same begin]
    exact known begin
  · intro noShortcut
    refine ⟨found, links, found', links', isViterbi, isPrediction, fun begin => ?_⟩
    rw [kept]
    exact (noShortcut.known wf isSearched free begin).unique (known begin)

/-- There is no shortcut where every word has a path and no path gets too dear, as where words
are only put behind other words. -/
theorem noShortcut_of_reached
    (free : ∀ {pos r}, r ∈ lattice.beginNodes pos → (lattice.node r).constrainedPrev = none)
    (inside : ∀ {pos r}, r ∈ lattice.beginNodes pos → Inside lattice segments r)
    (reached : ∀ {pos l}, l ∈ lattice.endNodes pos →
      (graph transition lattice segments).Costs l ≠ ∅)
    (small : ∀ {pos l r c}, l ∈ lattice.endNodes pos → r ∈ lattice.beginNodes pos →
      c ∈ (graph transition lattice segments).Costs l →
      c + transition (lattice.node l).rid (lattice.node r).lid < kVeryBigCost) :
    NoShortcut transition lattice segments := by
  refine ⟨fun {pos l r c} last begin _ counts _ => ?_, fun {r} admissible => ?_⟩
  · have least := counts.resolve_right fun unreached => reached last unreached.1
    have admissible : Admissible lattice segments l r := by
      refine ⟨⟨pos, last, begin⟩, inside begin, fun d isC => ?_⟩
      rw [free begin] at isC
      cases isC
    obtain ⟨path, isPath⟩ := least.1
    have guard : (graph transition lattice segments).guard l r c :=
      ⟨(wf.begins begin).2.1, admissible, fun _ _ => small last begin ⟨path, isPath⟩⟩
    exact ⟨_, ⟨_, .step isPath guard⟩, le_rfl⟩
  · obtain ⟨pos, last, begin⟩ := admissible.adjacent
    have limit := small last begin
      (CostGraph.costs_start (g := graph transition lattice segments)).1
    have : kVeryBigCost < kIntMax := by decide
    omega

end Agreement

/-- The searches agree on two words and one of both. -/
theorem sameBestCosts_iff_noShortcut_twoWords :
    SameBestCosts (fun _ _ => 10) (fun _ => 7) (twoWords 100 200 400) oneSegment ↔
      NoShortcut (fun _ _ => 10) (twoWords 100 200 400) oneSegment := by
  have within : WithinInts (fun _ _ => 10) (twoWords 100 200 400) :=
    withinInts_of_short (twoWords_wellFormed _ _ _) twoWords_costs (by decide) (by decide)
  refine sameBestCosts_iff_noShortcut within (fun {pos r} _ => ?_) rfl (by decide) (by decide)
  match r with
  | 0 | 1 | 2 | 3 | 4 => rfl
  | r + 5 => rfl

/-- A word of both letters, and one of the second letter that stands behind no word. -/
def unreachedWord : Lattice :=
  ((Lattice.setKey (ascii "ab") 0).insert 0 2 { wcost := 100 }).insert 1 1 { wcost := 0 }

theorem unreachedWord_wellFormed : unreachedWord.WellFormed := by
  refine Lattice.insert_wellFormed (Lattice.insert_wellFormed (Lattice.setKey_wellFormed _ _) ?_) ?_
  · exact ⟨Nat.zero_lt_two, Nat.two_pos, (by decide : (0 : UInt16) ≠ 65535),
      fun isC => by cases isC⟩
  · exact ⟨Nat.one_lt_two, Nat.one_pos, (by decide : (0 : UInt16) ≠ 65535),
      fun isC => by cases isC⟩

theorem unreachedWord_withinInts : WithinInts (fun _ _ => 0) unreachedWord := by
  have costs (_rid _lid : UInt16) (x : Nat) : |(0 : Int)| + |(unreachedWord.node x).wcost| ≤ 100 := by
    match x with
    | 0 | 1 | 2 | 3 => decide
    | x + 4 => exact (by decide : |(0 : Int)| + |(0 : Int)| ≤ 100)
  exact withinInts_of_short unreachedWord_wellFormed costs (by decide) (by decide)

/-- A word without a path in front of the end of the sentence: the plain search finds the only
path, at its cost of 100, and the search for predictions a cost of zero and no path. -/
theorem unreachedWord_differs :
    (WithinInts (fun _ _ => 0) unreachedWord ∧
      ∀ node ∈ unreachedWord.nodes, node.constrainedPrev = none) ∧
    (viterbi (fun _ _ => 0) (fun _ => 0) unreachedWord oneSegment freshLinks).map
        (fun result => (result.1, bestCost unreachedWord result.2 unreachedWord.eosNode))
      = some (true, some 100) ∧
    (predictionViterbi (fun _ _ => 0) unreachedWord oneSegment freshLinks).map
        (fun result => (result.1, bestCost unreachedWord result.2 unreachedWord.eosNode))
      = some (false, some 0) ∧
    ¬SameBestCosts (fun _ _ => 0) (fun _ => 0) unreachedWord oneSegment := by
  have plain : (viterbi (fun _ _ => 0) (fun _ => 0) unreachedWord oneSegment freshLinks).map
      (fun result => (result.1, bestCost unreachedWord result.2 unreachedWord.eosNode))
        = some (true, some 100) := by decide +kernel
  have prediction : (predictionViterbi (fun _ _ => 0) unreachedWord oneSegment freshLinks).map
      (fun result => (result.1, bestCost unreachedWord result.2 unreachedWord.eosNode))
        = some (false, some 0) := by decide +kernel
  refine ⟨⟨unreachedWord_withinInts, by decide⟩, plain, prediction, ?_⟩
  rintro ⟨found, links, found', links', isViterbi, isPrediction, same⟩
  have atEnd := same unreachedWord_wellFormed.eos_mem
  rw [isViterbi] at plain
  rw [isPrediction] at prediction
  rw [(Prod.mk.inj (Option.some.inj plain)).2, (Prod.mk.inj (Option.some.inj prediction)).2] at atEnd
  exact absurd atEnd (by decide)

end Mozkey.Converter
