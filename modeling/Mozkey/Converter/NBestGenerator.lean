import Mozkey.Converter.LinkedPath

/-!
# Generating the best paths

After a search the generator enumerates paths between two nodes of the path that was found.  It goes
from the right to the left, and takes the cheapest of the unfinished paths first; what the rest of a
path costs is known from the search.  The first candidate is not made from such a path, but from the
links of the search.

A candidate costs its words and transitions, and the transitions to what stands around it.  For a
candidate of the first inner segment only, the transition behind it does not count.

Costs are integers.  Grammatical boundaries are a function of two ids, as transition costs are.
-/

namespace Mozkey.Converter

namespace NBestGenerator

/-! ## What is read -/

inductive NodeType
  | norNode
  | bosNode
  | eosNode
  | conNode
  | hisNode
  deriving DecidableEq, Repr

/-- What the generator reads of a node beside its ids, positions and costs. -/
structure NodeText where
  nodeType : NodeType := .norNode
  key : ByteString := []
  startsWithParticle : Bool := false
  deriving DecidableEq, Repr

inductive BoundaryCheckMode
  | strict
  | onlyMid
  | onlyEdge
  deriving DecidableEq, Repr

structure Options where
  boundaryMode : BoundaryCheckMode := .strict
  buildFromOnlyFirstInnerSegment : Bool := false
  deriving DecidableEq, Repr

/-- `log prob of 1/1000`. -/
def kCostDiff : Int := 3453
def kWeakConnectedPenalty : Int := 3453
def kInvalidPenaltyCost : Int := 100000

/-- A generator that was reset: what it refers to, and the nodes and options that it was given. -/
structure Generator where
  lattice : Lattice
  links : Links
  text : Nat → NodeText
  /-- The costs of `Connector`. -/
  transition : UInt16 → UInt16 → Int
  /-- The boundaries of `Segmenter`. -/
  boundary : UInt16 → UInt16 → Bool
  beginNode : Nat
  endNode : Nat
  options : Options

/-- An element of the queue, without the one behind it. -/
structure QueueCell where
  node : Nat
  fx : Int
  gx : Int
  structureGx : Int
  wGx : Int
  deriving DecidableEq, Repr

/-- `QueueElement`: an element, followed by what `next` leads to. -/
abbrev QueueElement := List QueueCell

inductive BoundaryCheckResult
  | valid
  | validWeakConnected
  | invalid
  deriving DecidableEq, Repr

/-- The costs of a candidate, and the nodes that it is made of. -/
structure CandidateCosts where
  cost : Int
  structureCost : Int
  wcost : Int
  nodes : List Nat
  deriving DecidableEq, Repr

def isAsciiAlpha (c : UInt8) : Bool := (65 ≤ c && c ≤ 90) || (97 ≤ c && c ≤ 122)

section
variable (G : Generator)

namespace Generator

def node (x : Nat) : Node := G.lattice.node x
def cost (x : Nat) : Int := (G.links x).cost

/-! ## Boundaries -/

def isBetweenAlphabetKeys (lnode rnode : Nat) : Bool :=
  ((G.text lnode).key.getLast?).any isAsciiAlpha && ((G.text rnode).key.head?).any isAsciiAlpha

/-- `Segmenter::IsBoundary`. -/
def isBoundary (lnode rnode : Nat) (isSingleSegment : Bool) : Bool :=
  if (G.text lnode).nodeType = .bosNode ∨ (G.text rnode).nodeType = .eosNode then true
  else if isSingleSegment then false
  else if (G.text lnode).startsWithParticle then false
  else G.boundary (G.node lnode).rid (G.node rnode).lid

/-- `is_boundary` of the checks. -/
def isGrammarBoundary (lnode rnode : Nat) (isSingleSegment : Bool) : Bool :=
  (G.text lnode).nodeType = .hisNode || G.isBoundary lnode rnode isSingleSegment

def checkOnlyMid (lnode rnode : Nat) (isEdge : Bool) : BoundaryCheckResult :=
  let isBoundary := G.isGrammarBoundary lnode rnode false
  if !isEdge && isBoundary then .invalid
  else if isEdge && !isBoundary then .validWeakConnected
  else .valid

def checkOnlyEdge (lnode rnode : Nat) (isEdge : Bool) : BoundaryCheckResult :=
  if isEdge ≠ G.isGrammarBoundary lnode rnode true then .invalid else .valid

def checkStrict (lnode rnode : Nat) (isEdge : Bool) : BoundaryCheckResult :=
  if isEdge ≠ G.isGrammarBoundary lnode rnode false then .invalid else .valid

def boundaryCheck (lnode rnode : Nat) (isEdge : Bool) : BoundaryCheckResult :=
  if (G.text rnode).nodeType = .conNode ∨ (G.text lnode).nodeType = .conNode then .valid
  else if G.isBetweenAlphabetKeys lnode rnode then .invalid
  else
    match G.options.boundaryMode with
    | .strict => G.checkStrict lnode rnode isEdge
    | .onlyMid => G.checkOnlyMid lnode rnode isEdge
    | .onlyEdge => G.checkOnlyEdge lnode rnode isEdge

def getTransitionCost (lnode rnode : Nat) : Int :=
  match (G.node rnode).constrainedPrev with
  | some constrainedPrev =>
      if lnode ≠ constrainedPrev then kInvalidPenaltyCost
      else G.transition (G.node lnode).rid (G.node rnode).lid
  | none => G.transition (G.node lnode).rid (G.node rnode).lid

/-! ## The queue -/

/-- `Reset`: the elements that are pushed. -/
def reset : List QueueElement :=
  let endNode := G.endNode
  ((G.lattice.beginNodes (G.node endNode).beginPos).filter fun node =>
    node = endNode ∨ ((G.node node).lid ≠ (G.node endNode).lid ∧
      |G.cost node - G.cost endNode| ≤ kCostDiff ∧ (G.links node).prev ≠ (G.links endNode).prev)).map
    fun node => [⟨node, G.cost node, 0, 0, 0⟩]

def isRightEdge (rnode : Nat) : Bool := (G.node rnode).beginPos = (G.node G.endNode).beginPos
def isLeftEdge (rnode : Nat) : Bool := (G.node rnode).beginPos = (G.node G.beginNode).endPos

/-- The search reached the node that it goes to. -/
def isGoal (rnode : Nat) : Bool := (G.node rnode).endPos = (G.node G.beginNode).endPos

/-- What an element costs more when it is expanded. -/
structure CostDiff where
  cost : Int
  structureCost : Int
  wcost : Int

def costDiff (lnode rnode : Nat) : CostDiff :=
  let transitionCost := G.getTransitionCost lnode rnode
  if G.isRightEdge rnode then ⟨transitionCost + (G.cost rnode - G.cost G.endNode), 0, 0⟩
  else if G.isLeftEdge rnode then
    ⟨transitionCost + (G.node rnode).wcost + (G.cost lnode - G.cost G.beginNode), 0,
      (G.node rnode).wcost⟩
  else
    ⟨transitionCost + (G.node rnode).wcost, transitionCost, transitionCost + (G.node rnode).wcost⟩

def CostDiff.penalize (diff : CostDiff) : CostDiff :=
  ⟨diff.cost + kWeakConnectedPenalty, diff.structureCost + kWeakConnectedPenalty / 2,
    diff.wcost + kWeakConnectedPenalty / 2⟩

/-- One turn of the loop of `Next` over the nodes on the left: the element that is made. -/
def expandTo (top : QueueCell) (lnode : Nat) : Option QueueCell :=
  let rnode := top.node
  let isEdge := G.isRightEdge rnode || G.isLeftEdge rnode
  if (G.node lnode).beginPos < (G.node G.beginNode).endPos ∧
      (G.node G.beginNode).endPos < (G.node lnode).endPos then none
  else if G.isLeftEdge rnode ∧ ¬ G.cost lnode - G.cost G.beginNode ≤ kCostDiff then none
  else if G.isLeftEdge rnode ∧ (G.node lnode).rid = (G.node G.beginNode).rid ∧
      lnode ≠ G.beginNode then none
  else
    let make (diff : CostDiff) : QueueCell :=
      let gx := diff.cost + top.gx
      ⟨lnode, G.cost lnode + gx, gx, diff.structureCost + top.structureGx, diff.wcost + top.wGx⟩
    match G.boundaryCheck lnode rnode isEdge with
    | .invalid => none
    | .validWeakConnected => some (make (G.costDiff lnode rnode).penalize)
    | .valid => some (make (G.costDiff lnode rnode))

/-- `best_left_elm`: the first cheapest element. -/
def bestLeftElement (elements : List QueueCell) : Option QueueCell :=
  elements.foldl (fun best element =>
    match best with
    | none => some element
    | some best => if best.fx > element.fx then some element else some best) none

/-- The elements that `Next` pushes for an element that it took. -/
def expand (top : QueueCell) : List QueueCell :=
  let elements := (G.lattice.endNodes (G.node top.node).beginPos).filterMap (G.expandTo top)
  if G.isLeftEdge top.node then (bestLeftElement elements).toList else elements

/-- The queue in a run of `Next`, called again and again: a cheapest element is taken, and it is
either complete or it is expanded. -/
inductive Queue : List QueueElement → Prop
  | reset : Queue G.reset
  | next {queue rest : List QueueElement} {top : QueueCell} {behind : List QueueCell}
      (before : Queue queue) (takes : queue.Perm ((top :: behind) :: rest))
      (least : ∀ other ∈ rest, ∀ cell ∈ other.head?, top.fx ≤ cell.fx) :
      Queue (rest ++ if G.isGoal top.node then []
        else (G.expand top).map fun element => element :: top :: behind)

/-- A complete path that a run of the search takes out of its queue. -/
def Generates (element : QueueElement) : Prop :=
  ∃ queue rest top behind, G.Queue queue ∧ queue.Perm (element :: rest) ∧
    element = top :: behind ∧ (∀ other ∈ rest, ∀ cell ∈ other.head?, top.fx ≤ cell.fx) ∧
    G.isGoal top.node

/-! ## Candidates -/

/-- The loop of `MakeCandidateFromElement` over the nodes of the first inner segment: these, and the
element at which it stops. -/
def firstInnerSegment : List QueueCell → Option (List Nat × QueueCell)
  | [] => none
  | [elm] => some ([], elm)
  | elm :: next :: rest =>
      if G.isBetweenAlphabetKeys elm.node next.node then none
      else if G.isBoundary elm.node next.node false then some ([elm.node], elm)
      else (firstInnerSegment (next :: rest)).map fun (nodes, last) => (elm.node :: nodes, last)

/-- `MakeCandidateFromElement`; `none` for a bad candidate. -/
def makeCandidateFromElement : QueueElement → Option CandidateCosts
  | [] => none
  | [_] => none
  | element :: next =>
      if G.options.buildFromOnlyFirstInnerSegment then
        (G.firstInnerSegment next).map fun (nodes, elm) =>
          ⟨element.gx - elm.gx, element.structureGx - elm.structureGx, element.wGx - elm.wGx, nodes⟩
      else some ⟨element.gx, element.structureGx, element.wGx, (next.dropLast).map QueueCell.node⟩

/-- The nodes from one on and before the last node of the range, along the links. -/
def nodesFrom : Nat → Nat → Option (List Nat)
  | 0, _ => none
  | fuel + 1, x =>
      if x = G.endNode then some []
      else
        match (G.links x).next with
        | none => none
        | some next => (nodesFrom fuel next).map (x :: ·)

/-- The nodes that are next to each other with alphabetical keys. -/
def joinsAlphabetKeys : List Nat → Bool
  | x :: y :: rest => G.isBetweenAlphabetKeys x y || joinsAlphabetKeys (y :: rest)
  | _ => false

/-- The nodes up to the first inner boundary. -/
def upToBoundary : List Nat → List Nat
  | x :: y :: rest => if G.isBoundary x y false then [x] else x :: upToBoundary (y :: rest)
  | nodes => nodes

def wcosts (nodes : List Nat) : Int := (nodes.map fun x => (G.node x).wcost).sum

/-- `MakeCandidateFromBestPath`; `none` when it gives up, or when the links do not lead to the last
node. -/
def makeCandidateFromBestPath (fuel : Nat) : Option CandidateCosts := do
  let first ← (G.links G.beginNode).next
  let topNodes ← G.nodesFrom fuel first
  if G.joinsAlphabetKeys topNodes then none
  let totalWcost := G.wcosts topNodes.tail
  let prev ← (G.links G.endNode).prev
  some ⟨G.cost G.endNode - (G.node G.endNode).wcost - G.cost G.beginNode,
    G.cost prev - G.cost first - totalWcost,
    G.cost prev - G.cost first + (G.node first).wcost, topNodes⟩

/-- `MakePrefixCandidateFromBestPath`; `none` when the links do not lead to the last node. -/
def makePrefixCandidateFromBestPath (fuel : Nat) : Option CandidateCosts := do
  let first ← (G.links G.beginNode).next
  let nodes ← G.nodesFrom fuel first
  let topNodes := G.upToBoundary nodes
  let totalExtraWcost := G.wcosts topNodes.tail
  let back ← topNodes.getLast?
  some ⟨G.cost back, G.cost back - G.cost first - totalExtraWcost,
    G.cost back - G.cost first + (G.node first).wcost, topNodes⟩

/-- The first candidate of `InsertTopResult`. -/
def topCandidate (fuel : Nat) : Option CandidateCosts :=
  if G.options.buildFromOnlyFirstInnerSegment then G.makePrefixCandidateFromBestPath fuel
  else G.makeCandidateFromBestPath fuel

end Generator

end

end NBestGenerator

end Mozkey.Converter
