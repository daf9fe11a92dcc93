import Tortis.Lib.Search

/-!
# Strongly connected components

`librustc_data_structures/graph/scc/mod.rs`: a depth-first search numbers the strongly connected
components of a graph. A node that is being visited is marked with its depth on the stack; when a
node can reach one further down the stack it is left to the cycle of that one, which it points to
(`InCycleWith`), and `find_state` follows and shortens these pointers as a union-find structure
does. The nodes are indices, and so are the components.
-/

namespace Tortis

/-- A graph over the nodes below `numNodes`: `DirectedGraph`, `WithNumNodes`, `WithSuccessors`. -/
structure DirectedGraph where
  numNodes : Nat
  successors : Nat → Outcome (List Nat)

namespace Scc

inductive NodeState where
  | notVisited
  | beingVisited (depth : Nat)
  | inCycle (sccIndex : Nat)
  | inCycleWith (parent : Nat)

inductive WalkReturn where
  | cycle (minDepth : Nat)
  | complete (sccIndex : Nat)

/-! ## The data about the components -/

structure SccData where
  /-- For each component, the range of `allSuccessors` where its successors are. -/
  ranges : List (Nat × Nat)
  allSuccessors : List Nat

namespace SccData

def len (d : SccData) : Nat := d.ranges.length

def successors (d : SccData) (scc : Nat) : Outcome (List Nat) := do
  let (start, stop) ← Outcome.expect "index out of bounds" d.ranges[scc]?
  .ok ((d.allSuccessors.take stop).drop start)

def createScc (d : SccData) (successors : List Nat) : Nat × SccData :=
  let allSuccessors := d.allSuccessors ++ successors
  (d.ranges.length, ⟨d.ranges ++ [(d.allSuccessors.length, allSuccessors.length)], allSuccessors⟩)

end SccData

/-! ## The construction -/

/-- `SccsConstruction`. Its duplicate set is cleared before each use, see `deduplicated`. -/
structure SccsConstruction where
  nodeStates : List NodeState
  /-- The nodes that are being visited, by their depth. -/
  nodeStack : List Nat
  successorsStack : List Nat
  sccData : SccData

/-- The filter by `duplicate_set.insert`: what is new, in order. -/
def deduplicated (duplicateSet : FxHashSet Nat) : List Nat → List Nat
  | [] => []
  | i :: l =>
    if i ∈ duplicateSet then deduplicated duplicateSet l
    else i :: deduplicated (duplicateSet.insert i) l

namespace SccsConstruction

def setState (c : SccsConstruction) (node : Nat) (state : NodeState) : SccsConstruction :=
  { c with nodeStates := c.nodeStates.set node state }

/-- `find_state`. The fuel bounds the length of the chain of parents. -/
def findState : Nat → Nat → SccsConstruction → Outcome (NodeState × SccsConstruction)
  | 0, _, _ => .error .outOfFuel
  | n + 1, r, c => do
    let state ← Outcome.expect "index out of bounds" c.nodeStates[r]?
    match state with
    | .inCycle sccIndex => .ok (.inCycle sccIndex, c)
    | .beingVisited depth => .ok (.beingVisited depth, c)
    | .notVisited => .ok (.notVisited, c)
    | .inCycleWith parent => do
      let (parentState, c) ← findState n parent c
      match parentState with
      | .inCycle sccIndex => .ok (.inCycle sccIndex, c.setState r (.inCycle sccIndex))
      | .beingVisited depth => do
        let parent ← Outcome.expect "index out of bounds" c.nodeStack[depth]?
        .ok (.beingVisited depth, c.setState r (.inCycleWith parent))
      | .notVisited | .inCycleWith _ => .error (.panic "invalid parent state")

/-- The part of `walk_unvisited_node` before its loop: `node` is pushed onto the stack. -/
def push (c : SccsConstruction) (depth node : Nat) : SccsConstruction :=
  { c.setState node (.beingVisited depth) with nodeStack := c.nodeStack ++ [node] }

end SccsConstruction

/-- The variables of the loop in `walk_unvisited_node`. -/
structure Walk where
  minDepth : Nat
  minCycleRoot : Nat
  this : SccsConstruction

/-- A function that walks a node at a depth. -/
abbrev Walker := Nat → Nat → SccsConstruction → Outcome (WalkReturn × SccsConstruction)

/-- The body of the loop in `walk_unvisited_node`. -/
def walkSuccessor (walkNode : Walker) (depth : Nat) (w : Walk) (successorNode : Nat) :
    Outcome Walk := do
  match ← walkNode (depth + 1) successorNode w.this with
  | (.cycle successorMinDepth, this) => do
    Outcome.assert (successorMinDepth ≤ depth) "assertion failed: successor_min_depth <= depth"
    if successorMinDepth < w.minDepth then .ok ⟨successorMinDepth, successorNode, this⟩
    else .ok { w with this := this }
  | (.complete successorSccIndex, this) =>
    .ok { w with this :=
      { this with successorsStack := this.successorsStack ++ [successorSccIndex] } }

/-- The part of `walk_unvisited_node` after its loop. -/
def finishNode (depth node successorsLen : Nat) (w : Walk) :
    Outcome (WalkReturn × SccsConstruction) := do
  Outcome.assert (w.this.nodeStack.getLast? = some node) "assertion failed: `(left == right)`"
  let c := { w.this with nodeStack := w.this.nodeStack.dropLast }
  if w.minDepth = depth then do
    Outcome.assert (successorsLen ≤ c.successorsStack.length) "slice index starts past the end"
    let (sccIndex, sccData) :=
      c.sccData.createScc (deduplicated ∅ (c.successorsStack.drop successorsLen))
    let c := { c with successorsStack := c.successorsStack.take successorsLen, sccData := sccData }
    .ok (.complete sccIndex, c.setState node (.inCycle sccIndex))
  else .ok (.cycle w.minDepth, c.setState node (.inCycleWith w.minCycleRoot))

/-- `walk_unvisited_node`, with the function that walks the successors. -/
def walkUnvisitedNode (graph : DirectedGraph) (walkNode : Walker) : Walker :=
  fun depth node c => do
    let successors ← graph.successors node
    let w ← successors.foldlM (walkSuccessor walkNode depth) ⟨depth, node, c.push depth node⟩
    finishNode depth node c.successorsStack.length w

def walkNode (graph : DirectedGraph) : Nat → Walker
  | 0, _, _, _ => .error .outOfFuel
  | n + 1, depth, node, c => do
    match ← c.findState graph.numNodes node with
    | (.inCycle sccIndex, c) => .ok (.complete sccIndex, c)
    | (.beingVisited minDepth, c) => .ok (.cycle minDepth, c)
    | (.notVisited, c) => walkUnvisitedNode graph (walkNode graph n) depth node c
    | (.inCycleWith _, _) =>
      .error (.panic "`find_state` returned `InCycleWith`, which ought to be impossible")

def constructNode (graph : DirectedGraph) (st : List Nat × SccsConstruction) (node : Nat) :
    Outcome (List Nat × SccsConstruction) := do
  match ← walkNode graph (graph.numNodes + 1) 0 node st.2 with
  | (.complete sccIndex, c) => .ok (st.1 ++ [sccIndex], c)
  | (.cycle _, _) => .error (.panic "`walk_node` returned cycle")

end Scc

structure Sccs where
  sccIndices : List Nat
  sccData : Scc.SccData

namespace Sccs

/-- `SccsConstruction::construct`. -/
def new (graph : DirectedGraph) : Outcome Sccs := do
  let init : Scc.SccsConstruction :=
    ⟨List.replicate graph.numNodes .notVisited, [], [], ⟨[], []⟩⟩
  let (sccIndices, c) ← (List.range graph.numNodes).foldlM (Scc.constructNode graph) ([], init)
  .ok ⟨sccIndices, c.sccData⟩

def numSccs (sccs : Sccs) : Nat := sccs.sccData.len

def scc (sccs : Sccs) (r : Nat) : Outcome Nat :=
  Outcome.expect "index out of bounds" sccs.sccIndices[r]?

def successors (sccs : Sccs) (scc : Nat) : Outcome (List Nat) := sccs.sccData.successors scc

end Sccs

end Tortis
