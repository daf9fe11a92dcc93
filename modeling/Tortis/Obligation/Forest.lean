import Tortis.Lib.FxHash
import Tortis.Lib.Outcome

/-!
# The obligation forest

`librustc_data_structures/obligation_forest/mod.rs`: the obligations that are not resolved yet are
the nodes of a forest, and each node knows the nodes that depend on it. `process_obligations` asks a
processor about each pending node, spreads what it has found over the dependents, and `compress`
takes the nodes that are done or in error out of the forest.

A node of the model has a number (`serial`), and a forest has a `History`. No function reads them:
they are what the results say the identity and the past of a node with. The vector that `compress`
reuses is empty between its calls and is left out, and the counter of trees does not overflow.
-/

namespace Tortis.Obligation

class ForestObligation (O : Type) (P : outParam Type) where
  asPredicate : O → P

export ForestObligation (asPredicate)

inductive ProcessResult (O E : Type) where
  | unchanged
  | changed (children : List O)
  | error (err : E)

/-- `ObligationProcessor`, with a state of the processor that its functions may change. -/
structure ObligationProcessor (O E σ : Type) where
  processObligation : O → σ → ProcessResult O E × O × σ
  processBackedge : List O → σ → σ

inductive NodeState where
  | pending | success | waiting | done | error
deriving DecidableEq

structure Node (O : Type) where
  obligation : O
  state : NodeState
  dependents : List Nat
  hasParent : Bool
  obligationTreeId : Nat
  /-- The number of nodes that were created before this one. -/
  serial : Nat

/-- What has happened so far. Nodes are named by their serials. -/
structure History (P : Type) where
  /-- The predicate of every node, and the node whose processing created it. -/
  created : List (P × Option Nat)
  /-- The nodes whose processing returned `Changed`, with the predicates of their children. -/
  changed : List (Nat × List P)
  /-- The second node was found to be a subobligation of the first one. -/
  found : List (Nat × Nat)
  /-- The nodes `error_at` was called for: an error was returned for them, or one of their
  children is known to have failed. -/
  failed : List Nat
  /-- The nodes that have left the forest as completed. -/
  completed : List Nat
  /-- The nodes that have left the forest as erroneous. -/
  erroneous : List Nat

structure ObligationForest (O P : Type) where
  nodes : List (Node O)
  doneCache : FxHashSet P
  activeCache : FxHashMap P Nat
  obligationTreeIdGenerator : Nat
  errorCache : FxHashMap Nat (FxHashSet P)
  history : History P

structure ForestError (O E : Type) where
  error : E
  backtrace : List O

structure ForestOutcome (O E : Type) where
  completed : Option (List O)
  errors : List (ForestError O E)
  stalled : Bool

variable {O P E σ : Type}

/-! ## States of nodes -/

def nodeAt (nodes : List (Node O)) (index : Nat) : Outcome (Node O) :=
  Outcome.expect "index out of bounds" nodes[index]?

def setState (nodes : List (Node O)) (index : Nat) (state : NodeState) : List (Node O) :=
  nodes.modify index fun node => { node with state := state }

/-- The first loop of `error_at`, which walks along the parents. -/
def walkParents : Nat → Nat → List Nat → List O → List (Node O) →
    Outcome (List Nat × List O × List (Node O))
  | 0, _, _, _, _ => .error .outOfFuel
  | n + 1, index, errorStack, trace, nodes => do
    let node ← nodeAt nodes index
    let nodes := setState nodes index .error
    let trace := trace ++ [node.obligation]
    if node.hasParent then do
      let parent ← Outcome.expect "index out of bounds" node.dependents[0]?
      walkParents n parent (errorStack ++ node.dependents.drop 1) trace nodes
    else .ok (errorStack ++ node.dependents, trace, nodes)

/-- The second loop of `error_at`. -/
def errorLoop : Nat → List Nat → List (Node O) → Outcome (List (Node O))
  | 0, _, _ => .error .outOfFuel
  | n + 1, errorStack, nodes =>
    match errorStack.getLast? with
    | none => .ok nodes
    | some index => do
      let errorStack := errorStack.dropLast
      let node ← nodeAt nodes index
      if node.state ≠ .error then
        errorLoop n (errorStack ++ node.dependents) (setState nodes index .error)
      else errorLoop n errorStack nodes

/-- The number of dependents of all nodes. -/
def dependentsLen (nodes : List (Node O)) : Nat := (nodes.map fun node => node.dependents.length).sum

/-- `error_at`: the backtrace. -/
def errorAt (index : Nat) (nodes : List (Node O)) : Outcome (List O × List (Node O)) := do
  let (errorStack, trace, nodes) ← walkParents (nodes.length + 1) index [] [] nodes
  let nodes ← errorLoop (errorStack.length + dependentsLen nodes + 1) errorStack nodes
  .ok (trace, nodes)

def markNeighborsAsWaitingFrom : Nat → Node O → List (Node O) → Outcome (List (Node O))
  | 0, _, _ => .error .outOfFuel
  | n + 1, node, nodes => node.dependents.foldlM (fun nodes index => do
    let node ← nodeAt nodes index
    match node.state with
    | .waiting | .error => .ok nodes
    | .success => markNeighborsAsWaitingFrom n node (setState nodes index .waiting)
    | .pending | .done => markNeighborsAsWaitingFrom n node nodes) nodes

/-- The first loop of `mark_as_waiting`. -/
def unmarkWaiting (nodes : List (Node O)) : List (Node O) :=
  nodes.map fun node => if node.state = .waiting then { node with state := .success } else node

def markAsWaiting (nodes : List (Node O)) : Outcome (List (Node O)) :=
  let nodes := unmarkWaiting nodes
  (List.range nodes.length).foldlM (fun nodes index => do
    let node ← nodeAt nodes index
    if node.state = .pending then markNeighborsAsWaitingFrom (nodes.length + 1) node nodes
    else .ok nodes) nodes

/-- `stack.iter().rposition(|&n| n == index)`. -/
def rposition (stack : List Nat) (index : Nat) : Option Nat :=
  (stack.reverse.findIdx? (· = index)).map fun i => stack.length - 1 - i

/-- `find_cycles_from_node`: it leaves the stack as it was. -/
def findCyclesFromNode (processor : ObligationProcessor O E σ) : Nat → List Nat → Nat →
    List (Node O) × σ → Outcome (List (Node O) × σ)
  | 0, _, _, _ => .error .outOfFuel
  | n + 1, stack, index, (nodes, s) => do
    let node ← nodeAt nodes index
    if node.state = .success then
      match rposition stack index with
      | none => do
        let (nodes, s) ← node.dependents.foldlM
          (fun st dependent => findCyclesFromNode processor n (stack ++ [index]) dependent st)
          (nodes, s)
        .ok (setState nodes index .done, s)
      | some rpos => do
        let cycle ← (stack.drop rpos).mapM (nodeAt nodes)
        .ok (nodes, processor.processBackedge (cycle.map Node.obligation) s)
    else .ok (nodes, s)

def processCycles (processor : ObligationProcessor O E σ) (nodes : List (Node O)) (s : σ) :
    Outcome (List (Node O) × σ) :=
  (List.range nodes.length).foldlM (fun st index => do
    let node ← nodeAt st.1 index
    if node.state = .success then findCyclesFromNode processor (st.1.length + 1) [] index st
    else .ok st) (nodes, s)

/-! ## Compression -/

def swapNodes (nodes : List (Node O)) (i j : Nat) : Outcome (List (Node O)) := do
  let a ← nodeAt nodes i
  let b ← nodeAt nodes j
  .ok ((nodes.set i b).set j a)

def swapRemove (l : List Nat) (i : Nat) : Outcome (List Nat) := do
  Outcome.assert (i < l.length) "swap_remove index is out of bounds"
  let last ← Outcome.unwrap l.getLast?
  .ok (l.set i last).dropLast

/-- The loop of `apply_rewrites` over the dependents of a node. -/
def rewriteDependents (nodeRewrites : List Nat) : Nat → Nat → Node O → Outcome (Node O)
  | 0, _, _ => .error .outOfFuel
  | n + 1, i, node =>
    if i < node.dependents.length then do
      let dependent ← Outcome.expect "index out of bounds" node.dependents[i]?
      let newIndex ← Outcome.expect "index out of bounds" nodeRewrites[dependent]?
      if nodeRewrites.length ≤ newIndex then do
        let dependents ← swapRemove node.dependents i
        let hasParent := if i = 0 ∧ node.hasParent = true then false else node.hasParent
        rewriteDependents nodeRewrites n i
          { node with dependents := dependents, hasParent := hasParent }
      else
        rewriteDependents nodeRewrites n (i + 1)
          { node with dependents := node.dependents.set i newIndex }
    else .ok node

/-- The closure of `active_cache.retain` in `apply_rewrites`, for an entry of the cache. -/
def retainEntry [DecidableEq P] (nodeRewrites : List Nat) (cache : FxHashMap P Nat)
    (entry : P × Nat) : Outcome (FxHashMap P Nat) := do
  let newIndex ← Outcome.expect "index out of bounds" nodeRewrites[entry.2]?
  if nodeRewrites.length ≤ newIndex then .ok cache else .ok (cache.insert entry.1 newIndex)

/-- The state of the loop in `compress`. -/
structure Compression (O P : Type) where
  forest : ObligationForest O P
  nodeRewrites : List Nat
  deadNodes : Nat
  removedDoneObligations : List O

namespace ObligationForest

def new : ObligationForest O P := ⟨[], ∅, ∅, 0, ∅, ⟨[], [], [], [], [], []⟩⟩

variable [DecidableEq P]

def applyRewrites (f : ObligationForest O P) (nodeRewrites : List Nat) :
    Outcome (ObligationForest O P) := do
  let nodes ← f.nodes.mapM fun node =>
    rewriteDependents nodeRewrites (node.dependents.length + 1) 0 node
  let activeCache ← (f.activeCache.iter .entries).foldlM (retainEntry nodeRewrites) ∅
  .ok { f with nodes := nodes, activeCache := activeCache }

variable [ForestObligation O P]

def insertIntoErrorCache (f : ObligationForest O P) (index : Nat) :
    Outcome (ObligationForest O P) := do
  let node ← nodeAt f.nodes index
  .ok { f with
    errorCache := f.errorCache.addTo node.obligationTreeId (asPredicate node.obligation) }

/-- An iteration of the loop in `compress`. -/
def compressNode (origNodesLen : Nat) (doCompleted : Bool) (c : Compression O P) (index : Nat) :
    Outcome (Compression O P) := do
  let f := c.forest
  let node ← nodeAt f.nodes index
  match node.state with
  | .pending | .waiting =>
    if 0 < c.deadNodes then do
      Outcome.assert (c.deadNodes ≤ index) "attempt to subtract with overflow"
      let nodes ← swapNodes f.nodes index (index - c.deadNodes)
      let newIndex ← Outcome.expect "index out of bounds" c.nodeRewrites[index]?
      Outcome.assert (c.deadNodes ≤ newIndex) "attempt to subtract with overflow"
      .ok { c with
        forest := { f with nodes := nodes }
        nodeRewrites := c.nodeRewrites.set index (newIndex - c.deadNodes) }
    else .ok c
  | .done =>
    let predicate := asPredicate node.obligation
    let f := match f.activeCache.get predicate with
      | some _ => { f with
          activeCache := f.activeCache.erase predicate
          doneCache := f.doneCache.insert predicate }
      | none => { f with doneCache := f.doneCache.insert predicate }
    .ok {
      forest := { f with
        history := { f.history with completed := f.history.completed ++ [node.serial] } }
      nodeRewrites := c.nodeRewrites.set index origNodesLen
      deadNodes := c.deadNodes + 1
      removedDoneObligations := if doCompleted then c.removedDoneObligations ++ [node.obligation]
        else c.removedDoneObligations }
  | .error => do
    let f := { f with activeCache := f.activeCache.erase (asPredicate node.obligation) }
    let f ← f.insertIntoErrorCache index
    .ok { c with
      forest := { f with
        history := { f.history with erroneous := f.history.erroneous ++ [node.serial] } }
      nodeRewrites := c.nodeRewrites.set index origNodesLen
      deadNodes := c.deadNodes + 1 }
  | .success => .error (.panic "internal error: entered unreachable code")

section
variable (f : ObligationForest O P)

def compress (doCompleted : Bool) :
    Outcome (Option (List O) × ObligationForest O P) := do
  let origNodesLen := f.nodes.length
  let c ← (List.range origNodesLen).foldlM (compressNode origNodesLen doCompleted)
    ⟨f, List.range origNodesLen, 0, []⟩
  let f ← if 0 < c.deadNodes then
      let f := { c.forest with nodes := c.forest.nodes.take (origNodesLen - c.deadNodes) }
      f.applyRewrites c.nodeRewrites
    else .ok c.forest
  .ok (if doCompleted then some c.removedDoneObligations else none, f)

/-! ## Registration -/

/-- `error_at` for a node of the forest. -/
def failAt (index : Nat) : Outcome (List O × ObligationForest O P) := do
  let (trace, nodes) ← errorAt index f.nodes
  let failed := f.history.failed ++ (f.nodes[index]?.map Node.serial).toList
  .ok (trace, { f with nodes := nodes, history := { f.history with failed := failed } })

/-- The update of a node that is in `active_cache` already. -/
def addDependent (index : Nat) (node : Node O) (parentIndex : Nat) : ObligationForest O P :=
  let nodes := if parentIndex ∈ node.dependents then f.nodes
    else f.nodes.set index { node with dependents := node.dependents ++ [parentIndex] }
  let found := f.history.found ++
    (f.nodes[parentIndex]?.map fun parent => (parent.serial, node.serial)).toList
  { f with nodes := nodes, history := { f.history with found := found } }

/-- The new node of `register_obligation_at`, which `Node::new` returns. -/
def pushNode (obligation : O) (parent : Option Nat) (treeId : Nat) : ObligationForest O P :=
  let serial := f.history.created.length
  let creator := parent.bind fun index => f.nodes[index]?.map Node.serial
  { f with
    nodes := f.nodes ++ [⟨obligation, .pending, parent.toList, parent.isSome, treeId, serial⟩]
    activeCache := f.activeCache.insert (asPredicate obligation) f.nodes.length
    history := { f.history with
      created := f.history.created ++ [(asPredicate obligation, creator)]
      found := f.history.found ++ (creator.map fun parent => (parent, serial)).toList } }

/-- `register_obligation_at`: whether it is an `Ok`. -/
def registerObligationAt (obligation : O) (parent : Option Nat) :
    Outcome (Bool × ObligationForest O P) :=
  if asPredicate obligation ∈ f.doneCache then .ok (true, f)
  else match f.activeCache.get (asPredicate obligation) with
    | some index => do
      let node ← nodeAt f.nodes index
      let f := match parent with
        | some parentIndex => f.addDependent index node parentIndex
        | none => f
      .ok (node.state != .error, f)
    | none => do
      let (treeId, f) ← match parent with
        | some parentIndex => do
          let parent ← nodeAt f.nodes parentIndex
          .ok (parent.obligationTreeId, f)
        | none => .ok (f.obligationTreeIdGenerator,
            { f with obligationTreeIdGenerator := f.obligationTreeIdGenerator + 1 })
      if parent.isSome = true ∧ f.errorCache.Rel treeId (asPredicate obligation) then .ok (false, f)
      else .ok (true, f.pushNode obligation parent treeId)

def registerObligation (obligation : O) :
    Outcome (ObligationForest O P) := do
  let (_, f) ← f.registerObligationAt obligation none
  .ok f

/-! ## Processing -/

/-- An iteration of the loop over the children in `process_obligations`. -/
def registerChild (index : Nat) (f : ObligationForest O P) (child : O) :
    Outcome (ObligationForest O P) := do
  let (ok, f) ← f.registerObligationAt child (some index)
  if ok then .ok f
  else do
    let (_, f) ← f.failAt index
    .ok f

/-- A node whose processing returned `Changed`. -/
def setSuccess (index : Nat) (serial : Nat) (children : List O) : ObligationForest O P :=
  { f with
    nodes := setState f.nodes index .success
    history := { f.history with
      changed := f.history.changed ++ [(serial, children.map asPredicate)] } }

end

end ObligationForest

/-- The variables of the loop in `process_obligations`, with the state of the processor. -/
structure Pass (O P E σ : Type) where
  forest : ObligationForest O P
  errors : List (ForestError O E)
  stalled : Bool
  processor : σ

variable [DecidableEq P] [ForestObligation O P]

/-- An iteration of the loop in `process_obligations`. -/
def processNode (processor : ObligationProcessor O E σ) (p : Pass O P E σ) (index : Nat) :
    Outcome (Pass O P E σ) := do
  let node ← nodeAt p.forest.nodes index
  if node.state ≠ .pending then .ok p
  else
    let (result, obligation, s) := processor.processObligation node.obligation p.processor
    let f := { p.forest with
      nodes := p.forest.nodes.set index { node with obligation := obligation } }
    match result with
    | .unchanged => .ok { p with forest := f, processor := s }
    | .changed children => do
      let f ← children.foldlM (ObligationForest.registerChild index)
        (f.setSuccess index node.serial children)
      .ok { p with forest := f, stalled := false, processor := s }
    | .error err => do
      let (backtrace, f) ← f.failAt index
      .ok ⟨f, p.errors ++ [⟨err, backtrace⟩], false, s⟩

namespace ObligationForest

section
variable (f : ObligationForest O P)

section
variable (processor : ObligationProcessor O E σ)

def processNodes (s : σ) : Outcome (Pass O P E σ) :=
  (List.range f.nodes.length).foldlM (processNode processor) ⟨f, [], true, s⟩

/-- The passes of `process_obligations` that follow the loop. -/
def markNodes (s : σ) :
    Outcome (ObligationForest O P) := do
  let nodes ← markAsWaiting f.nodes
  let (nodes, _) ← processCycles processor nodes s
  .ok { f with nodes := nodes }

def processObligations (s : σ)
    (doCompleted : Bool) : Outcome (ForestOutcome O E × ObligationForest O P) := do
  let p ← f.processNodes processor s
  if p.stalled then .ok (⟨if doCompleted then some [] else none, p.errors, p.stalled⟩, p.forest)
  else do
    let f ← p.forest.markNodes processor p.processor
    let (completed, f) ← f.compress doCompleted
    .ok (⟨completed, p.errors, p.stalled⟩, f)

end

end

/-- An iteration of the loop in `to_errors`. -/
def failPending (error : E) (st : List (ForestError O E) × ObligationForest O P) (index : Nat) :
    Outcome (List (ForestError O E) × ObligationForest O P) := do
  let (errors, f) := st
  let node ← nodeAt f.nodes index
  if node.state = .pending then do
    let (backtrace, f) ← f.failAt index
    .ok (errors ++ [⟨error, backtrace⟩], f)
  else .ok (errors, f)

/-- The loop of `to_errors`. -/
def failNodes (f : ObligationForest O P) (error : E) :
    Outcome (List (ForestError O E) × ObligationForest O P) :=
  (List.range f.nodes.length).foldlM (failPending error) ([], f)

def toErrors (f : ObligationForest O P) (error : E) :
    Outcome (List (ForestError O E) × ObligationForest O P) := do
  let (errors, f) ← f.failNodes error
  let (successfulObligations, f) ← f.compress true
  let successfulObligations ← Outcome.unwrap successfulObligations
  Outcome.assert successfulObligations.isEmpty
    "assertion failed: successful_obligations.unwrap().is_empty()"
  .ok (errors, f)

end ObligationForest

end Tortis.Obligation
