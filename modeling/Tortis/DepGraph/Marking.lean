import Tortis.DepGraph.Graph

/-!
# Marking nodes green

`try_mark_green`, `try_mark_previous_green` and `with_task` (`librustc/dep_graph/graph.rs`) as a
machine. A call of `try_mark_previous_green` calls itself, and it forces queries, which start tasks
and mark nodes in their turn: the calls that have not returned are a stack of frames, and what the
compiler does around the marking are the events. A debug assertion that fails stops the run.
-/

namespace Tortis.DepGraph

/-- The variables of a call of `try_mark_previous_green`. `prevDeps` are the dependencies that are
still to be looked at. -/
structure Marking where
  prevDepNodeIndex : Nat
  depNode : DepNode
  prevDeps : List Nat
  currentDeps : List Nat

/-- A call that has not returned. -/
inductive Frame where
  /-- `try_mark_previous_green`, at the head of its loop. -/
  | marking (call : Marking)
  /-- `try_mark_previous_green`, in the call of itself for a dependency. -/
  | recursing (call : Marking) (depDepNodeIndex : Nat)
  /-- `try_mark_previous_green`, in `force_from_dep_node` for a dependency. -/
  | forcing (call : Marking) (depDepNodeIndex : Nat)
  /-- `with_task_impl`, in its task. The reads are collected when there is a `TaskDeps`. -/
  | task (key : DepNode) (reads : Option (List Nat))

structure Session where
  data : DepGraphData
  /-- `tcx.sess.has_errors()`. -/
  hasErrors : Bool
  stack : List Frame
  /-- What the last call of `try_mark_green` returned. -/
  returned : Option (Nat × Nat)
  /-- The nodes `try_mark_previous_green` turned green. Only the proofs look at it. -/
  marked : List Nat

/-- What happens next in a session. -/
inductive Event where
  /-- `try_mark_green` is called. -/
  | tryMarkGreen (depNode : DepNode)
  /-- `with_task_impl` is called, by `with_task` when the reads are tracked. -/
  | withTask (key : DepNode) (tracked : Bool)
  /-- `read_index` is called. -/
  | readIndex (source : Nat)
  /-- The task returns, and `hash_result` gives this fingerprint. -/
  | finishTask (currentFingerprint : Option Fingerprint)
  /-- An error is reported. -/
  | error
  /-- The loop of `try_mark_previous_green` goes on. `defIdGone`: `extract_def_id` gives `None` for
  the dependency; `hasDiagnostics`: `load_diagnostics` gives some for the node. -/
  | resume (defIdGone hasDiagnostics : Bool)
  /-- `force_from_dep_node` returns. -/
  | forced (success : Bool)

namespace Session

def new (previous : PreviousDepGraph) : Session where
  data := ⟨CurrentDepGraph.new, DepNodeColorMap.new previous.nodeCount⟩
  hasErrors := false
  stack := []
  returned := none
  marked := []

/-- The loop of a call goes on. -/
def goOn (self : Session) (call : Marking) (stack : List Frame) : Session :=
  { self with stack := .marking call :: stack }

/-- A call of `try_mark_previous_green` for a previous node returns to the frames below it: to the
call for a node that depends on it, or through `try_mark_green`. -/
def returnMarking (self : Session) (prevDepNodeIndex : Nat) (nodeIndex : Option Nat) :
    List Frame → Session
  | .recursing call depDepNodeIndex :: stack =>
    match nodeIndex with
    | some nodeIndex =>
      self.goOn { call with currentDeps := call.currentDeps ++ [nodeIndex] } stack
    | none => { self with stack := .forcing call depDepNodeIndex :: stack }
  | stack => { self with stack, returned := nodeIndex.map (prevDepNodeIndex, ·) }

variable (previous : PreviousDepGraph)

section
variable (self : Session)

def tryMarkPreviousGreen (prevDepNodeIndex : Nat) (depNode : DepNode)
    (stack : List Frame) : Outcome Session := do
  Outcome.assert (self.data.current.get depNode).isNone
    "assertion failed: !contains_key(dep_node)"
  let color ← self.data.colors.get prevDepNodeIndex
  Outcome.assert color.isNone "assertion failed: data.colors.get(prev_dep_node_index).is_none()"
  Outcome.assert (!depNode.kind.isEvalAlways)
    "assertion failed: !dep_node.kind.is_eval_always()"
  let node ← previous.indexToNode prevDepNodeIndex
  Outcome.assert (node = depNode) "assertion failed: `(left == right)`"
  let prevDeps ← previous.edgeTargetsFrom prevDepNodeIndex
  .ok (self.goOn ⟨prevDepNodeIndex, depNode, prevDeps, []⟩ stack)

def tryMarkGreen (depNode : DepNode) : Outcome Session := do
  Outcome.assert (!depNode.kind.isEvalAlways)
    "assertion failed: !dep_node.kind.is_eval_always()"
  match previous.nodeToIndexOpt depNode with
  | none => .ok { self with returned := none }
  | some prevIndex => do
    match ← self.data.colors.get prevIndex with
    | some (.green depNodeIndex) => .ok { self with returned := some (prevIndex, depNodeIndex) }
    | some .red => .ok { self with returned := none }
    | none => self.tryMarkPreviousGreen previous prevIndex depNode self.stack

section
variable (call : Marking)

/-- The loop of `try_mark_previous_green` looks at a dependency that has no colour. -/
def markDependency (depDepNodeIndex : Nat) (defIdGone : Bool)
    (stack : List Frame) : Outcome Session := do
  let depDepNode ← previous.indexToNode depDepNodeIndex
  if !depDepNode.kind.isEvalAlways then
    self.tryMarkPreviousGreen previous depDepNodeIndex depDepNode
      (.recursing call depDepNodeIndex :: stack)
  else if depDepNode.kind.isPreallocated then
    if defIdGone then .ok (self.returnMarking call.prevDepNodeIndex none stack)
    else .error (.panic "DepNode should have been pre-allocated but wasn't.")
  else .ok { self with stack := .forcing call depDepNodeIndex :: stack }

/-- The body of the loop of `try_mark_previous_green`. -/
def visitDependency (depDepNodeIndex : Nat) (defIdGone : Bool)
    (stack : List Frame) : Outcome Session := do
  match ← self.data.colors.get depDepNodeIndex with
  | some (.green nodeIndex) =>
    .ok (self.goOn { call with currentDeps := call.currentDeps ++ [nodeIndex] } stack)
  | some .red => .ok (self.returnMarking call.prevDepNodeIndex none stack)
  | none => self.markDependency previous call depDepNodeIndex defIdGone stack

/-- The body of the loop of `try_mark_previous_green`, after `force_from_dep_node`. -/
def forced (depDepNodeIndex : Nat) (success : Bool) (stack : List Frame) : Outcome Session :=
  if success then do
    match ← self.data.colors.get depDepNodeIndex with
    | some (.green nodeIndex) =>
      .ok (self.goOn { call with currentDeps := call.currentDeps ++ [nodeIndex] } stack)
    | some .red => .ok (self.returnMarking call.prevDepNodeIndex none stack)
    | none =>
      if !self.hasErrors then
        .error (.panic "try_mark_previous_green() - Forcing the DepNode should have set its color")
      -- The loop goes on to the next dependency: nothing is pushed to `current_deps`.
      else .ok (self.goOn call stack)
  else .ok (self.returnMarking call.prevDepNodeIndex none stack)

/-- `emit_diagnostics`, by the colour it stores. -/
def emitDiagnostics (colors : DepNodeColorMap) (depNodeIndex prevDepNodeIndex : Nat) :
    Outcome DepNodeColorMap := do
  let color ← colors.get prevDepNodeIndex
  if color = some (.green depNodeIndex) then .ok colors
  else colors.insert prevDepNodeIndex (.green depNodeIndex)

def emitSome (colors : DepNodeColorMap) (depNodeIndex prevDepNodeIndex : Nat)
    (hasDiagnostics : Bool) : Outcome DepNodeColorMap :=
  if hasDiagnostics then emitDiagnostics colors depNodeIndex prevDepNodeIndex else .ok colors

/-- `try_mark_previous_green`, after its loop. -/
def finishMarking (hasDiagnostics : Bool) (stack : List Frame) :
    Outcome Session := do
  let fingerprint ← previous.fingerprintByIndex call.prevDepNodeIndex
  let (depNodeIndex, current) ←
    self.data.current.internNode call.depNode call.currentDeps fingerprint
  let color ← self.data.colors.get call.prevDepNodeIndex
  Outcome.assert color.isNone
    "DepGraph::try_mark_previous_green() - Duplicate DepNodeColor insertion"
  let colors ← emitSome self.data.colors depNodeIndex call.prevDepNodeIndex hasDiagnostics
  let colors ← colors.insert call.prevDepNodeIndex (.green depNodeIndex)
  let marked : Session :=
    { self with data := ⟨current, colors⟩, marked := call.prevDepNodeIndex :: self.marked }
  .ok (marked.returnMarking call.prevDepNodeIndex (some depNodeIndex) stack)

end

def taskColor (currentFingerprint : Option Fingerprint) (prevFingerprint : Fingerprint)
    (depNodeIndex : Nat) : DepNodeColor :=
  match currentFingerprint with
  | some currentFingerprint =>
    if currentFingerprint = prevFingerprint then .green depNodeIndex else .red
  | none => .red

/-- `with_task_impl`, after its task. -/
def finishTask (key : DepNode) (reads : Option (List Nat))
    (currentFingerprint : Option Fingerprint) (stack : List Frame) : Outcome Session := do
  let (depNodeIndex, current) ← self.data.current.allocNode key (reads.getD [])
    (currentFingerprint.getD Fingerprint.ZERO)
  match previous.nodeToIndexOpt key with
  | some prevIndex => do
    let prevFingerprint ← previous.fingerprintByIndex prevIndex
    let color ← self.data.colors.get prevIndex
    Outcome.assert color.isNone "DepGraph::with_task() - Duplicate DepNodeColor insertion"
    let colors ← self.data.colors.insert prevIndex
      (taskColor currentFingerprint prevFingerprint depNodeIndex)
    .ok { self with data := ⟨current, colors⟩, stack }
  | none => .ok { self with data := ⟨current, self.data.colors⟩, stack }

/-- `read_index`: the innermost task reads a node. -/
def readIndex (source : Nat) : List Frame → List Frame
  | [] => []
  | .task key (some reads) :: stack =>
    .task key (some (if source ∈ reads then reads else reads ++ [source])) :: stack
  | .task key none :: stack => .task key none :: stack
  | frame :: stack => frame :: readIndex source stack

/-- Whether the compiler's own code runs, outside the marking: in no call, in a task or in a forced
query. -/
def outside : List Frame → Bool
  | .marking _ :: _ | .recursing _ _ :: _ => false
  | _ => true

/-- The session after an event, which the top of the stack must allow. -/
def step : Event → Outcome Session
  | .tryMarkGreen depNode => do
    Outcome.assert (outside self.stack) "no such event"
    self.tryMarkGreen previous depNode
  | .withTask key tracked => do
    Outcome.assert (outside self.stack) "no such event"
    .ok { self with stack := .task key (if tracked then some [] else none) :: self.stack }
  | .readIndex source => do
    Outcome.assert (outside self.stack) "no such event"
    .ok { self with stack := readIndex source self.stack }
  | .finishTask currentFingerprint =>
    match self.stack with
    | .task key reads :: stack => self.finishTask previous key reads currentFingerprint stack
    | _ => .error (.panic "no such event")
  | .error => do
    Outcome.assert (outside self.stack) "no such event"
    .ok { self with hasErrors := true }
  | .resume defIdGone hasDiagnostics =>
    match self.stack with
    | .marking call :: stack =>
      match call.prevDeps with
      | depDepNodeIndex :: prevDeps =>
        self.visitDependency previous { call with prevDeps } depDepNodeIndex defIdGone stack
      | [] => self.finishMarking previous call hasDiagnostics stack
    | _ => .error (.panic "no such event")
  | .forced success =>
    match self.stack with
    | .forcing call depDepNodeIndex :: stack => self.forced call depDepNodeIndex success stack
    | _ => .error (.panic "no such event")

end

def run (events : List Event) : Outcome Session :=
  events.foldlM (step previous) (new previous)

end Session

end Tortis.DepGraph
