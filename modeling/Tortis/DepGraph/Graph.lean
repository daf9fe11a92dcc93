import Tortis.Lib.Outcome
import Mathlib.Data.List.Dedup

/-!
# Dependency graphs

The graph of the previous session (`librustc/dep_graph/serialized.rs`, `prev.rs`), the graph of the
current one and the colours of the previous nodes (`librustc/dep_graph/graph.rs`). The maps are lists
of pairs; the sharding and the locks are left out, as one thread runs.
-/

namespace Tortis.DepGraph

open Outcome List

abbrev Fingerprint := UInt64 × UInt64

def Fingerprint.ZERO : Fingerprint := (0, 0)

/-- `DepKind`: the kinds that are told apart, and the others by their number. -/
inductive DepKind where
  | hir
  | hirBody
  | crateMetadata
  | other (number : Nat) (evalAlways : Bool)
deriving DecidableEq

def DepKind.isEvalAlways : DepKind → Bool
  | .hir | .hirBody | .crateMetadata => true
  | .other _ evalAlways => evalAlways

/-- The kinds whose nodes are allocated in advance. -/
def DepKind.isPreallocated : DepKind → Bool
  | .hir | .hirBody | .crateMetadata => true
  | .other _ _ => false

structure DepNode where
  kind : DepKind
  hash : Fingerprint
deriving DecidableEq

/-! ## The previous session -/

structure SerializedDepGraph where
  nodes : List DepNode
  fingerprints : List Fingerprint
  edgeListIndices : List (Nat × Nat)
  edgeListData : List Nat

/-- `vec[index]`. -/
def index {α : Type} (vec : List α) (i : Nat) : Outcome α :=
  expect "index out of bounds" vec[i]?

def SerializedDepGraph.edgeTargetsFrom (self : SerializedDepGraph) (source : Nat) :
    Outcome (List Nat) := do
  let targets ← index self.edgeListIndices source
  assert (targets.1 ≤ targets.2 && targets.2 ≤ self.edgeListData.length)
    "slice index out of range"
  .ok ((self.edgeListData.take targets.2).drop targets.1)

/-- `PreviousDepGraph`. In `index` the last pair of a node comes first. -/
structure PreviousDepGraph where
  data : SerializedDepGraph
  index : List (DepNode × Nat)

namespace PreviousDepGraph

def new (data : SerializedDepGraph) : PreviousDepGraph := ⟨data, data.nodes.zipIdx.reverse⟩

def edgeTargetsFrom (self : PreviousDepGraph) (depNodeIndex : Nat) : Outcome (List Nat) :=
  self.data.edgeTargetsFrom depNodeIndex

section
variable (self : PreviousDepGraph)

def indexToNode (depNodeIndex : Nat) : Outcome DepNode :=
  DepGraph.index self.data.nodes depNodeIndex

def nodeToIndexOpt (depNode : DepNode) : Option Nat :=
  self.index.lookup depNode

def fingerprintByIndex (depNodeIndex : Nat) : Outcome Fingerprint :=
  DepGraph.index self.data.fingerprints depNodeIndex

/-- `PreviousDepGraph::node_count`: the number of pairs of the map. -/
def nodeCount : Nat := (self.index.map Prod.fst).dedup.length

end

end PreviousDepGraph

/-! ## The current session -/

structure DepNodeData where
  node : DepNode
  edges : List Nat
  fingerprint : Fingerprint

/-- `DepNodeIndex::MAX_AS_U32`. -/
def MAX_INDEX : Nat := 0xFFFF_FF00

structure CurrentDepGraph where
  data : List DepNodeData
  nodeToNodeIndex : List (DepNode × Nat)

namespace CurrentDepGraph

def new : CurrentDepGraph := ⟨[], []⟩

section
variable (self : CurrentDepGraph)

def get (depNode : DepNode) : Option Nat :=
  self.nodeToNodeIndex.lookup depNode

def internNode (depNode : DepNode) (edges : List Nat)
    (fingerprint : Fingerprint) : Outcome (Nat × CurrentDepGraph) :=
  match self.get depNode with
  | some depNodeIndex => .ok (depNodeIndex, self)
  | none => do
    let depNodeIndex := self.data.length
    assert (depNodeIndex ≤ MAX_INDEX) "assertion failed: value <= 0xFFFF_FF00"
    .ok (depNodeIndex, ⟨self.data ++ [⟨depNode, edges, fingerprint⟩],
      (depNode, depNodeIndex) :: self.nodeToNodeIndex⟩)

def allocNode (depNode : DepNode) (edges : List Nat)
    (fingerprint : Fingerprint) : Outcome (Nat × CurrentDepGraph) := do
  assert (self.get depNode).isNone "assertion failed: !contains_key(&dep_node)"
  self.internNode depNode edges fingerprint

end

end CurrentDepGraph

/-! ## Colours -/

inductive DepNodeColor where
  | red
  | green (index : Nat)
deriving DecidableEq

def COMPRESSED_NONE : Nat := 0

def COMPRESSED_RED : Nat := 1

def COMPRESSED_FIRST_GREEN : Nat := 2

/-- The colour a value stands for. -/
def decode (value : Nat) : Option DepNodeColor :=
  if value = COMPRESSED_NONE then none
  else if value = COMPRESSED_RED then some .red
  else some (.green (value - COMPRESSED_FIRST_GREEN))

/-- The value that stands for a colour. -/
def encode : DepNodeColor → Nat
  | .red => COMPRESSED_RED
  | .green index => index + COMPRESSED_FIRST_GREEN

structure DepNodeColorMap where
  values : List Nat

namespace DepNodeColorMap

def new (size : Nat) : DepNodeColorMap := ⟨replicate size COMPRESSED_NONE⟩

def get (self : DepNodeColorMap) (i : Nat) : Outcome (Option DepNodeColor) := do
  let value ← index self.values i
  .ok (decode value)

def insert (self : DepNodeColorMap) (i : Nat) (color : DepNodeColor) : Outcome DepNodeColorMap := do
  let _ ← index self.values i
  .ok ⟨self.values.set i (encode color)⟩

end DepNodeColorMap

/-- `DepGraphData`, but for the graph of the previous session. -/
structure DepGraphData where
  current : CurrentDepGraph
  colors : DepNodeColorMap

/-! ## Lemmas -/

theorem index_eq_ok {α : Type} {vec : List α} {i : Nat} {a : α} :
    index vec i = .ok a ↔ vec[i]? = some a := expect_eq_ok

theorem decode_encode (color : DepNodeColor) : decode (encode color) = some color := by
  cases color with
  | red => rfl
  | green i =>
    rw [decode, encode, COMPRESSED_FIRST_GREEN, if_neg (by rw [COMPRESSED_NONE]; omega),
      if_neg (by rw [COMPRESSED_RED]; omega), Nat.add_sub_cancel]

section
variable {self colors : DepNodeColorMap} {i j : Nat} {color : DepNodeColor}

theorem get_new {size : Nat} {c : Option DepNodeColor}
    (h : (DepNodeColorMap.new size).get i = .ok c) : c = none := by
  obtain ⟨value, hvalue, hc⟩ := bind_eq_ok.1 h
  obtain rfl := eq_of_mem_replicate (mem_of_getElem? (index_eq_ok.1 hvalue))
  cases hc
  rfl

theorem get_insert_self (h : self.insert i color = .ok colors) :
    colors.get i = .ok (some color) := by
  obtain ⟨value, hvalue, hc⟩ := bind_eq_ok.1 h
  cases hc
  have hlt := (List.getElem?_eq_some_iff.1 (index_eq_ok.1 hvalue)).1
  rw [DepNodeColorMap.get, index_eq_ok.2 (List.getElem?_set_self hlt), ok_bind, decode_encode]

theorem get_insert_ne (h : self.insert i color = .ok colors) (hne : i ≠ j) :
    colors.get j = self.get j := by
  obtain ⟨value, hvalue, hc⟩ := bind_eq_ok.1 h
  cases hc
  rw [DepNodeColorMap.get, DepNodeColorMap.get, index, index, getElem?_set_ne hne]

end

section
variable {self current : CurrentDepGraph} {depNode : DepNode} {edges : List Nat}
  {fingerprint : Fingerprint} {i : Nat}

theorem internNode_new (hnew : self.get depNode = none)
    (h : self.internNode depNode edges fingerprint = .ok (i, current)) :
    i = self.data.length ∧ current.data = self.data ++ [⟨depNode, edges, fingerprint⟩] ∧
      (current.get depNode = some i) ∧ ∀ n, n ≠ depNode → current.get n = self.get n := by
  rw [CurrentDepGraph.internNode, hnew] at h
  obtain ⟨-, -, hok⟩ := bind_eq_ok.1 h
  cases hok
  refine ⟨rfl, rfl, ?_, fun n hn => ?_⟩
  · rw [CurrentDepGraph.get, lookup_cons_self]
  · rw [CurrentDepGraph.get, CurrentDepGraph.get, lookup_cons]
    rw [beq_eq_false_iff_ne.2 hn]

theorem allocNode_new (h : self.allocNode depNode edges fingerprint = .ok (i, current)) :
    self.get depNode = none ∧ self.internNode depNode edges fingerprint = .ok (i, current) := by
  obtain ⟨_, hassert, hintern⟩ := bind_eq_ok.1 h
  exact ⟨Option.isNone_iff_eq_none.1 (assert_eq_ok.1 hassert), hintern⟩

end

end Tortis.DepGraph
