import Tortis.DataStructures.DepthFirstSearch
import Tortis.Lib.Postorder
import Mathlib.Data.Set.Card

/-!
# The graph of adjacency lists

`Graph` of `librustc_data_structures/graph/implementation/mod.rs`. An edge is in two lists, that of
the edges from its source and that of the edges to its target: a node holds the newest edge of each,
and an edge the next older one. `Graph.WF` says so by the edges themselves, in the order in which they
were added. `size_hint` of the depth-first traversal takes every node that is not marked for one
still to come: it counts the nodes that are never reached and leaves out those on the stack.
-/

namespace Tortis.Implementation

open Outcome List
open DepthFirstSearch hiding next

/-- `Direction`, whose `repr` selects one of the two indices of `[EdgeIndex; 2]`. -/
inductive Direction where
  | OUTGOING
  | INCOMING

/-- `[EdgeIndex; 2]`. -/
structure Links where
  outgoing : Nat
  incoming : Nat

def Links.get (self : Links) : Direction → Nat
  | .OUTGOING => self.outgoing
  | .INCOMING => self.incoming

structure Node (N : Type) where
  firstEdge : Links
  data : N

structure Edge (E : Type) where
  nextEdge : Links
  source : Nat
  target : Nat
  data : E

def Edge.sourceOrTarget {E : Type} (self : Edge E) : Direction → Nat
  | .OUTGOING => self.target
  | .INCOMING => self.source

structure Graph (N E : Type) where
  nodes : List (Node N)
  edges : List (Edge E)

/-- `EdgeIndex(usize::MAX)`. -/
def INVALID_EDGE_INDEX : Nat := 2 ^ 64 - 1

namespace Graph

variable {N E : Type}

def new : Graph N E := ⟨[], []⟩

section
variable (self : Graph N E)

def addNode (data : N) : Nat × Graph N E :=
  (self.nodes.length,
    { self with nodes := self.nodes ++ [⟨⟨INVALID_EDGE_INDEX, INVALID_EDGE_INDEX⟩, data⟩] })

def addEdge (source target : Nat) (data : E) : Outcome (Nat × Graph N E) := do
  let idx := self.edges.length
  let sourceNode ← expect "index out of bounds" self.nodes[source]?
  let targetNode ← expect "index out of bounds" self.nodes[target]?
  assert (idx < 2 ^ 63 - 1) "capacity overflow"
  let next := ⟨sourceNode.firstEdge.outgoing, targetNode.firstEdge.incoming⟩
  let nodes := self.nodes.modify source fun node =>
    { node with firstEdge := { node.firstEdge with outgoing := idx } }
  let nodes := nodes.modify target fun node =>
    { node with firstEdge := { node.firstEdge with incoming := idx } }
  .ok (idx, ⟨nodes, self.edges ++ [⟨next, source, target, data⟩]⟩)

/-- A call of `add_node` or `add_edge`. -/
inductive Op (N E : Type) where
  | addNode (data : N)
  | addEdge (source target : Nat) (data : E)

def Op.apply : Op N E → Outcome (Graph N E)
  | .addNode data => .ok (self.addNode data).2
  | .addEdge source target data => do
    let (_, self) ← self.addEdge source target data
    .ok self

/-- `AdjacentEdges::next`, for the index that the iterator holds. -/
def nextAdjacent (direction : Direction) (next : Nat) : Outcome (Option (Nat × Edge E) × Nat) :=
  if next = INVALID_EDGE_INDEX then .ok (none, next)
  else do
    let edge ← expect "index out of bounds" self.edges[next]?
    .ok (some (next, edge), edge.nextEdge.get direction)

/-- The edges that `AdjacentEdges` still returns. -/
def collectAdjacent (self : Graph N E) (direction : Direction) : Nat → Nat →
    Outcome (List (Nat × Edge E))
  | 0, _ => .error .outOfFuel
  | n + 1, next => do
    match ← self.nextAdjacent direction next with
    | (none, _) => return []
    | (some edge, next) => return edge :: (← collectAdjacent self direction n next)

def adjacentEdges (source : Nat) (direction : Direction) :
    Outcome (List (Nat × Edge E)) := do
  let node ← expect "index out of bounds" self.nodes[source]?
  self.collectAdjacent direction (self.edges.length + 1) (node.firstEdge.get direction)

end

end Graph

/-- `DepthFirstTraversal`; the stack has its top first. -/
structure DepthFirstTraversal where
  stack : List Nat
  visited : Index.BitSet

namespace DepthFirstTraversal

variable {N E : Type}

section
variable (graph : Graph N E)

def withStartNode (startNode : Nat) : Outcome DepthFirstTraversal := do
  let (_, visited) ← (Index.BitSet.newEmpty graph.nodes.length).insert startNode
  .ok ⟨[startNode], visited⟩

def visit (self : DepthFirstTraversal) (node : Nat) : Outcome DepthFirstTraversal := do
  let (inserted, visited) ← self.visited.insert node
  .ok ⟨if inserted then node :: self.stack else self.stack, visited⟩

def next (direction : Direction) :
    DepthFirstTraversal → Outcome (Option Nat × DepthFirstTraversal)
  | ⟨[], visited⟩ => .ok (none, ⟨[], visited⟩)
  | ⟨idx :: stack, visited⟩ => do
    let edges ← graph.adjacentEdges idx direction
    let self ← edges.foldlM (fun self p => self.visit (p.2.sourceOrTarget direction))
      ⟨stack, visited⟩
    .ok (some idx, self)

def sizeHint (self : DepthFirstTraversal) : Nat × Option Nat :=
  let remaining := graph.nodes.length - self.visited.count
  (remaining, some remaining)

end

/-- The iterator after a number of calls of `next`. -/
def after (graph : Graph N E) (direction : Direction) :
    Nat → DepthFirstTraversal → Outcome DepthFirstTraversal
  | 0, self => .ok self
  | k + 1, self => do
    let (_, self) ← self.next graph direction
    after graph direction k self

/-- The nodes that the iterator still yields. -/
def collect (graph : Graph N E) (direction : Direction) :
    Nat → DepthFirstTraversal → Outcome (List Nat)
  | 0, _ => .error .outOfFuel
  | k + 1, self => do
    match ← self.next graph direction with
    | (some n, self) => return n :: (← collect graph direction k self)
    | (none, _) => return []

end DepthFirstTraversal

/-- The variables of `nodes_in_postorder`; the stack has its top first. -/
structure Postorder where
  visited : Index.BitSet
  stack : List (Nat × Nat)
  result : List Nat

namespace Postorder

variable {N E : Type}

def pushNode (graph : Graph N E) (direction : Direction) (self : Postorder) (node : Nat) :
    Outcome Postorder := do
  let (inserted, visited) ← self.visited.insert node
  if inserted then do
    let data ← expect "index out of bounds" graph.nodes[node]?
    .ok { self with visited, stack := (node, data.firstEdge.get direction) :: self.stack }
  else .ok { self with visited }

/-- `while let Some((node, mut iter)) = stack.pop()`. -/
def drain (graph : Graph N E) (direction : Direction) : Nat → Postorder → Outcome Postorder
  | 0, _ => .error .outOfFuel
  | _ + 1, ⟨visited, [], result⟩ => .ok ⟨visited, [], result⟩
  | k + 1, ⟨visited, (node, iter) :: stack, result⟩ => do
    match ← graph.nextAdjacent direction iter with
    | (some (_, child), iter) => do
      let self ← pushNode graph direction ⟨visited, (node, iter) :: stack, result⟩
        (child.sourceOrTarget direction)
      drain graph direction k self
    | (none, _) => drain graph direction k ⟨visited, stack, result ++ [node]⟩

end Postorder

def Graph.nodesInPostorder {N E : Type} (self : Graph N E) (fuel : Nat) (direction : Direction)
    (entryNode : Nat) : Outcome (List Nat) := do
  let start := ⟨Index.BitSet.newEmpty self.nodes.length, [], []⟩
  let walk ← (entryNode :: range self.nodes.length).foldlM (fun walk node => do
    let walk ← Postorder.pushNode self direction walk node
    Postorder.drain self direction fuel walk) start
  assert (walk.result.length = self.nodes.length)
    "assertion failed: result.len() == self.len_nodes()"
  .ok walk.result

/-! ## The lists of the edges -/

section
variable {N E : Type}

/-- The endpoint in whose list of a direction the edge is. -/
def Edge.near (self : Edge E) : Direction → Nat
  | .OUTGOING => self.source
  | .INCOMING => self.target

/-- The edges of a node in a direction, with their indices, the newest first. -/
def incident (d : Direction) (n : Nat) (edges : List (Edge E)) : List (Nat × Edge E) :=
  ((edges.zipIdx.filter fun p => p.1.near d = n).map Prod.swap).reverse

/-- The index of the newest of them. -/
def newest (d : Direction) (n : Nat) (edges : List (Edge E)) : Nat :=
  ((incident d n edges).head?.map Prod.fst).getD INVALID_EDGE_INDEX

variable {d : Direction}

theorem incident_concat {n : Nat} {edges : List (Edge E)} {e : Edge E} :
    incident d n (edges ++ [e]) =
      if e.near d = n then (edges.length, e) :: incident d n edges
      else incident d n edges := by
  rw [incident, zipIdx_append, filter_append, map_append, reverse_append]
  by_cases he : e.near d = n
  · simp [he, incident]
  · simp [he, incident]

theorem newest_concat {n : Nat} {edges : List (Edge E)} {e : Edge E} : newest d n (edges ++ [e]) =
      if e.near d = n then edges.length else newest d n edges := by
  rw [newest, incident_concat]
  split
  · rfl
  · rfl

/-- What the indices of the lists are. -/
structure Graph.WF (g : Graph N E) : Prop where
  first : ∀ d n node, g.nodes[n]? = some node →
    node.firstEdge.get d = newest d n g.edges
  next : ∀ d i e, g.edges[i]? = some e →
    e.nextEdge.get d = newest d (e.near d) (g.edges.take i)
  near : ∀ d, ∀ e ∈ g.edges, e.near d < g.nodes.length
  bound : g.edges.length < 2 ^ 63

namespace Graph

variable {g g' : Graph N E} {d : Direction}

theorem wf_new : (new : Graph N E).WF where
  first _ _ _ h := by cases h
  next _ _ _ h := by cases h
  near _ _ h := by cases h
  bound := Nat.two_pow_pos 63

theorem WF.addNode (h : g.WF) (data : N) : (g.addNode data).2.WF where
  first d n node hn := by
    rcases lt_or_ge n g.nodes.length with hlt | hge
    · rw [Graph.addNode, getElem?_append_left hlt] at hn
      exact h.first d n node hn
    · rw [Graph.addNode, getElem?_append_right hge, getElem?_singleton] at hn
      split at hn
      · next hzero =>
        cases hn
        -- No edge is at the new node.
        have hnone : incident d n g.edges = [] := by
          rw [incident, reverse_eq_nil_iff, map_eq_nil_iff, filter_eq_nil_iff]
          intro p hp
          have := h.near d p.1 (fst_mem_of_mem_zipIdx hp)
          simp only [decide_eq_true_eq]
          omega
        have hnewest : newest d n g.edges = INVALID_EDGE_INDEX := by rw [newest, hnone]; rfl
        show Links.get _ d = newest d n g.edges
        rw [hnewest]
        cases d <;> rfl
      · cases hn
  next := h.next
  near d e he := by
    have := h.near d e he
    simp only [Graph.addNode, length_append, length_singleton]
    omega
  bound := h.bound

theorem WF.addEdge (h : g.WF) {source target idx : Nat} {data : E}
    (hrun : g.addEdge source target data = .ok (idx, g')) : g'.WF := by
  rw [Graph.addEdge] at hrun
  obtain ⟨sourceNode, hsource, hrun⟩ := bind_eq_ok.1 hrun
  obtain ⟨targetNode, htarget, hrun⟩ := bind_eq_ok.1 hrun
  obtain ⟨_, hassert, hrun⟩ := bind_eq_ok.1 hrun
  have hbound := of_decide_eq_true (assert_eq_ok.1 hassert)
  cases hrun
  rw [expect_eq_ok] at hsource htarget
  have hslt : source < g.nodes.length := (List.getElem?_eq_some_iff.1 hsource).1
  have htlt : target < g.nodes.length := (List.getElem?_eq_some_iff.1 htarget).1
  constructor
  case first =>
    intro d n node hn
    rw [newest_concat]
    simp only [getElem?_modify, Option.map_eq_map, Option.map_eq_some_iff] at hn
    obtain ⟨node1, ⟨node0, hnode, rfl⟩, rfl⟩ := hn
    have hfirst := h.first d n node0 hnode
    cases d with
    | OUTGOING =>
      rw [Edge.near, ← hfirst]
      by_cases hs : source = n <;> by_cases ht : target = n <;> simp [hs, ht, Links.get]
    | INCOMING =>
      rw [Edge.near, ← hfirst]
      by_cases hs : source = n <;> by_cases ht : target = n <;> simp [hs, ht, Links.get]
  case next =>
    intro d i e he
    rcases lt_or_ge i g.edges.length with hlt | hge
    · rw [getElem?_append_left hlt] at he
      rw [take_append_of_le_length hlt.le]
      exact h.next d i e he
    · rw [getElem?_append_right hge, getElem?_singleton] at he
      split at he
      · next hzero =>
        cases he
        obtain rfl : i = g.edges.length := by omega
        rw [take_left]
        cases d with
        | OUTGOING => exact h.first .OUTGOING source sourceNode hsource
        | INCOMING => exact h.first .INCOMING target targetNode htarget
      · cases he
  case near =>
    intro d e he
    rw [length_modify, length_modify]
    rcases mem_append.1 he with he | he
    · exact h.near d e he
    · cases mem_singleton.1 he
      cases d with
      | OUTGOING => exact hslt
      | INCOMING => exact htlt
  case bound =>
    simp
    omega

theorem wf_of_ops : ∀ {ops : List (Op N E)} {g g' : Graph N E}, g.WF →
    ops.foldlM Op.apply g = .ok g' → g'.WF
  | [], _, _, h, hrun => by
    cases hrun
    exact h
  | op :: ops, g, g', h, hrun => by
    rw [foldlM_cons] at hrun
    obtain ⟨g1, happly, hrun⟩ := bind_eq_ok.1 hrun
    refine wf_of_ops ?_ hrun
    cases op with
    | addNode data =>
      cases happly
      exact h.addNode data
    | addEdge source target data =>
      obtain ⟨⟨idx, g2⟩, hadd, happly⟩ := bind_eq_ok.1 happly
      cases happly
      exact h.addEdge hadd

theorem WF.nextAdjacent_spec (h : g.WF) {n : Nat} : ∀ (edges rest : List (Edge E)),
    g.edges = edges ++ rest → (newest d n edges = INVALID_EDGE_INDEX ∧ incident d n edges = [] ∧
      ∀ e ∈ edges, e.near d ≠ n) ∨ ∃ pre e post, edges = pre ++ e :: post ∧ e.near d = n ∧
      (∀ e' ∈ post, e'.near d ≠ n) ∧ newest d n edges = pre.length ∧
      pre.length < 2 ^ 63 ∧ incident d n edges = (pre.length, e) :: incident d n pre ∧
      g.nextAdjacent d pre.length = .ok (some (pre.length, e), newest d n pre) := by
  intro edges
  induction edges using List.reverseRecOn with
  | nil => exact fun _ _ => .inl ⟨rfl, rfl, nofun⟩
  | append_singleton edges e ih =>
    intro rest hedges
    rw [append_assoc] at hedges
    rw [newest_concat, incident_concat]
    by_cases hnear : e.near d = n
    · rw [if_pos hnear, if_pos hnear]
      have hlt : edges.length < 2 ^ 63 := by
        have := h.bound
        rw [hedges, length_append] at this
        omega
      have hvalid : edges.length ≠ INVALID_EDGE_INDEX := by
        rw [INVALID_EDGE_INDEX]
        omega
      have he : g.edges[edges.length]? = some e := by
        rw [hedges, getElem?_append_right le_rfl, Nat.sub_self]
        rfl
      have hnext := h.next d edges.length e he
      rw [hedges, take_left, hnear] at hnext
      refine .inr ⟨edges, e, [], rfl, hnear, nofun, rfl, hlt, rfl, ?_⟩
      rw [nextAdjacent, if_neg hvalid, he, expect_some, ok_bind, hnext]
    · rw [if_neg hnear, if_neg hnear]
      rcases ih ([e] ++ rest) hedges with ⟨hnewest, hincident, hnone⟩ |
        ⟨pre, e', post, rfl, hnear', hpost, hrest⟩
      · refine .inl ⟨hnewest, hincident, fun e' he' => ?_⟩
        rcases mem_append.1 he' with he' | he'
        · exact hnone e' he'
        · exact mem_singleton.1 he' ▸ hnear
      · refine .inr ⟨pre, e', post ++ [e], by simp, hnear', fun e'' he'' => ?_, hrest⟩
        rcases mem_append.1 he'' with he'' | he''
        · exact hpost e'' he''
        · exact mem_singleton.1 he'' ▸ hnear

theorem WF.collectAdjacent_spec (h : g.WF) {n : Nat} : ∀ (fuel : Nat) (edges rest : List (Edge E)),
    g.edges = edges ++ rest → edges.length < fuel →
    g.collectAdjacent d fuel (newest d n edges) =
      .ok (incident d n edges)
  | 0, _, _, _, hfuel => absurd hfuel (Nat.not_lt_zero _)
  | k + 1, edges, rest, hedges, hfuel => by
    rcases h.nextAdjacent_spec (d := d) (n := n) edges rest hedges with
      ⟨hnewest, hincident, -⟩ | ⟨pre, e, post, rfl, -, -, hnewest, -, hincident, hnext⟩
    · rw [hnewest, hincident]
      rfl
    · have hcollect := collectAdjacent_spec h (n := n) k pre (e :: post ++ rest)
        (hedges.trans (append_assoc _ _ _)) (by simp at hfuel; omega)
      rw [hnewest, hincident, collectAdjacent, hnext, ok_bind]
      simp only [hcollect, ok_bind, pure_eq]

theorem WF.adjacentEdges_eq (h : g.WF) {n : Nat} (hn : n < g.nodes.length) :
    g.adjacentEdges n d = .ok (incident d n g.edges) := by
  have hnode : g.nodes[n]? = some g.nodes[n] := getElem?_eq_getElem hn
  rw [adjacentEdges, hnode, expect_some, ok_bind, h.first d n _ hnode]
  exact h.collectAdjacent_spec _ g.edges [] (append_nil _).symm (lt_add_one _)

/-- The nodes at the other ends of the edges of a node. -/
def succ (g : Graph N E) (d : Direction) (n : Nat) : List Nat :=
  (incident d n g.edges).map fun p => p.2.sourceOrTarget d

theorem WF.succ_lt (h : g.WF) {n m : Nat} (hm : m ∈ g.succ d n) : m < g.nodes.length := by
  obtain ⟨p, hp, rfl⟩ := mem_map.1 hm
  rw [incident, mem_reverse, mem_map] at hp
  obtain ⟨⟨e, i⟩, hp, rfl⟩ := hp
  have he : e ∈ g.edges := fst_mem_of_mem_zipIdx (mem_of_mem_filter hp)
  cases d with
  | OUTGOING => exact h.near .INCOMING e he
  | INCOMING => exact h.near .OUTGOING e he

end Graph

end

/-! ## The traversal -/

namespace DepthFirstTraversal

section
variable {N E : Type} {g : Graph N E} {d : Direction} {succ : Nat → List Nat} {root : Nat}

/-- What the traversal keeps: a node that is marked is on the stack or has been yielded, once. -/
structure Inv (succ : Nat → List Nat) (root : Nat) (w : Discovery Nat) : Prop where
  count : ∀ v, (w.out ++ w.stack).count v = if v ∈ w.marked then 1 else 0
  start : root ∈ w.marked
  reached : ∀ v ∈ w.marked, Reach succ root v
  closed : ∀ u ∈ w.out, ∀ v ∈ succ u, v ∈ w.marked

theorem start_inv : Inv succ root ⟨{root}, [root], []⟩ where
  count v := by
    by_cases hv : v = root
    · simp [hv]
    · simp [hv, count_eq_zero]
  start := Finset.mem_singleton_self root
  reached v hv := Finset.mem_singleton.1 hv ▸ .refl
  closed u hu := by cases hu

variable {w : Discovery Nat} {v : Nat}

theorem Inv.mem_marked (h : Inv succ root w) : v ∈ w.marked ↔ v ∈ w.out ++ w.stack := by
  rw [← count_pos_iff, h.count]
  split
  · next hv => simp [hv]
  · next hv => simp [hv]

theorem Inv.nodup (h : Inv succ root w) : (w.out ++ w.stack).Nodup := by
  rw [nodup_iff_count_le_one]
  intro v
  rw [h.count]
  split <;> omega

theorem Inv.card (h : Inv succ root w) : w.marked.card = w.out.length + w.stack.length := by
  have heq : w.marked = (w.out ++ w.stack).toFinset :=
    Finset.ext fun v => h.mem_marked.trans mem_toFinset.symm
  rw [heq, toFinset_card_of_nodup h.nodup, length_append]

theorem Inv.step {w w' : Discovery Nat} (h : Inv succ root w) (hs : Discovery.Step succ w w') :
    Inv succ root w' := by
  obtain @⟨marked, x, stack, out⟩ := hs
  have hx : Reach succ root x := h.reached x (h.mem_marked.2 (by simp))
  refine ⟨fun v => ?_, Finset.mem_union_left _ h.start, fun v hv => ?_, fun u hu v hv => ?_⟩
  · have hstep := Discovery.Step.count (.visit : Discovery.Step succ ⟨marked, x :: stack, out⟩ _) v
    have hcount := h.count v
    omega
  · rcases Finset.mem_union.1 hv with hv | hv
    · exact h.reached v hv
    · exact hx.tail (mem_toFinset.1 hv)
  · rcases mem_append.1 hu with hu | hu
    · exact Finset.mem_union_left _ (h.closed u hu v hv)
    · rw [mem_singleton.1 hu] at hv
      exact Finset.mem_union_right _ (mem_toFinset.2 hv)

variable {marked : Finset Nat} {out : List Nat}

theorem Inv.mem_out (h : Inv succ root ⟨marked, [], out⟩) : v ∈ out ↔ Reach succ root v := by
  have hout : ∀ u, u ∈ out ↔ u ∈ marked := fun u => by
    simpa using (h.mem_marked (v := u)).symm
  rw [hout]
  refine ⟨h.reached v, fun hv => ?_⟩
  induction hv with
  | refl => exact h.start
  | tail _ hv ih => exact h.closed _ ((hout _).2 ih) _ hv

/-- The traversal is at a search. -/
structure At (g : Graph N E) (t : DepthFirstTraversal) (w : Discovery Nat) : Prop where
  stack : t.stack = w.stack
  visited : t.visited.Holds g.nodes.length w.marked

theorem visits_spec {n : Nat} : ∀ {l : List Nat} (stack : List Nat) {visited : Index.BitSet}
    {S : Finset Nat}, visited.Holds n S → (∀ m ∈ l, m < n) → ∃ t, l.foldlM visit ⟨stack, visited⟩ =
    .ok t ∧ t.stack = (fresh S l).reverse ++ stack ∧ t.visited.Holds n (S ∪ l.toFinset) := by
  intro l stack visited S hv hl
  have hrun : ∀ (l : List Nat) (t : DepthFirstTraversal), l.foldlM visit t =
      (extend l ⟨t.stack, t.visited⟩).map fun s => ⟨s.stack, s.visited⟩ := by
    intro l
    induction l with
    | nil => exact fun _ => rfl
    | cons m l ih =>
      intro t
      rw [foldlM_cons, visit, extend]
      cases t.visited.insert m with
      | error e => rfl
      | ok p => exact ih _
  obtain ⟨search, hextend, hstack, hvisited⟩ := extend_spec stack hv hl
  exact ⟨⟨search.stack, search.visited⟩, by rw [hrun, hextend]; rfl, hstack, hvisited⟩

theorem withStartNode_spec (hroot : root < g.nodes.length) :
    ∃ t, withStartNode g root = .ok t ∧ At g t ⟨{root}, [root], []⟩ := by
  obtain ⟨inserted, visited, hins, hv, -⟩ :=
    (Index.BitSet.newEmpty_holds g.nodes.length).insert hroot
  rw [withStartNode, hins]
  exact ⟨_, rfl, rfl, by simpa using hv⟩

theorem next_spec (hg : g.WF) {t : DepthFirstTraversal} {x : Nat}
    {stack out : List Nat} (h : At g t ⟨marked, x :: stack, out⟩) (hx : x < g.nodes.length) :
    ∃ t' w, t.next g d = .ok (some x, t') ∧
      Discovery.Step (g.succ d) ⟨marked, x :: stack, out⟩ w ∧ At g t' w ∧ w.out = out ++ [x] := by
  obtain ⟨stack', visited⟩ := t
  obtain rfl : stack' = x :: stack := h.stack
  obtain ⟨t', hrun, hstack, hvisited⟩ :=
    visits_spec stack h.visited fun m hm => hg.succ_lt (d := d) (n := x) hm
  refine ⟨t', _, ?_, .visit, ⟨hstack, hvisited⟩, rfl⟩
  rw [Graph.succ, foldlM_map] at hrun
  rw [next, hg.adjacentEdges_eq hx, ok_bind, hrun]
  rfl

theorem reach_lt (hg : g.WF) (hroot : root < g.nodes.length)
    (hv : Reach (g.succ d) root v) : v < g.nodes.length := by
  induction hv with
  | refl => exact hroot
  | tail _ hv _ => exact hg.succ_lt hv

theorem collect_spec (hg : g.WF) (hroot : root < g.nodes.length) :
    ∀ (k : Nat) (t : DepthFirstTraversal) (w : Discovery Nat), At g t w →
      Inv (g.succ d) root w → w.turns (Finset.range g.nodes.length) < k →
      ∃ rest marked, t.collect g d k = .ok rest ∧
        Inv (g.succ d) root ⟨marked, [], w.out ++ rest⟩
  | 0, _, _, _, _, hk => absurd hk (Nat.not_lt_zero _)
  | k + 1, ⟨_, visited⟩, ⟨marked, [], out⟩, h, hi, _ => by
    obtain rfl := h.stack
    exact ⟨[], marked, rfl, by simpa using hi⟩
  | k + 1, t, ⟨marked, x :: stack, out⟩, h, hi, hk => by
    have hbelow : ∀ u ∈ x :: stack, u ∈ Finset.range g.nodes.length := fun u hu =>
      Finset.mem_range.2 (reach_lt hg hroot
        (hi.reached u (hi.mem_marked.2 (mem_append_right _ hu))))
    obtain ⟨t', w', hnext, hs, hat, hout⟩ :=
      next_spec (d := d) hg h (Finset.mem_range.1 (hbelow x (.head _)))
    have hlt := hs.turns_lt
      (fun u _ v hv => Finset.mem_range.2 (hg.succ_lt (d := d) (n := u) hv)) hbelow
    obtain ⟨rest, marked', hrest, hi'⟩ := collect_spec hg hroot k t' w' hat (hi.step hs) (by omega)
    refine ⟨x :: rest, marked', ?_, ?_⟩
    · rw [collect, hnext, ok_bind]
      simp only [hrest, ok_bind, pure_eq]
    · rw [hout] at hi'
      simpa using hi'

theorem after_spec (hg : g.WF) (hroot : root < g.nodes.length) :
    ∀ (k : Nat) (t : DepthFirstTraversal) (w : Discovery Nat), At g t w →
      Inv (g.succ d) root w →
      ∃ t' w', t.after g d k = .ok t' ∧ At g t' w' ∧ Inv (g.succ d) root w'
  | 0, t, w, h, hi => ⟨t, w, rfl, h, hi⟩
  | k + 1, ⟨_, visited⟩, ⟨marked, [], out⟩, h, hi => by
    obtain rfl := h.stack
    exact after_spec hg hroot k _ _ h hi
  | k + 1, t, ⟨marked, x :: stack, out⟩, h, hi => by
    have hx : Reach (g.succ d) root x := hi.reached x (hi.mem_marked.2 (by simp))
    obtain ⟨t1, w1, hnext, hs, hat, -⟩ := next_spec (d := d) hg h (reach_lt hg hroot hx)
    obtain ⟨t', w', hafter, hat', hi'⟩ := after_spec hg hroot k t1 w1 hat (hi.step hs)
    refine ⟨t', w', ?_, hat', hi'⟩
    rw [after, hnext, ok_bind]
    exact hafter

/-- The nodes of the graph that are never reached. -/
def unreached (g : Graph N E) (d : Direction) (root : Nat) : Set Nat :=
  {v | v < g.nodes.length ∧ ¬ Reach (g.succ d) root v}

theorem ncard_unreached (hg : g.WF) (hroot : root < g.nodes.length)
    (h : Inv (g.succ d) root ⟨marked, [], out⟩) :
    (unreached g d root).ncard + out.length = g.nodes.length := by
  have heq : unreached g d root = ↑(Finset.range g.nodes.length \ out.toFinset) := by
    ext v
    simp [unreached, h.mem_out]
  have hsub : out.toFinset ⊆ Finset.range g.nodes.length := fun v hv =>
    Finset.mem_range.2 (reach_lt hg hroot (h.mem_out.1 (mem_toFinset.1 hv)))
  have hnodup : out.Nodup := by simpa using h.nodup
  have hcard := Finset.card_sdiff_add_card_eq_card hsub
  rw [Finset.card_range, toFinset_card_of_nodup hnodup] at hcard
  rw [heq, Set.ncard_coe_finset, hcard]

end

/-- After every number of calls of `next` the size hint is the number of nodes that are still
yielded exactly if as many nodes are never reached as are on the stack. -/
theorem sizeHint_exact_iff {N E : Type} {ops : List (Graph.Op N E)} {g : Graph N E} {root : Nat}
    (hops : ops.foldlM Graph.Op.apply Graph.new = .ok g) (hroot : root < g.nodes.length)
    (d : Direction) (k : Nat) :
    ∃ start t items, withStartNode g root = .ok start ∧ start.after g d k = .ok t ∧
      t.collect g d (g.nodes.length + 1) = .ok items ∧
      (t.sizeHint g = (items.length, some items.length) ↔
        (unreached g d root).ncard = t.stack.length) := by
  have hg := Graph.wf_of_ops Graph.wf_new hops
  obtain ⟨start, hstart, hat⟩ := withStartNode_spec hroot
  obtain ⟨t, w, hafter, hat, hi⟩ := after_spec (d := d) hg hroot k start _ hat start_inv
  have hsub : w.marked ⊆ Finset.range g.nodes.length := fun v hv =>
    Finset.mem_range.2 (hat.visited.lt v hv)
  have hcard := Finset.card_sdiff_add_card_eq_card hsub
  rw [Finset.card_range, hi.card] at hcard
  have hturns : w.turns (Finset.range g.nodes.length) < g.nodes.length + 1 := by
    rw [Discovery.turns]
    omega
  obtain ⟨items, marked, hcollect, hi'⟩ := collect_spec (d := d) hg hroot _ t w hat hi hturns
  refine ⟨start, t, items, hstart, hafter, hcollect, ?_⟩
  have hreached := ncard_unreached hg hroot hi'
  rw [length_append] at hreached
  rw [sizeHint, hat.visited.count, hi.card, hat.stack, Prod.mk.injEq, Option.some.injEq, and_self]
  omega

/-- Two nodes and an edge from the first to the second. -/
def pairOps : List (Graph.Op Unit Unit) := [.addNode (), .addNode (), .addEdge 0 1 ()]

theorem sizeHint_exact_iff_pair : ∃ g start t items,
    pairOps.foldlM Graph.Op.apply Graph.new = .ok g ∧ withStartNode g 0 = .ok start ∧
    start.after g .OUTGOING 1 = .ok t ∧ t.collect g .OUTGOING 3 = .ok items ∧
    (t.sizeHint g = (items.length, some items.length) ↔
      (unreached g .OUTGOING 0).ncard = t.stack.length) :=
  have h := @sizeHint_exact_iff Unit Unit pairOps _ 0 rfl (by decide) .OUTGOING 1
  let ⟨start, t, items, hstart, hafter, hcollect, hiff⟩ := h
  ⟨_, start, t, items, rfl, hstart, hafter, hcollect, hiff⟩

/-- The hint of a graph with one node is zero before the node is yielded. -/
theorem sizeHint_one_node : ∃ g start,
    [Graph.Op.addNode (E := Unit) ()].foldlM Graph.Op.apply Graph.new = .ok g ∧
    withStartNode g 0 = .ok start ∧ start.sizeHint g = (0, some 0) ∧
    start.collect g .OUTGOING 2 = .ok [0] := by
  refine ⟨_, _, rfl, rfl, ?_, ?_⟩
  · decide
  · decide

end DepthFirstTraversal

/-! ## The postorder -/

namespace Graph

variable {N E : Type} {g : Graph N E} {d : Direction}

theorem mem_succ {u v : Nat} : v ∈ g.succ d u ↔
    ∃ e ∈ g.edges, e.near d = u ∧ e.sourceOrTarget d = v := by
  simp only [succ, incident, mem_map, mem_reverse, mem_filter, decide_eq_true_eq]
  constructor
  · rintro ⟨_, ⟨⟨e, i⟩, ⟨hp, hnear⟩, rfl⟩, hv⟩
    exact ⟨e, fst_mem_of_mem_zipIdx hp, hnear, hv⟩
  · rintro ⟨e, he, hnear, hv⟩
    obtain ⟨i, hi⟩ := mem_iff_getElem?.1 he
    exact ⟨(i, e), ⟨(e, i), ⟨mk_mem_zipIdx_iff_getElem?.2 hi, hnear⟩, rfl⟩, hv⟩

end Graph

namespace Postorder

variable {N E : Type} {g : Graph N E} {d : Direction} {p : Postorder} {V : Finset Nat}

/-- The turns in which an iterator can still return an edge. -/
def left (next : Nat) : Nat := if next = INVALID_EDGE_INDEX then 0 else next + 1

/-- The turns that the nodes on the stack and those that are not marked can still take. -/
def turns (g : Graph N E) (p : Postorder) (V : Finset Nat) : Nat :=
  (p.stack.map fun entry => left entry.2 + 1).sum +
    (g.nodes.length - V.card) * (g.edges.length + 1)

/-- What the walk keeps, where `V` is marked and the ends of the edges that the iterators have
returned are in `W`. -/
structure Inv (g : Graph N E) (d : Direction) (p : Postorder) (V W : Finset Nat) :
    Prop where
  visited : p.visited.Holds g.nodes.length V
  nodup : (p.result ++ p.stack.map Prod.fst).Nodup
  mem : ∀ v, v ∈ V ↔ v ∈ p.result ++ p.stack.map Prod.fst
  iter : ∀ entry ∈ p.stack, ∃ edges rest, g.edges = edges ++ rest ∧
    entry.2 = newest d entry.1 edges ∧
    ∀ e ∈ rest, e.near d = entry.1 → e.sourceOrTarget d ∈ W
  chain : p.stack.Pairwise fun above below => Reach (g.succ d) below.1 above.1
  later : ∀ pre u post, p.result = pre ++ u :: post →
    ∀ v ∈ g.succ d u, v ∈ pre ∨ Reach (g.succ d) v u

theorem left_newest_le (hg : g.WF) {n : Nat} (edges rest : List (Edge E))
    (hedges : g.edges = edges ++ rest) : left (newest d n edges) ≤ edges.length := by
  rcases hg.nextAdjacent_spec (d := d) (n := n) edges rest hedges with
    ⟨hnone, -⟩ | ⟨pre, e, post, rfl, -, -, hnewest, -⟩
  · rw [hnone, left, if_pos rfl]
    exact Nat.zero_le _
  · rw [hnewest, left, length_append, length_cons]
    split <;> omega

theorem Inv.pushNode (hg : g.WF) {node : Nat} (h : Inv g d p V (insert node V))
    (hnode : node < g.nodes.length) (hreach : ∀ entry ∈ p.stack, Reach (g.succ d) entry.1 node) :
    ∃ p', p.pushNode g d node = .ok p' ∧ Inv g d p' (insert node V) (insert node V) ∧
      p'.turns g (insert node V) ≤ p.turns g V := by
  obtain ⟨inserted, visited, hins, hv, hchanged⟩ := h.visited.insert hnode
  rw [Postorder.pushNode, hins, ok_bind]
  by_cases hmem : node ∈ V
  · have hsame : insert node V = V := Finset.insert_eq_of_mem hmem
    have hfalse : inserted = false := by simpa [hsame] using hchanged
    subst hfalse
    rw [hsame] at h hv ⊢
    exact ⟨_, rfl, ⟨hv, h.nodup, h.mem, h.iter, h.chain, h.later⟩, le_rfl⟩
  · have htrue : inserted = true := hchanged.2 fun heq => hmem (Finset.insert_eq_self.1 heq)
    subst htrue
    have hget : g.nodes[node]? = some g.nodes[node] := getElem?_eq_getElem hnode
    have hfirst := hg.first d node _ hget
    refine ⟨{ p with visited, stack := (node, newest d node g.edges) :: p.stack }, ?_,
      ⟨hv, ?_, fun v => ?_, ?_, pairwise_cons.2 ⟨hreach, h.chain⟩, h.later⟩, ?_⟩
    · simp only [hget, expect_some, ok_bind, if_true, hfirst]
    · rw [map_cons, nodup_middle]
      exact nodup_cons.2 ⟨fun hin => hmem ((h.mem node).2 hin), h.nodup⟩
    · have := h.mem v
      simp only [Finset.mem_insert, map_cons, mem_append, mem_cons] at this ⊢
      tauto
    · intro entry hentry
      rcases mem_cons.1 hentry with rfl | hentry
      · exact ⟨g.edges, [], (append_nil _).symm, rfl, nofun⟩
      · obtain ⟨edges, rest, hedges, hiter, hrest⟩ := h.iter entry hentry
        exact ⟨edges, rest, hedges, hiter, hrest⟩
    · have hlt : V.card < g.nodes.length := by
        have hins : (insert node V).card ≤ g.nodes.length := by
          have hsub : insert node V ⊆ Finset.range g.nodes.length := fun v hv' =>
            Finset.mem_range.2 (hv.lt v hv')
          simpa using Finset.card_le_card hsub
        rw [Finset.card_insert_of_notMem hmem] at hins
        exact hins
      have hleft := left_newest_le (d := d) (n := node) hg g.edges []
        (append_nil _).symm
      obtain ⟨m, hm⟩ := Nat.exists_eq_add_of_lt hlt
      have hsub : g.nodes.length - V.card = m + 1 := by omega
      have hsub' : g.nodes.length - (V.card + 1) = m := by omega
      rw [turns, turns, Finset.card_insert_of_notMem hmem, hsub, hsub', map_cons,
        sum_cons, Nat.succ_mul]
      dsimp only
      omega

theorem Inv.pop {visited : Index.BitSet} {x it : Nat} {stack : List (Nat × Nat)}
    {result : List Nat} (h : Inv g d ⟨visited, (x, it) :: stack, result⟩ V V)
    (hsucc : ∀ v ∈ g.succ d x, v ∈ V) : Inv g d ⟨visited, stack, result ++ [x]⟩ V V := by
  have hperm : result ++ [x] ++ stack.map Prod.fst =
      result ++ ((x, it) :: stack).map Prod.fst := by simp
  refine ⟨h.visited, hperm ▸ h.nodup, fun v => hperm ▸ h.mem v,
    fun entry hentry => h.iter entry (.tail _ hentry), (pairwise_cons.1 h.chain).2, ?_⟩
  intro pre u post hresult v hv
  rcases eq_nil_or_concat' post with rfl | ⟨post, y, rfl⟩
  · obtain ⟨rfl, hx⟩ := append_inj' hresult rfl
    cases hx
    rcases mem_append.1 ((h.mem v).1 (hsucc v hv)) with hv | hv
    · exact .inl hv
    · obtain ⟨entry, hentry, rfl⟩ := mem_map.1 hv
      rcases mem_cons.1 hentry with rfl | hentry
      · exact .inr .refl
      · exact .inr ((pairwise_cons.1 h.chain).1 entry hentry)
  · rw [← cons_append, ← append_assoc] at hresult
    exact h.later pre u post (append_inj' hresult rfl).1 v hv

theorem drain_spec (hg : g.WF) : ∀ (k : Nat) (p : Postorder) (V : Finset Nat),
    Inv g d p V V → p.turns g V < k →
    ∃ p' V', p.drain g d k = .ok p' ∧ Inv g d p' V' V' ∧ p'.stack = [] ∧ V ⊆ V'
  | 0, _, _, _, hk => absurd hk (Nat.not_lt_zero _)
  | _ + 1, ⟨visited, [], result⟩, V, h, _ => ⟨_, V, rfl, h, rfl, Finset.Subset.refl V⟩
  | k + 1, ⟨visited, (x, it) :: stack, result⟩, V, h, hk => by
    obtain ⟨edges, rest, hedges, hit, hrest⟩ := h.iter (x, it) (.head _)
    dsimp only at hit hrest
    rw [turns, map_cons, sum_cons] at hk
    dsimp only at hk
    rcases hg.nextAdjacent_spec (d := d) (n := x) edges rest hedges with
      ⟨hnewest, -, hnone⟩ | ⟨pre, e, post, rfl, hnear, hpost, hnewest, hlt, -, hnext⟩
    · have hpop := h.pop fun v hv => by
        obtain ⟨e, he, hnear, rfl⟩ := Graph.mem_succ.1 hv
        rw [hedges] at he
        rcases mem_append.1 he with he | he
        · exact absurd hnear (hnone e he)
        · exact hrest e he hnear
      obtain ⟨p', V', hdrain, h', hnil, hsub⟩ :=
        drain_spec hg k ⟨visited, stack, result ++ [x]⟩ V hpop (by rw [turns]; dsimp only; omega)
      refine ⟨p', V', ?_, h', hnil, hsub⟩
      rw [drain, hit, hnewest, Graph.nextAdjacent, if_pos rfl, ok_bind]
      exact hdrain
    · have he : e ∈ g.edges := by
        rw [hedges]
        simp
      have htarget : e.sourceOrTarget d ∈ g.succ d x := Graph.mem_succ.2 ⟨e, he, hnear, rfl⟩
      have hchain := pairwise_cons.1 h.chain
      -- The iterator is put back on the stack before the node at the end of the edge is marked.
      have hback : Inv g d ⟨visited, (x, newest d x pre) :: stack, result⟩ V
          (insert (e.sourceOrTarget d) V) := by
        refine ⟨h.visited, h.nodup, h.mem, fun entry hentry => ?_,
          pairwise_cons.2 ⟨hchain.1, hchain.2⟩, h.later⟩
        rcases mem_cons.1 hentry with rfl | hentry
        · refine ⟨pre, e :: post ++ rest, hedges.trans (append_assoc _ _ _), rfl, ?_⟩
          intro e' he' hnear'
          rcases mem_cons.1 he' with rfl | he'
          · exact Finset.mem_insert_self _ _
          · rcases mem_append.1 he' with he' | he'
            · exact absurd hnear' (hpost e' he')
            · exact Finset.mem_insert_of_mem (hrest e' he' hnear')
        · obtain ⟨edges', rest', hedges', hit', hrest'⟩ := h.iter entry (.tail _ hentry)
          exact ⟨edges', rest', hedges', hit', fun e' he' hnear' =>
            Finset.mem_insert_of_mem (hrest' e' he' hnear')⟩
      obtain ⟨p1, hpush, h1, hturns⟩ := hback.pushNode hg (hg.succ_lt htarget) fun entry hentry => by
        rcases mem_cons.1 hentry with rfl | hentry
        · exact .single htarget
        · exact (hchain.1 entry hentry).tail htarget
      have hleft : left (newest d x pre) < left it := by
        have hle := left_newest_le (d := d) (n := x) hg pre _
          (hedges.trans (append_assoc _ _ _))
        have hvalid : pre.length ≠ INVALID_EDGE_INDEX := by
          rw [INVALID_EDGE_INDEX]
          omega
        have hpre : left pre.length = pre.length + 1 := if_neg hvalid
        rw [hit, hnewest, hpre]
        omega
      simp only [turns, map_cons, sum_cons] at hturns
      obtain ⟨p', V', hdrain, h', hnil, hsub⟩ :=
        drain_spec hg k p1 _ h1 (by simp only [turns]; omega)
      refine ⟨p', V', ?_, h', hnil, (Finset.subset_insert _ V).trans hsub⟩
      rw [drain, hit, hnewest, hnext, ok_bind]
      dsimp only
      rw [hpush, ok_bind, hdrain]

theorem fold_spec (hg : g.WF) {fuel : Nat}
    (hfuel : g.nodes.length * (g.edges.length + 1) < fuel) : ∀ (nodes : List Nat) (p : Postorder)
    (V : Finset Nat), Inv g d p V V → p.stack = [] → (∀ v ∈ nodes, v < g.nodes.length) →
    ∃ p' V', nodes.foldlM (fun walk node => do
        let walk ← Postorder.pushNode g d walk node
        Postorder.drain g d fuel walk) p = .ok p' ∧
      Inv g d p' V' V' ∧ p'.stack = [] ∧ V ⊆ V' ∧ ∀ v ∈ nodes, v ∈ V'
  | [], p, V, h, hnil, _ => ⟨p, V, rfl, h, hnil, Finset.Subset.refl V, nofun⟩
  | node :: nodes, p, V, h, hnil, hnodes => by
    have hstart : Inv g d p V (insert node V) := by
      refine ⟨h.visited, h.nodup, h.mem, ?_, h.chain, h.later⟩
      rw [hnil]
      nofun
    obtain ⟨p1, hpush, h1, hturns⟩ := hstart.pushNode hg (hnodes node (.head _)) (by
      rw [hnil]
      nofun)
    have hle : p.turns g V ≤ g.nodes.length * (g.edges.length + 1) := by
      rw [turns, hnil, map_nil, sum_nil, zero_add]
      exact Nat.mul_le_mul_right _ (Nat.sub_le _ _)
    obtain ⟨p2, V₂, hdrain, h2, hnil2, hsub2⟩ :=
      drain_spec hg fuel p1 _ h1 ((hturns.trans hle).trans_lt hfuel)
    obtain ⟨p', V', hfold, h', hnil', hsub', hin⟩ :=
      fold_spec hg hfuel nodes p2 V₂ h2 hnil2 fun v hv => hnodes v (.tail _ hv)
    refine ⟨p', V', ?_, h', hnil', ?_, fun v hv => ?_⟩
    · rw [foldlM_cons, hpush, ok_bind, hdrain]
      exact hfold
    · exact ((Finset.subset_insert node V).trans hsub2).trans hsub'
    · rcases mem_cons.1 hv with rfl | hv
      · exact hsub' (hsub2 (Finset.mem_insert_self _ V))
      · exact hin v hv

theorem nodesInPostorder_spec (hg : g.WF) {entry fuel : Nat} (hentry : entry < g.nodes.length)
    (hfuel : g.nodes.length * (g.edges.length + 1) < fuel) :
    ∃ out, g.nodesInPostorder fuel d entry = .ok out ∧ out.Nodup ∧
      (∀ v, v ∈ out ↔ v < g.nodes.length) ∧ ∀ u, ∀ v ∈ g.succ d u,
        out.idxOf v < out.idxOf u ∨ Reach (g.succ d) v u := by
  have hempty : Inv g d ⟨Index.BitSet.newEmpty g.nodes.length, [], []⟩ ∅ ∅ :=
    ⟨Index.BitSet.newEmpty_holds _, nodup_nil, fun v => by simp, nofun, .nil,
      fun pre u post hresult => by simp at hresult⟩
  obtain ⟨p, V, hfold, h, hnil, -, hin⟩ := fold_spec hg hfuel
    (entry :: range g.nodes.length) _ ∅ hempty rfl (by simpa using hentry)
  have hnodup := h.nodup
  rw [hnil, map_nil, append_nil] at hnodup
  have hmem : ∀ v, v ∈ p.result ↔ v < g.nodes.length := by
    intro v
    have hV := h.mem v
    rw [hnil, map_nil, append_nil] at hV
    rw [← hV]
    exact ⟨h.visited.lt v, fun hv => hin v (.tail _ (mem_range.2 hv))⟩
  have hlen : p.result.length = g.nodes.length := by
    have hperm : p.result.Perm (range g.nodes.length) :=
      (perm_ext_iff_of_nodup hnodup nodup_range).2 fun v => by
        rw [hmem, mem_range]
    rw [hperm.length_eq, length_range]
  refine ⟨p.result, ?_, hnodup, hmem, fun u v hv => ?_⟩
  · rw [Graph.nodesInPostorder, hfold, ok_bind, assert, if_pos (decide_eq_true hlen)]
    rfl
  · obtain ⟨e, he, rfl, -⟩ := Graph.mem_succ.1 hv
    obtain ⟨pre, post, hsplit⟩ := append_of_mem ((hmem _).2 (hg.near d e he))
    rcases h.later pre _ post hsplit v hv with hpre | hreach
    · obtain ⟨a, b, rfl⟩ := append_of_mem hpre
      have hsplit' : p.result = a ++ v :: (b ++ e.near d :: post) := by simp [hsplit]
      exact .inl ((idxOf_lt_iff_mem hnodup hsplit' ((hmem _).2 (hg.near d e he))).2
        (by simp))
    · exact .inr hreach

end Postorder

namespace Graph

variable {N E : Type}

/-- The endpoints and the datum of the edge that a call adds. -/
def Op.edge : Op N E → Option (Nat × Nat × E)
  | .addNode _ => none
  | .addEdge source target data => some (source, target, data)

theorem edges_of_ops : ∀ {ops : List (Op N E)} {g g' : Graph N E},
    ops.foldlM Op.apply g = .ok g' → g'.edges.map (fun e => (e.source, e.target, e.data)) =
      g.edges.map (fun e => (e.source, e.target, e.data)) ++ ops.filterMap Op.edge
  | [], _, _, hrun => by
    cases hrun
    simp
  | op :: ops, g, g', hrun => by
    rw [foldlM_cons] at hrun
    obtain ⟨g1, happly, hrun⟩ := bind_eq_ok.1 hrun
    rw [edges_of_ops hrun]
    cases op with
    | addNode data =>
      cases happly
      rfl
    | addEdge source target data =>
      obtain ⟨⟨idx, g2⟩, hadd, happly⟩ := bind_eq_ok.1 happly
      cases happly
      rw [Graph.addEdge] at hadd
      obtain ⟨_, -, hadd⟩ := bind_eq_ok.1 hadd
      obtain ⟨_, -, hadd⟩ := bind_eq_ok.1 hadd
      obtain ⟨_, -, hadd⟩ := bind_eq_ok.1 hadd
      cases hadd
      simp [Op.edge]

/-- There is an edge from a node to another, along a direction. -/
def Adjacent (g : Graph N E) (d : Direction) (u v : Nat) : Prop :=
  ∃ e ∈ g.edges, e.near d = u ∧ e.sourceOrTarget d = v

theorem reach_eq (g : Graph N E) (d : Direction) :
    Reach (g.succ d) = Relation.ReflTransGen (g.Adjacent d) := by
  have hsucc : (fun u v => v ∈ g.succ d u) = g.Adjacent d := funext₂ fun u v => propext mem_succ
  rw [Reach, hsucc]

/-- The graph that calls of `add_node` and `add_edge` build has the edges they add, in their order.
From each of its nodes the lists hold the edges from and to it, the newest first, the depth-first
traversal yields each node that can be reached once, and the postorder each node once, where the
target of an edge comes first unless it leads back to the source. -/
theorem graph_complete {ops : List (Op N E)} {g : Graph N E} {n fuel : Nat}
    (hops : ops.foldlM Op.apply new = .ok g) (hn : n < g.nodes.length)
    (hfuel : g.nodes.length * (g.edges.length + 1) < fuel) (d : Direction) :
    g.edges.map (fun e => (e.source, e.target, e.data)) = ops.filterMap Op.edge ∧
    g.adjacentEdges n d =
      .ok ((g.edges.zipIdx.filter fun p => p.1.near d = n).map Prod.swap).reverse ∧
    (∃ start items, DepthFirstTraversal.withStartNode g n = .ok start ∧
      start.collect g d (g.nodes.length + 1) = .ok items ∧ items.Nodup ∧
      ∀ v, v ∈ items ↔ Relation.ReflTransGen (g.Adjacent d) n v) ∧
    ∃ out, g.nodesInPostorder fuel d n = .ok out ∧ out.Nodup ∧
      (∀ v, v ∈ out ↔ v < g.nodes.length) ∧ ∀ u v, g.Adjacent d u v →
        out.idxOf v < out.idxOf u ∨ Relation.ReflTransGen (g.Adjacent d) v u := by
  have hg := wf_of_ops wf_new hops
  refine ⟨edges_of_ops hops, hg.adjacentEdges_eq hn, ?_, ?_⟩
  · obtain ⟨start, hstart, hat⟩ := DepthFirstTraversal.withStartNode_spec hn
    have hturns : (⟨{n}, [n], []⟩ : Discovery Nat).turns (Finset.range g.nodes.length) <
        g.nodes.length + 1 := by
      have hcard := Finset.card_sdiff_add_card_eq_card
        (Finset.singleton_subset_iff.2 (Finset.mem_range.2 hn))
      rw [Finset.card_range, Finset.card_singleton] at hcard
      show 1 + (Finset.range g.nodes.length \ {n}).card < g.nodes.length + 1
      omega
    obtain ⟨items, marked, hcollect, hi⟩ := DepthFirstTraversal.collect_spec
      (d := d) hg hn _ start _ hat DepthFirstTraversal.start_inv hturns
    refine ⟨start, items, hstart, hcollect, by simpa using hi.nodup, fun v => ?_⟩
    rw [← reach_eq]
    exact hi.mem_out
  · obtain ⟨out, hrun, hnodup, hmem, hlater⟩ := Postorder.nodesInPostorder_spec (d := d) hg hn hfuel
    refine ⟨out, hrun, hnodup, hmem, fun u v huv => ?_⟩
    rw [← reach_eq]
    exact hlater u v (mem_succ.2 huv)

open DepthFirstTraversal (pairOps) in
theorem graph_complete_pair : ∃ g, pairOps.foldlM Op.apply new = .ok g ∧
    g.adjacentEdges 0 .OUTGOING =
      .ok ((g.edges.zipIdx.filter fun p => p.1.near .OUTGOING = 0).map Prod.swap).reverse ∧
    ∃ out, g.nodesInPostorder 5 .OUTGOING 0 = .ok out ∧ out.Nodup :=
  have h := @graph_complete Unit Unit pairOps _ 0 5 rfl (by decide) (by decide) .OUTGOING
  let ⟨out, hrun, hnodup, _⟩ := h.2.2.2
  ⟨_, rfl, h.2.1, out, hrun, hnodup⟩

end Graph

end Tortis.Implementation
