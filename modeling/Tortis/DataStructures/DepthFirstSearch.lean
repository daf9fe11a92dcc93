import Tortis.DataStructures.SccWalk
import Tortis.Index.BitSet
import Tortis.Lib.Discovery

/-!
# The depth-first search iterator

`DepthFirstSearch` of `librustc_data_structures/graph/iterate/mod.rs`: a stack of nodes and the marks
of the nodes that have been put on it. `next` takes a node off the stack and extends the stack by the
successors that a filter marks. The start node is put on the stack by `new`, which does not mark it:
`collect_spec` says how often each node is yielded, and `collect_iff` that it is once for each node
that can be reached exactly when the start is on no cycle.
-/

namespace Tortis

open Outcome List

/-- `DepthFirstSearch`; the stack has its top first. -/
structure DepthFirstSearch where
  stack : List Nat
  visited : Index.BitSet

namespace DepthFirstSearch

def new (graph : DirectedGraph) (startNode : Nat) : DepthFirstSearch :=
  ⟨[startNode], Index.BitSet.newEmpty graph.numNodes⟩

/-- `stack.extend(successors.filter(|&m| visited.insert(m)))`. -/
def extend : List Nat → DepthFirstSearch → Outcome DepthFirstSearch
  | [], search => .ok search
  | m :: successors, ⟨stack, visited⟩ => do
    let (inserted, visited) ← visited.insert m
    extend successors ⟨if inserted then m :: stack else stack, visited⟩

def next (graph : DirectedGraph) : DepthFirstSearch → Outcome (Option Nat × DepthFirstSearch)
  | ⟨[], visited⟩ => .ok (none, ⟨[], visited⟩)
  | ⟨n :: stack, visited⟩ => do
    let successors ← graph.successors n
    let search ← extend successors ⟨stack, visited⟩
    return (some n, search)

/-- The nodes the iterator yields from a state on. -/
def collect (graph : DirectedGraph) : Nat → DepthFirstSearch → Outcome (List Nat)
  | 0, _ => .error .outOfFuel
  | k + 1, search => do
    match ← next graph search with
    | (some n, search) => return n :: (← collect graph k search)
    | (none, _) => return []

/-! ## The iterator marks nodes when they are put on the stack -/

variable {graph : DirectedGraph} {succ : Nat → List Nat} {root : Nat}

/-- The iterator is at a search that has put `out` out. -/
structure At (graph : DirectedGraph) (search : DepthFirstSearch) (w : Discovery Nat) : Prop where
  stack : search.stack = w.stack
  visited : search.visited.Holds graph.numNodes w.marked

theorem extend_spec {n : Nat} : ∀ {l : List Nat} (stack : List Nat) {visited : Index.BitSet}
    {S : Finset Nat}, visited.Holds n S → (∀ m ∈ l, m < n) → ∃ search, extend l ⟨stack, visited⟩ = .ok search ∧
      search.stack = (fresh S l).reverse ++ stack ∧ search.visited.Holds n (S ∪ l.toFinset)
  | [], stack, visited, S, hv, _ => ⟨_, rfl, rfl, by simpa using hv⟩
  | m :: l, stack, visited, S, hv, hl => by
    obtain ⟨inserted, visited', hins, hv', hchanged⟩ := hv.insert (hl m (.head _))
    obtain ⟨search, hrun, hstack, hvisited⟩ :=
      extend_spec (if inserted then m :: stack else stack) hv'
        fun a ha => hl a (.tail _ ha)
    refine ⟨search, ?_, ?_, ?_⟩
    · rw [extend, hins, ok_bind]
      exact hrun
    · rw [hstack]
      by_cases hm : m ∈ S
      · have hfalse : inserted = false := by
          simpa [Finset.insert_eq_of_mem hm] using hchanged
        rw [fresh_of_mem hm, Finset.insert_eq_of_mem hm, hfalse]
        rfl
      · have htrue : inserted = true := hchanged.2 fun heq => hm (Finset.insert_eq_self.1 heq)
        rw [fresh_of_notMem hm, htrue]
        simp
    · rwa [toFinset_cons, Finset.union_insert, ← Finset.insert_union]

theorem next_spec (hgraph : graph.HasSuccessors succ) {search : DepthFirstSearch} {x : Nat}
    {marked : Finset Nat} {stack out : List Nat} (h : At graph search ⟨marked, x :: stack, out⟩)
    (hx : x < graph.numNodes) : ∃ search' w', next graph search = .ok (some x, search') ∧
      Discovery.Step succ ⟨marked, x :: stack, out⟩ w' ∧ At graph search' w' ∧
      w'.out = out ++ [x] := by
  obtain ⟨stack', visited⟩ := search
  obtain rfl : stack' = x :: stack := h.stack
  obtain ⟨search', hrun, hstack, hvisited⟩ := extend_spec stack h.visited (hgraph.closed x hx)
  refine ⟨search', _, ?_, .visit, ⟨hstack, hvisited⟩, rfl⟩
  rw [next, hgraph.successors_eq x hx, ok_bind, hrun, ok_bind]
  rfl

theorem collect_at (hgraph : graph.HasSuccessors succ) (hroot : root < graph.numNodes) :
    ∀ (k : Nat) (search : DepthFirstSearch) (w : Discovery Nat), At graph search w →
      w.Inv succ root → w.turns (Finset.range graph.numNodes) < k →
      ∃ rest marked, search.collect graph k = .ok rest ∧
        Discovery.Inv succ root ⟨marked, [], w.out ++ rest⟩
  | 0, _, _, _, _, hk => absurd hk (Nat.not_lt_zero _)
  | k + 1, ⟨_, visited⟩, ⟨marked, [], out⟩, h, hi, _ => by
    obtain rfl := h.stack
    exact ⟨[], marked, rfl, by simpa using hi⟩
  | k + 1, search, ⟨marked, x :: stack, out⟩, h, hi, hk => by
    have hin : ∀ {u}, Reach succ root u → u < graph.numNodes := by
      intro u hu
      induction hu with
      | refl => exact hroot
      | tail _ hvw ih => exact hgraph.closed _ ih _ hvw
    have hbelow : ∀ u ∈ x :: stack, u ∈ Finset.range graph.numNodes := fun u hu =>
      Finset.mem_range.2 (hin (hi.reach (mem_append_right _ hu)))
    have hV : ∀ u ∈ Finset.range graph.numNodes, ∀ v ∈ succ u, v ∈ Finset.range graph.numNodes :=
      fun u hu v hv => Finset.mem_range.2 (hgraph.closed u (Finset.mem_range.1 hu) v hv)
    obtain ⟨search', w', hnext, hs, hat, hout⟩ :=
      next_spec hgraph h (Finset.mem_range.1 (hbelow x (.head _)))
    have hlt := hs.turns_lt hV hbelow
    obtain ⟨rest, marked', hrest, hi'⟩ :=
      collect_at hgraph hroot k search' w' hat (hs.inv hi) (by omega)
    refine ⟨x :: rest, marked', ?_, ?_⟩
    · rw [collect, hnext, ok_bind]
      simp only [hrest, ok_bind, pure_eq]
    · rw [hout] at hi'
      simpa using hi'

theorem collect_spec (hgraph : graph.HasSuccessors succ) (hroot : root < graph.numNodes)
    {fuel : Nat} (hfuel : graph.numNodes + 1 < fuel) :
    ∃ out marked, (new graph root).collect graph fuel = .ok out ∧
      Discovery.Inv succ root ⟨marked, [], out⟩ := by
  have hturns : (Discovery.start root).turns (Finset.range graph.numNodes) < fuel := by
    rw [Discovery.turns_start, Finset.card_range]
    omega
  obtain ⟨out, marked, hrun, hi⟩ := collect_at hgraph hroot fuel (new graph root)
    (Discovery.start root) ⟨rfl, Index.BitSet.newEmpty_holds _⟩ Discovery.start_inv hturns
  exact ⟨out, marked, hrun, hi⟩

/-- The iteration yields each node that can be reached from the start once, and nothing else, exactly
when the start is on no cycle. -/
theorem collect_iff {graph : DirectedGraph} {succ : Nat → List Nat} {root fuel : Nat}
    (hgraph : graph.HasSuccessors succ) (hroot : root < graph.numNodes)
    (hfuel : graph.numNodes + 1 < fuel) : ∃ out, (new graph root).collect graph fuel = .ok out ∧
      ((out.Nodup ∧ ∀ v, v ∈ out ↔ Reach succ root v) ↔
        ¬ Relation.TransGen (fun u v => v ∈ succ u) root root) := by
  obtain ⟨out, marked, hrun, hi⟩ := collect_spec hgraph hroot hfuel
  refine ⟨out, hrun, ?_⟩
  rw [← hi.nodup_iff]
  exact and_iff_left fun v => hi.mem_out

/-- Two nodes that lead to each other. -/
def pair : DirectedGraph := ⟨2, fun v => .ok [1 - v]⟩

theorem pair_hasSuccessors : pair.HasSuccessors fun v => [1 - v] where
  successors_eq _ _ := rfl
  closed v _ w hw := by
    rw [mem_singleton.1 hw]
    exact (Nat.sub_le 1 v).trans_lt Nat.one_lt_two

/-- From a node of a cycle the iteration runs, on two nodes that lead to each other. -/
theorem collect_iff_pair : ∃ out, (new pair 0).collect pair 4 = .ok out ∧
    ((out.Nodup ∧ ∀ v, v ∈ out ↔ Reach (fun v => [1 - v]) 0 v) ↔
      ¬ Relation.TransGen (fun u v => v ∈ [1 - u]) 0 0) :=
  collect_iff pair_hasSuccessors (by decide) (by decide)

/-- A start on a cycle is yielded twice. -/
theorem collect_pair : (new pair 0).collect pair 4 = .ok [0, 1, 0] ∧ ¬ [0, 1, 0].Nodup := by
  refine ⟨by decide, by decide⟩

end DepthFirstSearch

end Tortis
