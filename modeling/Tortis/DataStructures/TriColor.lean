import Tortis.DataStructures.SccWalk
import Tortis.Index.BitSet
import Tortis.Lib.TriColor

/-!
# The tri-colour depth-first search

`TriColorDepthFirstSearch` of `librustc_data_structures/graph/iterate/mod.rs`. The recursion of the
textbook search is replaced by one stack of events: a `Visited` event asks for a node to be examined,
a `Settled` event for it to be settled, and an examined node pushes its `Settled` event and a
`Visited` event for each successor. The stack is a postorder walk written out flat (`events`): below
the `Visited` events that are left for a node lies its own `Settled` event. So the calls a search
makes are the moves of a walk (`runFrom_eq`), whatever the visitor does, up to its first break.
-/

namespace Tortis

open Outcome List

inductive ControlFlow (β : Type) where
  | «break» (val : β)
  | «continue»

inductive NodeStatus where
  | visited
  | settled

structure Event where
  node : Nat
  becomes : NodeStatus

/-- `TriColorDepthFirstSearch`; the stack has its top first. -/
structure TriColorDepthFirstSearch where
  stack : List Event
  visited : Index.BitSet
  settled : Index.BitSet

/-- `TriColorVisitor`, for visitors whose state is of type `σ`. -/
structure TriColorVisitor (σ β : Type) where
  nodeExamined : Nat → Option NodeStatus → σ → ControlFlow β × σ
  nodeSettled : Nat → σ → ControlFlow β × σ

/-- `CycleDetector`, which has the default `node_settled`. -/
def CycleDetector : TriColorVisitor Unit Unit where
  nodeExamined _ priorStatus _ :=
    match priorStatus with
    | some .visited => (.break (), ())
    | _ => (.continue, ())
  nodeSettled _ _ := (.continue, ())

namespace TriColorDepthFirstSearch

def new (graph : DirectedGraph) : TriColorDepthFirstSearch :=
  ⟨[], Index.BitSet.newEmpty graph.numNodes, Index.BitSet.newEmpty graph.numNodes⟩

/-- The status of a node before it is examined. -/
def priorStatus (notPreviouslyVisited : Bool) (settled : Index.BitSet) (node : Nat) :
    Outcome (Option NodeStatus) := do
  if notPreviouslyVisited then return none
  else if ← settled.contains node then return some .settled
  else return some .visited

def loop {σ β : Type} (graph : DirectedGraph) (visitor : TriColorVisitor σ β) :
    Nat → TriColorDepthFirstSearch → σ → Outcome (Option β × σ)
  | 0, _, _ => .error .outOfFuel
  | _ + 1, ⟨[], _, _⟩, state => .ok (none, state)
  | k + 1, ⟨⟨node, .settled⟩ :: stack, visited, settled⟩, state => do
    let (notPreviouslySettled, settled) ← settled.insert node
    assert notPreviouslySettled "A node should be settled exactly once"
    match visitor.nodeSettled node state with
    | (.break val, state) => return (some val, state)
    | (.continue, state) => loop graph visitor k ⟨stack, visited, settled⟩ state
  | k + 1, ⟨⟨node, .visited⟩ :: stack, visited, settled⟩, state => do
    let (notPreviouslyVisited, visited) ← visited.insert node
    let priorStatus ← priorStatus notPreviouslyVisited settled node
    match visitor.nodeExamined node priorStatus state with
    | (.break val, state) => return (some val, state)
    | (.continue, state) =>
      if priorStatus.isSome then loop graph visitor k ⟨stack, visited, settled⟩ state
      else do
        let successors ← graph.successors node
        let stack := successors.foldl (fun stack succ => ⟨succ, .visited⟩ :: stack)
          (⟨node, .settled⟩ :: stack)
        loop graph visitor k ⟨stack, visited, settled⟩ state

def runFrom {σ β : Type} (graph : DirectedGraph) (search : TriColorDepthFirstSearch) (root : Nat)
    (visitor : TriColorVisitor σ β) (state : σ) (fuel : Nat) : Outcome (Option β × σ) :=
  loop graph visitor fuel { search with stack := ⟨root, .visited⟩ :: search.stack } state

end TriColorDepthFirstSearch

/-! ## What a visitor is called with -/

inductive VisitorCall where
  | nodeExamined (node : Nat) (priorStatus : Option NodeStatus)
  | nodeSettled (node : Nat)

def VisitorCall.settles : VisitorCall → Option Nat
  | .nodeExamined _ _ => none
  | .nodeSettled node => some node

def VisitorCall.ofMove : Walk.Move Nat → VisitorCall
  | .enter v => .nodeExamined v none
  | .back v => .nodeExamined v (some .visited)
  | .pass v => .nodeExamined v (some .settled)
  | .leave v => .nodeSettled v

namespace TriColorVisitor

variable {σ β : Type}

def call (visitor : TriColorVisitor σ β) : VisitorCall → σ → ControlFlow β × σ
  | .nodeExamined node priorStatus, state => visitor.nodeExamined node priorStatus state
  | .nodeSettled node, state => visitor.nodeSettled node state

/-- What a visitor makes of a sequence of calls, which ends where it breaks. -/
def callAll (visitor : TriColorVisitor σ β) : List VisitorCall → σ → Option β × σ
  | [], state => (none, state)
  | c :: calls, state =>
    match visitor.call c state with
    | (.break val, state) => (some val, state)
    | (.continue, state) => visitor.callAll calls state

/-- The visitor does not break. -/
def NeverBreaks (visitor : TriColorVisitor σ β) : Prop :=
  ∀ c state, (visitor.call c state).1 = .continue

theorem NeverBreaks.callAll {visitor : TriColorVisitor σ β} (h : visitor.NeverBreaks) :
    ∀ (calls : List VisitorCall) (state : σ),
      visitor.callAll calls state = (none, calls.foldl (fun state c => (visitor.call c state).2) state)
  | [], _ => rfl
  | c :: calls, state => by
    have hc := h c state
    have ih := NeverBreaks.callAll h calls (visitor.call c state).2
    rw [TriColorVisitor.callAll, foldl_cons, ← ih]
    split
    · rename_i heq
      rw [heq] at hc
      cases hc
    · rename_i heq
      rw [heq]

end TriColorVisitor

theorem CycleDetector.callAll_isSome : ∀ (calls : List VisitorCall),
    (CycleDetector.callAll calls ()).1.isSome ↔ ∃ v, .nodeExamined v (some .visited) ∈ calls
  | [] => by simp [TriColorVisitor.callAll]
  | .nodeExamined v (some .visited) :: calls => by
    simp [TriColorVisitor.callAll, TriColorVisitor.call, CycleDetector]
  | .nodeExamined v none :: calls | .nodeExamined v (some .settled) :: calls
  | .nodeSettled v :: calls => by
    have ih := CycleDetector.callAll_isSome calls
    simpa [TriColorVisitor.callAll, TriColorVisitor.call, CycleDetector] using ih

namespace TriColorDepthFirstSearch

/-! ## The search is a postorder walk -/

/-- The events of the stack of a walk. -/
def events : List (Nat × List Nat) → List Event
  | [] => []
  | (b, iter) :: st => iter.map (⟨·, .visited⟩) ++ ⟨b, .settled⟩ :: events st

/-- The search is at a walk over the nodes below `n`. -/
structure At (n : Nat) (search : TriColorDepthFirstSearch) (w : Walk Nat) : Prop where
  stack : search.stack = events w.stack
  visited : search.visited.Holds n w.visited.toList.toFinset
  settled : search.settled.Holds n w.out.toFinset

variable {σ β : Type} {graph : DirectedGraph} {succ : Nat → List Nat} {root : Nat}

theorem foldl_push (l : List Nat) (stack : List Event) :
    l.foldl (fun stack succ => ⟨succ, .visited⟩ :: stack) stack =
      l.reverse.map (⟨·, .visited⟩) ++ stack := by
  induction l generalizing stack with
  | nil => rfl
  | cons a l ih => rw [foldl_cons, ih]; simp

variable {node : Nat}

theorem loop_new {visited : Index.BitSet} {S : Finset Nat}
    (hgraph : graph.HasSuccessors succ) (hv : visited.Holds graph.numNodes S)
    (hnode : node < graph.numNodes) (hS : node ∉ S) :
    ∃ visited', visited'.Holds graph.numNodes (insert node S) ∧
      ∀ (visitor : TriColorVisitor σ β) settled k stack state,
        loop graph visitor (k + 1) ⟨⟨node, .visited⟩ :: stack, visited, settled⟩ state =
          match visitor.nodeExamined node none state with
          | (.break val, state) => .ok (some val, state)
          | (.continue, state) => loop graph visitor k
              ⟨(succ node).reverse.map (⟨·, .visited⟩) ++ ⟨node, .settled⟩ :: stack, visited',
                settled⟩ state := by
  obtain ⟨changed, visited', hins, hv', hchanged⟩ := hv.insert hnode
  have htrue : changed = true := hchanged.2 fun heq => hS (Finset.insert_eq_self.1 heq)
  refine ⟨visited', hv', fun visitor settled k stack state => ?_⟩
  rw [loop, hins, ok_bind]
  simp only [htrue, priorStatus, if_true, pure_eq, ok_bind, Option.isSome_none,
    Bool.false_eq_true, if_false, hgraph.successors_eq node hnode, foldl_push]

theorem loop_old {visited settled : Index.BitSet} {n : Nat} {S T : Finset Nat}
    (hv : visited.Holds n S) (hs : settled.Holds n T) (hnode : node < n)
    (hS : node ∈ S) (visitor : TriColorVisitor σ β) (k : Nat) (stack : List Event) (state : σ) :
    loop graph visitor (k + 1) ⟨⟨node, .visited⟩ :: stack, visited, settled⟩ state =
      match visitor.nodeExamined node
        (some (if node ∈ T then .settled else .visited)) state with
      | (.break val, state) => .ok (some val, state)
      | (.continue, state) => loop graph visitor k ⟨stack, visited, settled⟩ state := by
  obtain ⟨changed, visited', hins, hv', hchanged⟩ := hv.insert hnode
  rw [Finset.insert_eq_of_mem hS] at hv' hchanged
  have hfalse : changed = false := by simpa using hchanged
  obtain rfl := hv'.unique hv
  refine (congrArg (· >>= _) hins).trans ?_
  by_cases hT : node ∈ T <;>
    simp [hfalse, priorStatus, hs.contains hnode, hT]

theorem loop_settled {settled : Index.BitSet} {n : Nat} {T : Finset Nat}
    (hs : settled.Holds n T) (hnode : node < n) (hT : node ∉ T) :
    ∃ settled', settled'.Holds n (insert node T) ∧
      ∀ (graph : DirectedGraph) (visitor : TriColorVisitor σ β) visited k stack state,
        loop graph visitor (k + 1) ⟨⟨node, .settled⟩ :: stack, visited, settled⟩ state =
          match visitor.nodeSettled node state with
          | (.break val, state) => .ok (some val, state)
          | (.continue, state) => loop graph visitor k ⟨stack, visited, settled'⟩ state := by
  obtain ⟨changed, settled', hins, hs', hchanged⟩ := hs.insert hnode
  have htrue : changed = true := hchanged.2 fun heq => hT (Finset.insert_eq_self.1 heq)
  refine ⟨settled', hs', fun graph visitor visited k stack state => ?_⟩
  refine (congrArg (· >>= _) hins).trans ?_
  simp only [htrue, assert, if_true, ok_bind, pure_eq]

theorem match_call {visitor : TriColorVisitor σ β} {c : VisitorCall} {calls : List VisitorCall}
    {state : σ} {next : σ → Outcome (Option β × σ)}
    (h : ∀ state, next state = .ok (visitor.callAll calls state)) :
    (match visitor.call c state with
      | (.break val, state) => (.ok (some val, state) : Outcome (Option β × σ))
      | (.continue, state) => next state) = .ok (visitor.callAll (c :: calls) state) := by
  rw [TriColorVisitor.callAll]
  split
  · rfl
  · exact h _

variable {fin : List Nat} {moves : List (Walk.Move Nat)}

theorem loop_eq (hgraph : graph.HasSuccessors succ)
    (hV : ∀ v, Reach (fun v => (succ v).reverse) root v → v < graph.numNodes) {w : Walk Nat}
    (hf : w.Finishes (fun v => (succ v).reverse) moves fin) :
    ∀ {search : TriColorDepthFirstSearch}, At graph.numNodes search w →
      w.Inv (fun v => (succ v).reverse) root →
      ∀ (visitor : TriColorVisitor σ β) {k : Nat}, moves.length < k → ∀ state,
        loop graph visitor k search state =
          .ok (visitor.callAll (moves.map VisitorCall.ofMove) state) := by
  induction hf with
  | done =>
    rintro ⟨stack, visited, settled⟩ h - visitor (_ | k) hk state
    · simp at hk
    · obtain rfl := h.stack
      rfl
  | @enter vis b s iter st out moves fin hvis _ ih =>
    rintro ⟨stack, visited, settled⟩ h hi visitor (_ | k) hk state
    · simp at hk
    obtain rfl := h.stack
    have hs : s < graph.numNodes := hV s (hi.reach_remaining _ (.head _) s (.head _))
    obtain ⟨visited', hv', hloop⟩ := loop_new (σ := σ) (β := β) hgraph h.visited hs
      (by simpa using hvis)
    refine (hloop visitor settled k _ state).trans (match_call (c := .nodeExamined s none) fun state => ?_)
    refine ih ?_ ((Walk.Step.push hvis).inv hi) visitor (Nat.lt_of_succ_lt_succ hk) state
    refine ⟨rfl, ?_, h.settled⟩
    convert hv' using 1
    ext v
    simp
  | @back vis b s iter st out moves fin hvis hout _ ih =>
    rintro ⟨stack, visited, settled⟩ h hi visitor (_ | k) hk state
    · simp at hk
    obtain rfl := h.stack
    have hs : s < graph.numNodes := hV s (hi.reach_remaining _ (.head _) s (.head _))
    refine (loop_old h.visited h.settled hs (by simpa using hvis) visitor k _ state).trans ?_
    rw [if_neg (by simpa using hout)]
    refine match_call (c := .nodeExamined s (some .visited)) fun state => ?_
    refine ih ?_ ((Walk.Step.skip hvis).inv hi) visitor (Nat.lt_of_succ_lt_succ hk) state
    exact ⟨rfl, h.visited, h.settled⟩
  | @pass vis b s iter st out moves fin hvis hout _ ih =>
    rintro ⟨stack, visited, settled⟩ h hi visitor (_ | k) hk state
    · simp at hk
    obtain rfl := h.stack
    have hs : s < graph.numNodes := hV s (hi.reach_remaining _ (.head _) s (.head _))
    refine (loop_old h.visited h.settled hs (by simpa using hvis) visitor k _ state).trans ?_
    rw [if_pos (by simpa using hout)]
    refine match_call (c := .nodeExamined s (some .settled)) fun state => ?_
    refine ih ?_ ((Walk.Step.skip hvis).inv hi) visitor (Nat.lt_of_succ_lt_succ hk) state
    exact ⟨rfl, h.visited, h.settled⟩
  | @leave vis b st out moves fin _ ih =>
    rintro ⟨stack, visited, settled⟩ h hi visitor (_ | k) hk state
    · simp at hk
    obtain rfl := h.stack
    have hvis : b ∈ vis := (hi.mem_visited b).2 (.inl (.head _))
    have hb : b < graph.numNodes :=
      hV b (Relation.ReflTransGen.mono (fun _ _ => And.left) _ _ (hi.reach b hvis))
    have hout : b ∉ out := fun hb => (nodup_append.1 hi.nodup).2.2 b (.head _) b hb rfl
    obtain ⟨settled', hs', hloop⟩ := loop_settled (σ := σ) (β := β) h.settled hb
      (by simpa using hout)
    refine (hloop graph visitor visited k _ state).trans (match_call (c := .nodeSettled b) fun state => ?_)
    refine ih ?_ (Walk.Step.pop.inv hi) visitor (Nat.lt_of_succ_lt_succ hk) state
    refine ⟨rfl, h.visited, ?_⟩
    convert hs' using 1
    ext v
    simp

theorem mem_reverse_iff (succ : Nat → List Nat) :
    (fun u v => v ∈ (succ u).reverse) = fun u v => v ∈ succ u := by
  funext u v
  exact propext mem_reverse

theorem reach_lt (hgraph : graph.HasSuccessors succ) (hroot : root < graph.numNodes) {v : Nat}
    (hv : Reach succ root v) : v < graph.numNodes := by
  induction hv with
  | refl => exact hroot
  | tail _ hvw ih => exact hgraph.closed _ ih _ hvw

/-- A search ends and makes the calls for the moves of the walk that enters its root, up to the first
break. -/
theorem runFrom_eq (hgraph : graph.HasSuccessors succ) (hroot : root < graph.numNodes) :
    ∃ moves fin, (Walk.start (fun v => (succ v).reverse) root).Finishes
        (fun v => (succ v).reverse) moves fin ∧
      ∀ (σ β : Type) (visitor : TriColorVisitor σ β) (state : σ) {fuel : Nat},
        moves.length + 2 ≤ fuel → (new graph).runFrom graph root visitor state fuel =
          .ok (visitor.callAll (.nodeExamined root none :: moves.map VisitorCall.ofMove) state) := by
  have hV : ∀ v, Reach (fun v => (succ v).reverse) root v → v ∈ Finset.range graph.numNodes := by
    intro v hv
    rw [Reach, mem_reverse_iff] at hv
    exact Finset.mem_range.2 (reach_lt hgraph hroot hv)
  obtain ⟨moves, fin, hf, -⟩ := Walk.exists_finishes hV _ _ Walk.start_inv le_rfl
  refine ⟨moves, fin, hf, ?_⟩
  rintro σ β visitor state (_ | k) hk
  · omega
  obtain ⟨visited', hv', hloop⟩ := loop_new (σ := σ) (β := β) hgraph
    (Index.BitSet.newEmpty_holds graph.numNodes) hroot (Finset.notMem_empty root)
  refine (hloop visitor _ k [] state).trans (match_call (c := .nodeExamined root none) fun state => ?_)
  refine loop_eq hgraph (fun v hv => Finset.mem_range.1 (hV v hv)) hf ?_ Walk.start_inv visitor
    (by omega) state
  refine ⟨rfl, ?_, Index.BitSet.newEmpty_holds _⟩
  convert hv' using 1
  ext v
  simp [Walk.start]

theorem filterMap_settles (moves : List (Walk.Move Nat)) :
    (moves.map VisitorCall.ofMove).filterMap VisitorCall.settles =
      moves.filterMap Walk.Move.left := by
  rw [filterMap_map]
  congr 1
  funext move
  cases move <;> rfl

theorem cycleDetector_isSome_iff
    (hf : (Walk.start (fun v => (succ v).reverse) root).Finishes (fun v => (succ v).reverse) moves
      fin) :
    (CycleDetector.callAll (.nodeExamined root none :: moves.map VisitorCall.ofMove) ()).1.isSome ↔
      ∃ v, Reach succ root v ∧ Relation.TransGen (fun u v => v ∈ succ u) v v := by
  have hback := hf.exists_back_iff
  rw [Reach, mem_reverse_iff] at hback
  rw [CycleDetector.callAll_isSome, ← hback]
  refine exists_congr fun v => ?_
  rw [mem_cons, or_iff_right (by simp), mem_map]
  constructor
  · rintro ⟨move, hmove, heq⟩
    cases move <;> cases heq
    exact hmove
  · exact fun h => ⟨_, h, rfl⟩

/-- The cycle detector finds exactly the cycles that can be reached. A visitor that does not break is
called, for each node that can be reached, once to settle it, after what is reached from it along
nodes that do not lead back to it. -/
theorem runFrom_spec {graph : DirectedGraph} {succ : Nat → List Nat} {root : Nat}
    (hgraph : graph.HasSuccessors succ) (hroot : root < graph.numNodes) : ∃ N, ∀ fuel ≥ N,
      (∃ result, (new graph).runFrom graph root CycleDetector () fuel = .ok (result, ()) ∧
        (result.isSome ↔ ∃ v, Reach succ root v ∧ Relation.TransGen (fun u v => v ∈ succ u) v v)) ∧
      ∃ calls : List VisitorCall,
        (∀ (σ β : Type) (visitor : TriColorVisitor σ β), visitor.NeverBreaks → ∀ state,
          (new graph).runFrom graph root visitor state fuel =
            .ok (none, calls.foldl (fun state c => (visitor.call c state).2) state)) ∧
        (calls.filterMap VisitorCall.settles).Nodup ∧
        (∀ v, v ∈ calls.filterMap VisitorCall.settles ↔ Reach succ root v) ∧
        ∀ pre x post, calls.filterMap VisitorCall.settles = pre ++ x :: post → ∀ m,
          Relation.TransGen (fun u v => v ∈ succ u ∧ ¬ Reach succ v x) x m → m ∈ pre := by
  obtain ⟨moves, fin, hf, hrun⟩ := runFrom_eq hgraph hroot
  obtain ⟨hpost, hawaited⟩ := hf.isPostorder
  have hreach : ∀ u v, Reach (fun v => (succ v).reverse) u v ↔ Reach succ u v := fun u v => by
    rw [Reach, mem_reverse_iff]
  have hsettles : (VisitorCall.nodeExamined root none :: moves.map VisitorCall.ofMove).filterMap
      VisitorCall.settles = fin := by
    rw [hf.out_eq, ← filterMap_settles]
    rfl
  refine ⟨moves.length + 2, fun fuel hfuel => ⟨⟨_, hrun _ _ CycleDetector () hfuel, ?_⟩,
    VisitorCall.nodeExamined root none :: moves.map VisitorCall.ofMove, ?_, ?_⟩⟩
  · exact cycleDetector_isSome_iff hf
  · intro σ β visitor hvisitor state
    rw [hrun σ β visitor state hfuel, hvisitor.callAll]
  · rw [hsettles]
    refine ⟨hpost.nodup, fun v => (hpost.mem_iff v).trans (hreach root v), ?_⟩
    rintro pre x post rfl m hm
    refine hawaited.mem_pre ?_
    simpa only [mem_reverse, hreach] using hm

/-- The successors of a node with a successor that leads back to it and one that does not. -/
def forkSuccessors : Nat → List Nat
  | 0 => [1, 2]
  | 2 => [0]
  | _ => []

def fork : DirectedGraph := ⟨3, fun v => .ok (forkSuccessors v)⟩

theorem fork_hasSuccessors : fork.HasSuccessors forkSuccessors where
  successors_eq _ _ := rfl
  closed := by decide

/-- The cycle through the start is found. -/
theorem runFrom_fork : ∃ N, ∀ fuel ≥ N,
    (new fork).runFrom fork 0 CycleDetector () fuel = .ok (some (), ()) := by
  obtain ⟨N, hN⟩ := runFrom_spec fork_hasSuccessors (by decide : 0 < fork.numNodes)
  refine ⟨N, fun fuel hfuel => ?_⟩
  obtain ⟨⟨result, hrun, hcycle⟩, -⟩ := hN fuel hfuel
  obtain ⟨u, rfl⟩ := Option.isSome_iff_exists.1 (hcycle.2 ⟨0, .refl,
    .tail (.single (by decide : 2 ∈ forkSuccessors 0)) (by decide)⟩)
  exact hrun

def noteSettled : TriColorVisitor (List Nat) Unit where
  nodeExamined _ _ state := (.continue, state)
  nodeSettled node state := (.continue, state ++ [node])

/-- A node can be settled before one that is reached from it and does not lead back, when the path
leads through a node that does: `2` before `1`. -/
theorem runFrom_noteSettled : (new fork).runFrom fork 0 noteSettled [] 8 = .ok (none, [2, 1, 0]) ∧
      Reach forkSuccessors 2 1 ∧ ¬ Reach forkSuccessors 1 2 := by
  refine ⟨by decide, ?_, fun h => ?_⟩
  · exact .tail (.single (by decide : 0 ∈ forkSuccessors 2)) (by decide)
  · obtain h | ⟨v, hv, -⟩ := h.cases_head
    · cases h
    · cases hv

end TriColorDepthFirstSearch

end Tortis
