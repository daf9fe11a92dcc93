import Tortis.Lib.Preorder
import Tortis.Mir.Traversal

/-!
# Preorder and the iterator in reverse postorder

`Preorder` of `librustc/mir/traversal.rs`, which keeps the marks and a worklist that may hold a block
several times, and the iterator `ReversePostorder`, which runs through the blocks of a postorder from
their end. `reversePostorder_order` says that on every well-formed body the two yield the blocks that
can be reached, the first in an order that respects every edge outside a cycle.

`Body::is_cfg_cyclic` of `librustc/mir/mod.rs` runs the tri-colour search with the cycle detector.
When it says no, the reverse postorder is a topological order (`isCfgCyclic_iff`).
-/

namespace Tortis

open List Outcome

/-! ## The iterators -/

/-- The state of a preorder iterator; the worklist has its end first. -/
structure Preorder where
  visited : FxHashSet BasicBlock
  worklist : List BasicBlock
  rootIsStartBlock : Bool

namespace Preorder

def new (root : BasicBlock) : Preorder := ⟨∅, [root], root == START_BLOCK⟩

/-- The loop of `Iterator::next`: take blocks off the worklist up to the first one that is not
marked. -/
def nextFrom (body : Body) (visited : FxHashSet BasicBlock) (isStart : Bool) :
    List BasicBlock → Outcome (Option BasicBlock × Preorder)
  | [] => .ok (none, ⟨visited, [], isStart⟩)
  | idx :: worklist =>
    if idx ∈ visited then nextFrom body visited isStart worklist
    else do
      let data ← body.block idx
      match data.terminator with
      | some term =>
        .ok (some idx, ⟨visited.insert idx, term.successors.reverse ++ worklist, isStart⟩)
      | none => .ok (some idx, ⟨visited.insert idx, worklist, isStart⟩)

def next (body : Body) (po : Preorder) : Outcome (Option BasicBlock × Preorder) :=
  nextFrom body po.visited po.rootIsStartBlock po.worklist

/-- The blocks the iterator yields from a state on. -/
def collect (body : Body) : Nat → Preorder → Outcome (List BasicBlock)
  | 0, _ => .error .outOfFuel
  | k + 1, po => do
    match ← next body po with
    | (some bb, po) => return bb :: (← collect body k po)
    | (none, _) => return []

end Preorder

def preorder (body : Body) : Outcome (List BasicBlock) :=
  (Preorder.new START_BLOCK).collect body (body.basicBlocks.length + 1)

structure ReversePostorder where
  blocks : List BasicBlock
  idx : Nat

namespace ReversePostorder

def new (body : Body) (root : BasicBlock) : Outcome ReversePostorder := do
  let blocks ← postorder body root
  return ⟨blocks, blocks.length⟩

def next (body : Body) (po : ReversePostorder) : Outcome (Option BasicBlock × ReversePostorder) :=
  if po.idx = 0 then .ok (none, po)
  else match po.blocks[po.idx - 1]? with
    | some bb => do
      let _ ← body.block bb
      return (some bb, { po with idx := po.idx - 1 })
    | none => .ok (none, { po with idx := po.idx - 1 })

/-- The blocks the iterator yields from a state on. -/
def collect (body : Body) : Nat → ReversePostorder → Outcome (List BasicBlock)
  | 0, _ => .error .outOfFuel
  | k + 1, po => do
    match ← next body po with
    | (some bb, po) => return bb :: (← collect body k po)
    | (none, _) => return []

end ReversePostorder

theorem length_le_of_lt {out : List BasicBlock} (hnodup : out.Nodup) {n : Nat}
    (hlt : ∀ b ∈ out, b < n) : out.length ≤ n := by
  have hsub : out ⊆ range n := fun b hb => mem_range.2 (hlt b hb)
  simpa using hnodup.length_le_of_subset hsub

/-! ## The preorder iterator is a search -/

namespace Preorder

/-- The search an iterator is at when it has yielded `out`. -/
def sweep (po : Preorder) (out : List BasicBlock) : Sweep BasicBlock :=
  ⟨po.visited, po.worklist, out⟩

variable {body : Body} {root : BasicBlock} (h : body.WF) (hroot : root < body.basicBlocks.length)
include h hroot

theorem worklist_lt {w : Sweep BasicBlock} (hi : w.Inv body.successors root) :
    ∀ b ∈ w.worklist, b < body.basicBlocks.length := by
  intro b hb
  by_cases hne : b = root
  · exact hne ▸ hroot
  · obtain ⟨p, -, hp⟩ := hi.pending b hb hne
    exact h.inRange p b hp

theorem nextFrom_spec (isStart : Bool) (visited : FxHashSet BasicBlock) (out : List BasicBlock) :
    ∀ worklist, Sweep.Inv body.successors root ⟨visited, worklist, out⟩ →
      (nextFrom body visited isStart worklist = .ok (none, ⟨visited, [], isStart⟩) ∧
        Sweep.Inv body.successors root ⟨visited, [], out⟩) ∨
      ∃ bb po, nextFrom body visited isStart worklist = .ok (some bb, po) ∧
        po.rootIsStartBlock = isStart ∧ bb < body.basicBlocks.length ∧ bb ∉ out ∧
        (po.sweep (out ++ [bb])).Inv body.successors root := by
  intro worklist
  induction worklist with
  | nil => exact fun hi => .inl ⟨rfl, hi⟩
  | cons idx worklist ih =>
    intro hi
    by_cases hvis : idx ∈ visited
    · have := ih ((Sweep.Step.skip hvis).inv hi)
      rwa [nextFrom, if_pos hvis]
    · obtain ⟨data, term, hdata, hterm, hsucc⟩ :=
        Postorder.block_spec h (worklist_lt h hroot hi idx (.head _))
      refine .inr ⟨idx, ⟨visited.insert idx, (body.successors idx).reverse ++ worklist, isStart⟩,
        ?_, rfl, worklist_lt h hroot hi idx (.head _), mt (hi.mem_visited idx).2 hvis,
        (Sweep.Step.visit hvis).inv hi⟩
      rw [nextFrom, if_neg hvis, hdata, ok_bind, hterm, ← hsucc]

theorem length_le {w : Sweep BasicBlock} (hi : w.Inv body.successors root) :
    w.out.length ≤ body.basicBlocks.length := by
  refine length_le_of_lt hi.nodup fun b hb => ?_
  rcases Relation.ReflTransGen.cases_tail (hi.reach b hb) with rfl | ⟨p, -, hp⟩
  · exact hroot
  · exact h.inRange p b hp

theorem collect_spec :
    ∀ (k : Nat) (po : Preorder) (out : List BasicBlock), (po.sweep out).Inv body.successors root →
      body.basicBlocks.length < k + out.length →
      ∃ rest, po.collect body k = .ok rest ∧ IsPreorder body.successors root (out ++ rest) := by
  intro k
  induction k with
  | zero =>
    intro po out hi hk
    have := length_le h hroot hi
    simp only [sweep] at this
    omega
  | succ k ih =>
    intro po out hi hk
    rcases nextFrom_spec h hroot po.rootIsStartBlock po.visited out po.worklist hi with
      ⟨hrun, hi'⟩ | ⟨bb, po', hrun, -, -, -, hi'⟩
    · exact ⟨[], by simp [collect, next, hrun], by simpa using hi'.isPreorder⟩
    · obtain ⟨rest, hrest, hpre⟩ := ih po' (out ++ [bb]) hi' (by simp; omega)
      exact ⟨bb :: rest, by simp [collect, next, hrun, hrest], by simpa using hpre⟩

theorem collect_new :
    ∃ out, (new root).collect body (body.basicBlocks.length + 1) = .ok out ∧
      IsPreorder body.successors root out := by
  obtain ⟨out, hout, hpre⟩ :=
    collect_spec h hroot (body.basicBlocks.length + 1) (new root) [] Sweep.start_inv (by simp)
  exact ⟨out, hout, by simpa using hpre⟩

end Preorder

/-! ## The iterator in reverse postorder -/

namespace ReversePostorder

variable {body : Body} {blocks : List BasicBlock}

theorem next_spec (hlt : ∀ b ∈ blocks, b < body.basicBlocks.length) {idx : Nat}
    (hidx : idx < blocks.length) :
    next body ⟨blocks, idx + 1⟩ = .ok (some blocks[idx], ⟨blocks, idx⟩) := by
  have hbb := hlt blocks[idx] (getElem_mem hidx)
  have hblock : body.block blocks[idx] = .ok body.basicBlocks[blocks[idx]] := by
    simp [Body.block, hbb]
  simp [next, hidx, hblock]

theorem collect_eq (hlt : ∀ b ∈ blocks, b < body.basicBlocks.length) :
    ∀ (idx k : Nat), idx ≤ blocks.length → idx < k →
      collect body k ⟨blocks, idx⟩ = .ok (blocks.take idx).reverse := by
  intro idx
  induction idx with
  | zero =>
    intro k _ hk
    obtain ⟨k, rfl⟩ := Nat.exists_eq_succ_of_ne_zero hk.ne'
    simp [collect, next]
  | succ idx ih =>
    intro k hle hk
    obtain ⟨k, rfl⟩ := Nat.exists_eq_succ_of_ne_zero (Nat.zero_lt_of_lt hk).ne'
    have hrest := ih k (Nat.le_of_succ_le hle) (Nat.lt_of_succ_lt_succ hk)
    rw [collect, next_spec hlt hle, ok_bind]
    simp only [hrest, ok_bind]
    rw [take_add_one, getElem?_eq_getElem hle, Option.toList_some, reverse_append]
    rfl

theorem collect_new (h : body.WF) {root : BasicBlock} (hroot : root < body.basicBlocks.length) :
    ∃ out, new body root = .ok ⟨out, out.length⟩ ∧ IsPostorder body.successors root out ∧
      (∀ b ∈ out, b < body.basicBlocks.length) ∧
      ∀ k, out.length < k → collect body k ⟨out, out.length⟩ = .ok out.reverse := by
  obtain ⟨out, hout, hpost⟩ := postorder_spec h hroot
  have hlt : ∀ b ∈ out, b < body.basicBlocks.length := by
    intro b hb
    rcases Relation.ReflTransGen.cases_tail ((hpost.mem_iff b).1 hb) with rfl | ⟨p, -, hp⟩
    · exact hroot
    · exact h.inRange p b hp
  refine ⟨out, by simp [new, hout], hpost, hlt, fun k hk => ?_⟩
  simpa using collect_eq hlt out.length k le_rfl hk

end ReversePostorder

/-! ## Both orders -/

/-- On a well-formed body the iterator in reverse postorder ends and yields every block that can be
reached, once, and `u` before `v` for every edge from `u` to `v` that is on no cycle; the preorder
iterator ends and yields the same blocks, once each, and each but the start block after one of its
predecessors. -/
theorem reversePostorder_order {body : Body} (h : body.WF) :
    ∃ po out pre, ReversePostorder.new body START_BLOCK = .ok po ∧
      (∀ k, body.basicBlocks.length < k → po.collect body k = .ok out) ∧ preorder body = .ok pre ∧
      (out.Nodup ∧ ∀ b, b ∈ out ↔ Reach body.successors START_BLOCK b) ∧
      (∀ u ∈ out, ∀ v ∈ body.successors u, ¬ Reach body.successors v u →
        out.idxOf u < out.idxOf v) ∧ (pre.Nodup ∧ ∀ b, b ∈ pre ↔ b ∈ out) ∧
      ∀ before b after, pre = before ++ b :: after → b ≠ START_BLOCK →
        ∃ p ∈ before, b ∈ body.successors p := by
  obtain ⟨out, hnew, hpost, hlt, hcollect⟩ := ReversePostorder.collect_new h h.start
  obtain ⟨pre, hrun, hpre⟩ := Preorder.collect_new h h.start
  have hrev := hpost.reverse
  have hlen := length_le_of_lt hpost.nodup hlt
  refine ⟨_, out.reverse, pre, hnew, fun k hk => hcollect k (hlen.trans_lt hk), hrun,
    ⟨hrev.nodup, hrev.mem_iff⟩, ?_, ⟨hpre.nodup, fun b => ?_⟩, hpre.after⟩
  · intro u hu v hv hback
    by_contra hle
    exact hback (hrev.backEdge u hu v hv (Nat.le_of_not_lt hle))
  · rw [hpre.mem_iff, hrev.mem_iff]

/-- A body with a loop, a join and a block that cannot be reached. -/
def joined : Body where
  basicBlocks := [⟨[], some (.falseEdges 1 2), false⟩, ⟨[], some (.falseEdges 1 2), false⟩,
    ⟨[], some .ret, false⟩, ⟨[], some (.goto 2), false⟩]
  localDecls := []
  argCount := 0

theorem joined_wf : joined.WF := Body.wf_of_blocks (by decide) (by decide)

example : preorder joined = .ok [0, 2, 1] := by rfl

/-- The traversals of the example end and yield the same blocks. -/
theorem reversePostorder_order_joined :
    ∃ po out pre, ReversePostorder.new joined START_BLOCK = .ok po ∧
      (∀ k, 4 < k → po.collect joined k = .ok out) ∧ preorder joined = .ok pre ∧
      out.Nodup ∧ ∀ b, b ∈ pre ↔ b ∈ out := by
  obtain ⟨po, out, pre, hnew, hout, hpre, hmem, -, hsame, -⟩ := reversePostorder_order joined_wf
  exact ⟨po, out, pre, hnew, hout, hpre, hmem.1, hsame.2⟩

/-! ## Cycles of the control-flow graph -/

/-- The body as the graph of its blocks. -/
def Body.graph (body : Body) : DirectedGraph where
  numNodes := body.basicBlocks.length
  successors bb := do
    let data ← body.block bb
    let term ← expect "invalid terminator state" data.terminator
    return term.successors

/-- `graph::is_cyclic`, with the start node of the graph. -/
def isCyclic (graph : DirectedGraph) (startNode n : Nat) : Outcome Bool := do
  let (result, _) ← (TriColorDepthFirstSearch.new graph).runFrom graph startNode CycleDetector () n
  return result.isSome

def Body.isCfgCyclic (body : Body) (n : Nat) : Outcome Bool := isCyclic body.graph START_BLOCK n

section
variable {body : Body}

theorem Body.WF.hasSuccessors (h : body.WF) : body.graph.HasSuccessors body.successors where
  successors_eq bb hbb := by
    obtain ⟨data, term, hdata, hterm, hsucc⟩ := Postorder.block_spec h hbb
    simp [graph, hdata, hterm, hsucc]
  closed bb _ := h.inRange bb

theorem isCyclic_spec {graph : DirectedGraph} {succ : Nat → List Nat} {start : Nat}
    (hgraph : graph.HasSuccessors succ) (hstart : start < graph.numNodes) : ∃ N, ∀ n ≥ N,
      ∃ cyclic, isCyclic graph start n = .ok cyclic ∧
        (cyclic ↔ ∃ v, Reach succ start v ∧ Relation.TransGen (fun u v => v ∈ succ u) v v) := by
  obtain ⟨moves, fin, hf, hrun⟩ := TriColorDepthFirstSearch.runFrom_eq hgraph hstart
  refine ⟨moves.length + 2, fun n hn => ⟨_, ?_, TriColorDepthFirstSearch.cycleDetector_isSome_iff hf⟩⟩
  rw [isCyclic, hrun _ _ CycleDetector () hn]
  rfl

/-- `is_cfg_cyclic` says no exactly when the reverse postorder is a topological order of the blocks
that can be reached. -/
theorem isCfgCyclic_iff (h : body.WF) : ∃ rpo N, reversePostorder body = .ok rpo ∧ ∀ n ≥ N,
    ∃ cyclic, body.isCfgCyclic n = .ok cyclic ∧
      (cyclic = false ↔ ∀ u ∈ rpo, ∀ v ∈ body.successors u, rpo.idxOf u < rpo.idxOf v) := by
  obtain ⟨out, hout, hpost⟩ := postorder_spec h h.start
  have hrev := hpost.reverse
  obtain ⟨N, hN⟩ := isCyclic_spec h.hasSuccessors h.start
  refine ⟨out.reverse, N, by rw [reversePostorder, hout]; rfl, fun n hn => ?_⟩
  obtain ⟨cyclic, hrun, hcyclic⟩ := hN n hn
  refine ⟨cyclic, hrun, ?_⟩
  rw [← Bool.not_eq_true, hcyclic]
  constructor
  · intro hno u hu v hv
    by_contra hle
    exact hno ⟨u, (hrev.mem_iff u).1 hu, .head' hv (hrev.backEdge u hu v hv (Nat.le_of_not_lt hle))⟩
  · rintro hlt ⟨v, hv, hcycle⟩
    -- Along a path the places in the order grow.
    have hgrow : ∀ w, Relation.TransGen (fun u v => v ∈ body.successors u) v w →
        w ∈ out.reverse ∧ out.reverse.idxOf v < out.reverse.idxOf w := by
      intro w hw
      induction hw with
      | single hw =>
        exact ⟨(hrev.mem_iff _).2 (hv.tail hw), hlt v ((hrev.mem_iff v).2 hv) _ hw⟩
      | tail _ hw ih =>
        exact ⟨(hrev.mem_iff _).2 (((hrev.mem_iff _).1 ih.1).tail hw), ih.2.trans (hlt _ ih.1 _ hw)⟩
    exact lt_irrefl _ (hgrow v hcycle).2

end

/-- The loop of the body is found. -/
theorem isCfgCyclic_joined : ∃ N, ∀ n ≥ N, joined.isCfgCyclic n = .ok true := by
  obtain ⟨rpo, N, hrpo, hN⟩ := isCfgCyclic_iff joined_wf
  cases hrpo.symm.trans (rfl : reversePostorder joined = .ok [0, 1, 2])
  refine ⟨N, fun n hn => ?_⟩
  obtain ⟨cyclic, hrun, hiff⟩ := hN n hn
  rw [hrun, Bool.eq_true_of_not_eq_false fun hno => absurd (hiff.1 hno 1 (by decide) 1 (by decide)) (by decide)]

end Tortis
