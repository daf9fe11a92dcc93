import Tortis.Lib.Search

/-!
# Postorder of a control-flow graph

`librustc_data_structures/graph/iterate/mod.rs`: a recursive walk that marks a node, walks to its
successors and then puts the node out. `postOrderFrom_spec` says what it puts out: the nodes that can
be reached, each one before one of its predecessors.
-/

namespace Tortis

open List Outcome

/-- `ControlFlowGraph`: a graph over the nodes below `numNodes` with a start node. -/
structure ControlFlowGraph where
  numNodes : Nat
  startNode : Nat
  successors : Nat → List Nat
  predecessors : Nat → List Nat

/-- The nodes are in range, and the predecessor and successor relations agree. -/
structure ControlFlowGraph.WF (g : ControlFlowGraph) : Prop where
  start_lt : g.startNode < g.numNodes
  successors_lt : ∀ u < g.numNodes, ∀ v ∈ g.successors u, v < g.numNodes
  predecessors_lt : ∀ v < g.numNodes, ∀ u ∈ g.predecessors v, u < g.numNodes
  agree : ∀ u < g.numNodes, ∀ v < g.numNodes, u ∈ g.predecessors v ↔ v ∈ g.successors u

def postOrderWalk (g : ControlFlowGraph) :
    Nat → Nat → List Nat × List Bool → Outcome (List Nat × List Bool)
  | 0, _, _ => .error .outOfFuel
  | n + 1, node, (result, visited) => do
    let seen ← expect "index out of bounds" visited[node]?
    if seen then .ok (result, visited)
    else do
      let (result, visited) ← (g.successors node).foldlM
        (fun st successor => postOrderWalk g n successor st) (result, visited.set node true)
      .ok (result ++ [node], visited)

section
variable (g : ControlFlowGraph)

def postOrderFromTo (startNode : Nat) (endNode : Option Nat) :
    Outcome (List Nat) := do
  let visited := replicate g.numNodes false
  let visited ← match endNode with
    | some endNode => do
      let _ ← expect "index out of bounds" visited[endNode]?
      .ok (visited.set endNode true)
    | none => .ok visited
  let (result, _) ← postOrderWalk g (g.numNodes + 1) startNode ([], visited)
  .ok result

def postOrderFrom (startNode : Nat) : Outcome (List Nat) :=
  postOrderFromTo g startNode none

def reversePostOrder (startNode : Nat) : Outcome (List Nat) := do
  let vec ← postOrderFrom g startNode
  .ok vec.reverse

end

/-! ## What a walk puts out -/

def Marked (visited : List Bool) (x : Nat) : Prop := visited[x]? = some true

variable {visited : List Bool}

theorem marked_set {x y : Nat} (hx : x < visited.length) :
    Marked (visited.set x true) y ↔ Marked visited y ∨ y = x := by
  rw [Marked, Marked, getElem?_set]
  by_cases hxy : x = y
  · simp [← hxy, hx]
  · simp [hxy, Ne.symm hxy]

/-- A predecessor of an element of a list comes after it. -/
def PredLater (succ : Nat → List Nat) (l : List Nat) (x : Nat) : Prop :=
  ∃ before after p, l = before ++ x :: after ∧ p ∈ after ∧ x ∈ succ p

variable {succ : Nat → List Nat} {l : List Nat} {x : Nat}

theorem PredLater.append_left (h : PredLater succ l x) (l' : List Nat) :
    PredLater succ (l' ++ l) x := by
  obtain ⟨before, after, p, rfl, hp, hx⟩ := h
  exact ⟨l' ++ before, after, p, by simp, hp, hx⟩

theorem PredLater.append_right (h : PredLater succ l x) (l' : List Nat) :
    PredLater succ (l ++ l') x := by
  obtain ⟨before, after, p, rfl, hp, hx⟩ := h
  exact ⟨before, after ++ l', p, by simp, by simp [hp], hx⟩

theorem predLater_concat {x p : Nat} (hmem : x ∈ l) (hx : x ∈ succ p) :
    PredLater succ (l ++ [p]) x := by
  obtain ⟨before, after, rfl⟩ := append_of_mem hmem
  exact ⟨before, after ++ [p], p, by simp, by simp, hx⟩

/-- What walks to the nodes `roots`, one after the other, have done when they have put `new` out. -/
structure Emitted (succ : Nat → List Nat) (roots : List Nat) (visited : List Bool) (new : List Nat)
    (visited' : List Bool) : Prop where
  length : visited'.length = visited.length
  marked : ∀ x, Marked visited' x ↔ Marked visited x ∨ x ∈ new
  fresh : ∀ x ∈ new, ¬ Marked visited x
  nodup : new.Nodup
  closed : ∀ x ∈ new, ∀ y ∈ succ x, Marked visited' y
  roots_marked : ∀ x ∈ roots, Marked visited' x
  pred : ∀ x ∈ new, x ∈ roots ∨ PredLater succ new x
  reach : ∀ x ∈ new, ∃ r ∈ roots, Reach succ r x

namespace Emitted

variable {roots roots' new new' : List Nat} {visited visited₁ visited₂ : List Bool}

theorem nil (succ : Nat → List Nat) (visited : List Bool) : Emitted succ [] visited [] visited where
  length := rfl
  marked x := by simp
  fresh _ h := absurd h not_mem_nil
  nodup := .nil
  closed _ h := absurd h not_mem_nil
  roots_marked _ h := absurd h not_mem_nil
  pred _ h := absurd h not_mem_nil
  reach _ h := absurd h not_mem_nil

theorem of_marked {r : Nat} (h : Marked visited r) : Emitted succ [r] visited [] visited where
  length := rfl
  marked x := by simp
  fresh _ h := absurd h not_mem_nil
  nodup := .nil
  closed _ h := absurd h not_mem_nil
  roots_marked x hx := mem_singleton.1 hx ▸ h
  pred _ h := absurd h not_mem_nil
  reach _ h := absurd h not_mem_nil

theorem append (h : Emitted succ roots visited new visited₁)
    (h' : Emitted succ roots' visited₁ new' visited₂) :
    Emitted succ (roots ++ roots') visited (new ++ new') visited₂ where
  length := h'.length.trans h.length
  marked x := by rw [h'.marked, h.marked, mem_append, or_assoc]
  fresh x hx := by
    rcases mem_append.1 hx with hx | hx
    · exact h.fresh x hx
    · exact fun hmarked => h'.fresh x hx ((h.marked x).2 (.inl hmarked))
  nodup := by
    refine nodup_append.2 ⟨h.nodup, h'.nodup, fun x hx y hy hxy => ?_⟩
    exact h'.fresh y hy ((h.marked y).2 (.inr (hxy ▸ hx)))
  closed x hx y hy := by
    rcases mem_append.1 hx with hx | hx
    · exact (h'.marked y).2 (.inl (h.closed x hx y hy))
    · exact h'.closed x hx y hy
  roots_marked x hx := by
    rcases mem_append.1 hx with hx | hx
    · exact (h'.marked x).2 (.inl (h.roots_marked x hx))
    · exact h'.roots_marked x hx
  pred x hx := by
    rcases mem_append.1 hx with hx | hx
    · exact (h.pred x hx).imp (mem_append_left _) (·.append_right new')
    · exact (h'.pred x hx).imp (mem_append_right _) (·.append_left new)
  reach x hx := by
    rcases mem_append.1 hx with hx | hx
    · obtain ⟨r, hr, hreach⟩ := h.reach x hx
      exact ⟨r, mem_append_left _ hr, hreach⟩
    · obtain ⟨r, hr, hreach⟩ := h'.reach x hx
      exact ⟨r, mem_append_right _ hr, hreach⟩

theorem node {r : Nat} (hr : r < visited.length) (hfresh : ¬ Marked visited r)
    (h : Emitted succ (succ r) (visited.set r true) new visited₁) :
    Emitted succ [r] visited (new ++ [r]) visited₁ := by
  have hset : ∀ x, Marked (visited.set r true) x ↔ Marked visited x ∨ x = r := fun x => marked_set hr
  have hmem : ∀ x, x ∈ new ++ [r] ↔ x ∈ new ∨ x = r := fun x => by simp
  refine ⟨h.length.trans length_set, fun x => ?_, fun x hx => ?_, ?_, fun x hx y hy => ?_,
    fun x hx => ?_, fun x hx => ?_, fun x hx => ?_⟩
  · rw [h.marked, hset, hmem, or_assoc, or_comm (a := x = r)]
  · rcases (hmem x).1 hx with hx | rfl
    · exact fun hmarked => h.fresh x hx ((hset x).2 (.inl hmarked))
    · exact hfresh
  · refine nodup_append.2 ⟨h.nodup, nodup_singleton r, fun x hx y hy hxy => ?_⟩
    obtain rfl : y = r := mem_singleton.1 hy
    exact h.fresh x hx ((hset x).2 (.inr hxy))
  · rcases (hmem x).1 hx with hx | rfl
    · exact h.closed x hx y hy
    · exact h.roots_marked y hy
  · obtain rfl : x = r := mem_singleton.1 hx
    exact (h.marked x).2 (.inl ((hset x).2 (.inr rfl)))
  · rcases (hmem x).1 hx with hx | rfl
    · refine .inr ?_
      rcases h.pred x hx with hsucc | hlater
      · exact predLater_concat hx hsucc
      · exact hlater.append_right [r]
    · exact .inl mem_cons_self
  · refine ⟨r, mem_cons_self, ?_⟩
    rcases (hmem x).1 hx with hx | rfl
    · obtain ⟨s, hs, hreach⟩ := h.reach x hx
      exact hreach.head hs
    · exact .refl

end Emitted

def unmarked (visited : List Bool) : Finset Nat :=
  (Finset.range visited.length).filter fun x => visited[x]? = some false

theorem unmarked_lt (h : visited[x]? = some false) :
    (unmarked (visited.set x true)).card < (unmarked visited).card := by
  have hx := (List.getElem?_eq_some_iff.1 h).1
  refine Finset.card_lt_card (Finset.ssubset_iff_of_subset ?_ |>.2 ⟨x, ?_, ?_⟩)
  · intro y hy
    simp only [unmarked, Finset.mem_filter, length_set, getElem?_set] at hy ⊢
    refine ⟨hy.1, ?_⟩
    by_cases hxy : x = y
    · rw [if_pos hxy, if_pos hx] at hy
      cases hy.2
    · rw [if_neg hxy] at hy
      exact hy.2
  · rw [unmarked, Finset.mem_filter, Finset.mem_range]
    exact ⟨hx, h⟩
  · rw [unmarked, Finset.mem_filter, getElem?_set_self hx]
    simp

theorem Emitted.unmarked_le {roots new : List Nat} {visited visited' : List Bool}
    (h : Emitted succ roots visited new visited') :
    (unmarked visited').card ≤ (unmarked visited).card := by
  refine Finset.card_le_card fun x hx => ?_
  simp only [unmarked, Finset.mem_filter, Finset.mem_range, h.length] at hx ⊢
  refine ⟨hx.1, ?_⟩
  have hnot : ¬ Marked visited' x := by
    rw [Marked, hx.2]
    simp
  rw [h.marked, not_or, Marked, getElem?_eq_getElem hx.1] at hnot
  rw [getElem?_eq_getElem hx.1]
  simpa using hnot.1

variable {g : ControlFlowGraph}

theorem postOrderWalk_spec (hg : g.WF) :
    ∀ {n node : Nat} (result : List Nat) {visited : List Bool}, visited.length = g.numNodes →
      node < g.numNodes → (unmarked visited).card < n →
      ∃ new visited', postOrderWalk g n node (result, visited) = .ok (result ++ new, visited') ∧
        Emitted g.successors [node] visited new visited' ∧
        (¬ Marked visited node → ∃ new', new = new' ++ [node])
  | 0, _, _, _, _, _, h => absurd h (Nat.not_lt_zero _)
  | n + 1, node, result, visited, hlen, hnode, hfuel => by
    have hlt : node < visited.length := hlen ▸ hnode
    rw [postOrderWalk]
    cases hseen : visited[node] with
    | true =>
      have hmarked : Marked visited node := by
        rw [Marked, getElem?_eq_getElem hlt, hseen]
      refine ⟨[], visited, ?_, Emitted.of_marked hmarked, fun h => absurd hmarked h⟩
      rw [getElem?_eq_getElem hlt, hseen, append_nil]
      rfl
    | false =>
      have hfalse : visited[node]? = some false := by rw [getElem?_eq_getElem hlt, hseen]
      have hmarked : ¬ Marked visited node := by
        rw [Marked, hfalse]
        simp
      have hless := unmarked_lt hfalse
      obtain ⟨⟨result', visited'⟩, hrun, new, rfl, hwalked⟩ := @foldlM_start _ _
        (fun st successor => postOrderWalk g n successor st)
        (fun pre st => ∃ new, st.1 = result ++ new ∧
          Emitted g.successors pre (visited.set node true) new st.2)
        (g.successors node) (result, visited.set node true)
        ⟨[], by simp, Emitted.nil _ _⟩ fun pre s post st hl ⟨new, hst, hwalked⟩ => by
          obtain ⟨result', visited'⟩ := st
          obtain rfl : result' = result ++ new := hst
          have hs : s < g.numNodes := hg.successors_lt node hnode s (by rw [hl]; simp)
          have hlen' : visited'.length = g.numNodes := by
            rw [hwalked.length, length_set, hlen]
          have hle : (unmarked visited').card ≤ (unmarked (visited.set node true)).card :=
            hwalked.unmarked_le
          have hless' : (unmarked visited').card < n :=
            lt_of_le_of_lt hle (lt_of_lt_of_le hless (Nat.le_of_lt_succ hfuel))
          obtain ⟨new', visited'', hrun, hwalked', -⟩ :=
            postOrderWalk_spec hg (result ++ new) hlen' hs hless'
          exact ⟨_, hrun, new ++ new', by simp, hwalked.append hwalked'⟩
      refine ⟨new ++ [node], visited', ?_, Emitted.node hlt hmarked hwalked, fun _ => ⟨new, rfl⟩⟩
      rw [hfalse, expect_some, ok_bind, if_neg Bool.false_ne_true, hrun]
      simp

structure PostOrdered (g : ControlFlowGraph) (startNode : Nat) (out : List Nat) : Prop where
  nodup : out.Nodup
  mem_iff : ∀ x, x ∈ out ↔ Reach g.successors startNode x
  lt : ∀ x ∈ out, x < g.numNodes
  last : ∃ before, out = before ++ [startNode]
  pred : ∀ x ∈ out, x = startNode ∨ PredLater g.successors out x

theorem postOrderFrom_spec (hg : g.WF) {startNode : Nat} (hstart : startNode < g.numNodes) :
    ∃ out, postOrderFrom g startNode = .ok out ∧ PostOrdered g startNode out := by
  have hnone : ∀ x, ¬ Marked (replicate g.numNodes false) x := by
    intro x hx
    rw [Marked, getElem?_replicate] at hx
    split at hx <;> simp at hx
  have hcard : (unmarked (replicate g.numNodes false)).card < g.numNodes + 1 := by
    refine Nat.lt_succ_of_le ((Finset.card_filter_le _ _).trans ?_)
    simp
  obtain ⟨new, visited', hrun, hwalked, hlast⟩ := postOrderWalk_spec hg []
    List.length_replicate hstart hcard
  have hmarked : ∀ x, Marked visited' x ↔ x ∈ new := fun x => by
    rw [hwalked.marked, or_iff_right (hnone x)]
  refine ⟨new, ?_, hwalked.nodup, fun x => ⟨fun hx => ?_, fun hx => ?_⟩, fun x hx => ?_,
    hlast (hnone _), fun x hx => ?_⟩
  · rw [postOrderFrom, postOrderFromTo]
    simp [hrun]
  · obtain ⟨r, hr, hreach⟩ := hwalked.reach x hx
    rwa [mem_singleton.1 hr] at hreach
  · induction hx with
    | refl => exact (hmarked _).1 (hwalked.roots_marked _ mem_cons_self)
    | tail _ hbc ih => exact (hmarked _).1 (hwalked.closed _ ih _ hbc)
  · have hlt := (List.getElem?_eq_some_iff.1 ((hmarked x).2 hx)).1
    rwa [hwalked.length, List.length_replicate] at hlt
  · exact (hwalked.pred x hx).imp_left mem_singleton.1

end Tortis
