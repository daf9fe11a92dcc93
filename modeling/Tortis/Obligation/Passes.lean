import Tortis.Lib.Search
import Tortis.Obligation.Forest

/-!
# Passes over the states of the nodes

`error_at`, `mark_as_waiting` and `process_cycles` change nothing but states. Each of them returns
when the dependents are in range, and its specification says which states change (`Becomes`) and how
far the change spreads along the dependents (`Spread`).
-/

namespace Tortis.Obligation

open Outcome List Function Node

variable {O E σ : Type} {nodes nodes₁ nodes' : List (Node O)} {node : Node O}

/-! ## Nodes by their indices -/

section
variable (nodes : List (Node O))

def stateAt (i : Nat) : Option NodeState := nodes[i]?.map Node.state

/-- The dependents of a node. -/
def deps (i : Nat) : List Nat := (nodes[i]?.map Node.dependents).getD []

/-- A node without its state. -/
def Node.core (node : Node O) : Node O := { node with state := .pending }

/-- Lists of nodes that differ in states only. -/
def SameNodes (nodes nodes' : List (Node O)) : Prop := nodes'.map Node.core = nodes.map Node.core

def InRange : Prop := ∀ i, ∀ d ∈ deps nodes i, d < nodes.length

/-- The parent of a node comes before it. -/
def ParentsBelow : Prop :=
  ∀ i (node : Node O), nodes[i]? = some node → node.hasParent = true →
    ∃ d rest, node.dependents = d :: rest ∧ d < i

end

variable {i : Nat}

theorem nodeAt_eq (h : nodes[i]? = some node) : nodeAt nodes i = .ok node := by
  rw [nodeAt, h, expect_some]

theorem exists_node (h : i < nodes.length) : ∃ node, nodes[i]? = some node :=
  ⟨_, getElem?_eq_getElem h⟩

section
variable {i : Nat} (h : nodes[i]? = some node)
include h

theorem lt_length : i < nodes.length :=
  (List.getElem?_eq_some_iff.1 h).1

theorem stateAt_eq : stateAt nodes i = some node.state := by
  rw [stateAt, h]
  rfl

theorem deps_eq : deps nodes i = node.dependents := by
  rw [deps, h]
  rfl

end

variable {state : NodeState}

theorem exists_of_stateAt (h : stateAt nodes i = some state) :
    ∃ node, nodes[i]? = some node ∧ node.state = state :=
  Option.map_eq_some_iff.1 h

theorem lt_of_stateAt (h : stateAt nodes i = some state) : i < nodes.length := by
  obtain ⟨node, hnode, -⟩ := exists_of_stateAt h
  exact lt_length hnode

theorem exists_of_mem_deps {i d : Nat} (h : d ∈ deps nodes i) :
    ∃ node, nodes[i]? = some node ∧ d ∈ node.dependents := by
  rw [deps] at h
  cases hnode : nodes[i]? with
  | none =>
    rw [hnode] at h
    cases h
  | some node =>
    rw [hnode] at h
    exact ⟨node, rfl, h⟩

theorem setState_getElem? (nodes : List (Node O)) (i j : Nat) (state : NodeState) :
    (setState nodes i state)[j]? =
      nodes[j]?.map fun node => if j = i then { node with state := state } else node := by
  rw [setState, getElem?_modify]
  cases nodes[j]? with
  | none => rfl
  | some node =>
    by_cases hij : i = j
    · simp [hij]
    · simp [hij, Ne.symm hij]

theorem stateAt_setState (hi : i < nodes.length) (j : Nat) (state : NodeState) :
    stateAt (setState nodes i state) j = if j = i then some state else stateAt nodes j := by
  rw [stateAt, setState_getElem?]
  split
  · next hj =>
    subst hj
    obtain ⟨node, hnode⟩ := exists_node hi
    rw [hnode]
    rfl
  · rw [stateAt, Option.map_map]
    rfl

/-! ## Changes of states only -/

namespace SameNodes

theorem refl (nodes : List (Node O)) : SameNodes nodes nodes := rfl

theorem trans (h : SameNodes nodes nodes₁) (h' : SameNodes nodes₁ nodes') :
    SameNodes nodes nodes' :=
  Eq.trans h' h

section
variable (h : SameNodes nodes nodes')
include h

theorem length : nodes'.length = nodes.length := by
  have := congrArg List.length h
  rwa [length_map, length_map] at this

theorem node_eq {i : Nat} {node' : Node O} (hnode : nodes'[i]? = some node') :
    ∃ node, nodes[i]? = some node ∧ node' = { node with state := node'.state } := by
  have hcore : (nodes'.map core)[i]? = (nodes.map core)[i]? := by rw [h]
  rw [getElem?_map, getElem?_map, hnode] at hcore
  obtain ⟨node, hi, heq⟩ := Option.map_eq_some_iff.1 hcore.symm
  refine ⟨node, hi, ?_⟩
  obtain ⟨⟩ := node
  cases heq
  rfl

theorem deps : deps nodes' = deps nodes := by
  have key : ∀ l : List (Node O), Obligation.deps l = fun i =>
      ((l.map core)[i]?.map dependents).getD [] := by
    intro l
    funext i
    rw [getElem?_map, Option.map_map]
    rfl
  rw [key, key, h]

theorem inRange (hr : InRange nodes) : InRange nodes' := by
  intro i d hd
  rw [h.deps] at hd
  rw [h.length]
  exact hr i d hd

theorem parentsBelow (hp : ParentsBelow nodes) : ParentsBelow nodes' := by
  intro i node' hnode hparent
  obtain ⟨node, hi, heq⟩ := h.node_eq hnode
  rw [heq] at hparent ⊢
  exact hp i node hi hparent

end

theorem setState (nodes : List (Node O)) (i : Nat) (state : NodeState) :
    SameNodes nodes (setState nodes i state) := by
  refine ext_getElem? fun j => ?_
  rw [getElem?_map, getElem?_map, setState_getElem?, Option.map_map]
  congr 1
  funext node
  split <;> rfl

end SameNodes

/-- Some states have become `to`, and nothing else has changed. -/
structure Becomes (source : NodeState → Prop) (target : NodeState) (nodes nodes' : List (Node O)) :
    Prop where
  same : SameNodes nodes nodes'
  state : ∀ i, stateAt nodes' i = stateAt nodes i ∨
    (∃ state, stateAt nodes i = some state ∧ source state) ∧ stateAt nodes' i = some target

namespace Becomes

variable {source : NodeState → Prop} {target state : NodeState} {i : Nat}

theorem refl (source : NodeState → Prop) (target : NodeState) (nodes : List (Node O)) :
    Becomes source target nodes nodes :=
  ⟨.refl nodes, fun _ => .inl rfl⟩

theorem trans (h : Becomes source target nodes nodes₁) (h' : Becomes source target nodes₁ nodes') :
    Becomes source target nodes nodes' := by
  refine ⟨h.same.trans h'.same, fun i => ?_⟩
  rcases h.state i with heq | ⟨hsource, htarget⟩
  · rw [← heq]
    exact h'.state i
  · refine .inr ⟨hsource, ?_⟩
    rcases h'.state i with heq | ⟨-, htarget'⟩
    exacts [heq.trans htarget, htarget']

theorem setState (hi : stateAt nodes i = some state) (hstate : source state) :
    Becomes source target nodes (setState nodes i target) := by
  refine ⟨.setState nodes i target, fun j => ?_⟩
  rw [stateAt_setState (lt_of_stateAt hi)]
  split
  · next hj => exact .inr ⟨⟨state, hj ▸ hi, hstate⟩, rfl⟩
  · exact .inl rfl

section
variable (h : Becomes source target nodes nodes')
include h

theorem trans_setState (hi : stateAt nodes i = some state) (hstate : source state) :
    Becomes source target nodes (Obligation.setState nodes' i target) := by
  refine ⟨h.same.trans (.setState nodes' i target), fun j => ?_⟩
  rw [stateAt_setState (h.same.length ▸ lt_of_stateAt hi)]
  split
  · next hj => exact .inr ⟨⟨state, hj ▸ hi, hstate⟩, rfl⟩
  · exact h.state j

theorem of_state (hi : stateAt nodes' i = some state)
    (hne : state ≠ target) : stateAt nodes i = some state := by
  rcases h.state i with heq | ⟨-, htarget⟩
  · rwa [← heq]
  · rw [htarget] at hi
    exact absurd (Option.some.inj hi).symm hne

theorem to_state (hi : stateAt nodes i = some state)
    (hne : ¬ source state) : stateAt nodes' i = some state := by
  rcases h.state i with heq | ⟨⟨state', hstate, hsource⟩, -⟩
  · rwa [heq]
  · rw [hi] at hstate
    exact absurd (Option.some.inj hstate ▸ hsource) hne

end

end Becomes

/-! ## `error_at` -/

def IsError (nodes : List (Node O)) (i : Nat) : Prop := stateAt nodes i = some .error

theorem isError_setState (hi : i < nodes.length) :
    IsError (setState nodes i .error) = fun j => j = i ∨ IsError nodes j := by
  funext j
  refine propext ?_
  rw [IsError, stateAt_setState hi]
  split
  · next hj => exact ⟨fun _ => .inl hj, fun _ => rfl⟩
  · next hj => exact ⟨.inr, fun h => h.resolve_left hj⟩

/-- The dependents of the nodes that are not in error: what `error_at` may still push. -/
def pendingLen (nodes : List (Node O)) : Nat :=
  (nodes.map fun node => if node.state = .error then 0 else node.dependents.length).sum

theorem pendingLen_le : ∀ nodes : List (Node O), pendingLen nodes ≤ dependentsLen nodes
  | [] => le_rfl
  | node :: nodes => by
    have ih := pendingLen_le nodes
    simp only [pendingLen, dependentsLen, map_cons, sum_cons] at ih ⊢
    split <;> omega

theorem pendingLen_setState : ∀ {nodes : List (Node O)} {i : Nat}, nodes[i]? = some node →
    node.state ≠ .error →
      pendingLen (setState nodes i .error) + node.dependents.length = pendingLen nodes
  | [], _, h, _ => by cases h
  | first :: nodes, 0, h, hstate => by
    obtain rfl := Option.some.inj h
    simp only [pendingLen, setState, modify_zero_cons, map_cons, sum_cons, if_neg hstate]
    simp only [if_true]
    omega
  | first :: nodes, i + 1, h, hstate => by
    have h : nodes[i]? = some node := h
    have ih := pendingLen_setState h hstate
    simp only [pendingLen, setState, modify_succ_cons, map_cons, sum_cons] at ih ⊢
    omega

theorem errorLoop_spec (hr : InRange nodes) : ∀ {n : Nat} (stack : List Nat)
    {nodes₁ : List (Node O)}, SameNodes nodes nodes₁ → (∀ i ∈ stack, i < nodes.length) →
      stack.length + pendingLen nodes₁ < n →
      ∃ nodes', errorLoop n stack nodes₁ = .ok nodes' ∧
        Becomes (fun _ => True) .error nodes₁ nodes' ∧
          Spread (deps nodes) (IsError nodes₁) stack (IsError nodes')
  | 0, _, _, _, _, hn => absurd hn (Nat.not_lt_zero _)
  | n + 1, stack, nodes₁, hsame, hstack, hn => by
    rw [errorLoop]
    rcases eq_nil_or_concat stack with rfl | ⟨rest, i, rfl⟩
    · exact ⟨nodes₁, rfl, .refl _ _ _, .nil _ _⟩
    rw [concat_eq_append] at hstack hn ⊢
    rw [getLast?_append, dropLast_concat]
    dsimp only [getLast?_singleton, Option.some_or]
    have hi : i < nodes₁.length := by
      rw [hsame.length]
      exact hstack i (by simp)
    have hrest : ∀ j ∈ rest, j < nodes.length := fun j hj => hstack j (mem_append_left _ hj)
    have hroots : ∀ j, j ∈ i :: rest ↔ j ∈ rest ++ [i] := fun j => by simp [or_comm]
    obtain ⟨node, hnode⟩ := exists_node hi
    rw [length_append, length_singleton] at hn
    rw [nodeAt_eq hnode, ok_bind]
    split
    · next hstate =>
      have hdeps : deps nodes i = node.dependents := by rw [← hsame.deps, deps_eq hnode]
      have hbecomes : Becomes (fun _ => True) .error nodes₁ (setState nodes₁ i .error) :=
        .setState (stateAt_eq hnode) trivial
      have hlen := pendingLen_setState hnode hstate
      obtain ⟨nodes', hrun, hbecomes', hspread⟩ := errorLoop_spec (n := n) hr
        (rest ++ node.dependents) (hsame.trans hbecomes.same)
        (fun j hj => (mem_append.1 hj).elim (hrest j) fun hj => hr i j (hdeps ▸ hj))
        (by rw [length_append]; omega)
      refine ⟨nodes', hrun, hbecomes.trans hbecomes', Spread.congr (.visit ?_) hroots⟩
      rw [← isError_setState hi, hdeps]
      exact hspread.congr fun j => by simp [or_comm]
    · next hstate =>
      have herror : IsError nodes₁ i := by rw [IsError, stateAt_eq hnode, not_not.1 hstate]
      obtain ⟨nodes', hrun, hbecomes, hspread⟩ := errorLoop_spec (n := n) hr rest hsame hrest
        (by omega)
      exact ⟨nodes', hrun, hbecomes, (Spread.append (.of_marked herror) hspread).congr hroots⟩

theorem walkParents_spec (hr : InRange nodes) (hp : ParentsBelow nodes) : ∀ {n i : Nat}
    (stack : List Nat) (trace : List O) {nodes₁ : List (Node O)}, SameNodes nodes nodes₁ →
      (∀ j ∈ stack, j < nodes.length) → i < nodes.length → i < n →
      ∃ stack' trace' nodes2, walkParents n i stack trace nodes₁ = .ok (stack', trace', nodes2) ∧
        Becomes (fun _ => True) .error nodes₁ nodes2 ∧ (∀ j ∈ stack', j < nodes.length) ∧
          ∀ m', Spread (deps nodes) (IsError nodes2) stack' m' →
            Spread (deps nodes) (IsError nodes₁) (i :: stack) m'
  | 0, _, _, _, _, _, _, _, hn => absurd hn (Nat.not_lt_zero _)
  | n + 1, i, stack, trace, nodes₁, hsame, hstack, hi, hn => by
    obtain ⟨node, hnode⟩ := exists_node (hsame.length ▸ hi)
    have hdeps : deps nodes i = node.dependents := by rw [← hsame.deps, deps_eq hnode]
    have hbecomes : Becomes (fun _ => True) .error nodes₁ (setState nodes₁ i .error) :=
      .setState (stateAt_eq hnode) trivial
    have herror := isError_setState (lt_length hnode)
    have hlt : ∀ d ∈ node.dependents, d < nodes.length := fun d hd => hr i d (hdeps ▸ hd)
    rw [walkParents, nodeAt_eq hnode, ok_bind]
    split
    · next hparent =>
      obtain ⟨d, rest, hcons, hd⟩ := hsame.parentsBelow hp i node hnode hparent
      rw [hcons] at hlt
      obtain ⟨stack', trace', nodes2, hrun, hbecomes', hstack', hspread⟩ :=
        walkParents_spec (n := n) (i := d) hr hp (stack ++ rest) (trace ++ [node.obligation])
          (hsame.trans hbecomes.same)
          (fun j hj => (mem_append.1 hj).elim (hstack j)
            fun hj => hlt j (mem_cons_of_mem _ hj))
          (hlt d mem_cons_self) (by omega)
      refine ⟨stack', trace', nodes2, ?_, hbecomes.trans hbecomes', hstack', fun m' hm' => .visit ?_⟩
      · rw [hcons]
        exact hrun
      · rw [← herror, hdeps, hcons]
        exact (hspread m' hm').congr fun j => by simp [or_comm]
    · refine ⟨_, _, _, rfl, hbecomes, fun j hj => (mem_append.1 hj).elim (hstack j) (hlt j),
        fun m' hm' => .visit ?_⟩
      rw [← herror, hdeps]
      exact hm'.congr fun j => by simp [or_comm]

theorem errorAt_spec (hr : InRange nodes) (hp : ParentsBelow nodes)
    (hi : i < nodes.length) : ∃ trace nodes', errorAt i nodes = .ok (trace, nodes') ∧
      Becomes (fun _ => True) .error nodes nodes' ∧
        Spread (deps nodes) (IsError nodes) [i] (IsError nodes') := by
  obtain ⟨stack, trace, nodes₁, hrun, hbecomes, hstack, hspread⟩ :=
    walkParents_spec (n := nodes.length + 1) hr hp [] [] (.refl nodes) nofun hi
      (Nat.lt_succ_of_lt hi)
  have hle := pendingLen_le nodes₁
  obtain ⟨nodes', hrun', hbecomes', hspread'⟩ := errorLoop_spec
    (n := stack.length + dependentsLen nodes₁ + 1) hr stack hbecomes.same hstack (by omega)
  refine ⟨trace, nodes', ?_, hbecomes.trans hbecomes', hspread _ hspread'⟩
  rw [errorAt, hrun, ok_bind]
  dsimp only
  rw [hrun']
  rfl

/-! ## `mark_as_waiting` -/

section
variable (nodes : List (Node O))

/-- A node that waits, or is in error: marking goes no further there. -/
def Stops (i : Nat) : Prop :=
  stateAt nodes i = some .waiting ∨ stateAt nodes i = some .error

/-- The nodes that others depend on have been processed, and are not done. -/
def Processed : Prop :=
  ∀ i, ∀ d ∈ deps nodes i, stateAt nodes d = some .success ∨ Stops nodes d

def inState (state : NodeState) : Finset Nat :=
  (Finset.range nodes.length).filter fun i => stateAt nodes i = some state

end

theorem mem_inState : i ∈ inState nodes state ↔ stateAt nodes i = some state := by
  rw [inState, Finset.mem_filter, Finset.mem_range]
  exact ⟨And.right, fun h => ⟨lt_of_stateAt h, h⟩⟩

variable {source : NodeState → Prop} {target state : NodeState}

theorem Becomes.inState_subset (h : Becomes source target nodes nodes') (hne : state ≠ target) :
    inState nodes' state ⊆ inState nodes state :=
  fun _ hi => mem_inState.2 (h.of_state (mem_inState.1 hi) hne)

theorem Becomes.card_inState_lt (h : Becomes source target nodes nodes') (hne : state ≠ target)
    (hi : stateAt nodes i = some state) (hi' : stateAt nodes' i ≠ some state) :
    (inState nodes' state).card < (inState nodes state).card := by
  refine Finset.card_lt_card (Finset.ssubset_iff_subset_ne.2 ⟨h.inState_subset hne, fun heq => ?_⟩)
  rw [← mem_inState, ← heq] at hi
  exact hi' (mem_inState.1 hi)

theorem stops_setState (hi : i < nodes.length) :
    Stops (setState nodes i .waiting) = fun j => j = i ∨ Stops nodes j := by
  funext j
  refine propext ?_
  rw [Stops, stateAt_setState hi]
  split
  · next hj => exact ⟨fun _ => .inl hj, fun _ => .inl rfl⟩
  · next hj => exact ⟨.inr, fun h => h.resolve_left hj⟩

theorem Becomes.stops (h : Becomes (· = .success) .waiting nodes nodes')
    (hi : Stops nodes i) : Stops nodes' i :=
  hi.imp (h.to_state · (by decide)) (h.to_state · (by decide))

theorem Becomes.processed (h : Becomes (· = .success) .waiting nodes nodes')
    (hp : Processed nodes) : Processed nodes' := by
  intro i d hd
  rw [h.same.deps] at hd
  rcases hp i d hd with hsuccess | hstops
  · rcases h.state d with heq | ⟨-, hwaiting⟩
    · exact .inl (heq.trans hsuccess)
    · exact .inr (.inl hwaiting)
  · exact .inr (h.stops hstops)

theorem markNeighborsAsWaitingFrom_spec : ∀ {n i : Nat} (node : Node O) {nodes : List (Node O)},
    InRange nodes → Processed nodes → deps nodes i = node.dependents →
      (inState nodes .success).card < n →
      ∃ nodes', markNeighborsAsWaitingFrom n node nodes = .ok nodes' ∧
        Becomes (· = .success) .waiting nodes nodes' ∧
          Spread (deps nodes) (Stops nodes) (deps nodes i) (Stops nodes')
  | 0, _, _, _, _, _, _, hn => absurd hn (Nat.not_lt_zero _)
  | n + 1, i, node, nodes, hr, hp, hdeps, hn => by
    rw [hdeps, markNeighborsAsWaitingFrom]
    refine @foldlM_start _ _ _ (fun done nodes' =>
      Becomes (· = .success) .waiting nodes nodes' ∧
        Spread (deps nodes) (Stops nodes) done (Stops nodes')) _ _
      ⟨.refl _ _ _, .nil _ _⟩ fun pre d post nodes₁ hl ⟨hbecomes, hspread⟩ => ?_
    have hd : d ∈ deps nodes i := by
      rw [hdeps, hl]
      simp
    obtain ⟨next, hnext⟩ := exists_node (hbecomes.same.length ▸ hr i d hd)
    have hstate := stateAt_eq hnext
    have hcases := hbecomes.processed hp i d (hbecomes.same.deps ▸ hd)
    have hcard := Finset.card_le_card
      (@Becomes.inState_subset _ _ _ _ _ .success hbecomes (by decide))
    rw [nodeAt_eq hnext, ok_bind]
    split
    · next hwaiting =>
      rw [hwaiting] at hstate
      exact ⟨nodes₁, rfl, hbecomes, hspread.append (.of_marked (.inl hstate))⟩
    · next herror =>
      rw [herror] at hstate
      exact ⟨nodes₁, rfl, hbecomes, hspread.append (.of_marked (.inr hstate))⟩
    · next hsuccess =>
      rw [hsuccess] at hstate
      have hmark : Becomes (· = .success) .waiting nodes₁ (setState nodes₁ d .waiting) :=
        .setState hstate rfl
      have hsame := hbecomes.same.trans hmark.same
      have hleft : stateAt (setState nodes₁ d .waiting) d ≠ some .success := by
        rw [stateAt_setState (lt_length hnext), if_pos rfl]
        nofun
      have hlt := hmark.card_inState_lt (by decide) hstate hleft
      obtain ⟨nodes', hrun, hbecomes', hspread'⟩ := markNeighborsAsWaitingFrom_spec (n := n) (i := d)
        next (hsame.inRange hr) ((hbecomes.trans hmark).processed hp)
        (by rw [hmark.same.deps, deps_eq hnext]) (by omega)
      rw [hsame.deps, stops_setState (lt_length hnext)] at hspread'
      refine ⟨nodes', hrun, (hbecomes.trans hmark).trans hbecomes', hspread.append (.visit ?_)⟩
      rwa [append_nil]
    all_goals
      next hother =>
      rw [hother] at hstate
      rcases hcases with hc | hc | hc <;> rw [hstate] at hc <;> cases hc

theorem stateAt_unmarkWaiting (nodes : List (Node O)) (i : Nat) : stateAt (unmarkWaiting nodes) i =
      (stateAt nodes i).map fun state => if state = .waiting then .success else state := by
  rw [stateAt, unmarkWaiting, getElem?_map, stateAt, Option.map_map, Option.map_map]
  congr 1
  funext node
  dsimp only [comp_apply]
  split <;> rfl

theorem sameNodes_unmarkWaiting (nodes : List (Node O)) : SameNodes nodes (unmarkWaiting nodes) := by
  rw [SameNodes, unmarkWaiting, map_map]
  refine map_congr_left fun node _ => ?_
  dsimp only [comp_apply]
  split <;> rfl

/-- What `mark_as_waiting` leaves: a node waits exactly if a pending node is below it. -/
structure MarkedWaiting (nodes nodes' : List (Node O)) : Prop where
  same : SameNodes nodes nodes'
  pending : ∀ i, stateAt nodes' i = some .pending ↔ stateAt nodes i = some .pending
  error : ∀ i, stateAt nodes' i = some .error ↔ stateAt nodes i = some .error
  not_done : ∀ i, stateAt nodes' i ≠ some .done
  below : ∀ i, stateAt nodes' i = some .waiting →
    ∃ p, stateAt nodes' p = some .pending ∧ Reach (deps nodes) p i
  closed : ∀ i, stateAt nodes' i = some .pending ∨ stateAt nodes' i = some .waiting →
    ∀ d ∈ deps nodes i, Stops nodes' d

/-- The dependents of the pending ones among some nodes. -/
def neighbors (nodes : List (Node O)) (l : List Nat) : List Nat :=
  l.flatMap fun i => if stateAt nodes i = some .pending then deps nodes i else []

theorem neighbors_concat (nodes : List (Node O)) (l : List Nat) (i : Nat) :
    neighbors nodes (l ++ [i]) = neighbors nodes l ++
      if stateAt nodes i = some .pending then deps nodes i else [] := by
  rw [neighbors, flatMap_append, flatMap_singleton, neighbors]

theorem mem_neighbors {l : List Nat} {r : Nat} :
    r ∈ neighbors nodes l ↔ ∃ i ∈ l, stateAt nodes i = some .pending ∧ r ∈ deps nodes i := by
  rw [neighbors, mem_flatMap]
  refine exists_congr fun i => and_congr_right fun _ => ?_
  split
  · next h => exact (and_iff_right h).symm
  · next h => exact ⟨fun hr => absurd hr not_mem_nil, fun hr => absurd hr.1 h⟩

theorem markLoop_spec (hr : InRange nodes) (hp : Processed nodes) :
    ∃ nodes', (range nodes.length).foldlM (fun nodes index => do
        let node ← nodeAt nodes index
        if node.state = NodeState.pending then
          markNeighborsAsWaitingFrom (nodes.length + 1) node nodes
        else .ok nodes) nodes = .ok nodes' ∧
      Becomes (· = .success) .waiting nodes nodes' ∧
        Spread (deps nodes) (Stops nodes) (neighbors nodes (range nodes.length))
          (Stops nodes') := by
  refine @foldlM_start _ _ _ (fun done nodes' =>
    Becomes (· = .success) .waiting nodes nodes' ∧
      Spread (deps nodes) (Stops nodes) (neighbors nodes done) (Stops nodes')) _ _
    ⟨.refl _ _ _, .nil _ _⟩ fun pre i post nodes₁ hl ⟨hbecomes, hspread⟩ => ?_
  have hi : i < nodes.length := mem_range.1 (by rw [hl]; simp)
  obtain ⟨node, hnode⟩ := exists_node (hbecomes.same.length ▸ hi)
  have hstate := stateAt_eq hnode
  rw [nodeAt_eq hnode, ok_bind, neighbors_concat]
  split
  · next hpending =>
    rw [hpending] at hstate
    have hcard : (inState nodes₁ .success).card ≤ nodes₁.length := by
      refine le_trans (Finset.card_filter_le _ _) ?_
      rw [Finset.card_range]
    obtain ⟨nodes', hrun, hbecomes', hspread'⟩ := markNeighborsAsWaitingFrom_spec
      (n := nodes₁.length + 1) (i := i) node (hbecomes.same.inRange hr) (hbecomes.processed hp) (deps_eq hnode) (Nat.lt_succ_of_le hcard)
    rw [hbecomes.same.deps] at hspread'
    refine ⟨nodes', hrun, hbecomes.trans hbecomes', ?_⟩
    rw [if_pos (hbecomes.of_state hstate (by decide))]
    exact hspread.append hspread'
  · next hpending =>
    refine ⟨nodes₁, rfl, hbecomes, ?_⟩
    rw [if_neg fun h => hpending (Option.some.inj (hstate.symm.trans (hbecomes.to_state h (by decide)))),
      append_nil]
    exact hspread

theorem markAsWaiting_spec (hr : InRange nodes) (hp : Processed nodes)
    (hdone : ∀ i, stateAt nodes i ≠ some .done) :
    ∃ nodes', markAsWaiting nodes = .ok nodes' ∧ MarkedWaiting nodes nodes' := by
  have hsame := sameNodes_unmarkWaiting nodes
  have hstate : ∀ i state, state ≠ .success → state ≠ .waiting →
      (stateAt (unmarkWaiting nodes) i = some state ↔ stateAt nodes i = some state) := by
    intro i state hsuccess hwaiting
    rw [stateAt_unmarkWaiting]
    cases stateAt nodes i with
    | none => rfl
    | some state' => cases state' <;> simp [hsuccess.symm, hwaiting.symm]
  have hnone : ∀ i, stateAt (unmarkWaiting nodes) i ≠ some .waiting := by
    intro i
    rw [stateAt_unmarkWaiting]
    cases stateAt nodes i with
    | none => nofun
    | some state => cases state <;> simp
  have hprocessed : Processed (unmarkWaiting nodes) := by
    intro i d hd
    rw [hsame.deps] at hd
    rcases hp i d hd with hd | hd | hd
    · exact .inl (by rw [stateAt_unmarkWaiting, hd]; rfl)
    · exact .inl (by rw [stateAt_unmarkWaiting, hd]; rfl)
    · exact .inr (.inr ((hstate d .error (by decide) (by decide)).2 hd))
  obtain ⟨nodes', hrun, hbecomes, hspread⟩ := markLoop_spec (hsame.inRange hr) hprocessed
  have hpending : ∀ i, stateAt nodes' i = some .pending ↔
      stateAt (unmarkWaiting nodes) i = some .pending :=
    fun i => ⟨(hbecomes.of_state · (by decide)), (hbecomes.to_state · (by decide))⟩
  have herror : ∀ i, stateAt nodes' i = some .error ↔ stateAt (unmarkWaiting nodes) i = some .error :=
    fun i => ⟨(hbecomes.of_state · (by decide)), (hbecomes.to_state · (by decide))⟩
  have hstops : ∀ i, stateAt nodes' i = some .waiting → ¬ Stops (unmarkWaiting nodes) i := by
    rintro i hi (h | h)
    · exact hnone i h
    · rw [(herror i).2 h] at hi
      cases hi
  rw [hsame.deps] at hspread
  refine ⟨nodes', hrun, hsame.trans hbecomes.same, fun i => ?_, fun i => ?_, fun i hi => ?_,
    fun i hi => ?_, fun i hi d hd => ?_⟩
  · rw [hpending, hstate i .pending (by decide) (by decide)]
  · rw [herror, hstate i .error (by decide) (by decide)]
  · exact hdone i ((hstate i .done (by decide) (by decide)).1 (hbecomes.of_state hi (by decide)))
  · rcases hspread.behind i (.inl hi) with h | ⟨r, hroot, hreach⟩
    · exact absurd h (hstops i hi)
    · obtain ⟨p, -, hp, hdep⟩ := mem_neighbors.1 hroot
      rw [hsame.deps] at hdep
      exact ⟨p, (hpending p).2 hp, .head hdep hreach⟩
  · rcases hi with hi | hi
    · refine hspread.roots d (mem_neighbors.2 ⟨i, ?_, (hpending i).1 hi, hsame.deps ▸ hd⟩)
      rw [mem_range, ← hbecomes.same.length]
      exact lt_of_stateAt hi
    · exact hspread.closed i (.inl hi) (hstops i hi) d hd

/-! ## `process_cycles` -/

variable {stack : List Nat}

theorem rposition_eq_some : (∃ rpos, rposition stack i = some rpos) ↔ i ∈ stack := by
  rw [rposition, ← Option.isSome_iff_exists, Option.isSome_map, findIdx?_isSome]
  simp

/-- The nodes that are still to be looked at. -/
def unseen (nodes : List (Node O)) (stack : List Nat) : Finset Nat :=
  (inState nodes .success).filter (· ∉ stack)

theorem unseen_ssubset (h : Becomes (· = .success) .done nodes nodes')
    (hi : i ∈ unseen nodes stack) : unseen nodes' (stack ++ [i]) ⊂ unseen nodes stack := by
  refine Finset.ssubset_iff_subset_ne.2 ⟨fun j hj => ?_, fun heq => ?_⟩
  · obtain ⟨hstate, hj⟩ := Finset.mem_filter.1 hj
    exact Finset.mem_filter.2 ⟨h.inState_subset (by decide) hstate,
      fun hmem => hj (mem_append_left _ hmem)⟩
  · rw [← heq] at hi
    exact (Finset.mem_filter.1 hi).2 (by simp)

theorem findCyclesFromNode_spec (processor : ObligationProcessor O E σ) :
    ∀ {n i : Nat} (stack : List Nat) {nodes : List (Node O)} {s : σ}, InRange nodes →
      i < nodes.length → (∀ j ∈ stack, j < nodes.length) → (unseen nodes stack).card < n →
      ∃ nodes' s', findCyclesFromNode processor n stack i (nodes, s) = .ok (nodes', s') ∧
        Becomes (· = .success) .done nodes nodes' ∧
          (i ∉ stack → stateAt nodes' i ≠ some .success)
  | 0, _, _, _, _, _, _, _, hn => absurd hn (Nat.not_lt_zero _)
  | n + 1, i, stack, nodes, s, hr, hi, hstack, hn => by
    obtain ⟨node, hnode⟩ := exists_node hi
    have hstate := stateAt_eq hnode
    rw [findCyclesFromNode, nodeAt_eq hnode, ok_bind]
    split
    · next hsuccess =>
      rw [hsuccess] at hstate
      split
      · next hnone =>
        have hmem : i ∉ stack := fun h => by
          obtain ⟨rpos, hrpos⟩ := rposition_eq_some.2 h
          rw [hnone] at hrpos
          cases hrpos
        have hunseen : i ∈ unseen nodes stack := Finset.mem_filter.2 ⟨mem_inState.2 hstate, hmem⟩
        obtain ⟨⟨nodes2, s2⟩, hrun, hbecomes⟩ := @foldlM_start _ _
          (fun st dependent => findCyclesFromNode processor n (stack ++ [i]) dependent st)
          (fun _ st => Becomes (· = .success) .done nodes st.1) node.dependents (nodes, s)
          (.refl _ _ _) fun pre d post ⟨nodes₁, s1⟩ hl hbecomes => by
            have hd : d ∈ deps nodes i := by
              rw [deps_eq hnode, hl]
              simp
            have hlen := hbecomes.same.length
            have hcard := Finset.card_lt_card (unseen_ssubset hbecomes hunseen)
            obtain ⟨nodes', s', hrun, hbecomes', -⟩ := findCyclesFromNode_spec processor (n := n)
              (i := d) (s := s1) (stack ++ [i]) (hbecomes.same.inRange hr)
              (hlen ▸ hr i d hd)
              (fun j hj => (mem_append.1 hj).elim (fun hj => hlen ▸ hstack j hj)
                fun hj => mem_singleton.1 hj ▸ hlen ▸ hi)
              (by omega)
            exact ⟨(nodes', s'), hrun, hbecomes.trans hbecomes'⟩
        rw [hrun, ok_bind]
        refine ⟨_, _, rfl, hbecomes.trans_setState hstate rfl, fun _ => ?_⟩
        rw [stateAt_setState (hbecomes.same.length ▸ hi), if_pos rfl]
        nofun
      · next rpos hrpos =>
        have hmem : i ∈ stack := rposition_eq_some.1 ⟨rpos, hrpos⟩
        have hcycle : (stack.drop rpos).mapM (nodeAt nodes) =
            .ok ((stack.drop rpos).map fun j => nodes.getD j node) := by
          refine mapM_eq_ok fun j hj => ?_
          obtain ⟨node', hnode'⟩ := exists_node (hstack j (mem_of_mem_drop hj))
          rw [nodeAt_eq hnode', getD_eq_getElem?_getD, hnode']
          rfl
        rw [hcycle, ok_bind]
        exact ⟨nodes, _, rfl, .refl _ _ _, fun h => absurd hmem h⟩
    · next hother =>
      refine ⟨nodes, s, rfl, .refl _ _ _, fun _ => ?_⟩
      rw [hstate]
      exact fun h => hother (Option.some.inj h)

theorem processCycles_spec (processor : ObligationProcessor O E σ) (hr : InRange nodes) (s : σ) :
    ∃ nodes' s', processCycles processor nodes s = .ok (nodes', s') ∧
      Becomes (· = .success) .done nodes nodes' ∧ ∀ i, stateAt nodes' i ≠ some .success := by
  obtain ⟨⟨nodes', s'⟩, hrun, hbecomes, hstates⟩ := @foldlM_start _ _
    (fun st index => do
      let node ← nodeAt st.1 index
      if node.state = NodeState.success then
        findCyclesFromNode processor (st.1.length + 1) [] index st
      else .ok st)
    (fun done st => Becomes (· = .success) .done nodes st.1 ∧
      ∀ i ∈ done, stateAt st.1 i ≠ some .success) (range nodes.length) (nodes, s)
    ⟨.refl _ _ _, nofun⟩ fun pre i post ⟨nodes₁, s1⟩ hl ⟨hbecomes, hstates⟩ => by
      have hi : i < nodes₁.length := hbecomes.same.length ▸ mem_range.1 (by rw [hl]; simp)
      obtain ⟨node, hnode⟩ := exists_node hi
      have hstate := stateAt_eq hnode
      rw [nodeAt_eq hnode, ok_bind]
      split
      · next hsuccess =>
        have hcard : (unseen nodes₁ []).card ≤ nodes₁.length := by
          refine le_trans (Finset.card_filter_le _ _) (le_trans (Finset.card_filter_le _ _) ?_)
          rw [Finset.card_range]
        obtain ⟨nodes', s', hrun, hbecomes', hleft⟩ := findCyclesFromNode_spec processor
          (n := nodes₁.length + 1) (s := s1) [] (hbecomes.same.inRange hr) hi nofun
          (Nat.lt_succ_of_le hcard)
        refine ⟨(nodes', s'), hrun, hbecomes.trans hbecomes', fun j hj hj' => ?_⟩
        rcases mem_append.1 hj with hj | hj
        · exact hstates j hj (hbecomes'.of_state hj' (by decide))
        · exact hleft nofun (mem_singleton.1 hj ▸ hj')
      · next hother =>
        refine ⟨(nodes₁, s1), rfl, hbecomes, fun j hj hj' => ?_⟩
        rcases mem_append.1 hj with hj | hj
        · exact hstates j hj hj'
        · rw [mem_singleton.1 hj, hstate] at hj'
          exact hother (Option.some.inj hj')
  refine ⟨nodes', s', hrun, hbecomes, fun i hi => hstates i ?_ hi⟩
  rw [mem_range, ← hbecomes.same.length]
  exact lt_of_stateAt hi

end Tortis.Obligation
