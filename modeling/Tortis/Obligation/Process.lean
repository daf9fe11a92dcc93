import Tortis.Obligation.Register

/-!
# Processing

`process_obligations` and `to_errors` return from the state between calls, and come back to it
(`Idle.processObligations`, `Idle.toErrors`), whatever processor is passed that leaves predicates as
they are.
-/

namespace Tortis.Obligation

open Outcome List Option ObligationForest Node

variable {O P E σ : Type} [DecidableEq P] [ForestObligation O P]

/-- A processor that does not change the predicate of an obligation. -/
def ObligationProcessor.KeepsPredicates (processor : ObligationProcessor O E σ) : Prop :=
  ∀ o s, asPredicate (processor.processObligation o s).2.1 = asPredicate o

section
variable {f f₁ f' : ObligationForest O P} {node : Node O} {index i : Nat} {skip roots : List Nat}
  {nodes' : List (Node O)}

/-! ## Changes of an obligation or a state -/

omit [DecidableEq P] in
theorem sameShape_set (hnode : f.nodes[index]? = some node) {o : O}
    (hp : asPredicate o = asPredicate node.obligation) :
    SameShape f.nodes (f.nodes.set index { node with obligation := o }) ∧
      ∀ i, stateAt (f.nodes.set index { node with obligation := o }) i = stateAt f.nodes i := by
  have hget : ∀ i, (f.nodes.set index { node with obligation := o })[i]? = f.nodes[i]? ∨
      (i = index ∧ (f.nodes.set index { node with obligation := o })[i]? =
        some { node with obligation := o }) := by
    intro i
    rw [getElem?_set]
    split
    · next hi => exact .inr ⟨hi.symm, if_pos (lt_length hnode)⟩
    · exact .inl rfl
  constructor
  · refine ext_getElem? fun i => ?_
    rw [getElem?_map, getElem?_map]
    rcases hget i with heq | ⟨rfl, heq⟩
    · rw [heq]
    · rw [heq, hnode, map_some, map_some, shape, shape, hp]
  · intro i
    rcases hget i with heq | ⟨rfl, heq⟩
    · rw [stateAt, heq, stateAt]
    · rw [stateAt, heq, stateAt, hnode]
      rfl

omit [DecidableEq P] in
theorem SameShape.node_state {nodes nodes' : List (Node O)} (hshape : SameShape nodes nodes')
    (hstate : ∀ i, stateAt nodes' i = stateAt nodes i) {i : Nat} {node' : Node O}
    (hi : nodes'[i]? = some node') :
    ∃ node, nodes[i]? = some node ∧ node'.serial = node.serial ∧ node'.state = node.state := by
  obtain ⟨node, hi', -, -, -, hserial⟩ := hshape.node hi
  have := hstate i
  rw [stateAt_eq hi, stateAt_eq hi'] at this
  exact ⟨node, hi', hserial, some.inj this⟩

omit [DecidableEq P] in
theorem Extends.of_states (hshape : SameShape f.nodes nodes')
    (hstate : ∀ i, stateAt nodes' i = stateAt f.nodes i) : Extends f { f with nodes := nodes' } :=
  .of_shape hshape (fun i => .inl (hstate i)) (fun _ => id) f.history.failed

theorem Busy.of_states (h : Busy f skip roots) (hshape : SameShape f.nodes nodes')
    (hstate : ∀ i, stateAt nodes' i = stateAt f.nodes i) :
    Busy { f with nodes := nodes' } skip roots := by
  refine ⟨h.consistent.congr hshape (fun _ => id) f.history.failed, fun i d hd => ?_, fun i => ?_,
    fun i hi d hd => ?_, fun i node' hi hskip hnode' => ?_, fun n hn => ?_⟩
  · rw [hshape.deps] at hd
    rw [Stops, hstate]
    exact h.processed i d hd
  · rw [hstate]
    exact h.notDone i
  · rw [hshape.deps] at hd
    rw [IsError, hstate] at hi ⊢
    exact h.error i hi d hd
  · obtain ⟨node, hi', hserial, hsame⟩ := hshape.node_state hstate hi
    rw [hsame] at hnode'
    exact (Extends.of_states hshape hstate).justified (h.justified i node hi' hskip hnode') hserial
  · refine (h.failed n hn).imp_right ?_
    rintro ⟨node, hnode, hserial, herror⟩
    obtain ⟨i, hi⟩ := mem_iff_getElem?.1 hnode
    obtain ⟨node', hi'⟩ := exists_node (hshape.length ▸ lt_length hi)
    obtain ⟨node0, hi0, hserial', hsame⟩ := hshape.node_state hstate hi'
    obtain rfl := mem_unique hi0 hi
    exact ⟨node', mem_of_getElem? hi', hserial'.trans hserial, hsame.trans herror⟩

theorem Idle.of_states (h : Idle f) (hshape : SameShape f.nodes nodes')
    (hstate : ∀ i, stateAt nodes' i = stateAt f.nodes i) : Idle { f with nodes := nodes' } := by
  have hstates : stateAt nodes' = stateAt f.nodes := funext hstate
  refine ⟨h.consistent.congr hshape (fun _ => id) f.history.failed, fun node' hnode' => ?_,
    fun i d hd => ?_, fun i hi => ?_, fun i node' hi hnode' => ?_, h.failed⟩
  · obtain ⟨i, hi⟩ := mem_iff_getElem?.1 hnode'
    obtain ⟨node, hi', -, hsame⟩ := hshape.node_state hstate hi
    rw [alive_iff, hsame, ← alive_iff]
    exact h.alive node (mem_of_getElem? hi')
  · rw [hshape.deps] at hd
    rw [Stops, hstate]
    exact h.processed i d hd
  · rw [hstates] at hi ⊢
    rw [hshape.deps]
    exact h.below i hi
  · obtain ⟨node, hi', hserial, hsame⟩ := hshape.node_state hstate hi
    rw [hsame] at hnode'
    exact (Extends.of_states hshape hstate).justified (h.justified i node hi' hnode') hserial

theorem Idle.busy (h : Idle f) : Busy f [] [] where
  consistent := h.consistent
  processed := h.processed
  notDone i hi := by
    obtain ⟨node, hnode, hstate⟩ := exists_of_stateAt hi
    rcases alive_iff.1 (h.alive node (mem_of_getElem? hnode)) with hs | hs <;>
      rw [hstate] at hs <;> cases hs
  error i hi := by
    obtain ⟨node, hnode, hstate⟩ := exists_of_stateAt hi
    rcases alive_iff.1 (h.alive node (mem_of_getElem? hnode)) with hs | hs <;>
      rw [hstate] at hs <;> cases hs
  justified i node hi _ hstate := by
    rcases hstate with hstate | hstate
    · rcases alive_iff.1 (h.alive node (mem_of_getElem? hi)) with hs | hs <;>
        rw [hstate] at hs <;> cases hs
    · exact h.justified i node hi hstate
  failed n hn := .inl (h.failed n hn)

theorem Busy.setSuccess (h : Busy f [] []) (hnode : f.nodes[index]? = some node)
    (hpending : node.state = .pending) (children : List O) :
    Busy (f.setSuccess index node.serial children) [index] [] ∧
      Extends f (f.setSuccess index node.serial children) := by
  have hbecomes : Becomes (· = .pending) .success f.nodes (setState f.nodes index .success) :=
    .setState (stateAt_eq hnode) hpending
  have hshape : SameShape f.nodes (setState f.nodes index .success) := .of_same hbecomes.same
  have hchanged : ∀ x ∈ f.history.changed,
      x ∈ f.history.changed ++ [(node.serial, children.map asPredicate)] :=
    fun x hx => mem_append_left _ hx
  have hextends : Extends f (f.setSuccess index node.serial children) :=
    .of_shape hshape (fun i => (hbecomes.state i).imp_right fun hi => .inr (by
      obtain ⟨⟨state, hstate, rfl⟩, -⟩ := hi
      exact hstate)) hchanged f.history.failed
  have hkeep : ∀ {i state}, stateAt f.nodes i = some state → state ≠ .pending →
      stateAt (setState f.nodes index .success) i = some state :=
    fun hi hne => hbecomes.to_state hi hne
  refine ⟨⟨h.consistent.congr hshape hchanged f.history.failed, fun i d hd => ?_, fun i hi => ?_,
    fun i hi d hd => ?_, fun i node' hi hskip hnode' => ?_, fun n hn => ?_⟩, hextends⟩
  · dsimp only [ObligationForest.setSuccess] at hd ⊢
    rw [hshape.deps] at hd
    exact (h.processed i d hd).imp (hkeep · (by decide))
      (Or.imp (hkeep · (by decide)) (hkeep · (by decide)))
  · exact h.notDone i (hbecomes.of_state hi (by decide))
  · dsimp only [ObligationForest.setSuccess] at hd
    rw [hshape.deps] at hd
    exact (h.error i (hbecomes.of_state hi (by decide)) d hd).imp_left (hkeep · (by decide))
  · obtain ⟨node0, hi0, heq⟩ := hbecomes.same.node_eq hi
    have hi : (setState f.nodes index .success)[i]? = some node' := hi
    have hsame : node'.state = node0.state := by
      have := stateAt_setState (lt_length hnode) i .success
      rw [if_neg fun hi => hskip (mem_singleton.2 hi), stateAt_eq hi, stateAt_eq hi0] at this
      exact some.inj this
    rw [hsame] at hnode'
    exact hextends.justified (h.justified i node0 hi0 not_mem_nil hnode') (by rw [heq])
  · refine (h.failed n hn).imp_right fun ⟨node0, hnode0, hserial, herror⟩ => ?_
    obtain ⟨i, hi⟩ := mem_iff_getElem?.1 hnode0
    have hi' := hkeep (stateAt_eq hi) (by rw [herror]; decide)
    obtain ⟨node', hnode', hstate'⟩ := exists_of_stateAt hi'
    obtain ⟨node1, hi1, heq⟩ := hbecomes.same.node_eq hnode'
    obtain rfl := mem_unique hi1 hi
    exact ⟨node', mem_of_getElem? hnode', by rw [heq]; exact hserial, hstate'.trans herror⟩

/-! ## The loops -/

theorem Busy.registerChildren (h : Busy f [index] []) (hnode : f.nodes[index]? = some node)
    (hstate : node.state = .success) {children : List O}
    (hchanged : (node.serial, children.map asPredicate) ∈ f.history.changed) :
    ∃ f', children.foldlM (ObligationForest.registerChild index) f = .ok f' ∧ Busy f' [] [] ∧
      Extends f f' := by
  have hanswered : Answered f (some index) := fun i hi =>
    some.inj hi ▸ ⟨node, hnode, .inl hstate⟩
  obtain ⟨f', hrun, hbusy, hextends, hawaits⟩ := @foldlM_start _ _
    (ObligationForest.registerChild index)
    (fun done f' => Busy f' [index] [] ∧ Extends f f' ∧
      (IsError f'.nodes index ∨ ∀ child ∈ done, Awaits f' index (asPredicate child)))
    children f ⟨h, .refl f, .inr nofun⟩ fun pre child post f₁ hl ⟨hbusy, hextends, hawaits⟩ => by
      obtain ⟨f', hrun, hbusy', hextends', hchild⟩ :=
        hbusy.registerChild (hextends.answered hanswered) child
      refine ⟨f', hrun, hbusy', hextends.trans hextends', ?_⟩
      rcases hawaits with herror | hawaits
      · -- A node in error stays in error.
        obtain ⟨node1, hnode1, hstate1⟩ := exists_of_stateAt herror
        obtain ⟨node', hnode', -, -, -, hstate'⟩ := hextends'.node index node1 hnode1
        rw [hstate1] at hstate'
        rcases hstate' with hstate' | hstate' | hstate'
        · exact .inl ((stateAt_eq hnode').trans (congrArg some hstate'))
        · exact .inl ((stateAt_eq hnode').trans (congrArg some hstate'))
        · cases hstate'
      · refine hchild.imp_right fun hchild c hc => ?_
        rcases mem_append.1 hc with hc | hc
        · exact hextends'.awaits (hawaits c hc)
        · rwa [mem_singleton.1 hc]
  refine ⟨f', hrun, ⟨hbusy.consistent, hbusy.processed, hbusy.notDone, hbusy.error,
    fun i node' hi _ hstate' => ?_, hbusy.failed⟩, hextends⟩
  by_cases hindex : i = index
  · subst hindex
    obtain ⟨node1, hnode1, -, hserial, -⟩ := hextends.node i node hnode
    obtain rfl := mem_unique hnode1 hi
    refine ⟨children.map asPredicate, hserial ▸ hextends.changed _ hchanged, fun q hq => ?_⟩
    obtain ⟨child, hchild, rfl⟩ := mem_map.1 hq
    rcases hawaits with herror | hawaits
    · rw [IsError, stateAt_eq hi, some_inj] at herror
      rw [herror] at hstate'
      rcases hstate' with hstate' | hstate' <;> cases hstate'
    · exact hawaits child hchild
  · exact hbusy.justified i node' hi (fun h => hindex (mem_singleton.1 h)) hstate'

/-- What the loop of `process_obligations` keeps. -/
structure Passed (f : ObligationForest O P) (p : Pass O P E σ) : Prop where
  busy : Busy p.forest [] []
  extends_ : Extends f p.forest
  idle : p.stalled = true → Idle p.forest

variable {processor : ObligationProcessor O E σ}

theorem Passed.processNode
    (hprocessor : processor.KeepsPredicates) {p : Pass O P E σ} (h : Passed f p)
    (hindex : index < f.nodes.length) :
    ∃ p', processNode processor p index = .ok p' ∧ Passed f p' := by
  obtain ⟨node, hnode⟩ := exists_node (lt_of_lt_of_le hindex h.extends_.length)
  rw [Obligation.processNode, nodeAt_eq hnode, ok_bind]
  split
  · exact ⟨p, rfl, h⟩
  · next hstate =>
    have hpending : node.state = .pending := not_not.1 hstate
    have hp := hprocessor node.obligation p.processor
    generalize processor.processObligation node.obligation p.processor = answer at hp ⊢
    obtain ⟨result, o, s⟩ := answer
    obtain ⟨hshape, hstates⟩ := sameShape_set hnode hp
    have hbusy := h.busy.of_states hshape hstates
    have hextends := h.extends_.trans (Extends.of_states hshape hstates)
    have hnode' : (p.forest.nodes.set index { node with obligation := o })[index]? =
        some { node with obligation := o } := getElem?_set_self (lt_length hnode)
    cases result with
    | unchanged => exact ⟨_, rfl, hbusy, hextends, fun hs => (h.idle hs).of_states hshape hstates⟩
    | changed children =>
      obtain ⟨hsuccess, hextends1⟩ := hbusy.setSuccess hnode' hpending children
      have hset : (setState (p.forest.nodes.set index { node with obligation := o }) index
          .success)[index]? = some { node with obligation := o, state := .success } := by
        rw [setState_getElem?, hnode', map_some, if_pos rfl]
      obtain ⟨f', hrun, hbusy', hextends'⟩ :=
        hsuccess.registerChildren hset rfl (mem_append_right _ mem_cons_self)
      dsimp only
      rw [hrun, ok_bind]
      exact ⟨_, rfl, hbusy', hextends.trans (hextends1.trans hextends'), nofun⟩
    | error err =>
      obtain ⟨trace, f', hrun, hbusy', hextends', -⟩ := hbusy.failAt (lt_length hnode') nofun
      dsimp only
      rw [hrun, ok_bind]
      exact ⟨_, rfl, hbusy', hextends.trans hextends', nofun⟩

/-! ## `process_obligations` -/

theorem Busy.settled (h : Busy f [] []) {nodes1 : List (Node O)}
    (hmark : MarkedWaiting f.nodes nodes1) (hcycles : Becomes (· = .success) .done nodes1 nodes')
    (hsuccess : ∀ i, stateAt nodes' i ≠ some .success) : Settled { f with nodes := nodes' } := by
  have hsame := hmark.same.trans hcycles.same
  have hshape : SameShape f.nodes nodes' := .of_same hsame
  have hkeep : ∀ {i state}, state ≠ .done → state ≠ .success →
      (stateAt nodes' i = some state ↔ stateAt nodes1 i = some state) := fun hdone hsucc =>
    ⟨(hcycles.of_state · hdone), (hcycles.to_state · hsucc)⟩
  have herror : ∀ i, IsError nodes' i ↔ IsError f.nodes i := fun i =>
    (hkeep (by decide) (by decide)).trans (hmark.error i)
  have hstops : ∀ i, Stops nodes1 i → Stops nodes' i := fun i =>
    Or.imp (hkeep (by decide) (by decide)).2 (hkeep (by decide) (by decide)).2
  refine ⟨h.consistent.congr hshape (fun _ => id) f.history.failed, fun i node hi halive d hd => ?_,
    fun i hi d hd => ?_, fun i hi => ?_, fun node hnode hstate => ?_, fun i node' hi hnode' => ?_,
    fun n hn => ?_⟩
  · refine hstops d (hmark.closed i ?_ d ?_)
    · refine (alive_iff.1 halive).imp (fun hstate => ?_) fun hstate => ?_
      all_goals exact (hkeep (by decide) (by decide)).1 ((stateAt_eq hi).trans (congrArg some hstate))
    · rw [← hshape.deps, deps_eq hi]
      exact hd
  · rw [hshape.deps] at hd
    rw [herror] at hi ⊢
    exact (h.error i hi d hd).resolve_right not_mem_nil
  · obtain ⟨p, hp, hreach⟩ := hmark.below i ((hkeep (by decide) (by decide)).1 hi)
    refine ⟨p, (hkeep (by decide) (by decide)).2 hp, ?_⟩
    rwa [hshape.deps]
  · obtain ⟨i, hi⟩ := mem_iff_getElem?.1 hnode
    exact hsuccess i ((stateAt_eq hi).trans (congrArg some hstate))
  · obtain ⟨node, hi', heq⟩ := hsame.node_eq hi
    have hprocessed : node.state = .success ∨ node.state = .waiting := by
      have hpending := (@hkeep i .pending (by decide) (by decide)).trans (hmark.pending i)
      have herror' := herror i
      have hdone := h.notDone i
      rw [stateAt_eq hi, stateAt_eq hi', some_inj, some_inj] at hpending
      rw [IsError, IsError, stateAt_eq hi, stateAt_eq hi', some_inj, some_inj] at herror'
      rw [stateAt_eq hi'] at hdone
      cases hstate : node.state with
      | success => exact .inl rfl
      | waiting => exact .inr rfl
      | pending =>
        rw [hpending.2 hstate] at hnode'
        rcases hnode' with hnode' | hnode' <;> cases hnode'
      | error =>
        rw [herror'.2 hstate] at hnode'
        rcases hnode' with hnode' | hnode' <;> cases hnode'
      | done => exact absurd (congrArg some hstate) hdone
    obtain ⟨children, hmem, hchildren⟩ := h.justified i node hi' not_mem_nil hprocessed
    refine ⟨children, by rw [heq]; exact hmem, fun q hq => ?_⟩
    refine (hchildren q hq).imp_right ?_
    rintro ⟨c, child, hchild, hp, hdep⟩
    obtain ⟨child', hchild', hp', hdeps, -⟩ := hshape.symm.node hchild
    exact ⟨c, child', hchild', hp'.symm.trans hp, hdeps ▸ hdep⟩
  · refine (h.failed n hn).imp_right ?_
    rintro ⟨node, hnode, hserial, hstate⟩
    obtain ⟨i, hi⟩ := mem_iff_getElem?.1 hnode
    obtain ⟨node', hi', hstate'⟩ := exists_of_stateAt
      ((herror i).2 ((stateAt_eq hi).trans (congrArg some hstate)))
    obtain ⟨node0, hi0, heq⟩ := hsame.node_eq hi'
    obtain rfl := mem_unique hi0 hi
    exact ⟨node', mem_of_getElem? hi', by rw [heq]; exact hserial, hstate'⟩

theorem Compressed.later (hc : Compressed f f') : Later f f' where
  doneCache p hp := (hc.doneCache p).2 (.inl hp)
  created := by
    rw [hc.history]
  completed := by
    rw [hc.history]
    exact prefix_append _ _

/-- The obligation that the node with the serial `n` was for is done. -/
def IsDone (f : ObligationForest O P) (o : O) (n : Nat) : Prop :=
  asPredicate o ∈ f.doneCache ∧ ∃ creator, f.history.created[n]? = some (asPredicate o, creator)

/-- The obligations `completed` are those of nodes that have left the forest as completed between
`f` and `f'`, each of them once. -/
def Reports (f f' : ObligationForest O P) (completed : List O) : Prop :=
  ∃ left ns, f'.history.completed = f.history.completed ++ left ∧ ns.Sublist left ∧
    List.Forall₂ (IsDone f') completed ns

omit [DecidableEq P] in
theorem Later.isDone (h : Later f f') {o : O} {n : Nat} (ho : IsDone f o n) : IsDone f' o n := by
  obtain ⟨hdone, creator, hcreated⟩ := ho
  obtain ⟨hlt, heq⟩ := List.getElem?_eq_some_iff.1 hcreated
  exact ⟨h.doneCache _ hdone, creator,
    (prefix_iff_getElem?.1 h.created n hlt).trans (congrArg some heq)⟩

omit [DecidableEq P] in
theorem Later.reports_nil (h : Later f f') : Reports f f' [] := by
  obtain ⟨left, hleft⟩ := h.completed
  exact ⟨left, [], hleft.symm, nil_sublist _, .nil⟩

omit [DecidableEq P] in
theorem Reports.append {completed completed' : List O} (h : Reports f f₁ completed)
    (h' : Reports f₁ f' completed') (hlater : Later f₁ f') :
    Reports f f' (completed ++ completed') := by
  obtain ⟨left, ns, hleft, hns, hdone⟩ := h
  obtain ⟨left', ns', hleft', hns', hdone'⟩ := h'
  refine ⟨left ++ left', ns ++ ns', ?_, hns.append hns', ?_⟩
  · rw [hleft', hleft, append_assoc]
  · exact rel_append (hdone.imp fun _ _ => hlater.isDone) hdone'

theorem Settled.reports (h : Settled f) (hc : Compressed f f') :
    Reports f f' ((f.nodes.filter isDone).map obligation) := by
  refine ⟨_, _, congrArg History.completed hc.history, .refl _, ?_⟩
  rw [forall₂_map_left_iff, forall₂_map_right_iff, forall₂_same]
  intro node hnode
  obtain ⟨hnode, hdone⟩ := mem_filter.1 hnode
  have hstate := isDone_iff.1 hdone
  obtain ⟨i, hi⟩ := mem_iff_getElem?.1 hnode
  obtain ⟨creator, hcreated⟩ := h.consistent.created i node hi
  refine ⟨(hc.doneCache _).2 (.inr ⟨node, hnode, hstate, rfl⟩), creator, ?_⟩
  rw [hc.history]
  exact hcreated

theorem Busy.markNodes (h : Busy f [] []) (processor : ObligationProcessor O E σ) (s : σ) :
    ∃ f', f.markNodes processor s = .ok f' ∧ Settled f' ∧ f'.doneCache = f.doneCache ∧
      f'.history = f.history := by
  obtain ⟨nodes1, hmark, hmarked⟩ := markAsWaiting_spec h.consistent.inRange h.processed h.notDone
  obtain ⟨nodes2, s2, hcycles, hbecomes, hsuccess⟩ := processCycles_spec processor
    (hmarked.same.inRange h.consistent.inRange) s
  rw [ObligationForest.markNodes, hmark, ok_bind, hcycles, ok_bind]
  exact ⟨_, rfl, h.settled hmarked hbecomes hsuccess, rfl, rfl⟩

theorem Idle.processNodes (h : Idle f) (hprocessor : processor.KeepsPredicates) (s : σ) :
    ∃ p, f.processNodes processor s = .ok p ∧ Passed f p :=
  @foldlM_range _ (processNode processor) (fun _ p => Passed f p) ⟨f, [], true, s⟩
    ⟨h.busy, .refl f, fun _ => h⟩ f.nodes.length fun _ hi _ hp => hp.processNode hprocessor hi

theorem Idle.processObligations (h : Idle f)
    (hprocessor : processor.KeepsPredicates) (s : σ) (doCompleted : Bool) :
    ∃ outcome f', f.processObligations processor s doCompleted = .ok (outcome, f') ∧ Idle f' ∧
      Later f f' ∧ Reports f f' (outcome.completed.getD []) := by
  obtain ⟨p, hrun, hpassed⟩ := h.processNodes hprocessor s
  have hlater := hpassed.extends_.toLater
  rw [ObligationForest.processObligations, hrun, ok_bind]
  split
  · next hstalled =>
    refine ⟨_, _, rfl, hpassed.idle hstalled, hlater, ?_⟩
    cases doCompleted <;> exact hlater.reports_nil
  · obtain ⟨f₁, hmark, hsettled, hdone, hhistory⟩ := hpassed.busy.markNodes processor p.processor
    obtain ⟨f', hcompress, hc⟩ := compress_spec hsettled.consistent.inRange
      hsettled.consistent.cached hsettled.notSuccess doCompleted
    have hmarked : Later p.forest f₁ :=
      ⟨fun _ hp => hdone ▸ hp, hhistory ▸ prefix_refl _, hhistory ▸ prefix_refl _⟩
    have hlater1 := hlater.trans hmarked
    rw [hmark, ok_bind, hcompress, ok_bind]
    refine ⟨_, f', rfl, hsettled.idle hc, hlater1.trans hc.later, ?_⟩
    cases doCompleted with
    | false => exact (hlater1.trans hc.later).reports_nil
    | true => exact hlater1.reports_nil.append (hsettled.reports hc) hc.later

/-! ## `to_errors` -/

/-- What the loop of `to_errors` keeps: no node of the first ones is pending. -/
structure Failing (f : ObligationForest O P) (k : Nat) (f' : ObligationForest O P) : Prop where
  busy : Busy f' [] []
  extends_ : Extends f f'
  becomes : Becomes (fun _ => True) .error f.nodes f'.nodes
  pending : ∀ i < k, stateAt f'.nodes i ≠ some .pending

theorem Failing.failPending (h : Failing f i f₁) (hi : i < f.nodes.length) (error : E)
    (errors : List (ForestError O E)) :
    ∃ st, failPending error (errors, f₁) i = .ok st ∧ Failing f (i + 1) st.2 := by
  have hlt : i < f₁.nodes.length := h.becomes.same.length ▸ hi
  obtain ⟨node, hnode⟩ := exists_node hlt
  rw [ObligationForest.failPending, nodeAt_eq hnode, ok_bind]
  split
  · obtain ⟨trace, f', hrun, hbusy, hextends, herror, hbecomes⟩ := h.busy.failAt hlt nofun
    rw [hrun, ok_bind]
    refine ⟨_, rfl, hbusy, h.extends_.trans hextends, h.becomes.trans hbecomes, fun j hj hj' => ?_⟩
    rcases Nat.lt_succ_iff_lt_or_eq.1 hj with hj | rfl
    · exact h.pending j hj (hbecomes.of_state hj' (by decide))
    · rw [herror] at hj'
      cases hj'
  · next hother =>
    refine ⟨_, rfl, h.busy, h.extends_, h.becomes, fun j hj hj' => ?_⟩
    rcases Nat.lt_succ_iff_lt_or_eq.1 hj with hj | rfl
    · exact h.pending j hj hj'
    · rw [stateAt_eq hnode] at hj'
      exact hother (some.inj hj')

theorem Idle.failNodes (h : Idle f) (error : E) :
    ∃ st, f.failNodes error = .ok st ∧ Failing f f.nodes.length st.2 :=
  @foldlM_range _ (failPending error) (fun k st => Failing f k st.2)
    ([], f) ⟨h.busy, .refl f, .refl _ _ _, by simp⟩
    f.nodes.length fun _ hi ⟨errors, _⟩ hst => hst.failPending hi error errors

theorem Busy.error_of_reach (h : Busy f [] []) {p : Nat} (hp : IsError f.nodes p)
    (hreach : Reach (deps f.nodes) p i) : IsError f.nodes i := by
  induction hreach with
  | refl => exact hp
  | tail _ hstep ih => exact (h.error _ ih _ hstep).resolve_right not_mem_nil

theorem Failing.all_error (h : Failing f f.nodes.length f') (hf : Idle f) {node' : Node O}
    (hnode' : node' ∈ f'.nodes) : node'.state = .error := by
  obtain ⟨i, hi⟩ := mem_iff_getElem?.1 hnode'
  have hpending : ∀ p, stateAt f.nodes p = some .pending → IsError f'.nodes p := by
    intro p hp
    rcases h.becomes.state p with hp' | ⟨-, hp'⟩
    · exact absurd (hp'.trans hp) (h.pending p (lt_of_stateAt hp))
    · exact hp'
  suffices herror : IsError f'.nodes i by
    rw [IsError, stateAt_eq hi] at herror
    exact some.inj herror
  obtain ⟨node, hnode, -⟩ := h.becomes.same.node_eq hi
  rcases alive_iff.1 (hf.alive node (mem_of_getElem? hnode)) with hstate | hstate
  · exact hpending i ((stateAt_eq hnode).trans (congrArg some hstate))
  · obtain ⟨p, hp, hreach⟩ := hf.below i ((stateAt_eq hnode).trans (congrArg some hstate))
    rw [← h.becomes.same.deps] at hreach
    exact h.busy.error_of_reach (hpending p hp) hreach

theorem Failing.settled (h : Failing f f.nodes.length f') (hf : Idle f) : Settled f' := by
  have hall : ∀ {i : Nat} {node : Node O}, f'.nodes[i]? = some node → node.state = .error :=
    fun hi => h.all_error hf (mem_of_getElem? hi)
  refine ⟨h.busy.consistent, fun i node hi halive => ?_, fun i hi d hd => ?_, fun i hi => ?_,
    fun node hnode hstate => ?_, fun i node hi hstate => ?_, h.busy.failed⟩
  · rw [alive_iff, hall hi] at halive
    rcases halive with halive | halive <;> cases halive
  · exact (h.busy.error i hi d hd).resolve_right not_mem_nil
  · obtain ⟨node, hnode, hstate⟩ := exists_of_stateAt hi
    rw [hall hnode] at hstate
    cases hstate
  · rw [h.all_error hf hnode] at hstate
    cases hstate
  · rw [hall hi] at hstate
    rcases hstate with hstate | hstate <;> cases hstate

theorem Idle.toErrors (h : Idle f) (error : E) :
    ∃ errors f', f.toErrors error = .ok (errors, f') ∧ Idle f' ∧ Later f f' ∧ f'.nodes = [] := by
  obtain ⟨⟨errors, f₁⟩, hrun, hfailing⟩ := h.failNodes error
  have hsettled := hfailing.settled h
  have hdead : ∀ node ∈ f₁.nodes, node.state = .error := fun node => hfailing.all_error h
  have hdone : f₁.nodes.filter isDone = [] := filter_eq_nil_iff.2 fun node hnode => by
    rw [isDone_iff, hdead node hnode]
    nofun
  have halive : f₁.nodes.filter Node.alive = [] := filter_eq_nil_iff.2 fun node hnode => by
    rw [alive_iff, hdead node hnode]
    rintro (h | h) <;> cases h
  obtain ⟨f', hcompress, hc⟩ := compress_spec hsettled.consistent.inRange
    hsettled.consistent.cached hsettled.notSuccess true
  have hempty : f'.nodes = [] := by
    have hnodes := hc.nodes
    rw [halive] at hnodes
    exact forall₂_nil_left_iff.1 hnodes
  rw [ObligationForest.toErrors, hrun, ok_bind]
  dsimp only
  rw [hcompress, ok_bind, hdone]
  exact ⟨errors, f', rfl, hsettled.idle hc, hfailing.extends_.toLater.trans hc.later, hempty⟩

end

end Tortis.Obligation
