import Tortis.Obligation.Invariant

/-!
# Registration

While `process_obligations` goes over the nodes the forest is `Busy`: it is consistent, errors have
spread to all that depends on them, and every node that has been processed waits for its children,
apart from the one whose children are being registered. Each operation keeps that.
-/

namespace Tortis.Obligation

open Outcome List Option

variable {O P E : Type} [DecidableEq P] [ForestObligation O P]

/-- A forest while its nodes are processed. The children of the nodes `skip` are being registered,
and the error of a node has not spread to `roots` yet. -/
structure Busy (f : ObligationForest O P) (skip roots : List Nat) : Prop where
  consistent : Consistent f
  processed : Processed f.nodes
  notDone : ∀ i, stateAt f.nodes i ≠ some .done
  error : ∀ i, IsError f.nodes i → ∀ d ∈ deps f.nodes i, IsError f.nodes d ∨ d ∈ roots
  justified : ∀ (i : Nat) node, f.nodes[i]? = some node → i ∉ skip →
    (node.state = .success ∨ node.state = .waiting) → Justified f i node
  failed : ∀ n ∈ f.history.failed, n ∈ f.history.erroneous ∨
    ∃ node ∈ f.nodes, node.serial = n ∧ node.state = .error

/-- What is later in a run of the forest. -/
structure Later (f f' : ObligationForest O P) : Prop where
  doneCache : ∀ p ∈ f.doneCache, p ∈ f'.doneCache
  created : f.history.created <+: f'.history.created
  completed : f.history.completed <+: f'.history.completed

/-- What a registration leaves of a forest: its nodes stay, and depend on what they depended on. -/
structure Extends (f f' : ObligationForest O P) : Prop extends Later f f' where
  changed : ∀ x ∈ f.history.changed, x ∈ f'.history.changed
  node : ∀ (i : Nat) node, f.nodes[i]? = some node → ∃ node', f'.nodes[i]? = some node' ∧
    asPredicate node'.obligation = asPredicate node.obligation ∧ node'.serial = node.serial ∧
      (∀ d ∈ node.dependents, d ∈ node'.dependents) ∧
        (node'.state = node.state ∨ node'.state = .error ∨ node.state = .pending)

/-- Nodes that have been processed, and may be in error. -/
def Answered (f : ObligationForest O P) (parent : Option Nat) : Prop :=
  ∀ index ∈ parent, ∃ node, f.nodes[index]? = some node ∧
    (node.state = .success ∨ node.state = .error)

section
variable {f f₁ f' : ObligationForest O P} {node : Node O} {i : Nat} {skip roots : List Nat}

section
omit [DecidableEq P]

omit [ForestObligation O P] in
theorem Later.refl (f : ObligationForest O P) : Later f f :=
  ⟨fun _ => id, prefix_refl _, prefix_refl _⟩

omit [ForestObligation O P] in
theorem Later.trans (h : Later f f₁) (h' : Later f₁ f') : Later f f' where
  doneCache p hp := h'.doneCache p (h.doneCache p hp)
  created := h.created.trans h'.created
  completed := h.completed.trans h'.completed

theorem Extends.refl (f : ObligationForest O P) : Extends f f :=
  ⟨.refl f, fun _ => id, fun _ node hi => ⟨node, hi, rfl, rfl, fun _ => id, .inl rfl⟩⟩

theorem Extends.trans (h : Extends f f₁) (h' : Extends f₁ f') : Extends f f' where
  toLater := h.toLater.trans h'.toLater
  changed x hx := h'.changed x (h.changed x hx)
  node i node hi := by
    obtain ⟨node1, hi1, hp1, hserial1, hdeps1, hstate1⟩ := h.node i node hi
    obtain ⟨node', hi', hp', hserial', hdeps', hstate'⟩ := h'.node i node1 hi1
    refine ⟨node', hi', hp'.trans hp1, hserial'.trans hserial1, fun d hd => hdeps' d (hdeps1 d hd), ?_⟩
    rcases hstate1 with hstate1 | hstate1 | hstate1
    · rw [← hstate1]
      exact hstate'
    · rcases hstate' with hstate' | hstate' | hstate'
      · exact .inr (.inl (hstate'.trans hstate1))
      · exact .inr (.inl hstate')
      · rw [hstate1] at hstate'
        cases hstate'
    · exact .inr (.inr hstate1)

theorem Extends.length (h : Extends f f') : f.nodes.length ≤ f'.nodes.length := by
  refine Nat.le_of_not_lt fun hlt => ?_
  obtain ⟨node, hi⟩ := exists_node hlt
  obtain ⟨node', hi', -⟩ := h.node _ node hi
  exact absurd (lt_length hi') (lt_irrefl _)

theorem Extends.awaits (h : Extends f f') {q : P} (hq : Awaits f i q) : Awaits f' i q := by
  rcases hq with hq | ⟨c, child, hchild, hp, hmem⟩
  · exact .inl (h.doneCache q hq)
  · obtain ⟨child', hchild', hp', -, hdeps, -⟩ := h.node c child hchild
    exact .inr ⟨c, child', hchild', hp'.trans hp, hdeps i hmem⟩

theorem Extends.justified (h : Extends f f') {node' : Node O} (hnode : Justified f i node)
    (hserial : node'.serial = node.serial) : Justified f' i node' := by
  obtain ⟨children, hmem, hchildren⟩ := hnode
  exact ⟨children, hserial ▸ h.changed _ hmem, fun q hq => h.awaits (hchildren q hq)⟩

theorem Extends.of_shape {nodes' : List (Node O)} (hshape : SameShape f.nodes nodes')
    (hstate : ∀ i, stateAt nodes' i = stateAt f.nodes i ∨ stateAt nodes' i = some .error ∨
      stateAt f.nodes i = some .pending)
    {changed : List (Nat × List P)} (hchanged : ∀ x ∈ f.history.changed, x ∈ changed)
    (failed : List Nat) :
    Extends f { f with
      nodes := nodes'
      history := { f.history with changed := changed, failed := failed } } where
  toLater := ⟨fun _ => id, prefix_refl _, prefix_refl _⟩
  changed := hchanged
  node i node hi := by
    obtain ⟨node', hi', hp, hdeps, -, hserial⟩ := hshape.symm.node hi
    refine ⟨node', hi', hp.symm, hserial.symm, fun d hd => hdeps ▸ hd, ?_⟩
    have := hstate i
    rw [stateAt_eq hi, stateAt_eq hi', some_inj, some_inj, some_inj] at this
    exact this

theorem Extends.answered (h : Extends f f') {parent : Option Nat} (hparent : Answered f parent) :
    Answered f' parent := by
  intro index hindex
  obtain ⟨node, hnode, hstate⟩ := hparent index hindex
  obtain ⟨node', hnode', -, -, -, hstate'⟩ := h.node index node hnode
  refine ⟨node', hnode', ?_⟩
  rcases hstate' with hstate' | hstate' | hstate'
  · rwa [hstate']
  · exact .inr hstate'
  · rw [hstate'] at hstate
    rcases hstate with hstate | hstate <;> cases hstate

end

/-! ## Errors -/

theorem Busy.failAt (h : Busy f skip roots) (hi : i < f.nodes.length) (hroots : ∀ r ∈ roots, r = i) :
    ∃ trace f', f.failAt i = .ok (trace, f') ∧ Busy f' skip [] ∧ Extends f f' ∧
      IsError f'.nodes i ∧ Becomes (fun _ => True) .error f.nodes f'.nodes := by
  obtain ⟨trace, nodes', hrun, hbecomes, hspread⟩ :=
    errorAt_spec h.consistent.inRange h.consistent.parentsBelow hi
  obtain ⟨node, hnode⟩ := exists_node hi
  have hshape : SameShape f.nodes nodes' := .of_same hbecomes.same
  have hstate : ∀ j, stateAt nodes' j = stateAt f.nodes j ∨ stateAt nodes' j = some .error :=
    fun j => (hbecomes.state j).imp_right And.right
  have herror : IsError nodes' i := hspread.roots i mem_cons_self
  have hextends := Extends.of_shape hshape (fun j => (hstate j).imp_right .inl) (fun _ => id)
    (f.history.failed ++ [node.serial])
  refine ⟨trace, _, ?_, ⟨h.consistent.congr hshape (fun _ => id) (f.history.failed ++ [node.serial]),
    fun j d hd => ?_, fun j hj => ?_, fun j hj d hd => ?_, fun j node' hj hskip hjstate => ?_,
    fun n hn => ?_⟩, hextends, herror, hbecomes⟩
  · rw [ObligationForest.failAt, hrun, ok_bind, hnode]
    rfl
  · rw [hshape.deps] at hd
    rcases hstate d with hd' | hd'
    · rw [Stops, hd']
      exact h.processed j d hd
    · exact .inr (.inr hd')
  · exact h.notDone j (hbecomes.of_state hj (by decide))
  · rw [hshape.deps] at hd
    refine .inl (hspread.closed_all (fun x hx y hy => ?_) hj hd)
    exact (h.error x hx y hy).imp_right fun hy => mem_singleton.2 (hroots y hy)
  · obtain ⟨node0, hj0, heq⟩ := hbecomes.same.node_eq hj
    have hsame : node'.state = node0.state := by
      rcases hstate j with hj' | hj'
      · rw [stateAt_eq hj, stateAt_eq hj0] at hj'
        exact some.inj hj'
      · rw [stateAt_eq hj] at hj'
        rw [some.inj hj'] at hjstate
        rcases hjstate with hjstate | hjstate <;> cases hjstate
    refine hextends.justified (h.justified j node0 hj0 hskip (hsame ▸ hjstate)) ?_
    rw [heq]
  · have hmark : ∀ {j : Nat} {node0 : Node O}, f.nodes[j]? = some node0 → IsError nodes' j →
        ∃ node' ∈ nodes', node'.serial = node0.serial ∧ node'.state = .error := by
      intro j node0 hj0 hj
      obtain ⟨node', hj', hstate'⟩ := exists_of_stateAt hj
      obtain ⟨node1, hj1, heq⟩ := hbecomes.same.node_eq hj'
      obtain rfl := mem_unique hj1 hj0
      exact ⟨node', mem_of_getElem? hj', by rw [heq], hstate'⟩
    rcases mem_append.1 hn with hn | hn
    · rcases h.failed n hn with hn | ⟨node0, hnode0, rfl, hstate0⟩
      · exact .inl hn
      · obtain ⟨j, hj⟩ := mem_iff_getElem?.1 hnode0
        exact .inr (hmark hj (hspread.mono j (by rw [IsError, stateAt_eq hj, hstate0])))
    · rw [mem_singleton.1 hn]
      exact .inr (hmark hnode herror)

/-! ## A node that is there already -/

omit [DecidableEq P] [ForestObligation O P] in
/-- The node at `c` has got `index` as a dependent. -/
structure AddsDependent (nodes nodes' : List (Node O)) (c index : Nat) : Prop where
  length : nodes'.length = nodes.length
  node : ∀ (i : Nat) node', nodes'[i]? = some node' → ∃ node, nodes[i]? = some node ∧
    node' = { node with dependents := node'.dependents } ∧ node.dependents <+: node'.dependents ∧
      ∀ d, d ∈ node'.dependents ↔ d ∈ node.dependents ∨ (i = c ∧ d = index)

namespace AddsDependent

omit [DecidableEq P] [ForestObligation O P]

variable {nodes nodes' : List (Node O)} {c index j d : Nat} {child node' : Node O}

theorem of_set (hc : nodes[c]? = some child) (index : Nat) :
    AddsDependent nodes (if index ∈ child.dependents then nodes
      else nodes.set c { child with dependents := child.dependents ++ [index] }) c index := by
  split
  · next hmem =>
    refine ⟨rfl, fun i node' hi => ⟨node', hi, rfl, prefix_refl _, fun d => ?_⟩⟩
    refine (or_iff_left_of_imp ?_).symm
    rintro ⟨rfl, rfl⟩
    rwa [mem_unique hi hc]
  · refine ⟨length_set, fun i node' hi => ?_⟩
    rw [getElem?_set] at hi
    split at hi
    · next hic =>
      subst hic
      rw [if_pos (lt_length hc)] at hi
      obtain rfl := some.inj hi
      exact ⟨child, hc, rfl, prefix_append _ _, fun d => by simp⟩
    · next hic =>
      exact ⟨node', hi, rfl, prefix_refl _, fun d =>
        (or_iff_left fun h => hic h.1.symm).symm⟩

section
variable (h : AddsDependent nodes nodes' c index)
include h

theorem node_of (hi : nodes[i]? = some node) :
    ∃ node', nodes'[i]? = some node' ∧ node' = { node with dependents := node'.dependents } ∧
      node.dependents <+: node'.dependents ∧
        ∀ d, d ∈ node'.dependents ↔ d ∈ node.dependents ∨ (i = c ∧ d = index) := by
  obtain ⟨node', hi'⟩ := exists_node (h.length ▸ lt_length hi)
  obtain ⟨node0, hi0, hrest⟩ := h.node i node' hi'
  obtain rfl := mem_unique hi0 hi
  exact ⟨node', hi', hrest⟩

theorem stateAt_eq (i : Nat) : stateAt nodes' i = stateAt nodes i := by
  cases hi : nodes[i]? with
  | none =>
    have hlen := getElem?_eq_none_iff.1 hi
    rw [stateAt, stateAt, hi, getElem?_eq_none_iff.2 (h.length ▸ hlen)]
  | some node =>
    obtain ⟨node', hi', heq, -⟩ := h.node_of hi
    rw [Obligation.stateAt_eq hi', Obligation.stateAt_eq hi, heq]

theorem serials : nodes'.map Node.serial = nodes.map Node.serial := by
  refine ext_getElem? fun i => ?_
  rw [getElem?_map, getElem?_map]
  cases hi : nodes[i]? with
  | none =>
    have hlen := getElem?_eq_none_iff.1 hi
    rw [getElem?_eq_none_iff.2 (h.length ▸ hlen)]
  | some node =>
    obtain ⟨node', hi', heq, -⟩ := h.node_of hi
    rw [hi', heq]
    rfl

theorem mem_deps (hc : c < nodes.length) :
    d ∈ deps nodes' i ↔ d ∈ deps nodes i ∨ (i = c ∧ d = index) := by
  cases hi : nodes[i]? with
  | none =>
    have hlen := getElem?_eq_none_iff.1 hi
    have hi' := getElem?_eq_none_iff.2 (h.length ▸ hlen : nodes'.length ≤ i)
    rw [deps, deps, hi, hi']
    refine ⟨(by simp), ?_⟩
    rintro (hd | ⟨rfl, -⟩)
    · cases hd
    · exact absurd hc (Nat.not_lt.2 hlen)
  | some node =>
    obtain ⟨node', hi', -, -, hmem⟩ := h.node_of hi
    rw [deps_eq hi, deps_eq hi']
    exact hmem d

end

end AddsDependent

variable {child parent : Node O} {c index : Nat}

theorem Consistent.addDependent (h : Consistent f)
    (hc : f.nodes[c]? = some child) (hindex : f.nodes[index]? = some parent) :
    Consistent (f.addDependent c child index) := by
  have hadds : AddsDependent f.nodes (f.addDependent c child index).nodes c index :=
    .of_set hc index
  have hfound : (f.addDependent c child index).history.found =
      f.history.found ++ [(parent.serial, child.serial)] := by
    rw [ObligationForest.addDependent, hindex]
    rfl
  have hcases : ∀ {n m}, (n, m) ∈ (f.addDependent c child index).history.found →
      (n, m) ∈ f.history.found ∨ n = parent.serial ∧ m = child.serial := by
    intro n m hmem
    rw [hfound] at hmem
    exact (mem_append.1 hmem).imp_right fun h => Prod.mk.inj (mem_singleton.1 h)
  constructor
  · intro i d hd
    rw [hadds.mem_deps (lt_length hc)] at hd
    refine lt_of_lt_of_eq ?_ hadds.length.symm
    exact hd.elim (h.inRange i d) fun hd => hd.2 ▸ lt_length hindex
  · intro p i
    refine (h.cached p i).trans ⟨fun ⟨node, hi, hp⟩ => ?_, fun ⟨node', hi, hp⟩ => ?_⟩
    · obtain ⟨node', hi', heq, -⟩ := hadds.node_of hi
      exact ⟨node', hi', by rw [heq]; exact hp⟩
    · obtain ⟨node, hi', heq, -⟩ := hadds.node i node' hi
      rw [heq] at hp
      exact ⟨node, hi', hp⟩
  · exact hadds.serials ▸ h.ascending
  · exact hadds.serials ▸ h.accounted
  · intro i node' hi
    obtain ⟨node, hi', heq, -⟩ := hadds.node i node' hi
    rw [heq]
    exact h.created i node hi'
  · intro i node' hi hparent
    obtain ⟨node, hi', heq, hprefix, -⟩ := hadds.node i node' hi
    rw [heq] at hparent
    obtain ⟨d, rest, parent, hcons, hd, hpd, hcreated⟩ := h.parent i node hi' hparent
    obtain ⟨parent', hpd', heq', -⟩ := hadds.node_of hpd
    obtain ⟨suffix, hsuffix⟩ := hprefix
    refine ⟨d, rest ++ suffix, parent', by rw [← hsuffix, hcons]; rfl, hd, hpd', ?_⟩
    rw [heq, heq']
    exact hcreated
  · intro i d node' dependent' hi hd
    obtain ⟨node, hi', heq, -, hmem⟩ := hadds.node i node' hi
    obtain ⟨dependent, hd', heq', -⟩ := hadds.node d dependent' hd
    rw [hmem, h.found i d node dependent hi' hd', hfound, mem_append, mem_singleton,
      Prod.mk.injEq, heq, heq']
    refine or_congr_right ⟨?_, fun ⟨hparent, hchild⟩ => ?_⟩
    · rintro ⟨rfl, rfl⟩
      rw [mem_unique hd' hindex, mem_unique hi' hc]
      exact ⟨rfl, rfl⟩
    · exact ⟨h.serial_inj hi' hc hchild, h.serial_inj hd' hindex hparent⟩
  · intro n m hmem
    rcases hcases hmem with hmem | ⟨rfl, rfl⟩
    · exact h.foundCreated n m hmem
    · exact ⟨h.serial_lt hindex, h.serial_lt hc⟩
  · exact h.doneCache
  · intro n m hmem hn
    rcases hcases hmem with hmem | ⟨rfl, rfl⟩
    · exact h.completed n m hmem hn
    · exact absurd hn (h.not_left hindex).1
  · intro n m hmem hm
    rcases hcases hmem with hmem | ⟨rfl, rfl⟩
    · exact h.erroneous n m hmem hm
    · exact absurd hm (h.not_left hc).2

omit [DecidableEq P] in
theorem Extends.addDependent {c : Nat} {child : Node O} (hc : f.nodes[c]? = some child)
    (index : Nat) : Extends f (f.addDependent c child index) where
  toLater := ⟨fun _ => id, prefix_refl _, prefix_refl _⟩
  changed _ := id
  node i node hi := by
    obtain ⟨node', hi', heq, hprefix, -⟩ := (AddsDependent.of_set hc index).node_of hi
    refine ⟨node', hi', ?_⟩
    rw [heq]
    exact ⟨rfl, rfl, fun d hd => hprefix.subset hd, .inl rfl⟩

theorem Busy.addDependent (h : Busy f skip [])
    (hc : f.nodes[c]? = some child) (hindex : f.nodes[index]? = some parent)
    (hparent : parent.state = .success ∨ parent.state = .error) :
    Busy (f.addDependent c child index) skip (if child.state = .error then [index] else []) := by
  have hadds : AddsDependent f.nodes (f.addDependent c child index).nodes c index :=
    .of_set hc index
  have hstate := hadds.stateAt_eq
  refine ⟨h.consistent.addDependent hc hindex, fun i d hd => ?_, fun i => ?_, fun i hi d hd => ?_,
    fun i node' hi hskip hstate' => ?_, fun n hn => ?_⟩
  · rw [Stops, hstate]
    rcases (hadds.mem_deps (lt_length hc)).1 hd with hd | ⟨-, rfl⟩
    · exact h.processed i d hd
    · rw [stateAt_eq hindex, some_inj, some_inj, some_inj]
      exact hparent.imp_right .inr
  · rw [hstate]
    exact h.notDone i
  · rw [IsError, hstate] at hi ⊢
    rcases (hadds.mem_deps (lt_length hc)).1 hd with hd | ⟨rfl, rfl⟩
    · exact .inl ((h.error i hi d hd).resolve_right not_mem_nil)
    · rw [stateAt_eq hc] at hi
      rw [if_pos (some.inj hi)]
      exact .inr mem_cons_self
  · obtain ⟨node, hi', heq, -⟩ := hadds.node i node' hi
    rw [heq] at hstate'
    refine (Extends.addDependent hc index).justified (h.justified i node hi' hskip hstate') ?_
    rw [heq]
  · refine (h.failed n hn).imp_right ?_
    rintro ⟨node, hnode, hserial, herror⟩
    obtain ⟨i, hi⟩ := mem_iff_getElem?.1 hnode
    obtain ⟨node', hi', heq, -⟩ := hadds.node_of hi
    refine ⟨node', mem_of_getElem? hi', ?_⟩
    rw [heq]
    exact ⟨hserial, herror⟩

/-! ## A new node -/

variable {parent : Option Nat} {o : O}

theorem pushNode_getElem? {treeId j : Nat} {node' : Node O}
    (h : (f.pushNode o parent treeId).nodes[j]? = some node') :
    f.nodes[j]? = some node' ∨ (j = f.nodes.length ∧
      node' = ⟨o, .pending, parent.toList, parent.isSome, treeId, f.history.created.length⟩) := by
  rcases getElem?_concat_eq_some.1 h with h | ⟨hj, heq⟩
  · exact .inl h
  · exact .inr ⟨hj, heq.symm⟩

variable {treeId : Nat}

theorem pushNode_of (h : f.nodes[i]? = some node) :
    (f.pushNode o parent treeId).nodes[i]? = some node :=
  getElem?_concat_eq_some.2 (.inl h)

/-- The node whose processing creates a new one. -/
def creator (f : ObligationForest O P) (parent : Option Nat) : Option Nat :=
  parent.bind fun index => f.nodes[index]?.map Node.serial

omit [DecidableEq P] [ForestObligation O P] in
theorem creator_eq_some {n : Nat} : creator f parent = some n ↔
      ∃ index ∈ parent, ∃ node, f.nodes[index]? = some node ∧ node.serial = n := by
  simp only [creator, bind_eq_some_iff, map_eq_some_iff, mem_def]

theorem mem_found_pushNode {treeId n m : Nat} :
    (n, m) ∈ (f.pushNode o parent treeId).history.found ↔ (n, m) ∈ f.history.found ∨
      (creator f parent = some n ∧ m = f.history.created.length) := by
  refine mem_append.trans (or_congr_right ?_)
  rw [mem_toList, map_eq_some_iff]
  constructor
  · rintro ⟨n', hn', heq⟩
    obtain ⟨rfl, rfl⟩ := Prod.mk.inj heq
    exact ⟨hn', rfl⟩
  · rintro ⟨hn, rfl⟩
    exact ⟨n, hn, rfl⟩

theorem Consistent.pushNode (h : Consistent f) (hfree : f.activeCache.get (asPredicate o) = none)
    (hparent : ∀ index ∈ parent, index < f.nodes.length) (treeId : Nat) :
    Consistent (f.pushNode o parent treeId) := by
  have hlen : (f.pushNode o parent treeId).nodes.length = f.nodes.length + 1 := length_append
  have hnew : (f.pushNode o parent treeId).nodes[f.nodes.length]? =
      some ⟨o, .pending, parent.toList, parent.isSome, treeId, f.history.created.length⟩ :=
    getElem?_concat_eq_some.2 (.inr ⟨rfl, rfl⟩)
  have hcreated : ∀ {n x}, f.history.created[n]? = some x →
      (f.pushNode o parent treeId).history.created[n]? = some x :=
    fun hx => getElem?_concat_eq_some.2 (.inl hx)
  have hcreatedNew : (f.pushNode o parent treeId).history.created[f.history.created.length]? =
      some (asPredicate o, creator f parent) := getElem?_concat_eq_some.2 (.inr ⟨rfl, rfl⟩)
  have hold : ∀ {n m}, (n, m) ∈ f.history.found → n ≠ f.history.created.length ∧
      m ≠ f.history.created.length := fun hmem =>
    ⟨ne_of_lt (h.foundCreated _ _ hmem).1, ne_of_lt (h.foundCreated _ _ hmem).2⟩
  constructor
  · intro i d hd
    obtain ⟨node', hi, hd⟩ := exists_of_mem_deps hd
    rw [hlen]
    refine Nat.lt_succ_of_lt ?_
    rcases pushNode_getElem? hi with hi | ⟨-, rfl⟩
    · exact h.inRange i d (deps_eq hi ▸ hd)
    · exact hparent d (mem_toList.1 hd)
  · intro p i
    refine Iff.trans (b := (if p = asPredicate o then some f.nodes.length
      else f.activeCache.get p) = some i) (by rw [← FxHashMap.get_insert]; rfl) ?_
    split
    · next hp =>
      constructor
      · rintro ⟨⟩
        exact ⟨_, hnew, hp.symm⟩
      · rintro ⟨node', hi, hp'⟩
        rcases pushNode_getElem? hi with hi | ⟨rfl, -⟩
        · rw [← hp, (h.cached p i).2 ⟨node', hi, hp'⟩] at hfree
          cases hfree
        · rfl
    · next hp =>
      refine (h.cached p i).trans ⟨fun ⟨node, hi, hp'⟩ => ⟨node, pushNode_of hi, hp'⟩, ?_⟩
      rintro ⟨node', hi, hp'⟩
      rcases pushNode_getElem? hi with hi | ⟨-, rfl⟩
      · exact ⟨node', hi, hp'⟩
      · exact absurd hp'.symm hp
  · refine pairwise_map.2 (pairwise_append.2 ⟨pairwise_map.1 h.ascending,
      pairwise_singleton _ _, fun node hnode new hnew => ?_⟩)
    obtain ⟨i, hi⟩ := mem_iff_getElem?.1 hnode
    rw [mem_singleton.1 hnew]
    exact h.serial_lt hi
  · rw [show (f.pushNode o parent treeId).history.created.length = f.history.created.length + 1 from
      length_append, range_succ]
    refine .trans (perm_iff_count.2 fun n => ?_) (h.accounted.append_right _)
    simp only [ObligationForest.pushNode, map_append, map_cons, map_nil, count_append]
    omega
  · intro i node' hi
    rcases pushNode_getElem? hi with hi | ⟨-, rfl⟩
    · obtain ⟨creator, hc⟩ := h.created i node' hi
      exact ⟨creator, hcreated hc⟩
    · exact ⟨_, hcreatedNew⟩
  · intro i node' hi hhas
    rcases pushNode_getElem? hi with hi | ⟨rfl, rfl⟩
    · obtain ⟨d, rest, parent, hcons, hd, hpd, hc⟩ := h.parent i node' hi hhas
      exact ⟨d, rest, parent, hcons, hd, pushNode_of hpd, hcreated hc⟩
    · obtain ⟨index, rfl⟩ := isSome_iff_exists.1 hhas
      obtain ⟨node, hnode⟩ := exists_node (hparent index rfl)
      refine ⟨index, [], node, rfl, hparent index rfl, pushNode_of hnode, ?_⟩
      rw [hcreatedNew, creator_eq_some.2 ⟨index, rfl, node, hnode, rfl⟩]
  · intro i d node' dependent' hi hd
    rw [mem_found_pushNode]
    rcases pushNode_getElem? hi with hi | ⟨rfl, rfl⟩ <;>
      rcases pushNode_getElem? hd with hd | ⟨rfl, rfl⟩
    · rw [h.found i d node' dependent' hi hd]
      exact (or_iff_left fun hc => ne_of_lt (h.serial_lt hi) hc.2).symm
    · refine iff_of_false (fun hmem => ?_) ?_
      · exact lt_irrefl _ (h.inRange i _ (deps_eq hi ▸ hmem))
      · rintro (hmem | hmem)
        · exact (hold hmem).1 rfl
        · exact ne_of_lt (h.serial_lt hi) hmem.2
    · rw [mem_toList]
      constructor
      · exact fun hmem => .inr ⟨creator_eq_some.2 ⟨d, hmem, dependent', hd, rfl⟩, rfl⟩
      · rintro (hmem | ⟨hmem, -⟩)
        · exact absurd rfl (hold hmem).2
        · obtain ⟨index, hindex, node, hnode, hserial⟩ := creator_eq_some.1 hmem
          rwa [← h.serial_inj hnode hd hserial]
    · refine iff_of_false (fun hmem => ?_) ?_
      · exact lt_irrefl _ (hparent _ (mem_toList.1 hmem))
      · rintro (hmem | ⟨hmem, -⟩)
        · exact (hold hmem).1 rfl
        · obtain ⟨index, -, node, hnode, hserial⟩ := creator_eq_some.1 hmem
          exact ne_of_lt (h.serial_lt hnode) hserial
  · intro n m hmem
    have hlenc : (f.pushNode o parent treeId).history.created.length =
        f.history.created.length + 1 := length_append
    rw [hlenc]
    rcases mem_found_pushNode.1 hmem with hmem | ⟨hn, rfl⟩
    · exact ⟨Nat.lt_succ_of_lt (h.foundCreated n m hmem).1, Nat.lt_succ_of_lt (h.foundCreated n m hmem).2⟩
    · obtain ⟨index, -, node, hnode, rfl⟩ := creator_eq_some.1 hn
      exact ⟨Nat.lt_succ_of_lt (h.serial_lt hnode), Nat.lt_succ_self _⟩
  · intro p hp
    obtain ⟨n, hn, creator, children, hc, hmem, hdone⟩ := h.doneCache p hp
    exact ⟨n, hn, creator, children, hcreated hc, hmem, hdone⟩
  · intro n m hmem hn
    rcases mem_found_pushNode.1 hmem with hmem | ⟨hcreator, rfl⟩
    · exact h.completed n m hmem hn
    · obtain ⟨index, -, node, hnode, rfl⟩ := creator_eq_some.1 hcreator
      exact absurd hn (h.not_left hnode).1
  · intro n m hmem hm
    rcases mem_found_pushNode.1 hmem with hmem | ⟨hcreator, rfl⟩
    · exact h.erroneous n m hmem hm
    · have hmem := h.accounted.mem_iff.1 (mem_append_right _ (mem_append_right _ hm))
      exact absurd (mem_range.1 hmem) (lt_irrefl _)

theorem Extends.pushNode : Extends f (f.pushNode o parent treeId) where
  toLater := ⟨fun _ => id, prefix_append _ _, prefix_refl _⟩
  changed _ := id
  node _ node hi := ⟨node, pushNode_of hi, rfl, rfl, fun _ => id, .inl rfl⟩

theorem Busy.pushNode (h : Busy f skip []) (hfree : f.activeCache.get (asPredicate o) = none)
    (hparent : Answered f parent) (treeId : Nat) : Busy (f.pushNode o parent treeId) skip [] := by
  have hlt : ∀ index ∈ parent, index < f.nodes.length := fun index hindex => by
    obtain ⟨node, hnode, -⟩ := hparent index hindex
    exact lt_length hnode
  have hstate : ∀ {i state}, stateAt (f.pushNode o parent treeId).nodes i = some state →
      state ≠ .pending → stateAt f.nodes i = some state := by
    intro i state hi hne
    obtain ⟨node', hnode', rfl⟩ := exists_of_stateAt hi
    rcases pushNode_getElem? hnode' with hnode | ⟨-, rfl⟩
    · exact stateAt_eq hnode
    · exact absurd rfl hne
  have hkeep : ∀ {i state}, stateAt f.nodes i = some state →
      stateAt (f.pushNode o parent treeId).nodes i = some state := by
    intro i state hi
    obtain ⟨node, hnode, rfl⟩ := exists_of_stateAt hi
    exact stateAt_eq (pushNode_of hnode)
  refine ⟨h.consistent.pushNode hfree hlt treeId, fun i d hd => ?_, fun i hi => ?_,
    fun i hi d hd => ?_, fun i node' hi hskip hnode' => ?_, fun n hn => ?_⟩
  · obtain ⟨node', hi, hd⟩ := exists_of_mem_deps hd
    rcases pushNode_getElem? hi with hi | ⟨-, rfl⟩
    · exact (h.processed i d (deps_eq hi ▸ hd)).imp hkeep (Or.imp hkeep hkeep)
    · obtain ⟨node, hnode, hstate'⟩ := hparent d (mem_toList.1 hd)
      rw [← some_inj, ← some_inj (b := NodeState.error), ← stateAt_eq hnode] at hstate'
      exact hstate'.imp hkeep fun h => .inr (hkeep h)
  · exact h.notDone i (hstate hi (by decide))
  · have hi' := hstate hi (by decide)
    obtain ⟨node, hnode, -⟩ := exists_of_stateAt hi'
    rw [deps_eq (pushNode_of hnode), ← deps_eq hnode] at hd
    exact (h.error i hi' d hd).imp_left hkeep
  · rcases pushNode_getElem? hi with hi | ⟨-, rfl⟩
    · exact Extends.pushNode.justified (h.justified i node' hi hskip hnode') rfl
    · rcases hnode' with hnode' | hnode' <;> cases hnode'
  · exact (h.failed n hn).imp_right fun ⟨node, hnode, hrest⟩ =>
      ⟨node, mem_append_left _ hnode, hrest⟩

/-! ## `register_obligation_at` -/

theorem Busy.withGenerator (h : Busy f skip roots) (treeId : Nat) :
    Busy { f with obligationTreeIdGenerator := treeId } skip roots where
  consistent := ⟨h.consistent.inRange, h.consistent.cached, h.consistent.ascending,
    h.consistent.accounted, h.consistent.created, h.consistent.parent, h.consistent.found,
    h.consistent.foundCreated, h.consistent.doneCache, h.consistent.completed,
    h.consistent.erroneous⟩
  processed := h.processed
  notDone := h.notDone
  error := h.error
  justified := h.justified
  failed := h.failed

/-- The result of a registration: if it is `Ok` the parent waits for the obligation, which is
completed or in the forest, and no error is to be spread. -/
structure Registered (f : ObligationForest O P) (skip : List Nat) (parent : Option Nat) (o : O)
    (ok : Bool) (f' : ObligationForest O P) : Prop where
  busy : ∃ roots, Busy f' skip roots ∧ (∀ r ∈ roots, r ∈ parent) ∧ (ok = true → roots = [])
  extends_ : Extends f f'
  awaits : ok = true → ∀ index ∈ parent, Awaits f' index (asPredicate o)
  there : parent = none → asPredicate o ∈ f'.doneCache ∨
    ∃ node ∈ f'.nodes, asPredicate node.obligation = asPredicate o

theorem Busy.registerObligationAt (h : Busy f skip []) {parent : Option Nat}
    (hparent : Answered f parent) (o : O) :
    ∃ ok f', f.registerObligationAt o parent = .ok (ok, f') ∧ Registered f skip parent o ok f' := by
  rw [ObligationForest.registerObligationAt]
  split
  · next hdone =>
    exact ⟨true, f, rfl, ⟨[], h, (by simp), fun _ => rfl⟩, .refl f, fun _ _ _ => .inl hdone,
      fun _ => .inl hdone⟩
  split
  · next index hindex =>
    obtain ⟨node, hnode, hp⟩ := (h.consistent.cached _ _).1 hindex
    rw [nodeAt_eq hnode, ok_bind]
    cases parent with
    | none =>
      exact ⟨_, f, rfl, ⟨[], h, (by simp), fun _ => rfl⟩, .refl f, fun _ => (by simp),
        fun _ => .inr ⟨node, mem_of_getElem? hnode, hp⟩⟩
    | some parentIndex =>
      obtain ⟨parent, hpnode, hpstate⟩ := hparent parentIndex rfl
      have hbusy := h.addDependent hnode hpnode hpstate
      refine ⟨_, _, rfl, ⟨_, hbusy, fun r hr => ?_, fun hok => ?_⟩, .addDependent hnode _,
        fun _ i hi => ?_, (by simp)⟩
      · split at hr
        · exact mem_singleton.1 hr ▸ rfl
        · cases hr
      · refine if_neg fun herror => ?_
        rw [herror] at hok
        cases hok
      · obtain rfl := some.inj hi
        obtain ⟨node', hnode', heq, -, hmem⟩ := (AddsDependent.of_set hnode parentIndex).node_of hnode
        exact .inr ⟨index, node', hnode', by rw [heq]; exact hp, (hmem _).2 (.inr ⟨rfl, rfl⟩)⟩
  · next hfree =>
    cases parent with
    | none =>
      have hbusy : Busy (ObligationForest.pushNode
          { f with obligationTreeIdGenerator := f.obligationTreeIdGenerator + 1 } o none
          f.obligationTreeIdGenerator) skip [] :=
        (h.withGenerator (f.obligationTreeIdGenerator + 1)).pushNode hfree
          (fun _ hindex => by cases hindex) _
      have hextends : Extends f
          { f with obligationTreeIdGenerator := f.obligationTreeIdGenerator + 1 } :=
        ⟨⟨fun _ => id, prefix_refl _, prefix_refl _⟩, fun _ => id,
          fun _ node hi => ⟨node, hi, rfl, rfl, fun _ => id, .inl rfl⟩⟩
      exact ⟨_, _, rfl, ⟨[], hbusy, (by simp), fun _ => rfl⟩, hextends.trans .pushNode,
        fun _ => (by simp), fun _ => .inr ⟨_, mem_append_right _ mem_cons_self, rfl⟩⟩
    | some index =>
      obtain ⟨node, hnode, hstate⟩ := hparent index rfl
      dsimp only
      rw [nodeAt_eq hnode, ok_bind, ok_bind]
      split
      · exact ⟨_, f, rfl, ⟨[], h, (by simp), fun _ => rfl⟩, .refl f, (by simp), (by simp)⟩
      · refine ⟨_, _, rfl, ⟨[], h.pushNode hfree hparent _, (by simp), fun _ => rfl⟩, .pushNode,
          fun _ i hi => ?_, (by simp)⟩
        obtain rfl := some.inj hi
        exact .inr ⟨f.nodes.length, _, getElem?_concat_eq_some.2 (.inr ⟨rfl, rfl⟩), rfl,
          mem_cons_self⟩

theorem Busy.registerObligation (h : Busy f [] []) (o : O) :
    ∃ f', f.registerObligation o = .ok f' ∧ Busy f' [] [] ∧ Extends f f' ∧
      (asPredicate o ∈ f'.doneCache ∨
        ∃ node ∈ f'.nodes, asPredicate node.obligation = asPredicate o) := by
  obtain ⟨ok, f', hrun, hregistered⟩ := @Busy.registerObligationAt _ _ _ _ _ _ h none nofun o
  obtain ⟨roots, hbusy, hroots, -⟩ := hregistered.busy
  obtain rfl : roots = [] := eq_nil_iff_forall_not_mem.2 fun r hr => nomatch hroots r hr
  refine ⟨f', ?_, hbusy, hregistered.extends_, hregistered.there rfl⟩
  rw [ObligationForest.registerObligation, hrun]
  rfl

theorem Busy.registerChild {index : Nat} (h : Busy f [index] []) (hindex : Answered f (some index))
    (child : O) : ∃ f', f.registerChild index child = .ok f' ∧ Busy f' [index] [] ∧ Extends f f' ∧
      (IsError f'.nodes index ∨ Awaits f' index (asPredicate child)) := by
  obtain ⟨ok, f₁, hrun, hregistered⟩ := h.registerObligationAt hindex child
  obtain ⟨roots, hbusy, hroots, hok⟩ := hregistered.busy
  rw [ObligationForest.registerChild, hrun, ok_bind]
  dsimp only
  split
  · next htrue =>
    rw [hok htrue] at hbusy
    exact ⟨f₁, rfl, hbusy, hregistered.extends_, .inr (hregistered.awaits htrue index rfl)⟩
  · obtain ⟨node, hnode, -⟩ := hindex index rfl
    have hlt : index < f₁.nodes.length :=
      lt_of_lt_of_le (lt_length hnode) hregistered.extends_.length
    obtain ⟨trace, f', hfail, hbusy', hextends, herror, -⟩ := hbusy.failAt hlt fun r hr =>
      (some.inj (hroots r hr)).symm
    refine ⟨f', ?_, hbusy', hregistered.extends_.trans hextends, .inl herror⟩
    rw [hfail]
    rfl

end

end Tortis.Obligation
