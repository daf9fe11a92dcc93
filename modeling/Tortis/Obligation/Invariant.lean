import Tortis.Obligation.Compress

/-!
# The invariant of a forest

What holds of a forest at any time, apart from the states of its nodes, is `Consistent`: the indices
are valid and name the nodes they are meant to, and the history accounts for every node. `Settled`
is what the passes of `process_obligations` leave, and `Idle` what `compress` makes of it
(`Settled.idle`): the state of a forest between calls.
-/

namespace Tortis.Obligation

open List Node Kept

variable {O P E : Type} [DecidableEq P] [ForestObligation O P]

/-! ## Consistent forests -/

/-- What `Consistent` needs of a node. -/
def Node.shape (node : Node O) : P × List Nat × Bool × Nat :=
  (asPredicate node.obligation, node.dependents, node.hasParent, node.serial)

/-- Lists of nodes that differ in states and trees, and in obligations with one predicate. -/
def SameShape (nodes nodes' : List (Node O)) : Prop :=
  nodes'.map shape = nodes.map (shape (P := P))

/-- A forest apart from the states of its nodes. -/
structure Consistent (f : ObligationForest O P) : Prop where
  inRange : InRange f.nodes
  cached : Cached f
  ascending : (f.nodes.map serial).Pairwise (· < ·)
  /-- Every node is in the forest, or has left it once. -/
  accounted : (f.nodes.map serial ++ (f.history.completed ++ f.history.erroneous)).Perm
    (range f.history.created.length)
  created : ∀ (i : Nat) node, f.nodes[i]? = some node →
    ∃ creator, f.history.created[node.serial]? = some (asPredicate node.obligation, creator)
  parent : ∀ (i : Nat) node, f.nodes[i]? = some node → node.hasParent = true →
    ∃ d rest parent, node.dependents = d :: rest ∧ d < i ∧ f.nodes[d]? = some parent ∧
      f.history.created[node.serial]? = some (asPredicate node.obligation, some parent.serial)
  found : ∀ (i d : Nat) node dependent, f.nodes[i]? = some node → f.nodes[d]? = some dependent →
    (d ∈ node.dependents ↔ (dependent.serial, node.serial) ∈ f.history.found)
  foundCreated : ∀ n m, (n, m) ∈ f.history.found →
    n < f.history.created.length ∧ m < f.history.created.length
  doneCache : ∀ p ∈ f.doneCache, ∃ n ∈ f.history.completed, ∃ creator children,
    f.history.created[n]? = some (p, creator) ∧ (n, children) ∈ f.history.changed ∧
      ∀ q ∈ children, q ∈ f.doneCache
  completed : ∀ n m, (n, m) ∈ f.history.found → n ∈ f.history.completed → m ∈ f.history.completed
  erroneous : ∀ n m, (n, m) ∈ f.history.found → m ∈ f.history.erroneous → n ∈ f.history.erroneous

section
omit [DecidableEq P]
variable {nodes nodes' : List (Node O)}

theorem SameShape.of_same (h : SameNodes nodes nodes') : SameShape nodes nodes' := by
  have key : ∀ l : List (Node O), l.map shape = (l.map core).map (shape (P := P)) := by
    intro l
    rw [map_map]
    rfl
  exact (key nodes').trans ((congrArg _ h).trans (key nodes).symm)

section
variable (h : SameShape nodes nodes')
include h

theorem SameShape.symm : SameShape nodes' nodes := Eq.symm h

theorem SameShape.length : nodes'.length = nodes.length := by
  have := congrArg List.length h
  rwa [length_map, length_map] at this

theorem SameShape.node {i : Nat} {node' : Node O} (hnode : nodes'[i]? = some node') :
    ∃ node, nodes[i]? = some node ∧ asPredicate node'.obligation = asPredicate node.obligation ∧
      node'.dependents = node.dependents ∧ node'.hasParent = node.hasParent ∧
        node'.serial = node.serial := by
  have hshape : (nodes'.map shape)[i]? = (nodes.map (shape (P := P)))[i]? := by rw [h]
  rw [getElem?_map, getElem?_map, hnode] at hshape
  obtain ⟨node, hi, heq⟩ := Option.map_eq_some_iff.1 hshape.symm
  simp only [shape, Prod.mk.injEq] at heq
  obtain ⟨hp, hdeps, hparent, hserial⟩ := heq
  exact ⟨node, hi, hp.symm, hdeps.symm, hparent.symm, hserial.symm⟩

theorem SameShape.serials : nodes'.map serial = nodes.map serial := by
  have key : ∀ l : List (Node O), l.map serial =
      (l.map (shape (P := P))).map fun shape => shape.2.2.2 := by
    intro l
    rw [map_map]
    rfl
  rw [key, key, h]

theorem SameShape.deps : deps nodes' = deps nodes := by
  have key : ∀ l : List (Node O), Obligation.deps l = fun i =>
      ((l.map (shape (P := P)))[i]?.map fun shape => shape.2.1).getD [] := by
    intro l
    funext i
    rw [getElem?_map, Option.map_map]
    rfl
  rw [key, key, h]

end

end

section
variable {f : ObligationForest O P} {nodes' : List (Node O)} {node node' : Node O} {i j : Nat}

section
variable (h : Consistent f)
include h

theorem Consistent.serial_inj (hi : f.nodes[i]? = some node)
    (hj : f.nodes[j]? = some node') (heq : node.serial = node'.serial) : i = j := by
  have hnodup : (f.nodes.map serial).Nodup := h.ascending.imp ne_of_lt
  refine (getElem?_inj ?_ hnodup).1 ?_
  · rw [length_map]
    exact lt_length hi
  · rw [getElem?_map, getElem?_map, hi, hj, Option.map_some, Option.map_some, heq]

theorem Consistent.serial_lt (hi : f.nodes[i]? = some node) :
    node.serial < f.history.created.length := by
  obtain ⟨creator, hcreated⟩ := h.created i node hi
  exact (List.getElem?_eq_some_iff.1 hcreated).1

theorem Consistent.cases {n : Nat} (hn : n < f.history.created.length) :
    (∃ (i : Nat) (node : Node O), f.nodes[i]? = some node ∧ node.serial = n) ∨
      n ∈ f.history.completed ∨ n ∈ f.history.erroneous := by
  have hmem := h.accounted.mem_iff.2 (mem_range.2 hn)
  rw [mem_append, mem_append, mem_map] at hmem
  refine hmem.imp_left fun ⟨node, hnode, hserial⟩ => ?_
  obtain ⟨i, hi⟩ := mem_iff_getElem?.1 hnode
  exact ⟨i, node, hi, hserial⟩

theorem Consistent.nodup :
    (f.nodes.map serial ++ (f.history.completed ++ f.history.erroneous)).Nodup :=
  h.accounted.nodup_iff.2 nodup_range

theorem Consistent.not_left (hi : f.nodes[i]? = some node) :
    node.serial ∉ f.history.completed ∧ node.serial ∉ f.history.erroneous := by
  have hdisjoint := disjoint_of_nodup_append h.nodup
  have hmem : node.serial ∈ f.nodes.map serial := mem_map_of_mem (mem_of_getElem? hi)
  exact ⟨fun h' => hdisjoint hmem (mem_append_left _ h'),
    fun h' => hdisjoint hmem (mem_append_right _ h')⟩

theorem Consistent.not_both {n : Nat} (hn : n ∈ f.history.completed) :
    n ∉ f.history.erroneous := fun h' =>
  disjoint_of_nodup_append (nodup_append.1 h.nodup).2.1 hn h'

theorem Consistent.parentsBelow : ParentsBelow f.nodes := by
  intro i node hi hparent
  obtain ⟨d, rest, -, hcons, hd, -⟩ := h.parent i node hi hparent
  exact ⟨d, rest, hcons, hd⟩

theorem Consistent.congr (hshape : SameShape f.nodes nodes')
    {changed : List (Nat × List P)} (hchanged : ∀ x ∈ f.history.changed, x ∈ changed)
    (failed : List Nat) :
    Consistent { f with
      nodes := nodes'
      history := { f.history with changed := changed, failed := failed } } where
  inRange := by
    intro i d hd
    rw [hshape.deps] at hd
    rw [hshape.length]
    exact h.inRange i d hd
  cached p i := by
    refine (h.cached p i).trans ⟨fun ⟨node, hi, hp⟩ => ?_, fun ⟨node, hi, hp⟩ => ?_⟩
    · obtain ⟨node', hi', hp', -⟩ := hshape.symm.node hi
      exact ⟨node', hi', hp'.symm.trans hp⟩
    · obtain ⟨node', hi', hp', -⟩ := hshape.node hi
      exact ⟨node', hi', hp'.symm.trans hp⟩
  ascending := by
    rw [hshape.serials]
    exact h.ascending
  accounted := by
    rw [hshape.serials]
    exact h.accounted
  created i node hi := by
    obtain ⟨node', hi', hp, -, -, hserial⟩ := hshape.node hi
    rw [hp, hserial]
    exact h.created i node' hi'
  parent i node hi hparent := by
    obtain ⟨node', hi', hp, hdeps, hparent', hserial⟩ := hshape.node hi
    obtain ⟨d, rest, parent, hcons, hd, hpd, hcreated⟩ := h.parent i node' hi' (hparent' ▸ hparent)
    obtain ⟨parent', hpd', -, -, -, hserial'⟩ := hshape.symm.node hpd
    refine ⟨d, rest, parent', hdeps.trans hcons, hd, hpd', ?_⟩
    rw [hp, hserial, ← hserial']
    exact hcreated
  found i d node dependent hi hd := by
    obtain ⟨node', hi', -, hdeps, -, hserial⟩ := hshape.node hi
    obtain ⟨dependent', hd', -, -, -, hserial'⟩ := hshape.node hd
    rw [hdeps, hserial, hserial']
    exact h.found i d node' dependent' hi' hd'
  foundCreated := h.foundCreated
  doneCache p hp := by
    obtain ⟨n, hn, creator, children, hcreated, hmem, hdone⟩ := h.doneCache p hp
    exact ⟨n, hn, creator, children, hcreated, hchanged _ hmem, hdone⟩
  completed := h.completed
  erroneous := h.erroneous

end

end

/-! ## Forests after the passes, and between calls -/

/-- A predicate that a node waits for: it is completed, or an obligation that the node depends
on. -/
def Awaits (f : ObligationForest O P) (i : Nat) (q : P) : Prop :=
  q ∈ f.doneCache ∨ ∃ (c : Nat) (child : Node O), f.nodes[c]? = some child ∧
    asPredicate child.obligation = q ∧ i ∈ child.dependents

/-- The processing of a node returned children, and the node waits for all of them. -/
def Justified (f : ObligationForest O P) (i : Nat) (node : Node O) : Prop :=
  ∃ children, (node.serial, children) ∈ f.history.changed ∧ ∀ q ∈ children, Awaits f i q

/-- A node waits because of a pending one. -/
def Below (nodes : List (Node O)) : Prop :=
  ∀ i, stateAt nodes i = some .waiting →
    ∃ p, stateAt nodes p = some .pending ∧ Reach (deps nodes) p i

/-- A forest whose nodes are marked for `compress`. -/
structure Settled (f : ObligationForest O P) : Prop where
  consistent : Consistent f
  closed : ∀ (i : Nat) node, f.nodes[i]? = some node → node.alive = true →
    ∀ d ∈ node.dependents, Stops f.nodes d
  error : ∀ i, IsError f.nodes i → ∀ d ∈ deps f.nodes i, IsError f.nodes d
  below : Below f.nodes
  notSuccess : ∀ node ∈ f.nodes, node.state ≠ .success
  justified : ∀ (i : Nat) node, f.nodes[i]? = some node →
    (node.state = .waiting ∨ node.state = .done) → Justified f i node
  failed : ∀ n ∈ f.history.failed, n ∈ f.history.erroneous ∨
    ∃ node ∈ f.nodes, node.serial = n ∧ node.state = .error

/-- A forest between calls. -/
structure Idle (f : ObligationForest O P) : Prop where
  consistent : Consistent f
  alive : ∀ node ∈ f.nodes, node.alive = true
  processed : Processed f.nodes
  below : Below f.nodes
  justified : ∀ (i : Nat) node, f.nodes[i]? = some node → node.state = .waiting → Justified f i node
  failed : ∀ n ∈ f.history.failed, n ∈ f.history.erroneous

/-! ## From the passes to the next call -/

section
variable {f f' : ObligationForest O P} {node node' dependent : Node O} {i j d : Nat}

omit [DecidableEq P] [ForestObligation O P] in
theorem stops_iff (h : f.nodes[i]? = some node) :
    Stops f.nodes i ↔ node.state = .waiting ∨ node.state = .error := by
  rw [Stops, stateAt_eq h, Option.some_inj, Option.some_inj]

theorem Settled.done_of_dependent (h : Settled f) (hi : f.nodes[i]? = some node)
    (hd : f.nodes[d]? = some dependent) (hmem : d ∈ node.dependents)
    (hdone : dependent.state = .done) : node.state = .done := by
  have hstops : ¬ Stops f.nodes d := by
    rw [stops_iff hd, hdone]
    rintro (h | h) <;> cases h
  cases hstate : node.state with
  | done => rfl
  | pending => exact absurd (h.closed i node hi (alive_iff.2 (.inl hstate)) d hmem) hstops
  | waiting => exact absurd (h.closed i node hi (alive_iff.2 (.inr hstate)) d hmem) hstops
  | success => exact absurd hstate (h.notSuccess node (mem_of_getElem? hi))
  | error =>
    have herror := h.error i (by rw [IsError, stateAt_eq hi, hstate]) d (deps_eq hi ▸ hmem)
    exact absurd (.inr herror) hstops

theorem Settled.awaits_done (h : Settled f) (hc : Compressed f f') {q : P}
    (hi : f.nodes[i]? = some node) (hdone : node.state = .done) (hq : Awaits f i q) :
    q ∈ f'.doneCache := by
  rcases hq with hq | ⟨c, child, hchild, hp, hmem⟩
  · exact (hc.doneCache q).2 (.inl hq)
  · exact (hc.doneCache q).2 (.inr ⟨child, mem_of_getElem? hchild,
      h.done_of_dependent hchild hi hmem hdone, hp⟩)

theorem Settled.reach (h : Settled f) (hc : Compressed f f') {p : Nat} {first : Node O}
    (hp : f.nodes[p]? = some first) (hfirst : first.alive = true)
    (hreach : Reach (deps f.nodes) p i) (herror : ¬ IsError f.nodes i) :
    Reach (deps f'.nodes) (rank alive f.nodes p) (rank alive f.nodes i) := by
  induction hreach using Relation.ReflTransGen.head_induction_on generalizing first with
  | refl => exact .refl
  | @head p q hpq hrest ih =>
    rw [deps_eq hp] at hpq
    obtain ⟨next, hnext⟩ := exists_node (h.consistent.inRange p q (deps_eq hp ▸ hpq))
    have halive : next.alive = true := by
      rcases (stops_iff hnext).1 (h.closed p first hp hfirst q hpq) with hstate | hstate
      · exact alive_iff.2 (.inr hstate)
      · -- Behind an error there are errors only.
        refine absurd ?_ herror
        have hq : IsError f.nodes q := by rw [IsError, stateAt_eq hnext, hstate]
        clear ih hpq herror
        induction hrest with
        | refl => exact hq
        | tail _ hstep ih => exact h.error _ ih _ hstep
    obtain ⟨first', hfirst', hkept⟩ := at_rank hc.nodes hp hfirst
    refine .head ?_ (ih hnext halive)
    rw [deps_eq hfirst']
    exact (hkept.dependents _).2 ⟨q, hpq, next, hnext, halive, rfl⟩

theorem Settled.below_compressed (h : Settled f) (hc : Compressed f f') : Below f'.nodes := by
  intro j hj
  obtain ⟨node', hnode', hstate⟩ := exists_of_stateAt hj
  obtain ⟨i, node, hi, halive, rfl, hkept⟩ := of_rank hc.nodes hnode'
  rw [hkept.same] at hstate
  have hwaiting : stateAt f.nodes i = some .waiting := (stateAt_eq hi).trans (congrArg some hstate)
  obtain ⟨p, hp, hreach⟩ := h.below i hwaiting
  obtain ⟨first, hfirst, hpending⟩ := exists_of_stateAt hp
  have hfirstAlive : first.alive = true := alive_iff.2 (.inl hpending)
  obtain ⟨first', hfirst', hkept'⟩ := at_rank hc.nodes hfirst hfirstAlive
  refine ⟨_, ?_, h.reach hc hfirst hfirstAlive hreach (by rw [IsError, hwaiting]; intro h; cases h)⟩
  rw [stateAt_eq hfirst', hkept'.same]
  exact congrArg some hpending

theorem Compressed.serials (hc : Compressed f f') :
    f'.nodes.map serial = (f.nodes.filter alive).map serial := by
  have key : ∀ {l l' : List (Node O)}, List.Forall₂ (Kept f.nodes) l l' →
      l'.map serial = l.map serial := by
    intro l l' h
    induction h with
    | nil => rfl
    | cons hkept _ ih => rw [map_cons, map_cons, ih, hkept.same]
  exact key hc.nodes

omit [DecidableEq P] [ForestObligation O P] in
theorem perm_states {nodes : List (Node O)} (h : ∀ node ∈ nodes, node.state ≠ .success) :
    (nodes.filter alive ++ (nodes.filter isDone ++ nodes.filter inError)).Perm nodes := by
  induction nodes with
  | nil => exact .refl _
  | cons node nodes ih =>
    obtain ⟨hnode, hnodes⟩ := forall_mem_cons.1 h
    have ih := ih hnodes
    cases hstate : node.state with
    | success => exact absurd hstate hnode
    | pending | waiting =>
      simp only [filter_cons, alive, isDone, inError, hstate]
      exact ih.cons node
    | done =>
      simp only [filter_cons, alive, isDone, inError, hstate]
      exact perm_middle.trans (ih.cons node)
    | error =>
      simp only [filter_cons, alive, isDone, inError, hstate]
      refine .trans ?_ (ih.cons node)
      rw [← append_assoc, ← append_assoc]
      exact perm_middle

section
variable (hc : Compressed f f')
include hc

theorem Settled.mem_completed (hi : f.nodes[i]? = some node)
    (hdone : node.state = .done) : node.serial ∈ f'.history.completed := by
  rw [hc.history]
  exact mem_append_right _ (mem_map_of_mem
    (mem_filter.2 ⟨mem_of_getElem? hi, isDone_iff.2 hdone⟩))

theorem Settled.mem_erroneous (hi : f.nodes[i]? = some node)
    (herror : node.state = .error) : node.serial ∈ f'.history.erroneous := by
  rw [hc.history]
  exact mem_append_right _ (mem_map_of_mem
    (mem_filter.2 ⟨mem_of_getElem? hi, inError_iff.2 herror⟩))

theorem Compressed.completed_cases {n : Nat}
    (hn : n ∈ f'.history.completed) : n ∈ f.history.completed ∨
      ∃ (i : Nat) (node : Node O), f.nodes[i]? = some node ∧ node.serial = n ∧ node.state = .done := by
  rw [hc.history] at hn
  refine (mem_append.1 hn).imp_right fun h => ?_
  obtain ⟨node, hnode, hserial⟩ := mem_map.1 h
  obtain ⟨hnode, hdone⟩ := mem_filter.1 hnode
  obtain ⟨i, hi⟩ := mem_iff_getElem?.1 hnode
  exact ⟨i, node, hi, hserial, isDone_iff.1 hdone⟩

theorem Compressed.erroneous_cases {n : Nat}
    (hn : n ∈ f'.history.erroneous) : n ∈ f.history.erroneous ∨
      ∃ (i : Nat) (node : Node O), f.nodes[i]? = some node ∧ node.serial = n ∧ node.state = .error := by
  rw [hc.history] at hn
  refine (mem_append.1 hn).imp_right fun h => ?_
  obtain ⟨node, hnode, hserial⟩ := mem_map.1 h
  obtain ⟨hnode, herror⟩ := mem_filter.1 hnode
  obtain ⟨i, hi⟩ := mem_iff_getElem?.1 hnode
  exact ⟨i, node, hi, hserial, inError_iff.1 herror⟩

end

theorem Settled.consistent_compressed (h : Settled f) (hc : Compressed f f') : Consistent f' where
  inRange := by
    intro j x hx
    obtain ⟨node', hnode', hx⟩ := exists_of_mem_deps hx
    obtain ⟨i, node, hi, halive, -, hkept⟩ := of_rank hc.nodes hnode'
    obtain ⟨d, -, dependent, hd, hdalive, rfl⟩ := (hkept.dependents x).1 hx
    obtain ⟨_, hd', -⟩ := at_rank hc.nodes hd hdalive
    exact lt_length hd'
  cached := hc.cached
  ascending := by
    rw [hc.serials]
    exact h.consistent.ascending.sublist (filter_sublist.map _)
  accounted := by
    have hperm := (perm_states h.notSuccess).map serial
    rw [map_append, map_append] at hperm
    rw [hc.serials, hc.history]
    refine .trans ?_ ((hperm.append_right _).trans h.consistent.accounted)
    refine perm_iff_count.2 fun n => ?_
    simp only [count_append]
    omega
  created i node hi := by
    obtain ⟨i, node', hi', -, -, hkept⟩ := of_rank hc.nodes hi
    rw [hkept.same, hc.history]
    exact h.consistent.created i node' hi'
  parent j node' hj hparent := by
    obtain ⟨i, node, hi, halive, rfl, hkept⟩ := of_rank hc.nodes hj
    obtain ⟨hp, hhead⟩ := hkept.parent hparent
    obtain ⟨d, rest, parent, hcons, hlt, hd, hcreated⟩ := h.consistent.parent i node hi hp
    obtain ⟨⟨_, hd', hdalive⟩, rest', hcons'⟩ := hhead d rest hcons
    obtain rfl := Option.mem_unique hd hd'
    obtain ⟨parent', hparent', hkept'⟩ := at_rank hc.nodes hd hdalive
    refine ⟨_, rest', parent', hcons', rank_lt_rank hd hdalive hlt, hparent', ?_⟩
    rw [hkept.same, hkept'.same, hc.history]
    exact hcreated
  found j x node' dependent' hj hx := by
    obtain ⟨i, node, hi, halive, rfl, hkept⟩ := of_rank hc.nodes hj
    obtain ⟨d, dependent, hd, hdalive, rfl, hkept'⟩ := of_rank hc.nodes hx
    have hfound := h.consistent.found i d node dependent hi hd
    rw [hkept.dependents, hkept.same, hkept'.same, hc.history]
    refine Iff.trans ⟨?_, fun hmem => ⟨d, hmem, dependent, hd, hdalive, rfl⟩⟩ hfound
    rintro ⟨d', hmem, dependent', hd', hdalive', hrank⟩
    rwa [← rank_inj hd' hdalive' hd hdalive hrank]
  foundCreated := by
    rw [hc.history]
    exact h.consistent.foundCreated
  doneCache p hp := by
    rcases (hc.doneCache p).1 hp with hp | ⟨node, hnode, hdone, rfl⟩
    · obtain ⟨n, hn, creator, children, hcreated, hmem, hchildren⟩ := h.consistent.doneCache p hp
      refine ⟨n, ?_, creator, children, ?_, ?_, fun q hq => (hc.doneCache q).2 (.inl (hchildren q hq))⟩
      all_goals rw [hc.history]
      exacts [mem_append_left _ hn, hcreated, hmem]
    · obtain ⟨i, hi⟩ := mem_iff_getElem?.1 hnode
      obtain ⟨creator, hcreated⟩ := h.consistent.created i node hi
      obtain ⟨children, hmem, hchildren⟩ := h.justified i node hi (.inr hdone)
      refine ⟨node.serial, Settled.mem_completed hc hi hdone, creator, children, ?_, ?_,
        fun q hq => h.awaits_done hc hi hdone (hchildren q hq)⟩
      all_goals rw [hc.history]
      exacts [hcreated, hmem]
  completed n m hfound hn := by
    rw [hc.history] at hfound
    rcases hc.completed_cases hn with hn | ⟨i, node, hi, rfl, hdone⟩
    · rw [hc.history]
      exact mem_append_left _ (h.consistent.completed n m hfound hn)
    · rcases h.consistent.cases (h.consistent.foundCreated _ _ hfound).2 with
        ⟨c, child, hchild, rfl⟩ | hm | hm
      · have hmem := (h.consistent.found c i child node hchild hi).2 hfound
        exact Settled.mem_completed hc hchild (h.done_of_dependent hchild hi hmem hdone)
      · rw [hc.history]
        exact mem_append_left _ hm
      · exact absurd (h.consistent.erroneous _ _ hfound hm) (h.consistent.not_left hi).2
  erroneous n m hfound hm := by
    rw [hc.history] at hfound
    rcases hc.erroneous_cases hm with hm | ⟨c, child, hchild, rfl, herror⟩
    · rw [hc.history]
      exact mem_append_left _ (h.consistent.erroneous n m hfound hm)
    · rcases h.consistent.cases (h.consistent.foundCreated _ _ hfound).1 with
        ⟨i, node, hi, rfl⟩ | hn | hn
      · have hmem := (h.consistent.found c i child node hchild hi).2 hfound
        have hierror := h.error c (by rw [IsError, stateAt_eq hchild, herror]) i (deps_eq hchild ▸ hmem)
        rw [IsError, stateAt_eq hi] at hierror
        exact Settled.mem_erroneous hc hi (Option.some.inj hierror)
      · exact absurd (h.consistent.completed _ _ hfound hn) (h.consistent.not_left hchild).1
      · rw [hc.history]
        exact mem_append_left _ hn

theorem Settled.idle (h : Settled f) (hc : Compressed f f') : Idle f' where
  consistent := h.consistent_compressed hc
  alive node' hnode' := by
    obtain ⟨j, hj⟩ := mem_iff_getElem?.1 hnode'
    obtain ⟨i, node, -, halive, -, hkept⟩ := of_rank hc.nodes hj
    rw [hkept.same]
    exact halive
  processed := by
    intro j x hx
    obtain ⟨node', hnode', hx⟩ := exists_of_mem_deps hx
    obtain ⟨i, node, hi, halive, -, hkept⟩ := of_rank hc.nodes hnode'
    obtain ⟨d, hmem, dependent, hd, hdalive, rfl⟩ := (hkept.dependents x).1 hx
    obtain ⟨dependent', hd', hkept'⟩ := at_rank hc.nodes hd hdalive
    have hstops := (stops_iff hd).1 (h.closed i node hi halive d hmem)
    right
    rw [stops_iff hd', hkept'.same]
    exact hstops
  below := h.below_compressed hc
  justified j node' hj hwaiting := by
    obtain ⟨i, node, hi, halive, rfl, hkept⟩ := of_rank hc.nodes hj
    rw [hkept.same] at hwaiting
    obtain ⟨children, hmem, hchildren⟩ := h.justified i node hi (.inl hwaiting)
    refine ⟨children, ?_, fun q hq => ?_⟩
    · rw [hkept.same, hc.history]
      exact hmem
    · rcases hchildren q hq with hq | ⟨c, child, hchild, rfl, hdep⟩
      · exact .inl ((hc.doneCache q).2 (.inl hq))
      · cases hstate : child.state with
        | success => exact absurd hstate (h.notSuccess child (mem_of_getElem? hchild))
        | done => exact .inl ((hc.doneCache _).2 (.inr ⟨child, mem_of_getElem? hchild, hstate, rfl⟩))
        | error =>
          have herror := h.error c (by rw [IsError, stateAt_eq hchild, hstate]) i
            (deps_eq hchild ▸ hdep)
          rw [IsError, stateAt_eq hi] at herror
          rw [Option.some.inj herror] at hwaiting
          cases hwaiting
        | pending | waiting =>
          have hcalive : child.alive = true := alive_iff.2 (by simp [hstate])
          obtain ⟨child', hchild', hkept'⟩ := at_rank hc.nodes hchild hcalive
          refine .inr ⟨_, child', hchild', by rw [hkept'.same], ?_⟩
          exact (hkept'.dependents _).2 ⟨i, hdep, node, hi, halive, rfl⟩
  failed n hn := by
    rw [hc.history] at hn
    rcases h.failed n hn with hn | ⟨node, hnode, rfl, herror⟩
    · rw [hc.history]
      exact mem_append_left _ hn
    · obtain ⟨i, hi⟩ := mem_iff_getElem?.1 hnode
      exact Settled.mem_erroneous hc hi herror

end

end Tortis.Obligation
