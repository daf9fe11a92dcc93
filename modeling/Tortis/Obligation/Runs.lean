import Tortis.Obligation.Process

/-!
# Runs of the forest

A run is a list of calls, each with its own processor, of a forest that starts as `new`. Whatever
the processors answer, every call returns, what is completed is done (`run_onlyDone`), and no
obligation is lost (`run_valid`).
-/

namespace Tortis.Obligation

open Outcome List Option ObligationForest

variable {O P : Type}

/-- A call of a function of the forest. -/
inductive Command (O : Type) : Type 1 where
  | registerObligation (o : O)
  | processObligations {E σ : Type} (processor : ObligationProcessor O E σ) (s : σ)
    (doCompleted : Bool)
  | toErrors {E : Type} (error : E)

/-- The processor of a call does not change predicates. -/
def Command.KeepsPredicates [ForestObligation O P] : Command O → Prop
  | .processObligations processor _ _ => processor.KeepsPredicates
  | .registerObligation _ | .toErrors _ => True

/-- Numbers are obligations that are told apart by themselves. -/
instance : ForestObligation Nat Nat := ⟨id⟩

/-- The successor of a number has the number as its only child, and five is an error. -/
def countdown : ObligationProcessor Nat String Unit where
  processObligation o s := (match o with
    | 0 => .changed []
    | 5 => .error "five"
    | n + 1 => .changed [n], o, s)
  processBackedge _ s := s

/-- Two obligations that are processed until one is completed and the other one has failed. -/
def countdownRun : List (Command Nat) :=
  [.registerObligation 1, .processObligations countdown () true, .registerObligation 6,
    .processObligations countdown () true, .processObligations countdown () true]

theorem countdown_keepsPredicates : ∀ c ∈ countdownRun, c.KeepsPredicates := by
  simp [countdownRun, Command.KeepsPredicates, ObligationProcessor.KeepsPredicates, countdown]

/-! ## Runs -/

section
variable [DecidableEq P] [ForestObligation O P]

namespace ObligationForest

/-- A call: the obligations that it reports as completed. -/
def step (f : ObligationForest O P) : Command O → Outcome (List O × ObligationForest O P)
  | .registerObligation o => do
    let f ← f.registerObligation o
    .ok ([], f)
  | .processObligations processor s doCompleted => do
    let (outcome, f) ← f.processObligations processor s doCompleted
    .ok (outcome.completed.getD [], f)
  | .toErrors error => do
    let (_, f) ← f.toErrors error
    .ok ([], f)

def run (f : ObligationForest O P) : List (Command O) → Outcome (List O × ObligationForest O P)
  | [] => .ok ([], f)
  | command :: commands => do
    let (completed, f) ← f.step command
    let (completed', f) ← f.run commands
    .ok (completed ++ completed', f)

/-- The forest that a call passes to `compress`, if it does. -/
def toCompress (f : ObligationForest O P) :
    Command O → Outcome (Option (ObligationForest O P))
  | .registerObligation _ => .ok none
  | .processObligations processor s _ => do
    let p ← f.processNodes processor s
    if p.stalled then .ok none
    else do
      let f ← p.forest.markNodes processor p.processor
      .ok (some f)
  | .toErrors error => do
    let (_, f) ← f.failNodes error
    .ok (some f)

end ObligationForest

/-! ## What runs keep -/

variable {f f' : ObligationForest O P}

theorem Idle.new : Idle (ObligationForest.new : ObligationForest O P) where
  consistent := {
    inRange := nofun
    cached _ _ := ⟨nofun, fun ⟨_, h, _⟩ => nomatch h⟩
    ascending := .nil
    accounted := .refl _
    created := nofun
    parent := nofun
    found := nofun
    foundCreated := nofun
    doneCache _ hp := nomatch hp
    completed := nofun
    erroneous := nofun }
  alive := nofun
  processed := nofun
  below := nofun
  justified := nofun
  failed := nofun

theorem registerObligation_nodes {o : O} (h : f.registerObligation o = .ok f') :
    f'.nodes = f.nodes ∨ ∃ node : Node O, node.state = .pending ∧ node.dependents = [] ∧
      f'.nodes = f.nodes ++ [node] := by
  rw [registerObligation, registerObligationAt] at h
  split at h
  · cases h
    exact .inl rfl
  split at h
  · next index _ =>
    cases hnode : nodeAt f.nodes index with
    | error e =>
      rw [hnode] at h
      cases h
    | ok node =>
      rw [hnode] at h
      cases h
      exact .inl rfl
  · cases h
    exact .inr ⟨_, rfl, rfl, rfl⟩

theorem Busy.idle (h : Busy f [] []) (halive : ∀ node ∈ f.nodes, node.alive = true)
    (hbelow : Below f.nodes) : Idle f where
  consistent := h.consistent
  alive := halive
  processed := h.processed
  below := hbelow
  justified i node hi hstate := h.justified i node hi not_mem_nil (.inr hstate)
  failed n hn := by
    refine (h.failed n hn).resolve_right fun ⟨node, hnode, _, herror⟩ => ?_
    rcases alive_iff.1 (halive node hnode) with hstate | hstate <;> rw [herror] at hstate <;>
      cases hstate

variable {nodes : List (Node O)} {node : Node O}

omit [DecidableEq P] [ForestObligation O P] in
theorem Below.concat (h : Below nodes)
    (hstate : node.state = .pending) : Below (nodes ++ [node]) := by
  have hkeep : ∀ {i : Nat} {node' : Node O}, nodes[i]? = some node' →
      (nodes ++ [node])[i]? = some node' := fun hi => getElem?_concat_eq_some.2 (.inl hi)
  intro i hi
  obtain ⟨node', hnode', hwaiting⟩ := exists_of_stateAt hi
  rcases getElem?_concat_eq_some.1 hnode' with hnode' | ⟨-, rfl⟩
  · obtain ⟨p, hp, hreach⟩ := h i ((stateAt_eq hnode').trans (congrArg some hwaiting))
    obtain ⟨first, hfirst, hpending⟩ := exists_of_stateAt hp
    refine ⟨p, (stateAt_eq (hkeep hfirst)).trans (congrArg some hpending), ?_⟩
    refine Relation.ReflTransGen.mono (fun x y hxy => ?_) _ _ hreach
    obtain ⟨next, hnext, hy⟩ := exists_of_mem_deps hxy
    rwa [deps_eq (hkeep hnext)]
  · rw [hstate] at hwaiting
    cases hwaiting

theorem Idle.registerObligation (h : Idle f) (o : O) :
    ∃ f', f.registerObligation o = .ok f' ∧ Idle f' ∧ Later f f' ∧ (asPredicate o ∈ f'.doneCache ∨
        ∃ node ∈ f'.nodes, asPredicate node.obligation = asPredicate o) := by
  obtain ⟨f', hrun, hbusy, hextends, hthere⟩ := h.busy.registerObligation o
  refine ⟨f', hrun, ?_, hextends.toLater, hthere⟩
  rcases registerObligation_nodes hrun with hnodes | ⟨node, hstate, -, hnodes⟩
  · exact hbusy.idle (hnodes ▸ h.alive) (hnodes ▸ h.below)
  · refine hbusy.idle (fun node' hnode' => ?_) (hnodes ▸ h.below.concat hstate)
    rw [hnodes] at hnode'
    rcases mem_append.1 hnode' with hnode' | hnode'
    · exact h.alive node' hnode'
    · rw [mem_singleton.1 hnode']
      exact alive_iff.2 (.inl hstate)

variable {command : Command O}

theorem Idle.step (h : Idle f) (hkeeps : command.KeepsPredicates) :
    ∃ completed f', f.step command = .ok (completed, f') ∧ Idle f' ∧ Later f f' ∧
      Reports f f' completed := by
  cases command with
  | registerObligation o =>
    obtain ⟨f', hrun, hidle, hlater, -⟩ := h.registerObligation o
    refine ⟨[], f', ?_, hidle, hlater, hlater.reports_nil⟩
    rw [ObligationForest.step, hrun]
    rfl
  | processObligations processor s doCompleted =>
    obtain ⟨outcome, f', hrun, hidle, hlater, hreports⟩ := h.processObligations hkeeps s doCompleted
    refine ⟨_, f', ?_, hidle, hlater, hreports⟩
    rw [ObligationForest.step, hrun]
    rfl
  | toErrors error =>
    obtain ⟨errors, f', hrun, hidle, hlater, -⟩ := h.toErrors error
    refine ⟨[], f', ?_, hidle, hlater, hlater.reports_nil⟩
    rw [ObligationForest.step, hrun]
    rfl

theorem Idle.run {commands : List (Command O)} (hkeeps : ∀ c ∈ commands, c.KeepsPredicates) :
    ∀ {f : ObligationForest O P}, Idle f → ∃ completed f', f.run commands = .ok (completed, f') ∧
      Idle f' ∧ Later f f' ∧ Reports f f' completed := by
  induction commands with
  | nil => exact fun {f} h => ⟨[], f, rfl, h, .refl f, (Later.refl f).reports_nil⟩
  | cons command commands ih =>
    intro f h
    obtain ⟨hcommand, hcommands⟩ := forall_mem_cons.1 hkeeps
    obtain ⟨completed, f1, hstep, hidle1, hlater1, hreports1⟩ := h.step hcommand
    obtain ⟨completed', f', hrun, hidle, hlater, hreports⟩ := ih hcommands hidle1
    refine ⟨completed ++ completed', f', ?_, hidle, hlater1.trans hlater,
      hreports1.append hreports hlater⟩
    rw [ObligationForest.run, hstep, ok_bind]
    dsimp only
    rw [hrun]
    rfl

/-! ## What is completed -/

/-- `m` was found to be a transitive subobligation of `n`. -/
abbrev Subobligation (f : ObligationForest O P) : Nat → Nat → Prop :=
  Relation.TransGen fun n m => (n, m) ∈ f.history.found

structure OnlyDone (f : ObligationForest O P) (completed : List O) : Prop where
  /-- A predicate in `done_cache` is the one of a node whose processing returned `Changed`, with
  children that are in `done_cache`, too. -/
  doneCache : ∀ p ∈ f.doneCache, ∃ n ∈ f.history.completed, ∃ creator children,
    f.history.created[n]? = some (p, creator) ∧ (n, children) ∈ f.history.changed ∧
      ∀ q ∈ children, q ∈ f.doneCache
  /-- What is reported are obligations of completed nodes, each of them once, and they are in
  `done_cache`. -/
  reported : ∃ ns, ns.Sublist f.history.completed ∧ List.Forall₂ (IsDone f) completed ns
  /-- A completed node has not failed, and neither has a subobligation of it. -/
  notFailed : ∀ n ∈ f.history.completed, ∀ m, n = m ∨ Subobligation f n m →
    m ∉ f.history.failed ∧ m ∉ f.history.erroneous
  states : ∀ node ∈ f.nodes, node.state = .pending ∨ node.state = .waiting
  /-- A node that waits has a pending subobligation. -/
  waiting : ∀ node ∈ f.nodes, node.state = .waiting → ∃ first ∈ f.nodes, first.state = .pending ∧
    Subobligation f node.serial first.serial

theorem Consistent.subobligation (h : Consistent f) {p i : Nat} {first node : Node O}
    (hp : f.nodes[p]? = some first) (hi : f.nodes[i]? = some node)
    (hreach : Reach (deps f.nodes) p i) : p = i ∨ Subobligation f node.serial first.serial := by
  induction hreach generalizing node with
  | refl => exact .inl rfl
  | @tail j i hpj hji ih =>
    obtain ⟨next, hnext, hmem⟩ := exists_of_mem_deps hji
    have hfound := (h.found j i next node hnext hi).1 hmem
    right
    rcases ih hnext with rfl | hsub
    · obtain rfl := mem_unique hnext hp
      exact .single hfound
    · exact .head hfound hsub

theorem Idle.onlyDone (h : Idle f) {completed : List O}
    (hreported : Reports ObligationForest.new f completed) : OnlyDone f completed where
  doneCache := h.consistent.doneCache
  reported := by
    obtain ⟨left, ns, hleft, hns, hdone⟩ := hreported
    exact ⟨ns, hleft ▸ hns, hdone⟩
  notFailed n hn m hm := by
    have hcompleted : m ∈ f.history.completed := by
      rcases hm with rfl | hm
      · exact hn
      · induction hm with
        | single hnm => exact h.consistent.completed _ _ hnm hn
        | tail _ hstep ih => exact h.consistent.completed _ _ hstep ih
    have hnot := h.consistent.not_both hcompleted
    exact ⟨fun hfailed => hnot (h.failed m hfailed), hnot⟩
  states node hnode := alive_iff.1 (h.alive node hnode)
  waiting node hnode hwaiting := by
    obtain ⟨i, hi⟩ := mem_iff_getElem?.1 hnode
    obtain ⟨p, hp, hreach⟩ := h.below i ((stateAt_eq hi).trans (congrArg some hwaiting))
    obtain ⟨first, hfirst, hpending⟩ := exists_of_stateAt hp
    refine ⟨first, mem_of_getElem? hfirst, hpending, ?_⟩
    refine (h.consistent.subobligation hfirst hi hreach).resolve_left ?_
    rintro rfl
    obtain rfl := mem_unique hi hfirst
    rw [hwaiting] at hpending
    cases hpending

/-- After any calls only what is done is completed. -/
theorem run_onlyDone (commands : List (Command O)) (h : ∀ c ∈ commands, c.KeepsPredicates) :
    ∃ completed f, (ObligationForest.new : ObligationForest O P).run commands =
      .ok (completed, f) ∧ OnlyDone f completed := by
  obtain ⟨completed, f, hrun, hidle, -, hreports⟩ := Idle.run h .new
  exact ⟨completed, f, hrun, hidle.onlyDone hreports⟩

theorem run_onlyDone_countdown : ∃ completed f,
    (ObligationForest.new : ObligationForest Nat Nat).run countdownRun = .ok (completed, f) ∧
      OnlyDone f completed :=
  run_onlyDone countdownRun countdown_keepsPredicates

/-! ## What is in the forest -/

def dependentSerials (nodes : List (Node O)) (node : Node O) : List Nat :=
  node.dependents.filterMap fun d => nodes[d]?.map Node.serial

/-- `compress` of `f` keeps the nodes that are pending or waiting, in their order, and each of them
has the dependents that it had, as far as these stay. -/
structure Survives (f f' : ObligationForest O P) : Prop where
  order : f'.nodes.map Node.serial = (f.nodes.filter Node.alive).map Node.serial
  same : ∀ node ∈ f.nodes, ∀ node' ∈ f'.nodes, node'.serial = node.serial →
    node'.obligation = node.obligation ∧ node'.state = node.state
  dependents : ∀ node ∈ f.nodes, ∀ node' ∈ f'.nodes, node'.serial = node.serial →
    ∀ n, n ∈ dependentSerials f'.nodes node' ↔
      n ∈ dependentSerials f.nodes node ∧ n ∈ f'.nodes.map Node.serial

/-- A forest has all that was registered, under valid indices. -/
structure Valid (f : ObligationForest O P) : Prop where
  inRange : ∀ node ∈ f.nodes, ∀ d ∈ node.dependents, d < f.nodes.length
  activeCache : ∀ p i, f.activeCache.get p = some i ↔
    ∃ node, f.nodes[i]? = some node ∧ asPredicate node.obligation = p
  predicates : (f.nodes.map fun node => asPredicate (P := P) node.obligation).Nodup
  /-- The first dependent of a node that has a parent is the node whose processing created it. -/
  parent : ∀ node ∈ f.nodes, node.hasParent = true → ∃ d rest parent,
    node.dependents = d :: rest ∧ f.nodes[d]? = some parent ∧
      f.history.created[node.serial]? = some (asPredicate node.obligation, some parent.serial)
  dependents : ∀ node ∈ f.nodes, ∀ dependent ∈ f.nodes,
    dependent.serial ∈ dependentSerials f.nodes node ↔
      (dependent.serial, node.serial) ∈ f.history.found
  /-- Every node is in the forest, or has left it once, as completed or as erroneous. -/
  accounted : (f.nodes.map Node.serial ++ (f.history.completed ++ f.history.erroneous)).Perm
    (range f.history.created.length)
  /-- An obligation that is registered is completed or in the forest. -/
  registered : ∀ o : O, ∃ f', f.registerObligation o = .ok f' ∧ (asPredicate o ∈ f'.doneCache ∨
    ∃ node ∈ f'.nodes, asPredicate node.obligation = asPredicate o)
  /-- Whatever is called next, `compress` keeps the nodes that it is to keep. -/
  compressed : ∀ command : Command O, command.KeepsPredicates →
    ∃ marked, f.toCompress command = .ok marked ∧ ∀ f₁ ∈ marked, ∀ doCompleted,
      ∃ completed f', f₁.compress doCompleted = .ok (completed, f') ∧ Survives f₁ f'

omit [DecidableEq P] [ForestObligation O P] in
theorem mem_dependentSerials {n : Nat} : n ∈ dependentSerials nodes node ↔
      ∃ d ∈ node.dependents, ∃ dependent, nodes[d]? = some dependent ∧ dependent.serial = n := by
  simp only [dependentSerials, mem_filterMap, map_eq_some_iff]

theorem Settled.survives (h : Settled f) (hc : Compressed f f') : Survives f f' := by
  -- A node that stays is the one with the same serial.
  have hkept : ∀ {node node' : Node O}, node ∈ f.nodes → node' ∈ f'.nodes →
      node'.serial = node.serial → Kept f.nodes node node' := by
    intro node node' hnode hnode' hserial
    obtain ⟨i, hi⟩ := mem_iff_getElem?.1 hnode
    obtain ⟨j, hj⟩ := mem_iff_getElem?.1 hnode'
    obtain ⟨i', node0, hi', -, -, hkept⟩ := Kept.of_rank hc.nodes hj
    rw [hkept.same] at hserial
    obtain rfl := h.consistent.serial_inj hi' hi hserial
    obtain rfl := mem_unique hi hi'
    exact hkept
  refine ⟨hc.serials, fun node hnode node' hnode' hserial => ?_,
    fun node hnode node' hnode' hserial n => ?_⟩
  · rw [(hkept hnode hnode' hserial).same]
    exact ⟨rfl, rfl⟩
  · rw [mem_dependentSerials, mem_dependentSerials, hc.serials]
    constructor
    · rintro ⟨x, hx, dependent', hdependent', rfl⟩
      obtain ⟨d, hd, dependent, hdependent, halive, rfl⟩ :=
        ((hkept hnode hnode' hserial).dependents x).1 hx
      obtain ⟨dependent1, hdependent1, hsame⟩ := Kept.at_rank hc.nodes hdependent halive
      obtain rfl := mem_unique hdependent1 hdependent'
      have hserial' : dependent1.serial = dependent.serial := by rw [hsame.same]
      rw [hserial']
      exact ⟨⟨d, hd, dependent, hdependent, rfl⟩, mem_map_of_mem
        (mem_filter.2 ⟨mem_of_getElem? hdependent, halive⟩)⟩
    · rintro ⟨⟨d, hd, dependent, hdependent, rfl⟩, hstays⟩
      obtain ⟨dependent0, hmem, hsame⟩ := mem_map.1 hstays
      obtain ⟨hmem, halive⟩ := mem_filter.1 hmem
      obtain ⟨d0, hd0⟩ := mem_iff_getElem?.1 hmem
      obtain rfl := h.consistent.serial_inj hd0 hdependent hsame
      obtain rfl := mem_unique hdependent hd0
      obtain ⟨dependent', hdependent', hkept'⟩ := Kept.at_rank hc.nodes hdependent halive
      refine ⟨_, ((hkept hnode hnode' hserial).dependents _).2
        ⟨d0, hd, dependent, hdependent, halive, rfl⟩, dependent', hdependent', ?_⟩
      rw [hkept'.same]

theorem Idle.toCompress (h : Idle f) (hkeeps : command.KeepsPredicates) :
    ∃ marked, f.toCompress command = .ok marked ∧ ∀ f1 ∈ marked, Settled f1 := by
  cases command with
  | registerObligation o => exact ⟨none, rfl, nofun⟩
  | processObligations processor s doCompleted =>
    obtain ⟨p, hrun, hpassed⟩ := h.processNodes hkeeps s
    rw [ObligationForest.toCompress, hrun, ok_bind]
    split
    · exact ⟨none, rfl, nofun⟩
    · obtain ⟨f1, hmark, hsettled, -⟩ := hpassed.busy.markNodes processor p.processor
      rw [hmark, ok_bind]
      exact ⟨_, rfl, fun f2 hf2 => some.inj hf2 ▸ hsettled⟩
  | toErrors error =>
    obtain ⟨⟨errors, f1⟩, hrun, hfailing⟩ := h.failNodes error
    rw [ObligationForest.toCompress, hrun, ok_bind]
    exact ⟨_, rfl, fun f2 hf2 => some.inj hf2 ▸ hfailing.settled h⟩

theorem Idle.valid (h : Idle f) : Valid f where
  inRange node hnode d hd := by
    obtain ⟨i, hi⟩ := mem_iff_getElem?.1 hnode
    exact h.consistent.inRange i d (deps_eq hi ▸ hd)
  activeCache := h.consistent.cached
  predicates := by
    refine nodup_iff_getElem?_ne_getElem?.2 fun i j hij hj heq => ?_
    rw [length_map] at hj
    obtain ⟨node, hi⟩ := exists_node (lt_trans hij hj)
    obtain ⟨node', hj⟩ := exists_node hj
    rw [getElem?_map, getElem?_map, hi, hj, map_some, map_some, some_inj] at heq
    have hcached := (h.consistent.cached _ _).2 ⟨node, hi, heq⟩
    rw [(h.consistent.cached _ _).2 ⟨node', hj, rfl⟩] at hcached
    exact ne_of_lt hij (some.inj hcached).symm
  parent node hnode hparent := by
    obtain ⟨i, hi⟩ := mem_iff_getElem?.1 hnode
    obtain ⟨d, rest, parent, hcons, -, hd, hcreated⟩ := h.consistent.parent i node hi hparent
    exact ⟨d, rest, parent, hcons, hd, hcreated⟩
  dependents node hnode dependent hdependent := by
    obtain ⟨i, hi⟩ := mem_iff_getElem?.1 hnode
    obtain ⟨d, hd⟩ := mem_iff_getElem?.1 hdependent
    rw [← h.consistent.found i d node dependent hi hd, mem_dependentSerials]
    refine ⟨fun ⟨d', hmem, dependent', hd', hserial⟩ => ?_, fun hmem => ⟨d, hmem, dependent, hd, rfl⟩⟩
    rwa [← h.consistent.serial_inj hd' hd hserial]
  accounted := h.consistent.accounted
  registered o := by
    obtain ⟨f', hrun, -, -, hthere⟩ := h.registerObligation o
    exact ⟨f', hrun, hthere⟩
  compressed command hkeeps := by
    obtain ⟨marked, hrun, hsettled⟩ := h.toCompress hkeeps
    refine ⟨marked, hrun, fun f1 hf1 doCompleted => ?_⟩
    have hs := hsettled f1 hf1
    obtain ⟨f', hcompress, hc⟩ := compress_spec hs.consistent.inRange hs.consistent.cached
      hs.notSuccess doCompleted
    exact ⟨_, f', hcompress, hs.survives hc⟩

/-- Every call returns, and no obligation is lost. -/
theorem run_valid (commands : List (Command O)) (h : ∀ c ∈ commands, c.KeepsPredicates) :
    ∃ completed f, (ObligationForest.new : ObligationForest O P).run commands =
      .ok (completed, f) ∧ Valid f := by
  obtain ⟨completed, f, hrun, hidle, -⟩ := Idle.run h .new
  exact ⟨completed, f, hrun, hidle.valid⟩

theorem run_valid_countdown : ∃ completed f,
    (ObligationForest.new : ObligationForest Nat Nat).run countdownRun = .ok (completed, f) ∧
      Valid f :=
  run_valid countdownRun countdown_keepsPredicates

end

end Tortis.Obligation
