import Tortis.Lib.List
import Tortis.Lib.Rank
import Tortis.Obligation.Passes

/-!
# Compression

`compress` takes the nodes that are done or in error out of the forest. The others keep their order,
so a node moves to the number of nodes before it that stay (`rank`), and its dependents are the
places where the dependents that stay have moved to (`Kept`). `compress_spec` says so about all of
it: the nodes, the caches and what is reported.
-/

namespace Tortis.Obligation

open Outcome List Node ObligationForest FxHashMap

variable {O P E : Type} {nodes : List (Node O)} {node node' : Node O}

def Node.alive (node : Node O) : Bool := node.state = .pending || node.state = .waiting

def Node.isDone (node : Node O) : Bool := node.state = .done

def Node.inError (node : Node O) : Bool := node.state = .error

theorem alive_iff : node.alive = true ↔ node.state = .pending ∨ node.state = .waiting := by
  rw [alive, Bool.or_eq_true, decide_eq_true_eq, decide_eq_true_eq]

theorem isDone_iff : node.isDone = true ↔ node.state = .done := decide_eq_true_iff

theorem inError_iff : node.inError = true ↔ node.state = .error := decide_eq_true_iff

/-! ## Rewriting dependents -/

theorem swapRemove_append (l : List Nat) (a : Nat) (l' : List Nat) :
    ∃ rest, swapRemove (l ++ a :: l') l.length = .ok (l ++ rest) ∧ rest.Perm l' := by
  have hlt : l.length < (l ++ a :: l').length := by simp
  rw [swapRemove, assert, if_pos (decide_eq_true hlt), ok_bind]
  rcases eq_nil_or_concat l' with rfl | ⟨m, b, rfl⟩
  · refine ⟨[], ?_, .refl _⟩
    rw [getLast?_append, getLast?_singleton, Option.some_or, unwrap_some, ok_bind,
      set_append_right _ _ le_rfl, Nat.sub_self, set_cons_zero, dropLast_concat, append_nil]
  · refine ⟨b :: m, ?_, ?_⟩
    · rw [concat_eq_append, ← cons_append, ← append_assoc, getLast?_append, getLast?_singleton,
        Option.some_or, unwrap_some, ok_bind, append_assoc, cons_append,
        set_append_right _ _ le_rfl, Nat.sub_self, set_cons_zero, ← cons_append, ← append_assoc,
        dropLast_concat]
    · rw [concat_eq_append]
      exact (perm_append_singleton b m).symm

/-- What the dependents `l` of a node become, after those in `done`. -/
structure Rewrites (rewrites : List Nat) (r : Nat → Nat) (done l : List Nat) (hasParent : Bool)
    (kept : List Nat) (hasParent' : Bool) : Prop where
  mem : ∀ x, x ∈ kept ↔ ∃ d ∈ l, r d < rewrites.length ∧ r d = x
  later : done ≠ [] → hasParent' = hasParent
  first : done = [] → hasParent' = true → hasParent = true ∧
    ∀ d rest, l = d :: rest → r d < rewrites.length ∧ ∃ rest', kept = r d :: rest'

theorem rewriteDependents_spec {rewrites : List Nat} {r : Nat → Nat} :
    ∀ {n : Nat} (done l : List Nat) {node : Node O}, node.dependents = done ++ l →
      (∀ d ∈ l, rewrites[d]? = some (r d)) → l.length < n →
      ∃ kept hasParent, rewriteDependents rewrites n done.length node =
          .ok { node with dependents := done ++ kept, hasParent := hasParent } ∧
        Rewrites rewrites r done l node.hasParent kept hasParent
  | 0, _, _, _, _, _, hn => absurd hn (Nat.not_lt_zero _)
  | n + 1, done, [], node, hnode, _, _ => by
    refine ⟨[], node.hasParent, ?_, fun x => by simp, fun _ => rfl, fun _ h => ⟨h, nofun⟩⟩
    rw [rewriteDependents, if_neg (by rw [hnode, append_nil]; exact lt_irrefl _), ← hnode]
  | n + 1, done, d :: l, node, hnode, hr, hn => by
    have hlen : done.length < node.dependents.length := by rw [hnode]; simp
    have hget : node.dependents[done.length]? = some d := by rw [hnode]; simp
    have hrest : ∀ d ∈ l, rewrites[d]? = some (r d) := fun d hd => hr d (mem_cons_of_mem _ hd)
    have hshort : l.length < n := Nat.lt_of_succ_lt_succ hn
    rw [rewriteDependents, if_pos hlen, hget, expect_some, ok_bind,
      hr d mem_cons_self, expect_some, ok_bind]
    split
    · next hdead =>
      obtain ⟨l', hswap, hperm⟩ := swapRemove_append done d l
      rw [hnode, hswap, ok_bind]
      obtain ⟨kept, hasParent, hrun, hmem, hlater, hfirst⟩ := @rewriteDependents_spec rewrites r n
        done l' { node with
          dependents := done ++ l'
          hasParent := if done.length = 0 ∧ node.hasParent = true then false else node.hasParent }
        rfl (fun d hd => hrest d (hperm.mem_iff.1 hd)) (hperm.length_eq ▸ hshort)
      refine ⟨kept, hasParent, hrun, fun x => ?_, fun hdone => ?_, fun hdone hparent => ?_⟩
      · rw [hmem]
        constructor
        · rintro ⟨d', hd', hx⟩
          exact ⟨d', mem_cons_of_mem _ (hperm.mem_iff.1 hd'), hx⟩
        · rintro ⟨d', hd', hlt, hx⟩
          rcases mem_cons.1 hd' with rfl | hd'
          · exact absurd hlt (Nat.not_lt.2 hdead)
          · exact ⟨d', hperm.mem_iff.2 hd', hlt, hx⟩
      · rw [hlater hdone]
        exact if_neg fun h => hdone (length_eq_zero_iff.1 h.1)
      · -- The parent itself is removed.
        have := (hfirst hdone hparent).1
        rw [hdone] at this
        cases hp : node.hasParent <;> simp [hp] at this
    · next halive =>
      have hset : (done ++ d :: l).set done.length (r d) = (done ++ [r d]) ++ l := by
        rw [set_append_right _ _ le_rfl, Nat.sub_self, set_cons_zero, append_assoc]
        rfl
      obtain ⟨kept, hasParent, hrun, hmem, hlater, -⟩ := @rewriteDependents_spec rewrites r n
        (done ++ [r d]) l { node with dependents := (done ++ [r d]) ++ l } rfl hrest hshort
      rw [length_append, length_singleton] at hrun
      have hlater := hlater (append_ne_nil_of_right_ne_nil _ (cons_ne_nil _ _))
      rw [hnode, hset, hrun]
      refine ⟨r d :: kept, hasParent, by simp, fun x => ?_, fun _ => hlater, fun _ hparent => ?_⟩
      · rw [mem_cons, hmem]
        constructor
        · rintro (rfl | ⟨d', hd', hx⟩)
          · exact ⟨d, mem_cons_self, Nat.lt_of_not_le halive, rfl⟩
          · exact ⟨d', mem_cons_of_mem _ hd', hx⟩
        · rintro ⟨d', hd', hlt, rfl⟩
          rcases mem_cons.1 hd' with rfl | hd'
          · exact .inl rfl
          · exact .inr ⟨d', hd', hlt, rfl⟩
      · refine ⟨hlater ▸ hparent, fun d' rest hcons => ?_⟩
        obtain ⟨rfl, -⟩ := List.cons.inj hcons
        exact ⟨Nat.lt_of_not_le halive, kept, rfl⟩

section
variable [DecidableEq P] {rewrites : List Nat} {r : Nat → Nat}

theorem retain_spec {cache : FxHashMap P Nat}
    (hr : ∀ p i, cache.get p = some i → rewrites[i]? = some (r i)) :
    ∃ cache', (cache.iter .entries).foldlM (retainEntry rewrites) ∅ = .ok cache' ∧
      ∀ p j, cache'.get p = some j ↔ ∃ i, cache.get p = some i ∧ r i < rewrites.length ∧ r i = j := by
  have hrun := @foldlM_start _ _ (retainEntry rewrites)
    (fun done cache' => ∀ p j, cache'.get p = some j ↔
      ∃ i, (p, i) ∈ done ∧ r i < rewrites.length ∧ r i = j)
    (cache.iter .entries) ∅ (fun p j => by simp) fun pre e post cache1 hl hcache1 => by
      obtain ⟨q, k⟩ := e
      have hmem : ∀ {p i}, (p, i) ∈ pre ++ [(q, k)] → cache.get p = some i := fun h =>
        mem_iter.1 (by
          rw [hl, ← singleton_append, ← append_assoc]
          exact mem_append_left _ h)
      have hqk : (q, k) ∈ pre ++ [(q, k)] := mem_append_right _ mem_cons_self
      rw [retainEntry, hr q k (hmem hqk), expect_some, ok_bind]
      split
      · next hdead =>
        refine ⟨cache1, rfl, fun p j => (hcache1 p j).trans (exists_congr fun i => ?_)⟩
        rw [mem_append, mem_singleton, Prod.mk.injEq]
        constructor
        · exact fun h => ⟨.inl h.1, h.2⟩
        · rintro ⟨h | ⟨rfl, rfl⟩, hlt, hj⟩
          · exact ⟨h, hlt, hj⟩
          · exact absurd hlt (Nat.not_lt.2 hdead)
      · next halive =>
        refine ⟨_, rfl, fun p j => ?_⟩
        rw [get_insert]
        split
        · next hp =>
          subst hp
          constructor
          · rintro ⟨⟩
            exact ⟨k, hqk, Nat.lt_of_not_le halive, rfl⟩
          · rintro ⟨i, hi, -, rfl⟩
            rw [Option.some.inj ((hmem hi).symm.trans (hmem hqk))]
        · next hp =>
          refine (hcache1 p j).trans (exists_congr fun i => and_congr_left fun _ => ?_)
          rw [mem_append, mem_singleton, Prod.mk.injEq]
          exact (or_iff_left fun h => hp h.1).symm
  obtain ⟨cache', hrun, hcache'⟩ := hrun
  exact ⟨cache', hrun, fun p j => (hcache' p j).trans
    (exists_congr fun i => and_congr_left fun _ => mem_iter)⟩

/-- A node after `apply_rewrites`. -/
def Rewritten (rewrites : List Nat) (r : Nat → Nat) (node node' : Node O) : Prop :=
  ∃ kept hasParent, node' = { node with dependents := kept, hasParent := hasParent } ∧
    Rewrites rewrites r [] node.dependents node.hasParent kept hasParent

theorem applyRewrites_spec {f : ObligationForest O P}
    (hnodes : ∀ node ∈ f.nodes, ∀ d ∈ node.dependents, rewrites[d]? = some (r d))
    (hcache : ∀ p i, f.activeCache.get p = some i → rewrites[i]? = some (r i)) :
    ∃ nodes' cache', f.applyRewrites rewrites =
        .ok { f with nodes := nodes', activeCache := cache' } ∧
      List.Forall₂ (Rewritten rewrites r) f.nodes nodes' ∧
        ∀ p j, cache'.get p = some j ↔
          ∃ i, f.activeCache.get p = some i ∧ r i < rewrites.length ∧ r i = j := by
  obtain ⟨nodes', hrun, hnodes'⟩ := @mapM_spec _ _
    (fun node : Node O => rewriteDependents rewrites (node.dependents.length + 1) 0 node)
    (Rewritten rewrites r) f.nodes fun node hnode => by
      obtain ⟨kept, hasParent, hrun, hrewrites⟩ := rewriteDependents_spec [] node.dependents rfl
        (hnodes node hnode) (Nat.lt_succ_self _)
      exact ⟨_, hrun, kept, hasParent, rfl, hrewrites⟩
  obtain ⟨cache', hcrun, hcache'⟩ := retain_spec hcache
  refine ⟨nodes', cache', ?_, hnodes', hcache'⟩
  rw [applyRewrites, hrun, ok_bind, hcrun]
  rfl

end

/-! ## The loop of `compress` -/

section
variable [DecidableEq P] [ForestObligation O P]

/-- `active_cache` has the nodes under their predicates. -/
def Cached (f : ObligationForest O P) : Prop :=
  ∀ p i, f.activeCache.get p = some i ↔ ∃ node, f.nodes[i]? = some node ∧ asPredicate node.obligation = p

/-- What the loop of `compress` has done before its iteration `k`. -/
structure Swept (f : ObligationForest O P) (doCompleted : Bool) (k : Nat) (c : Compression O P) :
    Prop where
  length : c.forest.nodes.length = f.nodes.length
  kept : c.forest.nodes.take (rank alive f.nodes k) = (f.nodes.take k).filter alive
  rest : ∀ i, k ≤ i → c.forest.nodes[i]? = f.nodes[i]?
  rewritesLen : c.nodeRewrites.length = f.nodes.length
  rewritten : ∀ i < k, ∀ node, f.nodes[i]? = some node → c.nodeRewrites[i]? =
    some (if node.alive then rank alive f.nodes i else f.nodes.length)
  unchanged : ∀ i, k ≤ i → i < f.nodes.length → c.nodeRewrites[i]? = some i
  dead : c.deadNodes + rank alive f.nodes k = k
  removed : c.removedDoneObligations = if doCompleted then
    ((f.nodes.take k).filter isDone).map obligation else []
  doneCache : ∀ p, p ∈ c.forest.doneCache ↔ p ∈ f.doneCache ∨
    ∃ node ∈ (f.nodes.take k).filter isDone, asPredicate node.obligation = p
  activeCache : ∀ p i, c.forest.activeCache.get p = some i ↔ ∃ node, f.nodes[i]? = some node ∧
    asPredicate node.obligation = p ∧ (i < k → node.alive = true)
  history : c.forest.history = { f.history with
    completed := f.history.completed ++ ((f.nodes.take k).filter isDone).map serial
    erroneous := f.history.erroneous ++ ((f.nodes.take k).filter inError).map serial }

variable {f : ObligationForest O P} {c : Compression O P} {doCompleted : Bool} {k : Nat}

theorem Swept.start (hcached : Cached f) :
    Swept f doCompleted 0 ⟨f, range f.nodes.length, 0, []⟩ where
  length := rfl
  kept := rfl
  rest _ _ := rfl
  rewritesLen := length_range
  rewritten _ h := absurd h (Nat.not_lt_zero _)
  unchanged i _ hi := getElem?_range hi
  dead := rfl
  removed := by cases doCompleted <;> rfl
  doneCache p := by simp
  activeCache p i := (hcached p i).trans (exists_congr fun node => by simp)
  history := by simp

section
variable (h : Swept f doCompleted k c)
include h

section
variable (hnode : f.nodes[k]? = some node)
include hnode

theorem Swept.node_eq : c.forest.nodes[k]? = some node := by
  rw [h.rest k (le_refl k), hnode]

theorem Swept.rewrites_step (rewrites : List Nat) (hset : ∀ i, rewrites[i]? =
      if i = k then some (if node.alive then rank alive f.nodes k else f.nodes.length)
      else c.nodeRewrites[i]?) :
    (∀ i < k + 1, ∀ node, f.nodes[i]? = some node → rewrites[i]? =
      some (if node.alive then rank alive f.nodes i else f.nodes.length)) ∧
    ∀ i, k + 1 ≤ i → i < f.nodes.length → rewrites[i]? = some i := by
  refine ⟨fun i hi node' hnode' => ?_, fun i hi hlt => ?_⟩
  · rw [hset]
    split
    · next heq =>
      subst heq
      rw [Option.mem_unique hnode' hnode]
    · next hne => exact h.rewritten i (Nat.lt_of_le_of_ne (Nat.le_of_lt_succ hi) hne) node' hnode'
  · rw [hset, if_neg (ne_of_gt hi)]
    exact h.unchanged i (Nat.le_of_succ_le hi) hlt

theorem Swept.move (halive : node.alive = true) :
    ∃ nodes' rewrites', compressNode f.nodes.length doCompleted c k =
        .ok { c with forest := { c.forest with nodes := nodes' }, nodeRewrites := rewrites' } ∧
      nodes'.length = f.nodes.length ∧
      nodes'.take (rank alive f.nodes k) = (f.nodes.take k).filter alive ∧
      nodes'[rank alive f.nodes k]? = some node ∧
      (∀ i, k < i → nodes'[i]? = f.nodes[i]?) ∧ rewrites'.length = f.nodes.length ∧
      ∀ i, rewrites'[i]? =
        if i = k then some (rank alive f.nodes k) else c.nodeRewrites[i]? := by
  have hk := lt_length hnode
  have hdead := h.dead
  have hcnode := h.node_eq hnode
  have hrewrite := h.unchanged k (le_refl k) hk
  have hrun : compressNode f.nodes.length doCompleted c k =
      if 0 < c.deadNodes then do
        assert (c.deadNodes ≤ k) "attempt to subtract with overflow"
        let nodes ← swapNodes c.forest.nodes k (k - c.deadNodes)
        let newIndex ← expect "index out of bounds" c.nodeRewrites[k]?
        assert (c.deadNodes ≤ newIndex) "attempt to subtract with overflow"
        .ok { c with
          forest := { c.forest with nodes := nodes }
          nodeRewrites := c.nodeRewrites.set k (newIndex - c.deadNodes) }
      else .ok c := by
    rw [compressNode, nodeAt_eq hcnode, ok_bind]
    rcases alive_iff.1 halive with hstate | hstate <;> rw [hstate]
  rw [hrun]
  split
  · next hpos =>
    have hj : k - c.deadNodes = rank alive f.nodes k := by omega
    have hjk : rank alive f.nodes k < k := by omega
    have hlen := h.length
    obtain ⟨other, hother⟩ := @exists_node _ c.forest.nodes
      (rank alive f.nodes k) (by omega)
    have hle : c.deadNodes ≤ k := by omega
    have hassert : ∀ msg, assert (c.deadNodes ≤ k) msg = .ok () := fun msg =>
      if_pos (decide_eq_true hle)
    rw [hassert, ok_bind, hj, swapNodes, nodeAt_eq hcnode, ok_bind, nodeAt_eq hother, ok_bind,
      ok_bind, hrewrite, expect_some, ok_bind, hassert, ok_bind, hj]
    refine ⟨_, _, rfl, by rw [length_set, length_set, hlen], ?_, ?_, fun i hi => ?_,
      by rw [length_set, h.rewritesLen], fun i => ?_⟩
    · rw [take_set_of_le le_rfl, take_set_of_le (le_of_lt hjk), h.kept]
    · rw [getElem?_set_self (by rw [length_set]; omega)]
    · rw [getElem?_set_ne (by omega), getElem?_set_ne (by omega), h.rest i (le_of_lt hi)]
    · rw [getElem?_set, h.rewritesLen]
      by_cases hik : k = i
      · rw [if_pos hik, if_pos (hik ▸ hk), if_pos hik.symm]
      · rw [if_neg hik, if_neg (Ne.symm hik)]
  · next hpos =>
    have hrank : rank alive f.nodes k = k := by omega
    refine ⟨c.forest.nodes, c.nodeRewrites, rfl, h.length, h.kept, by rw [hrank]; exact hcnode,
      fun i hi => h.rest i (le_of_lt hi), h.rewritesLen, fun i => ?_⟩
    split
    · next hik => rw [hik, hrewrite, hrank]
    · rfl

theorem Swept.step_alive (halive : node.alive = true) : ∃ c',
    compressNode f.nodes.length doCompleted c k = .ok c' ∧ Swept f doCompleted (k + 1) c' := by
  obtain ⟨nodes', rewrites', hrun, hlen, htake, hmoved, hrest, hrlen, hset⟩ := h.move hnode halive
  have hdone : node.isDone = false := by
    rcases alive_iff.1 halive with hstate | hstate <;> rw [isDone, hstate] <;> rfl
  have herror : node.inError = false := by
    rcases alive_iff.1 halive with hstate | hstate <;> rw [inError, hstate] <;> rfl
  obtain ⟨hrewritten, hunchanged⟩ := h.rewrites_step hnode rewrites' fun i => by
    rw [hset, if_pos halive]
  have hrank := @rank_succ _ alive _ _ _ hnode
  rw [if_pos halive] at hrank
  have hdoneTake := filter_take_skip hnode hdone
  have herrorTake := filter_take_skip hnode herror
  refine ⟨_, hrun, hlen, ?_, fun i hi => hrest i hi, hrlen, hrewritten, hunchanged, ?_, ?_, ?_,
    fun p i => ?_, ?_⟩
  · rw [hrank, take_succ_of_getElem? hmoved, htake, filter_take_succ hnode, if_pos halive]
  · have := h.dead
    dsimp only
    omega
  · exact hdoneTake ▸ h.removed
  · exact hdoneTake ▸ h.doneCache
  · rw [h.activeCache]
    refine exists_congr fun node' => and_congr_right fun hnode' => and_congr_right fun _ => ?_
    refine ⟨fun himp hi => ?_, fun himp hi => himp (Nat.lt_succ_of_lt hi)⟩
    rcases Nat.lt_succ_iff_lt_or_eq.1 hi with hi | rfl
    · exact himp hi
    · rw [Option.mem_unique hnode' hnode]
      exact halive
  · rw [hdoneTake, herrorTake]
    exact h.history

theorem Swept.rewrites_dead (hdead : node.alive = false) (i : Nat) :
    (c.nodeRewrites.set k f.nodes.length)[i]? =
      if i = k then some (if node.alive then rank alive f.nodes k else f.nodes.length)
      else c.nodeRewrites[i]? := by
  have hk := lt_length hnode
  rw [getElem?_set, h.rewritesLen, hdead, if_neg Bool.false_ne_true]
  by_cases hik : k = i
  · rw [if_pos hik, if_pos (hik ▸ hk), if_pos hik.symm]
  · rw [if_neg hik, if_neg (Ne.symm hik)]

end

end

section
variable (h : Swept f doCompleted k c)
include h

theorem Swept.erase (hcached : Cached f)
    (hnode : f.nodes[k]? = some node) (hdead : node.alive = false) (p : P) (i : Nat) :
    FxHashMap.get (c.forest.activeCache.erase (asPredicate node.obligation)) p = some i ↔
      ∃ node, f.nodes[i]? = some node ∧ asPredicate node.obligation = p ∧
        (i < k + 1 → node.alive = true) := by
  have hk : f.activeCache.get (asPredicate node.obligation) = some k :=
    (hcached _ _).2 ⟨node, hnode, rfl⟩
  rw [get_erase]
  split
  · next hp =>
    refine ⟨nofun, fun ⟨node', hnode', hp', halive⟩ => ?_⟩
    obtain rfl : i = k := by
      have := (hcached p i).2 ⟨node', hnode', hp'⟩
      rw [hp, hk] at this
      exact (Option.some.inj this).symm
    obtain rfl := Option.mem_unique hnode' hnode
    rw [halive (Nat.lt_succ_self _)] at hdead
    cases hdead
  · next hp =>
    rw [h.activeCache]
    refine exists_congr fun node' => and_congr_right fun hnode' => and_congr_right fun hp' => ?_
    refine ⟨fun himp hi => ?_, fun himp hi => himp (Nat.lt_succ_of_lt hi)⟩
    rcases Nat.lt_succ_iff_lt_or_eq.1 hi with hi | rfl
    · exact himp hi
    · obtain rfl := Option.mem_unique hnode' hnode
      exact absurd hp'.symm hp

theorem Swept.step_done (hcached : Cached f)
    (hnode : f.nodes[k]? = some node) (hstate : node.state = .done) :
    ∃ c', compressNode f.nodes.length doCompleted c k = .ok c' ∧
      Swept f doCompleted (k + 1) c' := by
  have hdead : node.alive = false := by rw [alive, hstate]; rfl
  have herror : node.inError = false := by rw [inError, hstate]; rfl
  have hactive : c.forest.activeCache.get (asPredicate node.obligation) = some k :=
    (h.activeCache _ _).2 ⟨node, hnode, rfl, fun hi => absurd hi (lt_irrefl _)⟩
  obtain ⟨hrewritten, hunchanged⟩ := h.rewrites_step hnode _ (h.rewrites_dead hnode hdead)
  have hrank := rank_succ (p := alive) hnode
  rw [hdead, if_neg Bool.false_ne_true, add_zero] at hrank
  have hkept := filter_take_skip hnode hdead
  have hdoneTake := @filter_take_succ _ isDone _ _ _ hnode
  rw [if_pos (isDone_iff.2 hstate)] at hdoneTake
  have herrorTake := filter_take_skip hnode herror
  rw [compressNode, nodeAt_eq (h.node_eq hnode), ok_bind, hstate]
  dsimp only
  rw [hactive]
  refine ⟨_, rfl, h.length, by rw [hrank, hkept]; exact h.kept,
    fun i hi => h.rest i (Nat.le_of_succ_le hi), by rw [length_set, h.rewritesLen],
    hrewritten, hunchanged, ?_, ?_, fun p => ?_, h.erase hcached hnode hdead, ?_⟩
  · have := h.dead
    dsimp only
    omega
  · rw [hdoneTake, map_append, h.removed]
    cases doCompleted <;> rfl
  · rw [hdoneTake, FxHashSet.mem_insert, h.doneCache]
    simp only [mem_append, mem_singleton, or_and_right, exists_or, exists_eq_left]
    rw [or_comm, or_assoc, eq_comm]
  · rw [hdoneTake, herrorTake, map_append, h.history]
    simp

theorem Swept.step_error (hcached : Cached f)
    (hnode : f.nodes[k]? = some node) (hstate : node.state = .error) :
    ∃ c', compressNode f.nodes.length doCompleted c k = .ok c' ∧
      Swept f doCompleted (k + 1) c' := by
  have hdead : node.alive = false := by rw [alive, hstate]; rfl
  have hdone : node.isDone = false := by rw [isDone, hstate]; rfl
  obtain ⟨hrewritten, hunchanged⟩ := h.rewrites_step hnode _ (h.rewrites_dead hnode hdead)
  have hrank := rank_succ (p := alive) hnode
  rw [hdead, if_neg Bool.false_ne_true, add_zero] at hrank
  have hkept := filter_take_skip hnode hdead
  have hdoneTake := filter_take_skip hnode hdone
  have herrorTake := @filter_take_succ _ inError _ _ _ hnode
  rw [if_pos (inError_iff.2 hstate)] at herrorTake
  rw [compressNode, nodeAt_eq (h.node_eq hnode), ok_bind, hstate]
  dsimp only
  rw [insertIntoErrorCache, nodeAt_eq (h.node_eq hnode), ok_bind, ok_bind]
  refine ⟨_, rfl, h.length, by rw [hrank, hkept]; exact h.kept,
    fun i hi => h.rest i (Nat.le_of_succ_le hi), by rw [length_set, h.rewritesLen],
    hrewritten, hunchanged, ?_, by rw [hdoneTake]; exact h.removed, by rw [hdoneTake]; exact h.doneCache,
    h.erase hcached hnode hdead, ?_⟩
  · have := h.dead
    dsimp only
    omega
  · rw [hdoneTake, herrorTake, map_append, h.history]
    simp

end

theorem compressLoop_spec (hcached : Cached f) (hstates : ∀ node ∈ f.nodes, node.state ≠ .success)
    (doCompleted : Bool) : ∃ c, (range f.nodes.length).foldlM
        (compressNode f.nodes.length doCompleted)
        ⟨f, range f.nodes.length, 0, []⟩ = .ok c ∧ Swept f doCompleted f.nodes.length c := by
  refine foldlM_range (Swept.start hcached) fun k hk c hswept => ?_
  obtain ⟨node, hnode⟩ := exists_node hk
  cases hstate : node.state with
  | pending => exact hswept.step_alive hnode (alive_iff.2 (.inl hstate))
  | waiting => exact hswept.step_alive hnode (alive_iff.2 (.inr hstate))
  | done => exact hswept.step_done hcached hnode hstate
  | error => exact hswept.step_error hcached hnode hstate
  | success => exact absurd hstate (hstates node (mem_of_getElem? hnode))

/-! ## What `compress` does -/

omit [DecidableEq P] [ForestObligation O P] in
/-- A node that stays, before and after. -/
structure Kept (nodes : List (Node O)) (node node' : Node O) : Prop where
  same : node' = { node with dependents := node'.dependents, hasParent := node'.hasParent }
  dependents : ∀ x, x ∈ node'.dependents ↔ ∃ d ∈ node.dependents, ∃ dependent,
    nodes[d]? = some dependent ∧ dependent.alive = true ∧ rank alive nodes d = x
  parent : node'.hasParent = true → node.hasParent = true ∧ ∀ d rest, node.dependents = d :: rest →
    (∃ parent, nodes[d]? = some parent ∧ parent.alive = true) ∧
      ∃ rest', node'.dependents = rank alive nodes d :: rest'

/-- What `compress` makes of a forest. -/
structure Compressed (f f' : ObligationForest O P) : Prop where
  nodes : List.Forall₂ (Kept f.nodes) (f.nodes.filter alive) f'.nodes
  doneCache : ∀ p, p ∈ f'.doneCache ↔ p ∈ f.doneCache ∨
    ∃ node ∈ f.nodes, node.state = .done ∧ asPredicate node.obligation = p
  cached : Cached f'
  history : f'.history = { f.history with
    completed := f.history.completed ++ (f.nodes.filter isDone).map serial
    erroneous := f.history.erroneous ++ (f.nodes.filter inError).map serial }

/-- Where a node moves to: out of range if it does not stay. -/
def target (nodes : List (Node O)) (i : Nat) : Nat :=
  if (nodes[i]?.map alive).getD false then rank alive nodes i else nodes.length

variable {i : Nat}

omit [DecidableEq P] [ForestObligation O P] in
theorem target_lt : target nodes i < nodes.length ↔
    ∃ node, nodes[i]? = some node ∧ node.alive = true := by
  rw [target]
  cases hnode : nodes[i]? with
  | none => simp
  | some node =>
    have hle := rank_le alive nodes i
    have hlt := lt_length hnode
    cases halive : node.alive <;> simp [halive]
    omega

omit [DecidableEq P] [ForestObligation O P] in
theorem target_eq (hnode : nodes[i]? = some node) (halive : node.alive = true) :
    target nodes i = rank alive nodes i := by
  rw [target, hnode, Option.map_some, Option.getD_some, if_pos halive]

theorem Swept.rewrites_eq (h : Swept f doCompleted f.nodes.length c)
    (hi : i < f.nodes.length) : c.nodeRewrites[i]? = some (target f.nodes i) := by
  obtain ⟨node, hnode⟩ := exists_node hi
  rw [h.rewritten i hi node hnode, target, hnode]
  rfl

theorem Kept.of_rewritten {rewrites : List Nat} (hlen : rewrites.length = nodes.length)
    (h : Rewritten rewrites (target nodes) node node') : Kept nodes node node' := by
  obtain ⟨kept, hasParent, rfl, hmem, -, hfirst⟩ := h
  refine ⟨rfl, fun x => ?_, fun hparent => ?_⟩
  · refine (hmem x).trans (exists_congr fun d => and_congr_right fun _ => ?_)
    rw [hlen, target_lt]
    constructor
    · rintro ⟨⟨dependent, hdep, halive⟩, hx⟩
      exact ⟨dependent, hdep, halive, (target_eq hdep halive).symm.trans hx⟩
    · rintro ⟨dependent, hdep, halive, hx⟩
      exact ⟨⟨dependent, hdep, halive⟩, (target_eq hdep halive).trans hx⟩
  · obtain ⟨hp, hhead⟩ := hfirst rfl hparent
    refine ⟨hp, fun d rest hcons => ?_⟩
    obtain ⟨hlt, rest', hkept⟩ := hhead d rest hcons
    rw [hlen] at hlt
    obtain ⟨parent, hparent, halive⟩ := target_lt.1 hlt
    exact ⟨⟨parent, hparent, halive⟩, rest', by rw [← target_eq hparent halive]; exact hkept⟩

variable {nodes' : List (Node O)}

theorem Kept.at_rank (h : List.Forall₂ (Kept nodes) (nodes.filter alive) nodes')
    (hnode : nodes[i]? = some node) (halive : node.alive = true) :
    ∃ node', nodes'[rank alive nodes i]? = some node' ∧ Kept nodes node node' := by
  have hfilter := filter_getElem?_rank hnode halive
  obtain ⟨node', hnode'⟩ := @exists_node _ nodes' (rank alive nodes i)
    (h.length_eq ▸ lt_length hfilter)
  exact ⟨node', hnode', forall₂_getElem h hfilter hnode'⟩

theorem Kept.of_rank (h : List.Forall₂ (Kept nodes) (nodes.filter alive) nodes') {j : Nat}
    (hnode' : nodes'[j]? = some node') :
    ∃ i node, nodes[i]? = some node ∧ node.alive = true ∧ rank alive nodes i = j ∧
      Kept nodes node node' := by
  obtain ⟨node, hfilter⟩ := @exists_node _ (nodes.filter alive) j
    (h.length_eq ▸ lt_length hnode')
  obtain ⟨i, hi, halive, hrank⟩ := exists_of_filter hfilter
  exact ⟨i, node, hi, halive, hrank, forall₂_getElem h hfilter hnode'⟩

theorem compress_spec (hr : InRange f.nodes) (hcached : Cached f)
    (hstates : ∀ node ∈ f.nodes, node.state ≠ .success) (doCompleted : Bool) :
    ∃ f', f.compress doCompleted = .ok (if doCompleted then
        some ((f.nodes.filter isDone).map obligation) else none, f') ∧ Compressed f f' := by
  obtain ⟨c, hrun, h⟩ := compressLoop_spec hcached hstates doCompleted
  have hall : f.nodes.take f.nodes.length = f.nodes := take_length
  have hkept := h.kept
  have hremoved := h.removed
  have hdone := h.doneCache
  have hhistory := h.history
  rw [hall] at hkept hremoved hdone hhistory
  have hreported : (if doCompleted then some c.removedDoneObligations else none) =
      if doCompleted then some ((f.nodes.filter isDone).map obligation) else none := by
    rw [hremoved]
    cases doCompleted <;> rfl
  have hdoneCache : ∀ p, p ∈ c.forest.doneCache ↔ p ∈ f.doneCache ∨
      ∃ node ∈ f.nodes, node.state = .done ∧ asPredicate node.obligation = p := fun p => by
    rw [hdone]
    simp only [mem_filter, isDone_iff, and_assoc]
  rw [compress]
  dsimp only
  rw [hrun, ok_bind]
  split
  · next hdead =>
    have hdeadLen : f.nodes.length - c.deadNodes = rank alive f.nodes f.nodes.length := by
      have := h.dead
      omega
    rw [hdeadLen, hkept]
    obtain ⟨nodes', cache', happly, hnodes', hcache'⟩ := applyRewrites_spec
      (f := { c.forest with nodes := f.nodes.filter alive }) (r := target f.nodes)
      (fun node hnode d hd => by
        obtain ⟨i, hi⟩ := mem_iff_getElem?.1 (mem_of_mem_filter hnode)
        exact h.rewrites_eq (hr i d (deps_eq hi ▸ hd)))
      (fun p i hi => by
        obtain ⟨node, hnode, -⟩ := (h.activeCache p i).1 hi
        exact h.rewrites_eq (lt_length hnode))
    have hnodes : List.Forall₂ (Kept f.nodes) (f.nodes.filter alive) nodes' :=
      hnodes'.imp fun node node' => Kept.of_rewritten h.rewritesLen
    rw [happly, ok_bind, hreported]
    refine ⟨_, rfl, hnodes, hdoneCache, fun p j => ?_, hhistory⟩
    rw [hcache', h.rewritesLen]
    constructor
    · rintro ⟨i, hi, hlt, rfl⟩
      obtain ⟨node, hnode, hp, -⟩ := (h.activeCache p i).1 hi
      obtain ⟨_, hnode1, halive⟩ := target_lt.1 hlt
      obtain rfl := Option.mem_unique hnode hnode1
      obtain ⟨node', hnode', hkept⟩ := Kept.at_rank hnodes hnode halive
      refine ⟨node', by rw [target_eq hnode halive]; exact hnode', ?_⟩
      rw [hkept.same]
      exact hp
    · rintro ⟨node', hnode', hp⟩
      obtain ⟨i, node, hnode, halive, hrank, hkept⟩ := Kept.of_rank hnodes hnode'
      refine ⟨i, (h.activeCache p i).2 ⟨node, hnode, ?_, fun _ => halive⟩,
        target_lt.2 ⟨node, hnode, halive⟩, (target_eq hnode halive).trans hrank⟩
      rw [hkept.same] at hp
      exact hp
  · next hdead =>
    -- All nodes stay, and nothing moves.
    have hrank : rank alive f.nodes f.nodes.length = f.nodes.length := by
      have := h.dead
      omega
    have halive : ∀ node ∈ f.nodes, node.alive = true := by
      rw [rank, hall] at hrank
      exact countP_eq_length.1 hrank
    have hfilter : f.nodes.filter alive = f.nodes := filter_eq_self.2 halive
    have hsame : c.forest.nodes = f.nodes := by
      rw [hrank, ← h.length, take_length, hfilter] at hkept
      exact hkept
    have hmoves : ∀ i, i < f.nodes.length → rank alive f.nodes i = i := fun i hi =>
      rank_eq_self halive (le_of_lt hi)
    rw [ok_bind, hreported]
    refine ⟨_, rfl, ?_, hdoneCache, fun p j => ?_, hhistory⟩
    · rw [hsame, hfilter]
      refine forall₂_same.2 fun node hnode => ⟨rfl, fun x => ?_, fun hp => ⟨hp, ?_⟩⟩
      all_goals
        obtain ⟨i, hi⟩ := mem_iff_getElem?.1 hnode
        have hdeps : ∀ d ∈ node.dependents, d < f.nodes.length := fun d hd =>
          hr i d (deps_eq hi ▸ hd)
      · constructor
        · intro hx
          obtain ⟨dependent, hdep⟩ := exists_node (hdeps x hx)
          exact ⟨x, hx, dependent, hdep, halive _ (mem_of_getElem? hdep), hmoves x (hdeps x hx)⟩
        · rintro ⟨d, hd, dependent, hdep, -, rfl⟩
          rwa [hmoves d (lt_length hdep)]
      · intro d rest hcons
        have hd := hdeps d (by rw [hcons]; exact mem_cons_self)
        obtain ⟨parent, hparent⟩ := exists_node hd
        exact ⟨⟨parent, hparent, halive _ (mem_of_getElem? hparent)⟩, rest,
          by rw [hmoves d hd]; exact hcons⟩
    · rw [h.activeCache, hsame]
      refine exists_congr fun node => and_congr_right fun hnode => and_iff_left fun _ => ?_
      exact halive _ (mem_of_getElem? hnode)

end

end Tortis.Obligation
