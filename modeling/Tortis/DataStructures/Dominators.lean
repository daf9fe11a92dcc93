import Tortis.DataStructures.PostOrder
import Tortis.Lib.Dominance

/-!
# Dominators

`librustc_data_structures/graph/dominators/mod.rs`: immediate dominators are computed by passes over
the nodes in reverse postorder; a node gets the meeting point of its predecessors in the tree of the
current ones, until a pass changes nothing.

The tree keeps above a node all its dominators at any time (`DomTree`).
-/

namespace Tortis

open Outcome List Option ControlFlowGraph

structure Dominators where
  postOrderRank : List Nat
  immediateDominators : List (Option Nat)

namespace Dominators

/-- An access to an `IndexVec`. -/
def index {α : Type} (l : List α) (i : Nat) : Outcome α := expect "index out of bounds" l[i]?

/-- An assignment to an element of an `IndexVec`. -/
def assign {α : Type} (l : List α) (i : Nat) (a : α) : Outcome (List α) := do
  let _ ← index l i
  .ok (l.set i a)

/-- The inner loops of `intersect`: a node goes up until its rank is not below that of the other
one. -/
def climb (rank : List Nat) (idoms : List (Option Nat)) (other : Nat) : Nat → Nat → Outcome Nat
  | 0, _ => .error .outOfFuel
  | n + 1, node => do
    let r ← index rank node
    let r' ← index rank other
    if r < r' then do
      let idom ← index idoms node
      let node ← unwrap idom
      climb rank idoms other n node
    else .ok node

def intersectLoop (rank : List Nat) (idoms : List (Option Nat)) : Nat → Nat → Nat → Outcome Nat
  | 0, _, _ => .error .outOfFuel
  | n + 1, node1, node2 =>
    if node1 ≠ node2 then do
      let node1 ← climb rank idoms node2 rank.length node1
      let node2 ← climb rank idoms node1 rank.length node2
      intersectLoop rank idoms n node1 node2
    else .ok node1

def intersect (rank : List Nat) (idoms : List (Option Nat)) (node1 node2 : Nat) : Outcome Nat :=
  intersectLoop rank idoms (2 * rank.length + 1) node1 node2

/-- The body of the loop over the predecessors of a node. -/
def meet (rank : List Nat) (idoms : List (Option Nat)) (newIdom : Option Nat) (pred : Nat) :
    Outcome (Option Nat) := do
  let idom ← index idoms pred
  if idom.isSome then
    match newIdom with
    | some newIdom => do
      let node ← intersect rank idoms newIdom pred
      .ok (some node)
    | none => .ok (some pred)
  else .ok newIdom

/-- The body of the loop over the nodes, with the flag `changed`. -/
def visitNode (g : ControlFlowGraph) (rank : List Nat) (st : List (Option Nat) × Bool) (node : Nat) :
    Outcome (List (Option Nat) × Bool) := do
  let newIdom ← (g.predecessors node).foldlM (meet rank st.1) none
  let idom ← index st.1 node
  if newIdom ≠ idom then .ok (st.1.set node newIdom, true) else .ok st

/-- The loop `while changed`. The fuel bounds the number of passes. -/
def passes (g : ControlFlowGraph) (rank : List Nat) (nodes : List Nat) :
    Nat → List (Option Nat) → Outcome (List (Option Nat))
  | 0, _ => .error .outOfFuel
  | n + 1, idoms => do
    let (idoms, changed) ← nodes.foldlM (visitNode g rank) (idoms, false)
    if changed then passes g rank nodes n idoms else .ok idoms

def ranks (numNodes : Nat) (postOrder : List Nat) : Outcome (List Nat) :=
  postOrder.zipIdx.foldlM (fun rank (node, i) => assign rank node i) (replicate numNodes 0)

end Dominators

/-- `dominators_given_rpo`. The fuel bounds the number of passes. -/
def dominatorsGivenRpo (n : Nat) (g : ControlFlowGraph) (rpo : List Nat) : Outcome Dominators := do
  let first ← Dominators.index rpo 0
  assert (first = g.startNode) "assertion failed: rpo[0] == start_node"
  let postOrderRank ← Dominators.ranks g.numNodes rpo.reverse
  let immediateDominators ←
    Dominators.assign (replicate g.numNodes none) g.startNode (some g.startNode)
  let immediateDominators ← Dominators.passes g postOrderRank rpo.tail n immediateDominators
  .ok { postOrderRank, immediateDominators }

def dominators (n : Nat) (g : ControlFlowGraph) : Outcome Dominators := do
  let rpo ← reversePostOrder g g.startNode
  dominatorsGivenRpo n g rpo

namespace Dominators

section
variable (d : Dominators)

def isReachable (node : Nat) : Outcome Bool := do
  let idom ← index d.immediateDominators node
  .ok idom.isSome

/-- The assertion of the queries about a node. -/
def assertReachable (node : Nat) : Outcome Unit := do
  let reachable ← d.isReachable node
  assert reachable s!"node {node} is not reachable"

def immediateDominator (node : Nat) : Outcome Nat := do
  d.assertReachable node
  let idom ← index d.immediateDominators node
  unwrap idom

/-- `Iter::next`, on the `node` of the iterator: the element that it returns, and its `node` after
that. -/
def next : Option Nat → Outcome (Option (Nat × Option Nat))
  | some node => do
    let dom ← d.immediateDominator node
    .ok (some (node, if dom = node then none else some dom))
  | none => .ok none

/-- `any(|n| n == dom)` on an iterator. -/
def anyDominator (d : Dominators) (dom : Nat) : Nat → Option Nat → Outcome Bool
  | 0, _ => .error .outOfFuel
  | n + 1, it => do
    match ← d.next it with
    | none => .ok false
    | some (node, it) => if node = dom then .ok true else anyDominator d dom n it

def isDominatedBy (node dom : Nat) : Outcome Bool := do
  d.assertReachable node
  d.anyDominator dom (d.immediateDominators.length + 1) (some node)

end

/-! ## The tree of the immediate dominators -/

section
variable (idoms : List (Option Nat))

/-- The immediate dominator that is recorded for a node. -/
def Idom (v p : Nat) : Prop := idoms[v]? = some (some p)

/-- Some immediate dominator is recorded for a node. -/
def Known (v : Nat) : Prop := ∃ p, Idom idoms v p

/-- A node lies above another one in the tree, or is that node. -/
abbrev Anc : Nat → Nat → Prop := Relation.ReflTransGen (Idom idoms)

end

variable {g : ControlFlowGraph} {rank : List Nat} {idoms : List (Option Nat)}

def rankOf (rank : List Nat) (v : Nat) : Nat := rank[v]?.getD 0

structure Ranked (g : ControlFlowGraph) (rank : List Nat) : Prop where
  length : rank.length = g.numNodes
  lt : ∀ v, Reach g.successors g.startNode v → v < g.numNodes ∧ rankOf rank v < g.numNodes
  inj : ∀ u v, Reach g.successors g.startNode u → Reach g.successors g.startNode v →
    rankOf rank u = rankOf rank v → u = v
  start : ∀ v, Reach g.successors g.startNode v → rankOf rank v ≤ rankOf rank g.startNode

/-- What the tree keeps: it goes up to the start node, and the dominators of a node are above it. -/
structure DomTree (g : ControlFlowGraph) (rank : List Nat) (idoms : List (Option Nat)) : Prop where
  length : idoms.length = g.numNodes
  start : Idom idoms g.startNode g.startNode
  reach : ∀ v, Known idoms v → Reach g.successors g.startNode v
  up : ∀ v p, Idom idoms v p → v ≠ g.startNode → rankOf rank v < rankOf rank p ∧ Known idoms p
  strict : ∀ v p, Idom idoms v p → v ≠ g.startNode → ∀ d, d ≠ v →
    Dominates g.successors g.startNode d v → Dominates g.successors g.startNode d p

theorem Idom.unique {v p q : Nat} (h : Idom idoms v p) (h' : Idom idoms v q) : p = q := by
  rw [Idom, h] at h'
  cases h'
  rfl

namespace DomTree

variable {v d a b : Nat}

section
variable (h : DomTree g rank idoms)
include h

theorem known_start : Known idoms g.startNode := ⟨_, h.start⟩

theorem anc_start (ha : Anc idoms g.startNode a) : a = g.startNode := by
  induction ha with
  | refl => rfl
  | tail _ hbc ih =>
    subst ih
    exact hbc.unique h.start

theorem known_of_anc (hv : Known idoms v) (ha : Anc idoms v a) : Known idoms a := by
  induction ha with
  | refl => exact hv
  | @tail b c _ hbc ih =>
    by_cases hb : b = g.startNode
    · subst hb
      exact h.start.unique hbc ▸ ih
    · exact (h.up b c hbc hb).2

theorem rank_of_anc (ha : Anc idoms v a) : v = a ∨ rankOf rank v < rankOf rank a := by
  induction ha with
  | refl => exact .inl rfl
  | @tail b c _ hbc ih =>
    by_cases hb : b = g.startNode
    · subst hb
      exact h.start.unique hbc ▸ ih
    · have hlt := (h.up b c hbc hb).1
      rcases ih with rfl | ih
      exacts [.inr hlt, .inr (lt_trans ih hlt)]

theorem rank_le_of_anc (ha : Anc idoms v a) : rankOf rank v ≤ rankOf rank a := by
  rcases h.rank_of_anc ha with rfl | hlt
  exacts [le_rfl, le_of_lt hlt]

variable (hrank : Ranked g rank)
include hrank

theorem anc_of_dominates : ∀ {k v}, g.numNodes - rankOf rank v ≤ k → Known idoms v →
      Dominates g.successors g.startNode d v → Anc idoms v d
  | 0, v, hk, hv, _ => by
    have := (hrank.lt v (h.reach v hv)).2
    omega
  | k + 1, v, hk, hv, hdom => by
    by_cases hdv : d = v
    · exact hdv ▸ .refl
    · obtain ⟨p, hp⟩ := hv
      have hstart : v ≠ g.startNode := by
        rintro rfl
        exact hdv hdom.eq_root
      obtain ⟨hlt, hknown⟩ := h.up v p hp hstart
      have hk' : g.numNodes - rankOf rank p ≤ k := by omega
      exact .head hp (anc_of_dominates hk' hknown (h.strict v p hp hstart d hdv hdom))

theorem anc_dominator (hv : Known idoms v) (hdom : Dominates g.successors g.startNode d v) :
    Anc idoms v d :=
  h.anc_of_dominates hrank le_rfl hv hdom

/-! ### The meeting point of two nodes -/

theorem index_rank (hv : Known idoms v) : index rank v = .ok (rankOf rank v) := by
  have hlt : v < rank.length := hrank.length ▸ (hrank.lt v (h.reach v hv)).1
  rw [index, rankOf, getElem?_eq_getElem hlt]
  rfl

theorem climb_spec {other : Nat} (hother : Known idoms other) :
    ∀ {n node : Nat}, Known idoms node → g.numNodes - rankOf rank node ≤ n →
      ∃ node', climb rank idoms other n node = .ok node' ∧ Anc idoms node node' ∧
        rankOf rank other ≤ rankOf rank node' ∧
        ∀ d, Dominates g.successors g.startNode d node → rankOf rank other ≤ rankOf rank d →
          Dominates g.successors g.startNode d node'
  | 0, node, hnode, hn => by
    have := (hrank.lt node (h.reach node hnode)).2
    omega
  | n + 1, node, hnode, hn => by
    rw [climb, h.index_rank hrank hnode, h.index_rank hrank hother, ok_bind, ok_bind]
    split
    · next hlt =>
      have hstart : node ≠ g.startNode := by
        rintro rfl
        exact Nat.not_le_of_lt hlt (hrank.start other (h.reach other hother))
      obtain ⟨p, hp⟩ := hnode
      obtain ⟨hup, hknown⟩ := h.up node p hp hstart
      obtain ⟨node', hrun, hanc, hle, hdom⟩ := climb_spec hother (n := n) hknown (by omega)
      refine ⟨node', ?_, .head hp hanc, hle, fun d hd hrd => hdom d ?_ hrd⟩
      · rw [index, hp, expect_some, ok_bind, unwrap_some, ok_bind, hrun]
      · refine h.strict node p hp hstart d ?_ hd
        rintro rfl
        exact Nat.not_le_of_lt hlt hrd
    · next hge => exact ⟨node, rfl, .refl, Nat.le_of_not_lt hge, fun d hd _ => hd⟩

theorem intersectLoop_spec : ∀ {n a b : Nat}, Known idoms a → Known idoms b →
      2 * g.numNodes - (rankOf rank a + rankOf rank b) < n →
      ∃ c, intersectLoop rank idoms n a b = .ok c ∧ Anc idoms a c ∧ Anc idoms b c ∧
        ∀ d, Dominates g.successors g.startNode d a → Dominates g.successors g.startNode d b →
          Dominates g.successors g.startNode d c
  | 0, _, _, _, _, hn => absurd hn (Nat.not_lt_zero _)
  | n + 1, a, b, ha, hb, hn => by
    rw [intersectLoop]
    by_cases hab : a = b
    · subst hab
      exact ⟨a, by simp, .refl, .refl, fun d hd _ => hd⟩
    · have hne : rankOf rank a ≠ rankOf rank b := fun heq =>
        hab (hrank.inj a b (h.reach a ha) (h.reach b hb) heq)
      obtain ⟨a', hruna, hanca, hlea, hdoma⟩ := h.climb_spec hrank (n := rank.length) hb ha (by
        rw [hrank.length]
        exact Nat.sub_le _ _)
      have ha' := h.known_of_anc ha hanca
      obtain ⟨b', hrunb, hancb, hleb, hdomb⟩ := h.climb_spec hrank (n := rank.length) ha' hb (by
        rw [hrank.length]
        exact Nat.sub_le _ _)
      have hb' := h.known_of_anc hb hancb
      have hra := h.rank_le_of_anc hanca
      have hlta' := (hrank.lt a' (h.reach a' ha')).2
      obtain ⟨c, hrun, hanca', hancb', hdom⟩ := intersectLoop_spec (n := n) ha' hb' (by omega)
      refine ⟨c, ?_, hanca.trans hanca', hancb.trans hancb', fun d hda hdb => hdom d ?_ ?_⟩
      · rw [if_pos hab, hruna, ok_bind, hrunb, ok_bind, hrun]
      · exact hdoma d hda (h.rank_le_of_anc (h.anc_dominator hrank hb hdb))
      · have hda' := hdoma d hda (h.rank_le_of_anc (h.anc_dominator hrank hb hdb))
        exact hdomb d hdb (h.rank_le_of_anc (h.anc_dominator hrank ha' hda'))

theorem intersect_spec (ha : Known idoms a) (hb : Known idoms b) :
    ∃ c, intersect rank idoms a b = .ok c ∧ Anc idoms a c ∧ Anc idoms b c ∧
      ∀ d, Dominates g.successors g.startNode d a → Dominates g.successors g.startNode d b →
        Dominates g.successors g.startNode d c :=
  h.intersectLoop_spec hrank ha hb (by rw [hrank.length]; omega)

/-- What the loop over predecessors has found. -/
def Met (g : ControlFlowGraph) (idoms : List (Option Nat)) (preds : List Nat) :
    Option Nat → Prop
  | none => ∀ p ∈ preds, ¬ Known idoms p
  | some c => Known idoms c ∧ (∀ p ∈ preds, Known idoms p → Anc idoms p c) ∧
    ∀ d, (∀ p ∈ preds, Known idoms p → Dominates g.successors g.startNode d p) →
      Dominates g.successors g.startNode d c

theorem foldlM_meet {preds : List Nat} (hlt : ∀ p ∈ preds, p < g.numNodes) :
    ∃ newIdom, preds.foldlM (meet rank idoms) none = .ok newIdom ∧ Met g idoms preds newIdom := by
  refine foldlM_start (P := Met g idoms) (fun p hp => absurd hp not_mem_nil)
    fun pre p post newIdom hl hmet => ?_
  have hp : p < idoms.length := h.length ▸ hlt p (by rw [hl]; simp)
  obtain ⟨o, ho⟩ : ∃ o, idoms[p]? = some o := ⟨_, getElem?_eq_getElem hp⟩
  have hmem : ∀ q, q ∈ pre ++ [p] ↔ q ∈ pre ∨ q = p := fun q => by simp
  unfold meet
  rw [index, ho]
  cases o with
  | none =>
    have hnot : ¬ Known idoms p := fun ⟨q, hq⟩ => by
      rw [Idom, ho] at hq
      cases hq
    refine ⟨newIdom, rfl, ?_⟩
    cases newIdom with
    | none =>
      intro q hq
      rcases (hmem q).1 hq with hq | rfl
      exacts [hmet q hq, hnot]
    | some c =>
      refine ⟨hmet.1, fun q hq hk => ?_, fun d hd => hmet.2.2 d fun q hq hk => ?_⟩
      · rcases (hmem q).1 hq with hq | rfl
        exacts [hmet.2.1 q hq hk, absurd hk hnot]
      · exact hd q ((hmem q).2 (.inl hq)) hk
  | some q =>
    have hknown : Known idoms p := ⟨q, ho⟩
    cases newIdom with
    | none =>
      refine ⟨some p, rfl, hknown, fun q hq hk => ?_, fun d hd => ?_⟩
      · rcases (hmem q).1 hq with hq | rfl
        exacts [absurd hk (hmet q hq), .refl]
      · exact hd p ((hmem p).2 (.inr rfl)) hknown
    | some c =>
      obtain ⟨c', hrun, hancc, hancp, hdom⟩ := h.intersect_spec hrank hmet.1 hknown
      refine ⟨some c', ?_, h.known_of_anc hmet.1 hancc, fun q hq hk => ?_, fun d hd => ?_⟩
      · simp [hrun]
      · rcases (hmem q).1 hq with hq | rfl
        exacts [(hmet.2.1 q hq hk).trans hancc, hancp]
      · refine hdom d (hmet.2.2 d fun q hq hk => ?_) (hd p ((hmem p).2 (.inr rfl)) hknown)
        exact hd q ((hmem q).2 (.inl hq)) hk

/-! ### The visit of a node -/

theorem visitNode_spec (hg : g.WF) {w : Nat} (hw : Reach g.successors g.startNode w)
    (hstart : w ≠ g.startNode) (hpred : ∃ p, Known idoms p ∧ w ∈ g.successors p ∧ rankOf rank w < rankOf rank p)
    (changed : Bool) :
    ∃ idoms' changed' c, visitNode g rank (idoms, changed) w = .ok (idoms', changed') ∧
      DomTree g rank idoms' ∧ Idom idoms' w c ∧ Met g idoms (g.predecessors w) (some c) ∧
      (∀ x, x ≠ w → idoms'[x]? = idoms[x]?) ∧
      (changed' = true ↔ changed = true ∨ idoms'[w]? ≠ idoms[w]?) := by
  have hlt := (hrank.lt w hw).1
  have hagree : ∀ p, p ∈ g.predecessors w → w ∈ g.successors p := fun p hp =>
    (hg.agree p (hg.predecessors_lt w hlt p hp) w hlt).1 hp
  obtain ⟨newIdom, hrun, hmet⟩ := h.foldlM_meet hrank (hg.predecessors_lt w hlt)
  obtain ⟨p, hp, hwp, hrankp⟩ := hpred
  have hmem : p ∈ g.predecessors w := (hg.agree p (hrank.lt p (h.reach p hp)).1 w hlt).2 hwp
  cases newIdom with
  | none => exact absurd hp (hmet p hmem)
  | some c =>
    have hcw : rankOf rank w < rankOf rank c :=
      lt_of_lt_of_le hrankp (h.rank_le_of_anc (hmet.2.1 p hmem hp))
    have hlen : w < idoms.length := h.length ▸ hlt
    obtain ⟨o, ho⟩ : ∃ o, idoms[w]? = some o := ⟨_, getElem?_eq_getElem hlen⟩
    -- The tree after the visit, whether or not it has changed.
    have htree : DomTree g rank (idoms.set w (some c)) := by
      have hself : Idom (idoms.set w (some c)) w c := getElem?_set_self hlen
      have hother : ∀ x q, x ≠ w → (Idom (idoms.set w (some c)) x q ↔ Idom idoms x q) :=
        fun x q hx => by rw [Idom, Idom, getElem?_set_ne (Ne.symm hx)]
      have hknown : ∀ x, Known idoms x → Known (idoms.set w (some c)) x := by
        intro x hx
        by_cases hxw : x = w
        · exact ⟨c, hxw.symm ▸ hself⟩
        · exact hx.imp fun q hq => (hother x q hxw).2 hq
      refine ⟨length_set.trans h.length, (hother _ _ (Ne.symm hstart)).2 h.start,
        fun v hv => ?_, fun v q hvq hv => ?_, fun v q hvq hv d hdv hdom => ?_⟩
      · by_cases hvw : v = w
        · exact hvw ▸ hw
        · exact h.reach v (hv.imp fun q hq => (hother v q hvw).1 hq)
      · by_cases hvw : v = w
        · subst hvw
          obtain rfl := hself.unique hvq
          exact ⟨hcw, hknown _ hmet.1⟩
        · exact (h.up v q ((hother v q hvw).1 hvq) hv).imp_right (hknown q)
      · by_cases hvw : v = w
        · subst hvw
          obtain rfl := hself.unique hvq
          exact hmet.2.2 d fun p hp _ => hdom.of_succ hdv (hagree p hp)
        · exact h.strict v q ((hother v q hvw).1 hvq) hv d hdv hdom
    by_cases hsame : some c = o
    · have hset : idoms.set w (some c) = idoms := by
        obtain ⟨hw', hget⟩ := List.getElem?_eq_some_iff.1 ho
        rw [hsame, ← hget]
        exact set_getElem_self hw'
      refine ⟨idoms, changed, c, ?_, hset ▸ htree, ?_, hmet, fun _ _ => rfl, by simp⟩
      · rw [visitNode, hrun, ok_bind, index, ho, expect_some, ok_bind, if_neg (not_not.2 hsame)]
      · rw [Idom, ho, hsame]
    · refine ⟨idoms.set w (some c), true, c, ?_, htree, getElem?_set_self hlen, hmet,
        fun x hx => getElem?_set_ne (Ne.symm hx), ?_⟩
      · rw [visitNode, hrun, ok_bind, index, ho, expect_some, ok_bind, if_pos hsame]
      · refine iff_of_true rfl (.inr ?_)
        rw [getElem?_set_self hlen, ho]
        simpa using hsame

end

end DomTree

/-! ## The passes -/

/-- What is recorded for a node lies on every path to it with fewer than `j` steps against the
order. -/
def Level (g : ControlFlowGraph) (rank : List Nat) (j : Nat) (idoms : List (Option Nat)) (v : Nat) :
    Prop :=
  ∀ p, Idom idoms v p → Within g.successors g.startNode (rankOf rank) j v p

/-- The order in which a pass visits the nodes: those of a higher rank first. -/
structure Order (g : ControlFlowGraph) (rank : List Nat) (nodes : List Nat) : Prop where
  nodup : nodes.Nodup
  mem : ∀ v, v ∈ nodes ↔ Reach g.successors g.startNode v ∧ v ≠ g.startNode
  earlier : ∀ pre w post, nodes = pre ++ w :: post → ∀ v, Reach g.successors g.startNode v →
    rankOf rank w < rankOf rank v → v = g.startNode ∨ v ∈ pre
  pred : ∀ w ∈ nodes, ∃ p, Reach g.successors g.startNode p ∧ w ∈ g.successors p ∧
    rankOf rank w < rankOf rank p

theorem within_of_anc {j v d : Nat} (hlevel : ∀ u, Anc idoms v u → Level g rank j idoms u)
    (h : Anc idoms v d) : Within g.successors g.startNode (rankOf rank) j v d := by
  induction h with
  | refl => exact within_self j v
  | @tail b c hvb hbc ih => exact ih.trans (hlevel b hvb c hbc)

theorem level_start (h : DomTree g rank idoms) (j : Nat) : Level g rank j idoms g.startNode := by
  intro p hp
  rw [← h.start.unique hp]
  exact within_self j _

theorem level_of_met (h : DomTree g rank idoms) {j w c : Nat} (hw : w ≠ g.startNode)
    (hlevel : ∀ v, Level g rank j idoms v)
    (hknown : j = 0 ∨ ∀ v, Reach g.successors g.startNode v → Known idoms v)
    (hhigher : ∀ v, Reach g.successors g.startNode v → rankOf rank w < rankOf rank v →
      Known idoms v ∧ Level g rank (j + 1) idoms v)
    (hpreds : ∀ p, Reach g.successors g.startNode p → w ∈ g.successors p → p ∈ g.predecessors w)
    (hmet : DomTree.Met g idoms (g.predecessors w) (some c)) :
    Within g.successors g.startNode (rankOf rank) (j + 1) w c := by
  refine Within.of_preds hw (fun p hp hlt hreach => ?_) fun p hp _ hreach => ?_
  · have hpknown := (hhigher p hreach hlt).1
    refine within_of_anc (fun u hu => ?_) (hmet.2.1 p (hpreds p hreach hp) hpknown)
    exact (hhigher u (h.reach u (h.known_of_anc hpknown hu))
      (lt_of_lt_of_le hlt (h.rank_le_of_anc hu))).2
  · rcases hknown with rfl | hknown
    · exact within_zero p c
    · exact within_of_anc (fun u _ => hlevel u) (hmet.2.1 p (hpreds p hreach hp) (hknown p hreach))

/-- The state of a pass that has visited the nodes `pre`. -/
structure Passing (g : ControlFlowGraph) (rank : List Nat) (j : Nat) (idoms₀ : List (Option Nat))
    (pre : List Nat) (st : List (Option Nat) × Bool) : Prop where
  tree : DomTree g rank st.1
  level : ∀ v, Level g rank j st.1 v
  visited : ∀ v ∈ pre, Known st.1 v ∧ Level g rank (j + 1) st.1 v
  known : j = 0 ∨ ∀ v, Reach g.successors g.startNode v → Known st.1 v
  same : ∀ v, v ∉ pre → st.1[v]? = idoms₀[v]?
  changed : st.2 = true ↔ ∃ v ∈ pre, st.1[v]? ≠ idoms₀[v]?

theorem pass_spec (hg : g.WF) (hrank : Ranked g rank) {nodes : List Nat}
    (horder : Order g rank nodes) {j : Nat} (h : DomTree g rank idoms)
    (hlevel : ∀ v, Level g rank j idoms v)
    (hknown : j = 0 ∨ ∀ v, Reach g.successors g.startNode v → Known idoms v) :
    ∃ idoms' changed, nodes.foldlM (visitNode g rank) (idoms, false) = .ok (idoms', changed) ∧
      DomTree g rank idoms' ∧ (∀ v, Level g rank (j + 1) idoms' v) ∧
      (∀ v, Reach g.successors g.startNode v → Known idoms' v) ∧
      (changed = true ↔ idoms' ≠ idoms) := by
  obtain ⟨⟨idoms', changed⟩, hrun, hp⟩ := foldlM_start (P := Passing g rank j idoms)
    (f := visitNode g rank) (l := nodes) (s := (idoms, false))
    ⟨h, hlevel, by simp, hknown, fun _ _ => rfl, by simp⟩ fun pre w post ⟨idoms1, changed1⟩ hl hp => by
      have hmem : w ∈ nodes := by rw [hl]; simp
      obtain ⟨hw, hstart⟩ := (horder.mem w).1 hmem
      have hfresh : w ∉ pre := by
        have := horder.nodup
        rw [hl] at this
        exact fun hpre => (nodup_append.1 this).2.2 w hpre w mem_cons_self rfl
      have hhigher : ∀ v, Reach g.successors g.startNode v → rankOf rank w < rankOf rank v →
          Known idoms1 v ∧ Level g rank (j + 1) idoms1 v := by
        intro v hv hlt
        rcases horder.earlier pre w post hl v hv hlt with rfl | hpre
        exacts [⟨hp.tree.known_start, level_start hp.tree _⟩, hp.visited v hpre]
      obtain ⟨p, hpreach, hwp, hlt⟩ := horder.pred w hmem
      obtain ⟨idoms2, changed2, c, hrun, htree, hc, hmet, hsame, hchanged⟩ :=
        hp.tree.visitNode_spec hrank hg hw hstart ⟨p, (hhigher p hpreach hlt).1, hwp, hlt⟩ changed1
      have hpreds : ∀ p, Reach g.successors g.startNode p → w ∈ g.successors p →
          p ∈ g.predecessors w := fun p hp hwp =>
        (hg.agree p (hrank.lt p hp).1 w (hrank.lt w hw).1).2 hwp
      have hwithin := level_of_met hp.tree hstart hp.level hp.known hhigher hpreds hmet
      have hidom : ∀ v, v ≠ w → ∀ q, Idom idoms2 v q ↔ Idom idoms1 v q := fun v hv q => by
        rw [Idom, Idom, hsame v hv]
      have hlevel' : ∀ v i, i ≤ j + 1 → (v ≠ w → Level g rank i idoms1 v) →
          Level g rank i idoms2 v := by
        intro v i hi hold q hq
        by_cases hvw : v = w
        · subst hvw
          rw [← hc.unique hq]
          exact hwithin.mono hi
        · exact hold hvw q ((hidom v hvw q).1 hq)
      have hknown' : ∀ v, Known idoms1 v → Known idoms2 v := by
        intro v hv
        by_cases hvw : v = w
        · exact hvw ▸ ⟨c, hc⟩
        · exact hv.imp fun q => (hidom v hvw q).2
      refine ⟨(idoms2, changed2), hrun, htree,
        fun v => hlevel' v j (Nat.le_succ j) fun _ => hp.level v, fun v hv => ?_,
        hp.known.imp_right fun hall v hv => hknown' v (hall v hv), fun v hv => ?_, ?_⟩
      · rcases mem_append.1 hv with hv | hv
        · have := hp.visited v hv
          exact ⟨hknown' v this.1, hlevel' v _ le_rfl fun _ => this.2⟩
        · obtain rfl := mem_singleton.1 hv
          exact ⟨⟨c, hc⟩, hlevel' v _ le_rfl fun hne => absurd rfl hne⟩
      · rw [mem_append, not_or, mem_singleton] at hv
        exact (hsame v hv.2).trans (hp.same v hv.1)
      · rw [hchanged, hp.changed]
        constructor
        · rintro (⟨v, hv, hne⟩ | hne)
          · refine ⟨v, mem_append_left _ hv, ?_⟩
            rwa [hsame v fun heq => hfresh (heq ▸ hv)]
          · exact ⟨w, by simp, fun heq => hne (heq.trans (hp.same w hfresh).symm)⟩
        · rintro ⟨v, hv, hne⟩
          rcases mem_append.1 hv with hv | hv
          · exact .inl ⟨v, hv, by rwa [← hsame v fun heq => hfresh (heq ▸ hv)]⟩
          · obtain rfl := mem_singleton.1 hv
            exact .inr fun heq => hne (heq.trans (hp.same v hfresh))
  have hall : ∀ v, Reach g.successors g.startNode v →
      Known idoms' v ∧ Level g rank (j + 1) idoms' v := by
    intro v hv
    by_cases hstart : v = g.startNode
    · subst hstart
      exact ⟨hp.tree.known_start, level_start hp.tree _⟩
    · exact hp.visited v ((horder.mem v).2 ⟨hv, hstart⟩)
  refine ⟨idoms', changed, hrun, hp.tree, fun v q hq => ?_, fun v hv => (hall v hv).1, ?_⟩
  · exact (hall v (hp.tree.reach v ⟨q, hq⟩)).2 q hq
  · rw [hp.changed]
    constructor
    · rintro ⟨v, -, hne⟩ rfl
      exact hne rfl
    · intro hne
      by_contra hnone
      push Not at hnone
      refine hne (ext_getElem? fun v => ?_)
      by_cases hv : v ∈ nodes
      exacts [hnone v hv, hp.same v hv]

/-! ## The tree of the dominators -/

structure Exact (g : ControlFlowGraph) (rank : List Nat) (idoms : List (Option Nat)) : Prop where
  tree : DomTree g rank idoms
  known : ∀ v, Reach g.successors g.startNode v → Known idoms v
  dominates : ∀ v p, Idom idoms v p → Dominates g.successors g.startNode p v

namespace Exact

variable {v d p : Nat}

section
variable (h : Exact g rank idoms)
include h

theorem dominates_of_anc (ha : Anc idoms v d) : Dominates g.successors g.startNode d v := by
  induction ha with
  | refl => exact dominates_self v
  | @tail b c _ hbc ih => exact ih.trans (h.dominates b c hbc)

theorem anc_iff (hrank : Ranked g rank) (hv : Reach g.successors g.startNode v) :
    Anc idoms v d ↔ Dominates g.successors g.startNode d v :=
  ⟨h.dominates_of_anc, h.tree.anc_dominator hrank (h.known v hv)⟩

theorem ne (hp : Idom idoms v p) (hv : v ≠ g.startNode) : p ≠ v := by
  rintro rfl
  exact lt_irrefl _ (h.tree.up p p hp hv).1

theorem idom_iff (hrank : Ranked g rank) (hreach : Reach g.successors g.startNode v)
    (hv : v ≠ g.startNode) : Idom idoms v p ↔ p ≠ v ∧ Dominates g.successors g.startNode p v ∧ ∀ d,
    d ≠ v → Dominates g.successors g.startNode d v → Dominates g.successors g.startNode d p := by
  constructor
  · exact fun hp => ⟨h.ne hp hv, h.dominates v p hp, h.tree.strict v p hp hv⟩
  · rintro ⟨hne, hdom, hclosest⟩
    obtain ⟨q, hq⟩ := h.known v hreach
    have hpq : Anc idoms q p :=
      h.tree.anc_dominator hrank (h.tree.up v q hq hv).2 (h.tree.strict v q hq hv p hne hdom)
    have hpknown := h.tree.known_of_anc (h.tree.up v q hq hv).2 hpq
    have hqp : Anc idoms p q :=
      h.tree.anc_dominator hrank hpknown (hclosest q (h.ne hq hv) (h.dominates v q hq))
    rcases h.tree.rank_of_anc hpq with rfl | hlt
    · exact hq
    · exact absurd (h.tree.rank_le_of_anc hqp) (Nat.not_le_of_lt hlt)

end

theorem unique {idoms' : List (Option Nat)} (h : Exact g rank idoms) (h' : Exact g rank idoms')
    (hrank : Ranked g rank) : idoms = idoms' := by
  refine ext_getElem (h.tree.length.trans h'.tree.length.symm) fun v hv hv' => ?_
  have hiff : ∀ p, Idom idoms v p ↔ Idom idoms' v p := by
    intro p
    by_cases hreach : Reach g.successors g.startNode v
    · by_cases hstart : v = g.startNode
      · subst hstart
        exact ⟨fun hp => hp.unique h.tree.start ▸ h'.tree.start,
          fun hp => hp.unique h'.tree.start ▸ h.tree.start⟩
      · rw [h.idom_iff hrank hreach hstart, h'.idom_iff hrank hreach hstart]
    · exact ⟨fun hp => absurd (h.tree.reach v ⟨p, hp⟩) hreach,
        fun hp => absurd (h'.tree.reach v ⟨p, hp⟩) hreach⟩
  have hget : ∀ p, idoms[v] = some p ↔ idoms'[v] = some p := by
    intro p
    have := hiff p
    rwa [Idom, Idom, getElem?_eq_getElem hv, getElem?_eq_getElem hv', some_inj, some_inj] at this
  exact Option.ext hget

end Exact

theorem exists_exact (g : ControlFlowGraph) {rank : List Nat} (hrank : Ranked g rank) :
    ∃ j, ∀ idoms, DomTree g rank idoms → (∀ v, Level g rank j idoms v) →
      (∀ v, Reach g.successors g.startNode v → Known idoms v) → Exact g rank idoms := by
  obtain ⟨j, hj⟩ := exists_within g.successors g.startNode (rankOf rank) (Finset.range g.numNodes)
  refine ⟨j, fun idoms h hlevel hknown => ⟨h, hknown, fun v p hp => ?_⟩⟩
  have hv := (hrank.lt v (h.reach v ⟨p, hp⟩)).1
  have hpknown : Known idoms p := h.known_of_anc ⟨p, hp⟩ (.single hp)
  have hp' := (hrank.lt p (h.reach p hpknown)).1
  exact hj v (Finset.mem_range.2 hv) p (Finset.mem_range.2 hp') (hlevel v p hp)

theorem Level.mono {i j v : Nat} (h : Level g rank j idoms v) (hle : i ≤ j) :
    Level g rank i idoms v := fun p hp => (h p hp).mono hle

theorem passes_spec (hg : g.WF) (hrank : Ranked g rank) {nodes : List Nat}
    (horder : Order g rank nodes) {k : Nat}
    (hk : ∀ idoms, DomTree g rank idoms → (∀ v, Level g rank k idoms v) →
      (∀ v, Reach g.successors g.startNode v → Known idoms v) → Exact g rank idoms) :
    ∀ {n j : Nat} {idoms : List (Option Nat)}, DomTree g rank idoms →
      (∀ v, Level g rank j idoms v) →
      (j = 0 ∨ ∀ v, Reach g.successors g.startNode v → Known idoms v) → k + 1 - j < n →
      ∃ idoms', passes g rank nodes n idoms = .ok idoms' ∧ Exact g rank idoms'
  | 0, _, _, _, _, _, hn => absurd hn (Nat.not_lt_zero _)
  | n + 1, j, idoms, h, hlevel, hknown, hn => by
    obtain ⟨idoms', changed, hrun, htree, hlevel', hknown', hchanged⟩ :=
      pass_spec hg hrank horder h hlevel hknown
    rw [passes, hrun, ok_bind]
    cases changed with
    | true =>
      -- The tree has changed, so it was not the tree of the dominators before the pass.
      have hj : j < k + 1 := by
        by_contra hge
        have hge := Nat.le_of_not_lt hge
        have hknown0 := hknown.resolve_left (ne_of_gt (lt_of_lt_of_le k.succ_pos hge))
        have hexact := hk idoms h (fun v => (hlevel v).mono (Nat.le_of_succ_le hge)) hknown0
        have hexact' := hk idoms' htree
          (fun v => (hlevel' v).mono (Nat.le_succ_of_le (Nat.le_of_succ_le hge))) hknown'
        exact hchanged.1 rfl (hexact'.unique hexact hrank)
      obtain ⟨idoms'', hrun', hexact⟩ := passes_spec hg hrank horder hk (n := n) htree hlevel'
        (.inr hknown') (by omega)
      exact ⟨idoms'', hrun', hexact⟩
    | false =>
      -- Further passes would raise the level of the same tree.
      obtain rfl : idoms' = idoms := by
        by_contra hne
        cases hchanged.2 hne
      have hall : ∀ i v, Level g rank (j + 1 + i) idoms' v := by
        intro i
        induction i with
        | zero => exact hlevel'
        | succ i ih =>
          obtain ⟨idoms2, changed2, hrun2, -, hlevel2, -, -⟩ :=
            pass_spec hg hrank horder htree ih (.inr hknown')
          rw [hrun] at hrun2
          cases hrun2
          exact hlevel2
      exact ⟨idoms', rfl, hk idoms' htree (fun v => (hall k v).mono (Nat.le_add_left _ _)) hknown'⟩

/-! ## The ranks -/

theorem ranks_spec {numNodes : Nat} {out : List Nat} (hnodup : out.Nodup)
    (hlt : ∀ x ∈ out, x < numNodes) :
    ∃ rank, ranks numNodes out = .ok rank ∧ rank.length = numNodes ∧
      ∀ (i x : Nat), out[i]? = some x → rankOf rank x = i := by
  obtain ⟨rank, hrun, hlen, hrank⟩ := foldlM_start
    (f := fun (rank : List Nat) (x : Nat × Nat) => assign rank x.1 x.2) (l := out.zipIdx)
    (s := replicate numNodes 0)
    (P := fun pre rank => rank.length = numNodes ∧ ∀ x i, (x, i) ∈ pre → rank[x]? = some i)
    ⟨length_replicate, by simp⟩ fun pre ⟨x, i⟩ post rank hl ⟨hlen, hrank⟩ => by
      have hmap : out = pre.map Prod.fst ++ x :: post.map Prod.fst := by
        rw [← zipIdx_map_fst 0 out, hl]
        simp
      have hx : x < rank.length := hlen ▸ hlt x (by rw [hmap]; simp)
      have hfresh : x ∉ pre.map Prod.fst := by
        rw [hmap] at hnodup
        exact fun hpre => (nodup_append.1 hnodup).2.2 x hpre x mem_cons_self rfl
      refine ⟨rank.set x i, ?_, length_set.trans hlen, fun y k hy => ?_⟩
      · simp [assign, index, hx]
      · rcases mem_append.1 hy with hy | hy
        · have hne : x ≠ y := fun heq => hfresh (heq ▸ mem_map.2 ⟨(y, k), hy, rfl⟩)
          rw [getElem?_set_ne hne]
          exact hrank y k hy
        · cases mem_singleton.1 hy
          exact getElem?_set_self hx
  refine ⟨rank, hrun, hlen, fun i x hx => ?_⟩
  rw [rankOf, hrank x i (mk_mem_zipIdx_iff_getElem?.2 hx), getD_some]

section
variable {out before : List Nat}

variable {post pre : List Nat}

section
variable (hplace : ∀ (i x : Nat), out[i]? = some x → rankOf rank x = i)
include hplace

theorem rankOf_append {w : Nat} (hout : out = pre ++ w :: post) : rankOf rank w = pre.length :=
  hplace _ _ (by rw [hout]; simp)

theorem mem_of_rank_lt {w v : Nat} (hout : out = pre ++ w :: post) (hv : v ∈ out)
    (hlt : rankOf rank w < rankOf rank v) : v ∈ post := by
  obtain ⟨i, hi⟩ := getElem?_of_mem hv
  rw [rankOf_append hplace hout, hplace i v hi] at hlt
  rw [hout, getElem?_append_right (le_of_lt hlt)] at hi
  obtain ⟨k, hk⟩ := Nat.exists_eq_add_of_lt hlt
  have hik : i - pre.length = k + 1 := by omega
  rw [hik, getElem?_cons_succ] at hi
  exact mem_of_getElem? hi

theorem rank_lt_of_mem {w v : Nat} (hout : out = pre ++ w :: post) (hv : v ∈ post) :
    rankOf rank w < rankOf rank v := by
  obtain ⟨k, hk⟩ := getElem?_of_mem hv
  have hout' : out[pre.length + (k + 1)]? = some v := by
    rw [hout, getElem?_append_right (Nat.le_add_right _ _), Nat.add_sub_cancel_left,
      getElem?_cons_succ, hk]
  rw [rankOf_append hplace hout, hplace _ v hout']
  omega

end

theorem ranked_of_postOrdered (h : PostOrdered g g.startNode out) (hlen : rank.length = g.numNodes)
    (hplace : ∀ (i x : Nat), out[i]? = some x → rankOf rank x = i) : Ranked g rank := by
  have hle : out.length ≤ g.numNodes := by
    have hsub : out.toFinset ⊆ Finset.range g.numNodes := fun x hx =>
      Finset.mem_range.2 (h.lt x (mem_toFinset.1 hx))
    have := Finset.card_le_card hsub
    rwa [toFinset_card_of_nodup h.nodup, Finset.card_range] at this
  have hget : ∀ v, Reach g.successors g.startNode v → out[rankOf rank v]? = some v := by
    intro v hv
    obtain ⟨i, hi⟩ := getElem?_of_mem ((h.mem_iff v).2 hv)
    rwa [hplace i v hi]
  refine ⟨hlen, fun v hv => ⟨h.lt v ((h.mem_iff v).2 hv), ?_⟩, fun u v hu hv heq => ?_,
    fun v hv => ?_⟩
  · exact lt_of_lt_of_le (List.getElem?_eq_some_iff.1 (hget v hv)).1 hle
  · have := hget u hu
    rw [heq, hget v hv] at this
    exact (some_inj.1 this).symm
  · obtain ⟨before, hout⟩ := h.last
    have hlast := (List.getElem?_eq_some_iff.1 (hget v hv)).1
    rw [hout, length_append, length_singleton] at hlast
    rw [rankOf_append hplace hout]
    exact Nat.le_of_lt_succ hlast

theorem order_of_postOrdered (h : PostOrdered g g.startNode out)
    (hplace : ∀ (i x : Nat), out[i]? = some x → rankOf rank x = i)
    (hout : out = before ++ [g.startNode]) : Order g rank before.reverse := by
  have hnodup := h.nodup
  rw [hout, nodup_append] at hnodup
  have hmem : ∀ v, v ∈ before ↔ Reach g.successors g.startNode v ∧ v ≠ g.startNode := by
    intro v
    rw [← h.mem_iff, hout, mem_append, mem_singleton]
    constructor
    · exact fun hv => ⟨.inl hv, hnodup.2.2 v hv _ mem_cons_self⟩
    · rintro ⟨hv | rfl, hne⟩
      exacts [hv, absurd rfl hne]
  refine ⟨nodup_reverse.2 hnodup.1, fun v => mem_reverse.trans (hmem v),
    fun pre w post hl v hv hlt => ?_, fun w hw => ?_⟩
  · have hl' : before = post.reverse ++ w :: pre.reverse := by
      have := congrArg reverse hl
      simpa using this
    have hsplit : out = post.reverse ++ w :: (pre.reverse ++ [g.startNode]) := by
      rw [hout, hl']
      simp
    have := mem_of_rank_lt hplace hsplit ((h.mem_iff v).2 hv) hlt
    rw [mem_append, mem_reverse, mem_singleton] at this
    exact this.symm
  · obtain ⟨hreach, hne⟩ := (hmem w).1 (mem_reverse.1 hw)
    obtain ⟨pre, post, p, hsplit, hp, hwp⟩ := (h.pred w ((h.mem_iff w).2 hreach)).resolve_left hne
    refine ⟨p, (h.mem_iff p).1 (by rw [hsplit]; simp [hp]), hwp, rank_lt_of_mem hplace hsplit hp⟩

end

/-! ## The queries -/

theorem domTree_start (hg : g.WF) :
    DomTree g rank ((replicate g.numNodes none).set g.startNode (some g.startNode)) := by
  have hlen : g.startNode < (replicate g.numNodes (none : Option Nat)).length := by
    rw [length_replicate]
    exact hg.start_lt
  have hidom : ∀ v p,
      Idom ((replicate g.numNodes none).set g.startNode (some g.startNode)) v p →
        v = g.startNode ∧ p = g.startNode := by
    intro v p hp
    by_cases hv : g.startNode = v
    · subst hv
      rw [Idom, getElem?_set_self hlen] at hp
      cases hp
      exact ⟨rfl, rfl⟩
    · rw [Idom, getElem?_set_ne hv, getElem?_replicate] at hp
      split at hp <;> cases hp
  refine ⟨length_set.trans length_replicate, getElem?_set_self hlen, ?_, ?_, ?_⟩
  · rintro v ⟨p, hp⟩
    rw [(hidom v p hp).1]
  · exact fun v p hp hv => absurd (hidom v p hp).1 hv
  · exact fun v p hp hv => absurd (hidom v p hp).1 hv

namespace Exact

variable {d : Dominators} {v p : Nat}

theorem isReachable (h : Exact g rank d.immediateDominators) (hv : v < g.numNodes) :
    ∃ r, d.isReachable v = .ok r ∧ (r = true ↔ Reach g.successors g.startNode v) := by
  have hlen : v < d.immediateDominators.length := h.tree.length ▸ hv
  refine ⟨d.immediateDominators[v].isSome, ?_, ?_⟩
  · simp [Dominators.isReachable, index, hlen]
  · rw [isSome_iff_exists]
    constructor
    · rintro ⟨p, hp⟩
      exact h.tree.reach v ⟨p, by rw [Idom, getElem?_eq_getElem hlen, hp]⟩
    · intro hreach
      obtain ⟨p, hp⟩ := h.known v hreach
      rw [Idom, getElem?_eq_getElem hlen] at hp
      exact ⟨p, some_inj.1 hp⟩

theorem assertReachable (hp : Idom d.immediateDominators v p) : d.assertReachable v = .ok () := by
  rw [Dominators.assertReachable, Dominators.isReachable, index, hp]
  rfl

theorem immediateDominator (hp : Idom d.immediateDominators v p) :
    d.immediateDominator v = .ok p := by
  rw [Dominators.immediateDominator, assertReachable hp, index, hp]
  rfl

theorem anyDominator_spec (h : DomTree g rank d.immediateDominators) (hrank : Ranked g rank)
    (dom : Nat) : ∀ {n v : Nat}, Known d.immediateDominators v →
      g.numNodes - rankOf rank v < n →
      ∃ r, d.anyDominator dom n (some v) = .ok r ∧
        (r = true ↔ Anc d.immediateDominators v dom)
  | 0, _, _, hn => absurd hn (Nat.not_lt_zero _)
  | n + 1, v, hv, hn => by
    obtain ⟨p, hp⟩ := hv
    have hlt := (hrank.lt v (h.reach v ⟨p, hp⟩)).2
    have hnext : d.next (some v) = .ok (some (v, if p = v then none else some p)) := by
      rw [next, immediateDominator hp]
      rfl
    rw [anyDominator, hnext, ok_bind]
    dsimp only
    by_cases hdom : v = dom
    · subst hdom
      exact ⟨true, if_pos rfl, iff_of_true rfl .refl⟩
    · rw [if_neg hdom]
      by_cases hstart : v = g.startNode
      · -- The root of the tree: nothing is left above it.
        subst hstart
        obtain rfl := hp.unique h.start
        refine ⟨false, ?_, iff_of_false Bool.false_ne_true fun hanc => ?_⟩
        · obtain ⟨m, rfl⟩ : ∃ m, n = m + 1 := ⟨n - 1, by omega⟩
          rw [if_pos rfl]
          rfl
        · exact hdom (h.anc_start hanc).symm
      · obtain ⟨hup, hknown⟩ := h.up v p hp hstart
        have hne : p ≠ v := fun heq => lt_irrefl _ (heq ▸ hup)
        obtain ⟨r, hrun, hiff⟩ := anyDominator_spec h hrank dom (n := n) hknown (by omega)
        refine ⟨r, by rw [if_neg hne, hrun], hiff.trans ⟨.head hp, fun hanc => ?_⟩⟩
        rcases hanc.cases_head with heq | ⟨q, hq, hanc⟩
        · exact absurd heq hdom
        · exact hp.unique hq ▸ hanc

theorem isDominatedBy (h : Exact g rank d.immediateDominators) (hrank : Ranked g rank)
    (hv : Reach g.successors g.startNode v) (dom : Nat) : ∃ r, d.isDominatedBy v dom = .ok r ∧
      (r = true ↔ Dominates g.successors g.startNode dom v) := by
  obtain ⟨p, hp⟩ := h.known v hv
  obtain ⟨r, hrun, hiff⟩ := anyDominator_spec h.tree hrank dom
    (n := d.immediateDominators.length + 1) ⟨p, hp⟩ (by rw [h.tree.length]; omega)
  refine ⟨r, ?_, hiff.trans (h.anc_iff hrank hv)⟩
  rw [Dominators.isDominatedBy, assertReachable hp, ok_bind, hrun]

end Exact

end Dominators

theorem dominators_exact (g : ControlFlowGraph) (hg : g.WF) :
    ∃ k, ∀ n ≥ k, ∃ d rank, dominators n g = .ok d ∧ Dominators.Ranked g rank ∧
      Dominators.Exact g rank d.immediateDominators := by
  obtain ⟨out, hpost, hout⟩ := postOrderFrom_spec hg hg.start_lt
  obtain ⟨before, hsplit⟩ := hout.last
  obtain ⟨rank, hranks, hlen, hplace⟩ := Dominators.ranks_spec hout.nodup hout.lt
  have hrank := Dominators.ranked_of_postOrdered hout hlen hplace
  have horder := Dominators.order_of_postOrdered hout hplace hsplit
  obtain ⟨k, hk⟩ := Dominators.exists_exact g hrank
  refine ⟨k + 2, fun n hn => ?_⟩
  obtain ⟨idoms, hrun, hexact⟩ := Dominators.passes_spec hg hrank horder hk (n := n) (j := 0)
    (Dominators.domTree_start hg) (fun v p _ => within_zero v p) (.inl rfl) (by omega)
  refine ⟨⟨rank, idoms⟩, rank, ?_, hrank, hexact⟩
  have hrpo : out.reverse = g.startNode :: before.reverse := by
    rw [hsplit]
    simp
  have hstart : Dominators.assign (replicate g.numNodes none) g.startNode (some g.startNode) =
      .ok ((replicate g.numNodes none).set g.startNode (some g.startNode)) := by
    simp [Dominators.assign, Dominators.index, hg.start_lt]
  rw [dominators, reversePostOrder, hpost, ok_bind, ok_bind, dominatorsGivenRpo,
    reverse_reverse, hranks, hstart, hrpo]
  simp [Dominators.index, assert, hrun]

/-- On every control-flow graph the algorithm ends. The nodes that it calls reachable are those that
can be reached from the start node; a reachable node is dominated by the nodes that lie on every path
to it; and its immediate dominator is its closest strict dominator. -/
theorem dominators_correct (g : ControlFlowGraph) (hg : g.WF) :
    ∃ k, ∀ n ≥ k, ∃ d, dominators n g = .ok d ∧ (∀ v < g.numNodes, ∃ r, d.isReachable v = .ok r ∧
        (r = true ↔ Reach g.successors g.startNode v)) ∧
      (∀ v, Reach g.successors g.startNode v → ∀ u, ∃ r, d.isDominatedBy v u = .ok r ∧
        (r = true ↔ ∀ path, IsPath g.successors g.startNode v path → u ∈ path)) ∧
      d.immediateDominator g.startNode = .ok g.startNode ∧
      ∀ v, Reach g.successors g.startNode v → v ≠ g.startNode →
        ∃ p, d.immediateDominator v = .ok p ∧ ∀ q, q = p ↔ q ≠ v ∧
          Dominates g.successors g.startNode q v ∧
          ∀ u, u ≠ v → Dominates g.successors g.startNode u v →
            Dominates g.successors g.startNode u q := by
  obtain ⟨k, hk⟩ := dominators_exact g hg
  refine ⟨k, fun n hn => ?_⟩
  obtain ⟨d, rank, hrun, hrank, hexact⟩ := hk n hn
  refine ⟨d, hrun, fun v hv => hexact.isReachable hv, fun v hv u => ?_,
    Dominators.Exact.immediateDominator hexact.tree.start, fun v hv hstart => ?_⟩
  · obtain ⟨r, hr, hiff⟩ := hexact.isDominatedBy hrank hv u
    exact ⟨r, hr, hiff.trans dominates_iff_path⟩
  · obtain ⟨p, hp⟩ := hexact.known v hv
    refine ⟨p, Dominators.Exact.immediateDominator hp, fun q => ?_⟩
    rw [← hexact.idom_iff hrank hv hstart]
    exact ⟨fun heq => heq ▸ hp, fun hq => hq.unique hp⟩

/-- An irreducible graph with a node that cannot be reached. -/
def ControlFlowGraph.sample : ControlFlowGraph where
  numNodes := 5
  startNode := 0
  successors u := ([[1, 2], [2, 3], [1], [], [3]] : List (List Nat))[u]?.getD []
  predecessors v := ([[], [0, 2], [0, 1], [1, 4], []] : List (List Nat))[v]?.getD []

theorem ControlFlowGraph.sample_wf : sample.WF where
  start_lt := by decide
  successors_lt := by decide
  predecessors_lt := by decide
  agree := by decide

theorem dominators_correct_sample : ∃ k, ∀ n ≥ k, ∃ d, dominators n .sample = .ok d ∧
      (∀ v < sample.numNodes, ∃ r, d.isReachable v = .ok r ∧
        (r = true ↔ Reach sample.successors 0 v)) ∧
      (∀ v, Reach sample.successors 0 v → ∀ u, ∃ r, d.isDominatedBy v u = .ok r ∧
          (r = true ↔ ∀ path, IsPath sample.successors 0 v path → u ∈ path)) ∧
      d.immediateDominator 0 = .ok 0 ∧ ∀ v, Reach sample.successors 0 v → v ≠ 0 →
        ∃ p, d.immediateDominator v = .ok p ∧ ∀ q, q = p ↔ q ≠ v ∧
          Dominates sample.successors 0 q v ∧ ∀ u, u ≠ v → Dominates sample.successors 0 u v →
            Dominates sample.successors 0 u q :=
  dominators_correct .sample sample_wf

end Tortis
