import Tortis.DataStructures.SccWalk
import Mathlib.Data.List.Sort

/-!
# Graphs as vectors, and the graph of the components reversed

`librustc_data_structures/graph/vec_graph/mod.rs`: the edges are sorted by their source, and for each
node the place of its first edge is kept. The successors of a node are the slice between its place
and that of the next node (`successors_spec`). `Sccs::reverse` is such a graph over the components.
-/

namespace Tortis

open Outcome List Bool

/-! ## Prefixes of sorted lists -/

section
variable {α : Type} {p : α → Bool} {l : List α}

section
variable (h : l.Pairwise fun a b => p b → p a)
include h

theorem filter_append_filter_not : l.filter p ++ l.filter (fun a => !p a) = l := by
  induction l with
  | nil => rfl
  | cons a l ih =>
    obtain ⟨ha, hl⟩ := pairwise_cons.1 h
    cases hpa : p a with
    | true => simp [hpa, ih hl]
    | false =>
      have hnone : ∀ b ∈ l, p b = false := fun b hb => by
        by_contra hpb
        rw [ha b hb (by simpa using hpb)] at hpa
        cases hpa
      rw [filter_eq_nil_iff.2, nil_append, filter_eq_self.2]
      · simpa [hpa] using hnone
      · simpa [hpa] using hnone

theorem take_countP : l.take (l.countP p) = l.filter p := by
  have hsplit := filter_append_filter_not h
  rw [countP_eq_length_filter]
  exact (congrArg (List.take _) hsplit.symm).trans (take_left' rfl)

theorem drop_countP : l.drop (l.countP p) = l.filter fun a => !p a := by
  have hsplit := filter_append_filter_not h
  rw [countP_eq_length_filter]
  exact (congrArg (List.drop _) hsplit.symm).trans (drop_left' rfl)

end

end

structure VecGraph where
  nodeStarts : List Nat
  edgeTargets : List Nat

namespace VecGraph

/-- The order of the pairs that `sort` uses. -/
def pairLe (a b : Nat × Nat) : Bool := a.1 < b.1 || (a.1 == b.1 && a.2 ≤ b.2)

/-- The loop that pushes `index` until there is an entry for `source`. -/
def growStarts (nodeStarts : List Nat) (source index : Nat) : List Nat :=
  nodeStarts ++ replicate (source + 1 - nodeStarts.length) index

/-- The loop over the sorted edges, from a place on. -/
def fillStarts (nodeStarts : List Nat) (index : Nat) : List (Nat × Nat) → List Nat
  | [] => nodeStarts
  | (source, _) :: edgePairs =>
    fillStarts (growStarts nodeStarts source index) (index + 1) edgePairs

def new (numNodes : Nat) (edgePairs : List (Nat × Nat)) : Outcome VecGraph := do
  let edgePairs := edgePairs.mergeSort pairLe
  let edgeTargets := edgePairs.map Prod.snd
  let nodeStarts := growStarts (fillStarts [] 0 edgePairs) numNodes edgeTargets.length
  assert (nodeStarts.length = numNodes + 1) "assertion failed: `(left == right)`"
  .ok ⟨nodeStarts, edgeTargets⟩

def successors (g : VecGraph) (source : Nat) : Outcome (List Nat) := do
  let startIndex ← expect "index out of bounds" g.nodeStarts[source]?
  let endIndex ← expect "index out of bounds" g.nodeStarts[source + 1]?
  assert (startIndex ≤ endIndex ∧ endIndex ≤ g.edgeTargets.length) "slice out of range"
  .ok ((g.edgeTargets.take endIndex).drop startIndex)

/-! ## The places of the first edges -/

theorem pairwise_sorted (edgePairs : List (Nat × Nat)) :
    (edgePairs.mergeSort pairLe).Pairwise fun a b => a.1 ≤ b.1 := by
  refine (pairwise_mergeSort ?_ ?_ edgePairs).imp ?_
  · intro a b c hab hbc
    simp only [pairLe, or_eq_true, Bool.and_eq_true, decide_eq_true_eq, beq_iff_eq] at *
    omega
  · intro a b
    simp only [pairLe, or_eq_true, Bool.and_eq_true, decide_eq_true_eq, beq_iff_eq]
    omega
  · intro a b hab
    simp only [pairLe, or_eq_true, Bool.and_eq_true, decide_eq_true_eq, beq_iff_eq] at hab
    omega

/-- The entries are the numbers of edges from smaller sources. -/
def Places (edges : List (Nat × Nat)) (starts : List Nat) : Prop :=
  ∀ i < starts.length, starts[i]? = some (edges.countP fun e => e.1 < i)

theorem Places.grow {edges : List (Nat × Nat)} {starts : List Nat} (h : Places edges starts)
    {source index : Nat} (hindex : ∀ i, starts.length ≤ i → i ≤ source →
      (edges.countP fun e => e.1 < i) = index) : Places edges (growStarts starts source index) := by
  intro i hi
  rw [growStarts] at hi ⊢
  rcases lt_or_ge i starts.length with hlt | hge
  · rw [getElem?_append_left hlt, h i hlt]
  · rw [length_append, length_replicate] at hi
    rw [getElem?_append_right hge, getElem?_replicate_of_lt (by omega), hindex i hge (by omega)]

theorem length_growStarts (starts : List Nat) (source index : Nat) :
    (growStarts starts source index).length = max starts.length (source + 1) := by
  rw [growStarts, length_append, length_replicate]
  omega

theorem fillStarts_spec {edges : List (Nat × Nat)} (hsorted : edges.Pairwise fun a b => a.1 ≤ b.1) :
    ∀ (post pre : List (Nat × Nat)) (starts : List Nat), edges = pre ++ post →
      Places edges starts → (∀ e ∈ pre, e.1 < starts.length) →
      ∀ m, starts.length ≤ m → (∀ e ∈ edges, e.1 < m) →
      Places edges (fillStarts starts pre.length post) ∧
        (∀ e ∈ edges, e.1 < (fillStarts starts pre.length post).length) ∧
        (fillStarts starts pre.length post).length ≤ m
  | [], pre, starts, hedges, hplaces, hpre, m, hm, _ => by
    rw [append_nil] at hedges
    subst hedges
    exact ⟨hplaces, hpre, hm⟩
  | (source, target) :: post, pre, starts, hedges, hplaces, hpre, m, hm, hall => by
    have hsource : source < m := hall (source, target) (by rw [hedges]; simp)
    have hge : ∀ e ∈ post, source ≤ e.1 := fun e he => by
      rw [hedges] at hsorted
      exact (pairwise_cons.1 (pairwise_append.1 hsorted).2.1).1 e he
    have hcount : ∀ i, starts.length ≤ i → i ≤ source →
        (edges.countP fun e => e.1 < i) = pre.length := fun i hi his => by
      have h1 : pre.countP (fun e => e.1 < i) = pre.length :=
        countP_eq_length.2 fun e he => decide_eq_true ((hpre e he).trans_le hi)
      have h2 : post.countP (fun e => e.1 < i) = 0 :=
        countP_eq_zero.2 fun e he => by
          have := hge e he
          simp only [decide_eq_true_eq]
          omega
      rw [hedges, countP_append, h1, countP_cons, h2]
      simp only [decide_eq_true_eq]
      rw [if_neg (by omega)]
      rfl
    have hlen := length_growStarts starts source pre.length
    have h := fillStarts_spec hsorted post (pre ++ [(source, target)])
      (growStarts starts source pre.length) (by rw [hedges]; simp) (hplaces.grow hcount)
      (fun e he => by
        rw [hlen]
        rcases mem_append.1 he with he | he
        · exact (hpre e he).trans_le (le_max_left _ _)
        · rw [mem_singleton.1 he]
          exact (Nat.lt_succ_self _).trans_le (le_max_right _ _))
      m (by rw [hlen]; exact max_le hm hsource) hall
    rw [length_append] at h
    exact h

theorem new_spec {numNodes : Nat} {edgePairs : List (Nat × Nat)}
    (h : ∀ e ∈ edgePairs, e.1 < numNodes) :
    ∃ g, VecGraph.new numNodes edgePairs = .ok g ∧ ∀ s < numNodes,
      g.successors s = .ok (((edgePairs.mergeSort pairLe).filter (·.1 = s)).map Prod.snd) := by
  have hsorted := pairwise_sorted edgePairs
  generalize hedges : edgePairs.mergeSort pairLe = edges at hsorted
  have hlt : ∀ e ∈ edges, e.1 < numNodes := fun e he => by
    rw [← hedges] at he
    exact h e (mem_mergeSort.1 he)
  obtain ⟨hplaces, hsource, hlen⟩ := fillStarts_spec hsorted edges [] [] rfl
    (fun i hi => absurd hi (Nat.not_lt_zero i)) nofun numNodes (Nat.zero_le _) hlt
  have hgrow : Places edges
      (growStarts (fillStarts [] 0 edges) numNodes (edges.map Prod.snd).length) := by
    refine hplaces.grow fun i hi _ => ?_
    rw [length_map]
    exact countP_eq_length.2 fun e he => decide_eq_true ((hsource e he).trans_le hi)
  have hglen : (growStarts (fillStarts [] 0 edges) numNodes (edges.map Prod.snd).length).length =
      numNodes + 1 := by
    rw [length_growStarts]
    exact max_eq_right (hlen.trans (Nat.le_succ _))
  refine ⟨⟨growStarts (fillStarts [] 0 edges) numNodes (edges.map Prod.snd).length,
    edges.map Prod.snd⟩, ?_, fun s hs => ?_⟩
  · rw [VecGraph.new, hedges, assert, if_pos (decide_eq_true hglen), ok_bind]
  · have hmono (i : Nat) : edges.Pairwise fun a b => decide (b.1 < i) → decide (a.1 < i) :=
      hsorted.imp fun hab hb => decide_eq_true (hab.trans_lt (of_decide_eq_true hb))
    have hle : (edges.countP fun e => e.1 < s) ≤ edges.countP fun e => e.1 < s + 1 :=
      countP_mono_left fun e _ he => decide_eq_true
        ((of_decide_eq_true he).trans (Nat.lt_succ_self s))
    have htotal : (edges.countP fun e => e.1 < s + 1) ≤ (edges.map Prod.snd).length := by
      rw [length_map]
      exact countP_le_length
    rw [successors, hgrow s (by omega), hgrow (s + 1) (by omega)]
    simp only [expect_some, ok_bind]
    rw [assert, if_pos (decide_eq_true ⟨hle, htotal⟩), ok_bind]
    rw [← map_take, ← map_drop, take_countP (hmono (s + 1))]
    have hcount : (edges.countP fun e => e.1 < s) =
        (edges.filter fun e => e.1 < s + 1).countP fun e => e.1 < s := by
      rw [countP_filter]
      refine countP_congr fun e _ => ?_
      simp only [decide_eq_true_eq, Bool.and_eq_true]
      omega
    rw [hcount, drop_countP ((hmono s).filter _), filter_filter]
    refine congrArg Except.ok (congrArg (List.map Prod.snd) (filter_congr fun e _ => ?_))
    rw [Bool.eq_iff_iff]
    simp only [Bool.and_eq_true, Bool.not_eq_true', decide_eq_false_iff_not, decide_eq_true_eq]
    omega

end VecGraph

/-! ## The components and their reverse -/

namespace Sccs

def reverse (sccs : Sccs) : Outcome VecGraph := do
  let edges ← (range sccs.numSccs).mapM fun source => do
    let targets ← sccs.successors source
    .ok (targets.map fun target => (target, source))
  VecGraph.new sccs.numSccs edges.flatten

/-- The successors of a component, as a total function. -/
def successorsOf (sccs : Sccs) (s : Nat) : List Nat :=
  match sccs.successors s with
  | .ok l => l
  | .error _ => []

variable {sccs : Sccs} {n : Nat} {succ : Nat → List Nat}

theorem Correct.successors_eq (h : sccs.Correct n succ) {s : Nat} (hs : s < sccs.numSccs) :
    sccs.successors s = .ok (sccs.successorsOf s) := by
  obtain ⟨l, hl⟩ := h.successors_ok s hs
  rw [successorsOf, hl]

theorem Correct.next_iff (h : sccs.Correct n succ) {s t : Nat} :
    sccs.Next s t ↔ t ≠ s ∧ ∃ a < n, ∃ b ∈ succ a, sccs.index a = s ∧ sccs.index b = t := by
  constructor
  · intro hnext
    obtain ⟨a, ha, b, hs, hb, ht⟩ := h.condensed.next_edge s t hnext
    exact ⟨(h.condensed.next_lt s t hnext).ne, a, ha, b, hb, hs, ht⟩
  · rintro ⟨hne, a, ha, b, hb, rfl, rfl⟩
    exact (h.condensed.edge_next a ha b hb).resolve_left fun heq => hne heq.symm

theorem Correct.reverse_spec (h : sccs.Correct n succ) :
    ∃ g, sccs.reverse = .ok g ∧ ∀ t < sccs.numSccs, ∃ l, g.successors t = .ok l ∧ l.Nodup ∧
      ∀ s, s ∈ l ↔ sccs.Next s t := by
  let edges := ((range sccs.numSccs).map fun source =>
    (sccs.successorsOf source).map fun target => (target, source)).flatten
  have hmem {s t : Nat} : (t, s) ∈ edges ↔ sccs.Next s t := by
    simp only [edges, mem_flatten, mem_map, mem_range]
    constructor
    · rintro ⟨_, ⟨source, hs, rfl⟩, ht⟩
      obtain ⟨target, ht, heq⟩ := mem_map.1 ht
      cases heq
      exact ⟨_, h.successors_eq hs, ht⟩
    · rintro ⟨l, hl, ht⟩
      have hs := Scc.SccData.successors_lt hl
      refine ⟨_, ⟨s, hs, rfl⟩, mem_map.2 ⟨t, ?_, rfl⟩⟩
      rwa [successorsOf, hl]
  have hnodup : edges.Nodup := by
    refine nodup_flatten.2 ⟨fun l hl => ?_, ?_⟩
    · obtain ⟨source, hs, rfl⟩ := mem_map.1 hl
      refine (h.nodup source _ (h.successors_eq (mem_range.1 hs))).map fun a b hab => ?_
      exact (Prod.mk.inj hab).1
    · refine pairwise_map.2 (nodup_range.imp_of_mem ?_)
      intro s s' _ _ hne x hx hx'
      obtain ⟨t, -, rfl⟩ := mem_map.1 hx
      obtain ⟨t', -, heq⟩ := mem_map.1 hx'
      exact hne (Prod.mk.inj heq).2.symm
  have hlt : ∀ e ∈ edges, e.1 < sccs.numSccs := fun ⟨t, s⟩ he => by
    obtain ⟨l, hl, ht⟩ := hmem.1 he
    exact (h.condensed.next_lt s t ⟨l, hl, ht⟩).trans (Scc.SccData.successors_lt hl)
  obtain ⟨g, hg, hsucc⟩ := VecGraph.new_spec hlt
  refine ⟨g, ?_, fun t ht => ⟨_, hsucc t ht, ?_, fun s => ?_⟩⟩
  · rw [reverse, mapM_eq_ok fun s hs => ?_, ok_bind]
    · exact hg
    · rw [h.successors_eq (mem_range.1 hs), ok_bind]
  · have hsorted : (edges.mergeSort VecGraph.pairLe).Nodup :=
      (mergeSort_perm edges _).nodup_iff.2 hnodup
    refine (hsorted.filter _).map_on fun a ha b hb hab => ?_
    have ha := of_decide_eq_true (mem_filter.1 ha).2
    have hb := of_decide_eq_true (mem_filter.1 hb).2
    exact Prod.ext (ha.trans hb.symm) hab
  · rw [← hmem, mem_map]
    constructor
    · rintro ⟨⟨t', s'⟩, he, rfl⟩
      obtain ⟨he, ht⟩ := mem_filter.1 he
      rw [← show t' = t from of_decide_eq_true ht]
      exact mem_mergeSort.1 he
    · intro he
      exact ⟨(t, s), mem_filter.2 ⟨mem_mergeSort.2 he, decide_eq_true rfl⟩, rfl⟩

/-- The construction returns for every graph. Two nodes are in one component exactly when each can
be reached from the other; the successors of a component are the other components that its edges
lead to, each once, and have smaller indices; the reverse has these edges the other way. -/
theorem new_components {graph : DirectedGraph} {succ : Nat → List Nat}
    (hgraph : graph.HasSuccessors succ) : ∃ sccs, Sccs.new graph = .ok sccs ∧
      (∀ a < graph.numNodes, ∀ b < graph.numNodes, ∃ s t, sccs.scc a = .ok s ∧
        sccs.scc b = .ok t ∧ (s = t ↔ Reach succ a b ∧ Reach succ b a)) ∧
      (∀ s, s < sccs.numSccs ↔ ∃ a < graph.numNodes, sccs.scc a = .ok s) ∧
      (∀ s < sccs.numSccs, ∃ l, sccs.successors s = .ok l ∧ l.Nodup ∧ ∀ t, t ∈ l ↔ t ≠ s ∧
        ∃ a < graph.numNodes, ∃ b ∈ succ a, sccs.scc a = .ok s ∧ sccs.scc b = .ok t) ∧
      (∀ s l, sccs.successors s = .ok l → ∀ t ∈ l, t < s) ∧
      ∃ rev, sccs.reverse = .ok rev ∧ ∀ t < sccs.numSccs, ∃ l, rev.successors t = .ok l ∧
        l.Nodup ∧ ∀ s, s ∈ l ↔ ∃ l', sccs.successors s = .ok l' ∧ t ∈ l' := by
  obtain ⟨sccs, hnew, h⟩ := new_correct hgraph
  have hscc {a s : Nat} (ha : a < graph.numNodes) : sccs.scc a = .ok s ↔ sccs.index a = s := by
    rw [h.scc_eq a ha]
    exact ⟨Except.ok.inj, congrArg _⟩
  refine ⟨sccs, hnew, fun a ha b hb => ?_, fun s => ?_, fun s hs => ?_, fun s l hl t ht => ?_,
    h.reverse_spec⟩
  · exact ⟨_, _, h.scc_eq a ha, h.scc_eq b hb, h.condensed.idx_eq_iff ha hb⟩
  · rw [h.used]
    exact exists_congr fun a => and_congr_right fun ha => (hscc ha).symm
  · refine ⟨_, h.successors_eq hs, h.nodup s _ (h.successors_eq hs), fun t => ?_⟩
    have hnext : t ∈ sccs.successorsOf s ↔ sccs.Next s t := by
      refine ⟨fun ht => ⟨_, h.successors_eq hs, ht⟩, fun ⟨l, hl, ht⟩ => ?_⟩
      rwa [successorsOf, hl]
    rw [hnext, h.next_iff]
    refine and_congr_right fun _ => exists_congr fun a => and_congr_right fun ha => ?_
    refine exists_congr fun b => and_congr_right fun hb => ?_
    rw [hscc ha, hscc (hgraph.closed a ha b hb)]
  · exact h.condensed.next_lt s t ⟨l, hl, ht⟩

/-- The graph with a cycle of two nodes, a self loop and parallel edges to a third node. -/
theorem new_components_sample : ∃ sccs, Sccs.new
    ⟨3, fun v => .ok (([[1, 1], [0, 1, 2, 2], []] : List (List Nat)).getD v [])⟩ = .ok sccs ∧
    ∃ s t, sccs.scc 0 = .ok s ∧ sccs.scc 1 = .ok t ∧ s = t := by
  have hgraph : DirectedGraph.HasSuccessors
      ⟨3, fun v => .ok (([[1, 1], [0, 1, 2, 2], []] : List (List Nat)).getD v [])⟩
      fun v => ([[1, 1], [0, 1, 2, 2], []] : List (List Nat)).getD v [] :=
    ⟨fun v _ => rfl, by decide⟩
  obtain ⟨sccs, hnew, hsame, -⟩ := new_components hgraph
  obtain ⟨s, t, hs, ht, heq⟩ := hsame 0 (by decide) 1 (by decide)
  refine ⟨sccs, hnew, s, t, hs, ht, heq.2 ⟨.single ?_, .single ?_⟩⟩ <;> decide

end Sccs

end Tortis
