import Tortis.DepGraph.Graph

/-!
# What a node that gets an index keeps

The invariant of the current graph and the colours, and the two ways they change: a node that no
previous session knew is interned, or a previous node is interned and coloured (`record`). Both only
extend what is there, so what was read of it stays true.
-/

namespace Tortis.DepGraph

open List

variable {serialized : SerializedDepGraph}

/-! ## The previous graph -/

variable {depNode : DepNode}

theorem indexToNode_of_nodeToIndexOpt {i : Nat}
    (h : (PreviousDepGraph.new serialized).nodeToIndexOpt depNode = some i) :
    (PreviousDepGraph.new serialized).indexToNode i = .ok depNode := by
  obtain ⟨l1, l2, hsplit, -⟩ := lookup_eq_some_iff.1 h
  have hmem : (depNode, i) ∈ serialized.nodes.zipIdx := by
    rw [← mem_reverse, show serialized.nodes.zipIdx.reverse = _ from hsplit]
    exact mem_append_right l1 mem_cons_self
  exact index_eq_ok.2 (mk_mem_zipIdx_iff_getElem?.1 hmem)

theorem nodeToIndexOpt_of_indexToNode (hnodup : serialized.nodes.Nodup) {i : Nat}
    (h : (PreviousDepGraph.new serialized).indexToNode i = .ok depNode) :
    (PreviousDepGraph.new serialized).nodeToIndexOpt depNode = some i := by
  have hi : serialized.nodes[i]? = some depNode := index_eq_ok.1 h
  cases hlookup : (PreviousDepGraph.new serialized).nodeToIndexOpt depNode with
  | none =>
    have hmem : (depNode, i) ∈ serialized.nodes.zipIdx.reverse :=
      mem_reverse.2 (mk_mem_zipIdx_iff_getElem?.2 hi)
    have := lookup_eq_none_iff.1 hlookup _ hmem
    simp at this
  | some j =>
    have hj : serialized.nodes[j]? = some depNode :=
      index_eq_ok.1 (indexToNode_of_nodeToIndexOpt hlookup)
    have hlt := (List.getElem?_eq_some_iff.1 hj).1
    rw [(List.getElem?_inj hlt hnodup).1 (hj.trans hi.symm)]

/-! ## The current graph -/

/-- The invariant of the current graph and the colours. -/
structure DataInv (previous : PreviousDepGraph) (data : DepGraphData) : Prop where
  /-- The index of a node is where the node stands. -/
  get : ∀ {n} {k : Nat}, data.current.get n = some k → ∃ d, data.current.data[k]? = some d ∧ d.node = n
  /-- What stands at an index is a node with that index. -/
  node : ∀ {k : Nat} {d}, data.current.data[k]? = some d → data.current.get d.node = some k
  /-- A previous node that has an index has a colour. -/
  interned : ∀ {i n k}, previous.indexToNode i = .ok n → data.current.get n = some k →
    data.colors.get i ≠ .ok none
  /-- A green node has the index of its colour and the fingerprint it had. -/
  green : ∀ {i} {k : Nat}, data.colors.get i = .ok (some (.green k)) → ∃ n d,
    previous.indexToNode i = .ok n ∧ data.current.get n = some k ∧
      data.current.data[k]? = some d ∧ previous.fingerprintByIndex i = .ok d.fingerprint

/-- What is known of the nodes stays. -/
structure Extends (data data' : DepGraphData) : Prop where
  get : ∀ {n k}, data.current.get n = some k → data'.current.get n = some k
  node : ∀ {k : Nat} {d}, data.current.data[k]? = some d → data'.current.data[k]? = some d
  colors : ∀ {i c}, data.colors.get i = .ok (some c) → data'.colors.get i = .ok (some c)

/-- Dependencies that are green, and the indices of their colours. -/
def GreenEdges (data : DepGraphData) (deps edges : List Nat) : Prop :=
  List.Forall₂ (fun dep edge => data.colors.get dep = .ok (some (.green edge))) deps edges

variable {deps edges : List Nat}

theorem GreenEdges.mono {data data' : DepGraphData}
    (hext : Extends data data') (h : GreenEdges data deps edges) : GreenEdges data' deps edges :=
  List.Forall₂.imp (fun _ _ hcolor => hext.colors hcolor) h

theorem GreenEdges.concat {data : DepGraphData} {dep edge : Nat}
    (h : GreenEdges data deps edges) (hdep : data.colors.get dep = .ok (some (.green edge))) :
    GreenEdges data (deps ++ [dep]) (edges ++ [edge]) :=
  rel_append h (.cons hdep .nil)

theorem dataInv_new (previous : PreviousDepGraph) (size : Nat) :
    DataInv previous ⟨CurrentDepGraph.new, DepNodeColorMap.new size⟩ where
  get h := nomatch h
  node h := nomatch h
  interned _ h := nomatch h
  green h := nomatch get_new h

section
variable {previous : PreviousDepGraph} {data : DepGraphData} {current : CurrentDepGraph}
  {depNode : DepNode} {edges : List Nat} {fingerprint : Fingerprint} {k : Nat}
  (hinv : DataInv previous data) (hnew : data.current.get depNode = none)
  (h : data.current.internNode depNode edges fingerprint = .ok (k, current))
include hinv hnew h

theorem intern_current :
    (∀ {n} {j : Nat}, current.get n = some j → ∃ d, current.data[j]? = some d ∧ d.node = n) ∧
      (∀ {j : Nat} {d}, current.data[j]? = some d → current.get d.node = some j) ∧
      (∀ {n j}, data.current.get n = some j → current.get n = some j) ∧
      ∀ {j : Nat} {d}, data.current.data[j]? = some d → current.data[j]? = some d := by
  obtain ⟨rfl, hdata, hself, hne⟩ := internNode_new hnew h
  have hold : ∀ {n j}, data.current.get n = some j → current.get n = some j := by
    intro n j hn
    rw [hne n fun heq => ?_, hn]
    rw [heq, hnew] at hn
    cases hn
  have hkeep : ∀ {j : Nat} {d}, data.current.data[j]? = some d → current.data[j]? = some d := by
    intro j d hd
    rw [hdata, List.getElem?_append_left (List.getElem?_eq_some_iff.1 hd).1, hd]
  have hlast : current.data[data.current.data.length]? = some ⟨depNode, edges, fingerprint⟩ := by
    rw [hdata, getElem?_concat_length]
  refine ⟨fun {n j} hn => ?_, fun {j d} hd => ?_, hold, hkeep⟩
  · by_cases heq : n = depNode
    · rw [heq, hself] at hn
      cases hn
      exact ⟨_, hlast, heq.symm⟩
    · rw [hne n heq] at hn
      obtain ⟨d, hd, hnode⟩ := hinv.get hn
      exact ⟨d, hkeep hd, hnode⟩
  · rw [hdata, getElem?_append] at hd
    split at hd
    · exact hold (hinv.node hd)
    · have hj := (List.getElem?_eq_some_iff.1 hd).1
      obtain rfl : j = data.current.data.length := by
        simp only [length_singleton] at hj
        omega
      rw [Nat.sub_self, getElem?_cons_zero, Option.some.injEq] at hd
      rw [← hd, hself]

theorem intern_new (hprev : ∀ i, previous.indexToNode i ≠ .ok depNode) :
    DataInv previous ⟨current, data.colors⟩ ∧ Extends data ⟨current, data.colors⟩ := by
  obtain ⟨hget, hnode, hold, hkeep⟩ := intern_current hinv hnew h
  obtain ⟨-, -, -, hne⟩ := internNode_new hnew h
  refine ⟨⟨hget, hnode, fun {i n j} hi hn => ?_, fun {i j} hi => ?_⟩, ⟨hold, hkeep, id⟩⟩
  · exact hinv.interned hi ((hne n fun heq => hprev i (heq ▸ hi)) ▸ hn)
  · obtain ⟨n, d, hin, hn, hd, hf⟩ := hinv.green hi
    exact ⟨n, d, hin, hold hn, hkeep hd, hf⟩

theorem record {colors : DepNodeColorMap} {i : Nat} {color : DepNodeColor}
    (hinj : ∀ {j}, previous.indexToNode j = .ok depNode → j = i)
    (hi : previous.indexToNode i = .ok depNode) (hnone : data.colors.get i = .ok none)
    (hself : colors.get i = .ok (some color))
    (hother : ∀ j, i ≠ j → colors.get j = data.colors.get j)
    (hcolor : ∀ {j}, color = .green j → j = k ∧ previous.fingerprintByIndex i = .ok fingerprint) :
    DataInv previous ⟨current, colors⟩ ∧ Extends data ⟨current, colors⟩ ∧
      current.data[k]? = some ⟨depNode, edges, fingerprint⟩ := by
  obtain ⟨hget, hnode, hold, hkeep⟩ := intern_current hinv hnew h
  obtain ⟨rfl, hdata, hnewk, hne⟩ := internNode_new hnew h
  have hlast : current.data[data.current.data.length]? = some ⟨depNode, edges, fingerprint⟩ := by
    rw [hdata, getElem?_concat_length]
  refine ⟨⟨hget, hnode, fun {j n m} hj hn => ?_, fun {j m} hj => ?_⟩,
    ⟨hold, hkeep, fun {j c} hj => ?_⟩, hlast⟩
  · by_cases hij : i = j
    · rw [← hij, hself]
      nofun
    · rw [hother j hij]
      exact hinv.interned hj ((hne n fun heq => hij (hinj (heq ▸ hj)).symm) ▸ hn)
  · by_cases hij : i = j
    · subst hij
      rw [hself] at hj
      cases hj
      obtain ⟨rfl, hf⟩ := hcolor rfl
      exact ⟨depNode, _, hi, hnewk, hlast, hf⟩
    · rw [hother j hij] at hj
      obtain ⟨n, d, hin, hn, hd, hf⟩ := hinv.green hj
      exact ⟨n, d, hin, hold hn, hkeep hd, hf⟩
  · rw [hother j fun hij => ?_, hj]
    rw [← hij, hnone] at hj
    cases hj

end

end Tortis.DepGraph
