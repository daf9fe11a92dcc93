import Tortis.DataStructures.SccMarks
import Tortis.Lib.Condensation

/-!
# The components are the strongly connected components

`Inv` is what holds of the construction whenever a node is walked: the marks are represented, the
stack is a path, a node in the cycle of a stack node is on a cycle with it, and the components that
are done are strongly connected and closed. `Visited` says what a walk adds to the marks: what it
visits is done, or left to a cycle with all its successors accounted for.
-/

namespace Tortis

open Outcome List Function

structure DirectedGraph.HasSuccessors (graph : DirectedGraph) (succ : Nat → List Nat) : Prop where
  successors_eq : ∀ v < graph.numNodes, graph.successors v = .ok (succ v)
  closed : ∀ v < graph.numNodes, ∀ w ∈ succ v, w < graph.numNodes

namespace Scc

/-! ## The data about the components -/

variable {l : List Nat}

theorem mem_deduplicated {set : FxHashSet Nat} {i : Nat} :
    i ∈ deduplicated set l ↔ i ∈ l ∧ i ∉ set := by
  induction l generalizing set with
  | nil => simp [deduplicated]
  | cons a l ih =>
    rw [deduplicated]
    split
    · rename_i ha
      rw [ih, mem_cons]
      exact ⟨fun h => ⟨.inr h.1, h.2⟩, fun ⟨h, hs⟩ =>
        ⟨h.resolve_left fun heq => hs (heq ▸ ha), hs⟩⟩
    · rename_i ha
      rw [mem_cons, ih, FxHashSet.mem_insert, mem_cons]
      by_cases hia : i = a
      · subst hia
        simp [ha]
      · simp [hia]

theorem nodup_deduplicated (set : FxHashSet Nat) (l : List Nat) : (deduplicated set l).Nodup := by
  induction l generalizing set with
  | nil => exact .nil
  | cons a l ih =>
    rw [deduplicated]
    split
    · exact ih set
    · refine nodup_cons.2 ⟨fun h => ?_, ih _⟩
      exact (mem_deduplicated.1 h).2 (FxHashSet.mem_insert.2 (.inl rfl))

namespace SccData

/-- The ranges lie within the successors. -/
def Bounded (d : SccData) : Prop := ∀ r ∈ d.ranges, r.2 ≤ d.allSuccessors.length

variable {d : SccData} {s : Nat}

theorem successors_lt {l : List Nat} (h : d.successors s = .ok l) : s < d.len := by
  obtain ⟨r, hr, -⟩ := bind_eq_ok.1 h
  exact (List.getElem?_eq_some_iff.1 (expect_eq_ok.1 hr)).1

theorem exists_successors (hs : s < d.len) : ∃ l, d.successors s = .ok l := by
  rw [successors, getElem?_eq_getElem hs]
  exact ⟨_, rfl⟩

theorem createScc_successors_of_lt (hd : d.Bounded) (hs : s < d.len)
    (l : List Nat) : (d.createScc l).2.successors s = d.successors s := by
  obtain ⟨r, hr⟩ : ∃ r, d.ranges[s]? = some r := ⟨_, getElem?_eq_getElem hs⟩
  have hle := hd r (mem_of_getElem? hr)
  rw [successors, successors, createScc]
  rw [getElem?_append_left hs, hr]
  simp only [expect_some, ok_bind]
  rw [take_append_of_le_length hle]

theorem createScc_successors_len (d : SccData) (l : List Nat) :
    (d.createScc l).2.successors d.len = .ok l := by
  rw [successors, createScc, len]
  rw [getElem?_concat_length]
  simp only [expect_some, ok_bind, take_length, drop_left]

theorem createScc_len (d : SccData) (l : List Nat) : (d.createScc l).2.len = d.len + 1 := by
  rw [createScc, len, length_append]
  rfl

theorem Bounded.createScc (hd : d.Bounded) (l : List Nat) : (d.createScc l).2.Bounded := by
  intro r hr
  rw [SccData.createScc, length_append]
  rcases mem_append.1 hr with hr | hr
  · exact (hd r hr).trans (Nat.le_add_right _ _)
  · rw [mem_singleton.1 hr, length_append]

end SccData

/-! ## What holds whenever a node is walked -/

variable {succ : Nat → List Nat} {n : Nat} {c c' : SccsConstruction} {f f₁ f₂ : Nat → Mark}

/-- The invariant of the construction over `n` nodes, with the marks that its states stand for. -/
structure Inv (succ : Nat → List Nat) (n : Nat) (c : SccsConstruction) (f : Nat → Mark) :
    Prop where
  represents : Represents n c f
  path : c.nodeStack.Pairwise (Reach succ)
  cycle : ∀ v < n, ∀ d u : Nat, f v = .onStack d → c.nodeStack[d]? = some u →
    Reach succ v u ∧ Reach succ u v
  bounded : c.sccData.Bounded
  closed : ∀ v < n, ∀ s, f v = .done s → ∀ w ∈ succ v, ∃ t, f w = .done t ∧
    (t = s ∨ ∃ l, c.sccData.successors s = .ok l ∧ t ∈ l)
  same : ∀ v < n, ∀ w < n, ∀ s, f v = .done s → f w = .done s → Reach succ v w
  next : ∀ s l, c.sccData.successors s = .ok l → l.Nodup ∧ ∀ t ∈ l, t < s ∧
    ∃ v < n, ∃ w ∈ succ v, f v = .done s ∧ f w = .done t
  used : ∀ s, s < c.sccData.len ↔ ∃ v < n, f v = .done s

/-- A successor is accounted for: it is left to a cycle no deeper than `m` of the stack, or done in
one of the components `l`. -/
def Accounted (f : Nat → Mark) (m : Nat) (l : List Nat) (w : Nat) : Prop :=
  (∃ d, m ≤ d ∧ f w = .onStack d) ∨ ∃ s ∈ l, f w = .done s

/-- What a walk makes of the marks `f`: what it visits is done, or it is left to a cycle with all
its successors accounted for, and the components `l` are those that the latter lead to. -/
structure Visited (succ : Nat → List Nat) (n : Nat) (f f' : Nat → Mark) (m : Nat) (l : List Nat) :
    Prop where
  frame : ∀ v < n, f v ≠ .notVisited → f' v = f v
  new : ∀ v < n, f v = .notVisited → f' v = .notVisited ∨ (∃ s, f' v = .done s) ∨
    ∃ d, m ≤ d ∧ f' v = .onStack d ∧ ∀ w ∈ succ v, Accounted f' m l w
  sound : ∀ s ∈ l, ∃ v < n, f v = .notVisited ∧ (∃ d, f' v = .onStack d) ∧
    ∃ w ∈ succ v, f' w = .done s

theorem Accounted.mono {m m' w : Nat} {l l' : List Nat} (h : Accounted f m l w) (hm : m' ≤ m)
    (hl : ∀ s ∈ l, s ∈ l') (hf : f w ≠ .notVisited → f₁ w = f w) : Accounted f₁ m' l' w := by
  rcases h with ⟨d, hd, hw⟩ | ⟨s, hs, hw⟩
  · exact .inl ⟨d, hm.trans hd, by rw [hf (by rw [hw]; nofun), hw]⟩
  · exact .inr ⟨s, hl s hs, by rw [hf (by rw [hw]; nofun), hw]⟩

namespace Visited
variable {m m' : Nat} {l l' : List Nat}

theorem refl (m : Nat) : Visited succ n f f m [] :=
  ⟨fun _ _ _ => rfl, fun _ _ h => .inl h, nofun⟩

theorem mono (h : Visited succ n f f₁ m l) (hm : m' ≤ m) : Visited succ n f f₁ m' l where
  frame := h.frame
  new v hv hf := by
    rcases h.new v hv hf with h | h | ⟨d, hd, hfv, hacc⟩
    · exact .inl h
    · exact .inr (.inl h)
    · exact .inr (.inr ⟨d, hm.trans hd, hfv, fun w hw =>
        (hacc w hw).mono hm (fun _ hs => hs) fun _ => rfl⟩)
  sound := h.sound

/-- A walk of the next successor `x` of a node that is being visited: the walks so far, in which the
node has the successors `pre`, are continued. -/
theorem trans {node x : Nat} {pre : List Nat} (h : Visited (update succ node pre) n f f₁ m l)
    (h' : Visited succ n f₁ f₂ m' l') {m'' : Nat} {l'' : List Nat}
    (hclosed : ∀ v < n, ∀ w ∈ succ v, w < n) (hnode : node < n) (hpre : ∀ w ∈ pre, w ∈ succ node)
    (hfnode : f node = .notVisited) (hfnode1 : f₁ node ≠ .notVisited)
    (hm : m'' ≤ m) (hm' : m'' ≤ m') (hl : ∀ s ∈ l, s ∈ l'') (hl' : ∀ s ∈ l', s ∈ l'')
    (hl'' : ∀ s ∈ l'', s ∈ l ∨ s ∈ l' ∨ f₂ x = .done s)
    (hstack : ∃ d, f₁ node = .onStack d) (hx : Accounted f₂ m'' l'' x) :
    Visited (update succ node (pre ++ [x])) n f f₂ m'' l'' where
  frame v hv hf := by
    have h1 := h.frame v hv hf
    rw [h'.frame v hv (h1.symm ▸ hf), h1]
  new v hv hf := by
    by_cases hf1 : f₁ v = .notVisited
    · have hvn : v ≠ node := fun heq => hfnode1 (heq ▸ hf1)
      rw [update_of_ne hvn]
      rcases h'.new v hv hf1 with h | h | ⟨d, hd, hfv, hacc⟩
      · exact .inl h
      · exact .inr (.inl h)
      · exact .inr (.inr ⟨d, hm'.trans hd, hfv, fun w hw =>
          (hacc w hw).mono hm' hl' fun _ => rfl⟩)
    · rw [h'.frame v hv hf1]
      rcases h.new v hv hf with h | h | ⟨d, hd, hfv, hacc⟩
      · exact absurd h hf1
      · exact .inr (.inl h)
      · refine .inr (.inr ⟨d, hm.trans hd, hfv, ?_⟩)
        by_cases hvn : v = node
        · subst hvn
          rw [update_self] at hacc ⊢
          intro w hw
          rcases mem_append.1 hw with hw | hw
          · exact (hacc w hw).mono hm hl (h'.frame w (hclosed v hv w (hpre w hw)))
          · rw [mem_singleton.1 hw]
            exact hx
        · rw [update_of_ne hvn] at hacc ⊢
          exact fun w hw => (hacc w hw).mono hm hl (h'.frame w (hclosed v hv w hw))
  sound s hs := by
    rcases hl'' s hs with hs | hs | hs
    · obtain ⟨v, hv, hfv, ⟨d, hd⟩, w, hw, hfw⟩ := h.sound s hs
      have hw' : w ∈ update succ node (pre ++ [x]) v ∧ w < n := by
        by_cases hvn : v = node
        · subst hvn
          rw [update_self] at hw ⊢
          exact ⟨mem_append_left _ hw, hclosed v hv w (hpre w hw)⟩
        · rw [update_of_ne hvn] at hw ⊢
          exact ⟨hw, hclosed v hv w hw⟩
      refine ⟨v, hv, hfv, ⟨d, ?_⟩, w, hw'.1, ?_⟩
      · rw [h'.frame v hv (by rw [hd]; nofun), hd]
      · rw [h'.frame w hw'.2 (by rw [hfw]; nofun), hfw]
    · obtain ⟨v, hv, hfv, hd, w, hw, hfw⟩ := h'.sound s hs
      have hvn : v ≠ node := fun heq => hfnode1 (heq ▸ hfv)
      refine ⟨v, hv, ?_, hd, w, by rwa [update_of_ne hvn], hfw⟩
      by_contra hf
      exact hf (h.frame v hv hf ▸ hfv)
    · obtain ⟨d, hd⟩ := hstack
      refine ⟨node, hnode, hfnode, ⟨d, ?_⟩, x, ?_, hs⟩
      · rw [h'.frame node hnode hfnode1, hd]
      · rw [update_self]
        simp

end Visited

/-- The mark that a walk's result stands for. -/
def WalkReturn.mark : WalkReturn → Mark
  | .cycle minDepth => .onStack minDepth
  | .complete sccIndex => .done sccIndex

/-- What a walk of a node returns: the node has the mark of the result, the stack is as before, and
the components `l` have been pushed onto the stack of successors. -/
structure Walked (succ : Nat → List Nat) (n : Nat) (c : SccsConstruction) (f : Nat → Mark)
    (node : Nat) (r : WalkReturn) (c' : SccsConstruction) (f' : Nat → Mark) (l : List Nat) :
    Prop where
  inv : Inv succ n c' f'
  stack : c'.nodeStack = c.nodeStack
  pushed : c'.successorsStack = c.successorsStack ++ l
  visited : ∀ m, (∀ d, r = .cycle d → m ≤ d) → Visited succ n f f' m l
  mark : f' node = r.mark

/-! ## The end of a visit -/

section
variable {base : List Nat} {node root m : Nat} {l : List Nat} {f₀ : Nat → Mark}

theorem moveMark_of_ne {a b : Mark} {v : Nat} (h : f v ≠ a) : moveMark f a b v = f v := if_neg h

theorem moveMark_of_eq {a b : Mark} {v : Nat} (h : f v = a) : moveMark f a b v = b := if_pos h

/-- What the marks say when the node on top of the stack has been visited. -/
structure Top (succ : Nat → List Nat) (n : Nat) (f₀ : Nat → Mark) (base : List Nat) (node : Nat)
    (c : SccsConstruction) (f : Nat → Mark) (m : Nat) (l : List Nat) : Prop where
  inv : Inv succ n c f
  stack : c.nodeStack = base ++ [node]
  visited : Visited succ n f₀ f m l
  low : ∀ v < n, ∀ d, f₀ v = .onStack d → d < base.length
  fresh : f₀ node = .notVisited

namespace Top

section
variable (h : Top succ n f₀ base node c f m l)
include h

theorem node_mark : node < n ∧ f node = .onStack base.length :=
  h.inv.represents.mark_of_stack (by rw [h.stack, getElem?_concat_length])

theorem depth_le {v d : Nat} (hv : v < n) (hd : f v = .onStack d) : d ≤ base.length := by
  have hlt := h.inv.represents.depth_lt hv hd
  rw [h.stack, length_append] at hlt
  exact Nat.lt_succ_iff.1 hlt

theorem on_top {v : Nat} (hv : v < n) (hf : f v = .onStack base.length) :
    f₀ v = .notVisited ∧ Reach succ v node ∧ Reach succ node v := by
  refine ⟨?_, h.inv.cycle v hv _ node hf (by rw [h.stack, getElem?_concat_length])⟩
  by_contra hf0
  have hfv := h.visited.frame v hv hf0
  exact (h.low v hv _ (hfv.symm.trans hf)).ne rfl

end

theorem frame (h : Top succ n f₀ base node c f m l) (a : Mark) {v : Nat} (hv : v < n)
    (hf0 : f₀ v ≠ .notVisited) : moveMark f (.onStack base.length) a v = f₀ v := by
  have hfv := h.visited.frame v hv hf0
  rw [moveMark_of_ne, hfv]
  intro hf
  exact hf0 (h.on_top hv hf).1

theorem accounted (h : Top succ n f₀ base node c f base.length l) {v : Nat} (hv : v < n)
    (hf : f v = .onStack base.length) : ∀ w ∈ succ v, Accounted f base.length l w := by
  rcases h.visited.new v hv (h.on_top hv hf).1 with hf' | ⟨s, hf'⟩ | ⟨d, _, _, hacc⟩
  · rw [hf] at hf'
    cases hf'
  · rw [hf] at hf'
    cases hf'
  · exact hacc

end Top

/-- The state after a component has been completed. -/
def closeScc (c : SccsConstruction) (base : List Nat) (successorsStack l : List Nat) (node : Nat) :
    SccsConstruction :=
  { c with
    nodeStack := base, successorsStack := successorsStack
    sccData := (c.sccData.createScc (deduplicated ∅ l)).2 }.setState node
      (.inCycle c.sccData.len)

theorem Top.inv_closeScc (h : Top succ n f₀ base node c f base.length l)
    (hclosed : ∀ v < n, ∀ w ∈ succ v, w < n) (successorsStack : List Nat) :
    Inv succ n (closeScc c base successorsStack l node)
      (moveMark f (.onStack base.length) (.done c.sccData.len)) := by
  obtain ⟨hnode, hfnode⟩ := h.node_mark
  have hlen : node < c.nodeStates.length := by
    rw [h.inv.represents.length_eq]
    exact hnode
  have hroot : Resolves (c.nodeStates.set node (.inCycle c.sccData.len)) 0 node
      (.done c.sccData.len) := .root (getElem?_set_self hlen)
  have hpop := h.inv.represents.pop h.stack (by simp) (by simp) hroot
  have hold {v s : Nat} (hv : v < n) (hf : f v = .done s) : s < c.sccData.len :=
    (h.inv.used s).2 ⟨v, hv, hf⟩
  have hmark {v s : Nat} (hf : f v = .done s) :
      moveMark f (.onStack base.length) (.done c.sccData.len) v = .done s := by
    rw [moveMark_of_ne (by rw [hf]; nofun), hf]
  have hdone {v s : Nat}
      (hf : moveMark f (.onStack base.length) (.done c.sccData.len) v = .done s) :
      (f v = .onStack base.length ∧ s = c.sccData.len) ∨ f v = .done s := by
    unfold moveMark at hf
    split at hf
    · rename_i hfv
      exact .inl ⟨hfv, (Mark.done.inj hf).symm⟩
    · exact .inr hf
  have hnew : (closeScc c base successorsStack l node).sccData.successors c.sccData.len =
      .ok (deduplicated ∅ l) := SccData.createScc_successors_len _ _
  have hsucc {s : Nat} (hs : s < c.sccData.len) :
      (closeScc c base successorsStack l node).sccData.successors s = c.sccData.successors s :=
    SccData.createScc_successors_of_lt h.inv.bounded hs _
  exact {
    represents := ⟨hpop.length_eq, hpop.resolves, hpop.fresh, hpop.stack⟩
    path := by
      have hpath := h.inv.path
      rw [h.stack] at hpath
      exact (pairwise_append.1 hpath).1
    cycle := fun v hv d u hf hu => by
      unfold moveMark at hf
      split at hf
      · cases hf
      · refine h.inv.cycle v hv d u hf ?_
        rw [h.stack, getElem?_concat_eq_some]
        exact .inl hu
    bounded := h.inv.bounded.createScc _
    closed := fun v hv s hf w hw => by
      rcases hdone hf with ⟨hfv, rfl⟩ | hfv
      · rcases h.accounted hv hfv w hw with ⟨d, hd, hfw⟩ | ⟨t, ht, hfw⟩
        · rw [le_antisymm (h.depth_le (hclosed v hv w hw) hfw) hd] at hfw
          exact ⟨_, moveMark_of_eq hfw, .inl rfl⟩
        · refine ⟨t, hmark hfw, .inr ⟨_, hnew, ?_⟩⟩
          exact mem_deduplicated.2 ⟨ht, FxHashSet.not_mem_empty t⟩
      · obtain ⟨t, hfw, ht⟩ := h.inv.closed v hv s hfv w hw
        refine ⟨t, hmark hfw, ht.imp_right fun ⟨l', hl', ht⟩ => ⟨l', ?_, ht⟩⟩
        rwa [hsucc (hold hv hfv)]
    same := fun v hv w hw s hfv hfw => by
      rcases hdone hfv with ⟨hv', heq⟩ | hv' <;> rcases hdone hfw with ⟨hw', heq'⟩ | hw'
      · exact (h.on_top hv hv').2.1.trans (h.on_top hw hw').2.2
      · exact absurd heq (hold hw hw').ne
      · exact absurd heq' (hold hv hv').ne
      · exact h.inv.same v hv w hw s hv' hw'
    next := fun s l' hl' => by
      have hs : s < c.sccData.len + 1 := by
        rw [← SccData.createScc_len c.sccData (deduplicated ∅ l)]
        exact SccData.successors_lt hl'
      rcases Nat.lt_succ_iff_lt_or_eq.1 hs with hs | rfl
      · rw [hsucc hs] at hl'
        obtain ⟨hnodup, hnext⟩ := h.inv.next s l' hl'
        refine ⟨hnodup, fun t ht => ?_⟩
        obtain ⟨hts, v, hv, w, hw, hfv, hfw⟩ := hnext t ht
        exact ⟨hts, v, hv, w, hw, hmark hfv, hmark hfw⟩
      · rw [hnew] at hl'
        cases hl'
        refine ⟨nodup_deduplicated _ _, fun t ht => ?_⟩
        obtain ⟨v, hv, hf0, ⟨d, hfv⟩, w, hw, hfw⟩ := h.visited.sound t (mem_deduplicated.1 ht).1
        refine ⟨hold (hclosed v hv w hw) hfw, v, hv, w, hw, moveMark_of_eq ?_, hmark hfw⟩
        rcases h.visited.new v hv hf0 with hf | ⟨s, hf⟩ | ⟨d', hd', hf, _⟩
        · rw [hf] at hfv
          cases hfv
        · rw [hf] at hfv
          cases hfv
        · rw [hf, le_antisymm (h.depth_le hv hf) hd']
    used := fun s => by
      have hlen' : (closeScc c base successorsStack l node).sccData.len = c.sccData.len + 1 :=
        SccData.createScc_len _ _
      rw [hlen', Nat.lt_succ_iff_lt_or_eq]
      constructor
      · rintro (hs | rfl)
        · obtain ⟨v, hv, hfv⟩ := (h.inv.used s).1 hs
          exact ⟨v, hv, hmark hfv⟩
        · exact ⟨node, hnode, moveMark_of_eq hfnode⟩
      · rintro ⟨v, hv, hfv⟩
        rcases hdone hfv with ⟨_, rfl⟩ | hfv
        · exact .inr rfl
        · exact .inl (hold hv hfv) }

theorem Top.inv_leave (h : Top succ n f₀ base node c f m l)
    (hclosed : ∀ v < n, ∀ w ∈ succ v, w < n) (hroot : root ∈ succ node)
    (hfroot : f root = .onStack m) (hm : m < base.length) :
    Inv succ n ({ c with nodeStack := base }.setState node (.inCycleWith root))
      (moveMark f (.onStack base.length) (.onStack m)) := by
  obtain ⟨hnode, hfnode⟩ := h.node_mark
  have hlen : node < c.nodeStates.length := by
    rw [h.inv.represents.length_eq]
    exact hnode
  have hrootlt := hclosed node hnode root hroot
  have htop : c.nodeStack[base.length]? = some node := by
    rw [h.stack, getElem?_concat_length]
  obtain ⟨k, hk⟩ := h.inv.represents.resolves root hrootlt
  rw [hfroot] at hk
  have hchain : Resolves (c.nodeStates.set node (.inCycleWith root)) (k + 1) node (.onStack m) :=
    have hnodeRoot : Resolves c.nodeStates 0 node (.onStack base.length) :=
      .root ((h.inv.represents.stack _ _).1 htop)
    .step (getElem?_set_self hlen)
      (hk.set_other hnodeRoot (fun heq => hm.ne (Mark.onStack.inj heq)) _)
  have hmark {v s : Nat} :
      moveMark f (.onStack base.length) (.onStack m) v = .done s ↔ f v = .done s := by
    unfold moveMark
    split
    · rename_i hf
      rw [hf]
      exact ⟨nofun, nofun⟩
    · exact Iff.rfl
  exact {
    represents := h.inv.represents.pop h.stack nofun nofun hchain
    path := by
      have hpath := h.inv.path
      rw [h.stack] at hpath
      exact (pairwise_append.1 hpath).1
    cycle := fun v hv d u hf hu => by
      have hu' : c.nodeStack[d]? = some u := by
        rw [h.stack, getElem?_concat_eq_some]
        exact .inl hu
      unfold moveMark at hf
      split at hf
      · rename_i hfv
        cases hf
        obtain ⟨-, hvn, hnv⟩ := h.on_top hv hfv
        have hnu : Reach succ node u := .head hroot (h.inv.cycle root hrootlt m u hfroot hu').1
        have hun : Reach succ u node := by
          have hpath := h.inv.path
          rw [h.stack] at hpath
          exact (pairwise_append.1 hpath).2.2 u (mem_of_getElem? hu) node
            mem_cons_self
        exact ⟨hvn.trans hnu, hun.trans hnv⟩
      · exact h.inv.cycle v hv d u hf hu'
    bounded := h.inv.bounded
    closed := fun v hv s hf w hw => by
      obtain ⟨t, hfw, ht⟩ := h.inv.closed v hv s (hmark.1 hf) w hw
      exact ⟨t, hmark.2 hfw, ht⟩
    same := fun v hv w hw s hfv hfw => h.inv.same v hv w hw s (hmark.1 hfv) (hmark.1 hfw)
    next := fun s l' hl' => by
      obtain ⟨hnodup, hnext⟩ := h.inv.next s l' hl'
      refine ⟨hnodup, fun t ht => ?_⟩
      obtain ⟨hts, v, hv, w, hw, hfv, hfw⟩ := hnext t ht
      exact ⟨hts, v, hv, w, hw, hmark.2 hfv, hmark.2 hfw⟩
    used := fun s => by
      refine (h.inv.used s).trans ?_
      simp only [hmark] }

theorem Top.visited_closeScc (h : Top succ n f₀ base node c f base.length l) (s m : Nat) :
    Visited succ n f₀ (moveMark f (.onStack base.length) (.done s)) m [] where
  frame v hv hf := h.frame _ hv hf
  new v hv hf := by
    rcases h.visited.new v hv hf with hfv | ⟨t, hfv⟩ | ⟨d, hd, hfv, _⟩
    · exact .inl (by rw [moveMark_of_ne (by rw [hfv]; nofun), hfv])
    · exact .inr (.inl ⟨t, by rw [moveMark_of_ne (by rw [hfv]; nofun), hfv]⟩)
    · rw [le_antisymm (h.depth_le hv hfv) hd] at hfv
      exact .inr (.inl ⟨s, moveMark_of_eq hfv⟩)
  sound := nofun

theorem Top.visited_leave (h : Top succ n f₀ base node c f m l) :
    Visited succ n f₀ (moveMark f (.onStack base.length) (.onStack m)) m l where
  frame v hv hf := h.frame _ hv hf
  new v hv hf := by
    have hacc {w : Nat} (hw : Accounted f m l w) :
        Accounted (moveMark f (.onStack base.length) (.onStack m)) m l w := by
      rcases hw with ⟨d, hd, hfw⟩ | ⟨s, hs, hfw⟩
      · by_cases hdb : d = base.length
        · exact .inl ⟨m, le_rfl, moveMark_of_eq (hdb ▸ hfw)⟩
        · refine .inl ⟨d, hd, ?_⟩
          rw [moveMark_of_ne, hfw]
          rw [hfw]
          exact fun heq => hdb (Mark.onStack.inj heq)
      · exact .inr ⟨s, hs, by rw [moveMark_of_ne (by rw [hfw]; nofun), hfw]⟩
    rcases h.visited.new v hv hf with hfv | ⟨t, hfv⟩ | ⟨d, hd, hfv, hsucc⟩
    · exact .inl (by rw [moveMark_of_ne (by rw [hfv]; nofun), hfv])
    · exact .inr (.inl ⟨t, by rw [moveMark_of_ne (by rw [hfv]; nofun), hfv]⟩)
    · by_cases hdb : d = base.length
      · exact .inr (.inr ⟨m, le_rfl, moveMark_of_eq (hdb ▸ hfv), fun w hw => hacc (hsucc w hw)⟩)
      · refine .inr (.inr ⟨d, hd, ?_, fun w hw => hacc (hsucc w hw)⟩)
        rw [moveMark_of_ne, hfv]
        rw [hfv]
        exact fun heq => hdb (Mark.onStack.inj heq)
  sound s hs := by
    obtain ⟨v, hv, hf, ⟨d, hfv⟩, w, hw, hfw⟩ := h.visited.sound s hs
    refine ⟨v, hv, hf, ?_, w, hw, by rw [moveMark_of_ne (by rw [hfw]; nofun), hfw]⟩
    unfold moveMark
    split
    exacts [⟨m, rfl⟩, ⟨d, hfv⟩]

end

/-! ## One walk -/

/-- The number of nodes that are not visited. -/
def unvisited (n : Nat) (f : Nat → Mark) : Nat :=
  ((Finset.range n).filter (f · = .notVisited)).card

theorem unvisited_le (h : ∀ v < n, f v ≠ .notVisited → f₁ v ≠ .notVisited) :
    unvisited n f₁ ≤ unvisited n f := by
  refine Finset.card_le_card fun v hv => ?_
  rw [Finset.mem_filter, Finset.mem_range] at hv ⊢
  refine ⟨hv.1, ?_⟩
  by_contra hf
  exact h v hv.1 hf hv.2

variable {node : Nat}

theorem unvisited_lt (hnode : node < n) (hf : f node = .notVisited)
    (h : ∀ v < n, f v ≠ .notVisited → f₁ v ≠ .notVisited) (hf1 : f₁ node ≠ .notVisited) :
    unvisited n f₁ < unvisited n f := by
  refine Finset.card_lt_card ((Finset.ssubset_iff_of_subset fun v hv => ?_).2 ⟨node, ?_, ?_⟩)
  · rw [Finset.mem_filter, Finset.mem_range] at hv ⊢
    refine ⟨hv.1, ?_⟩
    by_contra hf
    exact h v hv.1 hf hv.2
  · simp [hnode, hf]
  · simp [hf1]

theorem Inv.push (h : Inv succ n c f) (hnode : node < n) (hf : f node = .notVisited)
    (hreach : ∀ u ∈ c.nodeStack, Reach succ u node) : Inv succ n (c.push c.nodeStack.length node)
    (update f node (.onStack c.nodeStack.length)) := by
  have hmark {v s : Nat} :
      update f node (.onStack c.nodeStack.length) v = .done s ↔ f v = .done s := by
    by_cases hvn : v = node
    · subst hvn
      rw [update_self, hf]
      exact ⟨nofun, nofun⟩
    · rw [update_of_ne hvn]
  exact {
    represents := h.represents.push hnode hf
    path := by
      refine pairwise_append.2 ⟨h.path, pairwise_singleton _ _, fun u hu w hw => ?_⟩
      rw [mem_singleton.1 hw]
      exact hreach u hu
    cycle := fun v hv d u hfv hu => by
      by_cases hvn : v = node
      · subst hvn
        rw [update_self] at hfv
        cases hfv
        obtain rfl : v = u := by
          rcases getElem?_concat_eq_some.1 hu with hu | ⟨-, hu⟩
          · exact absurd (List.getElem?_eq_some_iff.1 hu).1 (lt_irrefl _)
          · exact hu
        exact ⟨.refl, .refl⟩
      · rw [update_of_ne hvn] at hfv
        have hd := h.represents.depth_lt hv hfv
        exact h.cycle v hv d u hfv
          ((getElem?_concat_eq_some.1 hu).resolve_right fun hu => hd.ne hu.1)
    bounded := h.bounded
    closed := fun v hv s hfv w hw => by
      obtain ⟨t, hfw, ht⟩ := h.closed v hv s (hmark.1 hfv) w hw
      exact ⟨t, hmark.2 hfw, ht⟩
    same := fun v hv w hw s hfv hfw => h.same v hv w hw s (hmark.1 hfv) (hmark.1 hfw)
    next := fun s l hl => by
      obtain ⟨hnodup, hnext⟩ := h.next s l hl
      refine ⟨hnodup, fun t ht => ?_⟩
      obtain ⟨hts, v, hv, w, hw, hfv, hfw⟩ := hnext t ht
      exact ⟨hts, v, hv, w, hw, hmark.2 hfv, hmark.2 hfw⟩
    used := fun s => by
      refine (h.used s).trans ?_
      simp only [hmark] }

/-- What holds in the loop of `walk_unvisited_node` when the successors `pre` have been walked; the
walk of the node started in `c₀` with the marks `f₀`. -/
structure LoopInv (succ : Nat → List Nat) (n : Nat) (c₀ : SccsConstruction) (f₀ : Nat → Mark)
    (node : Nat) (pre : List Nat) (w : Walk) (f : Nat → Mark) (l : List Nat) : Prop where
  inv : Inv succ n w.this f
  stack : w.this.nodeStack = c₀.nodeStack ++ [node]
  pushed : w.this.successorsStack = c₀.successorsStack ++ l
  visited : Visited (update succ node pre) n f₀ f w.minDepth l
  minDepth_le : w.minDepth ≤ c₀.nodeStack.length
  root : w.minDepth < c₀.nodeStack.length →
    w.minCycleRoot ∈ succ node ∧ f w.minCycleRoot = .onStack w.minDepth

variable {f₀ : Nat → Mark} {c0 : SccsConstruction}

theorem finishNode_spec {w : Walk}
    (hclosed : ∀ v < n, ∀ w ∈ succ v, w < n) (hinv0 : Inv succ n c0 f₀)
    (hf0 : f₀ node = .notVisited) (h : LoopInv succ n c0 f₀ node (succ node) w f l) :
    ∃ r c' f' l', finishNode c0.nodeStack.length node c0.successorsStack.length w = .ok (r, c') ∧
      Walked succ n c0 f₀ node r c' f' l' := by
  have hvis := h.visited
  rw [update_eq_self] at hvis
  have htop : Top succ n f₀ c0.nodeStack node w.this f w.minDepth l :=
    ⟨h.inv, h.stack, hvis, fun v hv d hd => hinv0.represents.depth_lt hv hd, hf0⟩
  have hlast : w.this.nodeStack.getLast? = some node := by
    rw [h.stack, getLast?_concat]
  have hpop : w.this.nodeStack.dropLast = c0.nodeStack := by
    rw [h.stack, dropLast_concat]
  rw [finishNode, assert, if_pos (by simp [hlast]), ok_bind, hpop]
  by_cases hm : w.minDepth = c0.nodeStack.length
  · rw [hm] at htop
    rw [if_pos hm, assert, if_pos (by simp [h.pushed]), ok_bind, h.pushed, drop_left, take_left]
    refine ⟨.complete w.this.sccData.len, closeScc w.this c0.nodeStack c0.successorsStack l node,
      moveMark f (.onStack c0.nodeStack.length) (.done w.this.sccData.len), [], rfl, ?_⟩
    exact {
      inv := htop.inv_closeScc hclosed _
      stack := rfl
      pushed := (append_nil _).symm
      visited := fun m _ => htop.visited_closeScc _ m
      mark := moveMark_of_eq htop.node_mark.2 }
  · rw [if_neg hm]
    have hlt := lt_of_le_of_ne h.minDepth_le hm
    obtain ⟨hroot, hfroot⟩ := h.root hlt
    refine ⟨_, _, moveMark f (.onStack c0.nodeStack.length) (.onStack w.minDepth), l, rfl, ?_⟩
    exact {
      inv := htop.inv_leave hclosed hroot hfroot hlt
      stack := rfl
      pushed := h.pushed
      visited := fun m hmd => htop.visited_leave.mono (hmd _ rfl)
      mark := moveMark_of_eq htop.node_mark.2 }

/-- What a walker does on a node of the graph, from a state with fewer than `k` nodes that are not
visited. -/
def Walks (succ : Nat → List Nat) (n : Nat) (walk : Walker) (k : Nat) : Prop :=
  ∀ {c : SccsConstruction} {f : Nat → Mark} {node : Nat}, Inv succ n c f → node < n →
    (∀ u ∈ c.nodeStack, Reach succ u node) → unvisited n f < k →
    ∃ r c' f' l, walk c.nodeStack.length node c = .ok (r, c') ∧ Walked succ n c f node r c' f' l

variable {walk : Walker}

theorem walkSuccessor_spec {k : Nat} (hwalk : Walks succ n walk k)
    (hclosed : ∀ v < n, ∀ w ∈ succ v, w < n)
    {node x : Nat} {pre : List Nat} {w : Walk} (hnode : node < n)
    (hf0 : f₀ node = .notVisited) (hpre : ∀ y ∈ pre, y ∈ succ node) (hx : x ∈ succ node)
    (hk : unvisited n f < k) (h : LoopInv succ n c0 f₀ node pre w f l) :
    ∃ w' f' l', walkSuccessor walk c0.nodeStack.length w x = .ok w' ∧
      LoopInv succ n c0 f₀ node (pre ++ [x]) w' f' l' ∧ unvisited n f' < k := by
  have hlen : w.this.nodeStack.length = c0.nodeStack.length + 1 := by
    rw [h.stack, length_append]
    rfl
  have htop : w.this.nodeStack[c0.nodeStack.length]? = some node := by
    rw [h.stack, getElem?_concat_length]
  have hfnode := (h.inv.represents.mark_of_stack htop).2
  have hfnode' : f node ≠ .notVisited := by rw [hfnode]; intro h; cases h
  have hreach : ∀ u ∈ w.this.nodeStack, Reach succ u x := fun u hu => by
    refine Relation.ReflTransGen.tail ?_ hx
    have hpath := h.inv.path
    rw [h.stack] at hu hpath
    rcases mem_append.1 hu with hu | hu
    · exact (pairwise_append.1 hpath).2.2 u hu node mem_cons_self
    · rw [mem_singleton.1 hu]
  obtain ⟨r, c', f', l', hrun, hw⟩ := hwalk h.inv (hclosed node hnode x hx) hreach hk
  rw [hlen] at hrun
  have hstack : c'.nodeStack = c0.nodeStack ++ [node] := hw.stack.trans h.stack
  have hvis0 : Visited succ n f f' 0 l' := hw.visited 0 fun _ _ => Nat.zero_le _
  have hk' : unvisited n f' < k :=
    (unvisited_le fun v hv hf => by rwa [hvis0.frame v hv hf]).trans_lt hk
  have hroot' : w.minDepth < c0.nodeStack.length →
      w.minCycleRoot ∈ succ node ∧ f' w.minCycleRoot = .onStack w.minDepth := fun hlt => by
    obtain ⟨hroot, hfroot⟩ := h.root hlt
    refine ⟨hroot, ?_⟩
    rw [hvis0.frame _ (hclosed node hnode _ hroot) (by rw [hfroot]; intro h; cases h), hfroot]
  rw [walkSuccessor, hrun, ok_bind]
  cases r with
  | cycle m =>
    have hm : m ≤ c0.nodeStack.length := by
      have hlt := hw.inv.represents.depth_lt (hclosed node hnode x hx) hw.mark
      rw [hstack, length_append] at hlt
      exact Nat.lt_succ_iff.1 hlt
    have hvis : Visited (update succ node (pre ++ [x])) n f₀ f' (min w.minDepth m)
        (l ++ l') :=
      h.visited.trans (hw.visited m fun d hd => (WalkReturn.cycle.inj hd).le) hclosed hnode hpre
        hf0 hfnode' (min_le_left _ _) (min_le_right _ _) (fun s hs => mem_append_left _ hs)
        (fun s hs => mem_append_right _ hs)
        (fun s hs => (mem_append.1 hs).imp_right .inl) ⟨_, hfnode⟩
        (.inl ⟨m, min_le_right _ _, hw.mark⟩)
    have hpushed : c'.successorsStack = c0.successorsStack ++ (l ++ l') := by
      rw [hw.pushed, h.pushed, append_assoc]
    dsimp only
    rw [assert, if_pos (by simpa using hm), ok_bind]
    by_cases hlt : m < w.minDepth
    · rw [if_pos hlt]
      rw [min_eq_right hlt.le] at hvis
      exact ⟨_, f', _, rfl, ⟨hw.inv, hstack, hpushed, hvis, hm, fun _ => ⟨hx, hw.mark⟩⟩, hk'⟩
    · rw [if_neg hlt]
      rw [min_eq_left (not_lt.1 hlt)] at hvis
      exact ⟨_, f', _, rfl, ⟨hw.inv, hstack, hpushed, hvis, h.minDepth_le, hroot'⟩, hk'⟩
  | complete s =>
    have hvis : Visited (update succ node (pre ++ [x])) n f₀ f' w.minDepth
        (l ++ (l' ++ [s])) :=
      h.visited.trans (hw.visited w.minDepth (by simp)) hclosed hnode hpre hf0 hfnode' le_rfl le_rfl
        (fun s hs => mem_append_left _ hs)
        (fun s hs => mem_append_right _ (mem_append_left _ hs))
        (fun t ht => by
          rcases mem_append.1 ht with ht | ht
          · exact .inl ht
          · rcases mem_append.1 ht with ht | ht
            · exact .inr (.inl ht)
            · exact .inr (.inr (by rw [mem_singleton.1 ht]; exact hw.mark)))
        ⟨_, hfnode⟩
        (.inr ⟨s, mem_append_right _ (by simp), hw.mark⟩)
    refine ⟨_, f', l ++ (l' ++ [s]), rfl, ?_, hk'⟩
    exact {
      inv := { hw.inv with represents := ⟨hw.inv.represents.length_eq, hw.inv.represents.resolves,
        hw.inv.represents.fresh, hw.inv.represents.stack⟩ }
      stack := hstack
      pushed := by
        rw [hw.pushed, h.pushed, append_assoc, append_assoc]
      visited := hvis
      minDepth_le := h.minDepth_le
      root := hroot' }

variable {graph : DirectedGraph}

theorem walkUnvisitedNode_spec (hgraph : graph.HasSuccessors succ) {k : Nat}
    (hwalk : Walks succ graph.numNodes walk k) (h : Inv succ graph.numNodes c f)
    (hnode : node < graph.numNodes) (hf : f node = .notVisited)
    (hreach : ∀ u ∈ c.nodeStack, Reach succ u node) (hk : unvisited graph.numNodes f < k + 1) :
    ∃ r c' f' l, walkUnvisitedNode graph walk c.nodeStack.length node c = .ok (r, c') ∧
      Walked succ graph.numNodes c f node r c' f' l := by
  let f₁ := update f node (.onStack c.nodeStack.length)
  have hf1 : ∀ v, f v ≠ .notVisited → f₁ v = f v := fun v hfv => by
    refine update_of_ne (fun heq => hfv ?_) _ _
    rw [heq, hf]
  have hk1 : unvisited graph.numNodes f₁ < k := by
    refine lt_of_lt_of_le (unvisited_lt hnode hf (fun v _ hfv => by rwa [hf1 v hfv]) ?_)
      (Nat.lt_succ_iff.1 hk)
    simp [f₁]
  have init : LoopInv succ graph.numNodes c f node [] ⟨c.nodeStack.length, node,
      c.push c.nodeStack.length node⟩ f₁ [] := {
    inv := h.push hnode hf hreach
    stack := rfl
    pushed := (append_nil _).symm
    visited := {
      frame := fun v _ hfv => hf1 v hfv
      new := fun v _ hfv => by
        by_cases hvn : v = node
        · subst hvn
          exact .inr (.inr ⟨_, le_rfl, update_self .., by simp⟩)
        · exact .inl (by simp only [f₁, update_of_ne hvn, hfv])
      sound := nofun }
    minDepth_le := le_rfl
    root := fun hlt => absurd hlt (lt_irrefl _) }
  let P (pre : List Nat) (w : Walk) : Prop := ∃ f' l,
    LoopInv succ graph.numNodes c f node pre w f' l ∧ unvisited graph.numNodes f' < k
  have step : ∀ pre x post w, succ node = pre ++ x :: post → P ([] ++ pre) w →
      ∃ w', walkSuccessor walk c.nodeStack.length w x = .ok w' ∧ P ([] ++ pre ++ [x]) w' := by
    rintro pre x post w hl ⟨f', l, hinv, hkf⟩
    obtain ⟨w', f'', l', hrun, hinv', hkf'⟩ := walkSuccessor_spec hwalk hgraph.closed hnode hf
      (fun y hy => by rw [hl]; exact mem_append_left _ hy)
      (by rw [hl]; exact mem_append_right _ mem_cons_self) hkf hinv
    exact ⟨w', hrun, f'', l', hinv', hkf'⟩
  obtain ⟨w, hloop, f', l, hinv, -⟩ := foldlM_spec (P := P) ⟨f₁, [], init, hk1⟩ step
  rw [walkUnvisitedNode, hgraph.successors_eq node hnode, ok_bind, hloop, ok_bind]
  exact finishNode_spec hgraph.closed h hf hinv

/-- `walk_node` returns from every state that the invariant holds in, within as many calls as there
are nodes to visit. -/
theorem walkNode_spec (hgraph : graph.HasSuccessors succ) :
    ∀ k, Walks succ graph.numNodes (walkNode graph k) k
  | 0, _, _, _, _, _, _, hk => absurd hk (Nat.not_lt_zero _)
  | k + 1, c, f, node, h, hnode, hreach, hk => by
    obtain ⟨states, hfind, hrep⟩ := h.represents.findState_spec hnode
    have hinv : Inv succ graph.numNodes { c with nodeStates := states } f :=
      { h with represents := hrep }
    rw [walkNode, hfind, ok_bind]
    cases hfn : f node with
    | done s =>
      exact ⟨.complete s, _, f, [], rfl, hinv, rfl, (append_nil _).symm, fun m _ => .refl m, hfn⟩
    | onStack d =>
      exact ⟨.cycle d, _, f, [], rfl, hinv, rfl, (append_nil _).symm, fun m _ => .refl m, hfn⟩
    | notVisited =>
      obtain ⟨r, c', f', l, hrun, hw⟩ := walkUnvisitedNode_spec hgraph (walkNode_spec hgraph k)
        hinv hnode hfn hreach hk
      exact ⟨r, c', f', l, hrun, hw.inv, hw.stack, hw.pushed, hw.visited, hw.mark⟩

/-- What holds in `construct` when the nodes `pre` have been walked. -/
structure Constructed (succ : Nat → List Nat) (n : Nat) (pre : List Nat)
    (st : List Nat × SccsConstruction) (f : Nat → Mark) : Prop where
  inv : Inv succ n st.2 f
  stack : st.2.nodeStack = []
  indices : List.Forall₂ (fun v s => f v = .done s) pre st.1

theorem construct_spec (hgraph : graph.HasSuccessors succ) :
    ∃ st f, (range graph.numNodes).foldlM (constructNode graph)
        ([], ⟨replicate graph.numNodes .notVisited, [], [], ⟨[], []⟩⟩) = .ok st ∧
      Constructed succ graph.numNodes (range graph.numNodes) st f := by
  have init : Constructed succ graph.numNodes [] ([],
      ⟨replicate graph.numNodes .notVisited, [], [], ⟨[], []⟩⟩) (fun _ => .notVisited) := {
    inv := {
      represents := .init _ _
      path := .nil
      cycle := nofun
      bounded := nofun
      closed := nofun
      same := nofun
      next := fun s l hl => absurd (SccData.successors_lt hl) (Nat.not_lt_zero s)
      used := fun s => ⟨fun h => absurd h (Nat.not_lt_zero s), nofun⟩ }
    stack := rfl
    indices := .nil }
  have step : ∀ pre v post st, range graph.numNodes = pre ++ v :: post →
      (∃ f, Constructed succ graph.numNodes ([] ++ pre) st f) →
      ∃ st', constructNode graph st v = .ok st' ∧
        ∃ f, Constructed succ graph.numNodes ([] ++ pre ++ [v]) st' f := by
    rintro pre v post ⟨indices, c⟩ hl ⟨f, hc⟩
    have hlt : ∀ u ∈ pre ++ [v], u < graph.numNodes := fun u hu => by
      rw [← mem_range, hl]
      rcases mem_append.1 hu with hu | hu
      · exact mem_append_left _ hu
      · rw [mem_singleton.1 hu]
        simp
    have hstack : c.nodeStack = [] := hc.stack
    have hk : unvisited graph.numNodes f < graph.numNodes + 1 := by
      refine Nat.lt_succ_iff.2 ((Finset.card_filter_le _ _).trans ?_)
      rw [Finset.card_range]
    obtain ⟨r, c', f', l, hrun, hw⟩ := walkNode_spec hgraph _ hc.inv (hlt v (by simp))
      (by rw [hstack]; nofun) hk
    rw [hstack, length_nil] at hrun
    rw [constructNode, hrun, ok_bind]
    cases r with
    | cycle m =>
      -- the result would be a depth of the empty stack
      have hm := hw.inv.represents.depth_lt (hlt v (by simp)) hw.mark
      rw [hw.stack, hstack] at hm
      exact absurd hm (Nat.not_lt_zero m)
    | complete s =>
      refine ⟨_, rfl, f', hw.inv, hw.stack.trans hstack, ?_⟩
      have hvis := hw.visited 0 nofun
      refine rel_append (forall₂_imp_getElem hc.indices fun i u t hu _ hfu => ?_)
        (.cons hw.mark .nil)
      rw [hvis.frame u (hlt u (mem_append_left _ (mem_of_getElem? hu)))
        (by rw [hfu]; nofun), hfu]
  obtain ⟨st, hloop, f, hc⟩ := foldlM_spec
    (P := fun pre st => ∃ f, Constructed succ graph.numNodes pre st f) ⟨_, init⟩ step
  exact ⟨st, f, hloop, hc⟩

end Scc

namespace Sccs

/-- The component of a node, as a total function. -/
def index (sccs : Sccs) (v : Nat) : Nat := sccs.sccIndices[v]?.getD 0

/-- One component is among the successors of another. -/
def Next (sccs : Sccs) (s t : Nat) : Prop := ∃ l, sccs.successors s = .ok l ∧ t ∈ l

/-- The components are the strongly connected components of the graph with `n` nodes and the
successors `succ`, and their successors are what its edges leave between them. -/
structure Correct (sccs : Sccs) (n : Nat) (succ : Nat → List Nat) : Prop where
  scc_eq : ∀ v < n, sccs.scc v = .ok (sccs.index v)
  used : ∀ s, s < sccs.numSccs ↔ ∃ v < n, sccs.index v = s
  successors_ok : ∀ s < sccs.numSccs, ∃ l, sccs.successors s = .ok l
  nodup : ∀ s l, sccs.successors s = .ok l → l.Nodup
  condensed : Condensed (fun v w => w ∈ succ v) {v | v < n} sccs.index sccs.Next

theorem new_correct {graph : DirectedGraph} {succ : Nat → List Nat}
    (hgraph : graph.HasSuccessors succ) :
    ∃ sccs, Sccs.new graph = .ok sccs ∧ sccs.Correct graph.numNodes succ := by
  obtain ⟨⟨indices, c⟩, f, hloop, hinv, -, hindices⟩ := Scc.construct_spec hgraph
  have hlen : indices.length = graph.numNodes := by
    rw [← hindices.length_eq, length_range]
  have hget : ∀ v < graph.numNodes, indices[v]? = some ((indices[v]?).getD 0) := fun v hv => by
    rw [getElem?_eq_getElem (by omega)]
    rfl
  have hmark : ∀ v < graph.numNodes, f v = .done ((indices[v]?).getD 0) := fun v hv => by
    refine forall₂_getElem hindices (i := v) ?_ (hget v hv)
    rw [getElem?_range hv]
  have hidx : ∀ v < graph.numNodes, ∀ s, f v = .done s → indices[v]?.getD 0 = s :=
    fun v hv s hs => Scc.Mark.done.inj ((hmark v hv).symm.trans hs)
  refine ⟨⟨indices, c.sccData⟩, ?_, ?_⟩
  · rw [Sccs.new, hloop]
    rfl
  · exact {
      scc_eq := fun v hv => expect_eq_ok.2 (hget v hv)
      used := fun s => (hinv.used s).trans
        ⟨fun ⟨v, hv, hs⟩ => ⟨v, hv, hidx v hv s hs⟩, fun ⟨v, hv, hs⟩ =>
          ⟨v, hv, hs ▸ hmark v hv⟩⟩
      successors_ok := fun s hs => Scc.SccData.exists_successors hs
      nodup := fun s l hl => (hinv.next s l hl).1
      condensed := {
        closed := hgraph.closed
        same := fun v hv w hw heq => by
          refine hinv.same v hv w hw _ (hmark v hv) ((hmark w hw).trans ?_)
          exact congrArg Scc.Mark.done heq.symm
        edge_next := fun v hv w hw => by
          obtain ⟨t, hfw, ht⟩ := hinv.closed v hv _ (hmark v hv) w hw
          obtain rfl := hidx w (hgraph.closed v hv w hw) t hfw
          exact ht.imp_left Eq.symm
        next_lt := fun s t ⟨l, hl, ht⟩ => ((hinv.next s l hl).2 t ht).1
        next_edge := fun s t ⟨l, hl, ht⟩ => by
          obtain ⟨-, v, hv, w, hw, hfv, hfw⟩ := (hinv.next s l hl).2 t ht
          exact ⟨v, hv, w, hidx v hv s hfv, hw, hidx w (hgraph.closed v hv w hw) t hfw⟩ } }

end Sccs

end Tortis
