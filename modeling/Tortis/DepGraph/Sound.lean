import Tortis.DepGraph.Invariant
import Tortis.DepGraph.Marking
import Tortis.Lib.List

/-!
# Red/green marking is sound

A green node has the fingerprint it had, and a node that `try_mark_previous_green` turned green has
the edges it had (`marking_sound`): as long as every forced query that succeeds has coloured its
node. One that has not, in a session with errors, is passed over (`marking_unsound`).
-/

namespace Tortis.DepGraph

open Outcome List Option

namespace Session

/-! ## The invariant -/

section
variable (previous : PreviousDepGraph) (data : DepGraphData)

/-- What is known in a call whose dependencies but `left` are dealt with. -/
def CallInv (call : Marking) (left : List Nat) : Prop :=
  previous.indexToNode call.prevDepNodeIndex = .ok call.depNode ∧
    ∃ deps, previous.edgeTargetsFrom call.prevDepNodeIndex = .ok (deps ++ left) ∧
      GreenEdges data deps call.currentDeps

/-- What is known in the frames below the call for `callee`, if it is one. -/
def StackInv : Option Nat → List Frame → Prop
  | _, [] => True
  | callee, .marking call :: stack =>
    callee = none ∧ CallInv previous data call call.prevDeps ∧
      StackInv (some call.prevDepNodeIndex) stack
  | callee, .recursing call depDepNodeIndex :: stack =>
    callee = some depDepNodeIndex ∧
      CallInv previous data call (depDepNodeIndex :: call.prevDeps) ∧
        StackInv (some call.prevDepNodeIndex) stack
  | _, .forcing call depDepNodeIndex :: stack =>
    CallInv previous data call (depDepNodeIndex :: call.prevDeps) ∧
      StackInv (some call.prevDepNodeIndex) stack
  | _, .task _ _ :: stack => StackInv none stack

/-- What is known of a node `try_mark_previous_green` turned green. -/
def MarkedInv (i : Nat) : Prop :=
  ∃ k deps d, data.colors.get i = .ok (some (.green k)) ∧ previous.edgeTargetsFrom i = .ok deps ∧
    data.current.data[k]? = some d ∧ GreenEdges data deps d.edges

end

/-- The invariant of a session. -/
structure Inv (previous : PreviousDepGraph) (s : Session) : Prop where
  data : DataInv previous s.data
  stack : StackInv previous s.data none s.stack
  marked : ∀ i ∈ s.marked, MarkedInv previous s.data i
  returned : ∀ {i k}, s.returned = some (i, k) → s.data.colors.get i = .ok (some (.green k))

variable {previous : PreviousDepGraph} {s s' : Session} {data data' : DepGraphData}
  {call : Marking} {stack : List Frame}

theorem CallInv.mono (hext : Extends data data') {left : List Nat}
    (h : CallInv previous data call left) : CallInv previous data' call left := by
  obtain ⟨hnode, deps, htargets, hgreen⟩ := h
  exact ⟨hnode, deps, htargets, hgreen.mono hext⟩

theorem CallInv.push {dep k : Nat} (h : CallInv previous data call (dep :: call.prevDeps))
    (hdep : data.colors.get dep = .ok (some (.green k))) :
    CallInv previous data { call with currentDeps := call.currentDeps ++ [k] } call.prevDeps := by
  obtain ⟨hnode, deps, htargets, hgreen⟩ := h
  exact ⟨hnode, deps ++ [dep], by rw [htargets, append_assoc, singleton_append], hgreen.concat hdep⟩

variable {callee : Option Nat}

theorem StackInv.mono (hext : Extends data data')
    (h : StackInv previous data callee stack) : StackInv previous data' callee stack := by
  induction stack generalizing callee with
  | nil => trivial
  | cons frame stack ih =>
    cases frame with
    | marking call => exact ⟨h.1, h.2.1.mono hext, ih h.2.2⟩
    | recursing call dep => exact ⟨h.1, h.2.1.mono hext, ih h.2.2⟩
    | forcing call dep => exact ⟨h.1.mono hext, ih h.2⟩
    | task key reads => exact @ih none h

theorem StackInv.outside {callee callee' : Option Nat} (hout : outside stack)
    (h : StackInv previous data callee stack) : StackInv previous data callee' stack := by
  match stack, h with
  | [], _ => trivial
  | .forcing _ _ :: _, h => exact h
  | .task _ _ :: _, h => exact h

theorem MarkedInv.mono (hext : Extends data data') {i : Nat} (h : MarkedInv previous data i) :
    MarkedInv previous data' i := by
  obtain ⟨k, deps, d, hcolor, htargets, hd, hgreen⟩ := h
  exact ⟨k, deps, d, hext.colors hcolor, htargets, hext.node hd, hgreen.mono hext⟩

theorem Inv.extend (hinv : Inv previous s) (hdata : DataInv previous data')
    (hext : Extends s.data data') : Inv previous { s with data := data' } where
  data := hdata
  stack := hinv.stack.mono hext
  marked i hi := (hinv.marked i hi).mono hext
  returned h := hext.colors (hinv.returned h)

theorem Inv.withStack (hinv : Inv previous s) (hstack : StackInv previous s.data none stack) :
    Inv previous { s with stack } :=
  ⟨hinv.data, hstack, hinv.marked, hinv.returned⟩

/-! ## The steps of the marking -/

variable {dep p : Nat}

section
variable (hinv : Inv previous s)
include hinv

theorem returnMarking_inv {result : Option Nat} (hstack : StackInv previous s.data (some p) stack)
    (hresult : ∀ {k}, result = some k → s.data.colors.get p = .ok (some (.green k))) :
    Inv previous (s.returnMarking p result stack) := by
  have hlast : ∀ {stack}, outside stack → StackInv previous s.data (some p) stack →
      Inv previous { s with stack, returned := result.map (p, ·) } := by
    intro stack hout hstack
    refine ⟨hinv.data, hstack.outside hout, hinv.marked, fun {i k} hret => ?_⟩
    obtain ⟨j, hj, hpair⟩ := map_eq_some_iff.1 hret
    cases hpair
    exact hresult hj
  match stack, hstack with
  | [], h => exact hlast rfl h
  | .marking _ :: _, ⟨hp, _⟩ => nomatch hp
  | .recursing call dep :: stack, ⟨hp, hcall, hstack⟩ =>
    cases hp
    cases result with
    | none => exact hinv.withStack ⟨hcall, hstack⟩
    | some k => exact hinv.withStack ⟨rfl, hcall.push (hresult rfl), hstack⟩
  | .forcing _ _ :: _, h => exact hlast rfl h
  | .task _ _ :: _, h => exact hlast rfl h

variable {depNode : DepNode}

theorem tryMarkPreviousGreen_inv (hstack : StackInv previous s.data (some p) stack)
    (h : s.tryMarkPreviousGreen previous p depNode stack = .ok s') : Inv previous s' := by
  obtain ⟨_, _, h⟩ := bind_eq_ok.1 h
  obtain ⟨_, _, h⟩ := bind_eq_ok.1 h
  obtain ⟨_, _, h⟩ := bind_eq_ok.1 h
  obtain ⟨_, _, h⟩ := bind_eq_ok.1 h
  obtain ⟨node, hnode, h⟩ := bind_eq_ok.1 h
  obtain ⟨_, hassert, h⟩ := bind_eq_ok.1 h
  obtain ⟨prevDeps, htargets, h⟩ := bind_eq_ok.1 h
  obtain rfl : node = depNode := by simpa using assert_eq_ok.1 hassert
  cases h
  exact hinv.withStack ⟨rfl, ⟨hnode, [], htargets, .nil⟩, hstack⟩

theorem tryMarkGreen_inv (hout : outside s.stack)
    (h : s.tryMarkGreen previous depNode = .ok s') : Inv previous s' := by
  obtain ⟨_, _, h⟩ := bind_eq_ok.1 h
  have hnone : Inv previous { s with returned := none } :=
    ⟨hinv.data, hinv.stack, hinv.marked, nofun⟩
  split at h
  · cases h
    exact hnone
  · obtain ⟨color, hcolor, h⟩ := bind_eq_ok.1 h
    split at h
    · cases h
      refine ⟨hinv.data, hinv.stack, hinv.marked, fun hret => ?_⟩
      cases hret
      exact hcolor
    · cases h
      exact hnone
    · exact tryMarkPreviousGreen_inv hinv (hinv.stack.outside hout) h

variable {gone : Bool}

section
variable (hcall : CallInv previous s.data call (dep :: call.prevDeps))
include hcall

theorem markDependency_inv (hstack : StackInv previous s.data (some call.prevDepNodeIndex) stack)
    (h : s.markDependency previous call dep gone stack = .ok s') : Inv previous s' := by
  obtain ⟨node, _, h⟩ := bind_eq_ok.1 h
  split at h
  · refine tryMarkPreviousGreen_inv hinv ?_ h
    exact ⟨rfl, hcall, hstack⟩
  · split at h
    · split at h
      · cases h
        exact returnMarking_inv hinv hstack nofun
      · cases h
    · cases h
      exact hinv.withStack ⟨hcall, hstack⟩

theorem visitDependency_inv (hstack : StackInv previous s.data (some call.prevDepNodeIndex) stack)
    (h : s.visitDependency previous call dep gone stack = .ok s') : Inv previous s' := by
  obtain ⟨color, hcolor, h⟩ := bind_eq_ok.1 h
  split at h
  · cases h
    exact hinv.withStack ⟨rfl, hcall.push hcolor, hstack⟩
  · cases h
    exact returnMarking_inv hinv hstack nofun
  · exact markDependency_inv hinv hcall hstack h

theorem forced_inv {success : Bool}
    (hstack : StackInv previous s.data (some call.prevDepNodeIndex) stack)
    (hcolored : success = true → s.data.colors.get dep ≠ .ok none)
    (h : s.forced call dep success stack = .ok s') : Inv previous s' := by
  rw [forced] at h
  split at h
  · next hsuccess =>
    obtain ⟨color, hcolor, h⟩ := bind_eq_ok.1 h
    split at h
    · cases h
      exact hinv.withStack ⟨rfl, hcall.push hcolor, hstack⟩
    · cases h
      exact returnMarking_inv hinv hstack nofun
    · exact absurd hcolor (hcolored hsuccess)
  · cases h
    exact returnMarking_inv hinv hstack nofun

end

end

/-! ## New colours -/

theorem emitSome_insert {colors emitted colors' : DepNodeColorMap} {k : Nat} {diagnostics : Bool}
    (hemit : emitSome colors k p diagnostics = .ok emitted)
    (h : emitted.insert p (.green k) = .ok colors') :
    colors'.get p = .ok (some (.green k)) ∧ ∀ j, p ≠ j → colors'.get j = colors.get j := by
  refine ⟨get_insert_self h, fun j hj => ?_⟩
  rw [get_insert_ne h hj]
  rw [emitSome] at hemit
  split at hemit
  · obtain ⟨color, _, hemit⟩ := bind_eq_ok.1 hemit
    split at hemit
    · cases hemit
      rfl
    · exact get_insert_ne hemit hj
  · cases hemit
    rfl

theorem taskColor_eq_green {fp : Option Fingerprint} {prevFingerprint : Fingerprint} {k j : Nat}
    (h : taskColor fp prevFingerprint k = .green j) : j = k ∧ fp = some prevFingerprint := by
  cases fp with
  | none => cases h
  | some fingerprint =>
    by_cases heq : fingerprint = prevFingerprint
    · rw [taskColor, if_pos heq] at h
      cases h
      exact ⟨rfl, congrArg some heq⟩
    · rw [taskColor, if_neg heq] at h
      cases h

section
variable {serialized : SerializedDepGraph}

section
variable (hnodup : serialized.nodes.Nodup)
include hnodup

theorem indexToNode_inj {depNode : DepNode} {i j : Nat}
    (hi : (PreviousDepGraph.new serialized).indexToNode i = .ok depNode)
    (hj : (PreviousDepGraph.new serialized).indexToNode j = .ok depNode) : j = i := by
  have hj' := nodeToIndexOpt_of_indexToNode hnodup hj
  rw [nodeToIndexOpt_of_indexToNode hnodup hi] at hj'
  exact (some.inj hj').symm

theorem finishMarking_inv (hinv : Inv (.new serialized) s) {diagnostics : Bool}
    (hcall : CallInv (.new serialized) s.data call [])
    (hstack : StackInv (.new serialized) s.data (some call.prevDepNodeIndex) stack)
    (h : s.finishMarking (.new serialized) call diagnostics stack = .ok s') :
    Inv (.new serialized) s' := by
  obtain ⟨hnode, deps, htargets, hgreen⟩ := hcall
  rw [append_nil] at htargets
  obtain ⟨fingerprint, hfingerprint, h⟩ := bind_eq_ok.1 h
  obtain ⟨⟨k, current⟩, hintern, h⟩ := bind_eq_ok.1 h
  obtain ⟨color, hcolor, h⟩ := bind_eq_ok.1 h
  obtain ⟨_, hassert, h⟩ := bind_eq_ok.1 h
  obtain ⟨emitted, hemit, h⟩ := bind_eq_ok.1 h
  obtain ⟨colors, hinsert, h⟩ := bind_eq_ok.1 h
  cases h
  obtain rfl := isNone_iff_eq_none.1 (assert_eq_ok.1 hassert)
  have hnew : s.data.current.get call.depNode = none := by
    cases hget : s.data.current.get call.depNode with
    | none => rfl
    | some j => exact absurd hcolor (hinv.data.interned hnode hget)
  obtain ⟨hself, hother⟩ := emitSome_insert hemit hinsert
  obtain ⟨hdata, hext, hlast⟩ := record hinv.data hnew hintern (indexToNode_inj hnodup hnode) hnode
    hcolor hself hother fun hj => by
      cases hj
      exact ⟨rfl, hfingerprint⟩
  have hextended := hinv.extend hdata hext
  have hmarked : Inv (.new serialized) { s with
      data := ⟨current, colors⟩, marked := call.prevDepNodeIndex :: s.marked } := by
    refine ⟨hdata, hextended.stack, fun i hi => ?_, hextended.returned⟩
    rcases mem_cons.1 hi with rfl | hi
    · exact ⟨k, deps, _, hself, htargets, hlast, hgreen.mono hext⟩
    · exact hextended.marked i hi
  refine returnMarking_inv hmarked (hstack.mono hext) fun hj => ?_
  cases hj
  exact hself

theorem finishTask_inv (hinv : Inv (.new serialized) s) {key : DepNode} {reads : Option (List Nat)}
    {fp : Option Fingerprint} (hstack : StackInv (.new serialized) s.data none stack)
    (h : s.finishTask (.new serialized) key reads fp stack = .ok s') :
    Inv (.new serialized) s' := by
  obtain ⟨⟨k, current⟩, halloc, h⟩ := bind_eq_ok.1 h
  obtain ⟨hnew, hintern⟩ := allocNode_new halloc
  dsimp only at h
  split at h
  · next p hp =>
    have hnode := indexToNode_of_nodeToIndexOpt hp
    obtain ⟨prevFingerprint, hprev, h⟩ := bind_eq_ok.1 h
    obtain ⟨color, hcolor, h⟩ := bind_eq_ok.1 h
    obtain ⟨_, hassert, h⟩ := bind_eq_ok.1 h
    obtain ⟨colors, hinsert, h⟩ := bind_eq_ok.1 h
    cases h
    obtain rfl := isNone_iff_eq_none.1 (assert_eq_ok.1 hassert)
    obtain ⟨hdata, hext, -⟩ := record hinv.data hnew hintern (indexToNode_inj hnodup hnode) hnode
      hcolor (get_insert_self hinsert) (fun j hj => get_insert_ne hinsert hj) fun hj => by
        obtain ⟨rfl, rfl⟩ := taskColor_eq_green hj
        exact ⟨rfl, hprev⟩
    exact (hinv.extend hdata hext).withStack (hstack.mono hext)
  · next hp =>
    cases h
    obtain ⟨hdata, hext⟩ := intern_new hinv.data hnew hintern fun i hi => by
      rw [nodeToIndexOpt_of_indexToNode hnodup hi] at hp
      cases hp
    exact (hinv.extend hdata hext).withStack (hstack.mono hext)

end

end

theorem StackInv.readIndex (source : Nat) (h : StackInv previous data callee stack) :
    StackInv previous data callee (readIndex source stack) := by
  induction stack generalizing callee with
  | nil => exact h
  | cons frame stack ih =>
    cases frame with
    | marking call => exact ⟨h.1, h.2.1, ih h.2.2⟩
    | recursing call dep => exact ⟨h.1, h.2.1, ih h.2.2⟩
    | forcing call dep => exact ⟨h.1, ih h.2⟩
    | task key reads => cases reads <;> exact h

/-! ## Runs -/

/-- A forced query that succeeds has given its node a colour. -/
def forcedColored (s : Session) : Event → Bool
  | .forced true =>
    match s.stack with
    | .forcing _ depDepNodeIndex :: _ => (s.data.colors.get depDepNodeIndex matches .ok (some _))
    | _ => true
  | _ => true

/-- Whether each step of a run meets a condition. -/
def always (cond : Session → Event → Bool) (previous : PreviousDepGraph) :
    Session → List Event → Bool
  | _, [] => true
  | s, e :: events =>
    cond s e && match s.step previous e with
      | .ok s' => always cond previous s' events
      | .error _ => true

variable {serialized : SerializedDepGraph}

theorem inv_new : Inv previous (Session.new previous) where
  data := dataInv_new previous previous.nodeCount
  stack := trivial
  marked _ hi := nomatch hi
  returned h := nomatch h

theorem step_inv (hnodup : serialized.nodes.Nodup) {e : Event}
    (hinv : Inv (.new serialized) s) (hcond : forcedColored s e)
    (h : s.step (.new serialized) e = .ok s') : Inv (.new serialized) s' := by
  have hstack := hinv.stack
  cases e with
  | tryMarkGreen depNode =>
    obtain ⟨_, hout, h⟩ := bind_eq_ok.1 h
    exact tryMarkGreen_inv hinv (assert_eq_ok.1 hout) h
  | withTask key tracked =>
    obtain ⟨_, _, h⟩ := bind_eq_ok.1 h
    cases h
    exact hinv.withStack hstack
  | readIndex source =>
    obtain ⟨_, _, h⟩ := bind_eq_ok.1 h
    cases h
    exact hinv.withStack (hstack.readIndex source)
  | finishTask fp =>
    rw [step] at h
    split at h
    · next hs =>
      rw [hs] at hstack
      refine finishTask_inv hnodup hinv ?_ h
      exact hstack
    · cases h
  | error =>
    obtain ⟨_, _, h⟩ := bind_eq_ok.1 h
    cases h
    exact ⟨hinv.data, hinv.stack, hinv.marked, hinv.returned⟩
  | resume gone diagnostics =>
    rw [step] at h
    split at h
    · next call stack hs =>
      rw [hs] at hstack
      obtain ⟨-, hcall, hstack⟩ := hstack
      split at h
      · next dep prevDeps hdeps =>
        rw [hdeps] at hcall
        refine visitDependency_inv hinv ?_ ?_ h
        · exact hcall
        · exact hstack
      · next hdeps =>
        rw [hdeps] at hcall
        exact finishMarking_inv hnodup hinv hcall hstack h
    · cases h
  | forced success =>
    rw [step] at h
    split at h
    · next call dep stack hs =>
      rw [hs] at hstack
      refine forced_inv hinv hstack.1 hstack.2 ?_ h
      rintro rfl hnone
      rw [forcedColored, hs] at hcond
      simp [hnone] at hcond
    · cases h

theorem foldlM_inv (hnodup : serialized.nodes.Nodup) {events : List Event}
    (hinv : Inv (.new serialized) s) (hcond : always forcedColored (.new serialized) s events)
    (h : events.foldlM (step (.new serialized)) s = .ok s') : Inv (.new serialized) s' := by
  induction events generalizing s with
  | nil =>
    cases h
    exact hinv
  | cons e events ih =>
    obtain ⟨s1, h1, h2⟩ := bind_eq_ok.1 h
    obtain ⟨he, hrest⟩ := Bool.and_eq_true_iff.1 hcond
    rw [h1] at hrest
    exact ih (step_inv hnodup hinv he h1) hrest h2

/-- The colours and the edges of a session are what the previous graph justifies. -/
structure Sound (previous : PreviousDepGraph) (s : Session) : Prop where
  /-- A green node has the index of its colour, where its fingerprint is the previous one. -/
  green : ∀ i k, s.data.colors.get i = .ok (some (.green k)) → ∃ n d,
    previous.indexToNode i = .ok n ∧ s.data.current.get n = some k ∧
      s.data.current.data[k]? = some d ∧ d.node = n ∧
        previous.fingerprintByIndex i = .ok d.fingerprint
  /-- The dependencies of a node that was marked green are green, and its edges are their
  indices. -/
  marked : ∀ i ∈ s.marked, ∃ k deps d, s.data.colors.get i = .ok (some (.green k)) ∧
    previous.edgeTargetsFrom i = .ok deps ∧ s.data.current.data[k]? = some d ∧
      List.Forall₂ (fun dep edge => s.data.colors.get dep = .ok (some (.green edge)) ∧
        ∃ n, previous.indexToNode dep = .ok n ∧ s.data.current.get n = some edge) deps d.edges
  /-- A node with a red dependency was not marked green. -/
  red : ∀ i deps dep, previous.edgeTargetsFrom i = .ok deps → dep ∈ deps →
    s.data.colors.get dep = .ok (some .red) → i ∉ s.marked

theorem Inv.sound (hinv : Inv previous s) : Sound previous s := by
  have hgreen : ∀ i k, s.data.colors.get i = .ok (some (.green k)) → ∃ n d,
      previous.indexToNode i = .ok n ∧ s.data.current.get n = some k ∧
        s.data.current.data[k]? = some d ∧ d.node = n ∧
          previous.fingerprintByIndex i = .ok d.fingerprint := by
    intro i k hi
    obtain ⟨n, d, hn, hk, hd, hf⟩ := hinv.data.green hi
    obtain ⟨d', hd', hnode⟩ := hinv.data.get hk
    obtain rfl := mem_unique hd' hd
    exact ⟨n, d', hn, hk, hd, hnode, hf⟩
  refine ⟨hgreen, fun i hi => ?_, fun i deps dep htargets hdep hred hi => ?_⟩
  · obtain ⟨k, deps, d, hcolor, htargets, hd, hedges⟩ := hinv.marked i hi
    refine ⟨k, deps, d, hcolor, htargets, hd, List.Forall₂.imp (fun dep edge hdep => ?_) hedges⟩
    obtain ⟨n, -, hn, hk, -⟩ := hgreen dep edge hdep
    exact ⟨hdep, n, hn, hk⟩
  · obtain ⟨k, deps', d, -, htargets', -, hedges⟩ := hinv.marked i hi
    cases htargets.symm.trans htargets'
    obtain ⟨edge, -, hgreen⟩ := forall₂_exists_right hedges hdep
    cases hred.symm.trans hgreen

/-- **Red/green marking is sound** in every state of a run in which each forced query that succeeds
has coloured its node. -/
theorem marking_sound (hnodup : serialized.nodes.Nodup) {events : List Event}
    (hrun : run (.new serialized) events = .ok s)
    (hcond : always forcedColored (.new serialized) (Session.new (.new serialized)) events) :
    Sound (.new serialized) s :=
  (foldlM_inv hnodup inv_new hcond hrun).sound

/-- A node that depends on one that is always evaluated. -/
def pairGraph : SerializedDepGraph where
  nodes := [⟨.other 0 false, (0, 0)⟩, ⟨.other 1 true, (0, 1)⟩]
  fingerprints := [(2, 3), (4, 5)]
  edgeListIndices := [(0, 1), (1, 1)]
  edgeListData := [1]

/-- The dependency is forced and its task has the fingerprint it had. -/
def pairEvents : List Event :=
  [.tryMarkGreen ⟨.other 0 false, (0, 0)⟩, .resume false false, .withTask ⟨.other 1 true, (0,
    1)⟩ false, .finishTask (some (4, 5)), .forced true, .resume false false]

theorem marking_sound_pairGraph : ∃ s, run (.new pairGraph) pairEvents = .ok s ∧
    s.marked = [0] ∧ Sound (.new pairGraph) s := by
  have hcond : always forcedColored (.new pairGraph) (Session.new (.new pairGraph)) pairEvents := by
    decide
  refine ⟨_, rfl, rfl, marking_sound (by decide) ?_ hcond⟩
  rfl

/-- The forced query reports an error and gives the dependency no colour: the node turns green
without the edge. -/
theorem marking_unsound : ¬∀ (serialized : SerializedDepGraph) (events : List Event) (s : Session),
    serialized.nodes.Nodup → run (.new serialized) events = .ok s → Sound (.new serialized) s := by
  intro h
  have hsound := h pairGraph [.tryMarkGreen ⟨.other 0 false, (0, 0)⟩, .resume false false, .error,
    .forced true, .resume false false] _ (by decide) rfl
  obtain ⟨k, deps, d, -, htargets, -, hedges⟩ := hsound.marked 0 (by decide)
  cases htargets
  obtain ⟨edge, -, hgreen, -⟩ := forall₂_exists_right hedges mem_cons_self
  cases hgreen

end Session

end Tortis.DepGraph
