import Tortis.Lib.Acyclic
import Tortis.Transaction.Rules

/-!
# Termination of the use-def analysis

`UseDefVisitor.perform_ends`: the analysis of a body ends when, among the vertices that are reached
from its allocations, no value flows in a cycle and no vertex leads to its own tracing through calls
alone. Neither is checked: a recursive function that passes its argument on to itself is entered
again and again.
-/

namespace Tortis

open UseDefVisitor Outcome List FxHashMap Ends Runs Relation

/-! ## The parts without recursion -/

theorem locationToUseKind_ends (tcx : TyCtxt) (loc : Location) (id : UniqueId) (body : Body) :
    Ends (locationToUseKind tcx loc id body) := by
  have hdest : ∀ {dest : Option (Place × BasicBlock)} (k : Local → UseKind),
      Ends (do let l ← unwrap (localFromDest dest); return some (k l)) := fun k =>
    (ends_unwrap _).bind fun _ _ => by simp
  unfold locationToUseKind
  split
  · simp
  · split
    · simp
    · split
      · simp
      · refine (ends_unwrap _).bind fun term _ => ?_
        unfold terminatorUseKind
        split
        · simp only
          split
          · exact hdest .read
          · split
            · exact hdest .write
            · split
              · exact hdest .loc
              · split
                · unfold functionUseKind
                  split
                  · exact hdest (.function · _ _)
                  · split
                    · exact hdest (.function · _ _)
                    · simp
                · simp
        · simp

theorem analyze_ends (body : Body) : Ends (DefUseAnalysis.analyze body) := by
  refine bind ?_ fun _ _ => by simp
  refine (foldlM (I := fun _ => True) trivial fun s x _ _ => runs ?_ fun _ _ => trivial).ends
  unfold DefUseAnalysis.visitLocal
  split <;> simp

namespace TransactionMap

theorem visitTerminator_ends (tm : TransactionMap) (term : Terminator) (loc : Location) :
    Ends (tm.visitTerminator term loc) := by
  unfold visitTerminator
  split
  · refine (ends_unwrap _).bind fun lk _ => ?_
    split
    · exact (ends_unwrap _).bind fun _ _ => by simp
    · refine (ends_unwrap _).bind fun ul _ => ?_
      split
      · split
        · exact (ends_unwrap _).bind fun _ _ => by simp
        · simp
      · split <;> simp
  · simp

theorem visitBasicBlockData_ends (tm : TransactionMap) (bb : BasicBlock) :
    Ends (tm.visitBasicBlockData bb) := by
  refine (ends_expect _ _).bind fun data _ => ?_
  split
  · exact tm.visitTerminator_ends _ _
  · simp

theorem perform_ends (ord : IterOrder) {tm : TransactionMap} (h : tm.body.WF) :
    Ends (tm.perform ord) := by
  have hloop : ∀ {σ β : Type} (f : σ → β → Outcome σ), (∀ s x, Ends (f s x)) →
      ∀ (l : List β) s, Ends (l.foldlM f s) := fun f hf l s =>
    (foldlM (I := fun _ => True) trivial fun s x _ _ => (hf s x).runs fun _ _ => trivial).ends
  refine bind ?_ fun tm' _ => hloop _ (fun tm e => ?_) _ _
  · unfold walkBlocks
    split
    · obtain ⟨rpo, hrpo, -⟩ := reversePostorder_spec h
      rw [hrpo]
      exact hloop _ visitBasicBlockData_ends _ _
    · simp
  · exact (ends_unwrap _).bind fun _ _ => by simp

end TransactionMap

/-! ## What a run of the analysis keeps -/

namespace UseDefVisitor

/-- A visitor of a body of the crate that has recorded only edges along which values flow. -/
structure Good (tcx : TyCtxt) (root : DefId) (v : UseDefVisitor) : Prop where
  body : tcx.bodies.get v.defId = some v.body
  analysis : DefUseAnalysis.analyze v.body = .ok v.analysis
  edges : ∀ a b, v.edges.Rel a b → Leads tcx a b ∧ Reached tcx root a
  arg : ∀ a, v.argId = some a → Reached tcx root a ∧
    ∃ loc l i, Sees tcx a loc (.function l v.defId i) ∧ v.argIndex = some (followedArg a i)

/-- What every part of the analysis makes of a visitor: a later, good state. -/
def Goes (tcx : TyCtxt) (root : DefId) (v v' : UseDefVisitor) : Prop :=
  Good tcx root v' ∧ Later v v'

section
variable {ord : IterOrder} {tcx : TyCtxt} {root : DefId} {v v' : UseDefVisitor}

theorem Good.goes (hg : Good tcx root v) : Goes tcx root v v := ⟨hg, .refl v⟩

theorem Good.later (hg : Good tcx root v) (hl : Later v v')
    (he : ∀ a b, v'.edges.Rel a b → Leads tcx a b ∧ Reached tcx root a) : Goes tcx root v v' := by
  refine ⟨⟨?_, ?_, he, ?_⟩, hl⟩
  · rw [hl.defId, hl.body, hg.body]
  · rw [hl.body, hl.analysis, hg.analysis]
  · rw [hl.argId, hl.defId, hl.argIndex]
    exact hg.arg

theorem Goes.trans {v1 v2 v3 : UseDefVisitor} (h : Goes tcx root v1 v2) (h' : Goes tcx root v2 v3) :
    Goes tcx root v1 v3 :=
  ⟨h'.1, h.2.trans h'.2⟩

theorem goes_progress : Progress (Goes tcx root) :=
  ⟨fun h => h.2, fun h => h.1.goes, Goes.trans⟩

variable {b id : UniqueId}

theorem goes_connect (hg : Good tcx root v) {a : UniqueId}
    (hf : Leads tcx a b) (ha : Reached tcx root a) : Goes tcx root v (v.connect a b) := by
  refine hg.later (later_connect v a b) fun x y hxy => ?_
  rcases rel_addTo.1 hxy with ⟨rfl, rfl⟩ | h
  exacts [⟨hf, ha⟩, hg.edges x y h]

theorem goes_visit (hg : Good tcx root v) (id : UniqueId) (alloc : Option UniqueId) :
    Goes tcx root v
      { v with currentAllocation := alloc, vertices := v.vertices.insert id } :=
  hg.later (later_visit v id alloc) hg.edges

section
variable (h : v.mapAllocation b = .ok v')
include h

theorem mapAllocation_eq : ∃ sets, v' = { v with allocationSet := sets } := by
  obtain rfl | ⟨t, use, rfl⟩ := mapAllocation_cases h
  · exact ⟨_, rfl⟩
  · exact ⟨_, rfl⟩

theorem edges_mapAllocation : v'.edges = v.edges := by
  obtain ⟨sets, rfl⟩ := mapAllocation_eq h
  rfl

theorem vertices_mapAllocation : v'.vertices = v.vertices := by
  obtain ⟨sets, rfl⟩ := mapAllocation_eq h
  rfl

end

theorem goes_mapAllocation (hg : Good tcx root v)
    (h : v.mapAllocation b = .ok v') : Goes tcx root v v' :=
  hg.later (later_mapAllocation h) (edges_mapAllocation h ▸ hg.edges)

theorem mapAllocation_ends (v : UseDefVisitor) (b : UniqueId) : Ends (v.mapAllocation b) := by
  unfold mapAllocation
  split
  · exact (ends_unwrap _).bind fun _ _ => (ends_unwrap _).bind fun _ _ => by simp
  · simp

theorem goes_borrow (hg : Good tcx root v) {w : Bool} (hid : Reached tcx root id)
    (hb : Borrows tcx id b w) (h : v.borrow id b w = .ok v') : Goes tcx root v v' := by
  obtain ⟨v1, h1, h⟩ := bind_eq_ok.1 h
  cases h
  have hw : Goes tcx root v { v with isWrite := v.isWrite.insert b w } :=
    hg.later ⟨rfl, rfl, rfl, rfl, rfl, fun _ h => h, fun _ _ h => h⟩ hg.edges
  have hm := hw.trans (goes_mapAllocation hw.1 h1)
  have hc := goes_connect hm.1 (.inr ⟨_, hb⟩) hid
  exact (hm.trans hc).trans (goes_visit hc.1 b (v1.connect id b).currentAllocation)

theorem goes_merge {child : UseDefVisitor} (hg : Good tcx root v) (hc : Good tcx root child) :
    Goes tcx root v (v.merge ord child) := by
  refine hg.later (later_merge ord v child) fun a b hab => ?_
  rcases rel_extendAll.1 hab with h | h
  exacts [hg.edges a b h, hc.edges a b h]

variable {loc : Location}

theorem good_childOf (hg : Good tcx root v)
    (hid : Reached tcx root id) {l : Local} {fn : DefId} {i : Nat}
    (hs : Sees tcx id loc (.function l fn i)) {body : Body} {analysis : DefUseAnalysis}
    (hbody : tcx.bodies.get fn = some body) (han : DefUseAnalysis.analyze body = .ok analysis) :
    Good tcx root (childOf tcx v id loc l fn i body analysis) := by
  refine ⟨hbody, han, hg.edges, ?_⟩
  rintro a ⟨rfl⟩
  exact ⟨hid, loc, l, i, hs, rfl⟩

theorem reached_entered (hid : Reached tcx root id) {l : Local}
    {fn : DefId} {i : Nat} (hs : Sees tcx id loc (.function l fn i)) {via : Via} (hb : Entered tcx id fn i via b) :
    Retraced tcx id b ∧ Reached tcx root b ∧ b.defId = fn := by
  rcases hb with ⟨-, hb⟩ | ⟨-, hb⟩
  · exact ⟨.arg hs hb, hid.retraced (.arg hs hb), hb.defId_eq⟩
  · exact ⟨.alloc hs hb, hid.retraced (.alloc hs hb), hb.defId_eq⟩

end

/-! ## Termination -/

/-- Among the vertices reached from the allocations of a body, no value flows in a cycle, and no
vertex leads to its own tracing through calls alone. -/
structure NoFlowCycle (tcx : TyCtxt) (root : DefId) : Prop where
  flow : ∀ id, Reached tcx root id → ¬ TransGen (Flow tcx) id id
  retraced : ∀ id, Reached tcx root id → ¬ TransGen (Retraced tcx) id id

section
variable (ord : IterOrder) {tcx : TyCtxt} {root : DefId}

open Classical in
noncomputable def reachedSet (tcx : TyCtxt) (root : DefId) : Finset UniqueId :=
  tcx.vertexSet.filter (Reached tcx root)

variable {id : UniqueId}

theorem mem_reachedSet : id ∈ reachedSet tcx root ↔ Reached tcx root id := by
  classical
  rw [reachedSet, Finset.mem_filter]
  exact ⟨And.right, fun h => ⟨h.inCrate.mem_vertexSet, h⟩⟩

variable {a : UniqueId}

theorem acc_of_reached {r : UniqueId → UniqueId → Prop}
    (hr : ∀ a b, Reached tcx root a → r a b → Reached tcx root b)
    (hac : ∀ a, Reached tcx root a → ¬ TransGen r a a)
    (ha : Reached tcx root a) : Acc (fun b a => r a b) a :=
  acc_of_acyclic (reachedSet tcx root)
    (fun a ha b hab => mem_reachedSet.2 (hr a b (mem_reachedSet.1 ha) hab))
    (fun a ha => hac a (mem_reachedSet.1 ha)) a (mem_reachedSet.2 ha)

variable {v : UseDefVisitor} {s : FxHashSet UniqueId}

theorem Good.useSet_not_reached (hg : Good tcx root v)
    (ha : ¬ Reached tcx root a) (hs : v.edges.get a = some s) (n : Nat) :
    v.useSet ord (n + 1) s = .ok ∅ := by
  have hempty : ord.order s.toList = [] := eq_nil_iff_forall_not_mem.2 fun b hb =>
    ha (hg.edges a b ⟨s, hs, (IterOrder.mem_order ..).1 hb⟩).2
  rw [useSet, hempty]
  rfl

theorem useSet_ends (hc : ∀ id, Reached tcx root id → ¬ TransGen (Flow tcx) id id) :
    ∃ N, ∀ n ≥ N, ∀ v a s, Good tcx root v → v.edges.get a = some s → Ends (v.useSet ord n s) := by
  have vertex : ∀ a, Reached tcx root a → ∃ N, ∀ n ≥ N, ∀ v s, Good tcx root v →
      v.edges.get a = some s → Ends (v.useSet ord n s) := by
    intro a ha
    induction acc_of_reached (fun a b ha hab => ha.flow hab) hc ha with
    | intro a _ ih =>
      obtain ⟨N, hN⟩ := exists_fuel (Q := Flow tcx a) (reachedSet tcx root)
        fun b hb hab => ih b hab (mem_reachedSet.1 hb)
      refine ⟨N + 2, fun n hn v s hg hs => ?_⟩
      obtain ⟨m, rfl⟩ : ∃ m, n = m + 2 := ⟨n - 2, by omega⟩
      refine (foldlM (I := fun _ => True) trivial
        fun acc b hb _ => runs ?_ fun _ _ => trivial).ends
      have hab := (hg.edges a b ⟨s, hs, by simpa using hb⟩).1
      split
      · next s' hs' =>
        refine bind ?_ fun _ _ => by simp
        rcases hab with hab | ⟨w, hab⟩
        · exact hN (m + 1) (by omega) b (mem_reachedSet.2 (ha.flow hab)) hab v s' hg hs'
        · rw [hg.useSet_not_reached ord (fun hb => hb.not_borrows hab) hs']
          simp
      · exact (ends_unwrap _).bind fun _ _ => by simp
  obtain ⟨N, hN⟩ := exists_fuel (Q := Reached tcx root) (reachedSet tcx root) fun a _ ha =>
    vertex a ha
  refine ⟨N + 1, fun n hn v a s hg hs => ?_⟩
  by_cases ha : Reached tcx root a
  · exact hN n (by omega) a (mem_reachedSet.2 ha) ha v s hg hs
  · obtain ⟨m, rfl⟩ : ∃ m, n = m + 1 := ⟨n - 1, by omega⟩
    rw [hg.useSet_not_reached ord ha hs]
    simp

/-- The number of vertices that are not marked yet. -/
def unmarked (tcx : TyCtxt) (s : FxHashSet UniqueId) : Nat := (tcx.vertexSet.filter (· ∉ s)).card

theorem unmarked_insert_lt (hid : id ∈ tcx.vertexSet)
    (hs : id ∉ s) : unmarked tcx (s.insert id) < unmarked tcx s := by
  refine Finset.card_lt_card ⟨fun x hx => ?_, fun h => ?_⟩
  · simp only [Finset.mem_filter, FxHashSet.mem_insert, not_or] at hx ⊢
    exact ⟨hx.1, hx.2.2⟩
  · have : id ∈ tcx.vertexSet.filter (· ∉ s.insert id) := h (by simp [hid, hs])
    simp at this

theorem unmarked_mono {s s' : FxHashSet UniqueId} (h : ∀ id ∈ s, id ∈ s') :
    unmarked tcx s' ≤ unmarked tcx s := by
  refine Finset.card_le_card fun x hx => ?_
  simp only [Finset.mem_filter] at hx ⊢
  exact ⟨hx.1, fun hs => hx.2 (h x hs)⟩

theorem follow_ends (hg : Good tcx root v) {id b : UniqueId} {n : Nat} {t : Tracer}
    (hid : Reached tcx root id) (hf : Flow tcx id b)
    (huse : ∀ v a s, Good tcx root v → v.edges.get a = some s → Ends (v.useSet ord n s))
    (ht : ∀ v', Goes tcx root v v' → b ∉ v.vertices →
      unmarked tcx v'.vertices < unmarked tcx v.vertices →
      Runs (· ≠ .outOfFuel) (t v' b) (Goes tcx root v')) :
    Runs (· ≠ .outOfFuel) (v.follow ord t n id b) (Goes tcx root v) := by
  have hc := goes_connect hg (.inl hf) hid
  unfold follow
  simp only
  split
  · refine bind (P := fun s => (v.connect id b).edges.get b = some s)
      (.unwrap (fun _ _ => nofun) fun _ h => h) fun s hs => ?_
    refine bind (P := fun _ => True) ((huse _ _ _ hc.1 hs).runs fun _ _ => trivial)
      fun uses _ => ?_
    refine foldlM (I := Goes tcx root v) hc fun v' use _ hv' => ?_
    exact (mapAllocation_ends _ _).runs fun v'' h => hv'.trans (goes_mapAllocation hv'.1 h)
  · next hnot =>
    have hv := goes_visit hc.1 b (v.connect id b).currentAllocation
    have hr : Reached tcx root b := hid.flow hf
    exact (ht _ (hc.trans hv) hnot (unmarked_insert_lt hr.inCrate.mem_vertexSet hnot)).mono
      fun _ h => (hc.trans hv).trans h

theorem performWith_ends (hg : Good tcx root v) {t : Tracer} (hwf : v.transactionMap.body.WF)
    (ht : ∀ v' via b, Goes tcx root v v' → IsStart tcx v via b → b.defId = v'.defId →
      Runs (· ≠ .outOfFuel) (t v' b) (Goes tcx root v')) :
    Runs (· ≠ .outOfFuel) (v.performWith ord tcx t) (Goes tcx root v) := by
  have hpanics : Panics (· ≠ Halt.outOfFuel) := fun _ => nofun
  refine (performWith_runs (I := fun _ => Goes tcx root v) (U := fun _ _ _ => True) goes_progress
    (fun _ _ _ _ _ _ => trivial) hg.body (fun h => ⟨h.2, h.1.goes⟩) ?_ (fun _ _ => hpanics) ?_ ?_
    (fun _ _ h => h) fun _ _ _ _ _ _ _ _ _ => hpanics).mono fun _ h => h.1
  · refine (TransactionMap.perform_ends ord hwf).runs fun tm _ => ?_
    exact hg.later ⟨rfl, rfl, rfl, rfl, rfl, fun _ => id, fun _ _ h => h⟩ hg.edges
  · intro pre data bb post c a i p _ hc _ ha hi hp
    obtain ⟨hra, loc, l, j, hs, hj⟩ := hg.arg a ha
    obtain rfl : i = followedArg a j := Option.mem_unique hi hj
    have hconn := goes_connect hc.1 (.inl (Flow.arg hs hp)) hra
    have hvis := hconn.trans (goes_visit hconn.1 p (c.connect a p).currentAllocation)
    refine (ht _ _ p (hc.trans hvis) (.inr ⟨rfl, a, _, ha, hi, hp⟩) ?_).mono fun c' h => ?_
    · rw [(hc.trans hvis).2.defId, hp.defId_eq]
    · exact ⟨(hc.trans hvis).trans h, hvis.trans h, trivial⟩
  · intro pre data bb post c a _ hc _ ha
    have hvis := goes_visit hc.1 a (some a)
    refine (ht _ _ a (hc.trans hvis) (.inl ⟨rfl, ha⟩) ?_).mono fun c' h => ?_
    · rw [(hc.trans hvis).2.defId, ha.defId_eq]
    · have hnone : Goes tcx root c' { c' with currentAllocation := none } :=
        h.1.later ⟨rfl, rfl, rfl, rfl, rfl, fun _ => id, fun _ _ h => h⟩ h.1.edges
      exact ⟨((hc.trans hvis).trans h).trans hnone, (hvis.trans h).trans hnone, trivial⟩

/-- `trace` ends: a recursive call either marks a vertex, or retraces one along a relation without
cycles. -/
theorem trace_ends (hwf : ∀ d body, tcx.bodies.get d = some body → body.WF)
    (hc : NoFlowCycle tcx root) (k : Nat) :
    ∃ N, ∀ n ≥ N, ∀ id, Reached tcx root id → ∀ v, Good tcx root v → unmarked tcx v.vertices ≤ k →
      id.defId = v.defId → Runs (· ≠ .outOfFuel) (trace ord tcx n v id) (Goes tcx root v) := by
  obtain ⟨U, hU⟩ := useSet_ends ord hc.flow
  induction k using Nat.strong_induction_on with
  | _ k ih =>
    obtain ⟨M, hM⟩ : ∃ M, ∀ n ≥ M, ∀ id, Reached tcx root id → ∀ v, Good tcx root v →
        unmarked tcx v.vertices < k → id.defId = v.defId →
        Runs (· ≠ .outOfFuel) (trace ord tcx n v id) (Goes tcx root v) := by
      cases k with
      | zero => exact ⟨0, by simp⟩
      | succ k =>
        obtain ⟨M, hM⟩ := ih k (lt_add_one k)
        exact ⟨M, fun n hn id hid v hg hlt => hM n hn id hid v hg (Nat.le_of_lt_succ hlt)⟩
    have vertex : ∀ id, Reached tcx root id → ∃ N, ∀ n ≥ N, ∀ v, Good tcx root v →
        unmarked tcx v.vertices ≤ k → id.defId = v.defId →
        Runs (· ≠ .outOfFuel) (trace ord tcx n v id) (Goes tcx root v) := by
      intro id hid
      induction acc_of_reached (fun a b ha hab => ha.retraced hab) hc.retraced hid with
      | intro id _ ih' =>
        obtain ⟨N, hN⟩ := exists_fuel (Q := Retraced tcx id) (reachedSet tcx root)
          fun b hb hab => ih' b hab (mem_reachedSet.1 hb)
        refine ⟨max (max N M) U + 1, fun n hn v hg hk hd => ?_⟩
        obtain ⟨m, rfl⟩ : ∃ m, n = m + 1 := ⟨n - 1, by omega⟩
        have hpanics : Panics (· ≠ Halt.outOfFuel) := fun _ => nofun
        refine (trace_succ_runs (U := fun _ _ _ _ => True) goes_progress (fun _ _ _ _ _ _ _ => trivial)
          hg.goes hg.body hg.analysis hd (fun _ => hpanics) ?_ ?_ ?_ ?_).mono fun _ h => h.1
        · rintro use _ _ he rfl
          exact locationToUseKind_ends tcx use.location id v.body he
        · intro v' b hv' hi hd'
          have hf := hi.flow.1
          refine (follow_ends ord hv'.1 hid hf (hU m (by omega)) fun v'' hv'' hnot hlt => ?_).mono
            fun _ h => ⟨h, trivial⟩
          refine hM m (by omega) b (hid.flow hf) v'' hv''.1 ?_ (by rw [hd', hv''.2.defId])
          exact hlt.trans_le ((unmarked_mono hv'.2.vertices).trans hk)
        · intro v' b w hv' hb _
          refine runs ?_ fun v'' h => ⟨goes_borrow hv'.1 hid hb h, trivial⟩
          exact (mapAllocation_ends _ _).bind fun _ _ => by simp
        · intro v' loc l fn i hv' hs
          refine enterFunction_runs (fun _ => hpanics) (fun body _ e he h => ?_) ?_
          · exact analyze_ends body (h ▸ he)
          · intro body analysis hbody han
            have hgc := good_childOf hv'.1 hid hs hbody han
            refine (performWith_ends ord hgc (hwf fn body hbody) fun c via b hc hb hd' => ?_).mono
              fun child hchild => ⟨goes_merge hv'.1 hchild.1, fun _ _ _ => trivial⟩
            obtain ⟨hre, hrb, -⟩ := reached_entered hid hs (isStart_childOf.1 hb)
            refine hN m (by omega) b (mem_reachedSet.2 hrb) hre c hc.1 ?_ hd'
            exact (unmarked_mono hc.2.vertices).trans ((unmarked_mono hv'.2.vertices).trans hk)
    obtain ⟨N, hN⟩ := exists_fuel (Q := Reached tcx root) (reachedSet tcx root) fun a _ ha =>
      vertex a ha
    exact ⟨N, fun n hn id hid v hg hk hd => hN n hn id (mem_reachedSet.2 hid) hid v hg hk hd⟩

variable {body : Body}

theorem good_new (hbody : tcx.bodies.get root = some body)
    (h : UseDefVisitor.new body root tcx = .ok v) :
    Good tcx root v ∧ v.defId = root ∧ v.argId = none ∧ v.transactionMap.body = body := by
  obtain ⟨analysis, han, h⟩ := bind_eq_ok.1 h
  cases h
  exact ⟨⟨hbody, han, fun a b h => absurd h (by simp), nofun⟩, rfl, rfl, rfl⟩

theorem perform_ends (hwf : ∀ d body, tcx.bodies.get d = some body → body.WF)
    (hbody : tcx.bodies.get root = some body) (hc : NoFlowCycle tcx root) :
    ∃ N, ∀ n ≥ N, Ends (UseDefVisitor.new body root tcx >>= fun v => v.perform ord tcx n) := by
  obtain ⟨N, hN⟩ := trace_ends ord hwf hc tcx.vertexSet.card
  refine ⟨N, fun n hn => bind ?_ fun v hv => ?_⟩
  · exact (analyze_ends body).bind fun _ _ => by simp
  · obtain ⟨hg, hdef, harg, htm⟩ := good_new hbody hv
    refine ((performWith_ends ord hg (htm ▸ hwf root body hbody) ?_).bind
      (Q := fun _ => True) fun _ _ => .ok trivial).ends
    rintro v' via id hv' (⟨-, halloc⟩ | ⟨-, a, j, ha, -⟩) hd
    · exact hN n hn id (.alloc (hdef ▸ halloc)) v' hv'.1 (Finset.card_filter_le ..) hd
    · rw [harg] at ha
      cases ha

end

end UseDefVisitor

/-! ## Crates without cycles -/

/-- The vertices that are reached from a body can be listed so that each comes before those it leads
to. -/
def Sorted (tcx : TyCtxt) (root : DefId) (order : List UniqueId) : Prop :=
  (∀ id ∈ allocsOf tcx root, id ∈ order) ∧
    ∀ id ∈ order, ∀ id' ∈ nextVertices tcx id, id' ∈ order ∧ order.idxOf id < order.idxOf id'

instance (tcx : TyCtxt) (root : DefId) (order : List UniqueId) :
    Decidable (Sorted tcx root order) :=
  inferInstanceAs (Decidable (_ ∧ _))

variable {tcx : TyCtxt} {root : DefId} {order : List UniqueId}

theorem Sorted.mem_of_reached
    (h : Sorted tcx root order) {id : UniqueId} (hid : Reached tcx root id) : id ∈ order := by
  induction hid with
  | alloc halloc => exact h.1 _ halloc.mem
  | flow _ hflow ih => exact (h.2 _ ih _ hflow.mem).1
  | retraced _ hre ih => exact (h.2 _ ih _ hre.mem).1

theorem Sorted.noFlowCycle (h : Sorted tcx root order) : UseDefVisitor.NoFlowCycle tcx root := by
  have hacyclic : ∀ {r : UniqueId → UniqueId → Prop},
      (∀ a b, r a b → b ∈ nextVertices tcx a) → ∀ id ∈ order, ¬ TransGen r id id := by
    intro r hr id hid hcycle
    have hlt : ∀ b, TransGen r id b → b ∈ order ∧ order.idxOf id < order.idxOf b := by
      intro b hb
      induction hb with
      | single hab => exact h.2 _ hid _ (hr _ _ hab)
      | tail _ hbc ih =>
        obtain ⟨hmem, hlt⟩ := h.2 _ ih.1 _ (hr _ _ hbc)
        exact ⟨hmem, ih.2.trans hlt⟩
    exact absurd (hlt id hcycle).2 (lt_irrefl _)
  exact ⟨fun id hid => hacyclic (fun _ _ => Flow.mem) id (h.mem_of_reached hid),
    fun id hid => hacyclic (fun _ _ => Retraced.mem) id (h.mem_of_reached hid)⟩

/-! ## A function that passes its argument on to itself -/

namespace Sample

/-- `fn main() { let p = TxPtr::new(..); f(p) }`. -/
def mainOf : Body :=
  body [block [] (call txPtrNew [] 1 1), block [] (call ⟨0, 1⟩ [moved 1] 2 2), block [] .ret] 3 0

variable {b0 b1 : Body}

theorem get_crate {d : DefId} : (crate [b0, b1]).bodies.get d =
    if d = ⟨0, 1⟩ then some b1 else if d = ⟨0, 0⟩ then some b0 else none := by
  rw [show (crate [b0, b1]).bodies = AList.insert ⟨0, 1⟩ b1 (AList.insert ⟨0, 0⟩ b0 ∅) from rfl,
    get_insert, get_insert, get_empty]

theorem wf_crate (h0 : b0.WF) (h1 : b1.WF) (d : DefId) (b : Body)
    (h : (crate [b0, b1]).bodies.get d = some b) : b.WF := by
  rw [get_crate] at h
  split at h
  · cases h
    exact h1
  · split at h <;> cases h
    exact h0

theorem mainOf_wf : mainOf.WF := Body.wf_of_blocks (by decide) (by decide)

/-- `fn f(p) { match p { _ => f(p) } }`: the match leaves a fake read of the argument. -/
def recursive : Body :=
  body [block [.fakeRead (.ofLocal 1)] (call ⟨0, 1⟩ [moved 1] 2 1), block [] .ret] 3 1

/-- The crate of the two functions. -/
def recursiveCrate : TyCtxt := crate [mainOf, recursive]

/-- The occurrence of the argument. -/
def recursiveArg : UniqueId := ⟨⟨0, 1⟩, 1, ⟨0, 0⟩, none⟩

theorem helper_kind : isRead "const helper" = false ∧ isTreeFind "const helper" = false ∧
    isWriteCall "const helper" = false ∧ isTreeAdd "const helper" = false ∧
    isDeref "const helper" = false ∧ isVecDeref "const helper" = false ∧
    isTreeDeref "const helper" = false ∧ isArcNew "const helper" = false ∧
    isClone "const helper" = false ∧ isVecIndex "const helper" = false ∧
    isArcVecIndex "const helper" = false ∧ isAllocation "const helper" = false := by
  decide

theorem terminatorUseKind_recursive (l : Local) (id : UniqueId) (hl : id.localId = l)
    (target : BasicBlock) (dest : Local) :
    terminatorUseKind recursiveCrate id (call ⟨0, 1⟩ [moved l] dest target) =
      .ok (some (.function dest ⟨0, 1⟩ 0)) := by
  obtain ⟨h1, h2, h3, h4, h5, h6, h7, h8, h9, h10, h11, -⟩ := helper_kind
  have hname : recursiveCrate.funcName (.constant (.zeroSized (.fnDef ⟨0, 1⟩ []))) =
      "const helper" := rfl
  simp only [terminatorUseKind, call, hname, h1, h2, h3, h4, h5, h6, h7, h8, h9, h10, h11]
  simp [functionUseKind, Const.zeroSized, moved, getLocal, Place.ofLocal, Place.localOrDerefLocal,
    localFromDest, hl, findIdx?_cons]

variable {analysis : DefUseAnalysis}

theorem enterFunction_recursive {t : Tracer} (han : DefUseAnalysis.analyze recursive = .ok analysis)
    (ht : ∀ v : UseDefVisitor, v.defId = ⟨0, 1⟩ → v.body = recursive → v.analysis = analysis →
      t v recursiveArg = .error .outOfFuel)
    (v : UseDefVisitor) {useId : UniqueId} (hf : useId.field = none) (loc : Location) (l : Local) :
    v.enterFunction .entries recursiveCrate t useId loc l ⟨0, 1⟩ 0 = .error .outOfFuel := by
  have hbody : recursiveCrate.mirValidated ⟨0, 1⟩ = .ok recursive := rfl
  have hplain : ∀ x, ¬ IsLock recursive lock x ∧ ¬ IsUnlock recursive unlock x := by
    intro x
    have hcallee : recursive.callee x = none ∨ recursive.callee x = some ⟨0, 1⟩ := by
      match x with
      | 0 => exact .inr rfl
      | 1 => exact .inl rfl
      | _ + 2 => exact .inl rfl
    rcases hcallee with h | h <;> simp [IsLock, IsUnlock, h, lock, unlock]
  have hwf : recursive.WF := Body.wf_of_blocks (by decide) (by decide)
  generalize htx : v.transactionMap.terminatorToTx.get (v.uniqueId l loc none) = txIds
  obtain ⟨tm, htm, -⟩ := @TransactionMap.perform_plain .entries
    (TransactionMap.newChild ⟨0, 1⟩ recursive txIds langItems v.transactionMap.terminatorToTx)
    hwf _ _ rfl rfl hplain rfl (by
      intro id hid
      obtain _ | ⟨lockId, unlockId⟩ := txIds
      · cases hid
      · cases hid
        exact ⟨unlockId, get_insert_self ..⟩)
  have hperform : ∀ child : UseDefVisitor, child.defId = ⟨0, 1⟩ → child.body = recursive →
      child.analysis = analysis → child.argId = some useId → child.argIndex = some 0 →
      child.transactionMap.perform .entries = .ok tm →
      child.performWith .entries recursiveCrate t = .error .outOfFuel := by
    intro child hd hb ha harg hidx hp
    have hvisit : ∀ w : UseDefVisitor, w.defId = ⟨0, 1⟩ → w.body = recursive →
        w.analysis = analysis → w.argId = some useId → w.argIndex = some 0 →
        w.visitLocal t 1 ⟨0, 0⟩ = .error .outOfFuel := by
      intro w hd hb ha harg hidx
      have hkind : recursive.localKind 1 = .arg := rfl
      simp only [visitLocal, harg, hb, hkind, hidx, hf, uniqueId, hd]
      exact ht _ hd hb ha
    have hblocks : recursive.basicBlocks.zipIdx =
        [(block [.fakeRead (.ofLocal 1)] (call ⟨0, 1⟩ [moved 1] 2 1), 0), (block [] .ret, 1)] := rfl
    have hlocals : (block [.fakeRead (.ofLocal 1)] (call ⟨0, 1⟩ [moved 1] 2 1)).statementLocals 0 =
        [(1, .nonMutatingUse .inspect, ⟨0, 0⟩)] := rfl
    rw [performWith, hp, ok_bind, hb, hblocks, foldlM_cons]
    simp only [visitBasicBlockData, hlocals, foldlM_cons]
    rw [hvisit { child with body := recursive, transactionMap := tm } hd rfl ha harg hidx]
    rfl
  unfold enterFunction
  rw [hbody, ok_bind, htx]
  simp only [hf, newChild, han, ok_bind, pure_eq]
  rw [hperform _ rfl rfl rfl rfl rfl htm]
  rfl

theorem trace_recursive
    (han : DefUseAnalysis.analyze recursive = .ok analysis) : ∀ (n : Nat) (v : UseDefVisitor),
      v.defId = ⟨0, 1⟩ → v.body = recursive → v.analysis = analysis →
      trace .entries recursiveCrate n v recursiveArg = .error .outOfFuel
  | 0, _, _, _, _ => rfl
  | n + 1, v, hd, hb, ha => by
    have hinfo : v.analysis.localInfo 1 = .ok [⟨.nonMutatingUse .inspect, ⟨0, 0⟩⟩,
        ⟨.nonMutatingUse .move, ⟨0, 1⟩⟩] := by
      rw [ha, DefUseAnalysis.analyze_spec han]
      rfl
    have h0 : locationToUseKind recursiveCrate ⟨0, 0⟩ recursiveArg recursive = .ok none := rfl
    have h1 : locationToUseKind recursiveCrate ⟨0, 1⟩ recursiveArg recursive =
        .ok (some (.function 2 ⟨0, 1⟩ 0)) :=
      terminatorUseKind_recursive 1 recursiveArg rfl 1 2
    have hstep := @enterFunction_recursive _ _ han (trace_recursive han n) v recursiveArg rfl
      ⟨0, 1⟩ 2
    unfold trace
    rw [show recursiveArg.localId = 1 from rfl, hinfo, ok_bind]
    simp only [filter_cons, PlaceContext.isNonmutatingUse, if_true, filter_nil,
      traceUses, hb, h0, h1, ok_bind]
    simp only [LOCAL_CRATE, ne_eq, not_true_eq_false, if_false, hstep, error_bind]

theorem trace_mainOf (n : Nat) {v : UseDefVisitor} (hb : v.body = mainOf)
    (ha : DefUseAnalysis.analyze mainOf = .ok v.analysis) :
    trace .entries recursiveCrate n v ⟨⟨0, 0⟩, 1, ⟨0, 0⟩, none⟩ = .error .outOfFuel := by
  obtain ⟨analysis, han⟩ : ∃ a, DefUseAnalysis.analyze recursive = .ok a := ⟨_, rfl⟩
  cases n with
  | zero => rfl
  | succ n =>
    have hinfo : v.analysis.localInfo 1 = .ok [⟨.mutatingUse .call, ⟨0, 0⟩⟩,
        ⟨.nonMutatingUse .move, ⟨1, 0⟩⟩] := by
      rw [DefUseAnalysis.analyze_spec ha]
      rfl
    have h1 : locationToUseKind recursiveCrate ⟨1, 0⟩ ⟨⟨0, 0⟩, 1, ⟨0, 0⟩, none⟩ mainOf =
        .ok (some (.function 2 ⟨0, 1⟩ 0)) :=
      terminatorUseKind_recursive 1 ⟨⟨0, 0⟩, 1, ⟨0, 0⟩, none⟩ rfl 2 2
    have hstep := @enterFunction_recursive _ _ han (trace_recursive han n) v
      ⟨⟨0, 0⟩, 1, ⟨0, 0⟩, none⟩ rfl ⟨1, 0⟩ 2
    rw [trace, hinfo, ok_bind]
    simp only [filter_cons, PlaceContext.isNonmutatingUse, if_true, filter_nil,
      traceUses, hb, h1, ok_bind, LOCAL_CRATE, ne_eq, not_true_eq_false, if_false, hstep,
      error_bind, Bool.false_eq_true]

theorem visitBasicBlockData_mainOf (n : Nat) {v : UseDefVisitor} (hb : v.body = mainOf)
    (ha : DefUseAnalysis.analyze mainOf = .ok v.analysis) (hd : v.defId = ⟨0, 0⟩) :
    v.visitBasicBlockData recursiveCrate (trace .entries recursiveCrate n)
      (block [] (call txPtrNew [] 1 1), 0) = .error .outOfFuel := by
  have halloc : isAllocation (recursiveCrate.funcName
      (.constant (.zeroSized (.fnDef txPtrNew [])))) = true := isAllocation_new
  have hlocals : (block [] (call txPtrNew [] 1 1)).statementLocals 0 = [] := rfl
  have hterm : (block [] (call txPtrNew [] 1 1)).terminator = some (call txPtrNew [] 1 1) := rfl
  have hdest : localFromDest (some (Place.ofLocal 1, (1 : BasicBlock))) = some 1 := rfl
  simp only [visitBasicBlockData, hlocals, foldlM_nil, pure_eq, ok_bind, hterm]
  simp only [visitTerminator, call, halloc, if_true, hdest, unwrap_some, ok_bind, uniqueId, hd]
  exact bind_of_error (@trace_mainOf n
    { v with defId := ⟨0, 0⟩, currentAllocation := _, vertices := _ } hb ha)

/-- The analysis of `main` does not end: `f` is entered from its own argument again and again. -/
theorem perform_recursive_diverges : (∀ d b, recursiveCrate.bodies.get d = some b → b.WF) ∧
      ¬ ∃ n, Ends (UseDefVisitor.new mainOf ⟨0, 0⟩ recursiveCrate >>= fun v =>
        v.perform .entries recursiveCrate n) := by
  refine ⟨wf_crate mainOf_wf (Body.wf_of_blocks (by decide) (by decide)), ?_⟩
  rintro ⟨n, hn⟩
  apply hn
  obtain ⟨analysis, han⟩ : ∃ a, DefUseAnalysis.analyze mainOf = .ok a := ⟨_, rfl⟩
  obtain ⟨tm, htm⟩ : ∃ tm, (TransactionMap.new ⟨0, 0⟩ mainOf langItems).perform .entries = .ok tm :=
    ⟨_, rfl⟩
  have hblocks : mainOf.basicBlocks.zipIdx = [(block [] (call txPtrNew [] 1 1), 0),
      (block [] (call ⟨0, 1⟩ [moved 1] 2 2), 1), (block [] .ret, 2)] := rfl
  simp only [UseDefVisitor.new, han, ok_bind, pure_eq, perform, performWith]
  rw [show recursiveCrate.langItems = langItems from rfl, htm, ok_bind, hblocks,
    foldlM_cons, visitBasicBlockData_mainOf n rfl han rfl]
  rfl

end Sample

end Tortis
