import Tortis.Transaction.Termination

/-!
# What a run that returns has recorded

When the use-def analysis of a body returns, every vertex it has marked is settled: it is a borrow,
or all the vertices it leads to are marked, with an edge to each it flows to. The recorded edges
have no cycle, since the check of a visited vertex follows them to their ends.
-/

namespace Tortis

open Outcome FxHashMap FxHashSet Relation IterOrder

namespace UseDefVisitor

section
variable {ord : IterOrder} {tcx : TyCtxt} {root : DefId}

/-! ## Recorded edges -/

/-- No infinite path of recorded edges leaves the vertex. -/
def EndsFrom (v : UseDefVisitor) (id : UniqueId) : Prop := Acc (fun b a => v.edges.Rel a b) id

variable {v v' v₀ : UseDefVisitor} {a b id : UniqueId}

theorem EndsFrom.mono (h : ∀ a b, v.edges.Rel a b → v'.edges.Rel a b) (hid : EndsFrom v' id) : EndsFrom v id :=
  Subrelation.accessible (fun hab => h _ _ hab) hid

theorem useSet_endsFrom : ∀ (n : Nat) (s : FxHashSet UniqueId),
    Runs (fun _ => True) (v.useSet ord n s) fun _ => ∀ b ∈ s, EndsFrom v b
  | 0, _ => ⟨fun _ _ => trivial, nofun⟩
  | n + 1, s => by
    refine (Runs.foldlM_done (I := fun pre _ => ∀ b ∈ pre, EndsFrom v b) nofun ?_).mono
      fun _ h b hb => h b ((mem_order ..).2 hb)
    intro pre b post acc _ hpre
    have hnext : EndsFrom v b → ∀ b' ∈ pre ++ [b], EndsFrom v b' := fun hb b' hb' => by
      rcases List.mem_append.1 hb' with hb' | hb'
      · exact hpre b' hb'
      · exact List.mem_singleton.1 hb' ▸ hb
    split
    · next s' hs' =>
      refine (useSet_endsFrom n s').bind fun _ hs => .ok (hnext ⟨_, fun c hc => ?_⟩)
      obtain ⟨s'', hs'', hmem⟩ := hc
      rw [hs'] at hs''
      cases hs''
      exact hs c hmem
    · next hnone =>
      refine Runs.bind (P := fun _ => True) (.unwrap (fun _ _ => trivial) fun _ _ => trivial)
        fun _ _ => .ok (hnext ⟨_, fun c hc => ?_⟩)
      obtain ⟨s'', hs'', -⟩ := hc
      rw [hnone] at hs''
      cases hs''

/-- Only marked vertices have edges. -/
def Closed (v : UseDefVisitor) : Prop := ∀ a b, v.edges.Rel a b → a ∈ v.vertices ∧ b ∈ v.vertices

/-- The recorded edges have no cycle. -/
def Acyclic (v : UseDefVisitor) : Prop := ∀ id, ¬ TransGen v.edges.Rel id id

/-- The vertex has been traced: all it leads to is marked, and its edges are recorded. -/
structure Traced (tcx : TyCtxt) (v : UseDefVisitor) (id : UniqueId) : Prop where
  marked : ∀ loc via b, Comes tcx id loc via b → b ∈ v.vertices
  recorded : ∀ b, Leads tcx id b → v.edges.Rel id b
  retraced : Acc (fun b a => Retraced tcx a b) id
  scanned : ∀ body, tcx.bodies.get id.defId = some body →
    Scanned tcx body id (nonmutatingUses body id.localId)

/-- The vertex has been traced, or is a borrow. -/
def Settled (tcx : TyCtxt) (v : UseDefVisitor) (id : UniqueId) : Prop :=
  Traced tcx v id ∨ ∃ a w, Borrows tcx a id w

theorem Settled.mono (hv : ∀ id ∈ v.vertices, id ∈ v'.vertices)
    (he : ∀ a b, v.edges.Rel a b → v'.edges.Rel a b) : Settled tcx v id → Settled tcx v' id
  | .inl h => .inl ⟨fun loc via b hb => hv b (h.marked loc via b hb), fun b hb => he _ _ (h.recorded b hb),
      h.retraced, h.scanned⟩
  | .inr h => .inr h

/-- What a part of the analysis that returns makes of a visitor. -/
structure Records (tcx : TyCtxt) (root : DefId) (v v' : UseDefVisitor) : Prop where
  goes : Goes tcx root v v'
  closed : Closed v'
  settled : ∀ id ∈ v'.vertices, id ∈ v.vertices ∨ Settled tcx v' id
  acyclic : Acyclic v → Acyclic v'

theorem records_refl (hg : Good tcx root v) (hc : Closed v) : Records tcx root v v :=
  ⟨hg.goes, hc, fun _ h => .inl h, id⟩

theorem Records.trans {v1 v2 v3 : UseDefVisitor} (h : Records tcx root v1 v2)
    (h' : Records tcx root v2 v3) : Records tcx root v1 v3 := by
  refine ⟨h.goes.trans h'.goes, h'.closed, fun id hid => ?_, fun hac => h'.acyclic (h.acyclic hac)⟩
  rcases h'.settled id hid with hid | hid
  · exact (h.settled id hid).imp_right fun hs => hs.mono h'.goes.2.vertices h'.goes.2.edges
  · exact .inr hid

theorem records_progress : Progress (Records tcx root) :=
  ⟨fun h => h.goes.2, fun h => records_refl h.goes.1 h.closed, Records.trans⟩

theorem records_of_same (h : Goes tcx root v v') (hc : Closed v)
    (hv : v'.vertices = v.vertices) (he : v'.edges = v.edges) : Records tcx root v v' := by
  refine ⟨h, ?_, fun id hid => .inl (hv ▸ hid), ?_⟩
  · intro a b hab
    rw [he] at hab
    rw [hv]
    exact hc a b hab
  · intro hac
    unfold Acyclic
    rwa [he]

theorem acyclic_connect {v : UseDefVisitor} {a b : UniqueId} (hac : Acyclic v)
    (hb : EndsFrom (v.connect a b) b) : Acyclic (v.connect a b) :=
  acyclic_insert (fun x y hxy => by
    rcases rel_addTo.1 hxy with ⟨rfl, rfl⟩ | h
    exacts [.inr ⟨rfl, rfl⟩, .inl h]) hac (not_transGen_of_acc hb)

/-! ## One level of the recursion -/

/-- A marked vertex of the visitor's body that is about to be traced. -/
structure Ready (tcx : TyCtxt) (root : DefId) (v : UseDefVisitor) (id : UniqueId) : Prop where
  good : Good tcx root v
  closed : Closed v
  marked : id ∈ v.vertices
  reached : Reached tcx root id
  defId : id.defId = v.defId

/-- What tracing a vertex makes of a visitor. -/
structure Traces (tcx : TyCtxt) (root : DefId) (v : UseDefVisitor) (id : UniqueId)
    (v' : UseDefVisitor) : Prop where
  records : Records tcx root v v'
  traced : Traced tcx v' id
  ends : EndsFrom v id

/-- The state in which a vertex is traced: the edge to it is recorded, and it is marked. -/
def touch (v : UseDefVisitor) (a b : UniqueId) : UseDefVisitor :=
  { v.connect a b with vertices := v.vertices.insert b }

theorem goes_touch (hg : Good tcx root v)
    (ha : Reached tcx root a) (hf : Flow tcx a b) : Goes tcx root v (v.touch a b) := by
  have hc := goes_connect hg (.inl hf) ha
  exact hc.trans (goes_visit hc.1 b (v.connect a b).currentAllocation)

theorem ready_touch (hg : Good tcx root v) (hc : Closed v)
    (hv : a ∈ v.vertices) (ha : Reached tcx root a) (hf : Flow tcx a b) (hd : b.defId = v.defId) :
    Ready tcx root (v.touch a b) b := by
  refine ⟨(goes_touch hg ha hf).1, ?_, by simp [touch], ha.flow hf, hd⟩
  intro x y hxy
  rcases rel_addTo.1 hxy with ⟨rfl, rfl⟩ | h
  · simp [touch, hv]
  · simp [touch, hc x y h]

theorem records_touch (hg : Good tcx root v)
    (ha : Reached tcx root a) (hf : Flow tcx a b) (h : Traces tcx root (v.touch a b) b v') :
    Records tcx root v v' ∧ b ∈ v'.vertices ∧ v'.edges.Rel a b := by
  obtain ⟨hr, ht, he⟩ := h
  refine ⟨⟨(goes_touch hg ha hf).trans hr.goes, hr.closed, fun id hid => ?_, fun hac => ?_⟩, ?_, ?_⟩
  · rcases hr.settled id hid with hid | hid
    · rcases mem_insert.1 hid with rfl | hid
      exacts [.inr (.inl ht), .inl hid]
    · exact .inr hid
  · exact hr.acyclic (acyclic_connect hac he)
  · exact hr.goes.2.vertices b (by simp [touch])
  · exact hr.goes.2.edges a b (rel_addTo.2 (.inl ⟨rfl, rfl⟩))

/-- How a vertex is dealt with that the traced vertex leads to. -/
structure Dealt (tcx : TyCtxt) (v₀ : UseDefVisitor) (id : UniqueId) (via : Via) (b : UniqueId)
    (v : UseDefVisitor) : Prop where
  marked : b ∈ v.vertices
  recorded : via ≠ .alloc → v.edges.Rel id b ∧ EndsFrom v₀ b
  retraced : via = .arg ∨ via = .alloc → Acc (fun b a => Retraced tcx a b) b

theorem Dealt.mono {via : Via}
    (hv : ∀ id ∈ v.vertices, id ∈ v'.vertices) (he : ∀ a b, v.edges.Rel a b → v'.edges.Rel a b)
    (h : Dealt tcx v₀ id via b v) : Dealt tcx v₀ id via b v' :=
  ⟨hv b h.marked, fun hvia => ⟨he _ _ (h.recorded hvia).1, (h.recorded hvia).2⟩, h.retraced⟩

theorem kept_dealt : Kept (Records tcx root) (Dealt tcx v₀ id) :=
  fun _ _ _ _ hr h => h.mono hr.goes.2.vertices hr.goes.2.edges

theorem follow_records {n : Nat} {t : Tracer}
    (ht : ∀ v b, Ready tcx root v b → Runs (fun _ => True) (t v b) (Traces tcx root v b))
    (hid : Ready tcx root v₀ id) (hv : Records tcx root v₀ v) (hf : Flow tcx id b)
    (hd : b.defId = v.defId) : Runs (fun _ => True) (v.follow ord t n id b) fun v' =>
      Records tcx root v v' ∧ Dealt tcx v₀ id .flow b v' := by
  have hmarked := hv.goes.2.vertices id hid.marked
  unfold follow
  simp only
  split
  · next hmem =>
    have hc := goes_connect hv.goes.1 (.inl hf) hid.reached
    have hclosed : Closed (v.connect id b) := by
      intro x y hxy
      rcases rel_addTo.1 hxy with ⟨rfl, rfl⟩ | h
      exacts [⟨hmarked, hmem⟩, hv.closed x y h]
    refine Runs.bind (P := fun s => (v.connect id b).edges.get b = some s)
      (.unwrap (fun _ _ => trivial) fun _ h => h) fun s hs => ?_
    refine (useSet_endsFrom n s).bind fun uses huses => ?_
    have hends : EndsFrom (v.connect id b) b := ⟨_, fun c hc => by
      obtain ⟨s', hs', hmem'⟩ := hc
      rw [hs] at hs'
      cases hs'
      exact huses c hmem'⟩
    have hrec : Records tcx root v (v.connect id b) :=
      ⟨hc, hclosed, fun _ h => .inl h, fun hac => acyclic_connect hac hends⟩
    have hdealt : Dealt tcx v₀ id .flow b (v.connect id b) :=
      ⟨hmem, fun _ => ⟨rel_addTo.2 (.inl ⟨rfl, rfl⟩),
        hends.mono (hv.goes.trans hc).2.edges⟩, by simp⟩
    refine (Runs.foldlM (I := fun v' => Records tcx root (v.connect id b) v')
      (records_refl hc.1 hclosed) fun v' use _ hv' => ⟨fun _ _ => trivial, fun v'' h => ?_⟩).mono
      fun v' h => ⟨hrec.trans h, kept_dealt _ _ _ _ h hdealt⟩
    exact hv'.trans (records_of_same (goes_mapAllocation hv'.goes.1 h) hv'.closed
      (vertices_mapAllocation h) (edges_mapAllocation h))
  · refine (ht (v.touch id b) b (ready_touch hv.goes.1 hv.closed hmarked hid.reached hf hd)).mono
      fun v' h => ?_
    obtain ⟨hrec, hmem, hedge⟩ := records_touch hv.goes.1 hid.reached hf h
    refine ⟨hrec, hmem, fun _ => ⟨hedge, h.ends.mono ?_⟩, by simp⟩
    exact (hv.goes.trans (goes_touch hv.goes.1 hid.reached hf)).2.edges

theorem borrow_records {w : Bool}
    (hid : Ready tcx root v₀ id) (hv : Records tcx root v₀ v) (hb : Borrows tcx id b w) :
    Runs (fun _ => True) (v.borrow id b w) fun v' =>
      Records tcx root v v' ∧ Dealt tcx v₀ id .borrow b v' := by
  refine ⟨fun _ _ => trivial, fun v' h => ?_⟩
  have hgoes := goes_borrow hv.goes.1 hid.reached hb h
  obtain ⟨v1, h1, h⟩ := bind_eq_ok.1 h
  cases h
  have hedges : ∀ x y, v1.edges.Rel x y ↔ v.edges.Rel x y := fun x y => by
    rw [edges_mapAllocation h1]
  have hvert : v1.vertices = v.vertices := by rw [vertices_mapAllocation h1]
  -- No edge leaves a borrow.
  have hends : ∀ {u : UseDefVisitor}, Good tcx root u → EndsFrom u b := fun hg =>
    ⟨_, fun c hc => absurd hb (hg.edges b c hc).2.not_borrows⟩
  have hrel : ∀ x y, (v1.connect id b).edges.Rel x y → v.edges.Rel x y ∨ (x = id ∧ y = b) := by
    intro x y hxy
    rcases rel_addTo.1 hxy with ⟨rfl, rfl⟩ | h
    exacts [.inr ⟨rfl, rfl⟩, .inl ((hedges x y).1 h)]
  refine ⟨⟨hgoes, fun x y hxy => ?_, fun x hx => ?_, fun hac => ?_⟩, ?_, fun _ => ⟨?_, ?_⟩, by simp⟩
  · rcases hrel x y hxy with h | ⟨rfl, rfl⟩
    · have := hv.closed x y h
      simp [hvert, this]
    · simp [hvert, hv.goes.2.vertices x hid.marked]
  · rcases mem_insert.1 hx with rfl | hx
    · exact .inr (.inr ⟨id, w, hb⟩)
    · exact .inl (hvert ▸ hx)
  · exact acyclic_insert hrel hac (not_transGen_of_acc (hends hgoes.1))
  · simp
  · exact rel_addTo.2 (.inl ⟨rfl, rfl⟩)
  · exact hends hid.good

theorem ready_alloc (hg : Good tcx root v) (hc : Closed v)
    (ha : Reached tcx root a) (hd : a.defId = v.defId) :
    Ready tcx root { v with currentAllocation := some a, vertices := v.vertices.insert a } a := by
  refine ⟨(goes_visit hg a (some a)).1, fun x y hxy => ?_, by simp, ha, hd⟩
  have := hc x y hxy
  simp [this]

theorem records_alloc (hg : Good tcx root v)
    (h : Traces tcx root { v with currentAllocation := some a, vertices := v.vertices.insert a } a v') :
    Records tcx root v { v' with currentAllocation := none } ∧ a ∈ v'.vertices := by
  obtain ⟨hr, ht, -⟩ := h
  have hgoes := (goes_visit hg a (some a)).trans hr.goes
  have hnone : Goes tcx root v' { v' with currentAllocation := none } :=
    hr.goes.1.later ⟨rfl, rfl, rfl, rfl, rfl, fun _ => id, fun _ _ h => h⟩ hr.goes.1.edges
  refine ⟨Records.trans ⟨hgoes, hr.closed, fun id hid => ?_, hr.acyclic⟩
    (records_of_same hnone hr.closed rfl rfl), hr.goes.2.vertices a (by simp)⟩
  rcases hr.settled id hid with hid | hid
  · rcases mem_insert.1 hid with rfl | hid
    exacts [.inr (.inl ht), .inl hid]
  · exact .inr hid

theorem performWith_records {t : Tracer}
    (ht : ∀ v b, Ready tcx root v b → Runs (fun _ => True) (t v b) (Traces tcx root v b))
    (hg : Good tcx root v) (hc : Closed v) (hmarked : ∀ a, v.argId = some a → a ∈ v.vertices)
    (hreached : ∀ a, IsAllocOf tcx v.defId a → Reached tcx root a) {U : Via → UniqueId → UseDefVisitor → Prop}
    (hU : Kept (Records tcx root) U)
    (harg : ∀ c a p c', Records tcx root v c → v.argId = some a →
      Traces tcx root (c.touch a p) p c' → p ∈ c'.vertices → c'.edges.Rel a p → U .arg p c')
    (halloc : ∀ a c', Traced tcx c' a → a ∈ c'.vertices → U .alloc a { c' with currentAllocation := none }) :
    Runs (fun _ => True) (v.performWith ord tcx t) fun v' =>
      Records tcx root v v' ∧ ∀ via b, IsStart tcx v via b → U via b v' := by
  refine performWith_runs (I := fun _ => Records tcx root v) records_progress hU hg.body
    (fun h => ⟨h.goes.2, records_progress.refl h⟩) ?_ (fun _ _ _ => trivial) ?_ ?_ (fun _ _ h => h)
    fun _ _ _ _ _ _ _ _ _ _ => trivial
  · refine ⟨fun _ _ => trivial, fun tm _ => records_of_same ?_ hc rfl rfl⟩
    exact hg.later ⟨rfl, rfl, rfl, rfl, rfl, fun _ => id, fun _ _ h => h⟩ hg.edges
  · intro pre data bb post c a i p _ hc' _ ha hi hp
    obtain ⟨hra, loc, l, j, hs, hj⟩ := hg.arg a ha
    obtain rfl : i = followedArg a j := Option.mem_unique hi hj
    have hf := Flow.arg hs hp
    have hd : p.defId = c.defId := by rw [hc'.goes.2.defId, hp.defId_eq]
    refine (ht (c.touch a p) p (ready_touch hc'.goes.1 hc'.closed
      (hc'.goes.2.vertices a (hmarked a ha)) hra hf hd)).mono fun c' h => ?_
    obtain ⟨hrec, hmem, hedge⟩ := records_touch hc'.goes.1 hra hf h
    exact ⟨hc'.trans hrec, hrec, harg c a p c' hc' ha h hmem hedge⟩
  · intro pre data bb post c a _ hc' _ ha
    have hd : a.defId = c.defId := by rw [ha.defId_eq, ← hc'.goes.2.defId]
    refine (ht _ a (ready_alloc hc'.goes.1 hc'.closed (hreached a ha) hd)).mono fun c' h => ?_
    obtain ⟨hrec, hmem⟩ := records_alloc hc'.goes.1 h
    exact ⟨hc'.trans hrec, hrec, halloc a c' h.traced hmem⟩

theorem records_merge {c child : UseDefVisitor} (hg : Good tcx root v)
    (hv : c.vertices = v.vertices) (he : c.edges = v.edges) (h : Records tcx root c child) :
    Records tcx root v (v.merge ord child) := by
  have hvert : ∀ id ∈ child.vertices, id ∈ (v.merge ord child).vertices := fun id hid =>
    mem_extend.2 (.inr ((mem_order ..).2 hid))
  have hedge : ∀ a b, child.edges.Rel a b → (v.merge ord child).edges.Rel a b := fun a b hab =>
    rel_extendAll.2 (.inr hab)
  have hmerge : ∀ a b, (v.merge ord child).edges.Rel a b → child.edges.Rel a b := by
    intro a b hab
    rcases rel_extendAll.1 hab with hab | hab
    · exact h.goes.2.edges a b (he ▸ hab)
    · exact hab
  refine ⟨goes_merge hg h.goes.1, fun a b hab => ?_, fun id hid => ?_, fun hac id hcycle => ?_⟩
  · obtain ⟨ha, hb⟩ := h.closed a b (hmerge a b hab)
    exact ⟨hvert a ha, hvert b hb⟩
  · rcases mem_extend.1 hid with hid | hid
    · exact .inl hid
    · rcases h.settled id ((mem_order ..).1 hid) with hid | hid
      · exact .inl (hv ▸ hid)
      · exact .inr (hid.mono hvert hedge)
  · have hac' : Acyclic c := by
      unfold Acyclic
      rwa [he]
    exact h.acyclic hac' id (TransGen.mono hmerge _ _ hcycle)

theorem enterFunction_records {t : Tracer}
    (ht : ∀ v b, Ready tcx root v b → Runs (fun _ => True) (t v b) (Traces tcx root v b))
    (hid : Ready tcx root v₀ id) (hv : Records tcx root v₀ v) {loc : Location} {l : Local}
    {fn : DefId} {i : Nat} (hs : Sees tcx id loc (.function l fn i)) :
    Runs (fun _ => True) (v.enterFunction ord tcx t id loc l fn i) fun v' =>
      Records tcx root v v' ∧ ∀ via b, Entered tcx id fn i via b → Dealt tcx v₀ id via b v' := by
  refine enterFunction_runs (fun _ _ => trivial) (fun _ _ _ _ => trivial)
    fun body analysis hbody han => ?_
  have hg := good_childOf hv.goes.1 hid.reached hs hbody han
  have hmarked := hv.goes.2.vertices id hid.marked
  refine (performWith_records (U := Dealt tcx v₀ id) ht hg hv.closed ?_ ?_ kept_dealt ?_ ?_).mono
    fun child h => ?_
  · rintro a ⟨rfl⟩
    exact hmarked
  · exact fun a ha => hid.reached.retraced (.alloc hs ha)
  · rintro c a p c' hc ⟨rfl⟩ h hmem hedge
    refine ⟨hmem, fun _ => ⟨hedge, h.ends.mono fun x y hxy => ?_⟩, fun _ => h.traced.retraced⟩
    exact (later_connect c _ p).edges x y (hc.goes.2.edges x y (hv.goes.2.edges x y hxy))
  · exact fun a c' htr hmem => ⟨hmem, by simp, fun _ => htr.retraced⟩
  · refine ⟨records_merge (c := childOf tcx v id loc l fn i body analysis) hv.goes.1 rfl rfl h.1,
      fun via b hb => ?_⟩
    exact (h.2 via b (isStart_childOf.2 hb)).mono
      (fun id hid => mem_extend.2 (.inr ((mem_order ..).2 hid)))
      fun a b hab => rel_extendAll.2 (.inr hab)

theorem trace_records : ∀ (n : Nat) (v : UseDefVisitor) (id : UniqueId), Ready tcx root v id →
    Runs (fun _ => True) (trace ord tcx n v id) (Traces tcx root v id)
  | 0, _, _, _ => ⟨fun _ _ => trivial, fun _ h => nomatch h⟩
  | n + 1, v, id, hid => by
    refine (trace_succ_runs (U := fun _ => Dealt tcx v id) records_progress (fun _ => kept_dealt)
      (records_refl hid.good hid.closed) hid.good.body hid.good.analysis hid.defId
      (fun _ _ => trivial) (fun _ _ _ _ => trivial) ?_ ?_ ?_).mono fun v' h => ?_
    · exact fun v' b hv' hi hd => follow_records (trace_records n) hid hv' hi.flow.1 hd
    · exact fun v' b w hv' hb _ => borrow_records hid hv' hb
    · exact fun v' loc l fn i hv' hs => enterFunction_records (trace_records n) hid hv' hs
    · obtain ⟨hrec, hdealt, hscan⟩ := h
      have hleads : ∀ b, Leads tcx id b → ∃ via, via ≠ .alloc ∧ Dealt tcx v id via b v' := by
        rintro b (hf | ⟨w, hb⟩)
        · rcases comes_of_flow hf with h | ⟨loc, h⟩
          exacts [⟨.flow, nofun, hdealt _ _ b h⟩, ⟨.arg, nofun, hdealt _ _ b h⟩]
        · exact ⟨.borrow, nofun, hdealt _ _ b (comes_of_borrows hb)⟩
      refine ⟨hrec, ⟨fun loc via b hb => (hdealt loc via b hb).marked, fun b hb => ?_, ⟨_, fun b hb => ?_⟩,
        fun body hbody => ?_⟩, ⟨_, fun b hb => ?_⟩⟩
      · obtain ⟨via, hvia, hd⟩ := hleads b hb
        exact (hd.recorded hvia).1
      · obtain ⟨loc, h | h⟩ := comes_of_retraced hb
        exacts [(hdealt _ _ b h).retraced (.inl rfl), (hdealt _ _ b h).retraced (.inr rfl)]
      · rw [hid.defId, hid.good.body] at hbody
        cases hbody
        exact hscan
      · obtain ⟨via, hvia, hd⟩ := hleads b (hid.good.edges id b hb).1
        exact (hd.recorded hvia).2

/-! ## The converse of the termination result -/

theorem perform_noFlowCycle {body : Body} (hbody : tcx.bodies.get root = some body) {n : Nat}
    {sets : FxHashMap (UniqueId × UniqueId) (FxHashSet TransactionUse)}
    (h : (UseDefVisitor.new body root tcx >>= fun v => v.perform ord tcx n) = .ok sets) :
    NoFlowCycle tcx root := by
  obtain ⟨v, hv, h⟩ := bind_eq_ok.1 h
  obtain ⟨v', hv', -⟩ := bind_eq_ok.1 h
  obtain ⟨hg, hdef, harg, -⟩ := good_new hbody hv
  obtain ⟨hedges, hvert⟩ : v.edges = ∅ ∧ v.vertices = ∅ := by
    obtain ⟨analysis, -, hv⟩ := bind_eq_ok.1 hv
    cases hv
    exact ⟨rfl, rfl⟩
  have hno : ∀ a b, ¬ v.edges.Rel a b := by simp [hedges]
  have hrun : Runs (fun _ => True) (v.performWith ord tcx (trace ord tcx n)) fun v' =>
      Records tcx root v v' ∧ ∀ via b, IsStart tcx v via b → b ∈ v'.vertices :=
    performWith_records (U := fun _ b c => b ∈ c.vertices) (trace_records n) hg
      (fun a b hab => absurd hab (hno a b)) (by simp [harg]) (fun a ha => .alloc (hdef ▸ ha))
      (fun _ b _ _ hr h => hr.goes.2.vertices b h) (fun _ _ _ _ _ _ _ h _ => h) (fun _ _ _ h => h)
  obtain ⟨hrec, hstart⟩ := hrun.post v' hv'
  -- Every vertex that is reached has been marked, and so has been traced.
  have hsettled : ∀ id ∈ v'.vertices, Reached tcx root id → Traced tcx v' id := by
    intro id hid hr
    rcases hrec.settled id hid with h | h | ⟨a, w, hb⟩
    · simp [hvert] at h
    · exact h
    · exact absurd hb hr.not_borrows
  have hreached : ∀ id, Reached tcx root id → id ∈ v'.vertices := by
    intro id hid
    induction hid with
    | alloc halloc => exact hstart .alloc _ (.inl ⟨rfl, hdef ▸ halloc⟩)
    | flow hr hf ih =>
      rcases comes_of_flow hf with h | ⟨loc, h⟩
      exacts [(hsettled _ ih hr).marked _ _ _ h, (hsettled _ ih hr).marked _ _ _ h]
    | retraced hr hre ih =>
      obtain ⟨loc, h | h⟩ := comes_of_retraced hre
      exacts [(hsettled _ ih hr).marked _ _ _ h, (hsettled _ ih hr).marked _ _ _ h]
  have hacyclic : Acyclic v' := hrec.acyclic fun id hcycle => by
    obtain ⟨b, hb, -⟩ := TransGen.head'_iff.1 hcycle
    exact hno id b hb
  refine ⟨fun id hid hcycle => hacyclic id ?_, fun id hid => ?_⟩
  · -- A cycle of flows is recorded edge by edge.
    have hpath : ∀ b, TransGen (Flow tcx) id b →
        TransGen v'.edges.Rel id b ∧ Reached tcx root b := by
      intro b hb
      induction hb with
      | single hab =>
        have ht := hsettled id (hreached id hid) hid
        exact ⟨.single (ht.recorded _ (.inl hab)), hid.flow hab⟩
      | tail _ hbc ih =>
        have ht := hsettled _ (hreached _ ih.2) ih.2
        exact ⟨ih.1.tail (ht.recorded _ (.inl hbc)), ih.2.flow hbc⟩
    exact (hpath id hcycle).1
  · exact not_transGen_of_acc (hsettled id (hreached id hid) hid).retraced

/-- The use-def analysis of a body ends when no value flows in a cycle from its allocations, and it
returns on no other body: there it panics or goes on forever. -/
theorem perform_terminates (ord : IterOrder) {body : Body}
    (hwf : ∀ d body, tcx.bodies.get d = some body → body.WF)
    (hbody : tcx.bodies.get root = some body) : (NoFlowCycle tcx root →
      ∃ N, ∀ n ≥ N, Ends (UseDefVisitor.new body root tcx >>= fun v => v.perform ord tcx n)) ∧
    ((∃ n sets, (UseDefVisitor.new body root tcx >>= fun v => v.perform ord tcx n) = .ok sets) →
      NoFlowCycle tcx root) :=
  ⟨perform_ends ord hwf hbody, fun ⟨_, _, h⟩ => perform_noFlowCycle hbody h⟩

end

end UseDefVisitor

namespace Sample

/-- `fn f(p) { let q = &*p; q.borrow(); }`. -/
def borrows : Body :=
  body [block [reborrow 2 1] (call txPtrBorrow [moved 2] 3 1), block [] .ret] 4 1

/-- The analysis of `main` ends when `f` does not call itself. -/
theorem perform_borrows_terminates : UseDefVisitor.NoFlowCycle (crate [mainOf, borrows]) ⟨0, 0⟩ ∧
      ∃ N, ∀ n ≥ N, Ends (UseDefVisitor.new mainOf ⟨0, 0⟩ (crate [mainOf, borrows]) >>= fun v =>
        v.perform .entries (crate [mainOf, borrows]) n) := by
  have hsorted : Sorted (crate [mainOf, borrows]) ⟨0, 0⟩
      [⟨⟨0, 0⟩, 1, ⟨0, 0⟩, none⟩, ⟨⟨0, 1⟩, 1, ⟨0, 0⟩, none⟩, ⟨⟨0, 1⟩, 2, ⟨0, 0⟩, none⟩] := by
    with_unfolding_all decide
  have hwf := @wf_crate mainOf borrows mainOf_wf (Body.wf_of_blocks (by decide) (by decide))
  exact ⟨hsorted.noFlowCycle, (UseDefVisitor.perform_terminates .entries hwf
    (by rw [get_crate]; rfl)).1 hsorted.noFlowCycle⟩

end Sample

end Tortis
