import Tortis.Transaction.Called
import Tortis.Transaction.Recorded

/-!
# Borrows and their transactions

What the allocation sets contain when the use-def analysis returns. A visitor credits the allocation
it follows to every borrow its value flows to inside the body, under the transaction its own map puts
the borrow in: when the vertex is traced, by the walk itself, and when it is visited already, by
`use_set`, which finds the borrows at the ends of the recorded edges.
-/

namespace Tortis

open Outcome List TransactionMap FxHashMap Relation.TransGen FxHashSet IterOrder Relation Runs

namespace UseDefVisitor

section
variable {ord : IterOrder} {tcx : TyCtxt} {root : DefId}

/-- A function calls another with a value the analysis follows. -/
def Calls (tcx : TyCtxt) (root f g : DefId) : Prop :=
  ∃ id loc l i, Reached tcx root id ∧ id.defId = f ∧ Sees tcx id loc (.function l g i)

/-! ## What the recursion keeps -/

/-- The bookkeeping of a visitor: no vertex has an empty set of edges, and the kind of every borrow
that is marked is known. -/
structure Sane (tcx : TyCtxt) (v : UseDefVisitor) : Prop where
  filled : v.edges.Filled
  writes : ∀ a b w, Borrows tcx a b w → b ∈ v.vertices → v.isWrite.get b = some w

/-- Every map of its function enters the call under the transaction. -/
def Own (tcx : TyCtxt) (k : UniqueId) (t : UniqueId × UniqueId) : Prop :=
  ∀ ord body txIds txs tm, tcx.bodies.get k.defId = some body →
    (TransactionMap.newChild k.defId body txIds tcx.langItems txs).perform ord = .ok tm →
    tm.terminatorToTx.get k = some t

/-- What a part of the analysis that returns adds to a visitor: it marks vertices of the functions
that are called only, and leaves the map of the calls of all others as it is. -/
structure Extends (tcx : TyCtxt) (root : DefId) (v v' : UseDefVisitor) : Prop where
  sane : Sane tcx v'
  credits : ∀ tx use, v.allocationSet.Rel tx use → v'.allocationSet.Rel tx use
  places : ∀ id ∈ v'.vertices, id ∈ v.vertices ∨
    ReflTransGen (Calls tcx root) v.defId id.defId
  txs : ∀ id, ¬ TransGen (Calls tcx root) v.defId id.defId →
    v'.transactionMap.terminatorToTx.get id = v.transactionMap.terminatorToTx.get id
  own : ∀ id t, Own tcx id t → v.transactionMap.terminatorToTx.get id = some t →
    v'.transactionMap.terminatorToTx.get id = some t

variable {c v v' v₀ v₁ v₂ v₃ : UseDefVisitor}

theorem Sane.extends (h : Sane tcx v) : Extends tcx root v v :=
  ⟨h, fun _ _ => id, fun _ => .inl, fun _ _ => rfl, fun _ _ _ => id⟩

theorem Extends.trans (h : Extends tcx root v₁ v₂)
    (hd : v₂.defId = v₁.defId) (h' : Extends tcx root v₂ v₃) : Extends tcx root v₁ v₃ := by
  refine ⟨h'.sane, fun tx use hu => h'.credits tx use (h.credits tx use hu), fun id hid => ?_,
    fun id hid => ?_, fun id t hown hid => h'.own id t hown (h.own id t hown hid)⟩
  · rcases h'.places id hid with hid | hid
    · exact h.places id hid
    · exact .inr (hd ▸ hid)
  · rw [h'.txs id (hd ▸ hid), h.txs id hid]

theorem extends_of_mark (hs : Sane tcx v') (b : UniqueId)
    (hb : b.defId = v.defId) (hv : ∀ id ∈ v'.vertices, id = b ∨ id ∈ v.vertices)
    (hc : ∀ tx use, v.allocationSet.Rel tx use → v'.allocationSet.Rel tx use)
    (hm : v'.transactionMap = v.transactionMap) : Extends tcx root v v' := by
  refine ⟨hs, hc, fun id hid => ?_, fun _ _ => by rw [hm], fun _ _ _ h => by rwa [hm]⟩
  rcases hv id hid with rfl | hid
  · exact .inr (hb ▸ .refl)
  · exact .inl hid

theorem extends_mapAllocation {v v' : UseDefVisitor} (hs : Sane tcx v) {b : UniqueId}
    (h : v.mapAllocation b = .ok v') :
    Extends tcx root v v' ∧ v'.currentAllocation = v.currentAllocation := by
  obtain rfl | ⟨t, use, rfl⟩ := mapAllocation_cases h
  · exact ⟨hs.extends, rfl⟩
  · exact ⟨⟨⟨hs.filled, hs.writes⟩, fun _ _ h => rel_addTo.2 (.inr h), fun _ => .inl,
      fun _ _ => rfl, fun _ _ _ => id⟩, rfl⟩

theorem sane_connect (hs : Sane tcx v) (a b : UniqueId) : Sane tcx (v.connect a b) :=
  ⟨hs.filled.addTo a b, hs.writes⟩

variable {b id : UniqueId}

theorem sane_visit (hs : Sane tcx v) (hb : Reached tcx root b) (alloc : Option UniqueId) :
    Sane tcx { v with currentAllocation := alloc, vertices := v.vertices.insert b } := by
  refine ⟨hs.filled, fun a c w hc hmem => ?_⟩
  rcases mem_insert.1 hmem with rfl | hmem
  · exact absurd hc hb.not_borrows
  · exact hs.writes a c w hc hmem

theorem extends_touch (hs : Sane tcx v) (a : UniqueId)
    (hb : Reached tcx root b) (hd : b.defId = v.defId) : Extends tcx root v (v.touch a b) :=
  extends_of_mark (sane_visit (sane_connect hs a b) hb (v.connect a b).currentAllocation) b hd
    (fun _ h => mem_insert.1 h) (fun _ _ => id) rfl

variable {w : Bool}

theorem extends_borrow (hs : Sane tcx v)
    (hb : Borrows tcx id b w) (hd : b.defId = v.defId) (h : v.borrow id b w = .ok v') :
    Extends tcx root v v' ∧ v'.currentAllocation = v.currentAllocation := by
  obtain ⟨v₁, h1, h⟩ := bind_eq_ok.1 h
  cases h
  have hs' : Sane tcx { v with isWrite := v.isWrite.insert b w } := by
    refine ⟨hs.filled, fun a c w' hc hmem => ?_⟩
    rw [get_insert]
    split
    · next heq =>
      subst heq
      rw [hb.unique hc]
    · exact hs.writes a c w' hc hmem
  obtain ⟨he, ha⟩ := @extends_mapAllocation tcx root _ _ hs' _ h1
  have hwrite : v₁.isWrite.get b = some w := by
    obtain ⟨sets, rfl⟩ := mapAllocation_eq h1
    exact get_insert_self ..
  have hvert := vertices_mapAllocation h1
  have hm : v₁.transactionMap = v.transactionMap := by
    obtain ⟨sets, rfl⟩ := mapAllocation_eq h1
    rfl
  refine ⟨extends_of_mark ⟨(sane_connect he.sane id b).filled, fun a c w' hc hmem => ?_⟩ b hd
    (fun x hx => ?_) he.credits hm, ha⟩
  · rcases mem_insert.1 hmem with rfl | hmem
    · rw [hc.unique hb]
      exact hwrite
    · exact he.sane.writes a c w' hc hmem
  · rcases mem_insert.1 hx with rfl | hx
    exacts [.inl rfl, .inr (by rwa [connect_vertices, hvert] at hx)]

/-- What every part of `trace` does to a visitor. -/
structure Advances (tcx : TyCtxt) (root : DefId) (v v' : UseDefVisitor) : Prop where
  records : Records tcx root v v'
  ext : Extends tcx root v v'
  current : v'.currentAllocation = v.currentAllocation

theorem Advances.trans (h : Advances tcx root v₁ v₂)
    (h' : Advances tcx root v₂ v₃) : Advances tcx root v₁ v₃ :=
  ⟨h.records.trans h'.records, h.ext.trans h.records.goes.2.defId h'.ext,
    h'.current.trans h.current⟩

theorem advances_progress : Progress (Advances tcx root) :=
  ⟨fun h => h.records.goes.2, fun h => ⟨records_progress.refl h.records, h.ext.sane.extends, rfl⟩,
    Advances.trans⟩

/-- The recursive calls advance the visitor. -/
def TraceAdvances (ord : IterOrder) (tcx : TyCtxt) (root : DefId) (n : Nat) : Prop :=
  ∀ v b, Ready tcx root v b → Sane tcx v →
    Runs (fun _ => True) (trace ord tcx n v b) (Advances tcx root v)

variable {n : Nat}

theorem follow_advances (ih : TraceAdvances ord tcx root n) (hid : Ready tcx root v₀ id) (hv : Advances tcx root v₀ v)
    (hf : Flow tcx id b) (hd : b.defId = v.defId) :
    Runs (fun _ => True) (v.follow ord (trace ord tcx n) n id b) (Advances tcx root v) := by
  suffices h : Runs (fun _ => True) (v.follow ord (trace ord tcx n) n id b) fun v' =>
      Extends tcx root v v' ∧ v'.currentAllocation = v.currentAllocation from
    ((follow_records (trace_records n) hid hv.records hf hd).and h).mono fun v' h =>
      ⟨h.1.1, h.2.1, h.2.2⟩
  have hsane := hv.ext.sane
  unfold follow
  simp only
  split
  · refine bind (P := fun _ => True) (.unwrap (fun _ _ => trivial) fun _ _ => trivial)
      fun s _ => ?_
    refine bind (P := fun _ => True) ⟨fun _ _ => trivial, fun _ _ => trivial⟩ fun uses _ => ?_
    have hc : Extends tcx root v (v.connect id b) :=
      extends_of_mark (sane_connect hsane id b) b hd (fun _ h => .inr h) (fun _ _ h => h) rfl
    refine foldlM (I := fun v' => Extends tcx root v v' ∧ v'.defId = v.defId ∧
      v'.currentAllocation = v.currentAllocation) ⟨hc, rfl, rfl⟩ (fun v' use _ hv' => ?_) |>.mono
      fun _ h => ⟨h.1, h.2.2⟩
    refine ⟨fun _ _ => trivial, fun v'' h => ?_⟩
    obtain ⟨he, ha⟩ := extends_mapAllocation hv'.1.sane h
    exact ⟨hv'.1.trans hv'.2.1 he, (later_mapAllocation h).defId.trans hv'.2.1, ha.trans hv'.2.2⟩
  · have hready := ready_touch hv.records.goes.1 hv.records.closed
      (hv.records.goes.2.vertices id hid.marked) hid.reached hf hd
    have hext : Extends tcx root v (v.touch id b) := extends_touch hsane id (hid.reached.flow hf) hd
    exact (ih _ b hready hext.sane).mono fun v' h => ⟨hext.trans rfl h.ext, h.current⟩

theorem borrow_advances
    (hid : Ready tcx root v₀ id) (hv : Advances tcx root v₀ v) (hb : Borrows tcx id b w)
    (hd : b.defId = v.defId) : Runs (fun _ => True) (v.borrow id b w) (Advances tcx root v) := by
  refine ⟨fun _ _ => trivial, fun v' h => ?_⟩
  obtain ⟨he, ha⟩ := extends_borrow hv.ext.sane hb hd h
  exact ⟨((borrow_records hid hv.records hb).post v' h).1, he, ha⟩

/-- The states of a visitor while it walks over its body: they advance, but for the current
allocation. -/
def Walks (tcx : TyCtxt) (root : DefId) (v v' : UseDefVisitor) : Prop :=
  Records tcx root v v' ∧ Extends tcx root v v'

theorem Walks.trans (h : Walks tcx root v₁ v₂) (h' : Walks tcx root v₂ v₃) : Walks tcx root v₁ v₃ :=
  ⟨h.1.trans h'.1, h.2.trans h.1.goes.2.defId h'.2⟩

theorem walks_progress : Progress (Walks tcx root) :=
  ⟨fun h => h.1.goes.2, fun h => ⟨records_progress.refl h.1, h.2.sane.extends⟩, Walks.trans⟩

variable {c' : UseDefVisitor}

theorem walks_arg {a p : UniqueId} (hg : Good tcx root c) (hs : Sane tcx c)
    (ha : Reached tcx root a) (hf : Flow tcx a p) (hd : p.defId = c.defId)
    (ht : Traces tcx root (c.touch a p) p c') (h : Advances tcx root (c.touch a p) c') :
    Walks tcx root c c' :=
  ⟨(records_touch hg ha hf ht).1, (extends_touch hs a (ha.flow hf) hd).trans rfl h.ext⟩

theorem walks_alloc {a : UniqueId} (hg : Good tcx root c) (hs : Sane tcx c)
    (ha : Reached tcx root a) (hd : a.defId = c.defId)
    (ht : Traces tcx root { c with currentAllocation := some a, vertices := c.vertices.insert a } a c')
    (h : Advances tcx root { c with currentAllocation := some a, vertices := c.vertices.insert a } c') :
    Walks tcx root c { c' with currentAllocation := none } := by
  have hext : Extends tcx root c
      { c with currentAllocation := some a, vertices := c.vertices.insert a } :=
    extends_of_mark (sane_visit hs ha (some a)) a hd (fun _ h => mem_insert.1 h)
      (fun _ _ h => h) rfl
  obtain ⟨hs', hc, hp, hx, ho⟩ := hext.trans rfl h.ext
  exact ⟨(records_alloc hg ht).1, ⟨hs'.filled, hs'.writes⟩, hc, hp, hx, ho⟩

theorem performWith_walks (ih : TraceAdvances ord tcx root n)
    (hg : Good tcx root v) (hc : Closed v) (hs : Sane tcx v)
    (hmarked : ∀ a, v.argId = some a → a ∈ v.vertices)
    (hreached : ∀ a, IsAllocOf tcx v.defId a → Reached tcx root a) :
    Runs (fun _ => True) (v.performWith ord tcx (trace ord tcx n)) fun v' =>
      ∃ tm, v.transactionMap.perform ord = .ok tm ∧ Walks tcx root { v with transactionMap := tm } v' := by
  refine (performWith_runs (R := Walks tcx root) (U := fun _ _ _ => True) (I := fun _ c =>
    ∃ tm, v.transactionMap.perform ord = .ok tm ∧ Walks tcx root { v with transactionMap := tm } c)
    walks_progress (fun _ _ _ _ _ _ => trivial) hg.body ?_ ?_ (fun _ _ _ => trivial) ?_ ?_
    (fun _ _ h => h) fun _ _ _ _ _ _ _ _ _ _ => trivial).mono fun _ h => h.1
  · rintro pre c ⟨tm, -, h⟩
    exact ⟨h.1.goes.2.of_transactionMap, walks_progress.refl h⟩
  · refine ⟨fun _ _ => trivial, fun tm htm => ⟨tm, htm, records_refl ?_ hc, ?_⟩⟩
    · exact ⟨hg.body, hg.analysis, hg.edges, hg.arg⟩
    · exact Sane.extends ⟨hs.filled, hs.writes⟩
  · rintro pre data bb post c a i p - ⟨tm, htm, hw⟩ - ha hi hp
    obtain ⟨hra, loc, l, j, hsees, hj⟩ := hg.arg a ha
    obtain rfl : i = followedArg a j := Option.mem_unique hi hj
    have hf := Flow.arg hsees hp
    have hd : p.defId = c.defId := by rw [hw.1.goes.2.defId, hp.defId_eq]
    have hext := extends_touch hw.2.sane a (hra.flow hf) hd
    have hready := ready_touch hw.1.goes.1 hw.1.closed
      (hw.1.goes.2.vertices a (hmarked a ha)) hra hf hd
    refine ((trace_records n _ p hready).and (ih _ p hready hext.sane)).mono fun c' h => ?_
    have hwalk := walks_arg hw.1.goes.1 hw.2.sane hra hf hd h.1 h.2
    exact ⟨⟨tm, htm, hw.trans hwalk⟩, hwalk, trivial⟩
  · rintro pre data bb post c a - ⟨tm, htm, hw⟩ - ha
    have hra := hreached a ha
    have hd : a.defId = c.defId := by rw [ha.defId_eq, hw.1.goes.2.defId]
    have hready := ready_alloc hw.1.goes.1 hw.1.closed hra hd
    refine ((trace_records n _ a hready).and (ih _ a hready (sane_visit hw.2.sane hra _))).mono
      fun c' h => ?_
    have hwalk := walks_alloc hw.1.goes.1 hw.2.sane hra hd h.1 h.2
    exact ⟨⟨tm, htm, hw.trans hwalk⟩, hwalk, trivial⟩

theorem advances_merge {child : UseDefVisitor} {tm : TransactionMap} (hg : Good tcx root v)
    (hs : Sane tcx v) (hcalls : Calls tcx root v.defId c.defId) (hv : c.vertices = v.vertices)
    (he : c.edges = v.edges) {body : Body} (hbody : tcx.bodies.get c.defId = some body)
    {txIds : Option (UniqueId × UniqueId)}
    (hmap : c.transactionMap = TransactionMap.newChild c.defId body txIds tcx.langItems
      v.transactionMap.terminatorToTx)
    (htm : c.transactionMap.perform ord = .ok tm)
    (h : Walks tcx root { c with transactionMap := tm } child) :
    Advances tcx root v (v.merge ord child) ∧ ∀ id ∈ (v.merge ord child).vertices,
      id ∈ v.vertices ∨ TransGen (Calls tcx root) v.defId id.defId := by
  obtain ⟨hrec, hext⟩ := h
  have hup : ∀ {f}, ReflTransGen (Calls tcx root) c.defId f →
      TransGen (Calls tcx root) v.defId f := fun h => head' hcalls h
  have hplaces : ∀ id ∈ (v.merge ord child).vertices,
      id ∈ v.vertices ∨ TransGen (Calls tcx root) v.defId id.defId := by
    intro id hid
    rcases mem_extend.1 hid with hid | hid
    · exact .inl hid
    · rcases hext.places id ((mem_order ..).1 hid) with hid | hid
      · exact .inl (hv ▸ hid)
      · exact .inr (hup hid)
  have hother : ∀ id : UniqueId, id.defId ≠ c.defId →
      tm.terminatorToTx.get id = v.transactionMap.terminatorToTx.get id := by
    intro id hid
    rw [hmap] at htm
    exact perform_get_other ord htm rfl hid
  refine ⟨⟨records_merge (c := { c with transactionMap := tm }) hg hv he hrec, ⟨⟨?_, ?_⟩, ?_,
    fun id hid => (hplaces id hid).imp_right fun h => h.to_reflTransGen, ?_, ?_⟩, rfl⟩, hplaces⟩
  · exact hs.filled.extendAll hext.sane.filled
  · intro a b w hb hmem
    have hchild : b ∈ child.vertices := by
      rcases mem_extend.1 hmem with hmem | hmem
      · exact hrec.goes.2.vertices b (hv ▸ hmem)
      · exact (mem_order ..).1 hmem
    show (v.isWrite.insertAll ord child.isWrite).get b = some w
    rw [get_insertAll, hext.sane.writes a b w hb hchild]
    rfl
  · exact fun tx use h => rel_extendAll.2 (.inl h)
  · intro id hid
    have hchild : child.transactionMap.terminatorToTx.get id =
        v.transactionMap.terminatorToTx.get id := by
      rw [hext.txs id fun h => hid (hup h.to_reflTransGen)]
      exact hother id fun h => hid (.single (by rwa [h]))
    show (v.transactionMap.terminatorToTx.insertAll ord child.transactionMap.terminatorToTx).get id = _
    rw [get_insertAll, hchild, Option.or_self]
  · intro id t hown hid
    have hchild : child.transactionMap.terminatorToTx.get id = some t := by
      refine hext.own id t hown ?_
      by_cases hd : id.defId = c.defId
      · exact hown ord body txIds v.transactionMap.terminatorToTx tm (by rw [hd, hbody])
          (by rw [hd, ← hmap, htm])
      · exact (hother id hd).trans hid
    show (v.transactionMap.terminatorToTx.insertAll ord child.transactionMap.terminatorToTx).get id = _
    rw [get_insertAll, hchild]
    rfl

theorem enterFunction_advances (ih : TraceAdvances ord tcx root n) (hid : Ready tcx root v₀ id) (hv : Advances tcx root v₀ v) {loc : Location}
    {l : Local} {fn : DefId} {i : Nat} (hs : Sees tcx id loc (.function l fn i)) :
    Runs (fun _ => True) (v.enterFunction ord tcx (trace ord tcx n) id loc l fn i) fun v' =>
      Advances tcx root v v' ∧
        ∀ x ∈ v'.vertices, x ∈ v.vertices ∨ Relation.TransGen (Calls tcx root) v.defId x.defId := by
  refine enterFunction_runs (fun _ _ => trivial) (fun _ _ _ _ => trivial)
    fun body analysis hbody han => ?_
  have hg := good_childOf hv.records.goes.1 hid.reached hs hbody han
  refine (performWith_walks ih hg hv.records.closed ⟨hv.ext.sane.filled, hv.ext.sane.writes⟩ ?_
    ?_).mono ?_
  · rintro a ⟨rfl⟩
    exact hv.records.goes.2.vertices _ hid.marked
  · exact fun a ha => hid.reached.retraced (.alloc hs ha)
  · rintro child ⟨tm, htm, hw⟩
    refine advances_merge (c := childOf tcx v id loc l fn i body analysis) hv.records.goes.1
      hv.ext.sane ?_ rfl rfl hbody rfl htm hw
    exact ⟨id, loc, l, i, hid.reached, hid.defId.trans hv.records.goes.2.defId.symm, hs⟩

theorem trace_advances : ∀ n : Nat, TraceAdvances ord tcx root n
  | 0, _, _, _, _ => ⟨fun _ _ => trivial, fun _ h => nomatch h⟩
  | n + 1, v, id, hid, hs => by
    refine (trace_succ_runs (U := fun _ _ _ _ => True) advances_progress
      (fun _ _ _ _ _ _ _ => trivial) ⟨records_refl hid.good hid.closed, hs.extends, rfl⟩
      hid.good.body hid.good.analysis hid.defId (fun _ _ => trivial) (fun _ _ _ _ => trivial)
      ?_ ?_ ?_).mono fun _ h => h.1
    · exact fun v' b hv' hi hd => (follow_advances (trace_advances n) hid hv' hi.flow.1 hd).mono
        fun _ h => ⟨h, trivial⟩
    · exact fun v' b w hv' hb hd => (borrow_advances hid hv' hb hd).mono fun _ h => ⟨h, trivial⟩
    · exact fun v' loc l fn i hv' hsees =>
        (enterFunction_advances (trace_advances n) hid hv' hsees).mono
          fun _ h => ⟨h.1, fun _ _ _ => trivial⟩

/-! ## Leaves of the recorded edges -/

theorem useSet_leaves : ∀ (n : Nat) (s : FxHashSet UniqueId),
    Runs (fun _ => True) (v.useSet ord n s) fun uses => ∀ a ∈ s, ∀ b,
      ReflTransGen v.edges.Rel a b → v.edges.get b = none → ∃ u ∈ uses, u.sharedObject = b
  | 0, _ => ⟨fun _ _ => trivial, nofun⟩
  | n + 1, s => by
    refine (foldlM_done (I := fun pre uses => ∀ a ∈ pre, ∀ b,
      ReflTransGen v.edges.Rel a b → v.edges.get b = none → ∃ u ∈ uses, u.sharedObject = b)
      nofun ?_).mono fun _ h a ha => h a ((mem_order ..).2 ha)
    intro pre a post uses _ hpre
    split
    · next s' hs' =>
      refine (useSet_leaves n s').bind fun uses' huses' => .ok ?_
      intro a' ha' b hab hb
      rcases mem_append.1 ha' with ha' | ha'
      · obtain ⟨u, hu, hub⟩ := hpre a' ha' b hab hb
        exact ⟨u, mem_extend.2 (.inl hu), hub⟩
      · obtain rfl := mem_singleton.1 ha'
        rcases ReflTransGen.cases_head hab with rfl | ⟨c, ⟨s'', hs'', hc⟩, hcb⟩
        · rw [hs'] at hb
          cases hb
        · rw [hs'] at hs''
          cases hs''
          obtain ⟨u, hu, hub⟩ := huses' c hc b hcb hb
          exact ⟨u, mem_extend.2 (.inr ((mem_order ..).2 hu)), hub⟩
    · next hnone =>
      refine bind (P := fun _ => True) (.unwrap (fun _ _ => trivial) fun _ _ => trivial)
        fun w _ => .ok ?_
      intro a' ha' b hab hb
      rcases mem_append.1 ha' with ha' | ha'
      · obtain ⟨u, hu, hub⟩ := hpre a' ha' b hab hb
        exact ⟨u, mem_insert.2 (.inr hu), hub⟩
      · obtain rfl := mem_singleton.1 ha'
        rcases ReflTransGen.cases_head hab with rfl | ⟨c, ⟨s'', hs'', -⟩, -⟩
        · exact ⟨⟨a', w⟩, mem_insert.2 (.inl rfl), rfl⟩
        · rw [hnone] at hs''
          cases hs''

variable {A : UniqueId}

theorem mapAllocation_credits {t : UniqueId × UniqueId} (hA : v.currentAllocation = some A)
    (ht : v.transactionMap.terminatorToTx.get b = some t) (hw : v.isWrite.get b = some w)
    (h : v.mapAllocation b = .ok v') : v'.allocationSet.Rel t ⟨A, w⟩ := by
  simp only [mapAllocation, ht, hA, hw, unwrap_some, ok_bind] at h
  cases h
  exact rel_addTo.2 (.inl ⟨rfl, rfl⟩)

theorem mapAllocations_credits (hA : v.currentAllocation = some A) {uses : List TransactionUse}
    (h : uses.foldlM (fun v use => v.mapAllocation use.sharedObject) v = .ok v') :
    ∀ u ∈ uses, ∀ t w, v.transactionMap.terminatorToTx.get u.sharedObject = some t →
      v.isWrite.get u.sharedObject = some w → v'.allocationSet.Rel t ⟨A, w⟩ := by
  have hrun : Runs (fun _ => True)
      (uses.foldlM (fun (v : UseDefVisitor) use => v.mapAllocation use.sharedObject) v) fun v' =>
        (∃ sets, v' = { v with allocationSet := sets }) ∧
        ∀ u ∈ uses, ∀ t w, v.transactionMap.terminatorToTx.get u.sharedObject = some t →
          v.isWrite.get u.sharedObject = some w → v'.allocationSet.Rel t ⟨A, w⟩ := by
    refine foldlM_done (I := fun (pre : List TransactionUse) (v' : UseDefVisitor) =>
      (∃ sets, v' = { v with allocationSet := sets }) ∧ ∀ u ∈ pre, ∀ t w, v.transactionMap.terminatorToTx.get u.sharedObject = some t →
        v.isWrite.get u.sharedObject = some w → v'.allocationSet.Rel t ⟨A, w⟩) ⟨⟨_, rfl⟩, nofun⟩ ?_
    rintro pre u post _ - ⟨⟨sets, rfl⟩, hpre⟩
    refine ⟨fun _ _ => trivial, fun v'' h => ?_⟩
    have hmono : ∀ tx use, sets.Rel tx use → v''.allocationSet.Rel tx use := by
      intro tx use hu
      obtain rfl | ⟨t, use', rfl⟩ := mapAllocation_cases h
      · exact hu
      · exact rel_addTo.2 (.inr hu)
    refine ⟨?_, fun u' hu' t w ht hw => ?_⟩
    · obtain ⟨sets', rfl⟩ := mapAllocation_eq h
      exact ⟨sets', rfl⟩
    · rcases mem_append.1 hu' with hu' | hu'
      · exact hmono _ _ (hpre u' hu' t w ht hw)
      · obtain rfl := mem_singleton.1 hu'
        exact mapAllocation_credits (v := { v with allocationSet := sets }) hA ht hw h
  exact (hrun.post v' h).2

/-! ## Credits -/

section
variable (tcx : TyCtxt)

/-- The allocation is credited with the borrows of the vertex that are in a transaction. -/
def OwnCredit (txOf : UniqueId → Option (UniqueId × UniqueId)) (A x : UniqueId)
    (v : UseDefVisitor) : Prop :=
  ∀ b w t, Borrows tcx x b w → txOf b = some t → v.allocationSet.Rel t ⟨A, w⟩

/-- The allocation is credited with the borrows of the vertices the value flows to in the body. -/
def FlowCredit (txOf : UniqueId → Option (UniqueId × UniqueId)) (A x : UniqueId)
    (v : UseDefVisitor) : Prop :=
  ∀ y, ReflTransGen (Inside tcx) x y → OwnCredit tcx txOf A y v

/-- In a function that is called in the transaction `T`, the borrow is in the transaction `t`. -/
def InTx (ord : IterOrder) (tcx : TyCtxt) (fn : DefId) (body : Body) (T : UniqueId × UniqueId)
    (b : UniqueId) (t : UniqueId × UniqueId) : Prop :=
  ∀ txs tm, (TransactionMap.newChild fn body (some T) tcx.langItems txs).perform ord = .ok tm →
    tm.terminatorToTx.get b = some t

/-- No block before that of the vertex allocates a shared object. -/
def BeforeAllocs (body : Body) (p : UniqueId) : Prop :=
  ∀ data bb, (data, bb) ∈ body.basicBlocks.zipIdx → bb < p.location.block → ¬ Allocates tcx data

/-- The allocation is credited with the borrows of a function that is called by a use of the vertex,
through the occurrence `p` of its argument. -/
def ArgCredit (ord : IterOrder) (tcx : TyCtxt) (root : DefId)
    (txOf : UniqueId → Option (UniqueId × UniqueId)) (A x : UniqueId) (loc : Location) (p : UniqueId)
    (v : UseDefVisitor) : Prop :=
  ∀ l fn i body, Sees tcx x loc (.function l fn i) → tcx.bodies.get fn = some body →
    IsArgOf tcx fn (followedArg x i) x.field p → BeforeAllocs tcx body p →
    ¬ TransGen (Calls tcx root) fn fn →
    ¬ TransGen (Calls tcx root) x.defId x.defId →
    ∀ T y b w t, txOf ⟨x.defId, l, loc, none⟩ = some T → ReflTransGen (Inside tcx) p y →
      Borrows tcx y b w → InTx ord tcx fn body T b t → v.allocationSet.Rel t ⟨A, w⟩

/-- The vertices of a frame that is being traced: those of the functions it can come to are settled,
but for those on the way to the current one. -/
def Frame (root : DefId) (v : UseDefVisitor) (id : UniqueId) : Prop :=
  ∀ x ∈ v.vertices, ReflTransGen (Calls tcx root) v.defId x.defId →
    Settled tcx v x ∨ (x.defId = v.defId ∧ ReflTransGen v.edges.Rel x id)

end

/-- The allocation is followed through a vertex. The transactions of the function stay as they are,
since it does not come to itself again or they are its own. -/
structure Crediting (tcx : TyCtxt) (root : DefId) (txOf : UniqueId → Option (UniqueId × UniqueId))
    (A : UniqueId) (v : UseDefVisitor) (id : UniqueId) : Prop where
  ready : Ready tcx root v id
  sane : Sane tcx v
  frame : Frame tcx root v id
  current : v.currentAllocation = some A
  txs : ∀ k t, k.defId = v.defId → txOf k = some t →
    v.transactionMap.terminatorToTx.get k = some t ∧
      (¬ TransGen (Calls tcx root) v.defId v.defId ∨ Own tcx k t)

/-- In a body that is not entered again, the new vertices are reached from the vertex, and the
allocation is credited with their calls. -/
def Fresh (ord : IterOrder) (tcx : TyCtxt) (root : DefId)
    (txOf : UniqueId → Option (UniqueId × UniqueId)) (A id : UniqueId) (v v' : UseDefVisitor) : Prop :=
  ¬ TransGen (Calls tcx root) v.defId v.defId →
  ∀ x ∈ v'.vertices, x.defId = v.defId → x ∈ v.vertices ∨ (∃ a w, Borrows tcx a x w) ∨
    (ReflTransGen (Inside tcx) id x ∧ ∀ loc p, ArgCredit ord tcx root txOf A x loc p v')

/-- The states of a visitor while it follows an allocation through a vertex. -/
structure Credits (ord : IterOrder) (tcx : TyCtxt) (root : DefId)
    (txOf : UniqueId → Option (UniqueId × UniqueId)) (A id : UniqueId) (v v' : UseDefVisitor) :
    Prop where
  advances : Advances tcx root v v'
  fresh : Fresh ord tcx root txOf A id v v'

section
variable {txOf : UniqueId → Option (UniqueId × UniqueId)} {A : UniqueId} {v v' v₀ : UseDefVisitor}

theorem FlowCredit.mono {x : UniqueId}
    (h : ∀ tx use, v.allocationSet.Rel tx use → v'.allocationSet.Rel tx use)
    (hx : FlowCredit tcx txOf A x v) : FlowCredit tcx txOf A x v' :=
  fun y hy b w t hb ht => h _ _ (hx y hy b w t hb ht)

variable {loc : Location}

theorem ArgCredit.mono {x p : UniqueId}
    (h : ∀ tx use, v.allocationSet.Rel tx use → v'.allocationSet.Rel tx use)
    (hx : ArgCredit ord tcx root txOf A x loc p v) : ArgCredit ord tcx root txOf A x loc p v' :=
  fun l fn i body hs hbody harg hbefore hquiet hquiet' T y b w t hT hy hb ht =>
    h _ _ (hx l fn i body hs hbody harg hbefore hquiet hquiet' T y b w t hT hy hb ht)

variable {b id : UniqueId}

theorem Credits.trans {v₁ v₂ v₃ : UseDefVisitor} (h : Credits ord tcx root txOf A id v₁ v₂)
    (h' : Credits ord tcx root txOf A id v₂ v₃) : Credits ord tcx root txOf A id v₁ v₃ := by
  refine ⟨h.advances.trans h'.advances, fun hquiet x hx hd => ?_⟩
  have hdef := h.advances.records.goes.2.defId
  rcases h'.fresh (hdef.symm ▸ hquiet) x hx (hd.trans hdef.symm) with hx | hx
  · rcases h.fresh hquiet x hx hd with hx | hx | ⟨hx, hcall⟩
    · exact .inl hx
    · exact .inr (.inl hx)
    · exact .inr (.inr ⟨hx, fun loc p => (hcall loc p).mono h'.advances.ext.credits⟩)
  · exact .inr hx

theorem credits_progress : Progress (Credits ord tcx root txOf A id) :=
  ⟨fun h => h.advances.records.goes.2, fun h => ⟨advances_progress.refl h.advances,
    fun _ _ hx _ => .inl hx⟩, Credits.trans⟩

section
variable (h : Crediting tcx root txOf A v id)
include h

/-- Inside a frame, the state after some of the uses is again one in which the allocation is followed
through the vertex. -/
theorem Crediting.later (h' : Advances tcx root v v') : Crediting tcx root txOf A v' id := by
  obtain ⟨hrec, hext, hcur⟩ := h'
  have hl := hrec.goes.2
  refine ⟨⟨hrec.goes.1, hrec.closed, hl.vertices id h.ready.marked, h.ready.reached,
    h.ready.defId.trans hl.defId.symm⟩, hext.sane, fun x hx hcalls => ?_, hcur.trans h.current,
    fun k t hk ht => ?_⟩
  · rcases hrec.settled x hx with hx | hx
    · rw [hl.defId] at hcalls ⊢
      rcases h.frame x hx hcalls with hx | ⟨hd, hpath⟩
      · exact .inl (hx.mono hl.vertices hl.edges)
      · exact .inr ⟨hd, ReflTransGen.mono hl.edges _ _ hpath⟩
    · exact .inl hx
  · rw [hl.defId] at hk ⊢
    obtain ⟨hget, hkeep⟩ := h.txs k t hk ht
    refine ⟨?_, hkeep⟩
    rcases hkeep with hquiet | hown
    · rw [hext.txs k (hk ▸ hquiet), hget]
    · exact hext.own k t hown hget

theorem Crediting.touch
    (hf : Flow tcx id b) (hd : b.defId = v.defId) : Crediting tcx root txOf A (v.touch id b) b := by
  have hext : Extends tcx root v (v.touch id b) :=
    extends_touch h.sane id (h.ready.reached.flow hf) hd
  have hl := (goes_touch h.ready.good h.ready.reached hf).2
  refine ⟨ready_touch h.ready.good h.ready.closed h.ready.marked h.ready.reached hf hd, hext.sane,
    fun x hx hcalls => ?_, h.current, h.txs⟩
  rcases mem_insert.1 hx with rfl | hx
  · exact .inr ⟨hd, .refl⟩
  · rcases h.frame x hx hcalls with hx | ⟨hd', hpath⟩
    · exact .inl (hx.mono hl.vertices hl.edges)
    · refine .inr ⟨hd', (ReflTransGen.mono hl.edges _ _ hpath).tail ?_⟩
      exact rel_addTo.2 (.inl ⟨rfl, rfl⟩)

/-- Inside a frame, a visited vertex from which the recorded edges come to an end is traced, and so
is every vertex its value flows to in the body. -/
theorem Crediting.traced (hf : Flow tcx id b)
    (hd : b.defId = v.defId) (hmem : b ∈ v.vertices) (hends : EndsFrom (v.connect id b) b)
    {y : UniqueId} (hy : ReflTransGen (Inside tcx) b y) : Traced tcx v y ∧
    ReflTransGen v.edges.Rel b y ∧ y.defId = v.defId := by
  -- A vertex on the way to the current one would close a cycle.
  have hsettled : ∀ x ∈ v.vertices, x.defId = v.defId → Reached tcx root x →
      ReflTransGen v.edges.Rel b x → Traced tcx v x := by
    intro x hx hdx hrx hbx
    rcases h.frame x hx (hdx ▸ .refl) with (hs | ⟨a, w, hb⟩) | ⟨-, hxid⟩
    · exact hs
    · exact absurd hb hrx.not_borrows
    · have hback : ReflTransGen (v.connect id b).edges.Rel b id :=
        ReflTransGen.mono (later_connect v id b).edges _ _ (hbx.trans hxid)
      refine absurd ?_ (not_transGen_of_acc hends)
      exact tail' hback (rel_addTo.2 (.inl ⟨rfl, rfl⟩))
  suffices hpath : ReflTransGen v.edges.Rel b y ∧ y.defId = v.defId ∧ y ∈ v.vertices ∧
      Reached tcx root y from
    ⟨hsettled y hpath.2.2.1 hpath.2.1 hpath.2.2.2 hpath.1, hpath.1, hpath.2.1⟩
  induction hy with
  | refl => exact ⟨.refl, hd, hmem, h.ready.reached.flow hf⟩
  | tail _ hyz ih =>
    obtain ⟨hby, hdy, hmy, hry⟩ := ih
    have ht := hsettled _ hmy hdy hry hby
    obtain ⟨hflow, hdz⟩ := hyz.flow
    exact ⟨hby.tail (ht.recorded _ (.inl hflow)), hdz.trans hdy, ht.marked _ _ _ hyz, hry.flow hflow⟩

end

/-- What tracing a vertex in a frame credits the allocation with. -/
structure TraceCredits (ord : IterOrder) (tcx : TyCtxt) (root : DefId)
    (txOf : UniqueId → Option (UniqueId × UniqueId)) (A : UniqueId) (v : UseDefVisitor)
    (id : UniqueId) (v' : UseDefVisitor) : Prop where
  credits : Credits ord tcx root txOf A id v v'
  flow : FlowCredit tcx txOf A id v'
  args : ∀ loc p, ArgCredit ord tcx root txOf A id loc p v'

/-- The recursive calls credit the allocation that is followed. -/
def TracesCredit (ord : IterOrder) (tcx : TyCtxt) (root : DefId) (n : Nat) : Prop :=
  ∀ txOf A v b, Crediting tcx root txOf A v b →
    Runs (fun _ => True) (trace ord tcx n v b) (TraceCredits ord tcx root txOf A v b)

variable {i n : Nat}

theorem follow_credits (ih : TracesCredit ord tcx root n) (h : Crediting tcx root txOf A v₀ id) (hv : Advances tcx root v₀ v)
    (hi : Inside tcx id b) : Runs (fun _ => True) (v.follow ord (trace ord tcx n) n id b) fun v' =>
      Credits ord tcx root txOf A id v v' ∧ FlowCredit tcx txOf A b v' := by
  obtain ⟨hf, hdb⟩ := hi.flow
  have hc := h.later hv
  have hd : b.defId = v.defId := hdb.trans hc.ready.defId
  suffices hs : Runs (fun _ => True) (v.follow ord (trace ord tcx n) n id b) fun v' =>
      Fresh ord tcx root txOf A id v v' ∧ FlowCredit tcx txOf A b v' from
    ((follow_advances (trace_advances n) h.ready hv hf hd).and hs).mono fun v' hv' =>
      ⟨⟨hv'.1, hv'.2.1⟩, hv'.2.2⟩
  unfold follow
  simp only
  split
  · next hmem =>
    have hgc := goes_connect hc.ready.good (.inl hf) hc.ready.reached
    refine bind (P := fun s => (v.connect id b).edges.get b = some s)
      (.unwrap (fun _ _ => trivial) fun _ h => h) fun s hs => ?_
    refine ((useSet_endsFrom n s).and (useSet_leaves n s)).bind fun uses huses => ?_
    have hends : EndsFrom (v.connect id b) b := ⟨_, fun c hc => by
      obtain ⟨s', hs', hmem'⟩ := hc
      rw [hs] at hs'
      cases hs'
      exact huses.1 c hmem'⟩
    refine ⟨fun _ _ => trivial, fun v' hv' => ⟨fun _ x hx _ => .inl ?_, fun y hy c w t hb ht => ?_⟩⟩
    · -- The loop over the leaves marks nothing.
      have : v'.vertices = v.vertices := foldlM_keeps (P := fun v' => v'.vertices = v.vertices)
        rfl hv' fun _ _ s s' hs hs' => (vertices_mapAllocation hs').trans hs
      rwa [this] at hx
    · obtain ⟨htr, hpath, hdy⟩ := hc.traced hf hd hmem hends hy
      have hyc := htr.recorded c (.inr ⟨w, hb⟩)
      have hleaf : (v.connect id b).edges.get c = none :=
        ((sane_connect hc.sane id b).filled).get_eq_none fun x hx =>
          (hgc.1.edges c x hx).2.not_borrows hb
      have hbc : ReflTransGen (v.connect id b).edges.Rel b c :=
        ReflTransGen.mono (later_connect v id b).edges _ _ (hpath.tail hyc)
      rcases ReflTransGen.cases_head hbc with rfl | ⟨a, ⟨s', hs', ha⟩, hac⟩
      · rw [hs] at hleaf
        cases hleaf
      · rw [hs] at hs'
        cases hs'
        obtain ⟨u, hu, rfl⟩ := huses.2 a ha c hac hleaf
        refine mapAllocations_credits (v := v.connect id b) hc.current hv' u
          ((mem_order ..).2 hu) t w ?_ ?_
        · exact (hc.txs _ t (hb.defId_eq.trans hdy) ht).1
        · exact hc.sane.writes y _ w hb ((hc.ready.closed _ _ hyc).2)
  · refine (ih txOf A _ b (hc.touch hf hd)).mono fun v' h' =>
      ⟨fun hquiet x hx hdx => ?_, h'.flow⟩
    rcases h'.credits.fresh hquiet x hx hdx with hx | hx | ⟨hx, hargs⟩
    · rcases mem_insert.1 hx with rfl | hx
      · exact .inr (.inr ⟨.single hi, h'.args⟩)
      · exact .inl hx
    · exact .inr (.inl hx)
    · exact .inr (.inr ⟨.head hi hx, hargs⟩)

theorem borrow_credits {w : Bool}
    (h : Crediting tcx root txOf A v₀ id) (hv : Advances tcx root v₀ v) (hb : Borrows tcx id b w) :
    Runs (fun _ => True) (v.borrow id b w) fun v' => Credits ord tcx root txOf A id v v' ∧
      ∀ x w t, Borrows tcx x b w → txOf b = some t → v'.allocationSet.Rel t ⟨A, w⟩ := by
  have hc := h.later hv
  have hd : b.defId = v.defId := hb.defId_eq.trans hc.ready.defId
  suffices hs : ∀ v', v.borrow id b w = .ok v' → Fresh ord tcx root txOf A id v v' ∧
      ∀ x w t, Borrows tcx x b w → txOf b = some t → v'.allocationSet.Rel t ⟨A, w⟩ from
    ⟨fun _ _ => trivial, fun v' hv' =>
      ⟨⟨(borrow_advances h.ready hv hb hd).post v' hv', (hs v' hv').1⟩, (hs v' hv').2⟩⟩
  intro v' hv'
  obtain ⟨v₁, h1, hv'⟩ := bind_eq_ok.1 hv'
  cases hv'
  refine ⟨fun _ x hx _ => ?_, fun x w' t hb' ht => ?_⟩
  · rcases mem_insert.1 hx with rfl | hx
    · exact .inr (.inl ⟨id, w, hb⟩)
    · rw [connect_vertices, vertices_mapAllocation h1] at hx
      exact .inl hx
  · rw [hb'.unique hb]
    have htx : v.transactionMap.terminatorToTx.get b = some t := (hc.txs b t hd ht).1
    have hcredit : v₁.allocationSet.Rel t ⟨A, w⟩ :=
      mapAllocation_credits (v := { v with isWrite := v.isWrite.insert b w }) hc.current htx
        (get_insert_self ..) h1
    exact hcredit

variable {fn : DefId} {body : Body}

theorem lt_of_mem_pre {blocks : List BasicBlockData} {pre post : List (BasicBlockData × BasicBlock)}
    {data data' : BasicBlockData} {bb bb' : BasicBlock}
    (h : blocks.zipIdx = pre ++ (data, bb) :: post) (hmem : (data', bb') ∈ pre) : bb' < bb := by
  have hidx : ∀ i (hi : i < blocks.zipIdx.length), blocks.zipIdx[i].2 = i := by simp
  obtain ⟨i, hi, hget⟩ := getElem_of_mem hmem
  have hpre : pre.length < blocks.zipIdx.length := by rw [h]; simp
  have hbb : bb = pre.length := by
    have := hidx pre.length hpre
    simpa [h] using this
  have hbb' : bb' = i := by
    have := hidx i (hi.trans hpre)
    simpa [h, getElem_append_left hi, hget] using this
  rw [hbb, hbb']
  exact hi

variable {l : Local}

theorem arg_credits (ih : TracesCredit ord tcx root n) {c : UseDefVisitor}
    {p : UniqueId} (h : Crediting tcx root txOf A v id) (hs : Sees tcx id loc (.function l fn i)) {analysis : DefUseAnalysis}
    {tm : TransactionMap}
    (hw : Walks tcx root { childOf tcx v id loc l fn i body analysis with transactionMap := tm } c)
    (hp : IsArgOf tcx fn (followedArg id i) id.field p) (hcur : c.currentAllocation = some A)
    (hquiet : ¬ TransGen (Calls tcx root) fn fn)
    (houter : ¬ TransGen (Calls tcx root) v.defId v.defId) :
    Runs (fun _ => True) (trace ord tcx n (c.touch id p) p) fun c' =>
      FlowCredit tcx (fun k => tm.terminatorToTx.get k) A p c' := by
  have hf := Flow.arg hs hp
  have hl := hw.1.goes.2
  have hd : p.defId = c.defId := by rw [hl.defId, hp.defId_eq]; rfl
  have hcalls : Calls tcx root v.defId fn := ⟨id, loc, l, i, h.ready.reached, h.ready.defId, hs⟩
  have hlt := (goes_touch hw.1.goes.1 h.ready.reached hf).2
  have hcr : Crediting tcx root (fun k => tm.terminatorToTx.get k) A (c.touch id p) p := by
    refine ⟨ready_touch hw.1.goes.1 hw.1.closed (hl.vertices id h.ready.marked) h.ready.reached hf hd,
      (extends_touch hw.2.sane id (h.ready.reached.flow hf) hd).sane, fun x hx hcx => ?_, hcur,
      fun k t hk ht => ?_⟩
    · rcases mem_insert.1 hx with rfl | hx
      · exact .inr ⟨hd, .refl⟩
      · refine .inl (Settled.mono hlt.vertices hlt.edges ?_)
        rcases hw.1.settled x hx with hx | hx
        · -- A vertex of an outer frame is settled, since its function is not entered again.
          have hpath : TransGen (Calls tcx root) v.defId x.defId := by
            refine head' hcalls ?_
            have hdef : (c.touch id p).defId = fn := hl.defId
            rwa [hdef] at hcx
          rcases h.frame x hx hpath.to_reflTransGen with hx | ⟨hdx, -⟩
          · exact Settled.mono (v := v) hl.vertices hl.edges hx
          · exact absurd (hdx ▸ hpath) houter
        · exact hx
    · have hdef : (c.touch id p).defId = fn := hl.defId
      rw [hdef] at hk ⊢
      exact ⟨(hw.2.txs k (hk ▸ hquiet)).trans ht, .inl hquiet⟩
  exact (ih _ A _ p hcr).mono fun c' h' => h'.flow

theorem enterFunction_credits_args (ih : TracesCredit ord tcx root n) (h : Crediting tcx root txOf A v₀ id) (hv : Advances tcx root v₀ v)
    (hs : Sees tcx id loc (.function l fn i)) :
    Runs (fun _ => True) (v.enterFunction ord tcx (trace ord tcx n) id loc l fn i) fun v' =>
      ∀ body p, tcx.bodies.get fn = some body → IsArgOf tcx fn (followedArg id i) id.field p →
        BeforeAllocs tcx body p → ¬ TransGen (Calls tcx root) fn fn →
        ¬ TransGen (Calls tcx root) id.defId id.defId →
        ∀ T y b w t, txOf ⟨id.defId, l, loc, none⟩ = some T → ReflTransGen (Inside tcx) p y →
          Borrows tcx y b w → InTx ord tcx fn body T b t → v'.allocationSet.Rel t ⟨A, w⟩ := by
  have hc := h.later hv
  refine enterFunction_runs (fun _ _ => trivial) (fun _ _ _ _ => trivial)
    fun body analysis hbody han => ?_
  have hg := good_childOf hc.ready.good hc.ready.reached hs hbody han
  have htx : ∀ T, txOf ⟨id.defId, l, loc, none⟩ = some T →
      v.transactionMap.terminatorToTx.get (v.uniqueId l loc none) = some T := by
    intro T hT
    rw [uniqueId, ← hc.ready.defId]
    exact (hc.txs ⟨id.defId, l, loc, none⟩ T hc.ready.defId hT).1
  let child := childOf tcx v id loc l fn i body analysis
  let Credited (p : UniqueId) (c : UseDefVisitor) : Prop :=
    BeforeAllocs tcx body p → ¬ TransGen (Calls tcx root) fn fn →
      ¬ TransGen (Calls tcx root) id.defId id.defId →
      ∀ T y b w t, txOf ⟨id.defId, l, loc, none⟩ = some T → ReflTransGen (Inside tcx) p y →
        Borrows tcx y b w → InTx ord tcx fn body T b t → c.allocationSet.Rel t ⟨A, w⟩
  let Holds (pre : List (BasicBlockData × BasicBlock)) (c : UseDefVisitor) : Prop :=
    (∃ tm, child.transactionMap.perform ord = .ok tm ∧
      Walks tcx root { child with transactionMap := tm } c) ∧
      ((∀ e ∈ pre, ¬ Allocates tcx e.1) → c.currentAllocation = some A)
  suffices hrun : Runs (fun _ => True) (child.performWith ord tcx (trace ord tcx n)) fun c =>
      Holds body.basicBlocks.zipIdx c ∧
        ∀ via p, IsStart tcx child via p → via = .arg → Credited p c by
    refine hrun.mono fun c hfin body' p hbody' hp => ?_
    rw [hbody] at hbody'
    cases hbody'
    intro hbefore hquiet houter T y b w t hT hy hb ht
    refine rel_extendAll.2 (.inr ?_)
    exact hfin.2 .arg p (isStart_childOf.2 (.inl ⟨rfl, hp⟩)) rfl hbefore hquiet houter T y b w t hT
      hy hb ht
  refine performWith_runs (R := Walks tcx root) (U := fun via p c => via = .arg → Credited p c)
    (I := Holds) walks_progress ?_ hg.body ?_ ?_ (fun _ _ _ => trivial) ?_ ?_ ?_
    fun _ _ _ _ _ _ _ _ _ _ => trivial
  · exact fun _ _ _ _ hw hu hvia hbefore hquiet houter T y b w t hT hy hb ht =>
      hw.2.credits _ _ (hu hvia hbefore hquiet houter T y b w t hT hy hb ht)
  · rintro pre c ⟨⟨tm, -, hw⟩, -⟩
    exact ⟨hw.1.goes.2.of_transactionMap, walks_progress.refl hw⟩
  · refine ⟨fun _ _ => trivial, fun tm htm => ⟨⟨tm, htm, ?_⟩, fun _ => hc.current⟩⟩
    exact ⟨records_refl ⟨hg.body, hg.analysis, hg.edges, hg.arg⟩ hc.ready.closed,
      Sane.extends ⟨hc.sane.filled, hc.sane.writes⟩⟩
  · rintro pre data bb post c a j p hsplit ⟨⟨tm, htm, hw⟩, hcur⟩ hblock ⟨rfl⟩ ⟨rfl⟩ hp
    have hf := Flow.arg hs hp
    have hra := hc.ready.reached
    have hd : p.defId = c.defId := by rw [hw.1.goes.2.defId, hp.defId_eq]
    have hready := ready_touch hw.1.goes.1 hw.1.closed
      (hw.1.goes.2.vertices id hc.ready.marked) hra hf hd
    have hsane := (extends_touch hw.2.sane id (hra.flow hf) hd).sane
    have hwalk : Runs (fun _ => True) (trace ord tcx n (c.touch id p) p) fun c' =>
        Walks tcx root c c' ∧ c'.currentAllocation = c.currentAllocation :=
      ((trace_records n _ p hready).and (trace_advances n _ p hready hsane)).mono fun c' h' =>
        ⟨walks_arg hw.1.goes.1 hw.2.sane hra hf hd h'.1 h'.2, h'.2.current⟩
    have hcredit : Runs (fun _ => True) (trace ord tcx n (c.touch id p) p) (Credited p) := by
      refine ⟨fun _ _ => trivial, fun c' hc' hbefore hquiet houter T y b w t hT hy hb ht => ?_⟩
      have hpre : ∀ e ∈ pre, ¬ Allocates tcx e.1 := fun e he =>
        hbefore e.1 e.2 (by rw [show body.basicBlocks.zipIdx = _ from hsplit]; simp [he])
          (hblock ▸ lt_of_mem_pre hsplit he)
      rw [hc.ready.defId] at houter
      refine ((arg_credits ih hc hs hw hp (hcur hpre) hquiet houter).post c' hc') y hy b w t hb ?_
      refine ht v.transactionMap.terminatorToTx tm ?_
      rw [← htx T hT]
      exact htm
    exact (hwalk.and hcredit).mono fun c' h' => ⟨⟨⟨tm, htm, hw.trans h'.1.1⟩, fun hpre =>
      h'.1.2.trans (hcur hpre)⟩, h'.1.1, fun _ => h'.2⟩
  · rintro pre data bb post c a hsplit ⟨⟨tm, htm, hw⟩, -⟩ rfl ha
    have hra := hc.ready.reached.retraced (.alloc hs ha)
    have hd : a.defId = c.defId := by rw [ha.defId_eq, hw.1.goes.2.defId]
    have hready := ready_alloc hw.1.goes.1 hw.1.closed hra hd
    refine ((trace_records n _ a hready).and
      (trace_advances n _ a hready (sane_visit hw.2.sane hra _))).mono fun c' h' => ?_
    have hwalk := walks_alloc hw.1.goes.1 hw.2.sane hra hd h'.1 h'.2
    refine ⟨⟨⟨tm, htm, hw.trans hwalk⟩, fun hpre => ?_⟩, hwalk, fun h => by cases h⟩
    exact absurd (allocates_of_isAllocOf ha hbody (by rw [show body.basicBlocks.zipIdx = _ from hsplit]; simp))
      (hpre _ (mem_append_right _ (mem_singleton.2 rfl)))
  · rintro pre data bb post c hsplit hnot ⟨hw, hcur⟩
    exact ⟨hw, fun hpre => hcur fun e he => hpre e (mem_append_left _ he)⟩

theorem enterFunction_credits (ih : TracesCredit ord tcx root n) (h : Crediting tcx root txOf A v₀ id) (hv : Advances tcx root v₀ v)
    (hs : Sees tcx id loc (.function l fn i)) :
    Runs (fun _ => True) (v.enterFunction ord tcx (trace ord tcx n) id loc l fn i) fun v' =>
      Credits ord tcx root txOf A id v v' ∧ ∀ p, ArgCredit ord tcx root txOf A id loc p v' := by
  refine ((enterFunction_advances (trace_advances n) h.ready hv hs).and
    (enterFunction_credits_args ih h hv hs)).mono fun v' h' =>
      ⟨⟨h'.1.1, fun hquiet x hx hd => ?_⟩, ?_⟩
  · rcases h'.1.2 x hx with hx | hx
    · exact .inl hx
    · exact absurd (hd ▸ hx) hquiet
  · intro p l' fn' i' body hs' hbody hp
    have heq : UseKind.function l fn i = .function l' fn' i' := hs.unique hs'
    cases heq
    exact h'.2 body p hbody hp

theorem trace_credits : ∀ n : Nat, TracesCredit ord tcx root n
  | 0, _, _, _, _, _ => ⟨fun _ _ => trivial, fun _ h => nomatch h⟩
  | n + 1, txOf, A, v, id, h => by
    -- What is known of a vertex once it is dealt with, in the way it is come to.
    let Due (loc : Location) : Via → UniqueId → UseDefVisitor → Prop
      | .flow, b, v' => FlowCredit tcx txOf A b v'
      | .borrow, b, v' => ∀ x w t, Borrows tcx x b w → txOf b = some t → v'.allocationSet.Rel t ⟨A, w⟩
      | .arg, b, v' => ArgCredit ord tcx root txOf A id loc b v'
      | .alloc, _, _ => True
    have hkept : ∀ loc, Kept (Credits ord tcx root txOf A id) (Due loc) := by
      intro loc via b v₁ v₂ hv hb
      have hmono := hv.advances.ext.credits
      cases via with
      | flow => exact FlowCredit.mono hmono hb
      | borrow => exact fun x w t hx ht => hmono _ _ (hb x w t hx ht)
      | arg => exact ArgCredit.mono hmono hb
      | alloc => trivial
    have hself : Credits ord tcx root txOf A id v v :=
      ⟨⟨records_refl h.ready.good h.ready.closed, h.sane.extends, rfl⟩, fun _ _ hx _ => .inl hx⟩
    refine (trace_succ_runs credits_progress hkept hself h.ready.good.body h.ready.good.analysis
      h.ready.defId (fun _ _ => trivial) (fun _ _ _ _ => trivial) ?_ ?_ ?_).mono fun v' h' => ?_
    · exact fun v' b hv' hi _ => follow_credits (trace_credits n) h hv'.advances hi
    · exact fun v' b w hv' hb _ => borrow_credits h hv'.advances hb
    · refine fun v' loc l fn i hv' hs => (enterFunction_credits (trace_credits n) h hv'.advances
        hs).mono fun v'' h'' => ⟨h''.1, fun via b hb => ?_⟩
      rcases hb with ⟨rfl, -⟩ | ⟨rfl, -⟩
      · exact h''.2 b
      · trivial
    · refine ⟨h'.1, fun y hy b w t hb ht => ?_, fun loc p l fn i body hs hbody hp => ?_⟩
      · rcases ReflTransGen.cases_head hy with rfl | ⟨x, hx, hxy⟩
        · exact h'.2.1 _ _ b (comes_of_borrows hb) id w t hb ht
        · exact h'.2.1 _ _ x hx y hxy b w t hb ht
      · exact h'.2.1 loc .arg p ⟨_, hs, .inl ⟨rfl, hp⟩⟩ l fn i body hs hbody hp

end

end

end UseDefVisitor

end Tortis
