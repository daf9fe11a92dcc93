import Tortis.Transaction.Followed

/-!
# Visited vertices

What `trace` finds when the value it follows comes to a vertex that is visited already, in the
analysis of a body that calls no local function. When no value flows in a cycle, `use_set` ends
(`useSet_terminates`), and the entries it unwraps are there exactly when no value the vertex flows
to comes to a dead end, where it is neither moved on nor borrowed (`unwraps_iff_noDeadEnd`).
-/

namespace Tortis

open Outcome List Option FxHashMap Relation DefUseAnalysis

namespace UseDefVisitor

section
variable {ord : IterOrder} {tcx : TyCtxt} {root : DefId}

/-! ## Termination -/

/-- No value flows in a cycle among the vertices that are reached. -/
def NoCycle (tcx : TyCtxt) (root : DefId) : Prop :=
  ∀ id, Reached tcx root id → ¬ TransGen (Flow tcx) id id

/-- Whenever a visited vertex is come to, following its edges ends, with fuel that is the same for all
of them, in a body in which no value flows in a cycle. -/
theorem useSet_terminates {body : Body} (hbody : tcx.bodies.get root = some body) {v₀ : UseDefVisitor}
    (hv₀ : UseDefVisitor.new body root tcx = .ok v₀) (hc : NoCycle tcx root) :
    ∃ N, ∀ m ≥ N, ∀ n k A v id b s,
      ReflTransGen (Invokes ord tcx) (.perform n none v₀) (.follow k A v id b) →
      b ∈ v.vertices → (v.connect id b).edges.get b = some s →
      Ends ((v.connect id b).useSet ord m s) := by
  obtain ⟨N, hN⟩ := useSet_ends ord hc
  refine ⟨N, fun m hm n k A v id b s hrun _ hs => ?_⟩
  obtain ⟨⟨hready, -⟩, hi, -⟩ := reached_valid hrun (enters_new hbody hv₀)
  exact hN m hm _ b s (goes_connect hready.good (.inl hi.flow.1) hready.reached).1 hs

/-! ## Kinds of borrows -/

def KindsOfBorrows (tcx : TyCtxt) (v : UseDefVisitor) : Prop :=
  ∀ b w, v.isWrite.get b = some w → ∃ a, Borrows tcx a b w

/-- No call of the body is taken for a call of a local function. -/
def CallsNoLocal (tcx : TyCtxt) (body : Body) : Prop :=
  ∀ loc id l fn i, locationToUseKind tcx loc id body = .ok (some (.function l fn i)) →
    fn.krate ≠ LOCAL_CRATE

variable {body : Body} {id : UniqueId}

theorem CallsNoLocal.not_sees (hlocal : CallsNoLocal tcx body)
    (hbody : tcx.bodies.get root = some body) (hd : id.defId = root) {loc : Location}
    {l : Local} {fn : DefId} {i : Nat} : ¬ Sees tcx id loc (.function l fn i) := by
  rintro ⟨body', hbody', hmem⟩
  rw [hd, hbody] at hbody'
  cases hbody'
  obtain ⟨hkind, hkrate⟩ := mem_visibleUses hmem
  exact hlocal loc id l fn i hkind (hkrate l fn i rfl)

/-- The operand is no local function, and no closure of the crate is passed to it as a type. -/
def isForeign : Operand → Bool
  | .constant ⟨.fnDef f substs, _⟩ =>
    f.krate ≠ LOCAL_CRATE && (substs.findSome? closureDefId).all (·.krate ≠ LOCAL_CRATE)
  | _ => true

theorem terminatorUseKind_function {term : Terminator} {l : Local} {fn : DefId} {i : Nat}
    (h : terminatorUseKind tcx id term = .ok (some (.function l fn i))) :
    ∃ f substs val args dest cleanup,
      term = .call (.constant ⟨.fnDef f substs, val⟩) args dest cleanup ∧
        (fn = f ∨ substs.findSome? closureDefId = some fn) := by
  have hdest : ∀ {dest : Option (Place × BasicBlock)} {k : Local → UseKind},
      (∀ l', k l' ≠ .function l fn i) →
      (do let l ← unwrap (localFromDest dest); return some (k l)) ≠
        Except.ok (some (.function l fn i)) := by
    intro dest k hk h
    obtain ⟨l', -, h⟩ := bind_eq_ok.1 h
    exact hk l' (some.inj (Except.ok.inj h))
  unfold terminatorUseKind at h
  split at h
  · next func args dest cleanup =>
    simp only at h
    split at h
    · exact absurd h (hdest fun _ => nofun)
    · split at h
      · exact absurd h (hdest fun _ => nofun)
      · split at h
        · exact absurd h (hdest fun _ => nofun)
        · split at h
          · refine ⟨_, _, _, args, dest, cleanup, rfl, ?_⟩
            unfold functionUseKind at h
            split at h
            · next closure field hclosure _ =>
              obtain ⟨l', -, h⟩ := bind_eq_ok.1 h
              cases h
              exact .inr hclosure
            · split at h
              · obtain ⟨l', -, h⟩ := bind_eq_ok.1 h
                cases h
                exact .inl rfl
              · cases h
          · cases h
  · cases h

theorem callsNoLocal_of_isForeign (h : ∀ data ∈ body.basicBlocks, ∀ func args dest cleanup,
      data.terminator = some (.call func args dest cleanup) → isForeign func) :
    CallsNoLocal tcx body := by
  intro loc id l fn i hkind
  unfold locationToUseKind at hkind
  split at hkind
  · cases hkind
  · next data hdata =>
    have h := h data (mem_of_getElem? hdata)
    split at hkind
    · next stmt _ =>
      have hkind := Except.ok.inj hkind
      unfold statementUseKind at hkind
      grind
    · split at hkind
      · cases hkind
      · obtain ⟨term, hterm, hkind⟩ := bind_eq_ok.1 hkind
        have hterm := unwrap_eq_ok.1 hterm
        obtain ⟨f, substs, val, args, dest, cleanup, rfl, hfn⟩ := terminatorUseKind_function hkind
        have hforeign := h _ _ _ _ hterm
        simp only [isForeign, Bool.and_eq_true, decide_eq_true_eq] at hforeign
        rcases hfn with rfl | hfn
        · exact hforeign.1
        · simpa [hfn] using hforeign.2

variable {v v' : UseDefVisitor}

theorem isWrite_mapAllocation {b : UniqueId} (h : v.mapAllocation b = .ok v') :
    v'.isWrite = v.isWrite := by
  obtain ⟨sets, rfl⟩ := mapAllocation_eq h
  rfl

/-- The states of a visitor of the root body while it traces a vertex: only borrows get a kind. -/
structure Marks (tcx : TyCtxt) (root : DefId) (v v' : UseDefVisitor) : Prop where
  advances : Advances tcx root v v'
  borrows : v.defId = root → KindsOfBorrows tcx v → KindsOfBorrows tcx v'

theorem marks_progress : Progress (Marks tcx root) where
  later h := h.advances.records.goes.2
  refl h := ⟨advances_progress.refl h.advances, fun _ h => h⟩
  trans h h' := ⟨h.advances.trans h'.advances, fun hd hb =>
    h'.borrows (h.advances.records.goes.2.defId.trans hd) (h.borrows hd hb)⟩

/-- The recursive calls give a kind to borrows only. -/
def TraceMarks (ord : IterOrder) (tcx : TyCtxt) (root : DefId) (n : Nat) : Prop :=
  ∀ v b, Ready tcx root v b → Sane tcx v → v.defId = root → KindsOfBorrows tcx v →
    Runs (fun _ => True) (trace ord tcx n v b) (KindsOfBorrows tcx)

variable {v0 v : UseDefVisitor} {id b : UniqueId}

theorem follow_marks {n : Nat} (ih : TraceMarks ord tcx root n)
    (hid : Ready tcx root v0 id) (hv : Marks tcx root v0 v) (hi : Inside tcx id b)
    (hd : b.defId = v.defId) :
    Runs (fun _ => True) (v.follow ord (trace ord tcx n) n id b) (Marks tcx root v) := by
  refine ⟨fun _ _ => trivial, fun v' h => ⟨(follow_advances (trace_advances n) hid hv.advances
    hi.flow.1 hd).post v' h, fun hroot hb => ?_⟩⟩
  have hready := hv.advances.ready hid
  have hf := hi.flow.1
  unfold follow at h
  simp only at h
  split at h
  · obtain ⟨s, -, h⟩ := bind_eq_ok.1 h
    obtain ⟨uses, -, h⟩ := bind_eq_ok.1 h
    refine foldlM_keeps (P := KindsOfBorrows tcx) (s := v.connect id b) hb h fun use _ s s' hs hs' => ?_
    unfold KindsOfBorrows
    rwa [isWrite_mapAllocation hs']
  · refine (ih (v.touch id b) b (ready_touch hready.1.good hready.1.closed hready.1.marked
      hready.1.reached hf hd) ?_ hroot hb).post v' h
    exact (extends_touch hready.2 id (hready.1.reached.flow hf) hd).sane

theorem borrow_marks {w : Bool}
    (hid : Ready tcx root v0 id) (hv : Marks tcx root v0 v) (hb : Borrows tcx id b w)
    (hd : b.defId = v.defId) : Runs (fun _ => True) (v.borrow id b w) (Marks tcx root v) := by
  refine ⟨fun _ _ => trivial, fun v' h => ⟨(borrow_advances hid hv.advances hb hd).post v' h,
    fun _ honly => ?_⟩⟩
  obtain ⟨v1, h1, h⟩ := bind_eq_ok.1 h
  cases h
  intro x w' hx
  rw [connect, isWrite_mapAllocation h1, get_insert] at hx
  split at hx
  · next heq =>
    cases hx
    exact ⟨id, heq ▸ hb⟩
  · exact honly x w' hx

theorem trace_marks (hbody : tcx.bodies.get root = some body)
    (hlocal : CallsNoLocal tcx body) : ∀ n : Nat, TraceMarks ord tcx root n
  | 0, _, _, _, _, _, _ => ⟨fun _ _ => trivial, fun _ h => nomatch h⟩
  | n + 1, v, id, hid, hs, hd, hb => by
    refine (trace_succ_runs (R := Marks tcx root) (U := fun _ _ _ _ => True) marks_progress
      (fun _ _ _ _ _ _ _ => trivial)
      ⟨⟨records_refl hid.good hid.closed, hs.extends, rfl⟩, fun _ h => h⟩ hid.good.body
      hid.good.analysis hid.defId (fun _ _ => trivial) (fun _ _ _ _ => trivial) ?_ ?_ ?_).mono
      fun _ h => h.1.borrows hd hb
    · exact fun v' b hv' hi hd => (follow_marks (trace_marks hbody hlocal n) hid hv' hi hd).mono
        fun _ h => ⟨h, trivial⟩
    · exact fun v' b w hv' hb hd => (borrow_marks hid hv' hb hd).mono fun _ h => ⟨h, trivial⟩
    · exact fun v' loc l fn i _ hsees => absurd hsees (hlocal.not_sees hbody (hid.defId.trans hd))

theorem keeps_marks (hbody : tcx.bodies.get root = some body)
    (hlocal : CallsNoLocal tcx body) : Keeps ord tcx root (Marks tcx root) where
  progress := marks_progress
  advances h := h.advances
  start hid hs := ⟨⟨records_refl hid.good hid.closed, hs.extends, rfl⟩, fun _ h => h⟩
  follow hid hv hi hd := follow_marks (trace_marks hbody hlocal _) hid hv hi hd
  borrow hid hv hb hd := borrow_marks hid hv hb hd
  enter {n v0 v id loc l fn i} hid hv hs := by
    refine ⟨fun _ _ => trivial, fun v' h => ⟨((enterFunction_advances (trace_advances n) hid
      hv.advances hs).post v' h).1, fun hd => ?_⟩⟩
    refine absurd hs (hlocal.not_sees hbody (hid.defId.trans ?_))
    rw [← hd, (marks_progress.later hv).defId]

/-! ## Vertices on the way -/

/-- Every visited vertex is settled, or the value flows from it to the one that is traced. -/
def OnTheWay (tcx : TyCtxt) (v : UseDefVisitor) (id : UniqueId) : Prop :=
  ∀ x ∈ v.vertices, Settled tcx v x ∨ ReflTransGen v.edges.Rel x id

theorem OnTheWay.later (h : OnTheWay tcx v id)
    (hv : Advances tcx root v v') : OnTheWay tcx v' id := by
  intro x hx
  have hl := hv.records.goes.2
  rcases hv.records.settled x hx with hx | hx
  · exact (h x hx).imp (fun hs => hs.mono hl.vertices hl.edges)
      fun hpath => ReflTransGen.mono hl.edges _ _ hpath
  · exact .inl hx

variable {v : UseDefVisitor}

theorem OnTheWay.touch (h : OnTheWay tcx v id)
    (hg : Good tcx root v) (hid : Reached tcx root id) (hf : Flow tcx id b) :
    OnTheWay tcx (v.touch id b) b := by
  have hl := (goes_touch hg hid hf).2
  intro x hx
  rcases FxHashSet.mem_insert.1 hx with rfl | hx
  · exact .inr .refl
  · refine (h x hx).imp (fun hs => hs.mono hl.vertices hl.edges) fun hpath => ?_
    exact (ReflTransGen.mono hl.edges _ _ hpath).tail (rel_addTo.2 (.inl ⟨rfl, rfl⟩))

/-- What holds of the calls of a run over a body that calls no local function. -/
def Framed (tcx : TyCtxt) (root : DefId) : Invocation → Prop
  | .perform _ _ v => v.argId = none ∧ v.defId = root ∧ v.vertices = ∅ ∧ v.isWrite = ∅
  | .trace _ _ v id | .follow _ _ v id _ =>
    v.defId = root ∧ OnTheWay tcx v id ∧ KindsOfBorrows tcx v
  | .mapAllocation .. => True

theorem AtLocals.kinds (hbody : tcx.bodies.get root = some body) (hlocal : CallsNoLocal tcx body)
    {n : Nat} {v c : UseDefVisitor} (hv : Enters tcx root v) (harg : v.argId = none)
    (hd : v.defId = root) (hw : v.isWrite = ∅) {pre : List (BasicBlockData × BasicBlock)}
    {block : BasicBlockData × BasicBlock} {done : List (Local × PlaceContext × Location)}
    (h : AtLocals ord tcx n v pre block done c) : KindsOfBorrows tcx c := by
  -- A visitor of the root body follows no argument.
  have hskip : ∀ {c c' : UseDefVisitor} {occs : List (Local × PlaceContext × Location)}, c.argId = none →
      occs.foldlM (fun v occ => v.visitLocal (trace ord tcx n) occ.1 occ.2.2) c = .ok c' → c' = c := by
    intro c c' occs hnone hrun
    refine foldlM_keeps (P := fun c' => c' = c) rfl hrun fun occ _ s s' hs hs' => ?_
    rcases visitLocal_cases hs' with rfl | ⟨a, ha, -⟩
    · exact hs
    · rw [hs, hnone] at ha
      cases ha
  obtain ⟨c0, rest, ⟨tm, post, -, hsplit, hrun⟩, -, hlocals⟩ := h
  have hv' := hv.withMap tm
  have hloop := Runs.foldlM_done (A := fun _ => True)
    (I := fun (_ : List (BasicBlockData × BasicBlock)) c =>
      Walks tcx root { v with transactionMap := tm } c ∧ KindsOfBorrows tcx c)
    (f := visitBasicBlockData tcx (trace ord tcx n)) (l := pre) (s := { v with transactionMap := tm })
    ⟨⟨records_refl hv'.good hv'.closed, hv'.sane.extends⟩, fun b w hb => by simp [hw] at hb⟩ ?_
  · obtain ⟨hwalk, hkinds⟩ := hloop.post c0 hrun
    rw [hskip (hwalk.1.goes.2.argId.trans harg) hlocals]
    exact hkinds
  · rintro done ⟨data, bb⟩ rest c1 hpre ⟨hwalk, hkinds⟩
    have hmem : (data, bb) ∈ v.body.basicBlocks.zipIdx := by rw [hsplit, hpre]; simp
    refine ⟨fun _ _ => trivial, fun c2 h => ⟨((visitBlock_walks hv' hwalk hmem).post c2 h).1, ?_⟩⟩
    obtain ⟨c3, hc3, h⟩ := bind_eq_ok.1 h
    rw [hskip (hwalk.1.goes.2.argId.trans harg) hc3] at h
    split at h
    · next term hterm =>
      rcases visitTerminator_cases h with
        ⟨rfl, -⟩ | ⟨func, args, dest, cleanup, l, c4, rfl, hname, hl, ht, rfl⟩
      · exact hkinds
      · have hra := hv'.alloc hwalk hmem hterm hname hl
        exact (trace_marks hbody hlocal n _ _ (ready_alloc hwalk.1.goes.1 hwalk.1.closed hra rfl)
          (sane_visit hwalk.2.sane hra _) (hwalk.1.goes.2.defId.trans hd) hkinds).post c4 ht
    · cases h
      exact hkinds

theorem Invokes.framed (hbody : tcx.bodies.get root = some body)
    (hlocal : CallsNoLocal tcx body) {i j : Invocation} (h : Invokes ord tcx i j)
    (hi : Valid tcx root i) (hf : Framed tcx root i) : Framed tcx root j := by
  have hR : Keeps ord tcx root (Marks tcx root) := keeps_marks hbody hlocal
  cases h with
  | arg hlocals hocc ha =>
    obtain ⟨tm, hw, -⟩ := hlocals.spec hi
    rw [hw.1.goes.2.argId.trans hf.1] at ha
    cases ha
  | @alloc n A v pre block c func args dest cleanup l hlocals hterm hname hl =>
    obtain ⟨tm, hw, hmem, -⟩ := hlocals.spec hi
    obtain ⟨harg, hd, hvert, hwrite⟩ := hf
    have hkinds := hlocals.kinds hbody hlocal hi harg hd hwrite
    refine ⟨hw.1.goes.2.defId.trans hd, fun x hx => ?_, hkinds⟩
    rcases FxHashSet.mem_insert.1 hx with rfl | hx
    · exact .inr .refl
    · rcases hw.1.settled x hx with hx | hx
      · simp [hvert] at hx
      · have hl := later_visit c (c.uniqueId l ⟨block.2, block.1.statements.length⟩ none)
          (some (c.uniqueId l ⟨block.2, block.1.statements.length⟩ none))
        exact .inl (hx.mono hl.vertices hl.edges)
  | loc huse =>
    obtain ⟨-, -, hc, -⟩ := hR.follows hi.1 hi.2 (@Invokes.loc _ _ _ none _ _ _ _ _ huse)
    exact ⟨hc.advances.records.goes.2.defId.trans hf.1, hf.2.1.later hc.advances, hc.borrows hf.1 hf.2.2⟩
  | closure huse hops hpre hcap =>
    obtain ⟨-, -, hc, -⟩ := hR.follows hi.1 hi.2
      (@Invokes.closure _ _ _ none _ _ _ _ _ _ _ _ _ _ _ huse hops hpre hcap)
    exact ⟨hc.advances.records.goes.2.defId.trans hf.1, hf.2.1.later hc.advances, hc.borrows hf.1 hf.2.2⟩
  | read | write | again => trivial
  | function huse hkrate =>
    obtain ⟨-, hs⟩ := hR.atUse hi.1 hi.2 huse (by rintro _ _ _ ⟨⟩; exact hkrate)
    exact absurd hs (hlocal.not_sees hbody (hi.1.defId.trans hf.1))
  | visit =>
    obtain ⟨⟨hready, -⟩, hinside, -⟩ := hi
    exact ⟨hf.1, hf.2.1.touch hready.good hready.reached hinside.flow.1, hf.2.2⟩

/-! ## Entries that are unwrapped -/

/-- The vertex has an entry in `edges`, and every leaf its edges lead to has one in `is_write`. -/
structure Unwraps (v : UseDefVisitor) (b : UniqueId) : Prop where
  edges : (v.edges.get b).isSome
  leaves : ∀ d, ReflTransGen v.edges.Rel b d → v.edges.get d = none → (v.isWrite.get d).isSome

theorem useSet_runs : ∀ (n : Nat) (s : FxHashSet UniqueId),
    (∀ a ∈ s, ∀ d, ReflTransGen v.edges.Rel a d → v.edges.get d = none →
      (v.isWrite.get d).isSome) →
    Runs (· = .outOfFuel) (v.useSet ord n s) fun _ => True
  | 0, _, _ => ⟨fun e he => by cases he; rfl, nofun⟩
  | n + 1, s, h => by
    refine Runs.foldlM trivial fun uses a ha _ => ?_
    have ha : a ∈ s := by simpa using ha
    split
    · next s' hs' =>
      refine Runs.bind (P := fun _ => True) (useSet_runs n s' fun b hb d hbd hd => ?_) fun _ _ => .ok trivial
      exact h a ha d (.head ⟨s', hs', hb⟩ hbd) hd
    · next hnone =>
      obtain ⟨w, hw⟩ := isSome_iff_exists.1 (h a ha a .refl hnone)
      rw [hw]
      exact .ok trivial

/-- No value the vertex flows to comes to a dead end. -/
def NoDeadEnd (tcx : TyCtxt) (b : UniqueId) : Prop :=
  ∀ d, ReflTransGen (Flow tcx) b d → ∃ e, Leads tcx d e

variable {a b : UniqueId}

theorem Good.flow_of_rel (hg : Good tcx root v)
    (hab : v.edges.Rel a b) (hb : Reached tcx root b) : Flow tcx a b := by
  rcases (hg.edges a b hab).1 with hf | ⟨w, hw⟩
  · exact hf
  · exact absurd hw hb.not_borrows

theorem Good.flows_of_rel (hg : Good tcx root v)
    (hab : ReflTransGen v.edges.Rel a b) (hb : Reached tcx root b) :
    ReflTransGen (Flow tcx) a b := by
  induction hab with
  | refl => exact .refl
  | tail _ hbc ih => exact (ih (hg.edges _ _ hbc).2).tail (hg.flow_of_rel hbc hb)

/-- When no value flows in a cycle, a visited vertex the value comes to is traced, and so are those it
flows to. -/
theorem OnTheWay.traced (h : OnTheWay tcx v id)
    (hready : Ready tcx root v id) (hc : NoCycle tcx root) (hf : Flow tcx id b)
    (hmem : b ∈ v.vertices) {d : UniqueId} (hd : ReflTransGen (Flow tcx) b d) :
    Traced tcx v d ∧ Reached tcx root d ∧ ReflTransGen v.edges.Rel b d := by
  have hsettled : ∀ x ∈ v.vertices, Reached tcx root x → ReflTransGen (Flow tcx) b x →
      Traced tcx v x := by
    intro x hx hrx hbx
    rcases h x hx with (ht | ⟨a, w, hb⟩) | hpath
    · exact ht
    · exact absurd hb hrx.not_borrows
    · refine absurd ?_ (hc id hready.reached)
      exact TransGen.head' hf (hbx.trans (hready.good.flows_of_rel hpath hready.reached))
  induction hd with
  | refl =>
    have hrb := hready.reached.flow hf
    exact ⟨hsettled b hmem hrb .refl, hrb, .refl⟩
  | tail hbx hxy ih =>
    obtain ⟨ht, hrx, hpath⟩ := ih
    have hedge := ht.recorded _ (.inl hxy)
    have hry := hrx.flow hxy
    exact ⟨hsettled _ (hready.closed _ _ hedge).2 hry (hbx.tail hxy), hry, hpath.tail hedge⟩

/-- In the analysis of a body that calls no local function and in which no value flows in a cycle,
whenever a visited vertex is come to, the entries that are unwrapped are there exactly when no value
the vertex flows to comes to a dead end. -/
theorem unwraps_iff_noDeadEnd {body : Body} (hbody : tcx.bodies.get root = some body)
    (hlocal : CallsNoLocal tcx body) (hc : NoCycle tcx root) {v₀ : UseDefVisitor}
    (hv₀ : UseDefVisitor.new body root tcx = .ok v₀) {n k : Nat} {A : Option UniqueId}
    {v : UseDefVisitor} {id b : UniqueId}
    (hrun : ReflTransGen (Invokes ord tcx) (.perform n none v₀) (.follow k A v id b))
    (hmem : b ∈ v.vertices) : (Unwraps (v.connect id b) b ↔ NoDeadEnd tcx b) ∧
      (Unwraps (v.connect id b) b → ∀ m s, (v.connect id b).edges.get b = some s →
        ∀ msg, (v.connect id b).useSet ord m s ≠ .error (.panic msg)) := by
  have hstart : Framed tcx root (.perform n none v₀) := by
    obtain ⟨-, hd, harg, -⟩ := good_new hbody hv₀
    obtain ⟨analysis, -, hv₀⟩ := bind_eq_ok.1 hv₀
    cases hv₀
    exact ⟨harg, hd, rfl, rfl⟩
  obtain ⟨⟨hready, hsane⟩, hinside, -⟩ := reached_valid hrun (enters_new hbody hv₀)
  obtain ⟨-, hway, hkinds⟩ := run_inv hrun (enters_new hbody hv₀) hstart
    fun j k _ hvalid hf hjk => hjk.framed hbody hlocal hvalid hf
  have hf := hinside.flow.1
  have hg := (goes_connect hready.good (.inl hf) hready.reached).1
  have hmono := (later_connect v id b).edges
  have htraced : ∀ {d}, ReflTransGen (Flow tcx) b d →
      Traced tcx v d ∧ Reached tcx root d ∧ ReflTransGen v.edges.Rel b d :=
    fun hd => hway.traced hready hc hf hmem hd
  refine ⟨⟨fun h d hd => ?_, fun h => ⟨?_, fun d hd hnone => ?_⟩⟩, fun h m s hs msg he => ?_⟩
  · by_contra hdead
    obtain ⟨-, hrd, hpath⟩ := htraced hd
    have hnone : (v.connect id b).edges.get d = none :=
      (sane_connect hsane id b).filled.get_eq_none fun x hx => hdead ⟨x, (hg.edges d x hx).1⟩
    obtain ⟨w, hw⟩ := isSome_iff_exists.1
      (h.leaves d (ReflTransGen.mono hmono _ _ hpath) hnone)
    obtain ⟨a, ha⟩ := hkinds d w hw
    exact hrd.not_borrows ha
  · obtain ⟨e, he⟩ := h b .refl
    obtain ⟨s, hs, -⟩ := hmono _ _ ((htraced .refl).1.recorded e he)
    rw [hs]
    rfl
  · -- A leaf the value does not flow to is a borrow.
    rcases ReflTransGen.cases_tail hd with heq | ⟨x, hbx, hxd⟩
    · rw [heq] at hnone
      obtain ⟨e, he⟩ := h b .refl
      obtain ⟨s, hs, -⟩ := hmono _ _ ((htraced .refl).1.recorded e he)
      rw [hnone] at hs
      cases hs
    · obtain ⟨hlead, hrx⟩ := hg.edges x d hxd
      have hbx := hg.flows_of_rel hbx hrx
      rcases hlead with hflow | ⟨w, hw⟩
      · obtain ⟨e, he⟩ := h d (hbx.tail hflow)
        obtain ⟨s, hs, -⟩ := hmono _ _ ((htraced (hbx.tail hflow)).1.recorded e he)
        rw [hnone] at hs
        cases hs
      · have hrec := (htraced hbx).1.recorded d (.inr ⟨w, hw⟩)
        have := hsane.writes x d w hw (hready.closed _ _ hrec).2
        rw [connect, this]
        rfl
  · have hruns := @useSet_runs ord (v.connect id b) m s fun a ha d had hd =>
      h.leaves d (.head ⟨s, hs, ha⟩ had) hd
    cases hruns.halts _ he

end

end UseDefVisitor

/-! ## A cycle, and a dead end -/

namespace Sample

open UseDefVisitor

/-- `let p = TxPtr::new(..); let mut q = &p; q = &*q;`. -/
def reborrowsItself : Body :=
  body [block [] (call txPtrNew [] 1 1), block [refOf 2 1, reborrow 2 2] .ret] 3 0

/-- `let p = TxPtr::new(..); let q = TxPtr::new(..); let mut r = &p; r = &q; let s = r;`, and a last
call. -/
def joins (last : Terminator) : Body :=
  body [block [] (call txPtrNew [] 1 1), block [] (call txPtrNew [] 2 2),
    block [refOf 3 1, refOf 3 2, .assign (.ofLocal 4) (.use (copied 3))] last, block [] .ret] 6 0

/-- `s` is not used. -/
def deadCopy : Body := joins (.goto 3)

/-- `s.borrow()`. -/
def borrowedCopy : Body := joins (call txPtrBorrow [copied 4] 5 3)

theorem callsNoLocal_of_terminators {bodies : List Body} {body : Body}
    (h : ∀ data ∈ body.basicBlocks, ∀ func ∈ (match data.terminator with
      | some (.call func _ _ _) => some func
      | _ => none), isForeign func) : CallsNoLocal (crate bodies) body :=
  callsNoLocal_of_isForeign fun data hdata func args dest cleanup hterm =>
    h data hdata func (by rw [hterm]; rfl)

theorem ofMain_allocates {main : Body} {an : DefUseAnalysis} {blocks : List (BasicBlockData × BasicBlock)}
    (hblocks : main.basicBlocks.zipIdx = (block [] (call txPtrNew [] 1 1), 0) :: blocks)
    {tm : TransactionMap} (htm : (TransactionMap.new ⟨0, 0⟩ main langItems).perform .entries = .ok tm)
    (n : Nat) :
    Invokes .entries (crate [main]) (.perform n none (ofMain main an))
      (.trace n (some allocated)
        { ofMain main an with
          transactionMap := tm
          currentAllocation := some allocated
          vertices := (∅ : FxHashSet UniqueId).insert allocated } allocated) := by
  exact @Invokes.alloc .entries (crate [main]) n none (ofMain main an) []
    (block [] (call txPtrNew [] 1 1), 0) { ofMain main an with transactionMap := tm }
    (.constant (.zeroSized (.fnDef txPtrNew []))) [] (some (.ofLocal 1, 1)) none 1
    ⟨_, [], ⟨tm, _, htm, hblocks, rfl⟩, rfl, rfl⟩ rfl isAllocation_new rfl

theorem useSet_self {v : UseDefVisitor} {b : UniqueId} {s : FxHashSet UniqueId}
    (hs : v.edges.get b = some s) (hb : IterOrder.entries.order s.toList = [b]) :
    ∀ m, v.useSet .entries m s = .error .outOfFuel
  | 0 => rfl
  | m + 1 => by
    rw [useSet, hb, foldlM_cons, hs]
    simp only
    rw [useSet_self hs hb m, error_bind, error_bind]

/-- The value of `q` flows to itself: following its edges never ends. -/
theorem useSet_diverges : CallsNoLocal (crate [reborrowsItself]) reborrowsItself ∧
    ∃ n k A v₀ v id b s, UseDefVisitor.new reborrowsItself ⟨0, 0⟩ (crate [reborrowsItself]) = .ok v₀ ∧
      ReflTransGen (Invokes .entries (crate [reborrowsItself])) (.perform n none v₀)
        (.follow k A v id b) ∧ b ∈ v.vertices ∧ (v.connect id b).edges.get b = some s ∧
      ∀ m, ¬ Ends ((v.connect id b).useSet .entries m s) := by
  refine ⟨callsNoLocal_of_terminators (by decide), ?_⟩
  let tcx := crate [reborrowsItself]
  let q0 : UniqueId := ⟨⟨0, 0⟩, 2, ⟨1, 0⟩, none⟩
  let q : UniqueId := ⟨⟨0, 0⟩, 2, ⟨1, 1⟩, none⟩
  obtain ⟨an, han⟩ : ∃ a, analyze reborrowsItself = .ok a := ⟨_, rfl⟩
  have hmain : tcx.bodies.get ⟨0, 0⟩ = some reborrowsItself := rfl
  have hv0 := @new_eq tcx rfl _ _ han
  have henters := enters_new hmain hv0
  have halloc := @ofMain_allocates reborrowsItself an _ rfl
    (TransactionMap.new ⟨0, 0⟩ reborrowsItself langItems) rfl 3
  let v := { ofMain reborrowsItself an with
    currentAllocation := some allocated
    vertices := (∅ : FxHashSet UniqueId).insert allocated }
  have hq0 : q0 ∉ (∅ : FxHashSet UniqueId).insert allocated := by decide
  have hflow0 := @traces_first .entries tcx _ 2 (some allocated) v allocated (halloc.valid henters).1
    _ hmain (show 1 < 3 by decide) _ _ rfl 2 rfl hq0
  have hrun0 := (ReflTransGen.single halloc).trans hflow0
  have hq : q ∉ ((∅ : FxHashSet UniqueId).insert allocated).insert q0 := by decide
  have hflow := @traces_first .entries tcx _ 1 (some allocated) (v.touch allocated q0) q0
    (reached_valid hrun0 henters).1 _ hmain (show 2 < 3 by decide) _ _ rfl 2 rfl hq
  have hrun := hrun0.trans hflow
  have huse := @AtUse.first .entries tcx _ 0 ((v.touch allocated q0).touch q0 q) q
    (reached_valid hrun henters).1 _ hmain (show 2 < 3 by decide) ⟨.nonMutatingUse .projection, ⟨1, 1⟩⟩ []
    rfl (.loc 2) rfl
  have hfollow := @Invokes.loc .entries tcx 0 (some allocated) _ _ _ _ _ huse
  exact ⟨3, 0, _, _, _, q, q, _, hv0, hrun.tail hfollow, by simp [touch], rfl,
    fun m hm => hm (useSet_self rfl rfl m)⟩

/-- `r` at its second assignment, and `s`. -/
def joined : UniqueId := ⟨⟨0, 0⟩, 3, ⟨2, 1⟩, none⟩
def copyOfJoined : UniqueId := ⟨⟨0, 0⟩, 4, ⟨2, 2⟩, none⟩

/-- The analysis of the body, up to the allocation of `q`. -/
def beforeSecond (main : Body) : Outcome UseDefVisitor :=
  analyze main >>= fun an =>
    (TransactionMap.new ⟨0, 0⟩ main langItems).perform .entries >>= fun tm =>
      [(block [] (call txPtrNew [] 1 1), 0)].foldlM
        (visitBasicBlockData (crate [main]) (trace .entries (crate [main]) 3))
        { ofMain main an with transactionMap := tm }

theorem joins_follows {last : Terminator} {c : UseDefVisitor} (hc : beforeSecond (joins last) = .ok c)
    (hwrite : nonmutatingUses (joins last) 2 = [⟨.nonMutatingUse .sharedBorrow, ⟨2, 1⟩⟩])
    (hcopy : nonmutatingUses (joins last) 3 = [⟨.nonMutatingUse .copy, ⟨2, 2⟩⟩])
    (hnot : joined ∉ c.vertices) (hmem : copyOfJoined ∈ c.vertices) :
    ∃ v0 v A, UseDefVisitor.new (joins last) ⟨0, 0⟩ (crate [joins last]) = .ok v0 ∧
      ReflTransGen (Invokes .entries (crate [joins last])) (.perform 3 none v0)
        (.follow 1 A v joined copyOfJoined) ∧ copyOfJoined ∈ v.vertices ∧
      v.edges = c.edges.addTo ⟨⟨0, 0⟩, 2, ⟨1, 0⟩, none⟩ joined := by
  obtain ⟨an, han, hc⟩ := bind_eq_ok.1 hc
  obtain ⟨tm, htm, hc⟩ := bind_eq_ok.1 hc
  let tcx := crate [joins last]
  let b1 := block [] (call txPtrNew [] 2 2)
  have hmain : tcx.bodies.get ⟨0, 0⟩ = some (joins last) := rfl
  have hv0 := @new_eq tcx rfl _ _ han
  have henters := enters_new hmain hv0
  have hat : AtLocals .entries tcx 3 (ofMain (joins last) an) [(block [] (call txPtrNew [] 1 1), 0)]
      (b1, 1) [] c :=
    ⟨c, [], ⟨tm, _, htm, rfl, hc⟩, rfl, rfl⟩
  have hd : c.defId = ⟨0, 0⟩ := by
    obtain ⟨_, hw, -⟩ := hat.spec henters
    exact hw.1.goes.2.defId
  have halloc := @Invokes.alloc .entries tcx 3 none (ofMain (joins last) an) _ (b1, 1) c
    (.constant (.zeroSized (.fnDef txPtrNew []))) [] (some (.ofLocal 2, 2)) none 2 hat rfl
    isAllocation_new rfl
  simp only [uniqueId, hd] at halloc
  have hnew : joined ∉ c.vertices.insert ⟨⟨0, 0⟩, 2, ⟨1, 0⟩, none⟩ := by
    have hne : joined ≠ ⟨⟨0, 0⟩, 2, ⟨1, 0⟩, none⟩ := by decide
    simp [hne, hnot]
  have hflow := @traces_first .entries tcx _ 2 (some ⟨⟨0, 0⟩, 2, ⟨1, 0⟩, none⟩) _ _
    (halloc.valid henters).1 _ hmain (show 2 < 6 by decide) _ _ hwrite 3 rfl hnew
  have hrun := (ReflTransGen.single halloc).trans hflow
  have huse := @AtUse.first .entries tcx _ 1 _ _ (reached_valid hrun henters).1 _ hmain
    (show 3 < 6 by decide) _ _ hcopy (.loc 4) rfl
  have hfollow := @Invokes.loc .entries tcx 1 (some ⟨⟨0, 0⟩, 2, ⟨1, 0⟩, none⟩) _ _ _ _ _ huse
  refine ⟨_, _, _, hv0, hrun.tail hfollow, ?_, rfl⟩
  simp [touch, hmem]

theorem noCycle_borrowedCopy : NoCycle (crate [borrowedCopy]) ⟨0, 0⟩ :=
  have hsorted : Sorted (crate [borrowedCopy]) ⟨0, 0⟩ [allocated, ⟨⟨0, 0⟩, 2, ⟨1, 0⟩, none⟩,
      ⟨⟨0, 0⟩, 3, ⟨2, 0⟩, none⟩, joined, copyOfJoined] := by
    with_unfolding_all decide
  hsorted.noFlowCycle.flow

/-- `s` is borrowed: its edges and the kind of the borrow are there. -/
theorem unwraps_borrowedCopy :
    ∃ n k A v₀ v id b, UseDefVisitor.new borrowedCopy ⟨0, 0⟩ (crate [borrowedCopy]) = .ok v₀ ∧
      ReflTransGen (Invokes .entries (crate [borrowedCopy])) (.perform n none v₀)
        (.follow k A v id b) ∧
      b ∈ v.vertices ∧ ((Unwraps (v.connect id b) b ↔ NoDeadEnd (crate [borrowedCopy]) b) ∧
        (Unwraps (v.connect id b) b → ∀ m s, (v.connect id b).edges.get b = some s →
          ∀ msg, (v.connect id b).useSet .entries m s ≠ .error (.panic msg))) := by
  have hrun : (beforeSecond borrowedCopy).map (fun c => (decide (joined ∈ c.vertices),
      decide (copyOfJoined ∈ c.vertices))) = .ok (false, true) := by
    with_unfolding_all decide
  obtain ⟨c, hc, hcheck⟩ := ok_of_map hrun
  obtain ⟨hnot, hmem⟩ := Prod.mk.inj hcheck
  have hlocal : CallsNoLocal (crate [borrowedCopy]) borrowedCopy :=
    callsNoLocal_of_terminators (by decide)
  obtain ⟨v₀, v, A, hv0, hrun, hvisited, -⟩ := joins_follows hc rfl rfl (of_decide_eq_false hnot)
    (of_decide_eq_true hmem)
  exact ⟨3, 1, A, v₀, v, joined, copyOfJoined, hv0, hrun, hvisited,
    unwraps_iff_noDeadEnd rfl hlocal noCycle_borrowedCopy hv0 hrun hvisited⟩

/-- Following the edges of a visited vertex ends. -/
theorem useSet_terminates_borrowedCopy :
    ∃ v₀, UseDefVisitor.new borrowedCopy ⟨0, 0⟩ (crate [borrowedCopy]) = .ok v₀ ∧
      NoCycle (crate [borrowedCopy]) ⟨0, 0⟩ ∧ ∃ N, ∀ m ≥ N, ∀ n k A v id b s,
        ReflTransGen (Invokes .entries (crate [borrowedCopy])) (.perform n none v₀)
          (.follow k A v id b) → b ∈ v.vertices → (v.connect id b).edges.get b = some s →
        Ends ((v.connect id b).useSet .entries m s) := by
  obtain ⟨an, han⟩ : ∃ a, analyze borrowedCopy = .ok a := ⟨_, rfl⟩
  have hv0 := @new_eq (crate [borrowedCopy]) rfl _ _ han
  exact ⟨_, hv0, noCycle_borrowedCopy, useSet_terminates rfl hv0 noCycle_borrowedCopy⟩

/-- Nothing is done with `s`: it has no edges. -/
theorem unwraps_misses_deadCopy :
    CallsNoLocal (crate [deadCopy]) deadCopy ∧ NoCycle (crate [deadCopy]) ⟨0, 0⟩ ∧
    ∃ n k A v₀ v id b, UseDefVisitor.new deadCopy ⟨0, 0⟩ (crate [deadCopy]) = .ok v₀ ∧
      ReflTransGen (Invokes .entries (crate [deadCopy])) (.perform n none v₀)
        (.follow k A v id b) ∧ b ∈ v.vertices ∧ ¬ Unwraps (v.connect id b) b := by
  have hrun : (beforeSecond deadCopy).map (fun c => (decide (joined ∈ c.vertices),
      decide (copyOfJoined ∈ c.vertices), c.edges.get copyOfJoined)) = .ok (false, true, none) := by
    with_unfolding_all decide
  obtain ⟨c, hc, hcheck⟩ := ok_of_map hrun
  obtain ⟨hnot, hcheck⟩ := Prod.mk.inj hcheck
  obtain ⟨hmem, hnone⟩ := Prod.mk.inj hcheck
  have hsorted : Sorted (crate [deadCopy]) ⟨0, 0⟩ [allocated, ⟨⟨0, 0⟩, 2, ⟨1, 0⟩, none⟩,
      ⟨⟨0, 0⟩, 3, ⟨2, 0⟩, none⟩, joined, copyOfJoined] := by
    with_unfolding_all decide
  refine ⟨callsNoLocal_of_terminators (by decide), hsorted.noFlowCycle.flow, ?_⟩
  obtain ⟨v₀, v, A, hv0, hrun, hvisited, hedges⟩ := joins_follows hc rfl rfl (of_decide_eq_false hnot)
    (of_decide_eq_true hmem)
  refine ⟨3, 1, A, v₀, v, joined, copyOfJoined, hv0, hrun, hvisited, fun h => ?_⟩
  have hget : (v.connect joined copyOfJoined).edges.get copyOfJoined = none := by
    have hne : copyOfJoined ≠ joined ∧ copyOfJoined ≠ ⟨⟨0, 0⟩, 2, ⟨1, 0⟩, none⟩ := by decide
    rw [connect, hedges, addTo, get_entryOr, if_neg hne.1, addTo, get_entryOr, if_neg hne.2]
    exact hnone
  have hsome := h.edges
  rw [hget] at hsome
  cases hsome

end Sample

end Tortis
