import Tortis.Lib.Fuel
import Tortis.Transaction.Flow

/-!
# Rules for the use-def analysis

The recursion of `trace` is open in the model, so one walk through its code serves every result
about it. `traceUses_runs` is the rule for the loop over the uses of a vertex, `performWith_runs`
the rule for the walk over a body, and `enterFunction_runs` the rule for a call.
-/

namespace Tortis

open List Outcome DefUseAnalysis Runs Option BasicBlockData

namespace UseDefVisitor

/-! ## States of a visitor -/

/-- A later state of the same visitor. -/
structure Later (v v' : UseDefVisitor) : Prop where
  body : v'.body = v.body
  defId : v'.defId = v.defId
  analysis : v'.analysis = v.analysis
  argId : v'.argId = v.argId
  argIndex : v'.argIndex = v.argIndex
  vertices : ∀ id ∈ v.vertices, id ∈ v'.vertices
  edges : ∀ a b, v.edges.Rel a b → v'.edges.Rel a b

section
variable (v : UseDefVisitor)

theorem Later.refl : Later v v :=
  ⟨rfl, rfl, rfl, rfl, rfl, fun _ => id, fun _ _ => id⟩

theorem Later.trans {v1 v2 v3 : UseDefVisitor} (h : Later v1 v2) (h' : Later v2 v3) : Later v1 v3 :=
  ⟨h'.body.trans h.body, h'.defId.trans h.defId, h'.analysis.trans h.analysis,
    h'.argId.trans h.argId, h'.argIndex.trans h.argIndex,
    fun id hid => h'.vertices id (h.vertices id hid), fun a b hab => h'.edges a b (h.edges a b hab)⟩

variable {v} in
theorem Later.of_transactionMap {tm : TransactionMap} {v' : UseDefVisitor}
    (h : Later { v with transactionMap := tm } v') : Later v v' :=
  ⟨h.body, h.defId, h.analysis, h.argId, h.argIndex, h.vertices, h.edges⟩

@[simp] theorem connect_vertices (a b : UniqueId) : (v.connect a b).vertices = v.vertices := rfl

theorem later_connect (a b : UniqueId) : Later v (v.connect a b) :=
  ⟨rfl, rfl, rfl, rfl, rfl, fun _ => id, fun _ _ h => FxHashMap.rel_addTo.2 (.inr h)⟩

theorem later_visit (id : UniqueId) (alloc : Option UniqueId) :
    Later v { v with currentAllocation := alloc, vertices := v.vertices.insert id } :=
  ⟨rfl, rfl, rfl, rfl, rfl, fun x hx => by simp [hx], fun _ _ h => h⟩

end

section
variable {v v' : UseDefVisitor} {b : UniqueId} (h : v.mapAllocation b = .ok v')
include h

theorem mapAllocation_cases :
    v' = v ∨ ∃ t use, v' = { v with allocationSet := v.allocationSet.addTo t use } := by
  unfold mapAllocation at h
  split at h
  · obtain ⟨a, -, h⟩ := bind_eq_ok.1 h
    obtain ⟨w, -, h⟩ := bind_eq_ok.1 h
    cases h
    exact .inr ⟨_, _, rfl⟩
  · cases h
    exact .inl rfl

theorem later_mapAllocation : Later v v' := by
  obtain rfl | ⟨t, use, rfl⟩ := mapAllocation_cases h
  · exact .refl _
  · exact ⟨rfl, rfl, rfl, rfl, rfl, fun _ => id, fun _ _ => id⟩

end

theorem later_merge (ord : IterOrder) (v child : UseDefVisitor) : Later v (v.merge ord child) :=
  ⟨rfl, rfl, rfl, rfl, rfl, fun _ h => FxHashSet.mem_extend.2 (.inl h),
    fun _ _ h => FxHashMap.rel_extendAll.2 (.inl h)⟩

/-- The ways in which the analysis comes to a vertex. -/
inductive Via where
  /-- The value flows to it inside a body. -/
  | flow
  /-- It is a borrow of the value. -/
  | borrow
  /-- It is an occurrence of the argument of a called function. -/
  | arg
  /-- It is an allocation of a called function. -/
  | alloc

/-- A relation in which the states of a visitor progress. -/
structure Progress (R : UseDefVisitor → UseDefVisitor → Prop) : Prop where
  later : ∀ {v v'}, R v v' → Later v v'
  refl : ∀ {v v'}, R v v' → R v' v'
  trans : ∀ {v₁ v₂ v₃}, R v₁ v₂ → R v₂ v₃ → R v₁ v₃

/-- The property of vertices is kept as the states progress. -/
def Kept (R : UseDefVisitor → UseDefVisitor → Prop) (U : Via → UniqueId → UseDefVisitor → Prop) :
    Prop :=
  ∀ via b v v', R v v' → U via b v → U via b v'

/-! ## The loop over the uses of a vertex -/

section
variable (tcx : TyCtxt)

/-- The vertices a called function traces. -/
def Entered (id : UniqueId) (fn : DefId) (argIndex : Nat) (via : Via) (b : UniqueId) : Prop :=
  (via = .arg ∧ IsArgOf tcx fn (followedArg id argIndex) id.field b) ∨
    (via = .alloc ∧ IsAllocOf tcx fn b)

/-- The vertices a use leads to. -/
def Targets (id : UniqueId) (loc : Location) (via : Via) (b : UniqueId) :
    UseKind → Prop
  | .loc l => via = .flow ∧ b = ⟨id.defId, l, loc, none⟩
  | .read l | .write l => via = .borrow ∧ b = ⟨id.defId, l, loc, none⟩
  | .closureArg l ops => via = .flow ∧
    ∃ op ∈ ops.zipIdx, Captures id op.1 ∧ b = ⟨id.defId, l, loc, some op.2⟩
  | .function _ fn i => Entered tcx id fn i via b

/-- The vertices a vertex leads to by its use at the location. -/
def Comes (id : UniqueId) (loc : Location) (via : Via) (b : UniqueId) : Prop :=
  ∃ kind, Sees tcx id loc kind ∧ Targets tcx id loc via b kind

/-- The value of a vertex flows to another one inside the body. -/
def Inside (a b : UniqueId) : Prop := Comes tcx a b.location .flow b

end

variable {tcx : TyCtxt}

theorem Inside.flow {a b : UniqueId} (h : Inside tcx a b) : Flow tcx a b ∧ b.defId = a.defId := by
  obtain ⟨kind, hs, ht⟩ := h
  cases kind with
  | loc l =>
    have hb := ht.2
    rw [hb]
    exact ⟨.loc hs, rfl⟩
  | closureArg l ops =>
    obtain ⟨-, op, hop, hcap, hb⟩ := ht
    rw [hb]
    exact ⟨.closure hs hop hcap, rfl⟩
  | read l => cases ht.1
  | write l => cases ht.1
  | function l fn i => rcases ht with ⟨h, -⟩ | ⟨h, -⟩ <;> cases h

theorem inside_closure {id : UniqueId} {loc : Location} {l : Local}
    {ops : List Operand} (hs : Sees tcx id loc (.closureArg l ops)) {op : Operand × Nat}
    (hop : op ∈ ops.zipIdx) (hcap : Captures id op.1) :
    Inside tcx id ⟨id.defId, l, loc, some op.2⟩ :=
  ⟨.closureArg l ops, hs, rfl, op, hop, hcap, rfl⟩

variable {id b : UniqueId}

theorem comes_of_flow (h : Flow tcx id b) :
    Comes tcx id b.location .flow b ∨ ∃ loc, Comes tcx id loc .arg b := by
  cases h with
  | loc hs => exact .inl ⟨_, hs, rfl, rfl⟩
  | closure hs hop hcap => exact .inl ⟨_, hs, rfl, _, hop, hcap, rfl⟩
  | arg hs harg => exact .inr ⟨_, _, hs, .inl ⟨rfl, harg⟩⟩

theorem comes_of_borrows {w : Bool} (h : Borrows tcx id b w) :
    Comes tcx id b.location .borrow b := by
  cases h with
  | read hs => exact ⟨_, hs, rfl, rfl⟩
  | write hs => exact ⟨_, hs, rfl, rfl⟩

theorem comes_of_retraced (h : Retraced tcx id b) :
    ∃ loc, Comes tcx id loc .arg b ∨ Comes tcx id loc .alloc b := by
  cases h with
  | arg hs harg => exact ⟨_, .inl ⟨_, hs, .inl ⟨rfl, harg⟩⟩⟩
  | alloc hs halloc => exact ⟨_, .inr ⟨_, hs, .inr ⟨rfl, halloc⟩⟩⟩

section
variable {ord : IterOrder} {tcx : TyCtxt} {A : Halt → Prop} {t : Tracer} {n : Nat}
  {R : UseDefVisitor → UseDefVisitor → Prop} {U : Location → Via → UniqueId → UseDefVisitor → Prop}
  {id : UniqueId} {v₀ : UseDefVisitor}

/-- What is to be shown of following a flow of the vertex. -/
def Follows (ord : IterOrder) (tcx : TyCtxt) (A : Halt → Prop) (t : Tracer) (n : Nat)
    (R : UseDefVisitor → UseDefVisitor → Prop)
    (U : Location → Via → UniqueId → UseDefVisitor → Prop) (v₀ : UseDefVisitor) (id : UniqueId) :
    Prop :=
  ∀ v b, R v₀ v → Inside tcx id b → b.defId = v.defId →
    Runs A (v.follow ord t n id b) fun v' => R v v' ∧ U b.location .flow b v'

theorem closureOperand_runs (hR : Progress R) (hd : id.defId = v₀.defId)
    (hfollow : Follows ord tcx A t n R U v₀ id) {v : UseDefVisitor} (hv : R v₀ v) {l : Local}
    {loc : Location} {ops : List Operand} (hs : Sees tcx id loc (.closureArg l ops))
    {op : Operand × Nat} (hop : op ∈ ops.zipIdx) :
    Runs A (v.closureOperand ord t n id l loc op)
      fun v' => R v v' ∧ (Captures id op.1 → U loc .flow ⟨id.defId, l, loc, some op.2⟩ v') := by
  have hid : ∀ v, R v₀ v → v.defId = id.defId := fun v hv => by rw [(hR.later hv).defId, hd]
  have hnew : v.uniqueId l loc (some op.2) = ⟨id.defId, l, loc, some op.2⟩ := by
    rw [uniqueId, hid v hv]
  have hself : ¬ Captures id op.1 →
      Runs A (.ok v) fun v' => R v v' ∧ (Captures id op.1 → U loc .flow ⟨id.defId, l, loc, some op.2⟩ v') :=
    fun h => .ok ⟨hR.refl hv, fun h' => absurd h' h⟩
  unfold closureOperand
  simp only [hnew]
  split
  · next opLocal hlocal =>
    split
    · next heq =>
      have hcap : Captures id op.1 := .inl (by rw [hlocal, heq])
      exact (hfollow v _ hv (inside_closure hs hop hcap) (hid v hv).symm).mono fun v' h =>
        ⟨h.1, fun _ => h.2⟩
    · next hne =>
      refine hself ?_
      rintro (h | ⟨field, projection, -, hplace, hmem⟩)
      · rw [hlocal] at h
        exact hne (some.inj h)
      · -- A place with a field in its path is no local.
        rw [hplace, getLocal] at hlocal
        unfold Place.localOrDerefLocal at hlocal
        split at hlocal
        · next heq =>
          cases heq
          cases hmem
        · next heq =>
          cases heq
          simp at hmem
        · cases hlocal
  · next useField opLocal projection hlocal hfield hplace =>
    split
    · next heq =>
      refine (foldlM_done (A := A)
        (I := fun pre v' => R v v' ∧ (.field useField ∈ pre → U loc .flow ⟨id.defId, l, loc, some op.2⟩ v'))
        ⟨hR.refl hv, (by intros; contradiction)⟩ ?_).mono fun v' h => ⟨h.1, ?_⟩
      rotate_left
      · rintro (h' | ⟨field, projection', hfield', hplace', hmem⟩)
        · rw [hlocal] at h'
          cases h'
        · rw [hfield] at hfield'
          rw [hplace] at hplace'
          cases hfield'
          cases hplace'
          exact h.2 hmem
      · intro pre elem post v' hsplit hI
        have hv' := hR.trans hv hI.1
        have hskip : elem ≠ .field useField → Runs A (.ok v') fun v'' => R v v'' ∧
            (.field useField ∈ pre ++ [elem] → U loc .flow ⟨id.defId, l, loc, some op.2⟩ v'') := by
          intro hne
          refine .ok ⟨hI.1, fun hmem => hI.2 ?_⟩
          simpa [hne.symm] using hmem
        split
        · next field =>
          split
          · next hf =>
            have hcap : Captures id op.1 :=
              .inr ⟨useField, projection, hfield, by rw [hplace, heq], by rw [hsplit, ← hf]; simp⟩
            exact (hfollow v' _ hv' (inside_closure hs hop hcap) (hid v' hv').symm).mono fun v'' h =>
              ⟨hR.trans hI.1 h.1, fun _ => h.2⟩
          · next hne => exact hskip fun h => hne (ProjectionElem.field.inj h)
        · next hne => exact hskip fun h => hne _ h
    · next hne =>
      refine hself ?_
      rintro (h | ⟨field, projection', -, hplace', -⟩)
      · rw [hlocal] at h
        cases h
      · rw [hplace] at hplace'
        cases hplace'
        exact hne rfl
  · next hlocal hother =>
    refine hself ?_
    rintro (h | ⟨field, projection, hfield, hplace, -⟩)
    · rw [hlocal] at h
      cases h
    · exact hother field _ projection hfield hplace

theorem traceUses_runs (hR : Progress R) (hU : ∀ loc, Kept R (U loc)) (hd : id.defId = v₀.defId)
    (hfollow : Follows ord tcx A t n R U v₀ id)
    (hborrow : ∀ v b w, R v₀ v → Borrows tcx id b w → b.defId = v.defId →
      Runs A (v.borrow id b w) fun v' => R v v' ∧ U b.location .borrow b v')
    (henter : ∀ v loc l fn i, R v₀ v → Sees tcx id loc (.function l fn i) →
      Runs A (v.enterFunction ord tcx t id loc l fn i)
        fun v' => R v v' ∧ ∀ via b, Entered tcx id fn i via b → U loc via b v') :
    ∀ (uses : List Use) (v : UseDefVisitor), R v₀ v →
      (∀ use ∈ uses, ∀ e, locationToUseKind tcx use.location id v₀.body = .error e → A e) →
      (∀ e ∈ visibleUses tcx v₀.body id uses, Sees tcx id e.1 e.2) →
      Runs A (traceUses ord tcx t n id uses v) fun v' => R v v' ∧
        (∀ e ∈ visibleUses tcx v₀.body id uses, ∀ via b, Targets tcx id e.1 via b e.2 →
          U e.1 via b v') ∧ Scanned tcx v₀.body id uses
  | [], v, hv, _, _ => .ok ⟨hR.refl hv, (by intros; contradiction), trivial⟩
  | use :: uses, v, hv, herr, hsees => by
    have hnew : ∀ l, v.uniqueId l use.location none = ⟨id.defId, l, use.location, none⟩ := fun l => by
      rw [uniqueId, (hR.later hv).defId, hd]
    -- The rest of the loop, after the first use is dealt with.
    have rest : ∀ kind : Option UseKind, (∀ e ∈ visibleUses tcx v₀.body id uses, Sees tcx id e.1 e.2) →
        ∀ v', R v v' → (∀ k ∈ kind, ∀ via b, Targets tcx id use.location via b k →
          U use.location via b v') →
        Runs A (traceUses ord tcx t n id uses v') fun v'' => R v v'' ∧
          (∀ e ∈ (kind.map (use.location, ·)).toList ++ visibleUses tcx v₀.body id uses,
            ∀ via b, Targets tcx id e.1 via b e.2 → U e.1 via b v'') ∧
          Scanned tcx v₀.body id uses := by
      intro kind hsees v' hv' hkind
      refine (traceUses_runs hR hU hd hfollow hborrow henter uses v' (hR.trans hv hv')
        (fun use h => herr use (.tail _ h)) hsees).mono fun v'' h => ⟨hR.trans hv' h.1, ?_, h.2.2⟩
      intro e he via b hb
      rcases mem_append.1 he with he | he
      · obtain ⟨k, hk, rfl⟩ : ∃ k, k ∈ kind ∧ (use.location, k) = e := by simpa using he
        exact hU _ _ _ _ _ h.1 (hkind k hk via b hb)
      · exact h.2.1 e he via b hb
    unfold traceUses
    rw [(hR.later hv).body]
    cases hkind : locationToUseKind tcx use.location id v₀.body with
    | error e =>
      rw [error_bind]
      exact ⟨fun e' he => by cases he; exact herr use (.head _) e hkind, (by intros; contradiction)⟩
    | ok kind =>
      unfold visibleUses at hsees
      unfold visibleUses Scanned
      rw [hkind] at hsees ⊢
      rw [ok_bind]
      have one : ∀ {k : UseKind} {v' : UseDefVisitor} {via : Via} {b : UniqueId},
          U use.location via b v' →
          (∀ via' b', Targets tcx id use.location via' b' k → via' = via ∧ b' = b) →
          ∀ k' ∈ some k, ∀ via' b', Targets tcx id use.location via' b' k' →
            U use.location via' b' v' := by
        rintro k v' via b hb heq k' ⟨rfl⟩ via' b' hb'
        obtain ⟨rfl, rfl⟩ := heq via' b' hb'
        exact hb
      cases kind with
      | none => exact rest none hsees v (hR.refl hv) (by intros; contradiction)
      | some kind =>
        cases kind with
        | loc l =>
          have hi : Inside tcx id (v.uniqueId l use.location none) :=
            ⟨_, hsees _ (.head _), rfl, hnew l⟩
          refine (hfollow v _ hv hi rfl).bind fun v' hv' => ?_
          exact rest (some (.loc l)) (fun e he => hsees e (.tail _ he)) v' hv'.1
            (one hv'.2 fun _ _ h => ⟨h.1, h.2.trans (hnew l).symm⟩)
        | closureArg l ops =>
          have hs := hsees _ (.head _)
          have hloop := foldlM_done (A := A)
            (I := fun pre v' => R v v' ∧ ∀ op ∈ pre, Captures id op.1 →
              U use.location .flow ⟨id.defId, l, use.location, some op.2⟩ v')
            (f := closureOperand ord t n id l use.location) (l := ops.zipIdx) ⟨hR.refl hv, (by intros; contradiction)⟩ ?_
          · refine hloop.bind fun v' hv' => ?_
            refine rest (some (.closureArg l ops)) (fun e he => hsees e (.tail _ he)) v' hv'.1 ?_
            rintro k ⟨rfl⟩ via b ⟨rfl, op, hop, hcap, rfl⟩
            exact hv'.2 op hop hcap
          · intro pre op post v' hsplit hI
            refine (closureOperand_runs hR hd hfollow (hR.trans hv hI.1) hs
              (by rw [hsplit]; simp)).mono fun v'' h => ⟨hR.trans hI.1 h.1, fun op' hop' hcap => ?_⟩
            rcases mem_append.1 hop' with hop' | hop'
            · exact hU _ _ _ _ _ h.1 (hI.2 op' hop' hcap)
            · obtain rfl := mem_singleton.1 hop'
              exact h.2 hcap
        | read l =>
          have hb := Borrows.read (hsees _ (.head _))
          rw [← hnew l] at hb
          refine (hborrow v _ _ hv hb rfl).bind fun v' hv' => ?_
          exact rest (some (.read l)) (fun e he => hsees e (.tail _ he)) v' hv'.1
            (one hv'.2 fun _ _ h => ⟨h.1, h.2.trans (hnew l).symm⟩)
        | write l =>
          have hb := Borrows.write (hsees _ (.head _))
          rw [← hnew l] at hb
          refine (hborrow v _ _ hv hb rfl).bind fun v' hv' => ?_
          exact rest (some (.write l)) (fun e he => hsees e (.tail _ he)) v' hv'.1
            (one hv'.2 fun _ _ h => ⟨h.1, h.2.trans (hnew l).symm⟩)
        | function l fn i =>
          simp only at hsees ⊢
          split
          · next hother => exact .ok ⟨hR.refl hv, (by intros; contradiction), .inl hother⟩
          · next hlocal =>
            rw [if_neg hlocal] at hsees
            refine (henter v _ l fn i hv (hsees _ (.head _))).bind fun v' hv' => ?_
            refine (rest (some (.function l fn i)) (fun e he => hsees e (.tail _ he)) v' hv'.1 ?_).mono
              fun v'' h => ⟨h.1, h.2.1, .inr h.2.2⟩
            rintro k ⟨rfl⟩ via b hb
            exact hv'.2 via b hb

theorem trace_succ_runs (hR : Progress R) (hU : ∀ loc, Kept R (U loc)) (hv0 : R v₀ v₀)
    (hbody : tcx.bodies.get v₀.defId = some v₀.body)
    (hanalysis : analyze v₀.body = .ok v₀.analysis) (hd : id.defId = v₀.defId)
    (hlocal : ¬ id.localId < v₀.body.localDecls.length → Panics A)
    (herr : ∀ use ∈ nonmutatingUses v₀.body id.localId, ∀ e,
      locationToUseKind tcx use.location id v₀.body = .error e → A e)
    (hfollow : Follows ord tcx A (trace ord tcx n) n R U v₀ id)
    (hborrow : ∀ v b w, R v₀ v → Borrows tcx id b w → b.defId = v.defId →
      Runs A (v.borrow id b w) fun v' => R v v' ∧ U b.location .borrow b v')
    (henter : ∀ v loc l fn i, R v₀ v → Sees tcx id loc (.function l fn i) →
      Runs A (v.enterFunction ord tcx (trace ord tcx n) id loc l fn i)
        fun v' => R v v' ∧ ∀ via b, Entered tcx id fn i via b → U loc via b v') :
    Runs A (trace ord tcx (n + 1) v₀ id) fun v' => R v₀ v' ∧
      (∀ loc via b, Comes tcx id loc via b → U loc via b v') ∧
      Scanned tcx v₀.body id (nonmutatingUses v₀.body id.localId) := by
  unfold trace
  rw [analyze_spec hanalysis]
  split
  · refine (traceUses_runs hR hU hd hfollow hborrow henter _ v₀ hv0 herr
      fun e he => ⟨v₀.body, by rw [hd, hbody], he⟩).mono fun v' h => ⟨h.1, ?_, h.2.2⟩
    rintro loc via b ⟨kind, ⟨body, hbody', hmem⟩, htarget⟩
    rw [hd, hbody] at hbody'
    cases hbody'
    exact h.2.1 (loc, kind) hmem via b htarget
  · next hlt =>
    exact .panic (hlocal hlt) _

end

/-! ## The walk over a body -/

/-- The vertices a visitor traces from on its own: the allocations of its body and the occurrences
of the argument it follows. -/
def IsStart (tcx : TyCtxt) (v : UseDefVisitor) (via : Via) (id : UniqueId) : Prop :=
  (via = .alloc ∧ IsAllocOf tcx v.defId id) ∨
    (via = .arg ∧ ∃ a i, v.argId = some a ∧ v.argIndex = some i ∧ IsArgOf tcx v.defId i a.field id)

/-- The block ends with an allocation. -/
def Allocates (tcx : TyCtxt) (data : BasicBlockData) : Prop :=
  ∃ func args dest cleanup, data.terminator = some (.call func args dest cleanup) ∧
    isAllocation (tcx.funcName func)

theorem allocates_of_isAllocOf {tcx : TyCtxt} {fn : DefId} {body : Body} {a : UniqueId}
    (h : IsAllocOf tcx fn a) (hbody : tcx.bodies.get fn = some body) {data : BasicBlockData}
    (hdata : (data, a.location.block) ∈ body.basicBlocks.zipIdx) : Allocates tcx data := by
  obtain ⟨body', data', func, args, dest, cleanup, hbody', hdata', hterm, halloc, -⟩ := h
  rw [hbody] at hbody'
  cases hbody'
  exact ⟨func, args, dest, cleanup, eq_of_mem_zipIdx hdata hdata' ▸ hterm, halloc⟩

/-- The start vertex is one of the given blocks of the body. -/
def StartsIn (blocks : List (BasicBlockData × BasicBlock)) (id : UniqueId) : Prop :=
  ∃ block ∈ blocks, id.location.block = block.2

section
variable {ord : IterOrder} {tcx : TyCtxt} {A : Halt → Prop} {t : Tracer}
  {R : UseDefVisitor → UseDefVisitor → Prop} {U : Via → UniqueId → UseDefVisitor → Prop}
  {v : UseDefVisitor} {I : List (BasicBlockData × BasicBlock) → UseDefVisitor → Prop}

/-- What is to be shown of an occurrence of the argument, with the blocks before it done. -/
def VisitsArgs (tcx : TyCtxt) (A : Halt → Prop) (t : Tracer)
    (R : UseDefVisitor → UseDefVisitor → Prop) (U : Via → UniqueId → UseDefVisitor → Prop)
    (v : UseDefVisitor) (I : List (BasicBlockData × BasicBlock) → UseDefVisitor → Prop) : Prop :=
  ∀ pre data bb post c a i p, v.body.basicBlocks.zipIdx = pre ++ (data, bb) :: post → I pre c →
    p.location.block = bb → v.argId = some a → v.argIndex = some i →
    IsArgOf tcx v.defId i a.field p →
    Runs A (t { c.connect a p with vertices := c.vertices.insert p } p) fun c' =>
      I pre c' ∧ R c c' ∧ U .arg p c'

/-- What is to be shown of an allocation, with the blocks before it done. -/
def VisitsAllocs (tcx : TyCtxt) (A : Halt → Prop) (t : Tracer)
    (R : UseDefVisitor → UseDefVisitor → Prop) (U : Via → UniqueId → UseDefVisitor → Prop)
    (v : UseDefVisitor) (I : List (BasicBlockData × BasicBlock) → UseDefVisitor → Prop) : Prop :=
  ∀ pre data bb post c a, v.body.basicBlocks.zipIdx = pre ++ (data, bb) :: post → I pre c →
    a.location.block = bb → IsAllocOf tcx v.defId a →
    Runs A (t { c with currentAllocation := some a, vertices := c.vertices.insert a } a) fun c' =>
      I (pre ++ [(data, bb)]) { c' with currentAllocation := none } ∧
        R c { c' with currentAllocation := none } ∧ U .alloc a { c' with currentAllocation := none }

section
variable {pre post : List (BasicBlockData × BasicBlock)} {data : BasicBlockData} {bb : BasicBlock}
  {c : UseDefVisitor} (hR : Progress R) (hU : Kept R U)
  (hbody : tcx.bodies.get v.defId = some v.body) (hI : ∀ {pre c}, I pre c → Later v c ∧ R c c)
  (htm : Runs A (v.transactionMap.perform ord) fun tm => I [] { v with transactionMap := tm })
  (hidx : v.argId ≠ none → v.argIndex = none → Panics A) (harg : VisitsArgs tcx A t R U v I)
  (halloc : VisitsAllocs tcx A t R U v I)
  (hskip : ∀ {pre data bb post c}, v.body.basicBlocks.zipIdx = pre ++ (data, bb) :: post →
    ¬ Allocates tcx data → I pre c → I (pre ++ [(data, bb)]) c)
  (hdest : ∀ data ∈ v.body.basicBlocks, ∀ func args cleanup dest,
    data.terminator = some (.call func args dest cleanup) → isAllocation (tcx.funcName func) →
    localFromDest dest = none → Panics A)
  (hsplit : v.body.basicBlocks.zipIdx = pre ++ (data, bb) :: post)

include hR hU hbody hI hidx harg hsplit in
theorem statementLocals_runs (hc : I pre c) :
    Runs A ((data.statementLocals bb).foldlM (fun v occ => v.visitLocal t occ.1 occ.2.2) c)
      fun c' => I pre c' ∧ R c c' ∧ ∀ a i p, v.argId = some a → v.argIndex = some i →
        IsArgOf tcx v.defId i a.field p → p.location.block = bb → U .arg p c' := by
  have hmem : (data, bb) ∈ v.body.basicBlocks.zipIdx := by rw [hsplit]; simp
  have hloop := foldlM_done (A := A)
    (I := fun done c' => I pre c' ∧ R c c' ∧ ∀ a i, v.argId = some a → v.argIndex = some i →
      ∀ occ ∈ done, v.body.localKind occ.1 = .arg → i = occ.1 - 1 →
        U .arg ⟨v.defId, occ.1, occ.2.2, a.field⟩ c')
    (f := fun v occ => v.visitLocal t occ.1 occ.2.2) (l := data.statementLocals bb)
    ⟨hc, (hI hc).2, nofun⟩ ?_
  · refine hloop.mono fun c' h => ⟨h.1, h.2.1, ?_⟩
    rintro a i p ha hi ⟨body, data', bb', context, hbody', hdata', hocc, hkind, hidx, hdef, hf⟩ rfl
    rw [hbody] at hbody'
    cases hbody'
    have hbb := (location_of_mem_statementLocals hocc).1
    subst hbb
    obtain rfl := eq_of_mem_zipIdx hmem hdata'
    have := h.2.2 a i ha hi _ hocc hkind hidx
    rwa [← hdef, ← hf] at this
  · intro done occ rest c' hocc h
    obtain ⟨hl, hcc⟩ := hI h.1
    have hmem' : occ ∈ data.statementLocals bb := by rw [hocc]; simp
    -- An occurrence that is not the argument changes nothing.
    have hskip : (∀ a i, v.argId = some a → v.argIndex = some i → v.body.localKind occ.1 = .arg →
        i ≠ occ.1 - 1) → Runs A (.ok c') fun c'' => I pre c'' ∧ R c c'' ∧ ∀ a i, v.argId = some a →
          v.argIndex = some i → ∀ occ' ∈ done ++ [occ], v.body.localKind occ'.1 = .arg →
            i = occ'.1 - 1 → U .arg ⟨v.defId, occ'.1, occ'.2.2, a.field⟩ c'' := by
      refine fun hno => .ok ⟨h.1, h.2.1, fun a i ha hi occ' hocc' hkind hidx => ?_⟩
      rcases mem_append.1 hocc' with hocc' | hocc'
      · exact h.2.2 a i ha hi occ' hocc' hkind hidx
      · obtain rfl := mem_singleton.1 hocc'
        exact absurd hidx (hno a i ha hi hkind)
    unfold visitLocal
    rw [hl.argId, hl.argIndex, hl.body]
    split
    · next hnone => exact hskip fun a _ ha => by rw [hnone] at ha; cases ha
    · next a ha =>
      split
      · next hkind => exact hskip fun _ _ _ _ h => absurd h hkind
      · next hkind =>
        refine bind (P := fun i => v.argIndex = some i)
          (.unwrap (hidx (by rw [ha]; nofun)) fun _ h => h) fun i hi => ?_
        split
        · next hne =>
          refine hskip fun a' i' _ hi' _ => ?_
          rw [hi] at hi'
          cases hi'
          exact hne
        · next heq =>
          have hp : IsArgOf tcx v.defId i a.field ⟨v.defId, occ.1, occ.2.2, a.field⟩ :=
            ⟨v.body, data, bb, occ.2.1, hbody, hmem, hmem', not_not.1 hkind, not_not.1 heq, rfl, rfl⟩
          have hblock := (location_of_mem_statementLocals hmem').1
          rw [uniqueId, hl.defId]
          refine (harg pre data bb post c' a i _ hsplit h.1 hblock ha hi hp).mono fun c'' h' =>
            ⟨h'.1, hR.trans h.2.1 h'.2.1, fun a' i' ha' hi' occ' hocc' hkind' hidx' => ?_⟩
          rcases mem_append.1 hocc' with hocc' | hocc'
          · exact hU _ _ _ _ h'.2.1 (h.2.2 a' i' ha' hi' occ' hocc' hkind' hidx')
          · obtain rfl := mem_singleton.1 hocc'
            rw [ha] at ha'
            cases ha'
            exact h'.2.2

include hbody hI halloc hskip hdest hsplit in
theorem visitTerminator_runs {term : Terminator} (hterm : data.terminator = some term)
    (hc : I pre c) :
    Runs A (c.visitTerminator tcx t term ⟨bb, data.statements.length⟩) fun c' =>
      I (pre ++ [(data, bb)]) c' ∧ R c c' ∧
        ∀ a, IsAllocOf tcx v.defId a → a.location.block = bb → U .alloc a c' := by
  have hmem : (data, bb) ∈ v.body.basicBlocks.zipIdx := by rw [hsplit]; simp
  have hinv : ∀ a, IsAllocOf tcx v.defId a → a.location.block = bb →
      ∃ func args dest cleanup, term = .call func args dest cleanup ∧
        isAllocation (tcx.funcName func) ∧ localFromDest dest = some a.localId ∧
        a = ⟨v.defId, a.localId, ⟨bb, data.statements.length⟩, none⟩ := by
    rintro a ⟨body, data', func, args, dest, cleanup, hbody', hdata', hterm', halloc, hl, hidx, hdef, hf⟩
      rfl
    rw [hbody] at hbody'
    cases hbody'
    obtain rfl := eq_of_mem_zipIdx hmem hdata'
    rw [hterm] at hterm'
    refine ⟨func, args, dest, cleanup, some.inj hterm', halloc, hl, ?_⟩
    rw [← hdef, ← hidx, ← hf]
  have hself : ¬ Allocates tcx data → Runs A (.ok c) fun c' => I (pre ++ [(data, bb)]) c' ∧ R c c' ∧
      ∀ a, IsAllocOf tcx v.defId a → a.location.block = bb → U .alloc a c' := by
    refine fun hno => .ok ⟨hskip hsplit hno hc, (hI hc).2, ?_⟩
    rintro a ha rfl
    exact absurd (allocates_of_isAllocOf ha hbody hmem) hno
  unfold visitTerminator
  split
  · next func args dest cleanup =>
    split
    · next hname =>
      refine bind (P := fun l => localFromDest dest = some l) (.unwrap ?_ fun _ h => h)
        fun l hl => ?_
      · exact hdest data (mem_of_getElem? (mk_mem_zipIdx_iff_getElem?.1 hmem)) func args
          cleanup dest hterm hname
      · have hnew : c.uniqueId l ⟨bb, data.statements.length⟩ none =
            ⟨v.defId, l, ⟨bb, data.statements.length⟩, none⟩ := by rw [uniqueId, (hI hc).1.defId]
        have ha : IsAllocOf tcx v.defId (c.uniqueId l ⟨bb, data.statements.length⟩ none) := by
          rw [hnew]
          exact ⟨v.body, data, func, args, dest, cleanup, hbody, hmem, hterm, hname, hl, rfl, rfl, rfl⟩
        refine (halloc pre data bb post c _ hsplit hc rfl ha).bind fun c' hc' =>
          .ok ⟨hc'.1, hc'.2.1, fun a ha hbb => ?_⟩
        obtain ⟨_, _, _, _, heq, -, hl', ha⟩ := hinv a ha hbb
        cases heq
        rw [hl] at hl'
        rw [ha, ← some.inj hl', ← hnew]
        exact hc'.2.2
    · next hname =>
      refine hself ?_
      rintro ⟨func', args', dest', cleanup', hterm', hname'⟩
      rw [hterm] at hterm'
      cases hterm'
      exact hname hname'
  · next hcall =>
    refine hself ?_
    rintro ⟨func', args', dest', cleanup', hterm', -⟩
    rw [hterm] at hterm'
    cases hterm'
    exact hcall _ _ _ _ rfl

include hR hU hbody hI htm hidx harg halloc hskip hdest in
theorem performWith_runs : Runs A (v.performWith ord tcx t) fun v' =>
      I v.body.basicBlocks.zipIdx v' ∧ ∀ via b, IsStart tcx v via b → U via b v' := by
  refine htm.bind fun tm htm => ?_
  have hloop := foldlM_done (A := A)
    (I := fun pre c => I pre c ∧ ∀ via b, IsStart tcx v via b → StartsIn pre b → U via b c)
    (f := visitBasicBlockData tcx t) (l := v.body.basicBlocks.zipIdx)
    ⟨htm, fun _ b _ ⟨_, h, _⟩ => by cases h⟩ ?_
  · refine hloop.mono fun v' h => ⟨h.1, fun via b hb => h.2 via b hb ?_⟩
    rcases hb with ⟨-, body, data, -, -, -, -, hbody', hdata, -⟩ |
      ⟨-, a, i, -, -, body, data, bb, context, hbody', hdata, hocc, -⟩
    · rw [hbody] at hbody'
      cases hbody'
      exact ⟨_, hdata, rfl⟩
    · rw [hbody] at hbody'
      cases hbody'
      exact ⟨_, hdata, (location_of_mem_statementLocals hocc).1⟩
  · rintro pre ⟨data, bb⟩ post c hsplit ⟨hc, hdone⟩
    refine (statementLocals_runs hR hU hbody hI hidx harg hsplit hc).bind fun c1 h1 => ?_
    -- What is dealt with after the terminator, from what is dealt with before it.
    have hnext : ∀ c2, R c1 c2 → (∀ a, IsAllocOf tcx v.defId a → a.location.block = bb →
        U .alloc a c2) → ∀ via b, IsStart tcx v via b → StartsIn (pre ++ [(data, bb)]) b →
        U via b c2 := by
      rintro c2 hc2 halloc via b hb ⟨block, hblock, hbb⟩
      rcases mem_append.1 hblock with hblock | hblock
      · exact hU _ _ _ _ hc2 (hU _ _ _ _ h1.2.1 (hdone via b hb ⟨block, hblock, hbb⟩))
      · obtain rfl := mem_singleton.1 hblock
        rcases hb with ⟨rfl, hb⟩ | ⟨rfl, a, i, ha, hi, hb⟩
        · exact halloc b hb hbb
        · exact hU _ _ _ _ hc2 (h1.2.2 a i b ha hi hb hbb)
    split
    · next term hterm =>
      refine (visitTerminator_runs hbody hI halloc hskip hdest hsplit hterm h1.1).mono
        fun c2 h2 => ⟨h2.1, hnext c2 h2.2.1 h2.2.2⟩
    · next hterm =>
      have hno : ¬ Allocates tcx data := by
        rintro ⟨func, args, dest, cleanup, hterm', -⟩
        rw [hterm] at hterm'
        cases hterm'
      refine .ok ⟨hskip hsplit hno h1.1, hnext c1 (hI h1.1).2 ?_⟩
      rintro a ha rfl
      exact absurd (allocates_of_isAllocOf ha hbody (by rw [hsplit]; simp)) hno

end

/-! ## A call -/

/-- The child visitor `trace` makes for a call. -/
def childOf (tcx : TyCtxt) (v : UseDefVisitor) (id : UniqueId) (loc : Location) (l : Local)
    (fn : DefId) (i : Nat) (body : Body) (analysis : DefUseAnalysis) : UseDefVisitor :=
  { v with
    analysis
    argId := some id
    argIndex := some (followedArg id i)
    body
    defId := fn
    transactionMap := TransactionMap.newChild fn body
      (v.transactionMap.terminatorToTx.get (v.uniqueId l loc none)) tcx.langItems
      v.transactionMap.terminatorToTx }

variable {loc : Location} {v : UseDefVisitor}

theorem isStart_childOf {id b : UniqueId} {via : Via} {l : Local}
    {fn : DefId} {i : Nat} {body : Body} {analysis : DefUseAnalysis} :
    IsStart tcx (childOf tcx v id loc l fn i body analysis) via b ↔ Entered tcx id fn i via b := by
  refine ⟨?_, ?_⟩
  · rintro (h | ⟨hvia, a, j, ha, hj, h⟩)
    · exact .inr h
    · cases ha
      cases hj
      exact .inl ⟨hvia, h⟩
  · rintro (⟨hvia, h⟩ | h)
    · exact .inr ⟨hvia, id, _, rfl, rfl, h⟩
    · exact .inl h

theorem enterFunction_runs {Q : UseDefVisitor → Prop} {id : UniqueId}
    {l : Local} {fn : DefId} {i : Nat}
    (hmissing : tcx.bodies.get fn = none → Panics A)
    (hanalyze : ∀ body, tcx.bodies.get fn = some body → ∀ e, analyze body = .error e → A e)
    (hchild : ∀ body analysis, tcx.bodies.get fn = some body →
      analyze body = .ok analysis →
      Runs A ((childOf tcx v id loc l fn i body analysis).performWith ord tcx t)
        fun child => Q (v.merge ord child)) :
    Runs A (v.enterFunction ord tcx t id loc l fn i) Q := by
  refine bind (P := fun body => tcx.bodies.get fn = some body) (.expect hmissing fun _ h => h)
    fun body hbody => ?_
  refine bind (P := fun child => ∃ analysis, analyze body = .ok analysis ∧
    child = childOf tcx v id loc l fn i body analysis) ?_ ?_
  · refine bind (P := fun a => analyze body = .ok a)
      ⟨hanalyze body hbody, fun _ h => h⟩ fun analysis han => .ok ⟨analysis, han, rfl⟩
  · rintro _ ⟨analysis, han, rfl⟩
    exact (hchild body analysis hbody han).bind fun child hc => .ok hc

end

end UseDefVisitor

end Tortis
