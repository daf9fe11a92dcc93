import Tortis.Transaction.Credit

/-!
# The calls of a run

Which calls a run of the use-def analysis makes, in which states: `Invokes` relates a call of
`perform`, of `trace` or of the following of a value to the calls it makes itself, each with the
state that the parts before it have returned. A call knows the allocation whose flow is followed,
which the code does not record.
-/

namespace Tortis

open List Outcome DefUseAnalysis Relation

namespace UseDefVisitor

/-- A call, with the fuel of the recursive calls it makes and the allocation that is followed. -/
inductive Invocation where
  /-- The walk over the body of the visitor. -/
  | perform (n : Nat) (followed : Option UniqueId) (v : UseDefVisitor)
  | trace (n : Nat) (followed : Option UniqueId) (v : UseDefVisitor) (id : UniqueId)
  /-- The value of a vertex flows to another one. -/
  | follow (n : Nat) (followed : Option UniqueId) (v : UseDefVisitor) (id b : UniqueId)
  | mapAllocation (followed : Option UniqueId) (v : UseDefVisitor) (b : UniqueId)

section
variable (ord : IterOrder) (tcx : TyCtxt)

section
variable (n : Nat)

/-- The walk has come to a block, with the blocks before it visited. -/
def AtBlock (v : UseDefVisitor) (pre : List (BasicBlockData × BasicBlock))
    (block : BasicBlockData × BasicBlock) (c : UseDefVisitor) : Prop :=
  ∃ tm post, v.transactionMap.perform ord = .ok tm ∧
    v.body.basicBlocks.zipIdx = pre ++ block :: post ∧
    pre.foldlM (visitBasicBlockData tcx (trace ord tcx n)) { v with transactionMap := tm } = .ok c

/-- The walk has visited these locals of the statements of a block. -/
def AtLocals (v : UseDefVisitor) (pre : List (BasicBlockData × BasicBlock))
    (block : BasicBlockData × BasicBlock) (done : List (Local × PlaceContext × Location))
    (c : UseDefVisitor) : Prop :=
  ∃ c₀ rest, AtBlock ord tcx n v pre block c₀ ∧
    block.1.statementLocals block.2 = done ++ rest ∧
    done.foldlM (fun v occ => v.visitLocal (trace ord tcx n) occ.1 occ.2.2) c₀ = .ok c

/-- The loop over the uses of a vertex has come to a use of this kind. -/
def AtUse (v : UseDefVisitor) (id : UniqueId) (loc : Location) (kind : UseKind)
    (c : UseDefVisitor) : Prop :=
  ∃ info pre use post, v.analysis.localInfo id.localId = .ok info ∧
    info.filter (·.context.isNonmutatingUse) = pre ++ use :: post ∧
    (∀ u ∈ pre, ∀ l fn i, locationToUseKind tcx u.location id v.body = .ok (some (.function l fn i)) →
      fn.krate = LOCAL_CRATE) ∧
    traceUses ord tcx (trace ord tcx n) n id pre v = .ok c ∧
    use.location = loc ∧ locationToUseKind tcx loc id v.body = .ok (some kind)

/-- One element of the path of a place that a closure captures. -/
def followElem (id b : UniqueId) (useField : Nat) (v : UseDefVisitor)
    (elem : ProjectionElem) : Outcome UseDefVisitor :=
  match elem with
  | .field field => if field = useField then v.follow ord (trace ord tcx n) n id b else .ok v
  | _ => .ok v

/-- The vertex is captured by the operand: the value is followed in the state `c'`. -/
def AtCapture (id b : UniqueId) (operand : Operand) (c c' : UseDefVisitor) : Prop :=
  (getLocal operand = some id.localId ∧ c' = c) ∨
    ∃ useField projection pre post, getLocal operand = none ∧ id.field = some useField ∧
      operand = .move ⟨.loc id.localId, projection⟩ ∧
      projection = pre ++ .field useField :: post ∧
      pre.foldlM (followElem ord tcx n id b useField) c = .ok c'

end

/-- A call makes another one itself. -/
inductive Invokes : Invocation → Invocation → Prop
  | arg {n followed v pre block done occ c a} :
      AtLocals ord tcx n v pre block done c →
      done ++ [occ] <+: block.1.statementLocals block.2 →
      c.argId = some a → c.body.localKind occ.1 = .arg → c.argIndex = some (occ.1 - 1) →
      Invokes (.perform n followed v)
        (.trace n followed (c.touch a (c.uniqueId occ.1 occ.2.2 a.field))
          (c.uniqueId occ.1 occ.2.2 a.field))
  | alloc {n followed v pre block c func args dest cleanup l} :
      AtLocals ord tcx n v pre block (block.1.statementLocals block.2) c →
      block.1.terminator = some (.call func args dest cleanup) → isAllocation (tcx.funcName func) →
      localFromDest dest = some l →
      Invokes (.perform n followed v)
        (.trace n (some (c.uniqueId l ⟨block.2, block.1.statements.length⟩ none))
          { c with
            currentAllocation := some (c.uniqueId l ⟨block.2, block.1.statements.length⟩ none)
            vertices := c.vertices.insert (c.uniqueId l ⟨block.2, block.1.statements.length⟩ none) }
          (c.uniqueId l ⟨block.2, block.1.statements.length⟩ none))
  | loc {n followed v id loc l c} : AtUse ord tcx n v id loc (.loc l) c →
      Invokes (.trace (n + 1) followed v id) (.follow n followed c id (c.uniqueId l loc none))
  | closure {n followed v id loc l ops pre op post c c' c''} :
      AtUse ord tcx n v id loc (.closureArg l ops) c → ops.zipIdx = pre ++ op :: post →
      pre.foldlM (closureOperand ord (trace ord tcx n) n id l loc) c = .ok c' →
      AtCapture ord tcx n id (c'.uniqueId l loc (some op.2)) op.1 c' c'' →
      Invokes (.trace (n + 1) followed v id)
        (.follow n followed c'' id (c'.uniqueId l loc (some op.2)))
  | read {n followed v id loc l c} : AtUse ord tcx n v id loc (.read l) c →
      Invokes (.trace (n + 1) followed v id)
        (.mapAllocation followed
          { c with isWrite := c.isWrite.insert (c.uniqueId l loc none) false } (c.uniqueId l loc none))
  | write {n followed v id loc l c} : AtUse ord tcx n v id loc (.write l) c →
      Invokes (.trace (n + 1) followed v id)
        (.mapAllocation followed
          { c with isWrite := c.isWrite.insert (c.uniqueId l loc none) true } (c.uniqueId l loc none))
  | function {n followed v id loc l fn i c body analysis} :
      AtUse ord tcx n v id loc (.function l fn i) c → fn.krate = LOCAL_CRATE →
      tcx.bodies.get fn = some body → analyze body = .ok analysis →
      Invokes (.trace (n + 1) followed v id)
        (.perform n followed (childOf tcx c id loc l fn i body analysis))
  | visit {n followed v id b} : b ∉ v.vertices →
      Invokes (.follow n followed v id b) (.trace n followed (v.touch id b) b)
  | again {n followed v id b s uses pre use post c} : b ∈ v.vertices →
      (v.connect id b).edges.get b = some s → (v.connect id b).useSet ord n s = .ok uses →
      ord.order uses.toList = pre ++ use :: post →
      pre.foldlM (fun v use => v.mapAllocation use.sharedObject) (v.connect id b) = .ok c →
      Invokes (.follow n followed v id b) (.mapAllocation followed c use.sharedObject)

end

/-! ## The walk over a body, part by part -/

/-- A visitor that can start the walk over its body. -/
structure Enters (tcx : TyCtxt) (root : DefId) (v : UseDefVisitor) : Prop where
  good : Good tcx root v
  closed : Closed v
  sane : Sane tcx v
  marked : ∀ a, v.argId = some a → a ∈ v.vertices
  allocs : ∀ a, IsAllocOf tcx v.defId a → Reached tcx root a

section
variable {ord : IterOrder} {tcx : TyCtxt} {root : DefId} {n : Nat}
  {c c' : UseDefVisitor} {loc : Location}

theorem visitLocal_cases {t : Tracer} {l : Local} (h : c.visitLocal t l loc = .ok c') :
    c' = c ∨ ∃ a, c.argId = some a ∧ c.body.localKind l = .arg ∧ c.argIndex = some (l - 1) ∧
      t (c.touch a (c.uniqueId l loc a.field)) (c.uniqueId l loc a.field) = .ok c' := by
  unfold visitLocal at h
  split at h
  · cases h
    exact .inl rfl
  · next a ha =>
    split at h
    · cases h
      exact .inl rfl
    · next hkind =>
      obtain ⟨i, hi, h⟩ := bind_eq_ok.1 h
      have hi := unwrap_eq_ok.1 hi
      split at h
      · cases h
        exact .inl rfl
      · next hidx =>
        rw [not_not.1 hidx] at hi
        exact .inr ⟨a, ha, not_not.1 hkind, hi, h⟩

theorem visitTerminator_cases {t : Tracer} {term : Terminator}
    (h : c.visitTerminator tcx t term loc = .ok c') :
    (c' = c ∧ ∀ func args dest cleanup, term = .call func args dest cleanup →
      ¬ isAllocation (tcx.funcName func)) ∨
    ∃ func args dest cleanup l c1, term = .call func args dest cleanup ∧
      isAllocation (tcx.funcName func) ∧ localFromDest dest = some l ∧
      t { c with
          currentAllocation := some (c.uniqueId l loc none)
          vertices := c.vertices.insert (c.uniqueId l loc none) } (c.uniqueId l loc none) = .ok c1 ∧
      c' = { c1 with currentAllocation := none } := by
  unfold visitTerminator at h
  split at h
  · next func args dest cleanup =>
    split at h
    · next hname =>
      obtain ⟨l, hl, h⟩ := bind_eq_ok.1 h
      obtain ⟨c1, hc1, h⟩ := bind_eq_ok.1 h
      cases h
      exact .inr ⟨func, args, dest, cleanup, l, c1, rfl, hname, unwrap_eq_ok.1 hl, hc1, rfl⟩
    · next hname =>
      cases h
      exact .inl ⟨rfl, by rintro _ _ _ _ ⟨⟩; exact hname⟩
  · next hcall =>
    cases h
    exact .inl ⟨rfl, fun func args dest cleanup heq => absurd heq (hcall func args dest cleanup)⟩

section
variable {v c : UseDefVisitor} {data : BasicBlockData} {bb : BasicBlock}
  (hv : Enters tcx root v) (hc : Walks tcx root v c) (hdata : (data, bb) ∈ v.body.basicBlocks.zipIdx)
include hv

section
include hc hdata

theorem Enters.arg {occ : Local × PlaceContext × Location} (hocc : occ ∈ data.statementLocals bb)
    {a : UniqueId} (ha : c.argId = some a) (hkind : c.body.localKind occ.1 = .arg)
    (hidx : c.argIndex = some (occ.1 - 1)) :
    IsArgOf tcx v.defId (occ.1 - 1) a.field (c.uniqueId occ.1 occ.2.2 a.field) ∧
      Reached tcx root a ∧ Flow tcx a (c.uniqueId occ.1 occ.2.2 a.field) ∧
      Ready tcx root (c.touch a (c.uniqueId occ.1 occ.2.2 a.field)) (c.uniqueId occ.1 occ.2.2 a.field) ∧
      Sane tcx (c.touch a (c.uniqueId occ.1 occ.2.2 a.field)) := by
  have hl := hc.1.goes.2
  rw [hl.argId] at ha
  rw [hl.argIndex] at hidx
  rw [hl.body] at hkind
  have hp : IsArgOf tcx v.defId (occ.1 - 1) a.field (c.uniqueId occ.1 occ.2.2 a.field) :=
    ⟨v.body, data, bb, occ.2.1, hv.good.body, hdata, hocc, hkind, rfl, hl.defId, rfl⟩
  obtain ⟨hra, loc, l, j, hs, hj⟩ := hv.good.arg a ha
  have hf : Flow tcx a (c.uniqueId occ.1 occ.2.2 a.field) := by
    refine .arg hs ?_
    rw [← Option.mem_unique hidx hj]
    exact hp
  refine ⟨hp, hra, hf, ?_, (extends_touch hc.2.sane a (hra.flow hf) rfl).sane⟩
  exact ready_touch hc.1.goes.1 hc.1.closed (hl.vertices a (hv.marked a ha)) hra hf rfl

theorem Enters.alloc {func : Operand} {args : List Operand} {dest : Option (Place × BasicBlock)}
    {cleanup : Option BasicBlock} (hterm : data.terminator = some (.call func args dest cleanup))
    (hname : isAllocation (tcx.funcName func)) {l : Local} (hl : localFromDest dest = some l) :
    Reached tcx root (c.uniqueId l ⟨bb, data.statements.length⟩ none) := by
  refine hv.allocs _ ⟨v.body, data, func, args, dest, cleanup, hv.good.body, hdata, hterm, hname, hl,
    rfl, hc.1.goes.2.defId, rfl⟩

theorem visitLocals_walks {occs : List (Local × PlaceContext × Location)}
    (hoccs : ∀ occ ∈ occs, occ ∈ data.statementLocals bb) : Runs (fun _ => True)
      (occs.foldlM (fun v occ => v.visitLocal (trace ord tcx n) occ.1 occ.2.2) c)
      fun c' => Walks tcx root v c' ∧ c'.currentAllocation = c.currentAllocation := by
  refine Runs.foldlM (I := fun c' => Walks tcx root v c' ∧
    c'.currentAllocation = c.currentAllocation) ⟨hc, rfl⟩ fun c1 occ hocc hc1 =>
      ⟨fun _ _ => trivial, fun c2 h => ?_⟩
  rcases visitLocal_cases h with rfl | ⟨a, ha, hkind, hidx, h⟩
  · exact hc1
  · obtain ⟨-, hra, hf, hready, hsane⟩ := hv.arg hc1.1 hdata (hoccs occ hocc) ha hkind hidx
    have hadv := (trace_advances n _ _ hready hsane).post c2 h
    refine ⟨hc1.1.trans ?_, hadv.current.trans hc1.2⟩
    exact walks_arg hc1.1.1.goes.1 hc1.1.2.sane hra hf rfl ((trace_records n _ _ hready).post c2 h) hadv

theorem visitBlock_walks : Runs (fun _ => True) (c.visitBasicBlockData tcx (trace ord tcx n) (data, bb)) fun c' =>
      Walks tcx root v c' ∧ (¬ Allocates tcx data → c'.currentAllocation = c.currentAllocation) := by
  refine (visitLocals_walks hv hc hdata fun _ h => h).bind fun c1 hc1 => ?_
  split
  · next term hterm =>
    refine ⟨fun _ _ => trivial, fun c2 h => ?_⟩
    rcases visitTerminator_cases h with
      ⟨rfl, -⟩ | ⟨func, args, dest, cleanup, l, c3, rfl, hname, hl, ht, rfl⟩
    · exact ⟨hc1.1, fun _ => hc1.2⟩
    · have hra := hv.alloc hc1.1 hdata hterm hname hl
      have hready := ready_alloc hc1.1.1.goes.1 hc1.1.1.closed hra rfl
      have hwalk := walks_alloc hc1.1.1.goes.1 hc1.1.2.sane hra rfl
        ((trace_records n _ _ hready).post c3 ht)
        ((trace_advances n _ _ hready (sane_visit hc1.1.2.sane hra _)).post c3 ht)
      exact ⟨hc1.1.trans hwalk, fun hno => absurd ⟨func, args, dest, cleanup, hterm, hname⟩ hno⟩
  · exact .ok ⟨hc1.1, fun _ => hc1.2⟩

end

theorem Enters.withMap (tm : TransactionMap) : Enters tcx root { v with transactionMap := tm } :=
  ⟨⟨hv.good.body, hv.good.analysis, hv.good.edges, hv.good.arg⟩, hv.closed,
    ⟨hv.sane.filled, hv.sane.writes⟩, hv.marked, hv.allocs⟩

/-- Where the walk has come to a block: the allocation is the one of the start, when no block before
allocates. -/
theorem AtBlock.spec {c : UseDefVisitor}
    {pre : List (BasicBlockData × BasicBlock)} {block : BasicBlockData × BasicBlock}
    (h : AtBlock ord tcx n v pre block c) :
    ∃ tm, Walks tcx root { v with transactionMap := tm } c ∧ block ∈ v.body.basicBlocks.zipIdx ∧
      ((∀ e ∈ pre, ¬ Allocates tcx e.1) → c.currentAllocation = v.currentAllocation) := by
  obtain ⟨tm, post, -, hsplit, hrun⟩ := h
  have hv' := hv.withMap tm
  have hloop := Runs.foldlM_done (A := fun _ => True)
    (I := fun (done : List (BasicBlockData × BasicBlock)) c =>
      Walks tcx root { v with transactionMap := tm } c ∧
      ((∀ e ∈ done, ¬ Allocates tcx e.1) → c.currentAllocation = v.currentAllocation))
    (f := visitBasicBlockData tcx (trace ord tcx n)) (l := pre)
    (s := { v with transactionMap := tm })
    ⟨⟨records_refl hv'.good hv'.closed, hv'.sane.extends⟩, fun _ => rfl⟩ ?_
  · obtain ⟨hw, hcur⟩ := hloop.post c hrun
    exact ⟨tm, hw, by rw [hsplit]; simp, hcur⟩
  · rintro done ⟨data, bb⟩ rest c1 hpre ⟨hw, hcur⟩
    refine (visitBlock_walks hv' hw ?_).mono fun c2 h2 => ⟨h2.1, fun hno => ?_⟩
    · rw [show ({ v with transactionMap := tm } : UseDefVisitor).body = v.body from rfl, hsplit, hpre]
      simp
    · rw [h2.2 (hno (data, bb) (by simp)), hcur fun e he => hno e (by simp [he])]

end

variable {v c : UseDefVisitor}

theorem AtLocals.spec (hv : Enters tcx root v)
    {pre : List (BasicBlockData × BasicBlock)} {block : BasicBlockData × BasicBlock}
    {done : List (Local × PlaceContext × Location)} (h : AtLocals ord tcx n v pre block done c) :
    ∃ tm, Walks tcx root { v with transactionMap := tm } c ∧ block ∈ v.body.basicBlocks.zipIdx ∧
      ((∀ e ∈ pre, ¬ Allocates tcx e.1) → c.currentAllocation = v.currentAllocation) := by
  obtain ⟨c0, rest, hblock, hsplit, hrun⟩ := h
  obtain ⟨tm, hw, hmem, hcur⟩ := hblock.spec hv
  obtain ⟨hw', hcur'⟩ := (visitLocals_walks (hv.withMap tm) hw hmem
    fun occ hocc => by rw [hsplit]; simp [hocc]).post c hrun
  exact ⟨tm, hw', hmem, fun hno => hcur'.trans (hcur hno)⟩

/-! ## The loop over the uses, part by part -/

variable {id : UniqueId} {body : Body}

theorem visibleUses_isPrefix (rest : List Use) : ∀ pre : List Use,
    visibleUses tcx body id pre <+: visibleUses tcx body id (pre ++ rest)
  | [] => nil_prefix
  | use :: pre => by
    have ih : visibleUses tcx body id pre <+: visibleUses tcx body id (pre ++ rest) :=
      visibleUses_isPrefix rest pre
    rw [cons_append]
    unfold visibleUses
    split
    · split
      · exact nil_prefix
      · exact (prefix_cons_inj _).2 ih
    · exact (prefix_cons_inj _).2 ih
    · exact ih
    · exact nil_prefix

/-- Behind uses whose kinds are told, none of which is a call of a function of another crate, the uses
are looked at. -/
theorem visibleUses_append {rest : List Use} : ∀ {pre : List Use}, Scanned tcx body id pre →
    (∀ u ∈ pre, ∀ l fn i, locationToUseKind tcx u.location id body = .ok (some (.function l fn i)) →
      fn.krate = LOCAL_CRATE) →
    visibleUses tcx body id (pre ++ rest) = visibleUses tcx body id pre ++ visibleUses tcx body id rest
  | [], _, _ => rfl
  | use :: pre, hscan, hlocal => by
    have ih : Scanned tcx body id pre → visibleUses tcx body id (pre ++ rest) =
        visibleUses tcx body id pre ++ visibleUses tcx body id rest := fun hscan =>
      visibleUses_append hscan fun u hu => hlocal u (.tail _ hu)
    have hlocal := hlocal use (.head _)
    unfold Scanned at hscan
    rw [cons_append, visibleUses, visibleUses]
    cases hkind : locationToUseKind tcx use.location id body with
    | error e =>
      rw [hkind] at hscan
      exact hscan.elim
    | ok kind =>
      rw [hkind] at hscan hlocal
      cases kind with
      | none => exact ih hscan
      | some kind =>
        cases kind with
        | function l fn i =>
          have hkrate := hlocal l fn i rfl
          simp only [hkrate, ne_eq, not_true_eq_false, if_false, false_or] at hscan ⊢
          rw [ih hscan, cons_append]
        | _ => exact congrArg (_ :: ·) (ih hscan)

/-- A relation in which the states of a visitor progress while it traces a vertex, since each part of
`trace` keeps to it. -/
structure Keeps (ord : IterOrder) (tcx : TyCtxt) (root : DefId)
    (R : UseDefVisitor → UseDefVisitor → Prop) : Prop where
  progress : Progress R
  advances : ∀ {v v'}, R v v' → Advances tcx root v v'
  start : ∀ {v id}, Ready tcx root v id → Sane tcx v → R v v
  follow : ∀ {n v₀ v id b}, Ready tcx root v₀ id → R v₀ v → Inside tcx id b → b.defId = v.defId →
    Runs (fun _ => True) (v.follow ord (trace ord tcx n) n id b) (R v)
  borrow : ∀ {v₀ v id b w}, Ready tcx root v₀ id → R v₀ v → Borrows tcx id b w → b.defId = v.defId →
    Runs (fun _ => True) (v.borrow id b w) (R v)
  enter : ∀ {n v₀ v id loc l fn i}, Ready tcx root v₀ id → R v₀ v →
    Sees tcx id loc (.function l fn i) →
    Runs (fun _ => True) (v.enterFunction ord tcx (trace ord tcx n) id loc l fn i) (R v)

theorem keeps_advances : Keeps ord tcx root (Advances tcx root) where
  progress := advances_progress
  advances h := h
  start hid hs := ⟨records_refl hid.good hid.closed, hs.extends, rfl⟩
  follow hid hv hi hd := follow_advances (trace_advances _) hid hv hi.flow.1 hd
  borrow hid hv hb hd := borrow_advances hid hv hb hd
  enter hid hv hs := (enterFunction_advances (trace_advances _) hid hv hs).mono fun _ h => h.1

section
variable {R : UseDefVisitor → UseDefVisitor → Prop} (hR : Keeps ord tcx root R)
include hR

theorem Keeps.traceUses {v : UseDefVisitor} {id : UniqueId} (hid : Ready tcx root v id)
    (hs : Sane tcx v) {pre rest : List Use}
    (huses : nonmutatingUses v.body id.localId = pre ++ rest) :
    Runs (fun _ => True) (traceUses ord tcx (trace ord tcx n) n id pre v) fun c =>
      R v c ∧ Scanned tcx v.body id pre := by
  refine (traceUses_runs (U := fun _ _ _ _ => True) hR.progress (fun _ _ _ _ _ _ _ => trivial)
    hid.defId ?_ ?_ ?_ pre v (hR.start hid hs) (fun _ _ _ _ => trivial) fun e he => ?_).mono
      fun _ h => ⟨h.1, h.2.2⟩
  · exact fun v' b hv' hi hd => (hR.follow hid hv' hi hd).mono fun _ h => ⟨h, trivial⟩
  · exact fun v' b w hv' hb hd => (hR.borrow hid hv' hb hd).mono fun _ h => ⟨h, trivial⟩
  · exact fun v' loc l fn i hv' hsees => (hR.enter hid hv' hsees).mono
      fun _ h => ⟨h, fun _ _ _ => trivial⟩
  · refine ⟨v.body, by rw [hid.defId, hid.good.body], ?_⟩
    rw [huses]
    exact (visibleUses_isPrefix rest pre).subset he

section
variable {v : UseDefVisitor} {id : UniqueId} (hid : Ready tcx root v id)
include hid

variable {loc : Location} {c : UseDefVisitor}

theorem Keeps.atUse {kind : UseKind} (hs : Sane tcx v) (h : AtUse ord tcx n v id loc kind c)
    (hkrate : ∀ l fn i, kind = .function l fn i → fn.krate = LOCAL_CRATE) :
    R v c ∧ Sees tcx id loc kind := by
  obtain ⟨info, pre, use, post, hinfo, hsplit, hlocal, hrun, rfl, hkind⟩ := h
  have huses : nonmutatingUses v.body id.localId = pre ++ use :: post := by
    rw [analyze_spec hid.good.analysis] at hinfo
    split at hinfo
    · cases hinfo
      exact hsplit
    · cases hinfo
  obtain ⟨hc, hscan⟩ := (hR.traceUses hid hs huses).post c hrun
  refine ⟨hc, v.body, by rw [hid.defId, hid.good.body], ?_⟩
  rw [huses, visibleUses_append hscan hlocal]
  refine mem_append_right _ ?_
  unfold visibleUses
  rw [hkind]
  cases kind with
  | function l fn i =>
    simp only [hkrate l fn i rfl, ne_eq, not_true_eq_false, if_false]
    exact .head _
  | _ => exact .head _

theorem Keeps.closureOperands (hc : R v c) {l : Local}
    {ops : List Operand} (hs : Sees tcx id loc (.closureArg l ops)) {pre : List (Operand × Nat)}
    (hpre : ∀ op ∈ pre, op ∈ ops.zipIdx) : Runs (fun _ => True)
    (pre.foldlM (closureOperand ord (trace ord tcx n) n id l loc) c) (R v) := by
  refine Runs.foldlM hc fun c1 op hop hc1 => ?_
  refine (closureOperand_runs (U := fun _ _ _ _ => True) hR.progress
    hid.defId ?_ hc1 hs (hpre op hop)).mono fun _ h => hR.progress.trans hc1 h.1
  exact fun v' b hv' hi hd => (hR.follow hid hv' hi hd).mono fun _ h => ⟨h, trivial⟩

theorem Keeps.atCapture {c c' : UseDefVisitor} {b : UniqueId} {operand : Operand} (hc : R v c) (hb : Captures id operand → Inside tcx id b)
    (hd : b.defId = v.defId) (h : AtCapture ord tcx n id b operand c c') :
    R v c' ∧ Inside tcx id b := by
  rcases h with ⟨hlocal, rfl⟩ | ⟨useField, projection, pre, post, -, hfield, hop, hsplit, hrun⟩
  · exact ⟨hc, hb (.inl hlocal)⟩
  · have hi := hb (.inr ⟨useField, projection, hfield, hop, by rw [hsplit]; simp⟩)
    refine ⟨?_, hi⟩
    have hloop : Runs (fun _ => True) (pre.foldlM (followElem ord tcx n id b useField) c) (R v) := by
      refine Runs.foldlM hc fun c1 elem _ hc1 => ?_
      have hself : Runs (fun _ => True) (.ok c1) (R v) := .ok hc1
      unfold followElem
      split
      · split
        · refine (hR.follow hid hc1 hi ?_).mono fun _ h => hR.progress.trans hc1 h
          rw [hd, (hR.progress.later hc1).defId]
        · exact hself
      · exact hself
    exact hloop.post c' hrun

theorem Keeps.follows {A A' : Option UniqueId} {m : Nat} {id' b : UniqueId} (hs : Sane tcx v)
    (h : Invokes ord tcx (.trace n A v id) (.follow m A' c id' b)) :
    A' = A ∧ id' = id ∧ R v c ∧ Inside tcx id b ∧ b.defId = v.defId := by
  cases h with
  | @loc _ _ _ _ loc l _ huse =>
    obtain ⟨hc, hsees⟩ := hR.atUse hid hs huse (by simp)
    have hd := (hR.progress.later hc).defId
    refine ⟨rfl, rfl, hc, ⟨_, hsees, rfl, ?_⟩, hd⟩
    rw [uniqueId, hd, hid.defId]
  | @closure _ _ _ _ loc l ops pre op post _ c' _ huse hops hpre hcap =>
    obtain ⟨hc, hsees⟩ := hR.atUse hid hs huse (by simp)
    have hmem : ∀ op ∈ pre, op ∈ ops.zipIdx := fun op hop => by rw [hops]; simp [hop]
    have hc' := (hR.closureOperands hid hc hsees hmem).post c' hpre
    have hd := (hR.progress.later hc').defId
    have hb : c'.uniqueId l loc (some op.2) = ⟨id.defId, l, loc, some op.2⟩ := by
      rw [uniqueId, hd, hid.defId]
    obtain ⟨hc'', hi⟩ := hR.atCapture hid hc'
      (fun hc => hb ▸ inside_closure hsees (by rw [hops]; simp) hc) hd hcap
    exact ⟨rfl, rfl, hc'', hi, hd⟩

end

end

variable {post : List Use} {v : UseDefVisitor}

theorem AtUse.first {v : UseDefVisitor} {id : UniqueId} (hid : Ready tcx root v id) {body : Body}
    (hbody : tcx.bodies.get id.defId = some body) (hl : id.localId < body.localDecls.length)
    {use : Use} {post : List Use} (huses : nonmutatingUses body id.localId = use :: post)
    {kind : UseKind} (hkind : locationToUseKind tcx use.location id body = .ok (some kind)) :
    AtUse ord tcx n v id use.location kind v := by
  have hv : v.body = body := by
    rw [hid.defId, hid.good.body] at hbody
    exact Option.some.inj hbody
  refine ⟨usesOf body id.localId, [], use, post, ?_, huses, nofun, rfl, rfl, hv ▸ hkind⟩
  rw [analyze_spec hid.good.analysis, hv, if_pos hl]

theorem traces_first {A : Option UniqueId} {v : UseDefVisitor} {id : UniqueId}
    (hid : Ready tcx root v id) {body : Body} (hbody : tcx.bodies.get id.defId = some body)
    (hl : id.localId < body.localDecls.length) {use : Use} {post : List Use}
    (huses : nonmutatingUses body id.localId = use :: post) {l : Local}
    (hkind : locationToUseKind tcx use.location id body = .ok (some (.loc l)))
    (hnot : (⟨id.defId, l, use.location, none⟩ : UniqueId) ∉ v.vertices) :
    ReflTransGen (Invokes ord tcx) (.trace (n + 1) A v id)
      (.trace n A (v.touch id ⟨id.defId, l, use.location, none⟩) ⟨id.defId, l, use.location, none⟩) := by
  have hfollow := @Invokes.loc ord tcx n A _ _ _ _ _ (AtUse.first hid hbody hl huses hkind)
  rw [uniqueId, ← hid.defId] at hfollow
  exact (ReflTransGen.single hfollow).tail (.visit hnot)

/-! ## Calls in a sane state -/

/-- The calls are made in states in which the bookkeeping is right. -/
def Valid (tcx : TyCtxt) (root : DefId) : Invocation → Prop
  | .perform _ _ v => Enters tcx root v
  | .trace _ _ v id => Ready tcx root v id ∧ Sane tcx v
  | .follow _ _ v id b => (Ready tcx root v id ∧ Sane tcx v) ∧ Inside tcx id b ∧ b.defId = v.defId
  | .mapAllocation .. => True

theorem Advances.ready (h : Advances tcx root v c)
    (hid : Ready tcx root v id) : Ready tcx root c id ∧ Sane tcx c :=
  ⟨⟨h.records.goes.1, h.records.closed, h.records.goes.2.vertices id hid.marked, hid.reached,
    hid.defId.trans h.records.goes.2.defId.symm⟩, h.ext.sane⟩

variable {i j : Invocation}

theorem Invokes.valid (h : Invokes ord tcx i j) (hi : Valid tcx root i) : Valid tcx root j := by
  cases h with
  | arg hlocals hocc ha hkind hidx =>
    obtain ⟨tm, hw, hmem, -⟩ := hlocals.spec hi
    obtain ⟨-, -, -, hready, hsane⟩ := (hi.withMap tm).arg hw hmem
      (hocc.subset (by simp)) ha hkind hidx
    exact ⟨hready, hsane⟩
  | alloc hlocals hterm hname hl =>
    obtain ⟨tm, hw, hmem, -⟩ := hlocals.spec hi
    have hra := (hi.withMap tm).alloc hw hmem hterm hname hl
    exact ⟨ready_alloc hw.1.goes.1 hw.1.closed hra rfl, sane_visit hw.2.sane hra _⟩
  | loc huse =>
    obtain ⟨-, -, hc, hinside, hd⟩ := keeps_advances.follows hi.1 hi.2 (@Invokes.loc _ _ _ none _ _ _ _ _ huse)
    exact ⟨hc.ready hi.1, hinside, rfl⟩
  | closure huse hops hpre hcap =>
    obtain ⟨-, -, hc, hinside, hd⟩ := keeps_advances.follows hi.1 hi.2
      (@Invokes.closure _ _ _ none _ _ _ _ _ _ _ _ _ _ _ huse hops hpre hcap)
    exact ⟨hc.ready hi.1, hinside, hd.trans hc.records.goes.2.defId.symm⟩
  | read | write | again => trivial
  | function huse hkrate hbody han =>
    obtain ⟨hadv, hs⟩ := keeps_advances.atUse hi.1 hi.2 huse (by rintro _ _ _ ⟨⟩; exact hkrate)
    obtain ⟨hready, hsane⟩ := hadv.ready hi.1
    refine ⟨good_childOf hready.good hready.reached hs hbody han, hready.closed,
      ⟨hsane.filled, hsane.writes⟩, ?_, fun a ha => hready.reached.retraced (.alloc hs ha)⟩
    rintro a ⟨rfl⟩
    exact hready.marked
  | visit hnot =>
    obtain ⟨⟨hready, hsane⟩, hinside, hd⟩ := hi
    have hf := hinside.flow.1
    exact ⟨ready_touch hready.good hready.closed hready.marked hready.reached hf hd,
      (extends_touch hsane _ (hready.reached.flow hf) hd).sane⟩

theorem reached_valid (h : ReflTransGen (Invokes ord tcx) i j)
    (hi : Valid tcx root i) : Valid tcx root j := by
  induction h with
  | refl => exact hi
  | tail _ hjk ih => exact hjk.valid ih

theorem run_inv {P : Invocation → Prop}
    (h : ReflTransGen (Invokes ord tcx) i j) (hi : Valid tcx root i) (hP : P i)
    (hstep : ∀ j k, ReflTransGen (Invokes ord tcx) i j → Valid tcx root j → P j →
      Invokes ord tcx j k → P k) : P j := by
  induction h with
  | refl => exact hP
  | tail hij hjk ih => exact hstep _ _ hij (reached_valid hij hi) ih hjk

theorem enters_new (hbody : tcx.bodies.get root = some body)
    (h : UseDefVisitor.new body root tcx = .ok v) : Enters tcx root v := by
  obtain ⟨hg, hdef, harg, -⟩ := good_new hbody h
  obtain ⟨analysis, -, h⟩ := bind_eq_ok.1 h
  cases h
  refine ⟨hg, fun a b hab => absurd hab (by simp), ⟨?_, fun a b w _ hb => by simp at hb⟩, nofun,
    fun a ha => .alloc ha⟩
  exact FxHashMap.filled_empty

end

end UseDefVisitor

end Tortis
