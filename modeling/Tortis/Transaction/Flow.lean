import Tortis.Transaction.UseDef
import Mathlib.Algebra.Order.BigOperators.Group.List
import Mathlib.Algebra.Order.Ring.Nat

/-!
# Value flow

What the use-def analysis can record, read off the bodies alone. `Flow` relates a vertex to the
vertices its value flows to: the destination of a use, a field of a closure, or an occurrence of the
argument in a called function. `Borrows` relates it to its borrows, where the analysis stops.
`Retraced` relates it to the vertices a called function traces whether or not they are visited
already.
-/

namespace Tortis

open UseDefVisitor Bool Statement Outcome

/-! ## Uses that are looked at -/

/-- The kinds of the uses `trace` looks at: a call of a function of another crate ends the loop. -/
def visibleUses (tcx : TyCtxt) (body : Body) (useId : UniqueId) : List Use → List (Location × UseKind)
  | [] => []
  | use :: uses =>
    match locationToUseKind tcx use.location useId body with
    | .ok (some (.function l defId argIndex)) =>
      if defId.krate ≠ LOCAL_CRATE then []
      else (use.location, .function l defId argIndex) :: visibleUses tcx body useId uses
    | .ok (some kind) => (use.location, kind) :: visibleUses tcx body useId uses
    | .ok none => visibleUses tcx body useId uses
    | .error _ => []

/-- The kinds of the uses `trace` looks at are told. -/
def Scanned (tcx : TyCtxt) (body : Body) (useId : UniqueId) : List Use → Prop
  | [] => True
  | use :: uses =>
    match locationToUseKind tcx use.location useId body with
    | .ok (some (.function _ defId _)) => defId.krate ≠ LOCAL_CRATE ∨ Scanned tcx body useId uses
    | .ok _ => Scanned tcx body useId uses
    | .error _ => False

/-- The non-mutating uses of a local. -/
def nonmutatingUses (body : Body) (l : Local) : List Use :=
  (DefUseAnalysis.usesOf body l).filter (·.context.isNonmutatingUse)

/-- At the location `loc`, the analysis sees the vertex used as `kind`. -/
def Sees (tcx : TyCtxt) (id : UniqueId) (loc : Location) (kind : UseKind) : Prop :=
  ∃ body, tcx.bodies.get id.defId = some body ∧
    (loc, kind) ∈ visibleUses tcx body id (nonmutatingUses body id.localId)

/-- The operand of a closure captures the vertex. -/
def Captures (id : UniqueId) (operand : Operand) : Prop :=
  getLocal operand = some id.localId ∨
    ∃ useField projection, id.field = some useField ∧
      operand = .move ⟨.loc id.localId, projection⟩ ∧ .field useField ∈ projection

/-- The index of the argument a called function follows. -/
def followedArg (id : UniqueId) (argIndex : Nat) : Nat :=
  match id.field with
  | some _ => 0
  | none => argIndex

/-- The vertex is an occurrence, in a statement of the function, of the argument followed. -/
def IsArgOf (tcx : TyCtxt) (fn : DefId) (argIndex : Nat) (field : Option Nat) (id : UniqueId) :
    Prop :=
  ∃ body data bb context, tcx.bodies.get fn = some body ∧ (data, bb) ∈ body.basicBlocks.zipIdx ∧
    (id.localId, context, id.location) ∈ data.statementLocals bb ∧
    body.localKind id.localId = .arg ∧ argIndex = id.localId - 1 ∧
    id.defId = fn ∧ id.field = field

/-- The vertex is an allocation of the function. -/
def IsAllocOf (tcx : TyCtxt) (fn : DefId) (id : UniqueId) : Prop :=
  ∃ body data func args dest cleanup, tcx.bodies.get fn = some body ∧
    (data, id.location.block) ∈ body.basicBlocks.zipIdx ∧
    data.terminator = some (.call func args dest cleanup) ∧
    isAllocation (tcx.funcName func) ∧ localFromDest dest = some id.localId ∧
    id.location.statementIndex = data.statements.length ∧ id.defId = fn ∧ id.field = none

variable {tcx : TyCtxt} {argIndex : Nat}

theorem IsArgOf.defId_eq {fn : DefId} {field : Option Nat}
    {id : UniqueId} : IsArgOf tcx fn argIndex field id → id.defId = fn
  | ⟨_, _, _, _, _, _, _, _, _, hd, _⟩ => hd

theorem IsAllocOf.defId_eq {fn : DefId} {id : UniqueId} : IsAllocOf tcx fn id → id.defId = fn
  | ⟨_, _, _, _, _, _, _, _, _, _, _, _, hd, _⟩ => hd

/-- The value of a vertex flows to another vertex. -/
inductive Flow (tcx : TyCtxt) : UniqueId → UniqueId → Prop
  | loc {id loc l} : Sees tcx id loc (.loc l) → Flow tcx id ⟨id.defId, l, loc, none⟩
  | closure {id loc l ops op i} : Sees tcx id loc (.closureArg l ops) → (op, i) ∈ ops.zipIdx →
      Captures id op → Flow tcx id ⟨id.defId, l, loc, some i⟩
  | arg {id loc l fn i id'} : Sees tcx id loc (.function l fn i) →
      IsArgOf tcx fn (followedArg id i) id.field id' → Flow tcx id id'

/-- The value of a vertex is borrowed, for a write or for a read. -/
inductive Borrows (tcx : TyCtxt) : UniqueId → UniqueId → Bool → Prop
  | read {id loc l} : Sees tcx id loc (.read l) → Borrows tcx id ⟨id.defId, l, loc, none⟩ false
  | write {id loc l} : Sees tcx id loc (.write l) → Borrows tcx id ⟨id.defId, l, loc, none⟩ true

theorem Borrows.defId_eq {a b : UniqueId} {w : Bool} (h : Borrows tcx a b w) :
    b.defId = a.defId := by
  cases h <;> rfl

/-- The edges the analysis records. -/
def Leads (tcx : TyCtxt) (id id' : UniqueId) : Prop :=
  Flow tcx id id' ∨ ∃ isWrite, Borrows tcx id id' isWrite

/-- A function that is called with the value of the first vertex traces the second one whether or
not it is visited. -/
inductive Retraced (tcx : TyCtxt) : UniqueId → UniqueId → Prop
  | arg {id loc l fn i id'} : Sees tcx id loc (.function l fn i) →
      IsArgOf tcx fn (followedArg id i) id.field id' → Retraced tcx id id'
  | alloc {id loc l fn i id'} : Sees tcx id loc (.function l fn i) → IsAllocOf tcx fn id' →
      Retraced tcx id id'

/-- The vertices the analysis of a body can come to. -/
inductive Reached (tcx : TyCtxt) (root : DefId) : UniqueId → Prop
  | alloc {id} : IsAllocOf tcx root id → Reached tcx root id
  | flow {id id'} : Reached tcx root id → Flow tcx id id' → Reached tcx root id'
  | retraced {id id'} : Reached tcx root id → Retraced tcx id id' → Reached tcx root id'

/-! ## Finitely many vertices -/

/-- The number of operands of the aggregate a statement builds. -/
def Statement.opCount : Statement → Nat
  | .assign _ (.aggregate _ ops) => ops.length
  | _ => 0

def TyCtxt.fieldBound (tcx : TyCtxt) : Nat :=
  (tcx.bodies.values.map fun body =>
    (body.basicBlocks.map fun data => (data.statements.map opCount).sum).sum).sum

def TyCtxt.vertexSet (tcx : TyCtxt) : Finset UniqueId :=
  (tcx.bodies.entries.flatMap fun e => e.2.occurrences.flatMap fun occ =>
    (none :: (List.range tcx.fieldBound).map some).map fun field =>
      (⟨e.1, occ.1, occ.2.2, field⟩ : UniqueId)).toFinset

variable {body : Body} {context : PlaceContext} {id id' : UniqueId} {loc : Location} {fn : DefId}

theorem mem_vertexSet (hbody : tcx.bodies.get id.defId = some body)
    (hocc : (id.localId, context, id.location) ∈ body.occurrences)
    (hfield : ∀ i ∈ id.field, i < tcx.fieldBound) : id ∈ tcx.vertexSet := by
  rw [TyCtxt.vertexSet, List.mem_toFinset]
  refine List.mem_flatMap.2 ⟨⟨id.defId, body⟩, AList.mem_lookup_iff.1 hbody,
    List.mem_flatMap.2 ⟨_, hocc, List.mem_map.2 ⟨id.field, ?_, rfl⟩⟩⟩
  cases hf : id.field with
  | none => exact .head _
  | some i => exact .tail _ (List.mem_map.2 ⟨i, List.mem_range.2 (hfield i hf), rfl⟩)

theorem mem_locals_of_localOrDerefLocal {p : Place} {l : Local} (h : p.localOrDerefLocal = some l)
    (context : PlaceContext) : ∃ context', (l, context') ∈ p.locals context := by
  unfold Place.localOrDerefLocal at h
  split at h
  · cases h
    exact ⟨_, .head _⟩
  · cases h
    exact ⟨_, .head _⟩
  · cases h

theorem mem_locals_of_dest {func : Operand} {args : List Operand}
    {dest : Option (Place × BasicBlock)} {cleanup : Option BasicBlock} {l : Local}
    (h : localFromDest dest = some l) :
    ∃ context, (l, context) ∈ (Terminator.call func args dest cleanup).locals := by
  obtain _ | ⟨p, bb⟩ := dest
  · cases h
  · obtain ⟨context, hmem⟩ := mem_locals_of_localOrDerefLocal h (.mutatingUse .call)
    exact ⟨context, List.mem_append_right _ hmem⟩

variable {data : BasicBlockData} {term : Terminator}

theorem mem_occurrences_of_terminator {bb : BasicBlock} {l : Local}
    (hdata : (data, bb) ∈ body.basicBlocks.zipIdx) (hterm : data.terminator = some term)
    (hl : (l, context) ∈ term.locals) :
    (l, context, ⟨bb, data.statements.length⟩) ∈ body.occurrences := by
  refine List.mem_flatMap.2 ⟨(data, bb), hdata, List.mem_append_right _ ?_⟩
  refine List.mem_map.2 ⟨(l, context), ?_, rfl⟩
  rw [hterm]
  exact hl

variable {stmt : Statement}

theorem mem_occurrences_of_statement {bb : BasicBlock} {i : Nat} {l : Local}
    (hdata : (data, bb) ∈ body.basicBlocks.zipIdx) (hstmt : (stmt, i) ∈ data.statements.zipIdx)
    (hl : (l, context) ∈ stmt.locals) : (l, context, ⟨bb, i⟩) ∈ body.occurrences :=
  List.mem_flatMap.2 ⟨(data, bb), hdata, List.mem_append_left _
    (List.mem_flatMap.2 ⟨(stmt, i), hstmt, List.mem_map.2 ⟨(l, context), hl, rfl⟩⟩)⟩

def UseKind.dest : UseKind → Local
  | .function l _ _ | .loc l | .closureArg l _ | .read l | .write l => l

variable {kind : UseKind}

/-- The destination of an assignment that is a use occurs in it, and the operands of a closure are
counted. -/
theorem statementUseKind_spec (h : statementUseKind id stmt = some kind) :
    (∃ context, (kind.dest, context) ∈ stmt.locals) ∧
      ∀ l ops, kind = .closureArg l ops → ops.length = stmt.opCount := by
  unfold statementUseKind at h
  split at h
  · next place rvalue =>
    split at h
    · cases h
    · next l hl =>
      obtain ⟨context, hmem⟩ := mem_locals_of_localOrDerefLocal hl (.mutatingUse .store)
      have hocc : (l, context) ∈ (assign place rvalue).locals := List.mem_append_left _ hmem
      split at h
      · split at h
        · split at h <;> cases h
          exact ⟨⟨context, hocc⟩, nofun⟩
        · split at h <;> cases h
          exact ⟨⟨context, hocc⟩, nofun⟩
        · cases h
          exact ⟨⟨context, hocc⟩, fun _ _ h => by cases h; rfl⟩
        · cases h
      · split at h
        · cases h
          exact ⟨⟨context, hocc⟩, fun _ _ h => by cases h; rfl⟩
        · cases h
          exact ⟨⟨context, hocc⟩, nofun⟩
  · cases h

theorem terminatorUseKind_spec (h : terminatorUseKind tcx id term = .ok (some kind)) :
    (∃ func args dest cleanup, term = .call func args dest cleanup ∧
      localFromDest dest = some kind.dest) ∧ ∀ l ops, kind ≠ .closureArg l ops := by
  have dest : ∀ {func args dest cleanup} {k : Local → UseKind},
      (∀ l, (k l).dest = l) → (∀ l l' ops, k l ≠ .closureArg l' ops) →
      (do let l ← unwrap (localFromDest dest); return some (k l)) = Except.ok (some kind) →
      (∃ func' args' dest' cleanup', Terminator.call func args dest cleanup =
        .call func' args' dest' cleanup' ∧ localFromDest dest' = some kind.dest) ∧
        ∀ l ops, kind ≠ .closureArg l ops := by
    intro func args dest cleanup k hk hne h
    obtain ⟨l, hl, h⟩ := bind_eq_ok.1 h
    cases h
    rw [hk]
    exact ⟨⟨func, args, dest, cleanup, rfl, unwrap_eq_ok.1 hl⟩, hne l⟩
  unfold terminatorUseKind at h
  split at h
  · next func args destination cleanup =>
    simp only at h
    split at h
    · exact dest (k := .read) (fun _ => rfl) (fun _ _ _ => nofun) h
    · split at h
      · exact dest (k := .write) (fun _ => rfl) (fun _ _ _ => nofun) h
      · split at h
        · exact dest (k := .loc) (fun _ => rfl) (fun _ _ _ => nofun) h
        · split at h
          · unfold functionUseKind at h
            split at h
            · exact dest (k := fun l => .function l _ _) (fun _ => rfl) (fun _ _ _ => nofun) h
            · split at h
              · exact dest (k := fun l => .function l _ _) (fun _ => rfl) (fun _ _ _ => nofun) h
              · cases h
          · cases h
  · cases h

/-- What a use of a location is: its destination occurs there, and the operands of a closure are
counted. -/
theorem locationToUseKind_spec (h : locationToUseKind tcx loc id body = .ok (some kind)) :
    (∃ context, (kind.dest, context, loc) ∈ body.occurrences) ∧
      ∀ l ops, kind = .closureArg l ops → ∃ data ∈ body.basicBlocks, ∃ stmt ∈ data.statements,
        ops.length = stmt.opCount := by
  unfold locationToUseKind at h
  split at h
  · cases h
  · next data hdata =>
    have hmem : (data, loc.block) ∈ body.basicBlocks.zipIdx :=
      List.mk_mem_zipIdx_iff_getElem?.2 hdata
    split at h
    · next stmt hstmt =>
      obtain ⟨⟨context, hocc⟩, hops⟩ := statementUseKind_spec (Except.ok.inj h)
      refine ⟨⟨context, mem_occurrences_of_statement hmem
        (List.mk_mem_zipIdx_iff_getElem?.2 hstmt) hocc⟩, fun l ops hk => ?_⟩
      exact ⟨data, List.mem_of_getElem? hdata, stmt, List.mem_of_getElem? hstmt, hops l ops hk⟩
    · next hnone =>
      split at h
      · cases h
      · next hle =>
        obtain ⟨term, hterm, h⟩ := bind_eq_ok.1 h
        obtain ⟨⟨func, args, dest, cleanup, rfl, hdest⟩, hops⟩ := terminatorUseKind_spec h
        obtain ⟨context, hocc⟩ := @mem_locals_of_dest func args dest cleanup _ hdest
        have hidx : loc.statementIndex = data.statements.length := by
          have := List.getElem?_eq_none_iff.1 hnone
          omega
        refine ⟨⟨context, ?_⟩, fun l ops hk => absurd hk (hops l ops)⟩
        have := mem_occurrences_of_terminator hmem (unwrap_eq_ok.1 hterm) hocc
        rwa [← hidx] at this

theorem mem_visibleUses : ∀ {uses : List Use}, (loc, kind) ∈ visibleUses tcx body id uses →
      locationToUseKind tcx loc id body = .ok (some kind) ∧
        ∀ l fn i, kind = .function l fn i → fn.krate = LOCAL_CRATE
  | [], h => by cases h
  | use :: uses, h => by
    unfold visibleUses at h
    split at h
    · next l fn i hkind =>
      split at h
      · cases h
      · next hloc =>
        rcases List.mem_cons.1 h with h | h
        · cases h
          exact ⟨hkind, fun _ _ _ h => by cases h; simpa using hloc⟩
        · exact mem_visibleUses h
    · next kind' hne hkind =>
      rcases List.mem_cons.1 h with h | h
      · cases h
        exact ⟨hkind, fun l fn i h => absurd h (hne l fn i)⟩
      · exact mem_visibleUses h
    · exact mem_visibleUses h
    · cases h

/-- The vertex is a vertex of the crate: a local that occurs at its location, with a field in the
bound. -/
def InCrate (tcx : TyCtxt) (id : UniqueId) : Prop :=
  ∃ body context, tcx.bodies.get id.defId = some body ∧
    (id.localId, context, id.location) ∈ body.occurrences ∧ ∀ i ∈ id.field, i < tcx.fieldBound

theorem InCrate.mem_vertexSet (h : InCrate tcx id) : id ∈ tcx.vertexSet := by
  obtain ⟨body, context, hbody, hocc, hfield⟩ := h
  exact Tortis.mem_vertexSet hbody hocc hfield

theorem IsAllocOf.inCrate (h : IsAllocOf tcx fn id) : InCrate tcx id := by
  obtain ⟨body, data, func, args, dest, cleanup, hbody, hdata, hterm, -, hl, hidx, rfl, hfield⟩ := h
  obtain ⟨context, hmem⟩ := @mem_locals_of_dest func args dest cleanup _ hl
  refine ⟨body, context, hbody, ?_, by simp [hfield]⟩
  have := mem_occurrences_of_terminator hdata hterm hmem
  rwa [← hidx] at this

theorem IsArgOf.inCrate {field : Option Nat} (h : IsArgOf tcx fn argIndex field id)
    (hfield : ∀ i ∈ field, i < tcx.fieldBound) : InCrate tcx id := by
  obtain ⟨body, data, bb, context, hbody, hdata, hmem, -, -, rfl, rfl⟩ := h
  exact ⟨body, context, hbody, List.mem_flatMap.2 ⟨(data, bb), hdata, List.mem_append_left _ hmem⟩,
    hfield⟩

theorem opCount_le_fieldBound
    (hbody : tcx.bodies.get fn = some body) (hdata : data ∈ body.basicBlocks) (hstmt : stmt ∈ data.statements) : stmt.opCount ≤ tcx.fieldBound := by
  have h1 : stmt.opCount ≤ (data.statements.map opCount).sum :=
    List.le_sum_of_mem (List.mem_map_of_mem hstmt)
  have h2 : (data.statements.map opCount).sum ≤
      (body.basicBlocks.map fun data => (data.statements.map opCount).sum).sum :=
    List.le_sum_of_mem (List.mem_map.2 ⟨data, hdata, rfl⟩)
  have h3 : (body.basicBlocks.map fun data => (data.statements.map opCount).sum).sum ≤
      tcx.fieldBound :=
    List.le_sum_of_mem (List.mem_map.2 ⟨body, FxHashMap.mem_values_iff.2 ⟨fn, hbody⟩, rfl⟩)
  exact h1.trans (h2.trans h3)

theorem Sees.unique {kind' : UseKind}
    (h : Sees tcx id loc kind) (h' : Sees tcx id loc kind') : kind = kind' := by
  obtain ⟨body, hbody, hmem⟩ := h
  obtain ⟨body', hbody', hmem'⟩ := h'
  rw [hbody] at hbody'
  cases hbody'
  have heq := (mem_visibleUses hmem).1.symm.trans (mem_visibleUses hmem').1
  exact Option.some.inj (Except.ok.inj heq)

theorem Sees.inCrate (h : Sees tcx id loc kind) : InCrate tcx ⟨id.defId, kind.dest, loc, none⟩ := by
  obtain ⟨body, hbody, hmem⟩ := h
  obtain ⟨⟨context, hocc⟩, -⟩ := locationToUseKind_spec (mem_visibleUses hmem).1
  exact ⟨body, context, hbody, hocc, by simp⟩

theorem Flow.inCrate (h : Flow tcx id id')
    (hid : ∀ i ∈ id.field, i < tcx.fieldBound) : InCrate tcx id' := by
  cases h with
  | loc h => exact h.inCrate
  | @closure loc l ops op i h hop _ =>
    obtain ⟨body, context, hbody, hocc, -⟩ := h.inCrate
    refine ⟨body, context, hbody, hocc, ?_⟩
    obtain ⟨body', hbody', hmem⟩ := h
    obtain ⟨data, hdata, stmt, hstmt, hlen⟩ :=
      (locationToUseKind_spec (mem_visibleUses hmem).1).2 l ops rfl
    rintro j ⟨rfl⟩
    have hi := List.mem_zipIdx hop
    have := opCount_le_fieldBound hbody' hdata hstmt
    omega
  | arg _ h => exact h.inCrate hid

theorem Reached.inCrate {root : DefId} (h : Reached tcx root id) : InCrate tcx id := by
  induction h with
  | alloc h => exact h.inCrate
  | flow _ hflow ih => exact hflow.inCrate ih.choose_spec.choose_spec.2.2
  | retraced _ hre ih =>
    cases hre with
    | arg _ h => exact h.inCrate ih.choose_spec.choose_spec.2.2
    | alloc _ h => exact h.inCrate

def UseKind.isBorrow : UseKind → Bool
  | .read _ | .write _ => true
  | _ => false

/-- The location is that of a call of a function that borrows. -/
def BorrowsAt (tcx : TyCtxt) (body : Body) (loc : Location) : Prop :=
  ∃ data func args dest cleanup, body.basicBlocks[loc.block]? = some data ∧
    loc.statementIndex = data.statements.length ∧
    data.terminator = some (.call func args dest cleanup) ∧ isBorrow (tcx.funcName func)

theorem terminatorUseKind_isBorrow {func : Operand}
    {args : List Operand} {dest : Option (Place × BasicBlock)} {cleanup : Option BasicBlock} (h : terminatorUseKind tcx id (.call func args dest cleanup) = .ok (some kind)) :
    kind.isBorrow = isBorrow (tcx.funcName func) := by
  have dest : ∀ {k : Local → UseKind} {b : Bool}, (∀ l, (k l).isBorrow = b) →
      (do let l ← unwrap (localFromDest dest); return some (k l)) = Except.ok (some kind) →
      kind.isBorrow = b := by
    intro k b hk h
    obtain ⟨l, -, h⟩ := bind_eq_ok.1 h
    cases h
    exact hk l
  unfold isBorrow
  unfold terminatorUseKind at h
  simp only at h
  split at h
  · next hread =>
    rw [hread]
    exact dest (k := .read) (fun _ => rfl) h
  · next hread =>
    rw [not_eq_true] at hread
    rw [hread]
    split at h
    · next hwrite =>
      rw [Bool.false_or, hwrite]
      exact dest (k := .write) (fun _ => rfl) h
    · next hwrite =>
      rw [not_eq_true] at hwrite
      rw [Bool.false_or, hwrite]
      split at h
      · exact dest (k := .loc) (fun _ => rfl) h
      · split at h
        · unfold functionUseKind at h
          split at h
          · exact dest (k := fun l => .function l _ _) (fun _ => rfl) h
          · split at h
            · exact dest (k := fun l => .function l _ _) (fun _ => rfl) h
            · cases h
        · cases h

theorem isBorrow_iff (h : locationToUseKind tcx loc id body = .ok (some kind)) :
    kind.isBorrow ↔ BorrowsAt tcx body loc := by
  unfold locationToUseKind at h
  split at h
  · cases h
  · next data hdata =>
    split at h
    · next stmt hstmt =>
      have hkind : kind.isBorrow = false := by
        have h := Except.ok.inj h
        unfold statementUseKind at h
        grind [UseKind.isBorrow]
      have hlt := (getElem?_eq_some_iff.1 hstmt).1
      rw [hkind]
      refine ⟨nofun, ?_⟩
      rintro ⟨data', -, -, -, -, hdata', hidx, -⟩
      rw [hdata] at hdata'
      cases hdata'
      omega
    · next hnone =>
      split at h
      · cases h
      · next hle =>
        have hidx : loc.statementIndex = data.statements.length := by
          have := List.getElem?_eq_none_iff.1 hnone
          omega
        obtain ⟨term, hterm, h⟩ := bind_eq_ok.1 h
        have hterm := unwrap_eq_ok.1 hterm
        have hcall : ∃ func args dest cleanup, term = .call func args dest cleanup := by
          cases term <;> first | exact ⟨_, _, _, _, rfl⟩ | cases h
        obtain ⟨func, args, dest, cleanup, rfl⟩ := hcall
        rw [terminatorUseKind_isBorrow h]
        refine ⟨fun hb => ⟨data, func, args, dest, cleanup, hdata, hidx, hterm, hb⟩, ?_⟩
        rintro ⟨data', _, _, _, _, hdata', -, hterm', hb⟩
        rw [hdata] at hdata'
        cases hdata'
        rw [hterm] at hterm'
        cases hterm'
        exact hb

theorem locationToUseKind_terminator (hdata : body.basicBlocks[loc.block]? = some data)
    (hidx : loc.statementIndex = data.statements.length) (hterm : data.terminator = some term) :
    locationToUseKind tcx loc id body = terminatorUseKind tcx id term := by
  have hstmt : data.statements[data.statements.length]? = none := List.getElem?_eq_none le_rfl
  unfold locationToUseKind
  simp only [hdata, hstmt, hterm, hidx, gt_iff_lt, lt_irrefl, if_false, unwrap_some,
    ok_bind]

theorem BorrowsAt.locationToUseKind_eq (h : BorrowsAt tcx body loc) (id id' : UniqueId) :
    locationToUseKind tcx loc id body = locationToUseKind tcx loc id' body := by
  obtain ⟨data, func, args, dest, cleanup, hdata, hidx, hterm, hb⟩ := h
  rw [locationToUseKind_terminator hdata hidx hterm, locationToUseKind_terminator hdata hidx hterm]
  unfold isBorrow at hb
  unfold terminatorUseKind
  simp only
  split
  · rfl
  · next hread =>
    rw [not_eq_true] at hread
    rw [hread, Bool.false_or] at hb
    simp only [hb, if_true]

theorem Borrows.unique {a a' b : UniqueId} {w w' : Bool} (h : Borrows tcx a b w)
    (h' : Borrows tcx a' b w') : w = w' := by
  have kind : ∀ {a w}, Borrows tcx a b w → ∃ body, tcx.bodies.get b.defId = some body ∧
      BorrowsAt tcx body b.location ∧ ∃ l, locationToUseKind tcx b.location a body =
        .ok (some (if w then .write l else .read l)) := by
    intro a w h
    cases h with
    | read hs =>
      obtain ⟨body, hbody, hmem⟩ := hs
      have hkind := (mem_visibleUses hmem).1
      exact ⟨body, hbody, (isBorrow_iff hkind).1 rfl, _, hkind⟩
    | write hs =>
      obtain ⟨body, hbody, hmem⟩ := hs
      have hkind := (mem_visibleUses hmem).1
      exact ⟨body, hbody, (isBorrow_iff hkind).1 rfl, _, hkind⟩
  obtain ⟨body, hbody, hat, l, hl⟩ := kind h
  obtain ⟨body', hbody', -, l', hl'⟩ := kind h'
  rw [hbody] at hbody'
  cases hbody'
  rw [hat.locationToUseKind_eq a a', hl'] at hl
  cases w <;> cases w' <;> simp at hl ⊢

theorem Reached.not_borrows {root : DefId} {isWrite : Bool}
    (h : Reached tcx root id') : ¬ Borrows tcx id id' isWrite := by
  intro hb
  obtain ⟨body, hbody, hat, hnone⟩ : ∃ body, tcx.bodies.get id'.defId = some body ∧
      BorrowsAt tcx body id'.location ∧ id'.field = none := by
    cases hb with
    | read hs =>
      obtain ⟨body, hbody, hmem⟩ := hs
      exact ⟨body, hbody, (isBorrow_iff (mem_visibleUses hmem).1).1 rfl, rfl⟩
    | write hs =>
      obtain ⟨body, hbody, hmem⟩ := hs
      exact ⟨body, hbody, (isBorrow_iff (mem_visibleUses hmem).1).1 rfl, rfl⟩
  have harg : ∀ {fn i field}, ¬ IsArgOf tcx fn i field id' := by
    rintro fn i field ⟨body', data, bb, context, hbody', hdata, hmem, -, -, rfl, -⟩
    obtain ⟨data', -, -, -, -, hdata', hidx, -⟩ := hat
    rw [hbody] at hbody'
    cases hbody'
    obtain ⟨hblock, hlt⟩ := BasicBlockData.location_of_mem_statementLocals hmem
    dsimp only at hblock hlt
    rw [hblock, List.mk_mem_zipIdx_iff_getElem?.1 hdata] at hdata'
    cases hdata'
    omega
  have halloc : ∀ {fn}, ¬ IsAllocOf tcx fn id' := by
    rintro fn ⟨body', data, func, args, dest, cleanup, hbody', hdata, hterm, halloc, -, -, rfl, -⟩
    obtain ⟨data', _, _, _, _, hdata', -, hterm', hb⟩ := hat
    rw [hbody] at hbody'
    cases hbody'
    rw [List.mk_mem_zipIdx_iff_getElem?.1 hdata] at hdata'
    cases hdata'
    rw [hterm] at hterm'
    cases hterm'
    rw [isAllocation_of_isBorrow hb] at halloc
    cases halloc
  cases h with
  | alloc h => exact halloc h
  | retraced _ h =>
    cases h with
    | arg _ h => exact harg h
    | alloc _ h => exact halloc h
  | flow _ h =>
    cases h with
    | loc h =>
      obtain ⟨body', hbody', hmem⟩ := h
      rw [hbody] at hbody'
      cases hbody'
      exact nomatch (isBorrow_iff (mem_visibleUses hmem).1).2 hat
    | closure => cases hnone
    | arg _ h => exact harg h

/-! ## The vertices a vertex leads to -/

/-- The occurrences of the argument followed, as a list. -/
def argsOf (tcx : TyCtxt) (fn : DefId) (argIndex : Nat) (field : Option Nat) : List UniqueId :=
  match tcx.bodies.get fn with
  | none => []
  | some body => body.basicBlocks.zipIdx.flatMap fun block =>
    ((block.1.statementLocals block.2).filter fun occ =>
      body.localKind occ.1 = .arg ∧ argIndex = occ.1 - 1).map fun occ => ⟨fn, occ.1, occ.2.2, field⟩

theorem IsArgOf.mem {field : Option Nat}
    (h : IsArgOf tcx fn argIndex field id) : id ∈ argsOf tcx fn argIndex field := by
  obtain ⟨body, data, bb, context, hbody, hdata, hmem, hkind, hidx, rfl, rfl⟩ := h
  rw [argsOf, hbody]
  refine List.mem_flatMap.2 ⟨(data, bb), hdata, List.mem_map.2 ⟨_, List.mem_filter.2 ⟨hmem, ?_⟩, rfl⟩⟩
  simp [hkind, hidx]

/-- The allocations of a function, as a list. -/
def allocsOf (tcx : TyCtxt) (fn : DefId) : List UniqueId :=
  match tcx.bodies.get fn with
  | none => []
  | some body => body.basicBlocks.zipIdx.filterMap fun block =>
    match block.1.terminator with
    | some (.call func _ dest _) =>
      if isAllocation (tcx.funcName func) then
        (localFromDest dest).map fun l => ⟨fn, l, ⟨block.2, block.1.statements.length⟩, none⟩
      else none
    | _ => none

theorem IsAllocOf.mem (h : IsAllocOf tcx fn id) : id ∈ allocsOf tcx fn := by
  obtain ⟨body, data, func, args, dest, cleanup, hbody, hdata, hterm, halloc, hl, hidx, rfl, hf⟩ := h
  rw [allocsOf, hbody]
  refine List.mem_filterMap.2 ⟨_, hdata, ?_⟩
  simp only [hterm, halloc, if_true, hl, ← hidx, Option.map_some, ← hf]

/-- The vertices a use leads to, by the value or by a call that retraces them. -/
def useTargets (tcx : TyCtxt) (id : UniqueId) (loc : Location) : UseKind → List UniqueId
  | .loc l => [⟨id.defId, l, loc, none⟩]
  | .read _ | .write _ => []
  | .closureArg l ops => ops.zipIdx.map fun op => ⟨id.defId, l, loc, some op.2⟩
  | .function _ fn i => argsOf tcx fn (followedArg id i) id.field ++ allocsOf tcx fn

def nextVertices (tcx : TyCtxt) (id : UniqueId) : List UniqueId :=
  match tcx.bodies.get id.defId with
  | none => []
  | some body => (visibleUses tcx body id (nonmutatingUses body id.localId)).flatMap fun use =>
    useTargets tcx id use.1 use.2

theorem Sees.mem_nextVertices (h : Sees tcx id loc kind)
    (h' : id' ∈ useTargets tcx id loc kind) : id' ∈ nextVertices tcx id := by
  obtain ⟨body, hbody, hmem⟩ := h
  rw [nextVertices, hbody]
  exact List.mem_flatMap.2 ⟨_, hmem, h'⟩

theorem Flow.mem (h : Flow tcx id id') : id' ∈ nextVertices tcx id := by
  cases h with
  | loc h => exact h.mem_nextVertices (.head _)
  | closure h hop _ => exact h.mem_nextVertices (List.mem_map.2 ⟨_, hop, rfl⟩)
  | arg h harg => exact h.mem_nextVertices (List.mem_append_left _ harg.mem)

theorem Retraced.mem (h : Retraced tcx id id') : id' ∈ nextVertices tcx id := by
  cases h with
  | arg h harg => exact h.mem_nextVertices (List.mem_append_left _ harg.mem)
  | alloc h halloc => exact h.mem_nextVertices (List.mem_append_right _ halloc.mem)

end Tortis
