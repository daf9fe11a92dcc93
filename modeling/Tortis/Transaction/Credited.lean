import Tortis.Transaction.Credit

/-!
# What the analysis of a body is credited with

The allocation sets that `UseDefVisitor::perform` returns for a body, compared with what the body says
on its own: the borrows a local flow leads to, and the borrows of the functions that are called.
-/

namespace Tortis

open Outcome List Relation

namespace UseDefVisitor

section
variable {ord : IterOrder} {tcx : TyCtxt} {root : DefId}

/-! ## The body that is analysed -/

/-- No allocation of an earlier block flows to the vertex in the body. -/
def FirstFlow (tcx : TyCtxt) (root : DefId) (A x : UniqueId) : Prop :=
  ∀ A', IsAllocOf tcx root A' → A'.location.block < A.location.block →
    ¬ ReflTransGen (Inside tcx) A' x

variable {A x : UniqueId}

theorem reached_inside (hA : IsAllocOf tcx root A)
    (h : ReflTransGen (Inside tcx) A x) : Reached tcx root x ∧ x.defId = root := by
  induction h with
  | refl => exact ⟨.alloc hA, hA.defId_eq⟩
  | tail _ hxy ih => exact ⟨ih.1.flow hxy.flow.1, hxy.flow.2.trans ih.2⟩

variable {v : UseDefVisitor}

theorem marked_inside (hA : IsAllocOf tcx root A)
    (hmem : A ∈ v.vertices) (hs : ∀ y ∈ v.vertices, Settled tcx v y)
    (h : ReflTransGen (Inside tcx) A x) : x ∈ v.vertices := by
  induction h with
  | refl => exact hmem
  | tail hy hyz ih =>
    rcases hs _ ih with ht | ⟨a, w, hb⟩
    · exact ht.marked _ _ _ hyz
    · exact absurd hb (reached_inside hA hy).1.not_borrows

/-- What is known of an allocation of the body once it is traced. -/
structure RootCredit (ord : IterOrder) (tcx : TyCtxt) (root : DefId)
    (txOf : UniqueId → Option (UniqueId × UniqueId)) (A : UniqueId) (v : UseDefVisitor) : Prop where
  flow : FlowCredit tcx txOf A A v
  args : ¬ TransGen (Calls tcx root) root root → ∀ x,
    ReflTransGen (Inside tcx) A x → FirstFlow tcx root A x →
    ∀ loc p, ArgCredit ord tcx root txOf A x loc p v
  scanned : ∀ x, ReflTransGen (Inside tcx) A x → ∀ body, tcx.bodies.get root = some body →
    Scanned tcx body x (nonmutatingUses body x.localId)

theorem RootCredit.mono {txOf : UniqueId → Option (UniqueId × UniqueId)} {v v' : UseDefVisitor}
    (h : ∀ tx use, v.allocationSet.Rel tx use → v'.allocationSet.Rel tx use)
    (hA : RootCredit ord tcx root txOf A v) : RootCredit ord tcx root txOf A v' :=
  ⟨hA.flow.mono h, fun hquiet x hx hfirst loc p => (hA.args hquiet x hx hfirst loc p).mono h,
    hA.scanned⟩

/-- The vertices of the body that are marked are borrows, or the allocations of the blocks that are
done flow to them. -/
def FlowsFrom (tcx : TyCtxt) (root : DefId) (pre : List (BasicBlockData × BasicBlock))
    (v : UseDefVisitor) : Prop :=
  ∀ x ∈ v.vertices, x.defId = root → (∃ a w, Borrows tcx a x w) ∨
    ∃ A, IsAllocOf tcx root A ∧ StartsIn pre A ∧ ReflTransGen (Inside tcx) A x

theorem FlowsFrom.mono {pre pre' : List (BasicBlockData × BasicBlock)}
    (h : FlowsFrom tcx root pre v) (hpre : ∀ e ∈ pre, e ∈ pre') : FlowsFrom tcx root pre' v := by
  intro x hx hd
  rcases h x hx hd with hb | ⟨A, hA, ⟨e, he, hblock⟩, hflow⟩
  · exact .inl hb
  · exact .inr ⟨A, hA, ⟨e, hpre e he, hblock⟩, hflow⟩

variable {tm : TransactionMap}

theorem alloc_credits {n : Nat} {v c : UseDefVisitor}
    (hvert : v.vertices = ∅) (hdef : v.defId = root)
    (hw : Walks tcx root { v with transactionMap := tm } c) (hA : IsAllocOf tcx root A)
    (hown : ∀ k t, k.defId = root → tm.terminatorToTx.get k = some t → Own tcx k t) :
    Runs (fun _ => True)
      (trace ord tcx n { c with currentAllocation := some A, vertices := c.vertices.insert A } A)
      (TraceCredits ord tcx root (fun k => tm.terminatorToTx.get k) A
        { c with currentAllocation := some A, vertices := c.vertices.insert A } A) := by
  have hr : Reached tcx root A := .alloc hA
  have hcdef : c.defId = root := hw.1.goes.2.defId.trans hdef
  refine trace_credits n _ A _ A ⟨?_, sane_visit hw.2.sane hr _, fun x hx hcalls => ?_, rfl,
    fun k t hk ht => ?_⟩
  · exact ready_alloc hw.1.goes.1 hw.1.closed hr (hA.defId_eq.trans hcdef.symm)
  · rcases FxHashSet.mem_insert.1 hx with rfl | hx
    · exact .inr ⟨hA.defId_eq.trans hcdef.symm, .refl⟩
    · rcases hw.1.settled x hx with h | h
      · rw [show ({ v with transactionMap := tm } : UseDefVisitor).vertices = ∅ from hvert] at h
        simp at h
      · have hl := later_visit c A (some A)
        exact .inl (Settled.mono hl.vertices hl.edges h)
  · have hk : k.defId = root := hk.trans hcdef
    exact ⟨hw.2.own k t (hown k t hk ht) ht, .inr (hown k t hk ht)⟩

variable {body : Body}

theorem perform_credits (hbody : tcx.bodies.get root = some body) {n : Nat}
    {sets : FxHashMap (UniqueId × UniqueId) (FxHashSet TransactionUse)}
    (h : (UseDefVisitor.new body root tcx >>= fun v => v.perform ord tcx n) = .ok sets)
    (htm : (TransactionMap.new root body tcx.langItems).perform ord = .ok tm) :
    ∃ v, sets = v.allocationSet ∧ ∀ A, IsAllocOf tcx root A →
      RootCredit ord tcx root (fun k => tm.terminatorToTx.get k) A v := by
  obtain ⟨v, hv, h⟩ := bind_eq_ok.1 h
  obtain ⟨v', hv', h⟩ := bind_eq_ok.1 h
  cases h
  obtain ⟨hg, hdef, harg, -⟩ := good_new hbody hv
  obtain ⟨hedges, hvert, htmv⟩ : v.edges = ∅ ∧ v.vertices = ∅ ∧
      v.transactionMap = TransactionMap.new root body tcx.langItems := by
    obtain ⟨analysis, -, hv⟩ := bind_eq_ok.1 hv
    cases hv
    exact ⟨rfl, rfl, rfl⟩
  have hown : ∀ k t, k.defId = root → tm.terminatorToTx.get k = some t → Own tcx k t := by
    intro k t hk ht ord' body' txIds txs tm' hbody' htm'
    rw [hk, hbody] at hbody'
    cases hbody'
    rw [hk] at htm'
    exact TransactionMap.perform_own htm htm' ht
  let Holds (pre : List (BasicBlockData × BasicBlock)) (c : UseDefVisitor) : Prop :=
    Walks tcx root { v with transactionMap := tm } c ∧
      (¬ TransGen (Calls tcx root) root root → FlowsFrom tcx root pre c)
  suffices hrun : Runs (fun _ => True) (v.performWith ord tcx (trace ord tcx n)) fun c =>
      Holds v.body.basicBlocks.zipIdx c ∧ ∀ via A, IsStart tcx v via A →
        RootCredit ord tcx root (fun k => tm.terminatorToTx.get k) A c by
    refine ⟨v', rfl, fun A hA => (hrun.post v' hv').2 .alloc A (.inl ⟨rfl, ?_⟩)⟩
    rwa [hdef]
  refine performWith_runs (R := Walks tcx root) (U := fun _ A c =>
    RootCredit ord tcx root (fun k => tm.terminatorToTx.get k) A c) (I := Holds) walks_progress
    (fun _ _ _ _ hw => RootCredit.mono hw.2.credits) hg.body ?_ ?_ (fun _ _ _ => trivial) ?_ ?_ ?_
    fun _ _ _ _ _ _ _ _ _ _ => trivial
  · rintro pre c ⟨hw, -⟩
    exact ⟨hw.1.goes.2.of_transactionMap, walks_progress.refl hw⟩
  · refine ⟨fun _ _ => trivial, fun tm' htm' => ?_⟩
    rw [htmv, htm] at htm'
    cases htm'
    refine ⟨⟨records_refl ⟨hg.body, hg.analysis, hg.edges, hg.arg⟩ fun a b hab => ?_,
      Sane.extends ⟨?_, fun a b w _ hmem => ?_⟩⟩, fun _ x hx => ?_⟩
    · exact absurd hab (by simp [hedges])
    · rw [show edges _ = ∅ from hedges]
      exact FxHashMap.filled_empty
    · simp [hvert] at hmem
    · simp [hvert] at hx
  · intro pre data bb post c a i p _ _ _ ha
    rw [harg] at ha
    cases ha
  · rintro pre data bb post c A hsplit ⟨hw, hflows⟩ hblock hA
    rw [hdef] at hA
    have hr : Reached tcx root A := .alloc hA
    have hcdef : c.defId = root := hw.1.goes.2.defId.trans hdef
    have hready := ready_alloc hw.1.goes.1 hw.1.closed hr (hA.defId_eq.trans hcdef.symm)
    refine ((trace_records n _ A hready).and (alloc_credits hvert hdef hw hA hown)).mono
      fun c' h' => ?_
    obtain ⟨htr, hcr⟩ := h'
    have hwalk := walks_alloc hw.1.goes.1 hw.2.sane hr (hA.defId_eq.trans hcdef.symm) htr
      hcr.credits.advances
    have hwalk' : Walks tcx root { v with transactionMap := tm }
        { c' with currentAllocation := none } := hw.trans hwalk
    have hsettled : ∀ y ∈ c'.vertices, Settled tcx { c' with currentAllocation := none } y := by
      intro y hy
      rcases hwalk'.1.settled y hy with h | h
      · rw [show ({ v with transactionMap := tm } : UseDefVisitor).vertices = ∅ from hvert] at h
        simp at h
      · exact h
    have hfresh : ¬ TransGen (Calls tcx root) root root → ∀ x ∈ c'.vertices, x.defId = root →
        x ∈ c.vertices ∨ (∃ a w, Borrows tcx a x w) ∨ (ReflTransGen (Inside tcx) A x ∧
          ∀ loc p, ArgCredit ord tcx root (fun k => tm.terminatorToTx.get k) A x loc p c') := by
      intro hquiet x hx hd
      rcases hcr.credits.fresh (by rwa [show defId _ = root from hcdef]) x hx
        (hd.trans hcdef.symm) with h | h
      · rcases FxHashSet.mem_insert.1 h with rfl | h
        · exact .inr (.inr ⟨.refl, hcr.args⟩)
        · exact .inl h
      · exact .inr h
    have hin : StartsIn (pre ++ [(data, bb)]) A := ⟨(data, bb), by simp, hblock⟩
    have hmem : A ∈ c'.vertices := htr.records.goes.2.vertices A hready.marked
    have hmarked : ∀ x, ReflTransGen (Inside tcx) A x → x ∈ c'.vertices := fun x hx =>
      marked_inside (v := { c' with currentAllocation := none }) hA hmem hsettled hx
    refine ⟨⟨hwalk', fun hquiet x hx hd => ?_⟩, hwalk, hcr.flow, fun hquiet x hx hfirst => ?_,
      fun x hx body hbody => ?_⟩
    · rcases hfresh hquiet x hx hd with h | h | ⟨h, -⟩
      · exact (hflows hquiet).mono (fun e he => mem_append_left _ he) x h hd
      · exact .inl h
      · exact .inr ⟨A, hA, hin, h⟩
    · obtain ⟨hrx, hdx⟩ := reached_inside hA hx
      rcases hfresh hquiet x (hmarked x hx) hdx with h | ⟨a, w, hb⟩ | ⟨-, h⟩
      · -- An allocation that flows to a vertex marked before stands in an earlier block.
        rcases hflows hquiet x h hdx with ⟨a, w, hb⟩ | ⟨A', hA', ⟨e, he, hA'e⟩, hflow⟩
        · exact absurd hb hrx.not_borrows
        · refine absurd hflow (hfirst A' hA' ?_)
          rw [hA'e, hblock]
          exact lt_of_mem_pre hsplit he
      · exact absurd hb hrx.not_borrows
      · exact h
    · obtain ⟨hrx, hdx⟩ := reached_inside hA hx
      rcases hsettled x (hmarked x hx) with ht | ⟨a, w, hb⟩
      · exact ht.scanned body (hdx ▸ hbody)
      · exact absurd hb hrx.not_borrows
  · rintro pre data bb post c - - ⟨hw, hflows⟩
    exact ⟨hw, fun hquiet => (hflows hquiet).mono fun e he => mem_append_left _ he⟩

/-! ## Borrows of the body itself -/

section
variable (tcx : TyCtxt)

section
variable (root : DefId)

section
variable (body : Body)

/-- The kind `location_to_use_kind` tells of a use of the local. -/
def kindAt (l : Local) (loc : Location) : Option UseKind :=
  (locationToUseKind tcx loc ⟨root, l, loc, none⟩ body).toOption.join

/-- The local is used at the location, without being changed. -/
def UsedAs (l : Local) (loc : Location) (kind : UseKind) : Prop :=
  (∃ use ∈ nonmutatingUses body l, use.location = loc) ∧ kindAt tcx root body l loc = some kind

/-- The value of a local flows to another one by one use. -/
def LocalFlow (l l' : Local) : Prop :=
  ∃ loc, UsedAs tcx root body l loc (.loc l')

def borrowKind (isWrite : Bool) (dest : Local) : UseKind :=
  if isWrite then .write dest else .read dest

/-- The sets lose no borrow of the body: every borrow of a local that an allocation flows to is
credited to the allocation, under the transaction the borrow is in. -/
def LosesNoBorrow (txOf : UniqueId → Option (UniqueId × UniqueId)) (A : UniqueId)
    (sets : FxHashMap (UniqueId × UniqueId) (FxHashSet TransactionUse)) : Prop :=
  ∀ l loc dest isWrite t, ReflTransGen (LocalFlow tcx root body) A.localId l →
    UsedAs tcx root body l loc (borrowKind isWrite dest) → txOf ⟨root, dest, loc, none⟩ = some t →
    sets.Rel t ⟨A, isWrite⟩

def callsOut : UseKind → Bool
  | .function _ fn _ => fn.krate ≠ LOCAL_CRATE
  | _ => false

def flowsOrBorrows : UseKind → Bool
  | .loc _ | .read _ | .write _ => true
  | _ => false

/-- Among the uses of the local, no flow and no borrow comes after a call of a function of another
crate. -/
def Unhidden (l : Local) : Prop :=
  (nonmutatingUses body l).Pairwise fun use use' =>
    ∀ kind ∈ kindAt tcx root body l use.location, ∀ kind' ∈ kindAt tcx root body l use'.location,
      callsOut kind → ¬ flowsOrBorrows kind'

end

end

end

instance (tcx : TyCtxt) (root : DefId) (body : Body) (l : Local) :
    Decidable (Unhidden tcx root body l) :=
  inferInstanceAs (Decidable (List.Pairwise _ _))

variable {loc : Location}

theorem locationToUseKind_congr {id id' : UniqueId}
    (hl : id.localId = id'.localId) (hf : id.field = id'.field) :
    locationToUseKind tcx loc id body = locationToUseKind tcx loc id' body := by
  have hstmt : ∀ stmt, statementUseKind id stmt = statementUseKind id' stmt := by
    intro stmt
    simp only [statementUseKind, hf]
  have hterm : ∀ term, terminatorUseKind tcx id term = terminatorUseKind tcx id' term := by
    intro term
    simp only [terminatorUseKind, functionUseKind, hl, hf]
  simp only [locationToUseKind, hstmt, hterm]

variable {kind : UseKind}

theorem kindAt_eq_some (hf : x.field = none) : kindAt tcx root body x.localId loc = some kind ↔
      locationToUseKind tcx loc x body = .ok (some kind) := by
  have hcongr : locationToUseKind tcx loc ⟨root, x.localId, loc, none⟩ body =
      locationToUseKind tcx loc x body := locationToUseKind_congr rfl hf.symm
  rw [kindAt, hcongr]
  cases locationToUseKind tcx loc x body with
  | error e => simp [Except.toOption]
  | ok k => simp [Except.toOption]

theorem mem_visibleUses_of_scanned {id : UniqueId} {use : Use} :
    ∀ {uses : List Use}, Scanned tcx body id uses → use ∈ uses →
      locationToUseKind tcx use.location id body = .ok (some kind) →
      (∀ pre use' post, uses = pre ++ use' :: post → use ∈ post →
        ∀ l fn i, locationToUseKind tcx use'.location id body = .ok (some (.function l fn i)) →
          fn.krate = LOCAL_CRATE) →
      (∀ l fn i, kind ≠ .function l fn i) → (use.location, kind) ∈ visibleUses tcx body id uses
  | [], _, hmem, _, _, _ => by cases hmem
  | use' :: uses, hscan, hmem, hkind, hbehind, hne => by
    have ih : Scanned tcx body id uses → use ∈ uses →
        (use.location, kind) ∈ visibleUses tcx body id uses := fun h hmem =>
      mem_visibleUses_of_scanned h hmem hkind
        (fun pre u post heq => hbehind (use' :: pre) u post (by rw [heq]; rfl)) hne
    unfold Scanned at hscan
    unfold visibleUses
    rcases mem_cons.1 hmem with rfl | hmem'
    · rw [hkind]
      cases kind with
      | function l fn i => exact absurd rfl (hne l fn i)
      | _ => exact .head _
    · cases hk : locationToUseKind tcx use'.location id body with
      | error e =>
        rw [hk] at hscan
        exact hscan.elim
      | ok k =>
        rw [hk] at hscan
        cases k with
        | none => exact ih hscan hmem'
        | some k =>
          cases k with
          | function l fn i =>
            have hlocal := hbehind [] use' uses rfl hmem' l fn i hk
            simp only [hlocal, ne_eq, not_true_eq_false, false_or, if_false] at hscan ⊢
            exact .tail _ (ih hscan hmem')
          | _ => exact .tail _ (ih hscan hmem')

/-- A use of a kind that is followed is seen, when it does not come after a call of a function of
another crate. -/
theorem sees_of_usedAs (hbody : tcx.bodies.get root = some body)
    (hd : x.defId = root) (hf : x.field = none)
    (hscan : Scanned tcx body x (nonmutatingUses body x.localId))
    (hun : Unhidden tcx root body x.localId)
    (hkind : flowsOrBorrows kind) (h : UsedAs tcx root body x.localId loc kind) :
    Sees tcx x loc kind := by
  obtain ⟨⟨use, huse, rfl⟩, hclass⟩ := h
  refine ⟨body, by rw [hd, hbody], mem_visibleUses_of_scanned hscan huse
    ((kindAt_eq_some hf).1 hclass) ?_ ?_⟩
  · intro pre use' post hsplit hmem l fn i hk
    by_contra hout
    unfold Unhidden at hun
    rw [hsplit] at hun
    have hpair := (pairwise_cons.1 (pairwise_append.1 hun).2.1).1 use hmem
    exact hpair _ ((kindAt_eq_some hf).2 hk) kind hclass (by simpa [callsOut] using hout) hkind
  · rintro l fn i rfl
    cases hkind

end

end UseDefVisitor

/-! ## A call of another crate before a borrow -/

namespace Sample

open UseDefVisitor

def copied (l : Local) : Operand := .copy (.ofLocal l)

/-- The argument of the lock and unlock calls, before they are patched. -/
def placeholder : Operand := .constant (.fromUsize 99)

/-- `let p = TxPtr::new(..); transaction { let q = &p; f(q); g(q); }`. -/
def inTransaction (f g : DefId) : Body :=
  body [block [] (call txPtrNew [] 1 1), block [] (call lock [placeholder] 2 2),
    block [refOf 3 1] (call f [copied 3] 4 3), block [] (call g [copied 3] 5 4),
    block [] (call unlock [placeholder] 6 5), block [] .ret] 7 0

def allocated : UniqueId := ⟨⟨0, 0⟩, 1, ⟨0, 0⟩, none⟩

def transaction : UniqueId × UniqueId := (⟨⟨0, 0⟩, 2, ⟨1, 0⟩, none⟩, ⟨⟨0, 0⟩, 6, ⟨4, 0⟩, none⟩)

/-- The analysis of the first function of a crate. -/
def analysis (bodies : List Body) (main : Body) :
    Outcome (FxHashMap (UniqueId × UniqueId) (FxHashSet TransactionUse)) :=
  UseDefVisitor.new main ⟨0, 0⟩ (crate (main :: bodies)) >>= fun v =>
    v.perform .entries (crate (main :: bodies)) 20

/-- The transaction map of the first function. -/
def mapOf (main : Body) : Outcome TransactionMap :=
  (TransactionMap.new ⟨0, 0⟩ main langItems).perform .entries

theorem isAllocOf_allocated (f g : DefId) :
    IsAllocOf (crate [inTransaction f g]) ⟨0, 0⟩ allocated :=
  ⟨inTransaction f g, _, _, _, _, _, rfl, .head _, rfl, isAllocation_new, rfl, rfl, rfl, rfl⟩

end Sample

end Tortis
