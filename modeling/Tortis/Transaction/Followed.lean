import Tortis.Transaction.Depth
import Tortis.Transaction.Invocations

/-!
# The current allocation

`current_allocation` is the allocation whose uses are followed, in every call of a run
(`mapAllocation_current`), as long as no visitor comes to an allocation of its body before an
occurrence of the argument it follows: `visit_terminator` clears the field after an allocation
instead of putting back what the parent has left there.
-/

namespace Tortis

open List Outcome DefUseAnalysis

namespace UseDefVisitor

section
variable {ord : IterOrder} {tcx : TyCtxt} {root : DefId}

/-- No block of the body before an occurrence of the argument that is followed allocates. -/
def Timely (tcx : TyCtxt) (v : UseDefVisitor) : Prop :=
  ∀ a i p, v.argId = some a → v.argIndex = some i → IsArgOf tcx v.defId i a.field p →
    BeforeAllocs tcx v.body p

def Current : Invocation → Prop
  | .perform _ A v => v.currentAllocation = A ∧ (∀ a, v.argId = some a → A.isSome)
  | .trace _ A v _ | .follow _ A v _ _ | .mapAllocation A v _ => v.currentAllocation = A ∧ A.isSome

theorem mapAllocations_current {uses : List TransactionUse} {v c : UseDefVisitor}
    (h : uses.foldlM (fun (v : UseDefVisitor) use => v.mapAllocation use.sharedObject) v = .ok c) :
    c.currentAllocation = v.currentAllocation := by
  refine foldlM_keeps (P := fun c => c.currentAllocation = v.currentAllocation) rfl h
    fun use _ s s' hs hs' => ?_
  obtain ⟨sets, rfl⟩ := mapAllocation_eq hs'
  exact hs

theorem Invokes.current {i j : Invocation} (h : Invokes ord tcx i j) (hi : Valid tcx root i)
    (htimely : ∀ n A v, i = .perform n A v → Timely tcx v) (hcur : Current i) : Current j := by
  cases h with
  | @arg n A v pre block done occ c a hlocals hocc ha hkind hidx =>
    obtain ⟨tm, hw, hmem, hsame⟩ := hlocals.spec hi
    have hocc := hocc.subset (mem_append_right done (mem_singleton.2 rfl))
    obtain ⟨hp, -⟩ := (hi.withMap tm).arg hw hmem hocc ha hkind hidx
    have hl := hw.1.goes.2
    rw [hl.argId] at ha
    rw [hl.argIndex] at hidx
    have hbefore := htimely n A v rfl a _ _ ha hidx hp
    refine ⟨(hsame fun e he => ?_).trans hcur.1, hcur.2 a ha⟩
    obtain ⟨_, _, ⟨_, post, -, hsplit, -⟩, -⟩ := hlocals
    refine hbefore e.1 e.2 (by rw [hsplit]; simp [he]) ?_
    have hlt : e.2 < block.2 := lt_of_mem_pre hsplit he
    rwa [← (BasicBlockData.location_of_mem_statementLocals hocc).1] at hlt
  | alloc => exact ⟨rfl, rfl⟩
  | loc huse =>
    obtain ⟨-, -, hc, -⟩ := keeps_advances.follows hi.1 hi.2 (@Invokes.loc _ _ _ none _ _ _ _ _ huse)
    exact ⟨hc.current.trans hcur.1, hcur.2⟩
  | closure huse hops hpre hcap =>
    obtain ⟨-, -, hc, -⟩ := keeps_advances.follows hi.1 hi.2
      (@Invokes.closure _ _ _ none _ _ _ _ _ _ _ _ _ _ _ huse hops hpre hcap)
    exact ⟨hc.current.trans hcur.1, hcur.2⟩
  | read huse => exact ⟨(keeps_advances.atUse hi.1 hi.2 huse nofun).1.current.trans hcur.1, hcur.2⟩
  | write huse => exact ⟨(keeps_advances.atUse hi.1 hi.2 huse nofun).1.current.trans hcur.1, hcur.2⟩
  | function huse hkrate =>
    refine ⟨(keeps_advances.atUse hi.1 hi.2 huse ?_).1.current.trans hcur.1, fun _ _ => hcur.2⟩
    rintro _ _ _ ⟨⟩
    exact hkrate
  | visit => exact hcur
  | again _ _ _ _ hpre => exact ⟨(mapAllocations_current hpre).trans hcur.1, hcur.2⟩

/-- Whenever a borrow is mapped, the current allocation is the one that is followed, in a run in which
every visitor comes to the occurrences of its argument before the allocations of its body. -/
theorem mapAllocation_current {body : Body} (hbody : tcx.bodies.get root = some body)
    {v₀ : UseDefVisitor} (hv₀ : UseDefVisitor.new body root tcx = .ok v₀) {n : Nat}
    (htimely : ∀ m A v, Relation.ReflTransGen (Invokes ord tcx) (.perform n none v₀) (.perform m A v) →
      Timely tcx v) {A : Option UniqueId} {v : UseDefVisitor} {b : UniqueId}
    (hrun : Relation.ReflTransGen (Invokes ord tcx) (.perform n none v₀) (.mapAllocation A v b)) :
    A.isSome ∧ v.currentAllocation = A := by
  have hstart : Current (.perform n none v₀) := by
    obtain ⟨analysis, -, hv₀⟩ := bind_eq_ok.1 hv₀
    cases hv₀
    exact ⟨rfl, nofun⟩
  refine (run_inv hrun (enters_new hbody hv₀) hstart fun j k hj hvalid hcur hjk => ?_).symm
  exact hjk.current hvalid (fun m A v hm => htimely m A v (hm ▸ hj)) hcur

end

end UseDefVisitor

/-! ## An allocation before the argument -/

namespace Sample

open UseDefVisitor

/-- The visitor of the first function of a crate. -/
def ofMain (main : Body) (analysis : DefUseAnalysis) : UseDefVisitor where
  analysis := analysis
  argId := none
  argIndex := none
  body := main
  allocationSet := ∅
  currentAllocation := none
  defId := ⟨0, 0⟩
  edges := ∅
  isWrite := ∅
  transactionMap := TransactionMap.new ⟨0, 0⟩ main langItems
  vertices := ∅

def calledByMain (f : Body) (analysis : DefUseAnalysis) : UseDefVisitor :=
  { ofMain f analysis with
    argId := some allocated
    argIndex := some 0
    currentAllocation := some allocated
    defId := ⟨0, 1⟩
    transactionMap := TransactionMap.newChild ⟨0, 1⟩ f none langItems ∅
    vertices := (∅ : FxHashSet UniqueId).insert allocated }

theorem new_eq {tcx : TyCtxt} (htcx : tcx.langItems = langItems) {main : Body}
    {analysis : DefUseAnalysis} (h : analyze main = .ok analysis) :
    UseDefVisitor.new main ⟨0, 0⟩ tcx = .ok (ofMain main analysis) := by
  rw [UseDefVisitor.new, h, htcx]
  rfl

theorem mainOf_calls {f : Body} {an0 an : DefUseAnalysis} (h0 : DefUseAnalysis.analyze mainOf = .ok an0)
    (h : analyze f = .ok an) (n : Nat) :
    Relation.ReflTransGen (Invokes .entries (crate [mainOf, f]))
      (.perform (n + 1) none (ofMain mainOf an0)) (.perform n (some allocated) (calledByMain f an)) := by
  have hbody : (crate [mainOf, f]).bodies.get ⟨0, 0⟩ = some mainOf := by rw [get_crate]; rfl
  let b0 := block [] (call txPtrNew [] 1 1)
  have hblocks : mainOf.basicBlocks.zipIdx =
      [] ++ (b0, 0) :: [(block [] (call ⟨0, 1⟩ [moved 1] 2 2), 1), (block [] .ret, 2)] := rfl
  have halloc := @Invokes.alloc .entries (crate [mainOf, f]) (n + 1) none (ofMain mainOf an0) [] (b0, 0)
    (ofMain mainOf an0) (.constant (.zeroSized (.fnDef txPtrNew []))) [] (some (.ofLocal 1, 1)) none 1
    ⟨_, [], ⟨TransactionMap.new ⟨0, 0⟩ mainOf langItems, _, rfl, hblocks, rfl⟩, rfl, rfl⟩ rfl
    isAllocation_new rfl
  have hready := (halloc.valid (enters_new hbody (new_eq rfl h0))).1
  have hkind : locationToUseKind (crate [mainOf, f]) ⟨1, 0⟩ allocated mainOf =
      .ok (some (.function 2 ⟨0, 1⟩ 0)) :=
    terminatorUseKind_recursive 1 allocated rfl 2 2
  have huse := @AtUse.first .entries _ _ n _ _ hready _ hbody (show 1 < 3 by decide)
    ⟨.nonMutatingUse .move, ⟨1, 0⟩⟩ [] rfl _ hkind
  have hcall := @Invokes.function _ _ _ (some allocated) _ _ _ _ _ _ _ _ _ huse rfl
    (by rw [get_crate]; rfl) h
  exact (Relation.ReflTransGen.single halloc).tail hcall

/-- The body has no argument, or no block of it allocates. -/
def ArgsTimely (body : Body) : Prop :=
  body.argCount = 0 ∨ ∀ data ∈ body.basicBlocks, ∀ func ∈ (match data.terminator with
    | some (.call func _ _ _) => some func
    | _ => none), isAllocation (funcName func) = false

instance (body : Body) : Decidable (ArgsTimely body) := inferInstanceAs (Decidable (_ ∨ _))

theorem ArgsTimely.timely {bodies : List Body} {root : DefId} {v : UseDefVisitor}
    (hv : Good (crate bodies) root v) (h : ArgsTimely v.body) : Timely (crate bodies) v := by
  intro a i p _ _ hp data bb hdata _
  rcases h with h | h
  · obtain ⟨body, _, _, _, hbody, _, _, hkind, _⟩ := hp
    rw [hv.body] at hbody
    cases hbody
    unfold Body.localKind at hkind
    grind
  · rintro ⟨func, args, dest, cleanup, hterm, hname⟩
    have hmem : data ∈ v.body.basicBlocks := mem_of_getElem? (mk_mem_zipIdx_iff_getElem?.1 hdata)
    have := h data hmem func (by rw [hterm]; rfl)
    rw [show (crate bodies).funcName func = funcName func from rfl, this] at hname
    cases hname

/-- `q = &*p; q.borrow()` in a called function, with `p` its argument: the walk over the block comes to
the borrow. -/
theorem reborrow_borrows {ord : IterOrder} {tcx : TyCtxt} {root : DefId} {n : Nat} {A : Option UniqueId}
    {v c : UseDefVisitor} (hv : Enters tcx root v) {pre : List (BasicBlockData × BasicBlock)}
    {data : BasicBlockData} {bb q r : Nat}
    (hat : AtLocals ord tcx (n + 2) v pre (data, bb) [(q, .mutatingUse .store, ⟨bb, 0⟩)] c)
    (hlocals : data.statementLocals bb =
      [(q, .mutatingUse .store, ⟨bb, 0⟩), (1, .nonMutatingUse .projection, ⟨bb, 0⟩)])
    {a : UniqueId} (ha : v.argId = some a) (hf : a.field = none) (hi : v.argIndex = some 0)
    (hkind : v.body.localKind 1 = .arg) (hone : 1 < v.body.localDecls.length)
    (hq : q < v.body.localDecls.length)
    (huses1 : nonmutatingUses v.body 1 = [⟨.nonMutatingUse .projection, ⟨bb, 0⟩⟩])
    (hflow : locationToUseKind tcx ⟨bb, 0⟩ ⟨v.defId, 1, ⟨bb, 0⟩, none⟩ v.body = .ok (some (.loc q)))
    (husesq : nonmutatingUses v.body q = [⟨.nonMutatingUse .move, ⟨bb, 1⟩⟩])
    (hborrow : locationToUseKind tcx ⟨bb, 1⟩ ⟨v.defId, q, ⟨bb, 0⟩, none⟩ v.body = .ok (some (.read r)))
    (hne : q ≠ 1) (hnot : (⟨v.defId, q, ⟨bb, 0⟩, none⟩ : UniqueId) ∉ c.vertices) :
    ∃ v', Relation.ReflTransGen (Invokes ord tcx) (.perform (n + 2) A v)
        (.mapAllocation A v' ⟨v.defId, r, ⟨bb, 1⟩, none⟩) ∧
      v'.currentAllocation = c.currentAllocation ∧ v'.transactionMap = c.transactionMap := by
  obtain ⟨tm, hw, -, -⟩ := hat.spec hv
  have hl := hw.1.goes.2
  have hid : ∀ l loc, c.uniqueId l loc none = ⟨v.defId, l, loc, none⟩ := fun l loc => by
    rw [uniqueId, hl.defId]
  have hbody : tcx.bodies.get v.defId = some v.body := hv.good.body
  have harg := @Invokes.arg ord tcx (n + 2) A v pre (data, bb) _
    (1, .nonMutatingUse .projection, ⟨bb, 0⟩) c a hat (by rw [hlocals]; exact prefix_refl _)
    (hl.argId.trans ha) (by rw [hl.body, ← hkind]) (hl.argIndex.trans hi)
  rw [hf, hid] at harg
  have hready := (@Invokes.valid ord tcx root _ _ harg hv).1
  have hflows := @traces_first ord tcx root (n + 1) A _ _ hready v.body hbody hone _ _ huses1 q hflow
    (by simp [touch, hnot, hne])
  have hready' := (reached_valid hflows (harg.valid hv)).1
  have huse' := @AtUse.first ord tcx root n _ _ hready' v.body hbody hq _ _ husesq _ hborrow
  have hread := @Invokes.read ord tcx n A _ _ _ _ _ huse'
  have hnew' : ((c.touch a ⟨v.defId, 1, ⟨bb, 0⟩, none⟩).touch ⟨v.defId, 1, ⟨bb, 0⟩, none⟩
      ⟨v.defId, q, ⟨bb, 0⟩, none⟩).uniqueId r ⟨bb, 1⟩ none = ⟨v.defId, r, ⟨bb, 1⟩, none⟩ := hid r ⟨bb, 1⟩
  rw [hnew'] at hread
  exact ⟨_, ((Relation.ReflTransGen.single harg).trans hflows).tail hread, rfl, rfl⟩

/-- `f` borrows its argument and allocates nothing: the borrow is mapped for the allocation of
`main`. -/
theorem mapAllocation_current_borrows :
    ∃ n v₀ v b, UseDefVisitor.new mainOf ⟨0, 0⟩ (crate [mainOf, borrows]) = .ok v₀ ∧
      Relation.ReflTransGen (Invokes .entries (crate [mainOf, borrows])) (.perform n none v₀)
        (.mapAllocation (some allocated) v b) ∧
      ((some allocated).isSome ∧ v.currentAllocation = some allocated) := by
  obtain ⟨an0, h0⟩ : ∃ a, analyze mainOf = .ok a := ⟨_, rfl⟩
  obtain ⟨an, h⟩ : ∃ a, analyze borrows = .ok a := ⟨_, rfl⟩
  have hmain : (crate [mainOf, borrows]).bodies.get ⟨0, 0⟩ = some mainOf := by rw [get_crate]; rfl
  have hv0 := @new_eq (crate [mainOf, borrows]) rfl _ _ h0
  have hcalls := mainOf_calls h0 h 2
  have henters := reached_valid hcalls (enters_new hmain hv0)
  obtain ⟨tm, htm⟩ : ∃ tm, (TransactionMap.newChild ⟨0, 1⟩ borrows none langItems ∅).perform
    .entries = .ok tm := ⟨_, rfl⟩
  have hborrow : locationToUseKind (crate [mainOf, borrows]) ⟨0, 1⟩ ⟨⟨0, 1⟩, 2, ⟨0, 0⟩, none⟩ borrows =
      .ok (some (.read 3)) := by
    with_unfolding_all decide
  have hnot : (⟨⟨0, 1⟩, 2, ⟨0, 0⟩, none⟩ : UniqueId) ∉ (∅ : FxHashSet UniqueId).insert allocated := by
    decide
  obtain ⟨v, hrun, -, -⟩ := @reborrow_borrows .entries (crate [mainOf, borrows]) ⟨0, 0⟩ 0 (some allocated)
    (calledByMain borrows an) { calledByMain borrows an with transactionMap := tm } henters [] _ 0 2 3
    ⟨_, [(1, .nonMutatingUse .projection, ⟨0, 0⟩)], ⟨tm, _, htm, rfl, rfl⟩, rfl, rfl⟩ rfl allocated
    rfl rfl rfl rfl (show 1 < 4 by decide) (show 2 < 4 by decide) rfl rfl rfl hborrow
    (by decide) hnot
  refine ⟨3, _, v, _, hv0, hcalls.trans hrun, mapAllocation_current hmain hv0 ?_ (hcalls.trans hrun)⟩
  intro m A v hv
  have hgood := (reached_valid hv (enters_new hmain hv0)).good
  refine ArgsTimely.timely hgood ?_
  have hbody := hgood.body
  rw [get_crate] at hbody
  have htimely : ArgsTimely mainOf ∧ ArgsTimely borrows := by with_unfolding_all decide
  split at hbody
  · rw [← Option.some.inj hbody]
    exact htimely.2
  · split at hbody
    · rw [← Option.some.inj hbody]
      exact htimely.1
    · cases hbody

/-- `fn f(p) { let a = TxPtr::new(..); transaction { let q = &*p; q.borrow(); } }`. -/
def allocatesFirst : Body :=
  body [block [] (call txPtrNew [] 2 1), block [] (call lock [placeholder] 3 2),
    block [reborrow 4 1] (call txPtrBorrow [moved 4] 5 3), block [] (call unlock [placeholder] 6 4),
    block [] .ret] 7 1

/-- The walk over the body of `f`, up to the occurrence of its argument. -/
def beforeArgument (an : DefUseAnalysis) : Outcome UseDefVisitor :=
  (TransactionMap.newChild ⟨0, 1⟩ allocatesFirst none langItems ∅).perform .entries >>= fun tm =>
    (allocatesFirst.basicBlocks.zipIdx.take 2).foldlM
        (visitBasicBlockData (crate [mainOf, allocatesFirst])
          (trace .entries (crate [mainOf, allocatesFirst]) 2))
        { calledByMain allocatesFirst an with transactionMap := tm } >>= fun c =>
      [(4, PlaceContext.mutatingUse .store, (⟨2, 0⟩ : Location))].foldlM
        (fun v occ => v.visitLocal (trace .entries (crate [mainOf, allocatesFirst]) 2) occ.1 occ.2.2) c

/-- `f` allocates before it borrows its argument in a transaction: the borrow is mapped without an
allocation. -/
theorem mapAllocation_loses_allocation :
    ∃ n v₀ v b t, UseDefVisitor.new mainOf ⟨0, 0⟩ (crate [mainOf, allocatesFirst]) = .ok v₀ ∧
      Relation.ReflTransGen (Invokes .entries (crate [mainOf, allocatesFirst])) (.perform n none v₀)
        (.mapAllocation (some allocated) v b) ∧
      v.transactionMap.terminatorToTx.get b = some t ∧ v.currentAllocation = none := by
  obtain ⟨an0, h0⟩ : ∃ a, analyze mainOf = .ok a := ⟨_, rfl⟩
  have hrun : (analyze allocatesFirst >>= beforeArgument).map (fun c =>
      (c.currentAllocation, c.transactionMap.terminatorToTx.get ⟨⟨0, 1⟩, 5, ⟨2, 1⟩, none⟩,
        decide ((⟨⟨0, 1⟩, 4, ⟨2, 0⟩, none⟩ : UniqueId) ∈ c.vertices))) =
      .ok (none, some (⟨⟨0, 1⟩, 3, ⟨1, 0⟩, none⟩, ⟨⟨0, 1⟩, 6, ⟨3, 0⟩, none⟩), false) := by
    with_unfolding_all decide
  obtain ⟨c, hc, hcheck⟩ := ok_of_map hrun
  obtain ⟨an, h, hc⟩ := bind_eq_ok.1 hc
  obtain ⟨tm, htm, hc⟩ := bind_eq_ok.1 hc
  obtain ⟨c0, hc0, hc⟩ := bind_eq_ok.1 hc
  obtain ⟨hnone, hcheck⟩ := Prod.mk.inj hcheck
  obtain ⟨hget, hnot⟩ := Prod.mk.inj hcheck
  have hmain : (crate [mainOf, allocatesFirst]).bodies.get ⟨0, 0⟩ = some mainOf := by
    rfl
  have hv0 := @new_eq (crate [mainOf, allocatesFirst]) rfl _ _ h0
  have hcalls := mainOf_calls h0 h 2
  have henters := reached_valid hcalls (enters_new hmain hv0)
  have hborrow : locationToUseKind (crate [mainOf, allocatesFirst]) ⟨2, 1⟩ ⟨⟨0, 1⟩, 4, ⟨2, 0⟩, none⟩
      allocatesFirst = .ok (some (.read 5)) := by
    with_unfolding_all decide
  obtain ⟨v, hrun, hcur, hmap⟩ := @reborrow_borrows .entries (crate [mainOf, allocatesFirst]) ⟨0, 0⟩ 0
    (some allocated) (calledByMain allocatesFirst an) c henters _ _ 2 4 5
    ⟨c0, [(1, .nonMutatingUse .projection, ⟨2, 0⟩)], ⟨tm, _, htm, rfl, hc0⟩, rfl, hc⟩ rfl allocated
    rfl rfl rfl rfl (show 1 < 7 by decide) (show 4 < 7 by decide) rfl rfl rfl hborrow
    (by decide) (of_decide_eq_false hnot)
  exact ⟨3, _, v, _, _, hv0, hcalls.trans hrun, by rw [hmap]; exact hget, hcur.trans hnone⟩

end Sample

end Tortis
