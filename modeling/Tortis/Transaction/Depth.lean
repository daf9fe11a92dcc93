import Tortis.Transaction.Credited

/-!
# Borrows behind calls

A function that borrows its argument outside of any transaction of its own does so in the transaction
of its caller. The analysis credits the allocation with such a borrow for every call of the function
that is made in the body itself (`perform_creditsCallers`). When the function passes its argument on
to another one, the second call finds the vertices of the first one visited, and the borrow stays with
the transaction of the first call.
-/

namespace Tortis

open Outcome Option TransactionMap

namespace UseDefVisitor

section
variable {ord : IterOrder} {tcx : TyCtxt} {root : DefId}

/-- The value of the first vertex comes to the second one through the given number of calls. -/
def Passed (tcx : TyCtxt) : Nat → UniqueId → UniqueId → Prop
  | 0, p, y => Relation.ReflTransGen (Inside tcx) p y
  | n + 1, p, y => ∃ x loc l fn i p', Relation.ReflTransGen (Inside tcx) p x ∧
      Sees tcx x loc (.function l fn i) ∧ IsArgOf tcx fn (followedArg x i) x.field p' ∧
      Passed tcx n p' y

/-- A call in the body passes the value of the allocation, by the vertex `x`, to the occurrence `p` of
an argument of the function `fn`; the call is in the transaction `T`. -/
structure PassedAt (tcx : TyCtxt) (root : DefId) (txOf : UniqueId → Option (UniqueId × UniqueId))
    (A x : UniqueId) (fn : DefId) (p : UniqueId) (T : UniqueId × UniqueId) : Prop where
  flow : Relation.ReflTransGen (Inside tcx) A x
  call : ∃ loc l i, Sees tcx x loc (.function l fn i) ∧ IsArgOf tcx fn (followedArg x i) x.field p ∧
    txOf ⟨root, l, loc, none⟩ = some T

/-- The borrow is outside of the transactions of its function. -/
def OutsideOwn (ord : IterOrder) (tcx : TyCtxt) (b : UniqueId) : Prop :=
  ∀ body tm, tcx.bodies.get b.defId = some body →
    (TransactionMap.new b.defId body tcx.langItems).perform ord = .ok tm →
    tm.terminatorToTx.get b = none

/-- Every transaction that can reach a borrow is credited with it: for every call in a transaction
that leads, at any depth, to a borrow outside of any transaction of its function. -/
def CreditsCallers (ord : IterOrder) (tcx : TyCtxt) (root : DefId)
    (txOf : UniqueId → Option (UniqueId × UniqueId)) (A : UniqueId)
    (sets : FxHashMap (UniqueId × UniqueId) (FxHashSet TransactionUse)) : Prop :=
  ∀ x fn p T n y b isWrite, PassedAt tcx root txOf A x fn p T → Passed tcx n p y →
    Borrows tcx y b isWrite → OutsideOwn ord tcx b → sets.Rel T ⟨A, isWrite⟩

/-- A function that is called with the value of the allocation: it does not pass its argument on, uses
it before it allocates, and borrows it before its own transactions. -/
structure BorrowsOnly (tcx : TyCtxt) (lk ul fn : DefId) (p : UniqueId) : Prop where
  keeps : ∀ x, Relation.ReflTransGen (Inside tcx) p x → ∀ loc l fn' i,
    ¬ Sees tcx x loc (.function l fn' i)
  before : ∀ body, tcx.bodies.get fn = some body → BeforeAllocs tcx body p
  locks : ∀ body, tcx.bodies.get fn = some body → ∃ rpo, reversePostorder body = .ok rpo ∧
    ∀ y b isWrite, Relation.ReflTransGen (Inside tcx) p y → Borrows tcx y b isWrite →
      TransactionMap.BeforeLocks body lk ul rpo b.location.block ∧
        (body.callee b.location.block).isSome

theorem Borrows.callId_eq {y b : UniqueId} {w : Bool} (h : Borrows tcx y b w) {body : Body}
    (hbody : tcx.bodies.get y.defId = some body) :
    body.callId y.defId b.location.block = some b := by
  have hcall : ∀ {loc : Location} {kind : UseKind}, Sees tcx y loc kind → kind.isBorrow →
      body.callId y.defId loc.block = some ⟨y.defId, kind.dest, loc, none⟩ := by
    rintro loc kind ⟨body', hbody', hmem⟩ hborrow
    rw [hbody] at hbody'
    cases hbody'
    have hkind := (mem_visibleUses hmem).1
    obtain ⟨data, func, args, dest, cleanup, hdata, hidx, hterm, -⟩ := (isBorrow_iff hkind).1 hborrow
    rw [locationToUseKind_terminator hdata hidx hterm] at hkind
    obtain ⟨⟨_, _, _, _, heq, hdest⟩, -⟩ := terminatorUseKind_spec hkind
    cases heq
    have hloc : loc = ⟨loc.block, data.statements.length⟩ := by rw [← hidx]
    simp only [Body.callId, Body.destLocal, Body.callOf, Body.terminatorOf, Body.terminatorLoc, hdata,
      hterm, bind_some, elim_some, hdest, map_some]
    rw [← hloc]
  cases h with
  | read hs => exact hcall hs rfl
  | write hs => exact hcall hs rfl

theorem inside_defId {p y : UniqueId} (h : Relation.ReflTransGen (Inside tcx) p y) :
    y.defId = p.defId := by
  induction h with
  | refl => rfl
  | tail _ hxy ih => exact hxy.flow.2.trans ih

end

end UseDefVisitor

/-! ## Reached vertices that are listed -/

/-- The uses of a vertex the analysis looks at. -/
def seenUses (tcx : TyCtxt) (id : UniqueId) : List (Location × UseKind) :=
  match tcx.bodies.get id.defId with
  | none => []
  | some body => visibleUses tcx body id (nonmutatingUses body id.localId)

theorem Sees.mem_seenUses {tcx : TyCtxt} {id : UniqueId} {loc : Location} {kind : UseKind}
    (h : Sees tcx id loc kind) : (loc, kind) ∈ seenUses tcx id := by
  obtain ⟨body, hbody, hmem⟩ := h
  rw [seenUses, hbody]
  exact hmem

def UseKind.calledFn : UseKind → Option DefId
  | .function _ fn _ => some fn
  | _ => none

theorem Sorted.not_calls {tcx : TyCtxt} {root : DefId} {order : List UniqueId}
    (h : Sorted tcx root order) (hlt : ∀ id ∈ order, ∀ e ∈ seenUses tcx id, ∀ fn ∈ e.2.calledFn,
      id.defId.index < fn.index) (fn : DefId) :
    ¬ Relation.TransGen (UseDefVisitor.Calls tcx root) fn fn := by
  have hstep : ∀ f g, UseDefVisitor.Calls tcx root f g → f.index < g.index := by
    rintro f g ⟨id, loc, l, i, hid, rfl, hs⟩
    exact hlt id (h.mem_of_reached hid) _ hs.mem_seenUses g rfl
  intro hcycle
  have hpath : ∀ g, Relation.TransGen (UseDefVisitor.Calls tcx root) fn g → fn.index < g.index := by
    intro g hg
    induction hg with
    | single hfg => exact hstep _ _ hfg
    | tail _ hgh ih => exact ih.trans (hstep _ _ hgh)
  exact lt_irrefl _ (hpath fn hcycle)

namespace Sample

open UseDefVisitor

/-- `let p = TxPtr::new(..); transaction { f(&p) } transaction { f(&p) }`. -/
def twoTransactions : Body :=
  body [block [] (call txPtrNew [] 1 1), block [] (call lock [placeholder] 2 2),
    block [refOf 3 1] (call ⟨0, 1⟩ [copied 3] 4 3), block [] (call unlock [placeholder] 5 4),
    block [] (call lock [placeholder] 6 5), block [refOf 7 1] (call ⟨0, 1⟩ [copied 7] 8 6),
    block [] (call unlock [placeholder] 9 7), block [] .ret] 10 0

/-- `fn f(q) { g(&*q) }`. -/
def passesOn : Body :=
  body [block [reborrow 2 1] (call ⟨0, 2⟩ [moved 2] 3 1), block [] .ret] 4 1

/-- The two transactions. -/
def first : UniqueId × UniqueId := (⟨⟨0, 0⟩, 2, ⟨1, 0⟩, none⟩, ⟨⟨0, 0⟩, 5, ⟨3, 0⟩, none⟩)
def second : UniqueId × UniqueId := (⟨⟨0, 0⟩, 6, ⟨4, 0⟩, none⟩, ⟨⟨0, 0⟩, 9, ⟨6, 0⟩, none⟩)

/-- The vertices that are reached in `main` and in `f`. -/
def reachedInF : List UniqueId :=
  [allocated, ⟨⟨0, 0⟩, 3, ⟨2, 0⟩, none⟩, ⟨⟨0, 0⟩, 7, ⟨5, 0⟩, none⟩, ⟨⟨0, 1⟩, 1, ⟨0, 0⟩, none⟩,
    ⟨⟨0, 1⟩, 2, ⟨0, 0⟩, none⟩]

theorem sorted_borrows : Sorted (crate [twoTransactions, borrows]) ⟨0, 0⟩ reachedInF := by
  with_unfolding_all decide

/-- The vertices that are reached in `g`. -/
def reachedInG : List UniqueId := [⟨⟨0, 2⟩, 1, ⟨0, 0⟩, none⟩, ⟨⟨0, 2⟩, 2, ⟨0, 0⟩, none⟩]

theorem sorted_passesOn : Sorted (crate [twoTransactions, passesOn, borrows]) ⟨0, 0⟩
    (reachedInF ++ reachedInG) := by
  with_unfolding_all decide

theorem isAllocOf_twoTransactions (bodies : List Body)
    (h : (crate (twoTransactions :: bodies)).bodies.get ⟨0, 0⟩ = some twoTransactions) :
    IsAllocOf (crate (twoTransactions :: bodies)) ⟨0, 0⟩ allocated :=
  ⟨twoTransactions, _, _, _, _, _, h, .head _, rfl, isAllocation_new, rfl, rfl, rfl, rfl⟩

end Sample

end Tortis
