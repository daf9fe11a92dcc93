import Tortis.Mir.Syntax

/-!
# Visiting locals

What `visit_local` is called with when the visitor of `librustc/mir/visit.rs` walks a statement or a
terminator: the locals in the order of the walk, each with the context it stands in. On top of it
`DefUseAnalysis` (`librustc_mir/util/def_use.rs`), which lists for every local where it occurs.
-/

namespace Tortis

open List Outcome

/-! ## Contexts -/

/-- Contexts that do not change the place. -/
inductive NonMutatingUseContext where
  | inspect
  | copy
  | move
  | sharedBorrow
  | shallowBorrow
  | uniqueBorrow
  | projection
deriving DecidableEq

/-- Contexts that may change the place. -/
inductive MutatingUseContext where
  | store
  | asmOutput
  | call
  | drop
  | borrow
  | projection
  | retag
deriving DecidableEq

inductive NonUseContext where
  | storageLive
  | storageDead
  | ascribeUserTy
deriving DecidableEq

inductive PlaceContext where
  | nonMutatingUse (ctx : NonMutatingUseContext)
  | mutatingUse (ctx : MutatingUseContext)
  | nonUse (ctx : NonUseContext)
deriving DecidableEq

def PlaceContext.isMutatingUse : PlaceContext → Bool
  | .mutatingUse _ => true
  | _ => false

def PlaceContext.isNonmutatingUse : PlaceContext → Bool
  | .nonMutatingUse _ => true
  | _ => false

/-! ## The walk -/

/-- `super_projection_elem`: only an index has a local. -/
def ProjectionElem.locals : ProjectionElem → List (Local × PlaceContext)
  | .index l => [(l, .nonMutatingUse .copy)]
  | _ => []

/-- `super_place`: the base in the context of the place, or of a projection when the place has one,
and then the projection from its end. -/
def Place.locals (p : Place) (context : PlaceContext) : List (Local × PlaceContext) :=
  let context :=
    if p.projection.isEmpty then context
    else if context.isMutatingUse then .mutatingUse .projection
    else .nonMutatingUse .projection
  (match p.base with
    | .loc l => [(l, context)]
    | .static _ => []) ++ p.projection.reverse.flatMap ProjectionElem.locals

/-- `super_operand`. -/
def Operand.locals : Operand → List (Local × PlaceContext)
  | .copy p => p.locals (.nonMutatingUse .copy)
  | .move p => p.locals (.nonMutatingUse .move)
  | .constant _ => []

def BorrowKind.context : BorrowKind → PlaceContext
  | .shared => .nonMutatingUse .sharedBorrow
  | .shallow => .nonMutatingUse .shallowBorrow
  | .unique => .nonMutatingUse .uniqueBorrow
  | .mut _ => .mutatingUse .borrow

/-- `super_rvalue`. -/
def Rvalue.locals : Rvalue → List (Local × PlaceContext)
  | .use op | .repeat op _ | .cast op | .unaryOp op => op.locals
  | .ref kind place => place.locals kind.context
  | .len place | .discriminant place => place.locals (.nonMutatingUse .inspect)
  | .binaryOp lhs rhs | .checkedBinaryOp lhs rhs => lhs.locals ++ rhs.locals
  | .nullaryOp => []
  | .aggregate _ ops => ops.flatMap Operand.locals

/-- `super_statement`. -/
def Statement.locals : Statement → List (Local × PlaceContext)
  | .assign place rvalue => place.locals (.mutatingUse .store) ++ rvalue.locals
  | .fakeRead place => place.locals (.nonMutatingUse .inspect)
  | .setDiscriminant place _ => place.locals (.mutatingUse .store)
  | .storageLive l => [(l, .nonUse .storageLive)]
  | .storageDead l => [(l, .nonUse .storageDead)]
  | .inlineAsm outputs inputs =>
    outputs.flatMap (·.locals (.mutatingUse .asmOutput)) ++ inputs.flatMap Operand.locals
  | .retag place => place.locals (.mutatingUse .retag)
  | .ascribeUserType place => place.locals (.nonUse .ascribeUserTy)
  | .nop => []

/-- `super_assert_message`. -/
def AssertMessage.locals : AssertMessage → List (Local × PlaceContext)
  | .boundsCheck len index => len.locals ++ index.locals
  | .other => []

/-- `super_terminator_kind`. -/
def Terminator.locals : Terminator → List (Local × PlaceContext)
  | .goto _ | .resume | .abort | .ret | .generatorDrop | .unreachable | .falseEdges .. |
    .falseUnwind .. => []
  | .switchInt discr _ _ => discr.locals
  | .drop location _ _ => location.locals (.mutatingUse .drop)
  | .dropAndReplace location value _ _ => location.locals (.mutatingUse .drop) ++ value.locals
  | .call func args destination _ =>
    func.locals ++ args.flatMap Operand.locals ++
      (match destination with
        | some (place, _) => place.locals (.mutatingUse .call)
        | none => [])
  | .assert cond _ msg _ _ => cond.locals ++ msg.locals
  | .yield value _ _ => value.locals

theorem BasicBlockData.eq_of_mem_zipIdx {blocks : List BasicBlockData} {data data' : BasicBlockData}
    {bb : BasicBlock} (h : (data, bb) ∈ blocks.zipIdx) (h' : (data', bb) ∈ blocks.zipIdx) :
    data' = data :=
  Option.some.inj <| (mk_mem_zipIdx_iff_getElem?.1 h').symm.trans (mk_mem_zipIdx_iff_getElem?.1 h)

def BasicBlockData.statementLocals (data : BasicBlockData) (bb : BasicBlock) :
    List (Local × PlaceContext × Location) :=
  data.statements.zipIdx.flatMap fun (stmt, i) =>
    stmt.locals.map fun (l, context) => (l, context, ⟨bb, i⟩)

theorem BasicBlockData.location_of_mem_statementLocals {data : BasicBlockData} {bb : BasicBlock}
    {occ : Local × PlaceContext × Location} (h : occ ∈ data.statementLocals bb) :
    occ.2.2.block = bb ∧ occ.2.2.statementIndex < data.statements.length := by
  obtain ⟨⟨stmt, i⟩, hstmt, h⟩ := mem_flatMap.1 h
  obtain ⟨e, -, rfl⟩ := mem_map.1 h
  exact ⟨rfl, (List.getElem?_eq_some_iff.1 (List.mk_mem_zipIdx_iff_getElem?.1 hstmt)).1⟩

def BasicBlockData.terminatorLocals (data : BasicBlockData) (bb : BasicBlock) :
    List (Local × PlaceContext × Location) :=
  (data.terminator.elim [] Terminator.locals).map fun (l, context) =>
    (l, context, ⟨bb, data.statements.length⟩)

/-- The locals of a body in the order of `visit_body`, with their contexts and locations. -/
def Body.occurrences (body : Body) : List (Local × PlaceContext × Location) :=
  body.basicBlocks.zipIdx.flatMap fun (data, bb) =>
    data.statementLocals bb ++ data.terminatorLocals bb

/-! ## Def-use analysis -/

/-- An occurrence of a local. -/
structure Use where
  context : PlaceContext
  location : Location
deriving DecidableEq

/-- The occurrences of each local. -/
structure DefUseAnalysis where
  info : List (List Use)

namespace DefUseAnalysis

def visitLocal (info : List (List Use)) (occ : Local × PlaceContext × Location) :
    Outcome (List (List Use)) :=
  if occ.1 < info.length then .ok (info.modify occ.1 (· ++ [⟨occ.2.1, occ.2.2⟩]))
  else .error (.panic "index out of bounds")

/-- `DefUseAnalysis::new` followed by `analyze`. -/
def analyze (body : Body) : Outcome DefUseAnalysis := do
  let info ← body.occurrences.foldlM visitLocal (replicate body.localDecls.length [])
  return ⟨info⟩

def localInfo (analysis : DefUseAnalysis) (l : Local) : Outcome (List Use) :=
  expect "index out of bounds" analysis.info[l]?

/-- The uses of a local in a body, in the order of the walk. -/
def usesOf (body : Body) (l : Local) : List Use :=
  (body.occurrences.filter (·.1 = l)).map fun occ => ⟨occ.2.1, occ.2.2⟩

theorem foldlM_visitLocal {info info' : List (List Use)} :
    ∀ {occs : List (Local × PlaceContext × Location)}, occs.foldlM visitLocal info = .ok info' →
      info'.length = info.length ∧ ∀ l < info.length, info'[l]? = some (info[l]?.getD [] ++
        (occs.filter (·.1 = l)).map fun occ => ⟨occ.2.1, occ.2.2⟩) := by
  intro occs
  induction occs generalizing info with
  | nil =>
    intro h
    cases h
    exact ⟨rfl, fun l hl => by simp [hl]⟩
  | cons occ occs ih =>
    intro h
    obtain ⟨info1, h1, h2⟩ := bind_eq_ok.1 h
    unfold visitLocal at h1
    split at h1
    · cases h1
      obtain ⟨hlen, hget⟩ := ih h2
      rw [length_modify] at hlen hget
      refine ⟨hlen, fun l hl => ?_⟩
      rw [hget l hl, getElem?_modify]
      by_cases hl' : occ.1 = l
      · simp [hl', hl]
      · simp [hl', hl]
    · cases h1

theorem analyze_spec {body : Body} {analysis : DefUseAnalysis} (h : analyze body = .ok analysis)
    (l : Local) : analysis.localInfo l =
      if l < body.localDecls.length then .ok (usesOf body l)
      else .error (.panic "index out of bounds") := by
  obtain ⟨info, hinfo, h⟩ := bind_eq_ok.1 h
  cases h
  obtain ⟨hlen, hget⟩ := foldlM_visitLocal hinfo
  rw [length_replicate] at hlen hget
  unfold localInfo
  split
  · next hl =>
    rw [hget l hl]
    simp [expect, usesOf, hl]
  · next hl =>
    rw [getElem?_eq_none (by simpa [hlen] using hl)]
    rfl

end DefUseAnalysis

end Tortis
