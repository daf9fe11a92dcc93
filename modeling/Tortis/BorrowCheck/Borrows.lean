import Tortis.BorrowCheck.ConstraintGraph
import Tortis.BorrowCheck.PlacesConflict
import Tortis.Dataflow.Paths

/-!
# The borrows in scope

`dataflow/impls/borrows.rs`: the dataflow analysis of the borrows that are in scope. A depth-first
search finds, for every borrow, the locations where its region ends; the borrow is killed before
them. Assignments, the ends of storage and outputs of inline assembly kill the borrows of the places
they overwrite.
-/

namespace Tortis.BorrowCheck

open Dataflow

/-! ## Borrow sets -/

inductive LocalsStateAtExit where
  | allAreInvalidated
  | someAreInvalidated (hasStorageDeadOrMoved : Local → Bool)

/-- What is read of an `InlineAsmOutput`. -/
structure AsmOutput where
  isRw : Bool
  isIndirect : Bool

/-- What the analysis reads besides the statements and terminators of the body: types, the
mutability of locals, the constraints of inline assembly and the solution of the regions. -/
structure BorrowCx extends PlaceCx where
  localMutability : Local → Option Mutability
  asmOutputs : Location → List AsmOutput
  /-- `RegionInferenceContext::region_contains`. -/
  regionContains : RegionVid → Location → Bool

/-- `BorrowData`, without what the analysis does not read. -/
structure BorrowData where
  reserveLocation : Location
  region : RegionVid
  borrowedPlace : Place

/-- `BorrowSet`, without the activations. -/
structure BorrowSet where
  borrows : List BorrowData
  locationMap : Location → Option (Fin borrows.length)
  localMap : Local → List (Fin borrows.length)
  localsStateAtExit : LocalsStateAtExit

abbrev BorrowSet.Index (bs : BorrowSet) := Fin bs.borrows.length

def ignoreBorrow (cx : BorrowCx) (state : LocalsStateAtExit) (place : Place) : Outcome Bool := do
  let ignore ←
    match place.base with
    | .loc index =>
      match state with
      | .allAreInvalidated => .ok false
      | .someAreInvalidated hasStorageDeadOrMoved =>
        if hasStorageDeadOrMoved index then .ok false
        else do
          let mutability ← Outcome.expect "index out of bounds" (cx.localMutability index)
          .ok (mutability = .mutImmutable)
    | .static defId => .ok (cx.isMutableStatic defId)
  let rec derefs (projBase : List ProjectionElem) : List ProjectionElem → Outcome Bool
    | [] => .ok ignore
    | elem :: rest =>
      if elem = .deref then do
        let ty ← tyFrom cx.toPlaceCx place.base projBase
        match ty.ty with
        | .rawPtr _ | .ref _ .mutImmutable => .ok true
        | _ => derefs (projBase ++ [elem]) rest
      else derefs (projBase ++ [elem]) rest
  derefs [] place.projection

def statementAt (body : Body) (location : Location) : Option Statement :=
  body.basicBlocks[location.block]?.bind (·.statements[location.statementIndex]?)

/-- What `BorrowSet::build` makes of a body: the borrows are the references that are taken to places
that are not ignored, in blocks that can be reached, and the maps lead to them. -/
structure BorrowSet.Valid (cx : BorrowCx) (body : Body) (bs : BorrowSet) : Prop where
  reserved : ∀ i : bs.Index, ∃ lhs kind, statementAt body (bs.borrows.get i).reserveLocation =
      some (.assign lhs (.ref kind (bs.borrows.get i).borrowedPlace)) ∧
    ignoreBorrow cx bs.localsStateAtExit (bs.borrows.get i).borrowedPlace = .ok false
  locationMap_iff : ∀ P (i : bs.Index), bs.locationMap P = some i ↔
    (bs.borrows.get i).reserveLocation = P
  localMap_iff : ∀ l (i : bs.Index), i ∈ bs.localMap l ↔ (bs.borrows.get i).borrowedPlace.base = .loc l
  reachable : ∀ i : bs.Index, Reach body.successors START_BLOCK (bs.borrows.get i).reserveLocation.block

/-! ## Where regions end -/

structure StackEntry where
  bb : BasicBlock
  lo : Nat
  hi : Nat
  firstPartOnly : Bool

/-- The first location of a part of a block that is not in the region. -/
def firstOutside (contains : Location → Bool) (e : StackEntry) : Option Nat :=
  (List.range' e.lo (e.hi + 1 - e.lo)).find? fun i => !contains ⟨e.bb, i⟩

/-- The visited blocks, with the first statement that is processed, and the stack. -/
structure Search where
  visited : BasicBlock → Option Nat
  stack : List StackEntry

/-- The visit of a successor: the first part of a block that was entered in its middle, or the whole
of a block that was not seen before, is put on the stack. -/
def visitSuccessor (body : Body) (s : Search) (succBb : BasicBlock) : Outcome Search :=
  match s.visited succBb with
  | some lo =>
    .ok ⟨Function.update s.visited succBb (some 0),
      if lo > 0 then ⟨succBb, 0, lo - 1, true⟩ :: s.stack else s.stack⟩
  | none => do
    let data ← body.block succBb
    .ok ⟨Function.update s.visited succBb (some 0),
      ⟨succBb, 0, data.statements.length, false⟩ :: s.stack⟩

/-- The `while` loop of `precompute_borrows_out_of_scope`, for a region that contains the locations
`contains`; the result is the locations where the borrow gets killed. -/
def searchLoop (body : Body) (contains : Location → Bool) :
    Nat → Search → List Location → Outcome (List Location)
  | 0, _, _ => .error .outOfFuel
  | _ + 1, ⟨_, []⟩, killed => .ok killed
  | fuel + 1, ⟨visited, e :: stack⟩, killed =>
    match firstOutside contains e with
    | some i => searchLoop body contains fuel ⟨visited, stack⟩ (killed ++ [⟨e.bb, i⟩])
    | none =>
      if e.firstPartOnly then searchLoop body contains fuel ⟨visited, stack⟩ killed
      else do
        let data ← body.block e.bb
        Outcome.assert (e.hi = data.statements.length) "assertion failed: hi == statements.len()"
        let term ← Outcome.unwrap data.terminator
        let s ← term.successors.foldlM (visitSuccessor body) ⟨visited, stack⟩
        searchLoop body contains fuel s killed

def precomputeBorrowsOutOfScope (body : Body) (contains : Location → Bool) (fuel : Nat)
    (location : Location) : Outcome (List Location) := do
  let data ← body.block location.block
  searchLoop body contains fuel
    ⟨Function.update (fun _ => none) location.block (some location.statementIndex),
      [⟨location.block, location.statementIndex, data.statements.length, false⟩]⟩ []

/-! ## The analysis -/

structure Borrows where
  cx : BorrowCx
  body : Body
  borrowSet : BorrowSet
  /-- The entries of the map `borrows_out_of_scope_at_location`. -/
  outOfScope : List (Location × borrowSet.Index)

def Borrows.new (cx : BorrowCx) (body : Body) (bs : BorrowSet) (fuel : Nat) : Outcome Borrows := do
  let outOfScope ← (List.finRange bs.borrows.length).foldlM (fun entries i => do
    let killed ← precomputeBorrowsOutOfScope body (cx.regionContains (bs.borrows.get i).region) fuel
      (bs.borrows.get i).reserveLocation
    .ok (entries ++ killed.map (·, i))) []
  .ok ⟨cx, body, bs, outOfScope⟩

namespace Borrows

section
variable (bw : Borrows)

def bitsPerBlock : Nat := bw.borrowSet.borrows.length * 2

def bitOf (i : bw.borrowSet.Index) : Fin bw.bitsPerBlock :=
  ⟨i, by have := i.isLt; rw [bitsPerBlock]; omega⟩

def killLoansOutOfScopeAtLocation (location : Location) : List bw.borrowSet.Index :=
  (bw.outOfScope.filter (·.1 = location)).map Prod.snd

def killBorrowsOnPlace (place : Place) : Outcome (List bw.borrowSet.Index) :=
  match place.base with
  | .loc l =>
    if place.projection.isEmpty then .ok (bw.borrowSet.localMap l)
    else (bw.borrowSet.localMap l).filterM fun i =>
      placesConflict bw.cx.toPlaceCx (bw.borrowSet.borrows.get i).borrowedPlace place .noOverlap
  | .static _ => .ok []

end

/-- The borrow that a statement generates and those that it kills after that. -/
structure StatementEffect (bw : Borrows) where
  gen : Option bw.borrowSet.Index
  kill : List bw.borrowSet.Index

def statementEffect (bw : Borrows) (location : Location) : Outcome bw.StatementEffect := do
  let block ← Outcome.expect "could not find block at location"
    bw.body.basicBlocks[location.block]?
  let stmt ← Outcome.expect "could not find statement at location"
    block.statements[location.statementIndex]?
  match stmt with
  | .assign lhs (.ref _ place) =>
    -- a borrow that is ignored returns here, before the borrows of `lhs` are killed
    if ← ignoreBorrow bw.cx bw.borrowSet.localsStateAtExit place then .ok ⟨none, []⟩
    else do
      let index ← Outcome.expect "could not find BorrowIndex for location"
        (bw.borrowSet.locationMap location)
      let killed ← bw.killBorrowsOnPlace lhs
      .ok ⟨some index, killed⟩
  | .assign lhs _ => do
    let killed ← bw.killBorrowsOnPlace lhs
    .ok ⟨none, killed⟩
  | .storageDead l => do
    let killed ← bw.killBorrowsOnPlace (Place.ofLocal l)
    .ok ⟨none, killed⟩
  | .inlineAsm outputs _ => do
    let killed ← (outputs.zip (bw.cx.asmOutputs location)).foldlM (fun killed (output, kind) =>
      if !kind.isIndirect && !kind.isRw then do
        let more ← bw.killBorrowsOnPlace output
        .ok (killed ++ more)
      else .ok killed) []
    .ok ⟨none, killed⟩
  | .fakeRead _ | .setDiscriminant _ _ | .storageLive _ | .retag _ | .ascribeUserType _ | .nop =>
    .ok ⟨none, []⟩

def StatementEffect.ops {bw : Borrows} (e : bw.StatementEffect) : List (Effect bw.bitsPerBlock) :=
  e.gen.toList.map (fun i => .gen (bw.bitOf i)) ++ e.kill.map fun i => .kill (bw.bitOf i)

/-- No effect panics. -/
def Total (bw : Borrows) : Prop :=
  ∀ location, (statementAt bw.body location).isSome → ∃ e, bw.statementEffect location = .ok e

/-- `BitDenotation` for `Borrows`, when no effect panics. -/
def analysis (bw : Borrows) : BitDenotation false bw.bitsPerBlock where
  startBlockEffect := id
  beforeStatementEffect location :=
    (bw.killLoansOutOfScopeAtLocation location).map fun i => .kill (bw.bitOf i)
  statementEffect location := (bw.statementEffect location).toOption.elim [] StatementEffect.ops
  beforeTerminatorEffect location :=
    (bw.killLoansOutOfScopeAtLocation location).map fun i => .kill (bw.bitOf i)
  terminatorEffect _ := []
  propagateCallReturn inOut _ _ _ := inOut

end Borrows

end Tortis.BorrowCheck
