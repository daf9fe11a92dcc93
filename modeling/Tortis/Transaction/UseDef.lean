import Tortis.Mir.Visit
import Tortis.Transaction.Map

/-!
# Use-def analysis

`UseDefVisitor` (`librustc_mir/transform/transaction/use_def_analysis.rs`) follows every allocation of
a shared object through the locals it flows to, into the functions it is passed to, and enters it
under each transaction in which it is borrowed.

`trace` calls itself on the locals a value flows to, and creates a child visitor for a called
function, whose `perform` calls `trace` again; neither recursion has an evident end, so both take
fuel, as does `use_set`, which follows recorded edges.
-/

namespace Tortis

open Bool Outcome

/-! ## Names of functions -/

/-- What a local is used for at a location. -/
inductive UseKind where
  /-- Used in a function with the given DefId as argument # usize. -/
  | function (l : Local) (defId : DefId) (argIndex : Nat)
  /-- Used by another Local. -/
  | loc (l : Local)
  /-- Used in a closure with the given arguments. -/
  | closureArg (l : Local) (operands : List Operand)
  /-- Used in a final read. -/
  | read (l : Local)
  /-- Used in a final write. -/
  | write (l : Local)
deriving DecidableEq

/-- The compiler context the analysis reads: the lang items, the validated bodies of the crate, and
how a callee is printed. -/
structure TyCtxt where
  langItems : LangItems
  bodies : FxHashMap DefId Body
  /-- `format!("{:?}", func)`. -/
  funcName : Operand → String

def TyCtxt.mirValidated (tcx : TyCtxt) (defId : DefId) : Outcome Body :=
  expect "no MIR for this definition" (tcx.bodies.get defId)

namespace UseDefVisitor

section
variable (funcName : String)

def isNew : Bool :=
  funcName.startsWith "const txcell::TxPtr::<" && funcName.endsWith ">::new"

def isArcVec : Bool :=
  funcName.startsWith "const std::vec::Vec::<std::sync::Arc<txcell::TxPtr<" &&
    funcName.endsWith ">>>::new"

def isVec : Bool :=
  funcName.startsWith "const std::vec::Vec::<txcell::TxPtr<" && funcName.endsWith ">>::new"

def isVecIndex : Bool :=
  funcName.startsWith "const <std::vec::Vec<txcell::TxPtr<" &&
    funcName.endsWith ">> as std::ops::Index<usize>>::index"

def isArcVecIndex : Bool :=
  funcName.startsWith "const <std::vec::Vec<std::sync::Arc<txcell::TxPtr<" &&
    funcName.endsWith ">>> as std::ops::Index<usize>>::index"

def isTree : Bool :=
  funcName.startsWith "const txcell::tree::BinarySearchTree::<" && funcName.endsWith ">::new"

def isTreeFind : Bool :=
  funcName.startsWith "const txcell::tree::BinarySearchTree::<" && funcName.endsWith ">::find"

def isTreeAdd : Bool :=
  funcName.startsWith "const txcell::tree::BinarySearchTree::<" && funcName.endsWith ">::add"

def isDeref : Bool :=
  funcName.startsWith "const <std::sync::Arc<txcell::TxPtr<" &&
    funcName.endsWith ">> as std::ops::Deref>::deref"

def isVecDeref : Bool :=
  funcName.startsWith "const <std::sync::Arc<std::vec::Vec<txcell::TxPtr<" &&
    funcName.endsWith ">>> as std::ops::Deref>::deref"

def isTreeDeref : Bool :=
  funcName.startsWith "const <std::sync::Arc<txcell::tree::BinarySearchTree<" &&
    funcName.endsWith ">> as std::ops::Deref>::deref"

def isArcNew : Bool :=
  funcName.startsWith "const std::sync::Arc::<" && funcName.endsWith ">::new"

def isClone : Bool :=
  funcName.endsWith "> as std::clone::Clone>::clone"

def isRead : Bool :=
  funcName.startsWith "const txcell::TxPtr::<" && funcName.endsWith ">::borrow"

def isWriteCall : Bool :=
  funcName.startsWith "const txcell::TxPtr::<" && funcName.endsWith ">::borrow_mut"

/-- The functions `visit_terminator` takes for allocations of shared objects. -/
def isAllocation : Bool :=
  isNew funcName || isVec funcName || isTree funcName || isArcVec funcName

/-- The functions `location_to_use_kind` takes for borrows of shared objects. -/
def isBorrow : Bool :=
  isRead funcName || isTreeFind funcName || isWriteCall funcName || isTreeAdd funcName

end

theorem suffix_of_endsWith {name a b : String} (ha : name.endsWith a) (hb : name.endsWith b) :
    a.toList <:+ b.toList ∨ b.toList <:+ a.toList := by
  have h : ∀ {pat : String}, name.endsWith pat → pat.toList <:+ name.toList := fun h => by
    have := String.Slice.endsWith_string_iff.1 h
    rwa [String.copy_toSlice] at this
  exact List.suffix_or_suffix_of_suffix (h ha) (h hb)

theorem isAllocation_of_isBorrow {name : String} (h : isBorrow name) : isAllocation name = false := by
  have hborrow : ∃ b ∈ [">::borrow", ">::find", ">::borrow_mut", ">::add"], name.endsWith b := by
    simp only [isBorrow, isRead, isTreeFind, isWriteCall, isTreeAdd, or_eq_true, and_eq_true] at h
    grind
  obtain ⟨b, hb, hborrow⟩ := hborrow
  by_contra halloc
  have halloc : ∃ a ∈ [">::new", ">>::new", ">>>::new"], name.endsWith a := by
    simp only [isAllocation, isNew, isVec, isTree, isArcVec, not_eq_false, or_eq_true,
      and_eq_true] at halloc
    grind
  obtain ⟨a, ha, halloc⟩ := halloc
  have hdisjoint : ∀ a ∈ [">::new", ">>::new", ">>>::new"],
      ∀ b ∈ [">::borrow", ">::find", ">::borrow_mut", ">::add"],
        ¬ (a.toList <:+ b.toList ∨ b.toList <:+ a.toList) := by
    decide
  exact hdisjoint a ha b hb (suffix_of_endsWith halloc hborrow)

/-! ## Kinds of uses -/

def getLocal : Operand → Option Local
  | .copy place | .move place => place.localOrDerefLocal
  | .constant _ => none

def hasField (useField : Nat) (place : Place) : Bool :=
  place.projection.any fun
    | .field field => field == useField
    | _ => false

/-- The part of `location_to_use_kind` for a statement. -/
def statementUseKind (useId : UniqueId) : Statement → Option UseKind
  | .assign place rvalue =>
    match place.localOrDerefLocal with
    | none => none
    | some l =>
      match useId.field with
      | some useField =>
        match rvalue with
        | .use (.move place) | .ref _ place => if hasField useField place then some (.loc l) else none
        | .aggregate (.closure ..) ops => some (.closureArg l ops)
        | _ => none
      | none =>
        match rvalue with
        | .aggregate (.closure ..) ops => some (.closureArg l ops)
        | _ => some (.loc l)
  | _ => none

/-- The definition of a type that is a closure. -/
def closureDefId : Ty → Option DefId
  | .closure defId _ => some defId
  | _ => none

/-- The part of `location_to_use_kind` for a call of a function that is not told by its name. -/
def functionUseKind (useId : UniqueId) (fnDefId : DefId) (substs : List Ty) (args : List Operand)
    (destination : Option (Place × BasicBlock)) : Outcome (Option UseKind) :=
  match substs.findSome? closureDefId, useId.field with
  | some closureDefId, some field => do
    let l ← unwrap (localFromDest destination)
    return some (.function l closureDefId field)
  | _, _ =>
    match args.findIdx? (getLocal · = some useId.localId) with
    | some i => do
      let l ← unwrap (localFromDest destination)
      return some (.function l fnDefId i)
    | none => return none

def terminatorUseKind (tcx : TyCtxt) (useId : UniqueId) : Terminator → Outcome (Option UseKind)
  | .call func args destination _ => do
    let funcName := tcx.funcName func
    if isRead funcName || isTreeFind funcName then
      let l ← unwrap (localFromDest destination)
      return some (.read l)
    else if isWriteCall funcName || isTreeAdd funcName then
      let l ← unwrap (localFromDest destination)
      return some (.write l)
    else if isDeref funcName || isVecDeref funcName || isTreeDeref funcName || isArcNew funcName ||
        isClone funcName || isVecIndex funcName || isArcVecIndex funcName then
      let l ← unwrap (localFromDest destination)
      return some (.loc l)
    else
      match func with
      | .constant ⟨.fnDef fnDefId substs, _⟩ => functionUseKind useId fnDefId substs args destination
      | _ => return none
  | _ => return none

def locationToUseKind (tcx : TyCtxt) (location : Location) (useId : UniqueId) (body : Body) :
    Outcome (Option UseKind) :=
  match body.basicBlocks[location.block]? with
  | none => return none
  | some bbData =>
    match bbData.statements[location.statementIndex]? with
    | some stmt => return statementUseKind useId stmt
    | none =>
      if location.statementIndex > bbData.statements.length then return none
      else do
        let term ← unwrap bbData.terminator
        terminatorUseKind tcx useId term

end UseDefVisitor

/-! ## The visitor -/

/-- Finds all uses of shared objects and associates them with their allocations. -/
structure UseDefVisitor where
  analysis : DefUseAnalysis
  /-- The ID of the relevant argument to trace, if relevant -/
  argId : Option UniqueId
  /-- The index of the relevant argument to trace, if relevant -/
  argIndex : Option Nat
  body : Body
  /-- Mapping from a transaction ID to the set of shared objects it uses. -/
  allocationSet : FxHashMap (UniqueId × UniqueId) (FxHashSet TransactionUse)
  /-- The current allocation whose uses we are following. -/
  currentAllocation : Option UniqueId
  defId : DefId
  /-- Map from a local to all the places it's used. -/
  edges : FxHashMap UniqueId (FxHashSet UniqueId)
  /-- Whether the transaction use is a write or read -/
  isWrite : FxHashMap UniqueId Bool
  /-- Map from a terminator ID to the ID of the transaction in which it's contained. -/
  transactionMap : TransactionMap
  vertices : FxHashSet UniqueId

namespace UseDefVisitor

/-- What stands for the recursive calls of `trace`. -/
abbrev Tracer := UseDefVisitor → UniqueId → Outcome UseDefVisitor

section
variable (v : UseDefVisitor)

def uniqueId (l : Local) (location : Location) (field : Option Nat) : UniqueId :=
  ⟨v.defId, l, location, field⟩

def newChild (argId : Option UniqueId) (argIndex : Option Nat) (body : Body) (defId : DefId)
    (transactionMap : TransactionMap) (parent : UseDefVisitor) : Outcome UseDefVisitor := do
  let analysis ← DefUseAnalysis.analyze body
  return { parent with analysis, argId, argIndex, body, defId, transactionMap }

def new (body : Body) (defId : DefId) (tcx : TyCtxt) : Outcome UseDefVisitor := do
  let analysis ← DefUseAnalysis.analyze body
  return {
    analysis
    argId := none
    argIndex := none
    body
    allocationSet := ∅
    currentAllocation := none
    defId
    edges := ∅
    isWrite := ∅
    transactionMap := TransactionMap.new defId body tcx.langItems
    vertices := ∅ }

/-- `connect`: make an edge from src to dst. -/
def connect (src dest : UniqueId) : UseDefVisitor :=
  { v with edges := v.edges.addTo src dest }

/-- `map_allocation`: find the transaction a borrow is inside and associate it with the current
allocation. -/
def mapAllocation (borrowId : UniqueId) : Outcome UseDefVisitor :=
  match v.transactionMap.terminatorToTx.get borrowId with
  | some txIds => do
    let allocation ← unwrap v.currentAllocation
    let isWrite ← unwrap (v.isWrite.get borrowId)
    return { v with allocationSet := v.allocationSet.addTo txIds ⟨allocation, isWrite⟩ }
  | none => return v

end

section
variable (ord : IterOrder)

/-- `use_set`: follow these uses through the edges map to their terminal leaves (uses). -/
def useSet (v : UseDefVisitor) : Nat → FxHashSet UniqueId → Outcome (FxHashSet TransactionUse)
  | 0, _ => .error .outOfFuel
  | n + 1, edges =>
    (ord.order edges.toList).foldlM
      (fun allocations edge =>
        match v.edges.get edge with
        | some newEdges => do
          let uses ← v.useSet n newEdges
          return allocations.extend (ord.order uses.toList)
        | none => do
          let isWrite ← unwrap (v.isWrite.get edge)
          return allocations.insert ⟨edge, isWrite⟩)
      ∅

/-- What `trace` does with a vertex its local flows to: trace it, or, when it is already visited, map
the current allocation to the uses its edges lead to. -/
def follow (trace : Tracer) (n : Nat) (v : UseDefVisitor) (useId newUseId : UniqueId) :
    Outcome UseDefVisitor :=
  let v := v.connect useId newUseId
  if newUseId ∈ v.vertices then do
    let edges ← unwrap (v.edges.get newUseId)
    let uses ← v.useSet ord n edges
    (ord.order uses.toList).foldlM (fun v use => v.mapAllocation use.sharedObject) v
  else trace { v with vertices := v.vertices.insert newUseId } newUseId

/-- What `trace` does with a borrow. -/
def borrow (v : UseDefVisitor) (useId borrowId : UniqueId) (isWrite : Bool) :
    Outcome UseDefVisitor := do
  let v ← { v with isWrite := v.isWrite.insert borrowId isWrite }.mapAllocation borrowId
  let v := v.connect useId borrowId
  return { v with vertices := v.vertices.insert borrowId }

/-- What `trace` does with one operand of a closure: a captured local, or a field of it. -/
def closureOperand (trace : Tracer) (n : Nat) (useId : UniqueId) (newUseLocal : Local)
    (location : Location) (v : UseDefVisitor) (operand : Operand × Nat) : Outcome UseDefVisitor :=
  let newUseId := v.uniqueId newUseLocal location (some operand.2)
  match getLocal operand.1, useId.field, operand.1 with
  | some opLocal, _, _ =>
    if opLocal = useId.localId then v.follow ord trace n useId newUseId else .ok v
  | none, some useField, .move ⟨.loc opLocal, projection⟩ =>
    if opLocal = useId.localId then
      projection.foldlM
        (fun v elem => match elem with
          | .field field =>
            if field = useField then v.follow ord trace n useId newUseId else .ok v
          | _ => .ok v)
        v
    else .ok v
  | none, _, _ => .ok v

/-- `visit_local`: in a child visitor, trace the argument that is looked at. -/
def visitLocal (trace : Tracer) (v : UseDefVisitor) (l : Local) (location : Location) :
    Outcome UseDefVisitor :=
  match v.argId with
  | none => .ok v
  | some oldArgId =>
    if v.body.localKind l ≠ .arg then .ok v
    else do
      let argIndex ← unwrap v.argIndex
      if argIndex ≠ l - 1 then .ok v
      else
        let newArgId := v.uniqueId l location oldArgId.field
        let v := v.connect oldArgId newArgId
        trace { v with vertices := v.vertices.insert newArgId } newArgId

section
variable (tcx : TyCtxt)

section
variable (trace : Tracer)

/-- `visit_terminator`: trace a new allocation. -/
def visitTerminator (v : UseDefVisitor) (term : Terminator)
    (location : Location) : Outcome UseDefVisitor :=
  match term with
  | .call func _ destination _ =>
    if isAllocation (tcx.funcName func) then do
      let funcLocal ← unwrap (localFromDest destination)
      let funcId := v.uniqueId funcLocal location none
      let v ← trace
        { v with currentAllocation := some funcId, vertices := v.vertices.insert funcId } funcId
      return { v with currentAllocation := none }
    else .ok v
  | _ => .ok v

def visitBasicBlockData (v : UseDefVisitor)
    (block : BasicBlockData × BasicBlock) : Outcome UseDefVisitor := do
  let v ← (block.1.statementLocals block.2).foldlM
    (fun v occ => v.visitLocal trace occ.1 occ.2.2) v
  match block.1.terminator with
  | some term => v.visitTerminator tcx trace term ⟨block.2, block.1.statements.length⟩
  | none => return v

/-- `perform`, up to the final copy of `allocation_set`. -/
def performWith (v : UseDefVisitor) : Outcome UseDefVisitor := do
  let transactionMap ← v.transactionMap.perform ord
  v.body.basicBlocks.zipIdx.foldlM (visitBasicBlockData tcx trace) { v with transactionMap }

/-- What `trace` copies back from a child visitor. -/
def merge (v child : UseDefVisitor) : UseDefVisitor :=
  { v with
    transactionMap := { v.transactionMap with
      terminatorToTx := v.transactionMap.terminatorToTx.insertAll ord
        child.transactionMap.terminatorToTx }
    edges := v.edges.extendAll ord child.edges
    vertices := v.vertices.extend (ord.order child.vertices.toList)
    allocationSet := v.allocationSet.extendAll ord child.allocationSet
    isWrite := v.isWrite.insertAll ord child.isWrite }

/-- What `trace` does with a call of a local function: perform the analysis of its body with a child
visitor that follows the argument. -/
def enterFunction (v : UseDefVisitor) (useId : UniqueId)
    (location : Location) (fnLocal : Local) (fnDefId : DefId) (argIndex : Nat) :
    Outcome UseDefVisitor := do
  let fnBody ← tcx.mirValidated fnDefId
  let txIds := v.transactionMap.terminatorToTx.get (v.uniqueId fnLocal location none)
  let fnArgIndex := match useId.field with
    | some _ => 0
    | none => argIndex
  let fnTxMap := TransactionMap.newChild fnDefId fnBody txIds tcx.langItems
    v.transactionMap.terminatorToTx
  let child ← newChild (some useId) (some fnArgIndex) fnBody fnDefId fnTxMap v
  let child ← child.performWith ord tcx trace
  return v.merge ord child

end

/-- The loop of `trace` over the uses of a local. A call of a function of another crate ends it. -/
def traceUses (tcx : TyCtxt) (trace : Tracer) (n : Nat) (useId : UniqueId) :
    List Use → UseDefVisitor → Outcome UseDefVisitor
  | [], v => .ok v
  | use :: uses, v => do
    match ← locationToUseKind tcx use.location useId v.body with
    | none => traceUses tcx trace n useId uses v
    | some (.loc newUseLocal) =>
      let v ← v.follow ord trace n useId (v.uniqueId newUseLocal use.location none)
      traceUses tcx trace n useId uses v
    | some (.closureArg newUseLocal operands) =>
      let v ← operands.zipIdx.foldlM (closureOperand ord trace n useId newUseLocal use.location) v
      traceUses tcx trace n useId uses v
    | some (.read borrowLocal) =>
      let v ← v.borrow useId (v.uniqueId borrowLocal use.location none) false
      traceUses tcx trace n useId uses v
    | some (.write borrowLocal) =>
      let v ← v.borrow useId (v.uniqueId borrowLocal use.location none) true
      traceUses tcx trace n useId uses v
    | some (.function fnLocal fnDefId argIndex) =>
      if fnDefId.krate ≠ LOCAL_CRATE then return v
      else
        let v ← v.enterFunction ord tcx trace useId use.location fnLocal fnDefId argIndex
        traceUses tcx trace n useId uses v

/-- `trace`: trace and find all the uses of `use_id`. -/
def trace (tcx : TyCtxt) : Nat → Tracer
  | 0, _, _ => .error .outOfFuel
  | n + 1, v, useId => do
    let info ← v.analysis.localInfo useId.localId
    let uses := info.filter (·.context.isNonmutatingUse)
    traceUses ord tcx (trace tcx n) n useId uses v

def perform (n : Nat) (v : UseDefVisitor) :
    Outcome (FxHashMap (UniqueId × UniqueId) (FxHashSet TransactionUse)) := do
  return (← v.performWith ord tcx (trace ord tcx n)).allocationSet

end

end

end UseDefVisitor

/-! ## Programs over the transaction runtime -/

namespace Sample

/-! The functions of other crates that the sample programs call. -/

def lock : DefId := ⟨1, 0⟩
def unlock : DefId := ⟨1, 1⟩
def txPtrNew : DefId := ⟨1, 2⟩
def txPtrBorrow : DefId := ⟨1, 3⟩
def txPtrBorrowMut : DefId := ⟨1, 4⟩
def foreign : DefId := ⟨1, 5⟩
def readLock : DefId := ⟨1, 6⟩
def readUnlock : DefId := ⟨1, 7⟩
def writeLock : DefId := ⟨1, 8⟩
def writeUnlock : DefId := ⟨1, 9⟩

def langItems : LangItems :=
  ⟨some lock, some unlock, some readLock, some readUnlock, some writeLock, some writeUnlock⟩

/-- How the callees of the sample programs are printed. -/
def funcName : Operand → String
  | .constant ⟨.fnDef f _, _⟩ =>
    if f = txPtrNew then "const txcell::TxPtr::<i32>::new"
    else if f = txPtrBorrow then "const txcell::TxPtr::<i32>::borrow"
    else if f = txPtrBorrowMut then "const txcell::TxPtr::<i32>::borrow_mut"
    else "const helper"
  | _ => "_0"

def call (f : DefId) (args : List Operand) (dest : Local) (target : BasicBlock) : Terminator :=
  .call (.constant (.zeroSized (.fnDef f []))) args (some (.ofLocal dest, target)) none

def moved (l : Local) : Operand := .move (.ofLocal l)

/-- `dest = &src`. -/
def refOf (dest src : Local) : Statement := .assign (.ofLocal dest) (.ref .shared (.ofLocal src))

/-- `dest = &*src`. -/
def reborrow (dest src : Local) : Statement :=
  .assign (.ofLocal dest) (.ref .shared ⟨.loc src, [.deref]⟩)

def block (statements : List Statement) (term : Terminator) : BasicBlockData :=
  ⟨statements, some term, false⟩

/-- A body with unnamed locals. -/
def body (blocks : List BasicBlockData) (locals args : Nat) : Body :=
  ⟨blocks, List.replicate locals ⟨none⟩, args⟩

/-- A crate of some bodies, the first with index `0`. -/
def crate (bodies : List Body) : TyCtxt where
  langItems := langItems
  bodies := bodies.zipIdx.foldl (fun m e => m.insert ⟨0, e.2⟩ e.1) ∅
  funcName := funcName

theorem isAllocation_new :
    UseDefVisitor.isAllocation (funcName (.constant (.zeroSized (.fnDef txPtrNew [])))) := by
  with_unfolding_all decide

end Sample

end Tortis
