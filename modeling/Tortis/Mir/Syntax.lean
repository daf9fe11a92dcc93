import Tortis.Lib.Outcome

/-!
# MIR bodies

The data types of `librustc/mir/mod.rs`, as far as the passes modelled here read them: spans, scopes
and user type annotations are left out, and so are the operators of arithmetic rvalues. Blocks and
locals are the indices of their vectors. The ids of the transaction passes (`UniqueId`,
`TransactionUse`, `AllocationSet`, `Transaction`) are declared in the same source file and follow
at the end.
-/

namespace Tortis

/-- The id of a definition: a crate and an index in it. -/
structure DefId where
  krate : Nat
  index : Nat
deriving DecidableEq

def LOCAL_CRATE : Nat := 0

/-- A local variable of a body; `0` is the return place and the arguments follow. -/
abbrev Local := Nat

abbrev BasicBlock := Nat

def START_BLOCK : BasicBlock := 0

/-- A statement of a block, or the block's terminator when the index is the number of its
statements. -/
structure Location where
  block : BasicBlock
  statementIndex : Nat
deriving DecidableEq

/-! ## Types and constants -/

/-- Types, as far as callees are told apart by them. The arguments of a callee are its type
arguments; lifetime and const arguments are left out. -/
inductive Ty where
  | fnDef (defId : DefId) (substs : List Ty)
  | closure (defId : DefId) (substs : List Ty)
  | usize
  | other (name : String)

mutual
def Ty.decEq : (a b : Ty) → Decidable (a = b)
  | .fnDef d s, .fnDef d' s' =>
    match (inferInstance : Decidable (d = d')), Ty.decEqList s s' with
    | isTrue h, isTrue h' => isTrue (h ▸ h' ▸ rfl)
    | isFalse h, _ => isFalse fun e => h (Ty.fnDef.inj e).1
    | _, isFalse h => isFalse fun e => h (Ty.fnDef.inj e).2
  | .closure d s, .closure d' s' =>
    match (inferInstance : Decidable (d = d')), Ty.decEqList s s' with
    | isTrue h, isTrue h' => isTrue (h ▸ h' ▸ rfl)
    | isFalse h, _ => isFalse fun e => h (Ty.closure.inj e).1
    | _, isFalse h => isFalse fun e => h (Ty.closure.inj e).2
  | .usize, .usize => isTrue rfl
  | .other n, .other n' => decidable_of_iff (n = n') ⟨fun h => h ▸ rfl, fun h => Ty.other.inj h⟩
  | .fnDef .., .closure .. | .fnDef .., .usize | .fnDef .., .other .. | .closure .., .fnDef ..
  | .closure .., .usize | .closure .., .other .. | .usize, .fnDef .. | .usize, .closure ..
  | .usize, .other .. | .other .., .fnDef .. | .other .., .closure .. | .other .., .usize =>
    isFalse nofun

def Ty.decEqList : (a b : List Ty) → Decidable (a = b)
  | [], [] => isTrue rfl
  | t :: ts, t' :: ts' =>
    match Ty.decEq t t', Ty.decEqList ts ts' with
    | isTrue h, isTrue h' => isTrue (h ▸ h' ▸ rfl)
    | isFalse h, _ => isFalse fun e => h (List.cons.inj e).1
    | _, isFalse h => isFalse fun e => h (List.cons.inj e).2
  | [], _ :: _ | _ :: _, [] => isFalse nofun
end

instance : DecidableEq Ty := Ty.decEq

inductive ConstValue where
  | zeroSized
  | bits (data : Nat)
  | other (repr : String)
deriving DecidableEq

structure Const where
  ty : Ty
  val : ConstValue
deriving DecidableEq

def Const.zeroSized (ty : Ty) : Const := ⟨ty, .zeroSized⟩

def Const.fromUsize (n : Nat) : Const := ⟨.usize, .bits n⟩

/-! ## Places and operands -/

inductive PlaceBase where
  | loc (l : Local)
  | static (defId : DefId)
deriving DecidableEq

/-- One step of a place's path. -/
inductive ProjectionElem where
  | deref
  | field (f : Nat)
  | index (l : Local)
  | constantIndex (offset minLength : Nat) (fromEnd : Bool)
  | subslice (lo hi : Nat)
  | downcast (variant : Nat)
deriving DecidableEq

/-- A path to a value. -/
structure Place where
  base : PlaceBase
  projection : List ProjectionElem
deriving DecidableEq

/-- `Place::local_or_deref_local`: the local of a place that is a local or one dereference of a
local. -/
def Place.localOrDerefLocal : Place → Option Local
  | ⟨.loc l, []⟩ => some l
  | ⟨.loc l, [.deref]⟩ => some l
  | _ => none

def Place.ofLocal (l : Local) : Place := ⟨.loc l, []⟩

inductive Operand where
  | copy (p : Place)
  | move (p : Place)
  | constant (literal : Const)
deriving DecidableEq

inductive BorrowKind where
  | shared
  | shallow
  | unique
  | mut (allowTwoPhase : Bool)
deriving DecidableEq

inductive AggregateKind where
  | array
  | tuple
  | adt (adt : DefId) (variant : Nat)
  | closure (defId : DefId) (substs : List Ty)
  | generator (defId : DefId) (substs : List Ty)
deriving DecidableEq

/-- The right-hand side of an assignment. -/
inductive Rvalue where
  | use (op : Operand)
  | repeat (op : Operand) (count : Nat)
  | ref (kind : BorrowKind) (place : Place)
  | len (place : Place)
  | cast (op : Operand)
  | binaryOp (lhs rhs : Operand)
  | checkedBinaryOp (lhs rhs : Operand)
  | nullaryOp
  | unaryOp (op : Operand)
  | discriminant (place : Place)
  | aggregate (kind : AggregateKind) (ops : List Operand)
deriving DecidableEq

/-! ## Statements and terminators -/

inductive Statement where
  | assign (place : Place) (rvalue : Rvalue)
  | fakeRead (place : Place)
  | setDiscriminant (place : Place) (variant : Nat)
  | storageLive (l : Local)
  | storageDead (l : Local)
  | inlineAsm (outputs : List Place) (inputs : List Operand)
  | retag (place : Place)
  | ascribeUserType (place : Place)
  | nop
deriving DecidableEq

/-- The message of an assertion, as far as it has operands. -/
inductive AssertMessage where
  | boundsCheck (len index : Operand)
  | other
deriving DecidableEq

inductive Terminator where
  | goto (target : BasicBlock)
  | switchInt (discr : Operand) (values : List Nat) (targets : List BasicBlock)
  | resume
  | abort
  | ret
  | unreachable
  | drop (location : Place) (target : BasicBlock) (unwind : Option BasicBlock)
  | dropAndReplace (location : Place) (value : Operand) (target : BasicBlock)
      (unwind : Option BasicBlock)
  | call (func : Operand) (args : List Operand) (destination : Option (Place × BasicBlock))
      (cleanup : Option BasicBlock)
  | assert (cond : Operand) (expected : Bool) (msg : AssertMessage) (target : BasicBlock)
      (cleanup : Option BasicBlock)
  | yield (value : Operand) (resume : BasicBlock) (drop : Option BasicBlock)
  | generatorDrop
  | falseEdges (realTarget imaginaryTarget : BasicBlock)
  | falseUnwind (realTarget : BasicBlock) (unwind : Option BasicBlock)
deriving DecidableEq

/-- `TerminatorKind::successors`: the normal successor, then the unwind or drop successor, or the
targets of a switch. -/
def Terminator.successors : Terminator → List BasicBlock
  | .resume | .abort | .generatorDrop | .ret | .unreachable => []
  | .goto t => [t]
  | .call _ _ destination cleanup => (destination.map Prod.snd).toList ++ cleanup.toList
  | .yield _ t u | .dropAndReplace _ _ t u | .drop _ t u | .assert _ _ _ t u | .falseUnwind t u =>
    t :: u.toList
  | .switchInt _ _ targets => targets
  | .falseEdges t u => [t, u]

/-! ## Bodies -/

/-- A basic block. The terminator is missing only while a pass has taken it out. -/
structure BasicBlockData where
  statements : List Statement
  terminator : Option Terminator
  isCleanup : Bool := false
deriving DecidableEq

/-- The declaration of a local, as far as `local_kind` reads it. -/
structure LocalDecl where
  name : Option String
deriving DecidableEq

structure Body where
  basicBlocks : List BasicBlockData
  localDecls : List LocalDecl
  argCount : Nat
deriving DecidableEq

inductive LocalKind where
  | returnPointer
  | arg
  | var
  | temp
deriving DecidableEq

def Body.localKind (body : Body) (l : Local) : LocalKind :=
  if l = 0 then .returnPointer
  else if l < body.argCount + 1 then .arg
  else if (body.localDecls[l]?.bind LocalDecl.name).isSome then .var
  else .temp

def Body.terminatorOf (body : Body) (bb : BasicBlock) : Option Terminator :=
  body.basicBlocks[bb]?.bind BasicBlockData.terminator

def Body.successors (body : Body) (bb : BasicBlock) : List BasicBlock :=
  (body.terminatorOf bb).elim [] Terminator.successors

/-- The bodies the compiler hands to its passes: there is a start block, and every block has a
terminator whose successors are blocks. -/
structure Body.WF (body : Body) : Prop where
  start : START_BLOCK < body.basicBlocks.length
  terminated : ∀ data ∈ body.basicBlocks, data.terminator.isSome
  inRange : ∀ bb, ∀ t ∈ body.successors bb, t < body.basicBlocks.length

theorem Body.wf_of_blocks {body : Body} (hs : START_BLOCK < body.basicBlocks.length)
    (h : ∀ data ∈ body.basicBlocks, data.terminator.isSome ∧
      ∀ t ∈ data.terminator.elim [] Terminator.successors, t < body.basicBlocks.length) :
    body.WF where
  start := hs
  terminated data hd := (h data hd).1
  inRange bb t ht := by
    rw [Body.successors, Body.terminatorOf] at ht
    cases hbb : body.basicBlocks[bb]? with
    | none => simp [hbb] at ht
    | some data =>
      rw [hbb] at ht
      exact (h data (List.mem_of_getElem? hbb)).2 t ht

theorem Body.WF.terminatorOf {body : Body} (h : body.WF) {bb : BasicBlock}
    (hbb : bb < body.basicBlocks.length) : ∃ t, body.terminatorOf bb = some t := by
  have := h.terminated body.basicBlocks[bb] (List.getElem_mem hbb)
  obtain ⟨t, ht⟩ := Option.isSome_iff_exists.1 this
  exact ⟨t, by simp [Body.terminatorOf, hbb, ht]⟩

/-! ## Ids of the transaction passes -/

/-- A local, or a field of it, on a line of code. -/
structure UniqueId where
  defId : DefId
  localId : Local
  location : Location
  field : Option Nat
deriving DecidableEq

structure TransactionUse where
  sharedObject : UniqueId
  isWrite : Bool
deriving DecidableEq

/-- The shared objects one body has seen a transaction use. -/
structure AllocationSet where
  lock : UniqueId
  unlock : UniqueId
  allocations : List TransactionUse

structure Transaction where
  lock : UniqueId
  unlock : UniqueId
  isWrite : Bool
deriving DecidableEq

end Tortis
