import Mathlib.Data.List.Basic

/-!
# Expressions before and after lowering

Parsed expressions (`libsyntax/ast.rs`) and the expressions that they are lowered to
(`librustc/hir/mod.rs`), as far as they say in which order things are evaluated and where control
goes. Everything else is an operation with its operands: calls, operators, literals, paths,
assignments, structs and also closures, whose bodies are lowered on their own.
-/

namespace Tortis.Hir

/-- `NodeId`, and the `HirId` that it is lowered to. -/
abbrev NodeId := Nat

inductive LoopIdError where
  | outsideLoopScope
  | unlabeledCfInWhileCondition
  | unresolvedLabel

/-- The loop or block that a jump goes to: `Destination::target_id`. -/
abbrev Target := Except LoopIdError NodeId

/-- A label, as the loop or block that it resolves to, if there is one. -/
abbrev Label := Option NodeId

namespace Ast

mutual

/-- `ast::ExprKind`, with the node id of loops. -/
inductive Expr where
  | op (operands : List Expr)
  | lazyBinary (lhs rhs : Expr)
  | letPat (scrutinee : Expr)
  | ifElse (cond : Expr) (thenBlock : Block) (elseOpt : Option Expr)
  | whileLoop (id : NodeId) (cond : Expr) (body : Block)
  | forLoop (id : NodeId) (head : Expr) (body : Block)
  | loop (id : NodeId) (body : Block)
  | matchOn (scrutinee : Expr) (arms : List Arm)
  | block (block : Block) (labeled : Bool)
  | tryBlock (body : Block)
  | transactionBlock (body : Block)
  | breakTo (label : Option Label) (value : Option Expr)
  | continueTo (label : Option Label)
  | ret (value : Option Expr)
  | question (operand : Expr)

inductive Block where
  | mk (id : NodeId) (stmts : List Stmt)

/-- `ast::StmtKind`. -/
inductive Stmt where
  | bind (init : Option Expr)
  | item
  | expr (e : Expr)
  | semi (e : Expr)

inductive Arm where
  | mk (guard : Option Expr) (body : Expr)

end

end Ast

mutual

/-- `hir::ExprKind`. -/
inductive Expr where
  | op (operands : List Expr)
  | lazyBinary (lhs rhs : Expr)
  | dropTemps (e : Expr)
  | loop (id : NodeId) (body : Block)
  | matchOn (scrutinee : Expr) (arms : List Arm)
  | block (block : Block)
  | breakTo (target : Target) (value : Option Expr)
  | continueTo (target : Target)
  | ret (value : Option Expr)
  | lock
  | unlock

/-- `hir::Block`. An `id` that is `none` is a fresh one, which no jump names. -/
inductive Block where
  | mk (id : Option NodeId) (stmts : List Stmt) (expr : Option Expr) (targetedByBreak : Bool)

/-- `hir::StmtKind`. -/
inductive Stmt where
  | bind (init : Option Expr)
  | item
  | expr (e : Expr)
  | semi (e : Expr)

inductive Arm where
  | mk (guard : Option Expr) (body : Expr)

end

/-! ## Lowering -/

/-- The part of `LoweringContext` that jumps are lowered with. The innermost scopes come first. -/
structure LoweringContext where
  loopScopes : List NodeId
  catchScopes : List NodeId
  isInLoopCondition : Bool

namespace LoweringContext

section
variable (cx : LoweringContext)

def withLoopScope (id : NodeId) : LoweringContext :=
  { cx with loopScopes := id :: cx.loopScopes, isInLoopCondition := false }

def withLoopConditionScope : LoweringContext :=
  { cx with isInLoopCondition := true }

def withCatchScope (id : NodeId) : LoweringContext :=
  { cx with catchScopes := id :: cx.catchScopes }

def lowerLoopDestination : Option Label → Target
  | some (some loopId) => .ok loopId
  | some none => .error .unresolvedLabel
  | none =>
    match cx.loopScopes.head? with
    | some id => .ok id
    | none => .error .outsideLoopScope

def lowerJumpDestination (label : Option Label) : Target :=
  if cx.isInLoopCondition && label.isNone then .error .unlabeledCfInWhileCondition
  else cx.lowerLoopDestination label

/-- The jump of `?` for an error: out of the innermost `try` block, or a return. -/
def lowerErrorJump (value : Expr) : Expr :=
  match cx.catchScopes.head? with
  | some catchNode => .breakTo (.ok catchNode) (some value)
  | none => .ret (some value)

end

end LoweringContext

def pathExpr : Expr := .op []

def exprCallStdPath (arg : Expr) : Expr := .op [pathExpr, arg]

section
variable (cx : LoweringContext)

def exprBreak : Expr :=
  .breakTo (cx.lowerLoopDestination none) none

/-- An arm of a match that is generated. -/
def arm (body : Expr) : Arm := .mk none body

def blockAll (stmts : List Stmt) (expr : Option Expr) : Block := .mk none stmts expr false

/-- The statements of `lower_transaction_block`. -/
def transactionStmts (body : Block) : List Stmt :=
  [.expr .lock, .expr (.block body), .expr .unlock]

/-- `lower_expr_try`, of a lowered operand. -/
def lowerQuestion (operand : Expr) : Expr :=
  let fromErr := exprCallStdPath (exprCallStdPath pathExpr)
  .matchOn (exprCallStdPath operand) [arm (cx.lowerErrorJump fromErr), arm pathExpr]

/-- The end of `lower_expr_try_block`: the value of the block is wrapped. -/
def wrapTail : Block → Block
  | .mk id stmts expr targetedByBreak =>
    .mk id stmts (some (exprCallStdPath (expr.getD pathExpr))) targetedByBreak

/-- `lower_expr_for`, of the lowered parts. -/
def lowerFor (id : NodeId) (head : Expr) (body : Block) : Expr :=
  let patArm := arm (.op [pathExpr, pathExpr])
  let breakArm := arm (exprBreak (cx.withLoopScope id))
  let matchExpr := .matchOn (exprCallStdPath pathExpr) [patArm, breakArm]
  let loopBlock := blockAll
    [.bind none, .expr matchExpr, .bind (some pathExpr), .expr (.block body)] none
  .dropTemps (.matchOn (exprCallStdPath head) [arm (.loop id loopBlock)])

/-- `lower_expr_while_in_loop_scope`, of the lowered parts; `cx` is the scope of the loop. -/
def lowerWhile (id : NodeId) (scrutinee : Expr) (body : Block) : Expr :=
  let matchExpr := .matchOn scrutinee [arm (.block body), arm (exprBreak cx)]
  .loop id (blockAll [] (some matchExpr))

end

/-- The scrutinee of an `if` or `while`, from its condition and the lowered condition: that of a
`let`, which is lowered to a match, or the condition without its temporaries. -/
def lowerScrutinee : Ast.Expr → Expr → Expr
  | .letPat _, .matchOn scrutinee _ => scrutinee
  | _, cond => .dropTemps cond

mutual

def lowerExpr (cx : LoweringContext) : Ast.Expr → Expr
  | .op operands => .op (lowerExprs cx operands)
  | .lazyBinary lhs rhs => .lazyBinary (lowerExpr cx lhs) (lowerExpr cx rhs)
  | .letPat scrutinee => .matchOn (lowerExpr cx scrutinee) [arm (.op []), arm (.op [])]
  | .ifElse cond thenBlock elseOpt =>
    let elseExpr := (lowerOpt cx elseOpt).getD (.block (blockAll [] none))
    .matchOn (lowerScrutinee cond (lowerExpr cx cond))
      [arm (.block (lowerBlock cx thenBlock false)), arm elseExpr]
  | .whileLoop id cond body =>
    let cx := cx.withLoopScope id
    lowerWhile cx id (lowerScrutinee cond (lowerExpr cx.withLoopConditionScope cond))
      (lowerBlock cx body false)
  | .forLoop id head body =>
    lowerFor cx id (lowerExpr cx head) (lowerBlock (cx.withLoopScope id) body false)
  | .loop id body => .loop id (lowerBlock (cx.withLoopScope id) body false)
  | .matchOn scrutinee arms => .matchOn (lowerExpr cx scrutinee) (lowerArms cx arms)
  | .block b labeled => .block (lowerBlock cx b labeled)
  | .tryBlock (.mk id stmts) =>
    .block (wrapTail (lowerBlock (cx.withCatchScope id) (.mk id stmts) true))
  | .transactionBlock body =>
    .block (.mk none (transactionStmts (lowerBlock cx body true)) none true)
  | .breakTo label value => .breakTo (cx.lowerJumpDestination label) (lowerOpt cx value)
  | .continueTo label => .continueTo (cx.lowerJumpDestination label)
  | .ret value => .ret (lowerOpt cx value)
  | .question operand => lowerQuestion cx (lowerExpr cx operand)

def lowerExprs (cx : LoweringContext) : List Ast.Expr → List Expr
  | [] => []
  | e :: es => lowerExpr cx e :: lowerExprs cx es

/-- `lower_expr`, of an expression that may be missing. -/
def lowerOpt (cx : LoweringContext) : Option Ast.Expr → Option Expr
  | none => none
  | some e => some (lowerExpr cx e)

def lowerBlock (cx : LoweringContext) : Ast.Block → Bool → Block
  | .mk id stmts, targetedByBreak =>
    .mk (some id) (lowerStmts cx stmts).1 (lowerStmts cx stmts).2 targetedByBreak

/-- The loop of `lower_block`: the last statement may be the value of the block. -/
def lowerStmts (cx : LoweringContext) : List Ast.Stmt → List Stmt × Option Expr
  | [] => ([], none)
  | [.expr e] => ([], some (lowerExpr cx e))
  | s :: stmts => (lowerStmt cx s :: (lowerStmts cx stmts).1, (lowerStmts cx stmts).2)

def lowerStmt (cx : LoweringContext) : Ast.Stmt → Stmt
  | .bind init => .bind (lowerOpt cx init)
  | .item => .item
  | .expr e => .expr (lowerExpr cx e)
  | .semi e => .semi (lowerExpr cx e)

/-- `lower_arm`, for each arm. -/
def lowerArms (cx : LoweringContext) : List Ast.Arm → List Arm
  | [] => []
  | .mk guard body :: arms => .mk (lowerOpt cx guard) (lowerExpr cx body) :: lowerArms cx arms

end

def lowerTransactionBlock (cx : LoweringContext) (b : Ast.Block) (targetedByBreak : Bool) : Block :=
  .mk none (transactionStmts (lowerBlock cx b targetedByBreak)) none targetedByBreak

end Tortis.Hir
