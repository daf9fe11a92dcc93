import Tortis.Lib.Behaviour
import Tortis.Hir.Lowering

/-!
# Exits of transaction blocks

A transaction block is lowered to `Lock; { body }; Unlock` (`lower_transaction_block`,
`librustc/hir/lowering.rs`). The jumps of the body are lowered like any others, so that one that
leaves the block passes the `Unlock` by. The executions of lowered expressions, where conditions,
patterns and errors may turn out either way, are their `behaviour`; the ways to leave a parsed
expression are computed from its syntax (`exits`), and a lowered transaction block keeps every
`Lock` and `Unlock` matched exactly when its statements can only be left at their end and with
nothing locked (`lowerTransactionBlock_bracketed_iff`).
-/

namespace Tortis.Hir

open List Bool Observer.Sees

/-- An evaluation of a `Lock` or of an `Unlock` expression. -/
inductive Event where
  | lock
  | unlock
deriving DecidableEq

/-! ## Executions of lowered expressions -/

/-- The execution of a jump. Code with a jump that has no target is rejected. -/
def behaviourJump (jump : NodeId → Exit NodeId) : Target → Behaviour Event NodeId
  | .ok id => .jump (jump id)
  | .error _ => .stuck

mutual

/-- The executions of an expression. -/
def behaviour : Expr → Behaviour Event NodeId
  | .op operands => .Seq (behaviourAll operands) .compute
  | .lazyBinary lhs rhs => .Seq (behaviour lhs) (.choice .skip (behaviour rhs))
  | .dropTemps e => behaviour e
  | .loop id body => .Loop id (behaviourBlock body)
  | .matchOn scrutinee arms => .Seq (behaviour scrutinee) (behaviourArms arms)
  | .block b => behaviourBlock b
  | .breakTo target value => .Seq (behaviourOpt value) (behaviourJump .breakTo target)
  | .continueTo target => behaviourJump .continueTo target
  | .ret value => .Seq (behaviourOpt value) (.jump .ret)
  | .lock => .emit .lock
  | .unlock => .emit .unlock

/-- The executions of operands, one after the other. -/
def behaviourAll : List Expr → Behaviour Event NodeId
  | [] => .skip
  | e :: es => .Seq (behaviour e) (behaviourAll es)

/-- The executions of an expression that may be missing. -/
def behaviourOpt : Option Expr → Behaviour Event NodeId
  | none => .skip
  | some e => behaviour e

/-- The executions of a block, which jumps may leave if it is targeted by them. -/
def behaviourBlock : Block → Behaviour Event NodeId
  | .mk (some id) stmts expr true => .Catch id (.Seq (behaviourStmts stmts) (behaviourOpt expr))
  | .mk _ stmts expr _ => .Seq (behaviourStmts stmts) (behaviourOpt expr)

def behaviourStmts : List Stmt → Behaviour Event NodeId
  | [] => .skip
  | s :: stmts => .Seq (behaviourStmt s) (behaviourStmts stmts)

def behaviourStmt : Stmt → Behaviour Event NodeId
  | .bind init => behaviourOpt init
  | .item => .skip
  | .expr e | .semi e => behaviour e

/-- The executions of the arms of a match, from the first one on. -/
def behaviourArms : List Arm → Behaviour Event NodeId
  | [] => .stuck
  | .mk none body :: arms => .choice (behaviour body) (behaviourArms arms)
  | .mk (some guard) body :: arms =>
    .choice (.Seq (behaviour guard) (.choice (behaviour body) (behaviourArms arms)))
      (behaviourArms arms)

end

/-! ## The ways to leave an expression -/

def exitsJump (jump : NodeId → Exit NodeId) : Target → Exits NodeId
  | .ok id => .only (jump id)
  | .error _ => []

def exitsError (cx : LoweringContext) : Exits NodeId :=
  match cx.catchScopes.head? with
  | some id => .only (.breakTo id)
  | none => .only .ret

/-- Every exit but the end of a transaction block leaves it locked. -/
def exitsTransaction (body : Exits NodeId) : Exits NodeId :=
  body.map fun p => (p.1, p.2 || p.1 ≠ .normal)

mutual

/-- The ways to leave an expression, each with whether a transaction block may have been left
without its `Unlock`. -/
def exits (cx : LoweringContext) : Ast.Expr → Exits NodeId
  | .op operands => exitsAll cx operands
  | .lazyBinary lhs rhs => (exits cx lhs).seq (.only .normal ++ exits cx rhs)
  | .letPat scrutinee => exits cx scrutinee
  | .ifElse cond thenBlock elseOpt =>
    (exits cx cond).seq (exitsBlock cx thenBlock false ++ exitsOpt cx elseOpt)
  | .whileLoop id cond body =>
    let cx := cx.withLoopScope id
    .loop id ((exits cx.withLoopConditionScope cond).seq
      (exitsBlock cx body false ++ .only (.breakTo id)))
  | .forLoop id head body =>
    (exits cx head).seq (.loop id ((Exits.only .normal ++ .only (.breakTo id)).seq
      (exitsBlock (cx.withLoopScope id) body false)))
  | .loop id body => .loop id (exitsBlock (cx.withLoopScope id) body false)
  | .matchOn scrutinee arms => (exits cx scrutinee).seq (exitsArms cx arms)
  | .block b labeled => exitsBlock cx b labeled
  | .tryBlock (.mk id stmts) => exitsBlock (cx.withCatchScope id) (.mk id stmts) true
  | .transactionBlock body => exitsTransaction (exitsBlock cx body true)
  | .breakTo label value =>
    (exitsOpt cx value).seq (exitsJump .breakTo (cx.lowerJumpDestination label))
  | .continueTo label => exitsJump .continueTo (cx.lowerJumpDestination label)
  | .ret value => (exitsOpt cx value).seq (.only .ret)
  | .question operand => (exits cx operand).seq (exitsError cx ++ .only .normal)

/-- The ways to leave operands. -/
def exitsAll (cx : LoweringContext) : List Ast.Expr → Exits NodeId
  | [] => .only .normal
  | e :: es => (exits cx e).seq (exitsAll cx es)

/-- The ways to leave an expression that may be missing. -/
def exitsOpt (cx : LoweringContext) : Option Ast.Expr → Exits NodeId
  | none => .only .normal
  | some e => exits cx e

def exitsBlock (cx : LoweringContext) : Ast.Block → Bool → Exits NodeId
  | .mk id stmts, true => .catching id (exitsStmts cx stmts)
  | .mk _ stmts, false => exitsStmts cx stmts

def exitsStmts (cx : LoweringContext) : List Ast.Stmt → Exits NodeId
  | [] => .only .normal
  | s :: stmts => (exitsStmt cx s).seq (exitsStmts cx stmts)

def exitsStmt (cx : LoweringContext) : Ast.Stmt → Exits NodeId
  | .bind init => exitsOpt cx init
  | .item => .only .normal
  | .expr e | .semi e => exits cx e

/-- The ways to leave the arms of a match. -/
def exitsArms (cx : LoweringContext) : List Ast.Arm → Exits NodeId
  | [] => []
  | .mk none body :: arms => exits cx body ++ exitsArms cx arms
  | .mk (some guard) body :: arms =>
    (exits cx guard).seq (exits cx body ++ exitsArms cx arms) ++ exitsArms cx arms

end

/-! ## The locks of an execution -/

/-- No `Unlock` is evaluated without an unmatched `Lock` before it. -/
def UnlocksFollow (t : List Event) : Prop :=
  ∀ i, (t.take i).count .unlock ≤ (t.take i).count .lock

/-- Each `Lock` is followed by exactly one matching `Unlock`, and the other way round. -/
def Bracketed (t : List Event) : Prop :=
  UnlocksFollow t ∧ t.count .lock = t.count .unlock

theorem lock_ne_unlock : Event.lock ≠ .unlock := nofun

variable {t : List Event}

theorem UnlocksFollow.count_le (h : UnlocksFollow t) : t.count .unlock ≤ t.count .lock := by
  have := h t.length
  rwa [take_length] at this

theorem UnlocksFollow.append {t t' : List Event} (h : UnlocksFollow t) (h' : UnlocksFollow t') :
    UnlocksFollow (t ++ t') := by
  intro i
  have h1 := h i
  have h2 := h' (i - t.length)
  rw [take_append, count_append, count_append]
  omega

theorem UnlocksFollow.lock_cons (h : UnlocksFollow t) : UnlocksFollow (.lock :: t) := by
  intro i
  cases i with
  | zero => exact Nat.le_refl _
  | succ i =>
    have := h i
    rw [take_succ_cons, count_cons_self, count_cons_of_ne lock_ne_unlock]
    omega

theorem UnlocksFollow.lock_unlock (h : UnlocksFollow t) :
    UnlocksFollow (.lock :: (t ++ [.unlock])) := by
  intro i
  cases i with
  | zero => exact Nat.le_refl _
  | succ i =>
    have h1 := h i
    have h2 : ([Event.unlock].take (i - t.length)).count .unlock ≤ 1 :=
      (take_sublist _ _).count_le _
    rw [take_succ_cons, count_cons_self, count_cons_of_ne lock_ne_unlock,
      take_append, count_append, count_append]
    omega

def lockObserver : Observer Event where
  Good := UnlocksFollow
  seen t := t.count .unlock < t.count .lock
  good_nil := fun i => by simp
  seen_nil := by decide
  good_append := UnlocksFollow.append
  seen_append := fun {t t'} h h' => by
    have := h.count_le
    have := h'.count_le
    rw [count_append, count_append, ← decide_or, decide_eq_decide]
    omega

theorem bracketed_iff (h : UnlocksFollow t) : Bracketed t ↔ lockObserver.seen t = false := by
  have := h.count_le
  rw [Bracketed, and_iff_right h]
  simp only [lockObserver, decide_eq_false_iff_not]
  omega

/-! ## What lowering keeps -/

variable {body : Block}

theorem behaviourStmts_transaction {x : Exit NodeId} :
    behaviourStmts (transactionStmts body) t x ↔ (t = [] ∧ x = .interrupted) ∨
      (∃ u, t = .lock :: u ∧ behaviourBlock body u x ∧ x ≠ .normal) ∨
      (∃ u, t = .lock :: u ∧ behaviourBlock body u .normal ∧ x = .interrupted) ∨
      (∃ u, t = .lock :: (u ++ [.unlock]) ∧ behaviourBlock body u .normal ∧ x = .normal) := by
  constructor
  · intro h
    cases h with
    | leave h hx =>
      rcases h with ⟨-, rfl⟩ | ⟨rfl, rfl⟩
      · exact absurd rfl hx
      · exact .inl ⟨rfl, rfl⟩
    | next h h' =>
      obtain ⟨rfl, -⟩ | ⟨-, h⟩ := h
      · cases h' with
        | leave h' hx => exact .inr (.inl ⟨_, rfl, h', hx⟩)
        | next h' h'' =>
          cases h'' with
          | leave h'' hx =>
            rcases h'' with ⟨-, rfl⟩ | ⟨rfl, rfl⟩
            · exact absurd rfl hx
            · exact .inr (.inr (.inl ⟨_, by rw [append_nil]; rfl, h', rfl⟩))
          | next h'' hskip =>
            obtain ⟨rfl, rfl⟩ := hskip
            obtain ⟨rfl, -⟩ | ⟨-, h''⟩ := h''
            · exact .inr (.inr (.inr ⟨_, rfl, h', rfl⟩))
            · cases h''
      · cases h
  · have hlock : (Behaviour.emit Event.lock : Behaviour Event NodeId) [.lock] .normal :=
      .inl ⟨rfl, rfl⟩
    rintro (⟨rfl, rfl⟩ | ⟨u, rfl, h, hx⟩ | ⟨u, rfl, h, rfl⟩ | ⟨u, rfl, h, rfl⟩)
    · exact .leave (.inr ⟨rfl, rfl⟩) nofun
    · exact .next (t := [Event.lock]) hlock (.leave h hx)
    · have hstop := Behaviour.Seq.next (b := .Seq (.emit .unlock) .skip) h
        (.leave (x := .interrupted) (.inr ⟨rfl, rfl⟩) nofun)
      rw [append_nil] at hstop
      exact .next (t := [Event.lock]) hlock hstop
    · have hunlock : (Behaviour.emit Event.unlock : Behaviour Event NodeId) [.unlock] .normal :=
        .inl ⟨rfl, rfl⟩
      have hend := Behaviour.Seq.next (b := .skip) hunlock ⟨rfl, rfl⟩
      exact .next (t := [Event.lock]) hlock (.next h hend)

variable {o o' : Exits NodeId}

theorem sees_transactionStmts (h : lockObserver.Sees (behaviourBlock body) o) :
    lockObserver.Sees (behaviourStmts (transactionStmts body)) (exitsTransaction o) := by
  have hlock : ∀ {u : List Event}, UnlocksFollow u → lockObserver.seen (.lock :: u) = true := by
    intro u hu
    have := hu.count_le
    simp only [lockObserver, count_cons_self, decide_eq_true_eq, count_cons_of_ne lock_ne_unlock]
    omega
  have hunlock : ∀ {u : List Event}, lockObserver.seen (.lock :: (u ++ [.unlock])) =
      lockObserver.seen u := by
    intro u
    simp only [lockObserver, count_cons_self, count_append, count_nil, decide_eq_decide,
      count_cons_of_ne lock_ne_unlock, count_cons_of_ne lock_ne_unlock.symm]
    omega
  refine ⟨?_, fun {x f} => ?_⟩
  · intro t x ht
    rcases behaviourStmts_transaction.1 ht with
      ⟨rfl, -⟩ | ⟨u, rfl, hu, -⟩ | ⟨u, rfl, hu, -⟩ | ⟨u, rfl, hu, -⟩
    · exact lockObserver.good_nil
    · exact (h.good hu).lock_cons
    · exact (h.good hu).lock_cons
    · exact (h.good hu).lock_unlock
  · simp only [exitsTransaction, mem_map, Prod.mk.injEq]
    constructor
    · rintro ⟨⟨y, g⟩, hy, rfl, rfl⟩
      obtain ⟨hi, u, hu, rfl⟩ := h.mem_iff.1 hy
      refine ⟨hi, ?_⟩
      by_cases hx : y = .normal
      · subst hx
        refine ⟨_, behaviourStmts_transaction.2 (.inr (.inr (.inr ⟨u, rfl, hu, rfl⟩))), ?_⟩
        simp [hunlock]
      · refine ⟨_, behaviourStmts_transaction.2 (.inr (.inl ⟨u, rfl, hu, hx⟩)), ?_⟩
        simp [hlock (h.good hu), hx]
    · rintro ⟨hi, t, ht, rfl⟩
      rcases behaviourStmts_transaction.1 ht with
        ⟨-, rfl⟩ | ⟨u, rfl, hu, hx⟩ | ⟨u, rfl, -, rfl⟩ | ⟨u, rfl, hu, rfl⟩
      · exact absurd rfl hi
      · exact ⟨_, h.mem hu hi, rfl, by simp [hlock (h.good hu), hx]⟩
      · exact absurd rfl hi
      · exact ⟨_, h.mem hu hi, rfl, by simp [hunlock]⟩

theorem sees_jump {jump : NodeId → Exit NodeId} (hjump : ∀ id, jump id ≠ .interrupted) :
    ∀ target : Target, lockObserver.Sees (behaviourJump jump target) (exitsJump jump target)
  | .ok id => .jump (hjump id)
  | .error _ => .stuck

theorem sees_pathExpr : lockObserver.Sees (behaviour pathExpr) (.only .normal) :=
  skip.seq_skip .compute

theorem sees_exprCallStdPath {arg : Expr} (h : lockObserver.Sees (behaviour arg) o) :
    lockObserver.Sees (behaviour (exprCallStdPath arg)) o :=
  ((h.seq_skip .skip).skip_seq sees_pathExpr).seq_skip .compute

theorem sees_arm {a : Expr} (ha : lockObserver.Sees (behaviour a) o) :
    lockObserver.Sees (behaviourArms [arm a]) o :=
  (ha.choice .stuck).congr fun p => by rw [append_nil]

theorem sees_twoArms {a b : Expr} (ha : lockObserver.Sees (behaviour a) o)
    (hb : lockObserver.Sees (behaviour b) o') :
    lockObserver.Sees (behaviourArms [arm a, arm b]) (o ++ o') :=
  ha.choice (sees_arm hb)

theorem sees_exprBreak (cx : LoweringContext) (id : NodeId) :
    lockObserver.Sees (behaviour (exprBreak (cx.withLoopScope id))) (.only (.breakTo id)) :=
  skip_seq (.jump nofun) .skip

theorem sees_errorJump (cx : LoweringContext) {value : Expr}
    (h : lockObserver.Sees (behaviour value) (.only .normal)) :
    lockObserver.Sees (behaviour (cx.lowerErrorJump value)) (exitsError cx) := by
  rw [LoweringContext.lowerErrorJump, exitsError]
  cases cx.catchScopes.head? with
  | none => exact skip_seq (.jump nofun) h
  | some id => exact skip_seq (.jump nofun) h

theorem sees_untargeted {id : Option NodeId} {stmts : List Stmt} {expr : Option Expr}
    (h : lockObserver.Sees (.Seq (behaviourStmts stmts) (behaviourOpt expr)) o) :
    lockObserver.Sees (behaviourBlock (.mk id stmts expr false)) o := by
  cases id <;> exact h

variable {cx : LoweringContext}

theorem sees_scrutinee {cond : Ast.Expr}
    (h : lockObserver.Sees (behaviour (lowerExpr cx cond)) (exits cx cond))
    (hlet : ∀ s, cond = .letPat s → lockObserver.Sees (behaviour (lowerExpr cx s)) (exits cx s)) :
    lockObserver.Sees (behaviour (lowerScrutinee cond (lowerExpr cx cond))) (exits cx cond) := by
  cases cond with
  | letPat s =>
    exact hlet s rfl
  | _ => exact h

variable {id : NodeId}

theorem sees_lowerFor {head : Expr} (hhead : lockObserver.Sees (behaviour head) o)
    (hbody : lockObserver.Sees (behaviourBlock body) o') :
    lockObserver.Sees (behaviour (lowerFor cx id head body))
      (o.seq (.loop id ((Exits.only .normal ++ .only (.breakTo id)).seq o'))) := by
  have hpat : lockObserver.Sees (behaviour (.op [pathExpr, pathExpr])) (.only .normal) :=
    (seq_skip sees_pathExpr (sees_pathExpr.seq_skip .skip)).seq_skip .compute
  have hmatch : lockObserver.Sees (behaviour (.matchOn (exprCallStdPath pathExpr)
      [arm (.op [pathExpr, pathExpr]), arm (exprBreak (cx.withLoopScope id))]))
      (Exits.only .normal ++ .only (.breakTo id)) :=
    (sees_twoArms hpat (sees_exprBreak cx id)).skip_seq (sees_exprCallStdPath sees_pathExpr)
  have hrest : lockObserver.Sees
      (behaviourStmts [.bind (some pathExpr), .expr (.block body)]) o' :=
    (hbody.seq_skip .skip).skip_seq sees_pathExpr
  have hblock : lockObserver.Sees (behaviourBlock (blockAll [.bind none,
      .expr (.matchOn (exprCallStdPath pathExpr)
        [arm (.op [pathExpr, pathExpr]), arm (exprBreak (cx.withLoopScope id))]),
      .bind (some pathExpr), .expr (.block body)] none))
      ((Exits.only .normal ++ .only (.breakTo id)).seq o') :=
    ((hmatch.seq hrest).skip_seq .skip).seq_skip .skip
  exact (sees_exprCallStdPath hhead).seq (sees_arm hblock.loop)

theorem sees_lowerWhile {scrutinee : Expr} (hcond : lockObserver.Sees (behaviour scrutinee) o)
    (hbody : lockObserver.Sees (behaviourBlock body) o') :
    lockObserver.Sees (behaviour (lowerWhile (cx.withLoopScope id) id scrutinee body))
      (.loop id (o.seq (o' ++ .only (.breakTo id)))) := by
  have hmatch : lockObserver.Sees
      (behaviour (.matchOn scrutinee [arm (.block body), arm (exprBreak (cx.withLoopScope id))]))
      (o.seq (o' ++ .only (.breakTo id))) :=
    hcond.seq (sees_twoArms hbody (sees_exprBreak cx id))
  have hblock : lockObserver.Sees (behaviourBlock (blockAll [] (some (.matchOn scrutinee
      [arm (.block body), arm (exprBreak (cx.withLoopScope id))]))))
      (o.seq (o' ++ .only (.breakTo id))) :=
    hmatch.skip_seq .skip
  exact hblock.loop

mutual

theorem sees_expr (cx : LoweringContext) : ∀ e : Ast.Expr,
    lockObserver.Sees (behaviour (lowerExpr cx e)) (exits cx e)
  | .op operands => by
    exact (sees_exprs cx operands).seq_skip .compute
  | .lazyBinary lhs rhs => by
    exact (sees_expr cx lhs).seq (.choice .skip (sees_expr cx rhs))
  | .letPat scrutinee => by
    have harm : lockObserver.Sees (behaviourArms [arm pathExpr, arm pathExpr]) (.only .normal) :=
      (sees_twoArms sees_pathExpr sees_pathExpr).congr fun p => by simp
    exact (sees_expr cx scrutinee).seq_skip harm
  | .ifElse cond thenBlock elseOpt => by
    have hcond := sees_scrutinee (sees_expr cx cond) fun s hs => by
      exact sees_expr cx s
    refine hcond.seq (sees_twoArms (sees_block cx thenBlock false) ?_)
    have helse := sees_opt cx elseOpt
    cases elseOpt with
    | none => exact skip.seq_skip .skip
    | some e => exact helse
  | .whileLoop id cond body => by
    have hcond := sees_scrutinee (sees_expr (cx.withLoopScope id).withLoopConditionScope cond)
      fun s hs => by
        exact sees_expr _ s
    exact sees_lowerWhile hcond (sees_block (cx.withLoopScope id) body false)
  | .forLoop id head body => by
    exact sees_lowerFor (sees_expr cx head) (sees_block (cx.withLoopScope id) body false)
  | .loop id body => by
    exact (sees_block (cx.withLoopScope id) body false).loop
  | .matchOn scrutinee arms => by
    exact (sees_expr cx scrutinee).seq (sees_arms cx arms)
  | .block b labeled => by
    exact sees_block cx b labeled
  | .tryBlock (.mk id stmts) => by
    refine (sees_stmts (cx.withCatchScope id) stmts
      (fun tail => behaviour (exprCallStdPath (tail.getD pathExpr))) ?_ ?_).catching
    · exact sees_exprCallStdPath sees_pathExpr
    · exact fun e o h => sees_exprCallStdPath h
  | .transactionBlock body => by
    exact (sees_transactionStmts (sees_block cx body true)).seq_skip .skip
  | .breakTo label value => by
    exact (sees_opt cx value).seq (sees_jump (fun id h => by cases h) _)
  | .continueTo label => by
    exact sees_jump (fun id h => by cases h) _
  | .ret value => by
    exact (sees_opt cx value).seq (.jump nofun)
  | .question operand => by
    have hvalue := sees_exprCallStdPath (sees_exprCallStdPath sees_pathExpr)
    exact (sees_exprCallStdPath (sees_expr cx operand)).seq
      (sees_twoArms (sees_errorJump cx hvalue) sees_pathExpr)

theorem sees_exprs (cx : LoweringContext) : ∀ es : List Ast.Expr,
    lockObserver.Sees (behaviourAll (lowerExprs cx es)) (exitsAll cx es)
  | [] => .skip
  | e :: es => (sees_expr cx e).seq (sees_exprs cx es)

theorem sees_opt (cx : LoweringContext) : ∀ e : Option Ast.Expr,
    lockObserver.Sees (behaviourOpt (lowerOpt cx e)) (exitsOpt cx e)
  | none => .skip
  | some e => sees_expr cx e

theorem sees_block (cx : LoweringContext) : ∀ (b : Ast.Block) (targeted : Bool),
    lockObserver.Sees (behaviourBlock (lowerBlock cx b targeted)) (exitsBlock cx b targeted)
  | .mk id stmts, targeted => by
    have h := sees_stmts cx stmts behaviourOpt .skip fun _ _ h => h
    cases targeted with
    | true => exact h.catching
    | false => exact sees_untargeted h

theorem sees_stmts (cx : LoweringContext) : ∀ (stmts : List Ast.Stmt)
    (tail : Option Expr → Behaviour Event NodeId), lockObserver.Sees (tail none) (.only .normal) →
    (∀ e o, lockObserver.Sees (behaviour e) o → lockObserver.Sees (tail (some e)) o) →
    lockObserver.Sees (.Seq (behaviourStmts (lowerStmts cx stmts).1)
      (tail (lowerStmts cx stmts).2)) (exitsStmts cx stmts)
  | [], _, hnone, _ => hnone.skip_seq .skip
  | [s], tail, hnone, hsome => by
    have h := sees_stmt cx s
    refine congr ?_ fun _ => Exits.mem_seq_only
    cases s with
    | expr e => exact (hsome _ _ h).skip_seq .skip
    | _ => exact (h.seq_skip .skip).seq_skip hnone
  | s :: s' :: stmts, tail, hnone, hsome => by
    have h := (sees_stmt cx s).seq (sees_stmts cx (s' :: stmts) tail hnone hsome)
    rw [lowerStmts]
    · exact h.of_iff fun t x => Behaviour.seq_assoc
    · nofun

theorem sees_stmt (cx : LoweringContext) : ∀ s : Ast.Stmt,
    lockObserver.Sees (behaviourStmt (lowerStmt cx s)) (exitsStmt cx s)
  | .bind init => sees_opt cx init
  | .item => .skip
  | .expr e => sees_expr cx e
  | .semi e => sees_expr cx e

theorem sees_arms (cx : LoweringContext) : ∀ arms : List Ast.Arm,
    lockObserver.Sees (behaviourArms (lowerArms cx arms)) (exitsArms cx arms)
  | [] => .stuck
  | .mk none body :: arms => (sees_expr cx body).choice (sees_arms cx arms)
  | .mk (some guard) body :: arms =>
    .choice ((sees_expr cx guard).seq ((sees_expr cx body).choice (sees_arms cx arms)))
      (sees_arms cx arms)

end

/-! ## Transaction blocks -/

/-- What is asked of a lowered block: in every execution, an `Unlock` follows an unmatched `Lock`,
and in those that leave the block, each `Lock` is matched. -/
def KeepsLocks (b : Block) : Prop :=
  ∀ t x, behaviourBlock b t x → UnlocksFollow t ∧ (x ≠ .interrupted → Bracketed t)

/-- The statements of a block can only be left at their end, with nothing locked. -/
def FallsThrough (cx : LoweringContext) (b : Ast.Block) (targetedByBreak : Bool) : Prop :=
  ∀ p ∈ exitsBlock cx b targetedByBreak, p = (.normal, false)

instance (cx : LoweringContext) (b : Ast.Block) (targetedByBreak : Bool) :
    Decidable (FallsThrough cx b targetedByBreak) :=
  inferInstanceAs (Decidable (∀ p ∈ exitsBlock cx b targetedByBreak, p = (.normal, false)))

theorem sees_lowerTransactionBlock (cx : LoweringContext) (b : Ast.Block) (targetedByBreak : Bool) :
    lockObserver.Sees (behaviourBlock (lowerTransactionBlock cx b targetedByBreak))
      (exitsTransaction (exitsBlock cx b targetedByBreak)) :=
  (sees_transactionStmts (sees_block cx b targetedByBreak)).seq_skip .skip

/-- **A lowered transaction block unlocks what it has locked** exactly when its statements can only
be left at their end. -/
theorem lowerTransactionBlock_keepsLocks_iff (cx : LoweringContext) (b : Ast.Block)
    (targetedByBreak : Bool) : KeepsLocks (lowerTransactionBlock cx b targetedByBreak) ↔
      FallsThrough cx b targetedByBreak := by
  have hsees := sees_lowerTransactionBlock cx b targetedByBreak
  constructor
  · rintro h ⟨x, f⟩ hp
    have hmem : (x, f || x ≠ .normal) ∈ exitsTransaction (exitsBlock cx b targetedByBreak) :=
      mem_map.2 ⟨(x, f), hp, rfl⟩
    obtain ⟨hi, t, ht, hseen⟩ := hsees.mem_iff.1 hmem
    rw [(bracketed_iff (hsees.good ht)).1 ((h t x ht).2 hi)] at hseen
    obtain ⟨hf, hx⟩ := or_eq_false_iff.1 hseen.symm
    rw [hf, not_ne_iff.1 (of_decide_eq_false hx)]
  · intro h t x ht
    refine ⟨hsees.good ht, fun hi => (bracketed_iff (hsees.good ht)).2 ?_⟩
    obtain ⟨p, hp, heq⟩ := mem_map.1 (hsees.mem ht hi)
    rw [h p hp] at heq
    exact (congrArg Prod.snd heq).symm

/-- A jump inside of the block does no harm: `transaction { loop { break; } }`. -/
example : FallsThrough ⟨[], [], false⟩
    (.mk 1 [.semi (.loop 2 (.mk 3 [.semi (.breakTo none none)]))]) true := by
  decide

/-- `loop { transaction { break; } }`: the loop is left with its lock held. -/
theorem lowerTransactionBlock_break : ¬ KeepsLocks
      (lowerTransactionBlock ⟨[0], [], false⟩ (.mk 1 [.semi (.breakTo none none)]) true) := by
  intro h
  have ht : behaviourBlock (lowerTransactionBlock ⟨[0], [], false⟩
      (.mk 1 [.semi (.breakTo none none)]) true) [.lock] (.breakTo 0) := by
    have hjump : behaviourStmt (.semi (.breakTo (.ok 0) none)) [] (.breakTo 0) :=
      .next (t := []) ⟨rfl, rfl⟩ ⟨rfl, rfl⟩
    have hbody : behaviourBlock (.mk (some 1) [.semi (.breakTo (.ok 0) none)] none true) []
        (.breakTo 0) :=
      .other (.leave (.leave hjump nofun) nofun) (by decide)
    exact .leave (behaviourStmts_transaction.2 (.inr (.inl ⟨[], rfl, hbody, nofun⟩))) nofun
  exact absurd ((h _ _ ht).2 nofun).2 (by decide)

end Tortis.Hir
