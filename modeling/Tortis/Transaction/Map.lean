import Tortis.Mir.Traversal

/-!
# The transaction map

`TransactionMap` (`librustc_mir/transform/transaction/transaction_map.rs`) walks the blocks of a body
in reverse postorder with one current transaction: a call of the lock item opens it, a call of the
unlock item closes it, and every other call in between is entered under the lock.

The control-flow graph says which calls are inside a transaction: those a path from the lock reaches
before the unlock. `OpenAt` follows the paths, `Bracketed` is the discipline the lowering of
transaction blocks is meant to give, and `terminatorToTx_agrees_iff` says when the walk and the
graph agree: a call that a loop of the transaction puts behind the unlock in reverse postorder is
missed.
-/

namespace Tortis

open Outcome List FxHashMap Body Relation

structure LangItems where
  transactionLock : Option DefId
  transactionUnlock : Option DefId
  transactionReadLock : Option DefId
  transactionReadUnlock : Option DefId
  transactionWriteLock : Option DefId
  transactionWriteUnlock : Option DefId

def localFromDest : Option (Place × BasicBlock) → Option Local
  | some (place, _) => place.localOrDerefLocal
  | none => none

/-- Marks every terminator within a body as part or not part of a transaction. -/
structure TransactionMap where
  body : Body
  defId : DefId
  lockDefId : Option DefId
  unlockDefId : Option DefId
  /-- Map from a terminator ID to the ID of the lock call of the transaction in which it's contained. -/
  terminatorToLock : FxHashMap UniqueId UniqueId
  /-- Map from a transaction's lock ID to its unlock ID. -/
  lockToUnlock : FxHashMap UniqueId UniqueId
  /-- Map from a terminator ID to the lock and unlock ID of the transaction in which it's contained. -/
  terminatorToTx : FxHashMap UniqueId (UniqueId × UniqueId)
  transactionId : Option UniqueId

namespace TransactionMap

section
variable (tm : TransactionMap)

def uniqueId (l : Local) (location : Location) : UniqueId :=
  ⟨tm.defId, l, location, none⟩

def visitTerminator (term : Terminator) (location : Location) : Outcome TransactionMap :=
  match term with
  | .call (.constant ⟨.fnDef fnDefId _, _⟩) _ destination _ => do
    if fnDefId = (← unwrap tm.lockDefId) then
      let funcLocal ← unwrap (localFromDest destination)
      return { tm with transactionId := some (tm.uniqueId funcLocal location) }
    else if fnDefId = (← unwrap tm.unlockDefId) then
      match tm.transactionId with
      | some lockId =>
        let funcLocal ← unwrap (localFromDest destination)
        return { tm with
          lockToUnlock := tm.lockToUnlock.insert lockId (tm.uniqueId funcLocal location)
          transactionId := none }
      | none => return tm
    else
      match tm.transactionId, localFromDest destination with
      | some txId, some funcLocal =>
        return { tm with
          terminatorToLock := tm.terminatorToLock.insert (tm.uniqueId funcLocal location) txId }
      | _, _ => return tm
  | _ => return tm

/-- `visit_basic_block_data`: of the parts of a block only the terminator is visited with effect. -/
def visitBasicBlockData (block : BasicBlock) : Outcome TransactionMap := do
  let data ← tm.body.block block
  match data.terminator with
  | some term => tm.visitTerminator term ⟨block, data.statements.length⟩
  | none => return tm

def newChild (defId : DefId) (body : Body) (transactionIds : Option (UniqueId × UniqueId))
    (langItems : LangItems) (terminatorToTx : FxHashMap UniqueId (UniqueId × UniqueId)) :
    TransactionMap where
  body := body
  defId := defId
  lockDefId := langItems.transactionLock
  unlockDefId := langItems.transactionUnlock
  terminatorToLock := ∅
  lockToUnlock := match transactionIds with
    | none => ∅
    | some (lockId, unlockId) => AList.insert lockId unlockId ∅
  terminatorToTx := terminatorToTx
  transactionId := transactionIds.map Prod.fst

def new (defId : DefId) (body : Body) (langItems : LangItems) : TransactionMap :=
  newChild defId body none langItems ∅

/-- The first loop of `perform`, which runs when both lang items are defined. -/
def walkBlocks : Outcome TransactionMap :=
  match tm.lockDefId, tm.unlockDefId with
  | some _, some _ => do
    (← reversePostorder tm.body).foldlM visitBasicBlockData tm
  | _, _ => return tm

/-- One iteration of the second loop of `perform`. -/
def enterTx (entry : UniqueId × UniqueId) : Outcome TransactionMap := do
  let unlock ← unwrap (tm.lockToUnlock.get entry.2)
  return { tm with terminatorToTx := tm.terminatorToTx.insert entry.1 (entry.2, unlock) }

end

def perform (ord : IterOrder) (tm : TransactionMap) : Outcome TransactionMap := do
  let tm ← tm.walkBlocks
  (tm.terminatorToLock.iter ord).foldlM enterTx tm

end TransactionMap

/-! ## Calls of a body -/

namespace Body

section
variable (body : Body)

section
variable (x : BasicBlock)

def callOf : Option (Operand × Option (Place × BasicBlock)) :=
  match body.terminatorOf x with
  | some (.call func _ destination _) => some (func, destination)
  | _ => none

/-- The function a block calls, when its callee is a constant of a function type. -/
def callee : Option DefId :=
  match body.callOf x with
  | some (.constant ⟨.fnDef fnDefId _, _⟩, _) => some fnDefId
  | _ => none

/-- The destination local of the call that ends a block. -/
def destLocal : Option Local :=
  (body.callOf x).bind fun call => localFromDest call.2

def terminatorLoc : Location :=
  ⟨x, (body.basicBlocks[x]?.elim 0 (·.statements.length))⟩

end

def callId (defId : DefId) (x : BasicBlock) : Option UniqueId :=
  (body.destLocal x).map fun l => ⟨defId, l, body.terminatorLoc x, none⟩

end

variable {id : UniqueId} {body : Body} {defId : DefId}

theorem callId_inj {x y : BasicBlock}
    (hx : body.callId defId x = some id) (hy : body.callId defId y = some id) : x = y := by
  simp only [callId, Option.map_eq_some_iff] at hx hy
  obtain ⟨l, -, rfl⟩ := hx
  obtain ⟨l', -, h⟩ := hy
  injection h with _ _ hloc
  injection hloc with hblock
  exact hblock.symm

theorem callId_defId {x : BasicBlock} (h : body.callId defId x = some id) : id.defId = defId := by
  obtain ⟨l, -, rfl⟩ := Option.map_eq_some_iff.1 h
  rfl

end Body

namespace TransactionMap

variable {x : BasicBlock}

theorem visitBasicBlockData_eq {tm : TransactionMap} {lk ul : DefId} (hlk : tm.lockDefId = some lk)
    (hul : tm.unlockDefId = some ul) (hx : x < tm.body.basicBlocks.length) :
    tm.visitBasicBlockData x =
      match tm.body.callee x with
      | some f =>
        if f = lk then do
          let id ← unwrap (tm.body.callId tm.defId x)
          return { tm with transactionId := some id }
        else if f = ul then
          match tm.transactionId with
          | some lockId => do
            let id ← unwrap (tm.body.callId tm.defId x)
            return { tm with
              lockToUnlock := tm.lockToUnlock.insert lockId id
              transactionId := none }
          | none => .ok tm
        else
          match tm.transactionId, tm.body.callId tm.defId x with
          | some txId, some id =>
            .ok { tm with terminatorToLock := tm.terminatorToLock.insert id txId }
          | _, _ => .ok tm
      | none => .ok tm := by
  have hblock : tm.body.block x = .ok tm.body.basicBlocks[x] := by simp [block, hx]
  rw [visitBasicBlockData, hblock, ok_bind]
  simp only [callee, callId, destLocal, terminatorLoc, callOf,
    terminatorOf, getElem?_eq_getElem hx, Option.bind_some, Option.elim_some]
  generalize tm.body.basicBlocks[x] = data
  obtain ⟨stmts, term, cleanup⟩ := data
  rcases term with _ | term
  · rfl
  rcases term with _ | _ | _ | _ | _ | _ | _ | _ | ⟨func, args, dest, cl⟩ | _ | _ | _ | _ | _ <;>
    try rfl
  rcases func with p | p | ⟨ty, val⟩ <;> try rfl
  rcases ty with ⟨f, substs⟩ | ⟨f, substs⟩ | _ | n <;> try rfl
  simp only [visitTerminator, hlk, hul, unwrap_some, ok_bind, uniqueId, Option.bind_some]
  generalize localFromDest dest = l
  by_cases hf : f = lk
  · simp only [hf, if_true]
    cases l <;> rfl
  · by_cases hf' : f = ul
    · cases tm.transactionId <;> cases l <;> rfl
    · cases tm.transactionId <;> cases l <;> rfl

theorem lt_length_of_visit {tm tm' : TransactionMap}
    (h : tm.visitBasicBlockData x = .ok tm') : x < tm.body.basicBlocks.length := by
  obtain ⟨data, hdata, -⟩ := bind_eq_ok.1 h
  by_contra hx
  have hnone : tm.body.basicBlocks[x]? = none := getElem?_eq_none (Nat.le_of_not_lt hx)
  rw [block, hnone] at hdata
  cases hdata

end TransactionMap

/-! ## Transactions of the control-flow graph -/

section
variable (body : Body) (lk ul : DefId)

def IsLock (x : BasicBlock) : Prop := body.callee x = some lk

def IsUnlock (x : BasicBlock) : Prop := body.callee x = some ul

instance : DecidablePred (IsLock body lk) := fun x =>
  inferInstanceAs (Decidable (body.callee x = some lk))

instance : DecidablePred (IsUnlock body ul) := fun x =>
  inferInstanceAs (Decidable (body.callee x = some ul))

/-- The lock that is open after a block, when `o` is open before it. -/
def openAfter (o : Option BasicBlock) (x : BasicBlock) : Option BasicBlock :=
  if IsLock body lk x then some x else if IsUnlock body ul x then none else o

/-- Some path from the start block arrives at the block with the lock `o` open. -/
inductive OpenAt : Option BasicBlock → BasicBlock → Prop
  | start : OpenAt none START_BLOCK
  | step {o x y} : OpenAt o x → y ∈ body.successors x → OpenAt (openAfter body lk ul o x) y

/-- The block is the unlock of the lock. -/
def UnlockOf (L U : BasicBlock) : Prop := OpenAt body lk ul (some L) U ∧ IsUnlock body ul U

/-- Along every path lock and unlock calls alternate, starting with a lock; each lock has its own
unlock; and from every call made with a lock open, the lock call itself included, an unlock call can
be reached. -/
structure Bracketed : Prop where
  lock : ∀ o x, OpenAt body lk ul o x → IsLock body lk x → o = none
  unlock : ∀ o x, OpenAt body lk ul o x → IsUnlock body ul x → ∃ L, o = some L
  own : ∀ L U L' U', UnlockOf body lk ul L U → UnlockOf body lk ul L' U' → (L = L' ↔ U = U')
  closes : ∀ o x L, OpenAt body lk ul o x → (body.callOf x).isSome →
    openAfter body lk ul o x = some L → ∃ U, IsUnlock body ul U ∧ Reach body.successors x U

variable {body lk ul} {x : BasicBlock}

theorem exists_openAt (lk ul : DefId) (h : Reach body.successors START_BLOCK x) :
    ∃ o, OpenAt body lk ul o x := by
  induction h with
  | refl => exact ⟨none, .start⟩
  | tail _ hxy ih =>
    obtain ⟨o, ho⟩ := ih
    exact ⟨_, ho.step hxy⟩

variable {o : Option BasicBlock}

theorem OpenAt.reach (h : OpenAt body lk ul o x) : Reach body.successors START_BLOCK x := by
  induction h with
  | start => exact .refl
  | step _ hy ih => exact ih.tail hy

theorem openAfter_other (hl : ¬ IsLock body lk x)
    (hu : ¬ IsUnlock body ul x) : openAfter body lk ul o x = o := by
  rw [openAfter, if_neg hl, if_neg hu]

theorem openAfter_lock (h : IsLock body lk x) : openAfter body lk ul o x = some x :=
  if_pos h

variable {x L : BasicBlock}

theorem openAfter_eq_some (h : openAfter body lk ul o x = some L) :
    (x = L ∧ IsLock body lk x) ∨ (o = some L ∧ ¬ IsLock body lk x ∧ ¬ IsUnlock body ul x) := by
  unfold openAfter at h
  split at h
  · next hl => exact .inl ⟨Option.some.inj h, hl⟩
  · next hl =>
    split at h
    · cases h
    · next hu => exact .inr ⟨h, hl, hu⟩

theorem OpenAt.lock (h : OpenAt body lk ul o x) :
    ∀ {L}, o = some L → IsLock body lk L ∧ Reach body.successors START_BLOCK L := by
  induction h with
  | start => nofun
  | @step o x y hx _ ih =>
    intro L hL
    rcases openAfter_eq_some hL with ⟨rfl, hl⟩ | ⟨ho, -, -⟩
    · exact ⟨hl, hx.reach⟩
    · exact ih ho

section
variable (hb : Bracketed body lk ul)
include hb

theorem OpenAt.reachBefore {U : BasicBlock} (h : OpenAt body lk ul o x) :
    ∀ {L}, o = some L → UnlockOf body lk ul L U → ReachBefore body.successors U L x := by
  induction h with
  | start => nofun
  | @step o x y hx hy ih =>
    intro L hL hU
    rcases openAfter_eq_some hL with ⟨rfl, hl⟩ | ⟨ho, -, hu⟩
    · refine .single ⟨?_, hy⟩
      rintro rfl
      cases hb.lock _ _ hU.1 hl
    · refine (ih ho hU).tail ⟨?_, hy⟩
      rintro rfl
      exact hu hU.2

theorem openAt_of_reachBefore {L U x : BasicBlock}
    (hL : IsLock body lk L) (hr : Reach body.successors START_BLOCK L)
    (hU : ∀ V, UnlockOf body lk ul L V → V = U) (h : ReachBefore body.successors U L x) :
    x = L ∨ OpenAt body lk ul (some L) x := by
  induction h with
  | refl => exact .inl rfl
  | @tail x y _ hxy ih =>
    right
    rcases ih with rfl | hx
    · obtain ⟨o, ho⟩ := exists_openAt lk ul hr
      have := ho.step hxy.2
      rwa [openAfter_lock hL] at this
    · have hu : ¬ IsUnlock body ul x := fun hu => hxy.1 (hU x ⟨hx, hu⟩)
      have hl : ¬ IsLock body lk x := fun hl => by cases hb.lock _ _ hx hl
      have := hx.step hxy.2
      rwa [openAfter_other hl hu] at this

theorem OpenAt.exists_unlock {V : BasicBlock} (hV : IsUnlock body ul V)
    (h : Reach body.successors x V) : ∀ {L}, OpenAt body lk ul (some L) x → ∃ U,
    UnlockOf body lk ul L U ∧ ∀ o, OpenAt body lk ul o x → OpenAt body lk ul o U := by
  induction h using ReflTransGen.head_induction_on with
  | refl => exact fun hL => ⟨V, ⟨hL, hV⟩, fun _ => id⟩
  | @head x y hxy _ ih =>
    intro L hL
    by_cases hu : IsUnlock body ul x
    · exact ⟨x, ⟨hL, hu⟩, fun _ => id⟩
    · have hl : ¬ IsLock body lk x := fun hl => by cases hb.lock _ _ hL hl
      have hstep : ∀ o, OpenAt body lk ul o x → OpenAt body lk ul o y := fun o ho => by
        have := ho.step hxy
        rwa [openAfter_other hl hu] at this
      obtain ⟨U, hU, hall⟩ := ih (hstep _ hL)
      exact ⟨U, hU, fun o ho => hall o (hstep o ho)⟩

end

theorem exists_openAt_off {L x : BasicBlock} (h : Off body.successors L START_BLOCK x) :
    ∃ o, o ≠ some L ∧ OpenAt body lk ul o x := by
  obtain ⟨hne, h⟩ := h
  suffices hx : x ≠ L ∧ ∃ o, o ≠ some L ∧ OpenAt body lk ul o x from hx.2
  induction h with
  | refl => exact ⟨hne, none, nofun, .start⟩
  | @tail x y _ hxy ih =>
    obtain ⟨hxL, o, ho, hx⟩ := ih
    refine ⟨hxy.2, _, fun h => ?_, hx.step hxy.1⟩
    rcases openAfter_eq_some h with ⟨rfl, -⟩ | ⟨h, -, -⟩
    exacts [hxL rfl, ho h]

/-- A lock dominates the blocks where it is open and from which an unlock can be reached; no other
lock is open there. -/
theorem Bracketed.dominates (hb : Bracketed body lk ul) {L x V : BasicBlock}
    (hx : OpenAt body lk ul (some L) x) (hV : IsUnlock body ul V) (hr : Reach body.successors x V) :
    Dominates body.successors START_BLOCK L x ∧ ∀ o, OpenAt body lk ul o x → o = some L := by
  obtain ⟨U, hU, hall⟩ := hx.exists_unlock hb hV hr
  have huniq : ∀ o, OpenAt body lk ul o x → o = some L := by
    intro o ho
    obtain ⟨L', rfl⟩ := hb.unlock _ _ (hall o ho) hU.2
    rw [(hb.own L' U L U ⟨hall _ ho, hU.2⟩ hU).2 rfl]
  refine ⟨fun hoff => ?_, huniq⟩
  obtain ⟨o, ho, hox⟩ := exists_openAt_off hoff
  exact ho (huniq o hox)

variable {L : BasicBlock}

theorem Bracketed.exists_unlockOf (hb : Bracketed body lk ul)
    (hL : IsLock body lk L) (hr : Reach body.successors START_BLOCK L) :
    ∃ U, UnlockOf body lk ul L U := by
  obtain ⟨o, ho⟩ := exists_openAt lk ul hr
  have hcall : (body.callOf L).isSome := by
    cases h : body.callOf L with
    | none => simp [IsLock, callee, h] at hL
    | some _ => rfl
  obtain ⟨V, hV, hLV⟩ := hb.closes o L L ho hcall (openAfter_lock hL)
  rcases ReflTransGen.cases_head hLV with rfl | ⟨y, hy, hyV⟩
  · have hnone := hb.lock _ _ ho hL
    obtain ⟨L', hL'⟩ := hb.unlock _ _ ho hV
    exact absurd (hnone.symm.trans hL') nofun
  · have hstep := ho.step hy
    rw [openAfter_lock hL] at hstep
    obtain ⟨U, hU, -⟩ := hstep.exists_unlock hb hV hyV
    exact ⟨U, hU⟩

/-! ## The walk -/

/-- The block ends in a call that is entered when a transaction is open: of a known function that
is neither the lock nor the unlock item. -/
def IsOrdinary (body : Body) (lk ul : DefId) (x : BasicBlock) : Prop :=
  ∃ f, body.callee x = some f ∧ f ≠ lk ∧ f ≠ ul

theorem IsOrdinary.other (h : IsOrdinary body lk ul x) :
    ¬ IsLock body lk x ∧ ¬ IsUnlock body ul x := by
  obtain ⟨f, hf, hlk, hul⟩ := h
  exact ⟨fun h => hlk (Option.mem_unique hf h),
    fun h => hul (Option.mem_unique hf h)⟩

theorem IsOrdinary.callee (h : IsOrdinary body lk ul x) : (body.callee x).isSome := by
  obtain ⟨f, hf, -⟩ := h
  rw [hf]
  rfl

/-- What the visit of a block does: nothing, when the call is neither a lock nor an unlock and is not
entered, or is an unlock without a transaction; else it opens, closes or enters. -/
inductive Visits (body : Body) (lk ul defId : DefId) (tm : TransactionMap) (x : BasicBlock) :
    TransactionMap → Prop
  | skip : ¬ IsLock body lk x → ¬ IsUnlock body ul x →
      ((body.callee x).isSome → tm.transactionId = none ∨ body.callId defId x = none) →
      Visits body lk ul defId tm x tm
  | lock {id} : IsLock body lk x → body.callId defId x = some id →
      Visits body lk ul defId tm x { tm with transactionId := some id }
  | unlockNone : ¬ IsLock body lk x → IsUnlock body ul x → tm.transactionId = none →
      Visits body lk ul defId tm x tm
  | unlock {lockId id} : ¬ IsLock body lk x → IsUnlock body ul x →
      tm.transactionId = some lockId → body.callId defId x = some id →
      Visits body lk ul defId tm x
        { tm with lockToUnlock := tm.lockToUnlock.insert lockId id, transactionId := none }
  | enter {txId id} : IsOrdinary body lk ul x → tm.transactionId = some txId →
      body.callId defId x = some id →
      Visits body lk ul defId tm x
        { tm with terminatorToLock := tm.terminatorToLock.insert id txId }

variable {defId : DefId}

theorem TransactionMap.visits {tm tm' : TransactionMap}
    (hbody : tm.body = body) (hdef : tm.defId = defId) (hlk : tm.lockDefId = some lk)
    (hul : tm.unlockDefId = some ul) (h : tm.visitBasicBlockData x = .ok tm') :
    Visits body lk ul defId tm x tm' := by
  subst hbody hdef
  rw [visitBasicBlockData_eq hlk hul (lt_length_of_visit h)] at h
  cases hf : tm.body.callee x with
  | none =>
    rw [hf] at h
    cases h
    exact .skip (by simp [IsLock, hf]) (by simp [IsUnlock, hf]) (by simp [hf])
  | some f =>
    simp only [hf] at h
    by_cases hl : f = lk
    · rw [if_pos hl] at h
      obtain ⟨id, hid, h⟩ := bind_eq_ok.1 h
      cases h
      exact .lock (by rw [IsLock, hf, hl]) (unwrap_eq_ok.1 hid)
    · have hlock : ¬ IsLock tm.body lk x := by simp [IsLock, hf, hl]
      rw [if_neg hl] at h
      by_cases hu : f = ul
      · have hunlock : IsUnlock tm.body ul x := by rw [IsUnlock, hf, hu]
        rw [if_pos hu] at h
        cases htx : tm.transactionId with
        | none =>
          rw [htx] at h
          cases h
          exact .unlockNone hlock hunlock htx
        | some lockId =>
          rw [htx] at h
          obtain ⟨id, hid, h⟩ := bind_eq_ok.1 h
          cases h
          exact .unlock hlock hunlock htx (unwrap_eq_ok.1 hid)
      · have hord : IsOrdinary tm.body lk ul x := ⟨f, hf, hl, hu⟩
        rw [if_neg hu] at h
        split at h
        · next txId id htx hid =>
          cases h
          exact .enter hord htx hid
        · next hno =>
          cases h
          refine .skip hlock hord.other.2 fun _ => ?_
          cases htx : tm.transactionId with
          | none => exact .inl rfl
          | some txId => exact .inr (Option.eq_none_iff_forall_ne_some.2 fun id hid => hno _ _ htx hid)

theorem TransactionMap.visit_returns {tm : TransactionMap}
    (hbody : tm.body = body) (hdef : tm.defId = defId) (hlk : tm.lockDefId = some lk)
    (hul : tm.unlockDefId = some ul) (hx : x < body.basicBlocks.length)
    (hid : IsLock body lk x ∨ IsUnlock body ul x → (body.callId defId x).isSome) :
    ∃ tm', tm.visitBasicBlockData x = .ok tm' := by
  subst hbody hdef
  rw [visitBasicBlockData_eq hlk hul hx]
  cases hf : tm.body.callee x with
  | none => exact ⟨_, rfl⟩
  | some f =>
    simp only
    by_cases hl : f = lk
    · obtain ⟨id, hid⟩ := Option.isSome_iff_exists.1 (hid (.inl (by rw [IsLock, hf, hl])))
      exact ⟨_, by rw [if_pos hl, hid]; rfl⟩
    · rw [if_neg hl]
      by_cases hu : f = ul
      · obtain ⟨id, hid⟩ := Option.isSome_iff_exists.1 (hid (.inr (by rw [IsUnlock, hf, hu])))
        rw [if_pos hu, hid]
        cases tm.transactionId <;> exact ⟨_, rfl⟩
      · rw [if_neg hu]
        cases tm.transactionId <;> cases tm.body.callId tm.defId x <;> exact ⟨_, rfl⟩

theorem callOf_isSome {f : DefId} (h : body.callee x = some f) : (body.callOf x).isSome := by
  cases hc : body.callOf x with
  | none => simp [callee, hc] at h
  | some _ => rfl

/-- Of the lock and unlock calls among the blocks, the last one is the lock call `L`. -/
def Latest (body : Body) (lk ul : DefId) (blocks : List BasicBlock) (L : BasicBlock) : Prop :=
  IsLock body lk L ∧ ∃ pre mid, blocks = pre ++ L :: mid ∧
    ∀ y ∈ mid, ¬ IsLock body lk y ∧ ¬ IsUnlock body ul y

variable {done : List BasicBlock}

theorem latest_concat : Latest body lk ul (done ++ [x]) L ↔ (x = L ∧ IsLock body lk x) ∨
      (Latest body lk ul done L ∧ ¬ IsLock body lk x ∧ ¬ IsUnlock body ul x) := by
  constructor
  · rintro ⟨hL, pre, mid, hsplit, hmid⟩
    rcases eq_nil_or_concat mid with rfl | ⟨mid, z, rfl⟩
    · obtain ⟨-, h⟩ := append_inj' hsplit rfl
      obtain rfl := singleton_inj.1 h
      exact .inl ⟨rfl, hL⟩
    · rw [concat_eq_append, ← cons_append, ← append_assoc] at hsplit
      obtain ⟨rfl, h⟩ := append_inj' hsplit rfl
      obtain rfl := singleton_inj.1 h
      simp only [concat_eq_append, forall_mem_append, forall_mem_singleton] at hmid
      exact .inr ⟨⟨hL, pre, mid, rfl, hmid.1⟩, hmid.2⟩
  · rintro (⟨rfl, hl⟩ | ⟨⟨hL, pre, mid, rfl, hmid⟩, hx⟩)
    · exact ⟨hl, done, [], rfl, nofun⟩
    · refine ⟨hL, pre, mid ++ [x], by simp, ?_⟩
      simp only [forall_mem_append, forall_mem_singleton]
      exact ⟨hmid, hx⟩

theorem Latest.mem (h : Latest body lk ul done L) : L ∈ done := by
  obtain ⟨-, pre, mid, rfl, -⟩ := h
  simp

theorem not_latest_nil : ¬ Latest body lk ul [] L := fun h => nomatch h.mem

theorem Latest.unique {L L' : BasicBlock} (h : Latest body lk ul done L)
    (h' : Latest body lk ul done L') : L = L' := by
  induction done using List.reverseRecOn with
  | nil => exact absurd h not_latest_nil
  | append_singleton done x ih =>
    rcases latest_concat.1 h with ⟨rfl, hl⟩ | ⟨h, hl, -⟩
    · rcases latest_concat.1 h' with ⟨rfl, -⟩ | ⟨-, hl', -⟩
      exacts [rfl, absurd hl hl']
    · rcases latest_concat.1 h' with ⟨rfl, hl'⟩ | ⟨h', -, -⟩
      exacts [absurd hl' hl, ih h h']

theorem Latest.not_after_unlock {pre post : List BasicBlock} {U L : BasicBlock}
    (h : Latest body lk ul pre L) (hU : IsUnlock body ul U)
    (hnodup : (pre ++ U :: post).Nodup) : ¬ Latest body lk ul (pre ++ U :: post) L := by
  rintro ⟨-, p, q, hsplit, hq⟩
  obtain ⟨hL, p', q', rfl, -⟩ := h
  rw [append_assoc, cons_append] at hsplit hnodup
  have hmem : L ∉ p' := fun h => (nodup_append.1 hnodup).2.2 L h L (.head _) rfl
  have hmem' : L ∉ p := by
    rw [hsplit] at hnodup
    exact fun h => (nodup_append.1 hnodup).2.2 L h L (.head _) rfl
  obtain ⟨-, -, htail⟩ := split_unique hsplit hmem' hmem
  exact (hq U (by rw [← htail]; simp)).2 hU

/-- What the walk knows when it has visited the blocks `done`: the lock calls, and the unlock calls
met with a latest lock, have ids; the current transaction is the latest lock; each call met with a
latest lock is entered under it, and each unlock is its partner. -/
structure Registered (body : Body) (lk ul defId : DefId) (done : List BasicBlock)
    (tm : TransactionMap) : Prop where
  body_eq : tm.body = body
  defId_eq : tm.defId = defId
  lock_eq : tm.lockDefId = some lk
  unlock_eq : tm.unlockDefId = some ul
  tx_eq : tm.terminatorToTx = ∅
  dest : ∀ pre x post, done = pre ++ x :: post →
    IsLock body lk x ∨ IsUnlock body ul x ∧ (∃ L, Latest body lk ul pre L) →
    (body.callId defId x).isSome
  current : ∀ id, tm.transactionId = some id ↔
    ∃ L, Latest body lk ul done L ∧ body.callId defId L = some id
  entered : ∀ k v, tm.terminatorToLock.get k = some v ↔
    ∃ pre x post, done = pre ++ x :: post ∧ IsOrdinary body lk ul x ∧
      body.callId defId x = some k ∧ ∃ L, Latest body lk ul pre L ∧ body.callId defId L = some v
  paired : ∀ k v, tm.lockToUnlock.get k = some v ↔
    ∃ pre U post, done = pre ++ U :: post ∧ (IsUnlock body ul U ∧ ¬ IsLock body lk U) ∧
      body.callId defId U = some v ∧ ∃ L, Latest body lk ul pre L ∧ body.callId defId L = some k

section step
variable {defId : DefId} {done : List BasicBlock} {x : BasicBlock} {tm : TransactionMap}

section
variable (h : Registered body lk ul defId done tm)
include h

theorem Registered.callId_latest {L : BasicBlock}
    (hL : Latest body lk ul done L) : ∃ l, body.callId defId L = some l := by
  obtain ⟨hl, pre, mid, hsplit, -⟩ := hL
  exact Option.isSome_iff_exists.1 (h.dest pre L mid hsplit (.inl hl))

theorem Registered.dest_concat
    (hx : IsLock body lk x ∨ IsUnlock body ul x ∧ (∃ L, Latest body lk ul done L) →
      (body.callId defId x).isSome) (pre : List BasicBlock) (y : BasicBlock)
    (post : List BasicBlock) (hsplit : done ++ [x] = pre ++ y :: post)
    (hc : IsLock body lk y ∨ IsUnlock body ul y ∧ (∃ L, Latest body lk ul pre L)) :
    (body.callId defId y).isSome := by
  obtain ⟨pre', z, post', hdone, hz, rfl⟩ | ⟨hz, rfl⟩ := exists_split_concat
    (Q := fun pre z => (IsLock body lk z ∨ IsUnlock body ul z ∧ ∃ L, Latest body lk ul pre L) ∧ z = y)
    |>.1 ⟨pre, y, post, hsplit, hc, rfl⟩
  · exact h.dest pre' z post' hdone hz
  · exact hx hz

theorem Registered.lock {id : UniqueId}
    (hl : IsLock body lk x) (hid : body.callId defId x = some id) :
    Registered body lk ul defId (done ++ [x]) { tm with transactionId := some id } where
  __ := h
  dest := h.dest_concat fun _ => by rw [hid]; rfl
  current id' := by
    simp only [latest_concat, hl, not_true_eq_false, false_and, and_false, or_false, and_true,
      exists_eq_left', hid]
  entered k v := by
    have hord : ¬ IsOrdinary body lk ul x := fun h => h.other.1 hl
    rw [exists_split_concat, h.entered]
    simp only [hord, false_and, or_false]
  paired k v := by
    rw [exists_split_concat, h.paired]
    simp only [hl, not_true_eq_false, and_false, false_and, or_false]

/-- The visit of a block that is neither a lock nor an unlock call, when it enters the block's call
under the current transaction and changes nothing else. -/
theorem Registered.other (hl : ¬ IsLock body lk x)
    (hu : ¬ IsUnlock body ul x) {m : FxHashMap UniqueId UniqueId}
    (hm : ∀ k v, m.get k = some v ↔ tm.terminatorToLock.get k = some v ∨
      IsOrdinary body lk ul x ∧ body.callId defId x = some k ∧ tm.transactionId = some v) :
    Registered body lk ul defId (done ++ [x]) { tm with terminatorToLock := m } where
  __ := h
  dest := h.dest_concat fun hc => (hc.elim hl fun hc => hu hc.1).elim
  current id := by
    rw [h.current]
    simp only [latest_concat, hl, hu, and_false, not_false_eq_true, and_true, false_or]
  entered k v := by
    rw [hm, exists_split_concat, h.entered, h.current]
  paired k v := by
    rw [exists_split_concat, h.paired]
    simp only [hu, false_and, or_false]

theorem Registered.unlock_none (hl : ¬ IsLock body lk x) (hu : IsUnlock body ul x)
    (hnone : tm.transactionId = none) : Registered body lk ul defId (done ++ [x]) tm := by
  have hno : ∀ L, ¬ Latest body lk ul done L := by
    intro L hL
    obtain ⟨l, hl⟩ := h.callId_latest hL
    have hsome := (h.current l).2 ⟨L, hL, hl⟩
    rw [hnone] at hsome
    cases hsome
  have hord : ¬ IsOrdinary body lk ul x := fun h => h.other.2 hu
  refine { h with
    dest := h.dest_concat fun hc => (hc.elim hl fun hc => hc.2.elim hno).elim
    current := fun id => ?_, entered := fun k v => ?_, paired := fun k v => ?_ }
  · rw [h.current]
    simp only [latest_concat, hl, hu, hno, and_false, false_and, or_self]
  · rw [exists_split_concat, h.entered]
    simp only [hord, false_and, or_false]
  · rw [exists_split_concat, h.paired]
    simp only [hno, false_and, exists_const, and_false, or_false]

end

section
variable (h : Registered body lk ul defId done tm)
include h

theorem Registered.unlock (hnodup : (done ++ [x]).Nodup)
    (hl : ¬ IsLock body lk x) (hu : IsUnlock body ul x) {lockId id : UniqueId}
    (hlock : tm.transactionId = some lockId) (hid : body.callId defId x = some id) :
    Registered body lk ul defId (done ++ [x])
      { tm with lockToUnlock := tm.lockToUnlock.insert lockId id, transactionId := none } := by
  obtain ⟨L, hL, hLid⟩ := (h.current lockId).1 hlock
  have hord : ¬ IsOrdinary body lk ul x := fun h => h.other.2 hu
  refine { h with
    dest := h.dest_concat fun _ => by rw [hid]; rfl
    current := fun id => ?_, entered := fun k v => ?_, paired := fun k v => ?_ }
  · refine iff_of_false nofun ?_
    rintro ⟨L', hL', -⟩
    rcases latest_concat.1 hL' with ⟨-, hl'⟩ | ⟨-, -, hu'⟩
    exacts [hl hl', hu' hu]
  · rw [exists_split_concat, h.entered]
    simp only [hord, false_and, or_false]
  · rw [exists_split_concat, get_insert]
    split
    · next hk =>
      subst hk
      -- No earlier unlock is the partner of the latest lock.
      have hnot : ¬ ∃ pre U post, done = pre ++ U :: post ∧
          (IsUnlock body ul U ∧ ¬ IsLock body lk U) ∧ body.callId defId U = some v ∧
          ∃ L, Latest body lk ul pre L ∧ body.callId defId L = some k := by
        rintro ⟨pre, U, post, rfl, hU, -, L', hL', hLid'⟩
        obtain rfl := callId_inj hLid hLid'
        exact hL'.not_after_unlock hU.1 (nodup_append.1 hnodup).1 hL
      rw [or_iff_right hnot]
      constructor
      · rintro ⟨rfl⟩
        exact ⟨⟨hu, hl⟩, hid, L, hL, hLid⟩
      · rintro ⟨-, hv, -⟩
        exact hid.symm.trans hv
    · next hk =>
      rw [h.paired]
      refine (or_iff_left ?_).symm
      rintro ⟨-, -, L', hL', hLid'⟩
      have hcur := (h.current k).2 ⟨L', hL', hLid'⟩
      rw [hlock] at hcur
      exact hk (Option.some.inj hcur).symm

theorem Registered.fresh (hnodup : (done ++ [x]).Nodup)
    {id v : UniqueId} (hid : body.callId defId x = some id) :
    tm.terminatorToLock.get id ≠ some v := by
  intro hv
  obtain ⟨pre, y, post, rfl, -, hy, -⟩ := (h.entered id v).1 hv
  obtain rfl := callId_inj hid hy
  exact (nodup_append.1 hnodup).2.2 x (by simp) x (by simp) rfl

theorem Registered.step {tm' : TransactionMap}
    (hnodup : (done ++ [x]).Nodup) (hrun : tm.visitBasicBlockData x = .ok tm') :
    Registered body lk ul defId (done ++ [x]) tm' := by
  cases TransactionMap.visits h.body_eq h.defId_eq h.lock_eq h.unlock_eq hrun with
  | skip hl hu hskip =>
    refine h.other hl hu fun k v => (or_iff_left ?_).symm
    rintro ⟨hord, hk, htx⟩
    rcases hskip hord.callee with hno | hno
    · cases hno.symm.trans htx
    · cases hno.symm.trans hk
  | lock hl hid => exact h.lock hl hid
  | unlockNone hl hu hnone => exact h.unlock_none hl hu hnone
  | unlock hl hu hlock hid => exact h.unlock hnodup hl hu hlock hid
  | enter hord htx hid =>
    refine h.other hord.other.1 hord.other.2 fun k v => ?_
    rw [get_insert, htx, hid]
    split
    · next hk =>
      subst hk
      simp [hord, h.fresh hnodup hid]
    · next hk => simp [Ne.symm hk]

end

end step

theorem registered_new (body : Body) (lk ul defId : DefId) {items : LangItems}
    (hlk : items.transactionLock = some lk) (hul : items.transactionUnlock = some ul) :
    Registered body lk ul defId [] (TransactionMap.new defId body items) where
  body_eq := rfl
  defId_eq := rfl
  lock_eq := hlk
  unlock_eq := hul
  tx_eq := rfl
  dest := by simp
  current id := by simp [TransactionMap.new, TransactionMap.newChild, Latest]
  entered k v := by simp [TransactionMap.new, TransactionMap.newChild]
  paired k v := by simp [TransactionMap.new, TransactionMap.newChild]

/-! ## The walk of a bracketed body -/

/-- The lock `L` is open when the blocks `done` have been visited. -/
def OpenIn (body : Body) (lk ul : DefId) (done : List BasicBlock) (L : BasicBlock) : Prop :=
  L ∈ done ∧ IsLock body lk L ∧ ∀ U, UnlockOf body lk ul L U → U ∉ done

/-- The call of the block `x` is inside the transaction of `L` and comes before its unlock. -/
def InsideBefore (body : Body) (lk ul : DefId) (rpo : List BasicBlock) (L x : BasicBlock) : Prop :=
  OpenAt body lk ul (some L) x ∧ ∀ U, UnlockOf body lk ul L U → rpo.idxOf x < rpo.idxOf U

theorem Bracketed.lock_lt_unlock (hb : Bracketed body lk ul) {rpo : List BasicBlock}
    (hrpo : IsReversePostorder body.successors START_BLOCK rpo) {L U : BasicBlock}
    (hU : UnlockOf body lk ul L U) : rpo.idxOf L < rpo.idxOf U := by
  obtain ⟨hL, hreach⟩ := hU.1.lock rfl
  refine hrpo.dominator_lt L U ((hrpo.mem_iff L).2 hreach) ?_ hU.1.reach
    (hb.dominates hU.1 hU.2 .refl).1
  rintro rfl
  cases hb.lock _ _ hU.1 hL

section step
variable (hb : Bracketed body lk ul) {rpo done rest : List BasicBlock} {x : BasicBlock}
  (hrpo : IsReversePostorder body.successors START_BLOCK rpo) (hsplit : rpo = done ++ x :: rest)
include hb hrpo hsplit

omit hb in
theorem mem_done_iff (y : BasicBlock) : y ∈ done ↔ rpo.idxOf y < rpo.idxOf x := by
  have hx : x ∉ done := by
    intro hx
    have := hrpo.nodup
    rw [hsplit] at this
    exact (nodup_append.1 this).2.2 x hx x (.head _) rfl
  have hidx : rpo.idxOf x = done.length := by
    rw [hsplit, idxOf_append_of_notMem hx, idxOf_cons_self, add_zero]
  rw [hidx]
  exact List.IsPrefix.mem_iff_idxOf_lt_length ⟨x :: rest, hsplit.symm⟩ y

variable {L : BasicBlock}

theorem OpenIn.openAt (h : OpenIn body lk ul done L) : OpenAt body lk ul (some L) x := by
  obtain ⟨hLdone, hL, hopen⟩ := h
  have hLx := (mem_done_iff hrpo hsplit L).1 hLdone
  have hLr : Reach body.successors START_BLOCK L :=
    (hrpo.mem_iff L).1 (hsplit ▸ mem_append_left _ hLdone)
  obtain ⟨U, hU⟩ := hb.exists_unlockOf hL hLr
  have hUx : rpo.idxOf x ≤ rpo.idxOf U := by
    have := mt (mem_done_iff hrpo hsplit U).2 (hopen U hU)
    omega
  by_cases hxU : x = U
  · exact hxU ▸ hU.1
  · have hxmem : x ∈ rpo := hsplit ▸ by simp
    have hne : rpo.idxOf x ≠ rpo.idxOf U := fun h => hxU ((idxOf_inj hxmem).1 h)
    have hpath := hrpo.between L x U ((hrpo.mem_iff U).2 hU.1.reach) hLx (by omega)
      (hb.dominates hU.1 hU.2 .refl).1
    rcases openAt_of_reachBefore hb hL hLr (fun V hV => ((hb.own L V L U hV hU).1 rfl)) hpath with
      rfl | h
    · exact absurd hLx (lt_irrefl _)
    · exact h

theorem InsideBefore.openIn (h : InsideBefore body lk ul rpo L x)
    (hx : IsOrdinary body lk ul x) : OpenIn body lk ul done L := by
  obtain ⟨hopen, hlt⟩ := h
  obtain ⟨f, hf, -, -⟩ := id hx
  obtain ⟨hnl, hnu⟩ := hx.other
  obtain ⟨V, hV, hxV⟩ := hb.closes _ x L hopen (callOf_isSome hf) (openAfter_other hnl hnu)
  obtain ⟨hL, hreach⟩ := hopen.lock rfl
  have hLx : rpo.idxOf L < rpo.idxOf x := by
    refine hrpo.dominator_lt L x ((hrpo.mem_iff L).2 hreach) ?_ hopen.reach
      (hb.dominates hopen hV hxV).1
    rintro rfl
    exact hnl hL
  refine ⟨(mem_done_iff hrpo hsplit L).2 hLx, hL, fun U hU hUdone => ?_⟩
  have := (mem_done_iff hrpo hsplit U).1 hUdone
  have := hlt U hU
  omega

theorem latest_iff_openIn : Latest body lk ul done L ↔ OpenIn body lk ul done L := by
  constructor
  · rintro ⟨hL, pre, mid, rfl, hmid⟩
    refine ⟨by simp, hL, fun U hU hmem => ?_⟩
    have hlt := hb.lock_lt_unlock hrpo hU
    rcases mem_append.1 hmem with hpre | hUmid
    · have := (mem_done_iff (x := L) hrpo (hsplit.trans (append_assoc _ _ _)) U).1 hpre
      omega
    · rcases mem_cons.1 hUmid with rfl | hUmid
      · exact lt_irrefl _ hlt
      · exact (hmid U hUmid).2 hU.2
  · rintro ⟨hmem, hL, hopen⟩
    obtain ⟨pre, mid, rfl⟩ := append_of_mem hmem
    refine ⟨hL, pre, mid, rfl, fun y hy => ?_⟩
    obtain ⟨mid1, mid2, rfl⟩ := append_of_mem hy
    -- The lock is open at `y`, so `y` is no lock; and its unlock has not been visited.
    have hsplit' : rpo = (pre ++ L :: mid1) ++ y :: (mid2 ++ x :: rest) := by simp [hsplit]
    have hy : OpenAt body lk ul (some L) y := by
      refine OpenIn.openAt hb hrpo hsplit' ⟨by simp, hL, fun U hU hmem => hopen U hU ?_⟩
      simp only [mem_append, mem_cons] at hmem ⊢
      tauto
    exact ⟨fun hl => (nomatch hb.lock _ _ hy hl), fun hu => hopen y ⟨hy, hu⟩ (by simp)⟩

theorem latest_iff_inside (hord : IsOrdinary body lk ul x) :
    Latest body lk ul done L ↔ InsideBefore body lk ul rpo L x := by
  rw [latest_iff_openIn hb hrpo hsplit]
  refine ⟨fun hL => ⟨hL.openAt hb hrpo hsplit, fun U hU => ?_⟩,
    fun hin => hin.openIn hb hrpo hsplit hord⟩
  have hle := mt (mem_done_iff hrpo hsplit U).2 (hL.2.2 U hU)
  have hxmem : x ∈ rpo := hsplit ▸ by simp
  have hne : rpo.idxOf x ≠ rpo.idxOf U := by
    intro h
    rw [idxOf_inj hxmem] at h
    exact hord.other.2 (h ▸ hU.2)
  omega

theorem latest_iff_unlockOf (hu : IsUnlock body ul x) :
    Latest body lk ul done L ↔ UnlockOf body lk ul L x := by
  rw [latest_iff_openIn hb hrpo hsplit]
  refine ⟨fun hL => ⟨hL.openAt hb hrpo hsplit, hu⟩, fun hU => ?_⟩
  refine ⟨(mem_done_iff hrpo hsplit L).2 (hb.lock_lt_unlock hrpo hU), (hU.1.lock rfl).1,
    fun V hV hVdone => ?_⟩
  have := (mem_done_iff hrpo hsplit V).1 hVdone
  rw [(hb.own L V L x hV hU).1 rfl] at this
  exact lt_irrefl _ this

end step

namespace TransactionMap

/-- The second loop of `perform`, when every lock that has an entry is closed: the entered calls get
the lock and its unlock, and the entries for other calls stay. -/
theorem enterTx_spec (ord : IterOrder) (tm : TransactionMap)
    (hclosed : ∀ k v, tm.terminatorToLock.get k = some v → ∃ u, tm.lockToUnlock.get v = some u) :
    ∃ tm', (tm.terminatorToLock.iter ord).foldlM enterTx tm = .ok tm' ∧
      tm' = { tm with terminatorToTx := tm'.terminatorToTx } ∧
      ∀ k, tm'.terminatorToTx.get k = match tm.terminatorToLock.get k with
        | some lock => (tm.lockToUnlock.get lock).map (lock, ·)
        | none => tm.terminatorToTx.get k := by
  let P (done : List (UniqueId × UniqueId)) (s : TransactionMap) : Prop :=
    s = { tm with terminatorToTx := s.terminatorToTx } ∧
      (∀ k v, (k, v) ∈ done → s.terminatorToTx.get k = (tm.lockToUnlock.get v).map (v, ·)) ∧
      ∀ k, (∀ v, (k, v) ∉ done) → s.terminatorToTx.get k = tm.terminatorToTx.get k
  have init : P [] tm := ⟨rfl, by simp, by simp⟩
  have step : ∀ pre (e : UniqueId × UniqueId) post s,
      tm.terminatorToLock.iter ord = pre ++ e :: post → P ([] ++ pre) s →
      ∃ s', enterTx s e = .ok s' ∧ P ([] ++ pre ++ [e]) s' := by
    rintro pre ⟨k, v⟩ post s hl ⟨heq, hin, hout⟩
    have hget : ∀ {k' v'}, (k', v') ∈ pre ++ (k, v) :: post →
        tm.terminatorToLock.get k' = some v' := fun h => mem_iter.1 (hl ▸ h)
    have hkv : tm.terminatorToLock.get k = some v := hget (by simp)
    obtain ⟨u, hu⟩ := hclosed k v hkv
    refine ⟨{ s with terminatorToTx := s.terminatorToTx.insert k (v, u) }, ?_, ?_, ?_, ?_⟩
    · rw [enterTx, heq, hu]
      rfl
    · rw [heq]
    · intro k' v' hmem
      rw [get_insert]
      split
      · next hk =>
        subst hk
        have hkv' : tm.terminatorToLock.get k' = some v' := hget (by
          simp only [nil_append, mem_append, mem_cons] at hmem ⊢
          tauto)
        obtain rfl := Option.mem_unique hkv hkv'
        rw [hu]
        rfl
      · next hk =>
        refine hin k' v' ((mem_append.1 hmem).resolve_right fun h => hk ?_)
        exact congrArg Prod.fst (mem_singleton.1 h)
    · intro k' hnot
      have hne : k' ≠ k := fun h => hnot v (by simp [h])
      rw [get_insert, if_neg hne]
      exact hout k' fun v' hv' => hnot v' (mem_append_left _ hv')
  obtain ⟨tm', hrun, heq, hin, hout⟩ := foldlM_spec init step
  refine ⟨tm', hrun, heq, fun k => ?_⟩
  cases hk : tm.terminatorToLock.get k with
  | some v => exact hin k v (mem_iter.2 hk)
  | none =>
    refine hout k fun v hv => ?_
    rw [nil_append, mem_iter, hk] at hv
    cases hv

end TransactionMap

/-! ## When the map agrees with the graph -/

/-- The map agrees with the control-flow graph: a call with a destination local that is neither a
lock nor an unlock call is mapped to a lock and an unlock exactly when some path from the lock call
reaches it without passing the unlock call. -/
def AgreesWithCfg (body : Body) (lk ul defId : DefId) (tm : TransactionMap) : Prop :=
  ∀ x id, body.callId defId x = some id → ¬ IsLock body lk x → ¬ IsUnlock body ul x →
    ∀ p : UniqueId × UniqueId, tm.terminatorToTx.get id = some p ↔
      ∃ L U, Reach body.successors START_BLOCK L ∧ IsLock body lk L ∧ UnlockOf body lk ul L U ∧
        body.callId defId L = some p.1 ∧ body.callId defId U = some p.2 ∧
        ReachBefore body.successors U L x

/-- What the walk needs of a body: lock and unlock calls have destination locals, and a call with a
destination local inside a transaction has a constant callee and comes before the unlock in reverse
postorder. -/
structure WalkOrdered (body : Body) (lk ul : DefId) : Prop where
  dest : ∀ x, Reach body.successors START_BLOCK x → IsLock body lk x ∨ IsUnlock body ul x →
    (body.destLocal x).isSome
  known : ∀ L x, OpenAt body lk ul (some L) x → ¬ IsUnlock body ul x →
    (body.destLocal x).isSome → (body.callee x).isSome
  before : ∀ L U x, UnlockOf body lk ul L U → OpenAt body lk ul (some L) x →
    ¬ IsUnlock body ul x → (body.destLocal x).isSome →
    ∃ rpo, reversePostorder body = .ok rpo ∧ rpo.idxOf x < rpo.idxOf U

theorem callId_isSome (defId : DefId) (x : BasicBlock) :
    (body.callId defId x).isSome = (body.destLocal x).isSome := by
  simp [callId]

theorem reversePostorder_spec (h : body.WF) : ∃ rpo, reversePostorder body = .ok rpo ∧
      IsReversePostorder body.successors START_BLOCK rpo := by
  obtain ⟨out, hout, hpost⟩ := postorder_spec h h.start
  exact ⟨out.reverse, by simp [reversePostorder, hout], hpost.reverse⟩

section perform
variable {items : LangItems} (hlk : items.transactionLock = some lk)
  (hul : items.transactionUnlock = some ul) (hwf : body.WF) (hb : Bracketed body lk ul)
include hlk hul hwf hb

variable {rpo : List BasicBlock}

omit hwf hb in
theorem walkBlocks_new (defId : DefId)
    (hrpo : reversePostorder body = .ok rpo) : (TransactionMap.new defId body items).walkBlocks =
      rpo.foldlM TransactionMap.visitBasicBlockData (TransactionMap.new defId body items) := by
  simp [TransactionMap.walkBlocks, TransactionMap.new, TransactionMap.newChild, hlk, hul, hrpo]

omit hlk hul hb in
theorem lt_length_of_mem_rpo
    (hR : IsReversePostorder body.successors START_BLOCK rpo) {x : BasicBlock} (hx : x ∈ rpo) :
    x < body.basicBlocks.length := by
  rcases ReflTransGen.cases_tail ((hR.mem_iff x).1 hx) with h | ⟨y, -, hy⟩
  · exact h ▸ hwf.start
  · exact hwf.inRange y x hy

omit hwf hb in
theorem registered_of_walkBlocks (defId : DefId) (hrpo : reversePostorder body = .ok rpo)
    (hR : IsReversePostorder body.successors START_BLOCK rpo) {tm : TransactionMap}
    (hrun : (TransactionMap.new defId body items).walkBlocks = .ok tm) :
    Registered body lk ul defId rpo tm := by
  rw [walkBlocks_new hlk hul defId hrpo] at hrun
  have := foldlM_inv (P := fun done tm => Registered body lk ul defId done tm)
    (registered_new body lk ul defId hlk hul) hrun fun pre x post s s' hl h hs => by
      refine h.step ?_ hs
      have := hR.nodup
      rw [hl, append_cons] at this
      exact (nodup_append.1 this).1
  simpa using this

omit hb in
theorem walkBlocks_returns (defId : DefId) (hrpo : reversePostorder body = .ok rpo)
    (hR : IsReversePostorder body.successors START_BLOCK rpo)
    (hdest : ∀ x, Reach body.successors START_BLOCK x → IsLock body lk x ∨ IsUnlock body ul x →
      (body.destLocal x).isSome) : ∃ tm, (TransactionMap.new defId body items).walkBlocks = .ok tm ∧
      Registered body lk ul defId rpo tm := by
  have step : ∀ pre x post s, rpo = pre ++ x :: post → Registered body lk ul defId ([] ++ pre) s →
      ∃ s', s.visitBasicBlockData x = .ok s' ∧
        Registered body lk ul defId ([] ++ pre ++ [x]) s' := by
    intro pre x post s hl h
    have hx : x ∈ rpo := hl ▸ by simp
    have hnodup : (pre ++ [x]).Nodup := by
      have := hR.nodup
      rw [hl, append_cons] at this
      exact (nodup_append.1 this).1
    obtain ⟨s', hs'⟩ := TransactionMap.visit_returns h.body_eq h.defId_eq h.lock_eq h.unlock_eq
      (lt_length_of_mem_rpo hwf hR hx) fun hc => by
        rw [callId_isSome]
        exact hdest x ((hR.mem_iff x).1 hx) hc
    exact ⟨s', hs', h.step hnodup hs'⟩
  obtain ⟨tm, hrun, htm⟩ := foldlM_spec (registered_new body lk ul defId hlk hul) step
  exact ⟨tm, by rw [walkBlocks_new hlk hul defId hrpo, hrun], htm⟩

section
variable {defId : DefId} {rpo : List BasicBlock} {tm : TransactionMap}
  (hR : IsReversePostorder body.successors START_BLOCK rpo) (h : Registered body lk ul defId rpo tm)
include hR h

omit hlk hul hwf in
theorem Registered.callId {x : BasicBlock} (hx : Reach body.successors START_BLOCK x)
    (hc : IsLock body lk x ∨ IsUnlock body ul x) : (body.callId defId x).isSome := by
  obtain ⟨pre, post, hsplit⟩ := append_of_mem ((hR.mem_iff x).2 hx)
  refine h.dest pre x post hsplit (hc.imp_right fun hu => ⟨hu, ?_⟩)
  obtain ⟨o, ho⟩ := exists_openAt lk ul hx
  obtain ⟨L, rfl⟩ := hb.unlock o x ho hu
  exact ⟨L, (latest_iff_unlockOf hb hR hsplit hu).2 ⟨ho, hu⟩⟩

variable {k v : UniqueId}

omit hlk hul hwf in
/-- The calls that the walk of a bracketed body enters are those inside a transaction that come
before its unlock. -/
theorem Registered.entered_inside : tm.terminatorToLock.get k = some v ↔
    ∃ x L, IsOrdinary body lk ul x ∧ InsideBefore body lk ul rpo L x ∧
      body.callId defId x = some k ∧ body.callId defId L = some v := by
  rw [h.entered]
  constructor
  · rintro ⟨pre, x, post, hsplit, hord, hk, L, hL, hv⟩
    exact ⟨x, L, hord, (latest_iff_inside hb hR hsplit hord).1 hL, hk, hv⟩
  · rintro ⟨x, L, hord, hin, hk, hv⟩
    obtain ⟨pre, post, hsplit⟩ := append_of_mem ((hR.mem_iff x).2 hin.1.reach)
    exact ⟨pre, x, post, hsplit, hord, hk, L, (latest_iff_inside hb hR hsplit hord).2 hin, hv⟩

omit hlk hul hwf in
theorem Registered.paired_unlockOf {L U : BasicBlock} (hU : UnlockOf body lk ul L U)
    (hk : body.callId defId L = some k) (hv : body.callId defId U = some v) :
    tm.lockToUnlock.get k = some v := by
  obtain ⟨pre, post, hsplit⟩ := append_of_mem ((hR.mem_iff U).2 hU.1.reach)
  have hnl : ¬ IsLock body lk U := fun hl => nomatch hb.lock _ _ hU.1 hl
  exact (h.paired k v).2
    ⟨pre, U, post, hsplit, ⟨hU.2, hnl⟩, hv, L, (latest_iff_unlockOf hb hR hsplit hU.2).2 hU, hk⟩

omit hlk hul hwf in
/-- What `perform` has entered when it returns: the ordinary calls inside a transaction that come
before its unlock. -/
theorem terminatorToTx_iff (ord : IterOrder) :
    ∃ tm', (tm.terminatorToLock.iter ord).foldlM TransactionMap.enterTx tm = .ok tm' ∧
      ∀ id p, tm'.terminatorToTx.get id = some p ↔ ∃ x L U, IsOrdinary body lk ul x ∧
        InsideBefore body lk ul rpo L x ∧ UnlockOf body lk ul L U ∧
        body.callId defId x = some id ∧ body.callId defId L = some p.1 ∧
        body.callId defId U = some p.2 := by
  have hpair : ∀ L id, body.callId defId L = some id → (∃ x, OpenAt body lk ul (some L) x) →
      ∃ U u, UnlockOf body lk ul L U ∧ body.callId defId U = some u ∧
        tm.lockToUnlock.get id = some u := by
    rintro L id hid ⟨x, hx⟩
    obtain ⟨hL, hreach⟩ := hx.lock rfl
    obtain ⟨U, hU⟩ := hb.exists_unlockOf hL hreach
    obtain ⟨u, hu⟩ := Option.isSome_iff_exists.1 (h.callId hb hR hU.1.reach (.inr hU.2))
    exact ⟨U, u, hU, hu, h.paired_unlockOf hb hR hU hid hu⟩
  obtain ⟨tm', hrun, -, hget⟩ := tm.enterTx_spec ord fun k v hkv => by
    obtain ⟨x, L, -, hin, -, hv⟩ := (h.entered_inside hb hR).1 hkv
    obtain ⟨U, u, -, -, hu⟩ := hpair L v hv ⟨x, hin.1⟩
    exact ⟨u, hu⟩
  refine ⟨tm', hrun, fun id p => ?_⟩
  rw [hget, h.tx_eq]
  constructor
  · intro hp
    cases hid : tm.terminatorToLock.get id with
    | none => simp [hid] at hp
    | some v =>
      obtain ⟨x, L, hord, hin, hx, hv⟩ := (h.entered_inside hb hR).1 hid
      obtain ⟨U, u, hU, hUid, hu⟩ := hpair L v hv ⟨x, hin.1⟩
      rw [hid] at hp
      simp only [hu, Option.map_some, Option.some.injEq] at hp
      subst hp
      exact ⟨x, L, U, hord, hin, hU, hx, hv, hUid⟩
  · rintro ⟨x, L, U, hord, hin, hU, hx, hv, hu⟩
    have hid := (h.entered_inside hb hR).2 ⟨x, L, hord, hin, hx, hv⟩
    simp [hid, h.paired_unlockOf hb hR hU hv hu]

end

/-- The transaction map agrees with the control-flow graph of a bracketed body exactly when the calls
of each transaction come before its unlock in reverse postorder. -/
theorem terminatorToTx_agrees_iff (ord : IterOrder) (defId : DefId) :
    (∃ tm, (TransactionMap.new defId body items).perform ord = .ok tm ∧
      AgreesWithCfg body lk ul defId tm) ↔ WalkOrdered body lk ul := by
  obtain ⟨rpo, hrpo, hR⟩ := reversePostorder_spec hwf
  constructor
  · rintro ⟨tm', hrun, hagree⟩
    obtain ⟨tm, hwalk, hrun⟩ := bind_eq_ok.1 hrun
    have hw := registered_of_walkBlocks hlk hul defId hrpo hR hwalk
    obtain ⟨tm'', hrun', hiff⟩ := terminatorToTx_iff hb hR hw ord
    obtain rfl := Except.ok.inj (hrun.symm.trans hrun')
    have hdest : ∀ x, Reach body.successors START_BLOCK x → IsLock body lk x ∨ IsUnlock body ul x →
        (body.destLocal x).isSome := fun x hx hc => by
      rw [← callId_isSome defId]
      exact hw.callId hb hR hx hc
    -- A call inside a transaction is mapped, so the walk has entered it under the lock.
    have key : ∀ L U x, UnlockOf body lk ul L U → OpenAt body lk ul (some L) x →
        ¬ IsUnlock body ul x → (body.destLocal x).isSome →
        IsOrdinary body lk ul x ∧ InsideBefore body lk ul rpo L x := by
      intro L U x hU hx hxu hxd
      obtain ⟨hL, hLr⟩ := hx.lock rfl
      have hxl : ¬ IsLock body lk x := fun h => by cases hb.lock _ _ hx h
      obtain ⟨id, hid⟩ := Option.isSome_iff_exists.1 ((callId_isSome defId x).trans hxd)
      obtain ⟨l, hl⟩ := Option.isSome_iff_exists.1
        ((callId_isSome defId L).trans (hdest L hLr (.inl hL)))
      obtain ⟨u, hu⟩ := Option.isSome_iff_exists.1
        ((callId_isSome defId U).trans (hdest U hU.1.reach (.inr hU.2)))
      obtain ⟨x', L', U', hord, hin, -, hx', hL', -⟩ := (hiff id (l, u)).1
        ((hagree x id hid hxl hxu (l, u)).2
          ⟨L, U, hLr, hL, hU, hl, hu, hx.reachBefore hb rfl hU⟩)
      obtain rfl := callId_inj hx' hid
      obtain rfl := callId_inj hL' hl
      exact ⟨hord, hin⟩
    refine ⟨hdest, fun L x hx hxu hxd => ?_, fun L U x hU hx hxu hxd => ?_⟩
    · obtain ⟨hL, hLr⟩ := hx.lock rfl
      obtain ⟨U, hU⟩ := hb.exists_unlockOf hL hLr
      obtain ⟨f, hf, -⟩ := (key L U x hU hx hxu hxd).1
      rw [hf]
      rfl
    · exact ⟨rpo, hrpo, (key L U x hU hx hxu hxd).2.2 U hU⟩
  · intro hord
    obtain ⟨tm, hwalk, hw⟩ := walkBlocks_returns hlk hul hwf defId hrpo hR hord.dest
    obtain ⟨tm', hrun, hiff⟩ := terminatorToTx_iff hb hR hw ord
    refine ⟨tm', by simp [TransactionMap.perform, hwalk, hrun], fun x id hid hxl hxu p => ?_⟩
    rw [hiff]
    constructor
    · rintro ⟨x', L, U, -, hin, hU, hx', hl, hu⟩
      obtain rfl := callId_inj hx' hid
      obtain ⟨hL, hLr⟩ := hin.1.lock rfl
      exact ⟨L, U, hLr, hL, hU, hl, hu, hin.1.reachBefore hb rfl hU⟩
    · rintro ⟨L, U, hLr, hL, hU, hl, hu, hpath⟩
      have hx : OpenAt body lk ul (some L) x :=
        (openAt_of_reachBefore hb hL hLr (fun V hV => ((hb.own L V L U hV hU).1 rfl)) hpath).resolve_left
          (fun h => hxl (h ▸ hL))
      have hxd : (body.destLocal x).isSome := by
        rw [← callId_isSome defId, hid]
        rfl
      obtain ⟨f, hf⟩ := Option.isSome_iff_exists.1 (hord.known L x hx hxu hxd)
      have hflk : f ≠ lk := fun h => hxl (by rw [IsLock, hf, h])
      have hful : f ≠ ul := fun h => hxu (by rw [IsUnlock, hf, h])
      refine ⟨x, L, U, ⟨f, hf, hflk, hful⟩, ⟨hx, fun V hV => ?_⟩, hU, hid, hl, hu⟩
      obtain ⟨rpo', hrpo', hlt⟩ := hord.before L V x hV hx hxu hxd
      rwa [← Except.ok.inj (hrpo.symm.trans hrpo')] at hlt

end perform

end

/-! ## Calls of other functions -/

namespace TransactionMap

variable {tm tm' : TransactionMap}

theorem visitTerminator_keys {term : Terminator} {loc : Location}
    (h : tm.visitTerminator term loc = .ok tm') :
    tm'.defId = tm.defId ∧ tm'.terminatorToTx = tm.terminatorToTx ∧
      ∀ k, k.defId ≠ tm.defId → tm'.terminatorToLock.get k = tm.terminatorToLock.get k := by
  unfold visitTerminator at h
  split at h
  · obtain ⟨lk, -, h⟩ := bind_eq_ok.1 h
    split at h
    · obtain ⟨l, -, h⟩ := bind_eq_ok.1 h
      cases h
      exact ⟨rfl, rfl, fun _ _ => rfl⟩
    · obtain ⟨ul, -, h⟩ := bind_eq_ok.1 h
      split at h
      · split at h
        · obtain ⟨l, -, h⟩ := bind_eq_ok.1 h
          cases h
          exact ⟨rfl, rfl, fun _ _ => rfl⟩
        · cases h
          exact ⟨rfl, rfl, fun _ _ => rfl⟩
      · split at h
        · cases h
          refine ⟨rfl, rfl, fun k hk => ?_⟩
          rw [get_insert, if_neg fun h => hk (by rw [h]; rfl)]
        · cases h
          exact ⟨rfl, rfl, fun _ _ => rfl⟩
  · cases h
    exact ⟨rfl, rfl, fun _ _ => rfl⟩

theorem perform_get_other (ord : IterOrder) (h : tm.perform ord = .ok tm')
    (hempty : tm.terminatorToLock = ∅) {k : UniqueId} (hk : k.defId ≠ tm.defId) :
    tm'.terminatorToTx.get k = tm.terminatorToTx.get k := by
  obtain ⟨tm1, hwalk, hloop⟩ := bind_eq_ok.1 h
  have hwalked : tm1.terminatorToTx = tm.terminatorToTx ∧ tm1.terminatorToLock.get k = none := by
    unfold walkBlocks at hwalk
    split at hwalk
    · obtain ⟨rpo, -, hwalk⟩ := bind_eq_ok.1 hwalk
      have := foldlM_keeps (P := fun s => s.defId = tm.defId ∧
        s.terminatorToTx = tm.terminatorToTx ∧ s.terminatorToLock.get k = none)
        ⟨rfl, rfl, by simp [hempty]⟩ hwalk ?_
      · exact this.2
      · rintro x - s s' ⟨hd, ht, hl⟩ hs
        obtain ⟨data, -, hs⟩ := bind_eq_ok.1 hs
        split at hs
        · obtain ⟨hd', ht', hl'⟩ := visitTerminator_keys hs
          exact ⟨hd'.trans hd, ht'.trans ht, (hl' k (by rwa [hd])).trans hl⟩
        · cases hs
          exact ⟨hd, ht, hl⟩
    · cases hwalk
      exact ⟨rfl, by simp [hempty]⟩
  refine foldlM_keeps (P := fun s => s.terminatorToTx.get k = tm.terminatorToTx.get k)
    (by rw [hwalked.1]) hloop ?_
  rintro ⟨k', v⟩ hentry s s' hs hs'
  obtain ⟨u, -, hs'⟩ := bind_eq_ok.1 hs'
  cases hs'
  have hmem : tm1.terminatorToLock.get k' = some v := mem_iter.1 hentry
  rw [get_insert, if_neg, hs]
  rintro rfl
  rw [hwalked.2] at hmem
  cases hmem

end TransactionMap

/-! ## Bodies without transactions of their own -/

namespace TransactionMap

/-- The call that ends a block is entered when a transaction is open: it has a known function and a
destination local. -/
def Enterable (body : Body) (defId : DefId) (x : BasicBlock) (id : UniqueId) : Prop :=
  (body.callee x).isSome ∧ body.callId defId x = some id

/-- In a body that calls neither the lock nor the unlock item, the calls that are reached are entered
under the transaction the body is analysed in, if there is one. -/
theorem perform_plain (ord : IterOrder) {tm : TransactionMap} (hwf : tm.body.WF) {lk ul : DefId}
    (hlk : tm.lockDefId = some lk) (hul : tm.unlockDefId = some ul)
    (hplain : ∀ x, ¬ IsLock tm.body lk x ∧ ¬ IsUnlock tm.body ul x)
    (hempty : tm.terminatorToLock = ∅)
    (hclosed : ∀ id, tm.transactionId = some id → ∃ u, tm.lockToUnlock.get id = some u) :
    ∃ tm', tm.perform ord = .ok tm' ∧ tm'.body = tm.body ∧ tm'.defId = tm.defId ∧
      (∀ k id u, tm.transactionId = some id → tm.lockToUnlock.get id = some u →
        (∃ x, Reach tm.body.successors START_BLOCK x ∧ Enterable tm.body tm.defId x k) →
        tm'.terminatorToTx.get k = some (id, u)) ∧
      ∀ k, (tm.transactionId = none ∨ ∀ x, ¬ Enterable tm.body tm.defId x k) →
        tm'.terminatorToTx.get k = tm.terminatorToTx.get k := by
  obtain ⟨rpo, hrpo, hR⟩ := reversePostorder_spec hwf
  let P (done : List BasicBlock) (s : TransactionMap) : Prop :=
    s = { tm with terminatorToLock := s.terminatorToLock } ∧
      ∀ k v, s.terminatorToLock.get k = some v ↔
        tm.transactionId = some v ∧ ∃ x ∈ done, Enterable tm.body tm.defId x k
  have init : P [] tm := ⟨rfl, by simp [hempty]⟩
  have step : ∀ pre x post s, rpo = pre ++ x :: post → P ([] ++ pre) s →
      ∃ s', s.visitBasicBlockData x = .ok s' ∧ P ([] ++ pre ++ [x]) s' := by
    rintro pre x post s hl ⟨heq, hget⟩
    have hx := lt_length_of_mem_rpo hwf hR (hl ▸ by simp : x ∈ rpo)
    have hbody : s.body = tm.body := by rw [heq]
    have hdef : s.defId = tm.defId := by rw [heq]
    have hlk' : s.lockDefId = some lk := by rw [heq]; exact hlk
    have hul' : s.unlockDefId = some ul := by rw [heq]; exact hul
    have htx : s.transactionId = tm.transactionId := by rw [heq]
    obtain ⟨s', hs'⟩ := visit_returns hbody hdef hlk' hul' hx
      fun hc => (hc.elim (hplain x).1 (hplain x).2).elim
    refine ⟨s', hs', ?_⟩
    cases visits hbody hdef hlk' hul' hs' with
    | lock hl _ => exact absurd hl (hplain x).1
    | unlockNone _ hu _ => exact absurd hu (hplain x).2
    | unlock _ hu _ _ => exact absurd hu (hplain x).2
    | skip _ _ hskip =>
      refine ⟨heq, fun k v => (hget k v).trans (and_congr_right fun hv => ?_)⟩
      simp only [mem_append, mem_singleton, or_and_right, exists_or, exists_eq_left]
      refine (or_iff_left fun hk => ?_).symm
      rcases hskip hk.1 with hno | hno
      · cases (htx.symm.trans hno).symm.trans hv
      · cases hno.symm.trans hk.2
    | @enter txId id hord ht hid =>
      refine ⟨by simp only; rw [heq], fun k v => ?_⟩
      have hE : ∀ k, Enterable tm.body tm.defId x k ↔ k = id := fun k => by
        rw [Enterable, hid]
        simp [hord.callee, eq_comm]
      rw [get_insert, ← htx, ht]
      simp only [mem_append, mem_singleton, or_and_right, exists_or, exists_eq_left, hE]
      split
      · next hk => simp [hk]
      · next hk => simp [hk, hget, ← htx, ht]
  obtain ⟨tm1, hrun, heq, hget⟩ := foldlM_spec init step
  have hwalk : tm.walkBlocks = .ok tm1 := by
    simp only [walkBlocks, hlk, hul, hrpo, ok_bind, hrun]
  have hpairs : tm1.lockToUnlock = tm.lockToUnlock := by rw [heq]
  obtain ⟨tm', hrun', heq', hget'⟩ := tm1.enterTx_spec ord fun k v hkv => by
    rw [hpairs]
    exact hclosed v ((hget k v).1 hkv).1
  refine ⟨tm', by simp [perform, hwalk, hrun'], by rw [heq', heq], by rw [heq', heq], ?_, ?_⟩
  · rintro k id u hid hu ⟨x, hreach, hent⟩
    have hk := (hget k id).2 ⟨hid, x, (hR.mem_iff x).2 hreach, hent⟩
    rw [hget', hk, hpairs]
    simp [hu]
  · intro k hk
    have hnone : tm1.terminatorToLock.get k = none := by
      cases hg : tm1.terminatorToLock.get k with
      | none => rfl
      | some v =>
        obtain ⟨hv, x, -, hent⟩ := (hget k v).1 hg
        rcases hk with hk | hk
        · rw [hk] at hv
          cases hv
        · exact absurd hent (hk x)
    rw [hget', hnone, heq]

end TransactionMap

/-! ## A loop inside a transaction -/

variable {body : Body} {lk ul : DefId}

theorem OpenAt.mem_of_closed
    {S : List (Option BasicBlock × BasicBlock)} (hstart : (none, START_BLOCK) ∈ S)
    (hclosed : ∀ e ∈ S, ∀ y ∈ body.successors e.2, (openAfter body lk ul e.1 e.2, y) ∈ S)
    {o : Option BasicBlock} {x : BasicBlock} (h : OpenAt body lk ul o x) : (o, x) ∈ S := by
  induction h with
  | start => exact hstart
  | step _ hy ih => exact hclosed _ ih _ hy

theorem bracketed_of_closed
    (S : List (Option BasicBlock × BasicBlock)) (hstart : (none, START_BLOCK) ∈ S)
    (hclosed : ∀ e ∈ S, ∀ y ∈ body.successors e.2, (openAfter body lk ul e.1 e.2, y) ∈ S)
    (hlock : ∀ e ∈ S, IsLock body lk e.2 → e.1 = none)
    (hunlock : ∀ e ∈ S, IsUnlock body ul e.2 → e.1.isSome)
    (hown : ∀ e ∈ S, ∀ e' ∈ S, IsUnlock body ul e.2 → IsUnlock body ul e'.2 →
      (e.1 = e'.1 ↔ e.2 = e'.2))
    (hcloses : ∀ e ∈ S, (openAfter body lk ul e.1 e.2).isSome →
      ∃ U, IsUnlock body ul U ∧ Reach body.successors e.2 U) : Bracketed body lk ul where
  lock o x h := hlock _ (h.mem_of_closed hstart hclosed)
  unlock o x h hu := Option.isSome_iff_exists.1 (hunlock _ (h.mem_of_closed hstart hclosed) hu)
  own L U L' U' h h' := by
    have := hown _ (h.1.mem_of_closed hstart hclosed) _ (h'.1.mem_of_closed hstart hclosed) h.2 h'.2
    simpa using this
  closes o x L h _ hL := hcloses _ (h.mem_of_closed hstart hclosed) (by simp [hL])

/-- A block that calls a function with a constant argument. -/
def callBlock (f : DefId) (arg : Nat) (dest : Local) (target : BasicBlock) : BasicBlockData where
  statements := []
  terminator := some (.call (.constant (.zeroSized (.fnDef f [])))
    [.constant (.fromUsize arg)] (some (.ofLocal dest, target)) none)

/-- The body of `transaction { f(); }`. -/
def straightBody (lk ul f : DefId) : Body where
  basicBlocks := [callBlock lk 99 1 1, callBlock f 0 2 2, callBlock ul 99 3 3, ⟨[], some .ret, false⟩]
  localDecls := [⟨none⟩, ⟨none⟩, ⟨none⟩, ⟨none⟩]
  argCount := 0

/-- The body of `transaction { loop { if c { break } f(); } }`: the switch on the condition has the
target for `false` first. -/
def loopBody (lk ul f : DefId) : Body where
  basicBlocks := [callBlock lk 99 2 1, ⟨[], some (.switchInt (.copy (.ofLocal 1)) [0] [2, 3]),
    false⟩, callBlock f 0 3 1, callBlock ul 99 4 4, ⟨[], some .ret, false⟩]
  localDecls := [⟨none⟩, ⟨none⟩, ⟨none⟩, ⟨none⟩, ⟨none⟩]
  argCount := 1

/-- Straight-line code: the call is mapped to its transaction. -/
theorem terminatorToTx_agrees_straight :
    let lk : DefId := ⟨1, 0⟩
    let ul : DefId := ⟨1, 1⟩
    let body := straightBody lk ul ⟨1, 2⟩
    ∃ tm, (TransactionMap.new ⟨0, 0⟩ body ⟨some lk, some ul, none, none, none, none⟩).perform
        .entries = .ok tm ∧ AgreesWithCfg body lk ul ⟨0, 0⟩ tm := by
  intro lk ul body
  have hwf : body.WF := wf_of_blocks (by decide) (by decide)
  let S : List (Option BasicBlock × BasicBlock) := [(none, 0), (some 0, 1), (some 0, 2), (none, 3)]
  have hclosed : ∀ e ∈ S, ∀ y ∈ body.successors e.2, (openAfter body lk ul e.1 e.2, y) ∈ S := by
    decide
  have h12 : Reach body.successors 1 2 := .single (by decide)
  have hb : Bracketed body lk ul := by
    refine bracketed_of_closed S (by decide) hclosed (by decide) (by decide) (by decide) ?_
    intro e he hopen
    refine ⟨2, by decide, ?_⟩
    simp only [S, mem_cons, not_mem_nil, or_false] at he
    rcases he with rfl | rfl | rfl | rfl
    exacts [h12.head (by decide), h12, absurd hopen (by decide), absurd hopen (by decide)]
  have hmem : ∀ {o x}, OpenAt body lk ul o x → (o, x) ∈ S := fun h =>
    h.mem_of_closed (by decide) hclosed
  refine (terminatorToTx_agrees_iff rfl rfl hwf hb .entries ⟨0, 0⟩).2 ⟨?_, ?_, ?_⟩
  · intro x hx
    obtain ⟨o, ho⟩ := exists_openAt lk ul hx
    have hall : ∀ e ∈ S, IsLock body lk e.2 ∨ IsUnlock body ul e.2 → (body.destLocal e.2).isSome := by
      decide
    exact hall _ (hmem ho)
  · intro L x hx
    have hall : ∀ e ∈ S, ¬ IsUnlock body ul e.2 → (body.destLocal e.2).isSome →
        (body.callee e.2).isSome := by
      decide
    exact hall _ (hmem hx)
  · intro L U x hU hx hxu _
    refine ⟨[0, 1, 2, 3], by rfl, ?_⟩
    have hall : ∀ e ∈ S, ∀ e' ∈ S, IsUnlock body ul e.2 → e'.1.isSome → ¬ IsUnlock body ul e'.2 →
        [0, 1, 2, 3].idxOf e'.2 < [0, 1, 2, 3].idxOf e.2 := by
      decide
    exact hall _ (hmem hU.1) _ (hmem hx) hU.2 rfl hxu

/-- A loop: the body is bracketed and the walk returns, but the call in the loop comes after the
unlock in reverse postorder and is not entered. -/
theorem terminatorToTx_misses_loop :
    let lk : DefId := ⟨1, 0⟩
    let ul : DefId := ⟨1, 1⟩
    let body := loopBody lk ul ⟨1, 2⟩
    body.WF ∧ Bracketed body lk ul ∧
      (∃ tm, (TransactionMap.new ⟨0, 0⟩ body ⟨some lk, some ul, none, none, none, none⟩).perform
        .entries = .ok tm) ∧
      ¬ ∃ tm, (TransactionMap.new ⟨0, 0⟩ body ⟨some lk, some ul, none, none, none, none⟩).perform
        .entries = .ok tm ∧ AgreesWithCfg body lk ul ⟨0, 0⟩ tm := by
  intro lk ul body
  let S : List (Option BasicBlock × BasicBlock) :=
    [(none, 0), (some 0, 1), (some 0, 2), (some 0, 3), (none, 4)]
  have h13 : Reach body.successors 1 3 := .single (by decide)
  have hb : Bracketed body lk ul := by
    refine bracketed_of_closed S (by decide) (by decide) (by decide) (by decide) (by decide) ?_
    intro e he hopen
    refine ⟨3, by decide, ?_⟩
    simp only [S, mem_cons, not_mem_nil, or_false] at he
    rcases he with rfl | rfl | rfl | rfl | rfl
    exacts [h13.head (by decide), h13, h13.head (by decide), absurd hopen (by decide),
      absurd hopen (by decide)]
  have hrun : ((TransactionMap.new ⟨0, 0⟩ body ⟨some lk, some ul, none, none, none, none⟩).perform
      .entries).map (fun tm => tm.terminatorToTx.get ⟨⟨0, 0⟩, 3, ⟨2, 0⟩, none⟩) = .ok none := by
    decide
  cases htm : (TransactionMap.new ⟨0, 0⟩ body
      ⟨some lk, some ul, none, none, none, none⟩).perform .entries with
  | error e => simp [htm, Except.map] at hrun
  | ok tm =>
    refine ⟨wf_of_blocks (by decide) (by decide), hb, ⟨tm, rfl⟩, ?_⟩
    rintro ⟨tm', htm', hagree⟩
    cases htm'
    rw [htm] at hrun
    have hnone : tm.terminatorToTx.get ⟨⟨0, 0⟩, 3, ⟨2, 0⟩, none⟩ = none := Except.ok.inj hrun
    have hopen : OpenAt body lk ul (some 0) 3 := by
      have h1 : OpenAt body lk ul (some 0) 1 := OpenAt.start.step (x := 0) (by decide)
      exact h1.step (x := 1) (by decide)
    have hsome := (hagree 2 ⟨⟨0, 0⟩, 3, ⟨2, 0⟩, none⟩ (by rfl) (by decide) (by decide)
      (⟨⟨0, 0⟩, 2, ⟨0, 0⟩, none⟩, ⟨⟨0, 0⟩, 4, ⟨3, 0⟩, none⟩)).2
      ⟨0, 3, .refl, by decide, ⟨hopen, by decide⟩, by rfl, by rfl,
        ReflTransGen.tail (b := 1) (.single ⟨by decide, by decide⟩) ⟨by decide, by decide⟩⟩
    rw [hnone] at hsome
    cases hsome

end Tortis
