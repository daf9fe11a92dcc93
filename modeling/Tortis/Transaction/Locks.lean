import Tortis.Mir.PatchBuilder
import Tortis.Transaction.Conflict
import Tortis.Transaction.Credited

/-!
# From shared objects to locks

The queries of `librustc_mir/transform/mod.rs` over a crate: `get_shared_objects` collects what the
use-def analysis of a body returns, `conflict_analysis` partitions the transactions of all bodies,
and `optimized_mir` patches their locks (`transform/transaction/mod.rs`), up to the optimization
passes. In the body it returns, transactions that borrow an object of the body lock the same
conflict set, and one that writes takes the lock for it (`optimizedMir_excludes`). Everything but
callees and arguments of calls is kept (`optimizedMir_keeps`).
-/

namespace Tortis

open List Outcome UseDefVisitor Relation

/-- A crate, as the queries read it. -/
structure Crate extends TyCtxt where
  mirKeys : List DefId
  isConstFn : DefId → Bool
  /-- The definition is the item of a function, or a closure. -/
  isFnOrClosure : DefId → Bool
  transactionLevel : Nat

namespace Crate

variable (crate : Crate)

def transactionCall (isLock isWrite : Bool) : Outcome DefId :=
  let items := crate.langItems
  match crate.transactionLevel with
  | 0 => .error (.panic "transaction optimizations are not supported")
  | 1 =>
    if isLock then expect "transaction_lock not defined" items.transactionLock
    else expect "transaction_unlock not defined" items.transactionUnlock
  | 2 =>
    match isLock, isWrite with
    | true, true => expect "transaction_write_lock not defined" items.transactionWriteLock
    | true, false => expect "transaction_read_lock not defined" items.transactionReadLock
    | false, true => expect "transaction_write_unlock not defined" items.transactionWriteUnlock
    | false, false => expect "transaction_read_unlock not defined" items.transactionReadUnlock
  | _ => .error (.panic "unknown transaction optimization level")

def patchCall (body : Body) (fnId : UniqueId) (i : Nat) (isLock isWrite : Bool) :
    Outcome Terminator := do
  let block ← body.block fnId.location.block
  let term ← expect "invalid terminator state" block.terminator
  match term with
  | .call func args destination cleanup => do
    let newDefId ← crate.transactionCall isLock isWrite
    let func := match func with
      | .constant ⟨.fnDef oldDefId substs, _⟩ =>
        if oldDefId ≠ newDefId then .constant (.zeroSized (.fnDef newDefId substs)) else func
      | _ => func
    assert (args.length = 1) "assertion failed: `(left == right)`"
    let args := match args[0]? with
      | some (.constant _) => [.constant (.fromUsize i)]
      | _ => args
    return .call func args destination cleanup
  | _ => return term

section
variable (ord : IterOrder) (n : Nat)

def getSharedObjects (defId : DefId) : Outcome (List AllocationSet) := do
  let body ← crate.mirValidated defId
  let allocationSet ← UseDefVisitor.new body defId crate.toTyCtxt >>= fun v =>
    v.perform ord crate.toTyCtxt n
  return (allocationSet.iter ord).map fun s => ⟨s.1.1, s.1.2, ord.order s.2.toList⟩

/-- What the bodies report to `conflict_analysis`. -/
def reports : Outcome (List AllocationSet) := do
  let all ← (crate.mirKeys.filter (!crate.isConstFn ·)).mapM (crate.getSharedObjects ord n)
  return all.flatten

def conflictAnalysis : Outcome (List (List Transaction)) := do
  let all ← crate.reports ord n
  let ca ← (ConflictAnalysis.new ord all).perform ord
  return ca.map fun hs => ord.order hs.toList

/-- The body of the loops of `make_patches`. -/
def patchTransaction (i : Nat) (patches : FxHashMap DefId MirPatch) (tx : Transaction) :
    Outcome (FxHashMap DefId MirPatch) := do
  let body ← crate.mirValidated tx.lock.defId
  let new ← MirPatch.new body
  let patch := (patches.get tx.lock.defId).getD new
  let newLock ← crate.patchCall body tx.lock i true tx.isWrite
  let newUnlock ← crate.patchCall body tx.unlock i false tx.isWrite
  let patch ← patch.patchTerminator tx.lock.location.block newLock
  let patch ← patch.patchTerminator tx.unlock.location.block newUnlock
  return patches.insert tx.lock.defId patch

def makePatches (defId : DefId) : Outcome (FxHashMap DefId MirPatch) := do
  if crate.isFnOrClosure defId then
    let conflictSets ← crate.conflictAnalysis ord n
    conflictSets.zipIdx.foldlM
      (fun patches set => set.1.foldlM (crate.patchTransaction set.2) patches) ∅
  else return ∅

/-- `optimized_mir` of a definition that is no constructor, up to the optimization passes. -/
def optimizedMir (defId : DefId) : Outcome Body := do
  let patches ← crate.makePatches ord n defId
  let body ← crate.mirValidated defId
  match patches.get defId with
  | some patch => patch.apply body
  | none => return body

end

/-! ## The patched calls -/

/-- A call of the runtime with a constant for its argument. -/
def IsRuntimeCall (term : Option Terminator) : Prop :=
  ∃ f s v k dest cleanup,
    term = some (.call (.constant ⟨.fnDef f s, v⟩) [.constant k] dest cleanup)

/-- A call that locks or unlocks the conflict set with the index `i`. -/
def LocksSet (isLock isWrite : Bool) (i : Nat) (term : Option Terminator) : Prop :=
  ∃ f s v dest cleanup, crate.transactionCall isLock isWrite = .ok f ∧
    term = some (.call (.constant ⟨.fnDef f s, v⟩) [.constant (.fromUsize i)] dest cleanup)

/-- The transaction locks and unlocks the conflict set with the index `i`. -/
def LocksAt (i : Nat) (tx : Transaction) (body : Body) : Prop :=
  crate.LocksSet true tx.isWrite i (body.terminatorOf tx.lock.location.block) ∧
    crate.LocksSet false tx.isWrite i (body.terminatorOf tx.unlock.location.block)

variable {crate} {body body' : Body} {p p' : MirPatch} {id : UniqueId} {i : Nat}
  {isLock isWrite : Bool} {bb : BasicBlock} {t t' : Terminator} {tx : Transaction}
  {patches patches' : FxHashMap DefId MirPatch}

theorem patchCall_locks (h : crate.patchCall body id i isLock isWrite = .ok t)
    (hcall : IsRuntimeCall (body.terminatorOf id.location.block)) :
    crate.LocksSet isLock isWrite i (some t) := by
  obtain ⟨f, s, v, k, dest, cleanup, hterm⟩ := hcall
  obtain ⟨block, hblock, h⟩ := bind_eq_ok.1 h
  obtain ⟨term, hexp, h⟩ := bind_eq_ok.1 h
  rw [Body.terminatorOf, expect_eq_ok.1 hblock, Option.bind_some, expect_eq_ok.1 hexp] at hterm
  cases hterm
  obtain ⟨new, hnew, h⟩ := bind_eq_ok.1 h
  obtain ⟨-, -, h⟩ := bind_eq_ok.1 h
  cases h
  by_cases hf : f = new
  · exact ⟨new, s, v, dest, cleanup, hnew, by simp [hf]⟩
  · exact ⟨new, s, .zeroSized, dest, cleanup, hnew, by simp [hf, Const.zeroSized]⟩

variable (crate) in
/-- What is left of a terminator. A call with one argument may lock or unlock instead, and where a
block resumes a new one may, to which it goes. -/
inductive Kept (resumes : BasicBlock → Prop) : Terminator → Terminator → Prop
  | same (t : Terminator) : Kept resumes t t
  | call {func args func' args' dest cleanup} (hargs : args.length = 1 ∧ args'.length = 1)
    (hfunc : func' = func ∨ ∃ isLock isWrite f s, crate.transactionCall isLock isWrite = .ok f ∧
      func' = .constant (.zeroSized (.fnDef f s))) :
    Kept resumes (.call func args dest cleanup) (.call func' args' dest cleanup)
  | resume {r} : resumes r → Kept resumes .resume (.goto r)

theorem patchCall_kept {resumes : BasicBlock → Prop}
    (h : crate.patchCall body id i isLock isWrite = .ok t') :
    ∃ t, body.terminatorOf id.location.block = some t ∧ crate.Kept resumes t t' := by
  obtain ⟨block, hblock, h⟩ := bind_eq_ok.1 h
  obtain ⟨term, hexp, h⟩ := bind_eq_ok.1 h
  refine ⟨term, by rw [Body.terminatorOf, expect_eq_ok.1 hblock, Option.bind_some,
    expect_eq_ok.1 hexp], ?_⟩
  cases term with
  | call =>
    obtain ⟨new, hnew, h⟩ := bind_eq_ok.1 h
    obtain ⟨_, hlen, h⟩ := bind_eq_ok.1 h
    cases h
    have hlen := of_decide_eq_true (assert_eq_ok.1 hlen)
    refine .call ⟨hlen, by split <;> simp [hlen]⟩ ?_
    split
    · split
      · exact .inr ⟨_, _, _, _, hnew, rfl⟩
      · exact .inl rfl
    · exact .inl rfl
  | _ =>
    cases h
    exact .same _

/-! ## The patches -/

variable (crate) in
/-- A patch that only replaces terminators. -/
structure Replaces (body : Body) (p : MirPatch) : Prop extends p.Fresh body where
  kept : ∀ bb t', p.patchMap[bb]? = some (some t') → ∃ t, body.terminatorOf bb = some t ∧
    crate.Kept (fun r => r = body.basicBlocks.length ∧ p.newBlocks = [MirPatch.resumeData]) t t'

theorem patchTerminator_spec (h : p.patchTerminator bb t = .ok p') : p'.newBlocks = p.newBlocks ∧
      p'.patchMap[bb]? = some (some t) ∧ ∀ bb' t',
        (p.patchMap[bb']? = some (some t') → p'.patchMap[bb']? = some (some t')) ∧
        (p'.patchMap[bb']? = some (some t') → bb' = bb ∧ t' = t ∨ p.patchMap[bb']? = some (some t')) := by
  obtain ⟨patch, hget, h⟩ := bind_eq_ok.1 h
  obtain ⟨_, hnone, h⟩ := bind_eq_ok.1 h
  cases h
  have hget := expect_eq_ok.1 hget
  have hself : (p.patchMap.set bb (some t))[bb]? = some (some t) :=
    getElem?_set_self (Slice.lt_length hget)
  refine ⟨rfl, hself, fun bb' t' => ?_⟩
  by_cases heq : bb = bb'
  · subst heq
    refine ⟨fun h' => ?_, fun h' => .inl ⟨rfl, ?_⟩⟩
    · rw [hget] at h'
      cases h'
      cases assert_eq_ok.1 hnone
    · cases hself.symm.trans h'
      rfl
  · rw [getElem?_set_ne heq]
    exact ⟨id, .inr⟩

theorem Replaces.patch (h : crate.Replaces body p) (hp : p.patchTerminator bb t' = .ok p')
    (ht : ∀ {resumes}, ∃ t, body.terminatorOf bb = some t ∧ crate.Kept resumes t t') :
    crate.Replaces body p' where
  toFresh := h.toFresh.patch hp
  kept bb' t₁ h₁ := by
    obtain ⟨hnew, -, hmap⟩ := patchTerminator_spec hp
    rw [hnew]
    rcases (hmap bb' t₁).2 h₁ with ⟨rfl, rfl⟩ | h₁
    · exact ht
    · exact h.kept bb' t₁ h₁

theorem findResume_spec {r : Option BasicBlock} : ∀ {blocks k},
    MirPatch.findResume blocks k = .ok (r, some bb) → r = none ∧ ∃ i data, bb = k + i ∧
      blocks[i]? = some data ∧ data.terminator = some .resume
  | block :: rest, k, h => by
    obtain ⟨kind, hkind, h⟩ := bind_eq_ok.1 h
    split at h
    · next hresume =>
      split at h
      · cases h
        exact ⟨rfl, 0, block, rfl, rfl, hresume ▸ expect_eq_ok.1 hkind⟩
      · cases h
    · obtain ⟨hr, i, data, rfl, hdata⟩ := findResume_spec h
      exact ⟨hr, i + 1, data, Nat.succ_add_eq_add_succ .., hdata⟩

theorem new_replaces (h : MirPatch.new body = .ok p) : crate.Replaces body p := by
  refine ⟨MirPatch.new_fresh h, fun bb t' ht' => ?_⟩
  obtain ⟨⟨r, s⟩, hfind, h⟩ := bind_eq_ok.1 h
  cases s with
  | none =>
    have hmem := mem_of_getElem? ht'
    cases r <;> cases h <;> simp at hmem
  | some bb₀ =>
    obtain ⟨rfl, i, data, rfl, hdata, hterm⟩ := findResume_spec hfind
    obtain ⟨hnew, -, hmap⟩ := patchTerminator_spec h
    rcases (hmap bb t').2 ht' with ⟨rfl, rfl⟩ | ht'
    · refine ⟨.resume, ?_, .resume ⟨by simp, hnew⟩⟩
      rw [Body.terminatorOf, START_BLOCK, Nat.zero_add, hdata, Option.bind_some, hterm]
    · have hmem := mem_of_getElem? ht'
      simp at hmem

variable (crate) in
/-- The patches replace terminators of bodies. -/
def Patches (patches : FxHashMap DefId MirPatch) : Prop :=
  ∀ d p, patches.get d = some p → ∃ body, crate.bodies.get d = some body ∧ crate.Replaces body p

variable (crate) in
/-- The lock and the unlock of the transaction are patched with the index. -/
def Locked (patches : FxHashMap DefId MirPatch) (i : Nat) (tx : Transaction) : Prop :=
  ∃ body p t u, crate.bodies.get tx.lock.defId = some body ∧ patches.get tx.lock.defId = some p ∧
    crate.patchCall body tx.lock i true tx.isWrite = .ok t ∧
    p.patchMap[tx.lock.location.block]? = some (some t) ∧
    crate.patchCall body tx.unlock i false tx.isWrite = .ok u ∧
    p.patchMap[tx.unlock.location.block]? = some (some u)

theorem patchTransaction_spec (hp : crate.Patches patches)
    (h : crate.patchTransaction i patches tx = .ok patches') : crate.Patches patches' ∧
      crate.Locked patches' i tx ∧
      ∀ j tx', crate.Locked patches j tx' → crate.Locked patches' j tx' := by
  obtain ⟨body, hbody, h⟩ := bind_eq_ok.1 h
  obtain ⟨new, hnew, h⟩ := bind_eq_ok.1 h
  obtain ⟨t, ht, h⟩ := bind_eq_ok.1 h
  obtain ⟨u, hu, h⟩ := bind_eq_ok.1 h
  obtain ⟨p₁, h₁, h⟩ := bind_eq_ok.1 h
  obtain ⟨p₂, h₂, h⟩ := bind_eq_ok.1 h
  cases h
  have hbody := expect_eq_ok.1 hbody
  obtain ⟨-, hlock, hkeep₁⟩ := patchTerminator_spec h₁
  obtain ⟨-, hunlock, hkeep₂⟩ := patchTerminator_spec h₂
  have hfresh : crate.Replaces body ((patches.get tx.lock.defId).getD new) := by
    cases hget : patches.get tx.lock.defId with
    | none => exact new_replaces hnew
    | some p =>
      obtain ⟨body', hbody', hfresh⟩ := hp _ p hget
      cases hbody.symm.trans hbody'
      exact hfresh
  refine ⟨fun d p hd => ?_, ⟨body, p₂, t, u, hbody, FxHashMap.get_insert_self .., ht,
    (hkeep₂ _ _).1 hlock, hu, hunlock⟩, ?_⟩
  · rw [FxHashMap.get_insert] at hd
    split at hd
    · next heq =>
      cases hd
      exact ⟨body, heq ▸ hbody, (hfresh.patch h₁ (patchCall_kept ht)).patch h₂ (patchCall_kept hu)⟩
    · exact hp d p hd
  · rintro j tx' ⟨body', p, t', u', hbody', hget, ht', hlock', hu', hunlock'⟩
    by_cases heq : tx'.lock.defId = tx.lock.defId
    · rw [heq] at hget
      rw [hget] at hkeep₁
      exact ⟨body', p₂, t', u', hbody', by rw [heq, FxHashMap.get_insert_self], ht',
        (hkeep₂ _ _).1 ((hkeep₁ _ _).1 hlock'), hu', (hkeep₂ _ _).1 ((hkeep₁ _ _).1 hunlock')⟩
    · exact ⟨body', p, t', u', hbody', by rwa [FxHashMap.get_insert, if_neg heq], ht', hlock', hu',
        hunlock'⟩

variable {ord : IterOrder} {n : Nat} {root : DefId}

/-- Every transaction of a conflict set is patched with the index of the set. -/
theorem makePatches_spec (hfn : crate.isFnOrClosure root)
    (h : crate.makePatches ord n root = .ok patches) :
    ∃ cs, crate.conflictAnalysis ord n = .ok cs ∧ crate.Patches patches ∧
      ∀ set ∈ cs.zipIdx, ∀ tx ∈ set.1, crate.Locked patches set.2 tx := by
  rw [makePatches, if_pos hfn] at h
  obtain ⟨cs, hcs, h⟩ := bind_eq_ok.1 h
  refine ⟨cs, hcs, @foldlM_inv _ _ _ (fun sets patches => crate.Patches patches ∧
    ∀ set ∈ sets, ∀ tx ∈ set.1, crate.Locked patches set.2 tx) _ [] _ _
    ⟨fun _ _ h => absurd h (by simp), nofun⟩ h fun pre set post s s' _ ⟨hp, hl⟩ hs' => ?_⟩
  obtain ⟨hp', hkeep, hset⟩ := @foldlM_inv _ _ _ (fun txs s' => crate.Patches s' ∧
    (∀ j tx, crate.Locked s j tx → crate.Locked s' j tx) ∧ ∀ tx ∈ txs, crate.Locked s' set.2 tx)
    _ [] _ _ ⟨hp, fun _ _ h => h, nofun⟩ hs' fun pre tx post c c' _ ⟨hp, hkeep, htxs⟩ hc' => by
      obtain ⟨hp', htx, hkeep'⟩ := patchTransaction_spec hp hc'
      refine ⟨hp', fun j tx h => hkeep' j tx (hkeep j tx h), fun tx' h => ?_⟩
      rcases mem_append.1 h with h | h
      · exact hkeep' _ _ (htxs tx' h)
      · rwa [mem_singleton.1 h]
  refine ⟨hp', fun set' h tx htx => ?_⟩
  rcases mem_append.1 h with h | h
  · exact hkeep _ _ (hl set' h tx htx)
  · rw [mem_singleton.1 h] at htx ⊢
    exact hset tx htx

/-! ## The emitted body -/

theorem apply_eq (hp : p.Fresh body) (hterm : ∀ data ∈ body.basicBlocks, data.terminator.isSome)
    (h : p.apply body = .ok body') : body' = MirPatch.mapBlocks (p.extended body) p.patched := by
  have hfits : p.Fits body := by
    refine ⟨hp.patches_length, fun data hdata => ?_, by rw [hp.nops]; exact (fun _ h => nomatch h),
      by rw [hp.statements]; exact fun _ h => nomatch h⟩
    rcases mem_append.1 hdata with hdata | hdata
    · exact hterm data hdata
    · rcases hp.blocks with hnew | hnew <;> rw [hnew] at hdata
      · exact absurd hdata not_mem_nil
      · rw [mem_singleton.1 hdata]
        rfl
  rw [MirPatch.apply_eq hfits] at h
  exact (Except.ok.inj h).symm

theorem patched_eq (hp : p.Fresh body) (bb : BasicBlock) (data : BasicBlockData) :
    p.patched bb data = { data with terminator := (p.patchMap[bb]?.join).or data.terminator } := by
  have hnone : splice (atPlace (MirPatch.inBlock bb [])) data.statements 0 = data.statements :=
    splice_nil (fun _ => rfl) ..
  rw [MirPatch.patched, hp.statements, hp.nops,
    MirPatch.nopped_fresh fun _ h => absurd h not_mem_nil, hnone]

variable (crate) in
/-- What is left of a body. -/
structure Keeps (body body' : Body) : Prop where
  locals : body'.localDecls = body.localDecls
  argCount : body'.argCount = body.argCount
  blocks : ∀ (bb : BasicBlock) data, body.basicBlocks[bb]? = some data → ∃ t t',
    data.terminator = some t ∧ body'.basicBlocks[bb]? = some { data with terminator := some t' } ∧
      crate.Kept (fun r => body'.basicBlocks[r]? = some MirPatch.resumeData) t t'
  added : ∀ data ∈ body'.basicBlocks.drop body.basicBlocks.length, data = MirPatch.resumeData

theorem Replaces.keeps (hp : crate.Replaces body p)
    (hterm : ∀ data ∈ body.basicBlocks, data.terminator.isSome) (h : p.apply body = .ok body') :
    crate.Keeps body body' := by
  have heq := apply_eq hp.toFresh hterm h
  have hget : ∀ bb : BasicBlock, body'.basicBlocks[bb]? = (body.basicBlocks ++ p.newBlocks)[bb]?.map
      fun data => { data with terminator := (p.patchMap[bb]?.join).or data.terminator } := by
    intro bb
    rw [heq, MirPatch.mapBlocks, getElem?_mapIdx, funext (patched_eq hp.toFresh bb)]
    rfl
  -- The new blocks have no patches.
  have hnew : ∀ r, body.basicBlocks.length ≤ r →
      body'.basicBlocks[r]? = p.newBlocks[r - body.basicBlocks.length]? := by
    intro r hr
    have hnone : p.patchMap[r]?.join = none := by
      refine Option.eq_none_iff_forall_ne_some.2 fun t' ht' => ?_
      obtain ⟨t, ht, -⟩ := hp.kept r t' (Option.join_eq_some_iff.1 ht')
      obtain ⟨data, hdata, -⟩ := Option.bind_eq_some_iff.1 ht
      exact absurd (Slice.lt_length hdata) (Nat.not_lt.2 hr)
    rw [hget, getElem?_append_right hr, hnone]
    exact Option.map_id' ..
  refine ⟨?_, by rw [heq]; rfl, fun bb data hdata => ?_, fun data hdata => ?_⟩
  · rw [heq, MirPatch.mapBlocks, MirPatch.extended, hp.locals, append_nil]
  · obtain ⟨t, ht⟩ := Option.isSome_iff_exists.1 (hterm data (mem_of_getElem? hdata))
    have hbb := hget bb
    rw [getElem?_append_left (Slice.lt_length hdata), hdata, Option.map_some] at hbb
    cases hj : p.patchMap[bb]?.join with
    | none => exact ⟨t, t, ht, by rw [hbb, hj, Option.none_or, ht], .same t⟩
    | some t' =>
      obtain ⟨t₁, ht₁, hkept⟩ := hp.kept bb t' (Option.join_eq_some_iff.1 hj)
      rw [Body.terminatorOf, hdata, Option.bind_some] at ht₁
      refine ⟨t₁, t', ht₁, by rw [hbb, hj, Option.some_or], ?_⟩
      cases hkept with
      | same => exact .same _
      | call hargs hfunc => exact .call hargs hfunc
      | resume hr =>
        obtain ⟨rfl, hr⟩ := hr
        exact .resume (by rw [hnew _ le_rfl, hr, Nat.sub_self]; rfl)
  · obtain ⟨i, hi⟩ := getElem?_of_mem hdata
    rw [getElem?_drop, hnew _ (Nat.le_add_right ..)] at hi
    rcases hp.blocks with hb | hb <;> rw [hb] at hi
    · cases hi
    · exact mem_singleton.1 (mem_of_getElem? hi)

theorem mirValidated_eq (hbody : crate.bodies.get root = some body) :
    crate.mirValidated root = .ok body := by
  rw [TyCtxt.mirValidated, hbody, expect_some]

/-- Whatever conflict sets the crate has, the patching of a body keeps its control flow and its
statements. -/
theorem optimizedMir_keeps (h : crate.optimizedMir ord n root = .ok body')
    (hbody : crate.bodies.get root = some body)
    (hterm : ∀ data ∈ body.basicBlocks, data.terminator.isSome) : crate.Keeps body body' := by
  have hroot := mirValidated_eq hbody
  obtain ⟨patches, hpatches, h⟩ := bind_eq_ok.1 h
  rw [hroot, ok_bind] at h
  cases hget : patches.get root with
  | none =>
    rw [hget] at h
    cases h
    refine ⟨rfl, rfl, fun bb data hdata => ?_, fun data hdata => ?_⟩
    · obtain ⟨t, ht⟩ := Option.isSome_iff_exists.1 (hterm data (mem_of_getElem? hdata))
      exact ⟨t, t, ht, by rw [hdata, ← ht], .same t⟩
    · rw [drop_length] at hdata
      exact absurd hdata not_mem_nil
  | some p =>
    rw [hget] at h
    have hp : crate.Patches patches := by
      by_cases hfn : crate.isFnOrClosure root
      · exact (makePatches_spec hfn hpatches).choose_spec.2.1
      · rw [makePatches, if_neg hfn] at hpatches
        cases hpatches
        cases hget
    obtain ⟨body₁, hbody₁, hreplaces⟩ := hp root p hget
    cases hbody.symm.trans hbody₁
    exact hreplaces.keeps hterm h

variable (crate ord n) in
/-- A function, and the body that is emitted for it. -/
structure Emits (d : DefId) (body body' : Body) : Prop where
  fn : crate.isFnOrClosure d
  source : crate.bodies.get d = some body
  terminated : ∀ data ∈ body.basicBlocks, data.terminator.isSome
  run : crate.optimizedMir ord n d = .ok body'

def IsTransaction (body : Body) (lock unlock : UniqueId) : Prop :=
  IsRuntimeCall (body.terminatorOf lock.location.block) ∧
    IsRuntimeCall (body.terminatorOf unlock.location.block)

theorem Emits.locksAt (h : Emits crate ord n tx.lock.defId body body')
    (hcall : IsTransaction body tx.lock tx.unlock) {cs : List (List Transaction)}
    (hcs : crate.conflictAnalysis ord n = .ok cs) {c : List Transaction}
    (hc : cs[i]? = some c) (htx : tx ∈ c) : crate.LocksAt i tx body' := by
  obtain ⟨hfn, hbody, hterm, hrun⟩ := h
  obtain ⟨patches, hpatches, hrun⟩ := bind_eq_ok.1 hrun
  obtain ⟨cs', hcs', hp, hlocked⟩ := makePatches_spec hfn hpatches
  cases hcs.symm.trans hcs'
  obtain ⟨body₁, p, t, u, hbody₁, hget, ht, hlock, hu, hunlock⟩ :=
    hlocked _ (mk_mem_zipIdx_iff_getElem?.2 hc) tx htx
  cases hbody.symm.trans hbody₁
  obtain ⟨body₂, hbody₂, hreplaces⟩ := hp _ p hget
  cases hbody.symm.trans hbody₂
  rw [mirValidated_eq hbody, ok_bind, hget] at hrun
  have hlocks : ∀ {id isLock t'}, p.patchMap[id.location.block]? = some (some t') →
      crate.patchCall body id i isLock tx.isWrite = .ok t' →
      IsRuntimeCall (body.terminatorOf id.location.block) →
      crate.LocksSet isLock tx.isWrite i (body'.terminatorOf id.location.block) := by
    intro id isLock t' hpatch ht' hcall
    have hlocked := patchCall_locks ht' hcall
    obtain ⟨_, _, _, _, _, _, hbb⟩ := hcall
    obtain ⟨data, hdata, -⟩ := Option.bind_eq_some_iff.1 hbb
    have hget : (p.extended body).basicBlocks[id.location.block]? = some data := by
      rw [MirPatch.extended, getElem?_append_left (Slice.lt_length hdata), hdata]
    rwa [apply_eq hreplaces.toFresh hterm hrun, Body.terminatorOf, MirPatch.mapBlocks,
      getElem?_mapIdx, hget, Option.map_some, Option.bind_some, patched_eq hreplaces.toFresh, hpatch]
  exact ⟨hlocks hlock ht hcall.1, hlocks hunlock hu hcall.2⟩

/-! ## Conflict sets -/

section
variable {sets : List AllocationSet} {cs : List (FxHashSet Transaction)}
  (h : (ConflictAnalysis.new ord sets).perform ord = .ok cs)
include h

/-- The conflict set of a transaction that uses an object: another transaction of a set is in the
same one when it is linked with it. -/
theorem exists_index {t : Transaction} {o : UniqueId} (ht : UsesObject sets t o) :
    ∃ (i : Nat) (c : _), cs[i]? = some c ∧ t ∈ c ∧
      ∀ {j : Nat} {d u}, cs[j]? = some d → u ∈ d → (i = j ↔ Linked sets t u) := by
  obtain ⟨cs', reps, vis, hrun, hc⟩ := ConflictAnalysis.perform_spec ord sets
  cases h.symm.trans hrun
  have hkey := (IterOrder.mem_order ord).2 ((ConflictAnalysis.mem_new_keys ord sets o).2 ⟨t, ht⟩)
  obtain ⟨v, hv, hvo⟩ := (hc.marked o).1 (hc.handled o hkey)
  obtain ⟨c, hmem, hcv⟩ := forall₂_exists_right hc.classes hv
  obtain ⟨i, hi⟩ := getElem?_of_mem hmem
  refine ⟨i, c, hi, (hcv t).2 ⟨o, hvo, ht⟩, fun hj hd => ⟨?_, fun hl => ?_⟩⟩
  · rintro rfl
    cases hi.symm.trans hj
    obtain ⟨p, hp, hu⟩ := (hcv _).1 hd
    exact (ConflictAnalysis.reach_iff_linked ord sets ht hu).1
      ((ConflictAnalysis.reach_symm ord sets hvo).trans hp)
  · obtain ⟨w, hw, hdw⟩ := forall₂_exists_left hc.classes (mem_of_getElem? hj)
    obtain ⟨p, -, hu⟩ := (hdw _).1 hd
    exact hc.index_unique hi hj ((hcv _).2 ⟨p, hvo.trans
      ((ConflictAnalysis.reach_iff_linked ord sets ht hu).2 hl), hu⟩) hd

/-- A conflict set holds all transactions that use an object. -/
theorem exists_conflictSet (o : UniqueId) :
    ∃ i : Nat, ∀ tx, UsesObject sets tx o → ∃ c, cs[i]? = some c ∧ tx ∈ c := by
  by_cases hex : ∃ t, UsesObject sets t o
  · obtain ⟨t, ht⟩ := hex
    obtain ⟨i, -, -, -, hiff⟩ := exists_index h ht
    refine ⟨i, fun u hu => ?_⟩
    obtain ⟨j, d, hj, hd, -⟩ := exists_index h hu
    exact ⟨d, (hiff hj hd).2 (.single ⟨o, ht, hu⟩) ▸ hj, hd⟩
  · exact ⟨0, fun tx htx => absurd ⟨tx, htx⟩ hex⟩

end

theorem conflictAnalysis_eq_ok {cs : List (List Transaction)}
    (h : crate.conflictAnalysis ord n = .ok cs) : ∃ sets ca, crate.reports ord n = .ok sets ∧
      (ConflictAnalysis.new ord sets).perform ord = .ok ca ∧
      ∀ {i : Nat} {c}, ca[i]? = some c → ∃ d, cs[i]? = some d ∧ ∀ tx ∈ c, tx ∈ d := by
  obtain ⟨sets, hsets, h⟩ := bind_eq_ok.1 h
  obtain ⟨ca, hca, h⟩ := bind_eq_ok.1 h
  cases h
  refine ⟨sets, ca, hsets, hca, fun {i c} hc => ⟨ord.order c.toList, ?_, fun tx htx =>
    (IterOrder.mem_order ord).2 htx⟩⟩
  rw [getElem?_map, hc, Option.map_some]

theorem Emits.conflictSets {d : DefId} (h : Emits crate ord n d body body') :
    ∃ cs, crate.conflictAnalysis ord n = .ok cs := by
  obtain ⟨patches, hpatches, -⟩ := bind_eq_ok.1 h.run
  obtain ⟨cs, hcs, -⟩ := makePatches_spec h.fn hpatches
  exact ⟨cs, hcs⟩

/-- Two transactions of the crate, wherever they are, lock the same conflict set in the bodies that
are emitted for their functions exactly when a chain of common objects links them. -/
theorem optimizedMir_sameLock_iff {sets : List AllocationSet} (hsets : crate.reports ord n = .ok sets)
    {t u : Transaction} {o p : UniqueId} (ht : UsesObject sets t o) (hu : UsesObject sets u p)
    {b b' c c' : Body} (hb : Emits crate ord n t.lock.defId b b')
    (hc : Emits crate ord n u.lock.defId c c') (htx : IsTransaction b t.lock t.unlock)
    (hux : IsTransaction c u.lock u.unlock) :
    ∃ i j, crate.LocksAt i t b' ∧ crate.LocksAt j u c' ∧ (i = j ↔ Linked sets t u) := by
  obtain ⟨cs, hcs⟩ := hb.conflictSets
  obtain ⟨sets', ca, hsets', hca, hmap⟩ := conflictAnalysis_eq_ok hcs
  cases hsets.symm.trans hsets'
  obtain ⟨i, s, hi, hs, hiff⟩ := exists_index hca ht
  obtain ⟨j, s', hj, hs', -⟩ := exists_index hca hu
  obtain ⟨d, hd, hmem⟩ := hmap hi
  obtain ⟨d', hd', hmem'⟩ := hmap hj
  exact ⟨i, j, hb.locksAt htx hcs hd (hmem t hs), hc.locksAt hux hcs hd' (hmem' u hs'), hiff hj hs'⟩

variable (crate) in
/-- All transactions that borrow the object lock the same conflict set in the emitted body, and those
that write it lock the set for a write. -/
def Excludes (tm : TransactionMap) (A : UniqueId) (body' : Body) : Prop :=
  ∃ i, ∀ x b w t, ReflTransGen (Inside crate.toTyCtxt) A x → Borrows crate.toTyCtxt x b w →
    tm.terminatorToTx.get b = some t → ∃ w', (w = true → w' = true) ∧
      crate.LocksAt i ⟨t.1, t.2, w'⟩ body'

/-- From the borrows of a body to the locks of its transactions: whatever the other bodies of the
crate do, the locks that are emitted exclude each other. -/
theorem optimizedMir_excludes (h : Emits crate ord n root body body') (hkey : root ∈ crate.mirKeys)
    (hconst : ¬ crate.isConstFn root) {tm : TransactionMap}
    (htm : (TransactionMap.new root body crate.langItems).perform ord = .ok tm)
    (hcalls : ∀ k t, tm.terminatorToTx.get k = some t → IsTransaction body t.1 t.2)
    {A : UniqueId} (hA : IsAllocOf crate.toTyCtxt root A) : crate.Excludes tm A body' := by
  obtain ⟨cs, hcs⟩ := h.conflictSets
  obtain ⟨_, ca, hsets, hca, hmap⟩ := conflictAnalysis_eq_ok hcs
  obtain ⟨all, hall, hsets⟩ := bind_eq_ok.1 hsets
  cases hsets
  obtain ⟨l, hmem, hl⟩ := exists_of_mapM hall root (mem_filter.2 ⟨hkey, by simp [hconst]⟩)
  obtain ⟨_, hb, hl⟩ := bind_eq_ok.1 hl
  cases (mirValidated_eq h.source).symm.trans hb
  obtain ⟨uses, huses, hl⟩ := bind_eq_ok.1 hl
  cases hl
  obtain ⟨v, rfl, hcredit⟩ := perform_credits h.source huses htm
  obtain ⟨i, hi⟩ := exists_conflictSet hca A
  refine ⟨i, fun x b w t hx hb ht => ?_⟩
  -- The transaction is reported with the object, so it is in the conflict set of the object.
  obtain ⟨uses, huses, huse⟩ := (hcredit A hA).flow x hx b w t hb ht
  let s : AllocationSet := ⟨t.1, t.2, ord.order uses.toList⟩
  have huse : ⟨A, w⟩ ∈ s.allocations := (IterOrder.mem_order ord).2 huse
  obtain ⟨c, hc, htx⟩ := hi s.transaction
    ⟨s, mem_flatten.2 ⟨_, hmem, mem_map.2 ⟨(t, uses), FxHashMap.mem_iter.2 huses, rfl⟩⟩, rfl, _, huse, rfl⟩
  obtain ⟨d, hd, hdc⟩ := hmap hc
  have hdef : s.transaction.lock.defId = root := TransactionMap.perform_new_defId ord htm ht
  exact ⟨s.transaction.isWrite, fun hw => any_eq_true.2 ⟨_, huse, hw⟩,
    (hdef ▸ h : Emits crate ord n s.transaction.lock.defId body body').locksAt (hcalls b t ht) hcs hd
      (hdc _ htx)⟩

end Crate

namespace Sample

/-- A crate of `k` functions, each of which borrows a shared object in a transaction. -/
def borrowing (k : Nat) : Crate where
  toTyCtxt := crate (replicate k (inTransaction txPtrBorrow foreign))
  mirKeys := (range k).map (⟨0, ·⟩)
  isConstFn _ := false
  isFnOrClosure _ := true
  transactionLevel := 2

/-- The transaction of a function. -/
def readIn (d : DefId) : Transaction :=
  ⟨{ transaction.1 with defId := d }, { transaction.2 with defId := d }, false⟩

end Sample

namespace Crate

open Sample

theorem emits_borrow {k : Nat} {d : DefId}
    (hbody : (borrowing k).bodies.get d = some (inTransaction txPtrBorrow foreign))
    (h : ((borrowing k).optimizedMir .entries 20 d).map (fun _ => ()) = .ok ()) :
    ∃ body', Emits (borrowing k) .entries 20 d (inTransaction txPtrBorrow foreign) body' := by
  obtain ⟨body', hbody', -⟩ := ok_of_map h
  exact ⟨body', rfl, hbody, by decide, hbody'⟩

theorem isTransaction_borrow (d : DefId) :
    IsTransaction (inTransaction txPtrBorrow foreign) (readIn d).lock (readIn d).unlock :=
  ⟨⟨_, _, _, _, _, _, rfl⟩, ⟨_, _, _, _, _, _, rfl⟩⟩

theorem optimizedMir_keeps_borrow : ∃ body',
    (borrowing 1).optimizedMir .entries 20 ⟨0, 0⟩ = .ok body' ∧
      (borrowing 1).Keeps (inTransaction txPtrBorrow foreign) body' := by
  obtain ⟨body', h⟩ := @emits_borrow 1 ⟨0, 0⟩ rfl (by with_unfolding_all decide)
  exact ⟨body', h.run, optimizedMir_keeps h.run rfl h.terminated⟩

/-- Two functions, with an object each. -/
theorem optimizedMir_sameLock_iff_borrow : ∃ sets b c i j, (borrowing 2).reports .entries 20 = .ok sets ∧
    (borrowing 2).LocksAt i (readIn ⟨0, 0⟩) b ∧ (borrowing 2).LocksAt j (readIn ⟨0, 1⟩) c ∧
      (i = j ↔ Linked sets (readIn ⟨0, 0⟩) (readIn ⟨0, 1⟩)) := by
  have hrun : ((borrowing 2).reports .entries 20).map (fun sets => [⟨0, 0⟩, ⟨0, 1⟩].all fun d =>
      sets.any fun s => s.transaction = readIn d ∧ s.allocations.any
        (·.sharedObject = { allocated with defId := d })) = .ok true := by
    with_unfolding_all decide
  obtain ⟨sets, hsets, hall⟩ := ok_of_map hrun
  have huses : ∀ d ∈ [⟨0, 0⟩, ⟨0, 1⟩], UsesObject sets (readIn d) { allocated with defId := d } := by
    simpa [UsesObject] using hall
  obtain ⟨b, hb⟩ := @emits_borrow 2 ⟨0, 0⟩ rfl (by with_unfolding_all decide)
  obtain ⟨c, hc⟩ := @emits_borrow 2 ⟨0, 1⟩ rfl (by with_unfolding_all decide)
  obtain ⟨i, j, h⟩ := optimizedMir_sameLock_iff hsets (huses _ (.head _)) (huses _ (.tail _ (.head _)))
    hb hc (isTransaction_borrow _) (isTransaction_borrow _)
  exact ⟨sets, b, c, i, j, hsets, h⟩

theorem optimizedMir_excludes_borrow : ∃ body' tm,
    (borrowing 1).optimizedMir .entries 20 ⟨0, 0⟩ = .ok body' ∧ mapOf (inTransaction txPtrBorrow foreign) = .ok tm ∧
      (borrowing 1).Excludes tm allocated body' := by
  have hmap : (mapOf (inTransaction txPtrBorrow foreign)).map (fun tm =>
      decide (tm.terminatorToTx.values ⊆ [transaction])) = .ok true := by
    decide
  obtain ⟨body', h⟩ := @emits_borrow 1 ⟨0, 0⟩ rfl (by with_unfolding_all decide)
  obtain ⟨tm, htm, hall⟩ := ok_of_map hmap
  refine ⟨body', tm, h.run, htm, optimizedMir_excludes h (.head _) nofun htm (fun k t hk => ?_)
    (isAllocOf_allocated txPtrBorrow foreign)⟩
  have ht : t = transaction :=
    mem_singleton.1 (of_decide_eq_true hall (FxHashMap.mem_values_iff.2 ⟨k, hk⟩))
  rw [ht]
  exact isTransaction_borrow _

end Crate

end Tortis
