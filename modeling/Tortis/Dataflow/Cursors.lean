import Tortis.Dataflow.Paths

/-!
# Cursors over the results of an analysis

`ResultsCursor` of `dataflow/generic.rs` and `DataflowResultsCursor` of `dataflow/mod.rs`. Both go
forward from where they are when the location they are to show comes later in the same block, and
start again at the entry of the block otherwise. The first keeps a flag for the effect of a call
that returns, which belongs to no location. The second goes forward by applying the effects of the
location it shows once more.
-/

namespace Tortis.Dataflow

open Outcome List Option BitDenotation Sample

variable {bottom : Bool} {n : Nat}

def entryBits (entries : List (EntrySet bottom n)) (bb : BasicBlock) : BitVec n :=
  (entries[bb]?.map EntrySet.bits).getD 0#n

/-! ## `ResultsCursor` -/

/-- `apply_partial_block_effect`: the effects of the statements from `start` on and before `stop`,
the last of which may be the terminator. -/
def Analysis.applyPartialBlockEffect (a : Analysis bottom n) (state : BitVec n)
    (block : BasicBlock) (data : BasicBlockData) (start stop : Nat) : Outcome (BitVec n) :=
  if stop ≤ start then .ok state
  else do
    let final := stop - 1
    let state ← (range' start (final - start)).foldlM (fun state j => do
      let stmt ← expect "index out of bounds" data.statements[j]?
      .ok (a.applyStatementEffect state stmt ⟨block, j⟩)) state
    if final = data.statements.length then do
      let term ← expect "invalid terminator state" data.terminator
      .ok (a.applyTerminatorEffect state term ⟨block, final⟩)
    else do
      let stmt ← expect "index out of bounds" data.statements[final]?
      .ok (a.applyStatementEffect state stmt ⟨block, final⟩)

inductive CursorPosition where
  | atBlockStart (block : BasicBlock)
  | after (location : Location)
deriving DecidableEq

def CursorPosition.block : CursorPosition → BasicBlock
  | .atBlockStart block => block
  | .after location => location.block

/-- `ResultsCursor`, without the body and the results it is for. -/
structure ResultsCursor (n : Nat) where
  state : BitVec n
  pos : CursorPosition
  isCallReturnEffectApplied : Bool

namespace ResultsCursor

def seekToBlockStart (entries : List (EntrySet bottom n)) (block : BasicBlock) :
    Outcome (ResultsCursor n) := do
  let entrySet ← expect "index out of bounds" entries[block]?
  return ⟨entrySet.bits, .atBlockStart block, false⟩

def new (entries : List (EntrySet bottom n)) : Outcome (ResultsCursor n) :=
  seekToBlockStart entries START_BLOCK

section
variable (a : Analysis bottom n)

section
variable (body : Body)

/-- The end of `_seek_after`: from an earlier position in the block of the target up to it. -/
def advance (target : Location) (cur : ResultsCursor n) :
    Outcome (ResultsCursor n) := do
  assert (cur.pos.block = target.block) "assertion failed: `(left == right)`"
  let first := match cur.pos with
    | .atBlockStart _ => 0
    | .after location => location.statementIndex + 1
  assert (first ≤ target.statementIndex)
    "assertion failed: statement_index < target_index"
  let data ← body.block target.block
  let state ← a.applyPartialBlockEffect cur.state target.block data first
    (target.statementIndex + 1)
  return ⟨state, .after target, false⟩

section
variable (entries : List (EntrySet bottom n))

def seekAfterInner (target : Location) (cur : ResultsCursor n) : Outcome (ResultsCursor n) := do
  let cur ← if cur.pos.block ≠ target.block then seekToBlockStart entries target.block
    else .ok cur
  match cur.pos with
  | .atBlockStart _ => advance a body target cur
  | .after location =>
    if location.statementIndex = target.statementIndex then return cur
    else if location.statementIndex < target.statementIndex then advance a body target cur
    else do
      let cur ← seekToBlockStart entries target.block
      advance a body target cur

/-- The target of a seek is not after the terminator of its block. -/
def assertTarget (target : Location) : Outcome BasicBlockData := do
  let data ← body.block target.block
  assert (target.statementIndex ≤ data.statements.length)
    "assertion failed: target <= self.body.terminator_loc(target.block)"
  return data

def seekBefore (target : Location) (cur : ResultsCursor n) : Outcome (ResultsCursor n) := do
  let _ ← assertTarget body target
  if target.statementIndex = 0 then seekToBlockStart entries target.block
  else seekAfterInner a body entries ⟨target.block, target.statementIndex - 1⟩ cur

def seekAfter (target : Location) (cur : ResultsCursor n) : Outcome (ResultsCursor n) := do
  let _ ← assertTarget body target
  let cur ← if cur.isCallReturnEffectApplied then seekToBlockStart entries target.block
    else .ok cur
  seekAfterInner a body entries target cur

def seekAfterAssumeCallReturns (target : Location) (cur : ResultsCursor n) :
    Outcome (ResultsCursor n) := do
  let data ← assertTarget body target
  let cur ← seekAfterInner a body entries target cur
  if target.statementIndex ≠ data.statements.length then return cur
  else
    match ← expect "invalid terminator state" data.terminator with
    | .call func args (some (returnPlace, _)) _ =>
      if cur.isCallReturnEffectApplied then return cur
      else
        return { cur with
          isCallReturnEffectApplied := true
          state := a.applyCallReturnEffect cur.state target.block func args returnPlace }
    | _ => return cur

end

end

end

end ResultsCursor

/-- A call of one of the four methods. -/
inductive Seek where
  | toBlockStart (block : BasicBlock)
  | before (target : Location)
  | after (target : Location)
  | afterAssumeCallReturns (target : Location)

def Seek.run (a : Analysis bottom n) (body : Body) (entries : List (EntrySet bottom n))
    (cur : ResultsCursor n) : Seek → Outcome (ResultsCursor n)
  | .toBlockStart block => ResultsCursor.seekToBlockStart entries block
  | .before target => cur.seekBefore a body entries target
  | .after target => cur.seekAfter a body entries target
  | .afterAssumeCallReturns target => cur.seekAfterAssumeCallReturns a body entries target

/-- A new cursor and a sequence of calls. -/
def Seek.runAll (a : Analysis bottom n) (body : Body) (entries : List (EntrySet bottom n))
    (seeks : List Seek) : Outcome (ResultsCursor n) := do
  let cur ← ResultsCursor.new entries
  seeks.foldlM (Seek.run a body entries) cur

/-- The block or the location that is sought is one of the body. -/
def Seek.Valid (body : Body) : Seek → Prop
  | .toBlockStart block => block < body.basicBlocks.length
  | .before target | .after target | .afterAssumeCallReturns target => IsLocation body target

/-! ### What it is to show -/

namespace Analysis

section
variable (a : Analysis bottom n)

section
variable (body : Body)

section
variable (location : Location)

/-- The effect of a location: that of a statement, or of the terminator after the statements. -/
def effectAt (set : BitVec n) : BitVec n :=
  match body.basicBlocks[location.block]? with
  | none => set
  | some data =>
    match data.statements[location.statementIndex]?, data.terminator with
    | some stmt, _ => a.applyStatementEffect set stmt location
    | none, some term => a.applyTerminatorEffect set term location
    | none, none => set

/-- The entry set of a block with the effects of its first `k` locations. -/
def setAt (entries : List (EntrySet bottom n)) (bb : BasicBlock) (k : Nat) : BitVec n :=
  (range k).foldl (fun set j => a.effectAt body ⟨bb, j⟩ set) (entryBits entries bb)

def returning : Terminator → Option (Operand × List Operand × Place)
  | .call func args (some (returnPlace, _)) _ => some (func, args, returnPlace)
  | _ => none

/-- The call at a location, when the location is the terminator of its block and a call that
returns. -/
def returningCall : Option (Operand × List Operand × Place) :=
  match body.basicBlocks[location.block]? with
  | none => none
  | some data =>
    if location.statementIndex = data.statements.length then data.terminator.bind returning
    else none

def returnEffect (set : BitVec n) : BitVec n :=
  match returningCall body location with
  | some (func, args, returnPlace) =>
    a.applyCallReturnEffect set location.block func args returnPlace
  | none => set

end

/-- The set a cursor is to show after a call. -/
def shown (entries : List (EntrySet bottom n)) :
    Seek → BitVec n
  | .toBlockStart block => entryBits entries block
  | .before target => a.setAt body entries target.block target.statementIndex
  | .after target => a.setAt body entries target.block (target.statementIndex + 1)
  | .afterAssumeCallReturns target =>
    a.returnEffect body target (a.setAt body entries target.block (target.statementIndex + 1))

end

end

end Analysis

/-! ### What it shows -/

namespace ResultsCursor

variable {a : Analysis bottom n} {body : Body} {entries : List (EntrySet bottom n)}

/-- The positions of a cursor with the sets that belong to them. -/
inductive At (a : Analysis bottom n) (body : Body) (entries : List (EntrySet bottom n)) :
    ResultsCursor n → Prop
  | start {bb : BasicBlock} : bb < body.basicBlocks.length →
      At a body entries ⟨entryBits entries bb, .atBlockStart bb, false⟩
  | after {l : Location} : IsLocation body l →
      At a body entries ⟨a.setAt body entries l.block (l.statementIndex + 1), .after l, false⟩
  | returned {l : Location} : IsLocation body l → (Analysis.returningCall body l).isSome →
      At a body entries ⟨a.returnEffect body l
        (a.setAt body entries l.block (l.statementIndex + 1)), .after l, true⟩

theorem seekToBlockStart_eq (hlen : entries.length = body.basicBlocks.length) {bb : BasicBlock}
    (hbb : bb < body.basicBlocks.length) :
    seekToBlockStart entries bb = .ok ⟨entryBits entries bb, .atBlockStart bb, false⟩ := by
  have hlt : bb < entries.length := by
    rw [hlen]
    exact hbb
  have hget : entries[bb]? = some entries[bb] := getElem?_eq_getElem hlt
  simp [seekToBlockStart, entryBits, hget]

variable {l : Location}

theorem block_lt (hl : IsLocation body l) : l.block < body.basicBlocks.length := by
  obtain ⟨data, hdata, -⟩ := hl
  exact (List.getElem?_eq_some_iff.1 hdata).1

variable {data : BasicBlockData}

theorem applyPartialBlockEffect_eq (hbody : body.WF) {bb start stop : Nat}
    (hdata : body.basicBlocks[bb]? = some data) (hstart : start ≤ stop)
    (hstop : stop ≤ data.statements.length) (state : BitVec n) :
    a.applyPartialBlockEffect state bb data start (stop + 1) =
      .ok ((range' start (stop + 1 - start)).foldl
        (fun set j => a.effectAt body ⟨bb, j⟩ set) state) := by
  obtain ⟨term, hterm⟩ := isSome_iff_exists.1
    (hbody.terminated data (mem_of_getElem? hdata))
  have hstmts : ∀ (l : List Nat) state, (∀ j ∈ l, j < data.statements.length) →
      l.foldlM (fun state j => do
        let stmt ← expect "index out of bounds" data.statements[j]?
        .ok (a.applyStatementEffect state stmt ⟨bb, j⟩)) state =
      (.ok (l.foldl (fun set j => a.effectAt body ⟨bb, j⟩ set) state) : Outcome (BitVec n)) := by
    intro l
    induction l with
    | nil => exact fun _ _ => rfl
    | cons j l ih =>
      intro state hl
      have hj : data.statements[j]? = some (data.statements.get ⟨j, hl j (.head _)⟩) :=
        getElem?_eq_getElem (hl j (.head _))
      rw [foldlM_cons, hj, expect_some, ok_bind, ok_bind,
        ih _ fun k hk => hl k (.tail _ hk), foldl_cons]
      simp only [Analysis.effectAt, hdata, hj]
  have hsplit : range' start (stop + 1 - start) =
      range' start (stop - start) ++ [stop] := by
    rw [Nat.sub_add_comm hstart, range'_1_concat, Nat.add_sub_cancel' hstart]
  rw [Analysis.applyPartialBlockEffect, if_neg (by omega), Nat.add_sub_cancel]
  dsimp only
  rw [hstmts _ _ fun j hj => by rw [mem_range'_1] at hj; omega, ok_bind, hsplit, foldl_append]
  by_cases hend : stop = data.statements.length
  · simp [hend, hterm, Analysis.effectAt, hdata]
  · have hlt : stop < data.statements.length := lt_of_le_of_ne hstop hend
    simp [hend, Analysis.effectAt, hdata, getElem?_eq_getElem hlt]

theorem setAt_eq (bb : BasicBlock) {k stop : Nat} (hk : k ≤ stop) :
    (range' k (stop - k)).foldl (fun set j => a.effectAt body ⟨bb, j⟩ set)
      (a.setAt body entries bb k) = a.setAt body entries bb stop := by
  rw [Analysis.setAt, Analysis.setAt, ← foldl_append, range_eq_range', range_eq_range']
  congr 1
  have := @range'_append_1 0 k (stop - k)
  rwa [zero_add, Nat.add_sub_cancel' hk] at this

theorem advance_eq (hbody : body.WF) {target : Location} (ht : IsLocation body target)
    {cur : ResultsCursor n} (hblock : cur.pos.block = target.block) {k : Nat}
    (hk : k ≤ target.statementIndex)
    (hpos : (match cur.pos with
      | .atBlockStart _ => 0
      | .after location => location.statementIndex + 1) = k)
    (hstate : cur.state = a.setAt body entries target.block k) :
    advance a body target cur =
      .ok ⟨a.setAt body entries target.block (target.statementIndex + 1), .after target, false⟩ := by
  obtain ⟨data, hdata, hle⟩ := ht
  have hrun := applyPartialBlockEffect_eq (a := a) hbody hdata hk hle cur.state
  rw [hstate, setAt_eq target.block (Nat.le_succ_of_le hk)] at hrun
  rw [advance, bind_of_assert hblock]
  simp only [hpos]
  rw [bind_of_assert hk]
  simp [Body.block, hdata, hstate, hrun]

variable {target : Location} {cur : ResultsCursor n} (hbody : body.WF)
  (hlen : entries.length = body.basicBlocks.length) (ht : IsLocation body target)
  (hcur : At a body entries cur)

include hbody hlen ht hcur in
theorem seekAfterInner_eq :
    seekAfterInner a body entries target cur = .ok (if cur.pos = .after target then cur
      else ⟨a.setAt body entries target.block (target.statementIndex + 1), .after target,
        false⟩) := by
  have hreset := seekToBlockStart_eq hlen (block_lt ht)
  have hforward : advance a body target ⟨entryBits entries target.block,
      .atBlockStart target.block, false⟩ = .ok ⟨a.setAt body entries target.block
        (target.statementIndex + 1), .after target, false⟩ :=
    advance_eq hbody ht rfl (Nat.zero_le _) rfl rfl
  -- after a location, the set matters only when the target comes later in the same block
  have hafter : ∀ (l : Location) (state : BitVec n) (flag : Bool),
      (l.block = target.block → l.statementIndex < target.statementIndex →
        state = a.setAt body entries l.block (l.statementIndex + 1)) →
      seekAfterInner a body entries target ⟨state, .after l, flag⟩ =
        .ok (if l = target then ⟨state, .after l, flag⟩
          else ⟨a.setAt body entries target.block (target.statementIndex + 1), .after target,
            false⟩) := by
    intro l state flag hstate
    rw [seekAfterInner]
    by_cases hb : l.block = target.block
    · have hne : ¬ (CursorPosition.after l).block ≠ target.block := not_not_intro hb
      rw [if_neg hne, ok_bind]
      rcases lt_trichotomy l.statementIndex target.statementIndex with hlt | heq | hgt
      · have hl : l ≠ target := fun h => hlt.ne (congrArg Location.statementIndex h)
        have hrun := @advance_eq _ _ a body entries hbody target ht ⟨state, .after l, flag⟩ hb _
          (Nat.succ_le_of_lt hlt) rfl (hb ▸ hstate hb hlt)
        simp [hlt, hlt.ne, hl, hrun]
      · have hl : l = target := by
          cases l
          cases target
          simp_all
        simp [hl]
      · have hl : l ≠ target := fun h => hgt.ne' (congrArg Location.statementIndex h)
        simp [hgt.ne', hgt.not_gt, hl, hreset, hforward]
    · have hl : l ≠ target := fun h => hb (congrArg Location.block h)
      have hne : (CursorPosition.after l).block ≠ target.block := hb
      rw [if_pos hne, hreset, ok_bind, if_neg hl]
      exact hforward
  cases hcur with
  | @start bb hbb =>
    rw [if_neg nofun, seekAfterInner]
    by_cases hb : bb = target.block
    · subst hb
      have hne : ¬ (CursorPosition.atBlockStart target.block).block ≠ target.block :=
        not_not_intro rfl
      rw [if_neg hne, ok_bind]
      exact hforward
    · have hne : (CursorPosition.atBlockStart bb).block ≠ target.block := hb
      rw [if_pos hne, hreset, ok_bind]
      exact hforward
  | @after l hl =>
    rw [hafter l _ _ fun _ _ => rfl]
    simp only [CursorPosition.after.injEq]
  | @returned l hl hcall =>
    rw [hafter l]
    · simp only [CursorPosition.after.injEq]
    · -- no location of the block comes after the call
      intro hb hlt
      obtain ⟨data, hdata, hle⟩ := ht
      rw [Analysis.returningCall, hb, hdata] at hcall
      simp only at hcall
      split at hcall
      · next h => exact absurd hlt (by rw [h]; exact hle.not_gt)
      · cases hcall

include hbody hlen ht hcur in
theorem seekAfterInner_plain (hflag : cur.pos = .after target → cur.isCallReturnEffectApplied = false) :
    seekAfterInner a body entries target cur =
      .ok ⟨a.setAt body entries target.block (target.statementIndex + 1), .after target, false⟩ := by
  rw [seekAfterInner_eq hbody hlen ht hcur]
  by_cases hpos : cur.pos = .after target
  · rw [if_pos hpos]
    cases hcur with
    | start _ => cases hpos
    | after _ =>
      obtain rfl := CursorPosition.after.inj hpos
      rfl
    | returned _ _ => cases hflag hpos
  · rw [if_neg hpos]

theorem assertTarget_eq (hdata : body.basicBlocks[target.block]? = some data)
    (hle : target.statementIndex ≤ data.statements.length) :
    assertTarget body target = .ok data := by
  simp [assertTarget, Body.block, hdata, assert_ok (decide_eq_true hle)]

include hcur in
theorem At.flag_imp (hflag : cur.isCallReturnEffectApplied = true) :
    ∃ l, (Analysis.returningCall body l).isSome ∧ cur = ⟨a.returnEffect body l
      (a.setAt body entries l.block (l.statementIndex + 1)), .after l, true⟩ := by
  cases hcur with
  | start _ => cases hflag
  | after _ => cases hflag
  | @returned l _ hcall => exact ⟨l, hcall, rfl⟩

theorem eq_length_of_returningCall (hdata : body.basicBlocks[l.block]? = some data)
    (hcall : (Analysis.returningCall body l).isSome) :
    l.statementIndex = data.statements.length := by
  rw [Analysis.returningCall, hdata] at hcall
  simp only at hcall
  split at hcall
  · next h => exact h
  · cases hcall

section
include hbody hlen

section
include ht hcur

theorem seekBefore_spec :
    ∃ cur', seekBefore a body entries target cur = .ok cur' ∧ At a body entries cur' ∧
      cur'.state = a.setAt body entries target.block target.statementIndex := by
  obtain ⟨block, index⟩ := target
  obtain ⟨data, hdata, hle⟩ := ht
  simp only at hdata hle
  have hblock := @block_lt body ⟨block, index⟩ ⟨data, hdata, hle⟩
  rw [seekBefore, assertTarget_eq hdata hle, ok_bind]
  cases index with
  | zero => exact ⟨_, by rw [if_pos rfl, seekToBlockStart_eq hlen hblock], .start hblock, rfl⟩
  | succ index =>
    have hprev : IsLocation body ⟨block, index⟩ := ⟨data, hdata, Nat.le_of_succ_le hle⟩
    refine ⟨_, ?_, .after hprev, rfl⟩
    refine seekAfterInner_plain hbody hlen hprev hcur fun hpos => ?_
    -- the location before the target is not the end of the block
    by_contra hflag
    obtain ⟨l, hcall, rfl⟩ := hcur.flag_imp (Bool.eq_true_of_not_eq_false hflag)
    obtain rfl := CursorPosition.after.inj hpos
    exact absurd hle (by rw [← eq_length_of_returningCall hdata hcall]; exact Nat.not_succ_le_self _)

theorem seekAfter_spec :
    ∃ cur', seekAfter a body entries target cur = .ok cur' ∧ At a body entries cur' ∧
      cur'.state = a.setAt body entries target.block (target.statementIndex + 1) := by
  have hblock := block_lt ht
  refine ⟨_, ?_, .after ht, rfl⟩
  obtain ⟨data, hdata, hle⟩ := id ht
  rw [seekAfter, assertTarget_eq hdata hle, ok_bind]
  by_cases hflag : cur.isCallReturnEffectApplied
  · rw [if_pos hflag, seekToBlockStart_eq hlen hblock, ok_bind]
    exact seekAfterInner_plain hbody hlen ht (.start hblock) fun _ => rfl
  · rw [if_neg hflag, ok_bind]
    exact seekAfterInner_plain hbody hlen ht hcur fun _ => Bool.eq_false_of_not_eq_true hflag

/-- `seek_after_assume_call_returns` shows the set after the target with the effect of a call that
returns, applied once. -/
theorem seekAfterAssumeCallReturns_spec :
    ∃ cur', seekAfterAssumeCallReturns a body entries target cur = .ok cur' ∧
      At a body entries cur' ∧ cur'.state = a.returnEffect body target
        (a.setAt body entries target.block (target.statementIndex + 1)) := by
  obtain ⟨data, hdata, hle⟩ := id ht
  obtain ⟨term, hterm⟩ := isSome_iff_exists.1
    (hbody.terminated data (mem_of_getElem? hdata))
  rw [seekAfterAssumeCallReturns, assertTarget_eq hdata hle, ok_bind]
  have hcall : Analysis.returningCall body target =
      if target.statementIndex = data.statements.length then Analysis.returning term
      else none := by
    simp only [Analysis.returningCall, hdata, hterm, bind_some]
  by_cases hstay : cur.pos = .after target ∧ cur.isCallReturnEffectApplied = true
  · obtain ⟨l, hl, rfl⟩ := hcur.flag_imp hstay.2
    obtain rfl := CursorPosition.after.inj hstay.1
    refine ⟨_, ?_, hcur, rfl⟩
    have hend := eq_length_of_returningCall hdata hl
    rw [seekAfterInner_eq hbody hlen ht hcur, if_pos rfl, ok_bind, if_neg (by simp [hend])]
    rw [hcall, if_pos hend] at hl
    rw [hterm, expect_some, ok_bind]
    cases term with
    | call func args destination _ =>
      cases destination with
      | some _ => rfl
      | none => cases hl
    | _ => cases hl
  · have hplain := seekAfterInner_plain hbody hlen ht hcur fun hpos =>
      Bool.eq_false_of_not_eq_true fun hflag => hstay ⟨hpos, hflag⟩
    rw [hplain, ok_bind]
    by_cases hend : target.statementIndex = data.statements.length
    · rw [if_pos hend] at hcall
      rw [if_neg (not_not_intro hend), hterm, expect_some, ok_bind]
      have hat := fun h => @At.returned _ _ a body entries target ht h
      simp only [Analysis.returnEffect, hcall] at hat ⊢
      cases term with
      | call func args destination _ =>
        cases destination with
        | some _ => exact ⟨_, rfl, hat rfl, rfl⟩
        | none => exact ⟨_, rfl, .after ht, rfl⟩
      | _ => exact ⟨_, rfl, .after ht, rfl⟩
    · rw [if_neg hend] at hcall
      exact ⟨_, by rw [if_pos hend]; rfl, .after ht, by simp [Analysis.returnEffect, hcall]⟩

end

/-- Every call leaves the cursor at a position with the set that belongs to it, which is the set
the call is to show. -/
theorem run_spec {s : Seek} (hs : s.Valid body) (hcur : At a body entries cur) :
    ∃ cur', s.run a body entries cur = .ok cur' ∧ At a body entries cur' ∧
      cur'.state = a.shown body entries s := by
  cases s with
  | toBlockStart block => exact ⟨_, seekToBlockStart_eq hlen hs, .start hs, rfl⟩
  | before target => exact seekBefore_spec hbody hlen hs hcur
  | after target => exact seekAfter_spec hbody hlen hs hcur
  | afterAssumeCallReturns target => exact seekAfterAssumeCallReturns_spec hbody hlen hs hcur

theorem runAll_spec {seeks : List Seek} (hs : ∀ s ∈ seeks, s.Valid body) :
    ∃ cur, Seek.runAll a body entries seeks = .ok cur ∧
      cur.state = a.shown body entries (seeks.getLast?.getD (.toBlockStart START_BLOCK)) := by
  have hnew : new entries = .ok ⟨entryBits entries START_BLOCK, .atBlockStart START_BLOCK, false⟩ :=
    seekToBlockStart_eq hlen hbody.start
  obtain ⟨cur, hrun, -, hstate⟩ := foldlM_start
    (P := fun done cur => At a body entries cur ∧
      cur.state = a.shown body entries (done.getLast?.getD (.toBlockStart START_BLOCK)))
    (l := seeks) (f := Seek.run a body entries)
    (s := ⟨entryBits entries START_BLOCK, .atBlockStart START_BLOCK, false⟩)
    ⟨.start hbody.start, rfl⟩ fun pre x post cur hl hcur => by
      obtain ⟨cur', hrun, hat, hstate⟩ := run_spec hbody hlen (hs x (hl ▸ by simp)) hcur.1
      exact ⟨cur', hrun, hat, by simpa using hstate⟩
  exact ⟨cur, by simp [Seek.runAll, hnew, hrun], hstate⟩

end

end ResultsCursor

/-! ## `DataflowResultsCursor` -/

/-- `FlowAtLocation`, without the results it is for. -/
structure FlowAtLocation (n : Nat) where
  currState : BitVec n
  stmtTrans : GenKill n

namespace FlowAtLocation

def new : FlowAtLocation n := ⟨0#n, GenKill.nop⟩

def resetToEntryOf (entries : List (EntrySet bottom n)) (bb : BasicBlock)
    (flow : FlowAtLocation n) : Outcome (FlowAtLocation n) := do
  let entrySet ← expect "index out of bounds" entries[bb]?
  return { flow with currState := entrySet.bits }

def reconstructStatementEffect (d : BitDenotation bottom n) (location : Location)
    (flow : FlowAtLocation n) : FlowAtLocation n :=
  let (currState, stmtTrans) := d.reconstructStatementEffect flow.currState location
  ⟨currState, stmtTrans⟩

def reconstructTerminatorEffect (d : BitDenotation bottom n) (location : Location)
    (flow : FlowAtLocation n) : FlowAtLocation n :=
  let (currState, stmtTrans) := d.reconstructTerminatorEffect flow.currState location
  ⟨currState, stmtTrans⟩

def applyLocalEffect (flow : FlowAtLocation n) : FlowAtLocation n :=
  { flow with currState := flow.stmtTrans.apply flow.currState }

end FlowAtLocation

/-- `DataflowResultsCursor`, without the body. -/
structure DataflowResultsCursor (n : Nat) where
  flowState : FlowAtLocation n
  currLoc : Option Location

namespace DataflowResultsCursor

def new : DataflowResultsCursor n := ⟨.new, none⟩

/-- The start of `seek`: the state at the entry of the block, or at the last location with its effect
applied, and the index the state belongs to. -/
def seekStart (entries : List (EntrySet bottom n)) (loc : Location)
    (cur : DataflowResultsCursor n) : Outcome (FlowAtLocation n × Nat) :=
  match cur.currLoc with
  | none => do
    let flow ← cur.flowState.resetToEntryOf entries loc.block
    return (flow, 0)
  | some currLoc =>
    if loc.block ≠ currLoc.block ∨ loc.statementIndex < currLoc.statementIndex then do
      let flow ← cur.flowState.resetToEntryOf entries loc.block
      return (flow, 0)
    else .ok (cur.flowState.applyLocalEffect, currLoc.statementIndex)

def seek (d : BitDenotation bottom n) (body : Body) (entries : List (EntrySet bottom n))
    (cur : DataflowResultsCursor n) (loc : Location) : Outcome (DataflowResultsCursor n) :=
  if cur.currLoc = some loc then .ok cur
  else do
    let (flow, startIndex) ← cur.seekStart entries loc
    let flow := (range' startIndex (loc.statementIndex - startIndex)).foldl (fun flow stmt =>
      (flow.reconstructStatementEffect d ⟨loc.block, stmt⟩).applyLocalEffect) flow
    let data ← body.block loc.block
    let flow :=
      if loc.statementIndex = data.statements.length then flow.reconstructTerminatorEffect d loc
      else flow.reconstructStatementEffect d loc
    return ⟨flow, some loc⟩

end DataflowResultsCursor

/-! ### What it is to show -/

namespace BitDenotation

section
variable (d : BitDenotation bottom n)

/-- The effects before a location: those of a statement, or of the terminator after them. -/
def beforeEffectAt (body : Body) (location : Location) : List (Effect n) :=
  match body.basicBlocks[location.block]? with
  | none => []
  | some data =>
    if location.statementIndex = data.statements.length then d.beforeTerminatorEffect location
    else d.beforeStatementEffect location

def effectAt (body : Body) (location : Location) : List (Effect n) :=
  match body.basicBlocks[location.block]? with
  | none => []
  | some data =>
    if location.statementIndex = data.statements.length then d.terminatorEffect location
    else d.statementEffect location

/-- The entry set of a block with all effects of its first `k` statements. -/
def setAt (entries : List (EntrySet bottom n)) (bb : BasicBlock) (k : Nat) : BitVec n :=
  (range k).foldl (fun set j => d.statementOnSet ⟨bb, j⟩ set) (entryBits entries bb)

/-- The state and the effect a cursor is to show at a location: the entry set with all effects before
the location and those before it at the location itself, and the effects of the location. -/
def shown (body : Body) (entries : List (EntrySet bottom n))
    (loc : Location) : FlowAtLocation n where
  currState := (d.beforeEffectAt body loc).foldl Effect.onSet
    (d.setAt entries loc.block loc.statementIndex)
  stmtTrans := (d.effectAt body loc).foldl GenKill.effect
    ((d.beforeEffectAt body loc).foldl GenKill.effect GenKill.nop)

end

end BitDenotation

/-! ### What it shows -/

namespace DataflowResultsCursor

variable {d : BitDenotation bottom n} {body : Body} {entries : List (EntrySet bottom n)}

theorem applyLocalEffect_currState (loc : Location) (flow : FlowAtLocation n) :
    (flow.reconstructStatementEffect d loc).applyLocalEffect.currState =
      d.statementOnSet loc flow.currState := by
  simp only [FlowAtLocation.applyLocalEffect, FlowAtLocation.reconstructStatementEffect,
    reconstructStatementEffect, statementOnSet, apply_foldl_effect, apply_nop, foldl_onSet_idem]

theorem statementOnSet_idem (loc : Location) (set : BitVec n) :
    d.statementOnSet loc (d.statementOnSet loc set) = d.statementOnSet loc set := by
  simpa only [ statementOnSet, foldl_append] using
    foldl_onSet_idem (d.beforeStatementEffect loc ++ d.statementEffect loc) set

theorem foldl_currState (bb : BasicBlock) (l : List Nat) (flow : FlowAtLocation n) :
    (l.foldl (fun flow stmt =>
      (flow.reconstructStatementEffect d ⟨bb, stmt⟩).applyLocalEffect) flow).currState =
      l.foldl (fun set j => d.statementOnSet ⟨bb, j⟩ set) flow.currState := by
  induction l generalizing flow with
  | nil => rfl
  | cons j l ih => rw [foldl_cons, foldl_cons, ih, applyLocalEffect_currState]

theorem setAt_eq (bb : BasicBlock) {k stop : Nat} (hk : k ≤ stop) :
    (range' k (stop - k)).foldl (fun set j => d.statementOnSet ⟨bb, j⟩ set)
      (d.setAt entries bb k) = d.setAt entries bb stop := by
  rw [ setAt, setAt, ← foldl_append, range_eq_range', range_eq_range']
  congr 1
  have := @range'_append_1 0 k (stop - k)
  rwa [zero_add, Nat.add_sub_cancel' hk] at this

/-- The cursor shows nothing yet, or what belongs to its location. -/
def At (d : BitDenotation bottom n) (body : Body) (entries : List (EntrySet bottom n))
    (cur : DataflowResultsCursor n) : Prop :=
  ∀ l, cur.currLoc = some l → IsLocation body l ∧ cur.flowState = d.shown body entries l

section
variable (hlen : entries.length = body.basicBlocks.length)
include hlen

variable {loc : Location} {cur : DataflowResultsCursor n}

theorem seekStart_spec (hloc : IsLocation body loc) (hcur : At d body entries cur)
    (hne : cur.currLoc ≠ some loc) : ∃ flow start, cur.seekStart entries loc = .ok (flow, start) ∧
      (range' start (loc.statementIndex - start)).foldl
        (fun set j => d.statementOnSet ⟨loc.block, j⟩ set) flow.currState =
          d.setAt entries loc.block loc.statementIndex := by
  obtain ⟨flowState, currLoc⟩ := cur
  have hreset : ∃ flow, flowState.resetToEntryOf entries loc.block = .ok flow ∧
      flow.currState = entryBits entries loc.block := by
    have hlt : loc.block < entries.length := by
      rw [hlen]
      exact ResultsCursor.block_lt hloc
    have hget : entries[loc.block]? = some entries[loc.block] := getElem?_eq_getElem hlt
    exact ⟨{ flowState with currState := entries[loc.block].bits },
      by simp [FlowAtLocation.resetToEntryOf, hget], by simp [entryBits, hget]⟩
  obtain ⟨flow, hflow, hentry⟩ := hreset
  have hfrom : (range' 0 (loc.statementIndex - 0)).foldl
      (fun set j => d.statementOnSet ⟨loc.block, j⟩ set) flow.currState =
        d.setAt entries loc.block loc.statementIndex := by
    rw [hentry]
    exact setAt_eq loc.block (Nat.zero_le _)
  cases currLoc with
  | none => exact ⟨flow, 0, by simp [seekStart, hflow], hfrom⟩
  | some l =>
    by_cases hback : loc.block ≠ l.block ∨ loc.statementIndex < l.statementIndex
    · exact ⟨flow, 0, by simp [seekStart, hflow, hback], hfrom⟩
    · obtain ⟨block, index⟩ := l
      simp only [not_or, not_not, not_lt] at hback
      obtain ⟨rfl, hle⟩ := hback
      have hlt : index < loc.statementIndex := by
        refine lt_of_le_of_ne hle fun h => hne ?_
        subst h
        rfl
      obtain ⟨⟨data, hdata, -⟩, hshown⟩ := hcur _ rfl
      obtain ⟨data', hdata', hend⟩ := hloc
      obtain rfl : data = data' := mem_unique hdata hdata'
      simp only at hshown
      refine ⟨flowState.applyLocalEffect, index, by simp [seekStart, hle], ?_⟩
      -- the location is a statement, whose effects the loop applies once more
      have hstmt : flowState.applyLocalEffect.currState =
          d.statementOnSet ⟨loc.block, index⟩ (d.setAt entries loc.block index) := by
        have hno : index ≠ data.statements.length := (hlt.trans_le hend).ne
        simp only [hshown, FlowAtLocation.applyLocalEffect, shown, beforeEffectAt, effectAt, hdata,
          if_neg hno, statementOnSet, apply_foldl_effect, apply_nop, foldl_onSet_idem]
      rw [hstmt, ← setAt_eq loc.block hle]
      obtain ⟨m, hm⟩ := Nat.exists_eq_add_of_lt hlt
      have hcons : loc.statementIndex - index = m + 1 := by omega
      rw [hcons, range'_succ, foldl_cons, foldl_cons, statementOnSet_idem]

theorem seek_spec (hloc : IsLocation body loc)
    (hcur : At d body entries cur) : ∃ cur', cur.seek d body entries loc = .ok cur' ∧ cur'.currLoc =
    some loc ∧ At d body entries cur' := by
  by_cases hsame : cur.currLoc = some loc
  · exact ⟨cur, if_pos hsame, hsame, hcur⟩
  obtain ⟨flow, start, hstart, hloop⟩ := seekStart_spec (d := d) hlen hloc hcur hsame
  obtain ⟨data, hdata, hle⟩ := id hloc
  refine ⟨⟨d.shown body entries loc, some loc⟩, ?_, rfl, fun l hl => ?_⟩
  · have hstate := (foldl_currState (d := d) loc.block
      (range' start (loc.statementIndex - start)) flow).trans hloop
    rw [seek, if_neg hsame, hstart, ok_bind]
    simp only [Body.block, hdata, expect_some, ok_bind, pure_eq]
    generalize List.foldl _ flow _ = flow' at hstate ⊢
    congr 2
    by_cases hend : loc.statementIndex = data.statements.length
    · simp only [if_pos hend, FlowAtLocation.reconstructTerminatorEffect,
        reconstructTerminatorEffect, hstate, apply_foldl_effect, apply_nop,
        shown, beforeEffectAt, effectAt, hdata]
    · simp only [if_neg hend, FlowAtLocation.reconstructStatementEffect, reconstructStatementEffect,
        hstate, apply_foldl_effect, apply_nop, shown, beforeEffectAt, effectAt, hdata]
  · obtain rfl := some.inj hl
    exact ⟨hloc, rfl⟩

theorem seeks_spec {locs : List Location}
    (hlocs : ∀ l ∈ locs ++ [loc], IsLocation body l) :
    ∃ cur, (locs ++ [loc]).foldlM (seek d body entries) new = .ok cur ∧
      cur.flowState = d.shown body entries loc := by
  obtain ⟨cur, hrun, hat, hlast⟩ := foldlM_start
    (P := fun done cur => At d body entries cur ∧ cur.currLoc = done.getLast?)
    (l := locs ++ [loc]) (f := seek d body entries) (s := new)
    ⟨nofun, rfl⟩ fun pre x post cur hl hcur => by
      obtain ⟨cur', hrun, hcl, hat⟩ := seek_spec hlen (hlocs x (hl ▸ by simp)) hcur.1
      exact ⟨cur', hrun, hat, by simpa using hcl⟩
  exact ⟨cur, hrun, (hat loc (by simpa using hlast)).2⟩

end

end DataflowResultsCursor

/-! ## Both cursors -/

/-- For every body, all entry sets and every sequence of calls: a `ResultsCursor` shows what the last
call is to show, and a `DataflowResultsCursor` shows the last location that was sought. -/
theorem cursors_show {body : Body} (hbody : body.WF) {entries : List (EntrySet bottom n)}
    (hlen : entries.length = body.basicBlocks.length) :
    (∀ (a : Analysis bottom n) (seeks : List Seek), (∀ s ∈ seeks, s.Valid body) →
      ∃ cur, Seek.runAll a body entries seeks = .ok cur ∧
        cur.state = a.shown body entries (seeks.getLast?.getD (.toBlockStart START_BLOCK))) ∧
    ∀ (d : BitDenotation bottom n) (locs : List Location) (loc : Location),
      (∀ l ∈ locs ++ [loc], IsLocation body l) →
      ∃ cur, (locs ++ [loc]).foldlM (DataflowResultsCursor.seek d body entries)
          DataflowResultsCursor.new = .ok cur ∧ cur.flowState = d.shown body entries loc :=
  ⟨fun _ _ hs => ResultsCursor.runAll_spec hbody hlen hs,
    fun _ _ _ hlocs => DataflowResultsCursor.seeks_spec hlen hlocs⟩

/-- Both cursors on a loop, sought back and forth. -/
theorem cursors_show_loop :
    (∃ cur, Seek.runAll ⟨id, fun set _ _ => ~~~set, fun set _ _ => set, fun set _ _ _ _ => set⟩
        loop [⟨0#1⟩, (⟨1#1⟩ : EntrySet false 1)] [.after ⟨0, 1⟩, .before ⟨0, 1⟩] = .ok cur ∧
      cur.state = 1#1) ∧ ∃ cur, [(⟨1, 0⟩ : Location), ⟨0, 0⟩, ⟨0, 1⟩].foldlM
        (DataflowResultsCursor.seek generates loop [⟨0#1⟩, ⟨1#1⟩])
        DataflowResultsCursor.new = .ok cur ∧ cur.flowState.currState = 1#1 := by
  have hloc : ∀ l ∈ [(⟨1, 0⟩ : Location), ⟨0, 0⟩, ⟨0, 1⟩], IsLocation loop l := by
    intro l hl
    simp only [mem_cons, not_mem_nil, or_false] at hl
    rcases hl with rfl | rfl | rfl <;> exact ⟨_, rfl, by decide⟩
  obtain ⟨hresults, hflow⟩ := @cursors_show false 1 loop loop_wf
    [⟨0#1⟩, ⟨1#1⟩] rfl
  obtain ⟨cur, hrun, hstate⟩ := hresults ⟨id, fun set _ _ => ~~~set, fun set _ _ => set,
    fun set _ _ _ _ => set⟩ [.after ⟨0, 1⟩, .before ⟨0, 1⟩] (by
      intro s hs
      simp only [mem_cons, not_mem_nil, or_false] at hs
      rcases hs with rfl | rfl <;> exact hloc ⟨0, 1⟩ (by simp))
  obtain ⟨cur', hrun', hstate'⟩ := hflow generates [⟨1, 0⟩, ⟨0, 0⟩] ⟨0, 1⟩ hloc
  exact ⟨⟨cur, hrun, by rw [hstate]; rfl⟩, cur', hrun', by rw [hstate']; rfl⟩

end Tortis.Dataflow
