import Tortis.Mir.Patch

/-!
# Building a patch

A run of the builder's operations on a new patch. The patch holds exactly what the operations asked
for, and they returned the indices that their blocks and locals have after `apply`
(`build_apply`).
-/

namespace Tortis.MirPatch

open Outcome List Option

inductive Op where
  | newBlock (data : BasicBlockData)
  | newTemp
  | patchTerminator (block : BasicBlock) (new : Terminator)
  | addStatement (loc : Location) (stmt : Statement)
  | makeNop (loc : Location)
deriving DecidableEq

/-- An operation, with the block or local that it returns. -/
def perform (p : MirPatch) : Op → Outcome (Option Nat × MirPatch)
  | .newBlock data =>
    let (bb, p) := p.newBlock data
    .ok (some bb, p)
  | .newTemp =>
    let (l, p) := p.newTemp
    .ok (some l, p)
  | .patchTerminator block new => do
    let p ← p.patchTerminator block new
    pure (none, p)
  | .addStatement loc stmt => .ok (none, p.addStatement loc stmt)
  | .makeNop loc => .ok (none, p.makeNopAt loc)

/-- A run of operations, with what they return. -/
def build (p : MirPatch) : List Op → Outcome (List (Option Nat) × MirPatch)
  | [] => .ok ([], p)
  | op :: ops => do
    let (r, p) ← p.perform op
    let (rs, p) ← build p ops
    pure (r :: rs, p)

/-! ## What operations ask for -/

def blocksAsked : List Op → List BasicBlockData
  | [] => []
  | .newBlock data :: ops => data :: blocksAsked ops
  | _ :: ops => blocksAsked ops

/-- The number of locals that are added. -/
def tempsAsked (ops : List Op) : Nat := ops.count .newTemp

def addsAsked : List Op → List (Location × Statement)
  | [] => []
  | .addStatement loc stmt :: ops => (loc, stmt) :: addsAsked ops
  | _ :: ops => addsAsked ops

/-- The statements that are added at a location, in the order of the operations. -/
def addsAt (ops : List Op) (bb : BasicBlock) (i : Nat) : List Statement :=
  ((addsAsked ops).filter fun x => decide (x.1 = ⟨bb, i⟩)).map Prod.snd

def nopsAsked : List Op → List Location
  | [] => []
  | .makeNop loc :: ops => loc :: nopsAsked ops
  | _ :: ops => nopsAsked ops

def patchAsked (bb : BasicBlock) : List Op → Option Terminator
  | [] => none
  | .patchTerminator block new :: ops => if block = bb then some new else patchAsked bb ops
  | _ :: ops => patchAsked bb ops

/-- What an operation returns, after others: the index of its block or local. -/
def indexAsked (blocks locals : Nat) (before : List Op) : Op → Option Nat
  | .newBlock _ => some (blocks + (blocksAsked before).length)
  | .newTemp => some (locals + tempsAsked before)
  | _ => none

/-- The patch after operations. -/
structure Built (p : MirPatch) (ops : List Op) (results : List (Option Nat)) (p' : MirPatch) :
    Prop where
  blocks : p'.newBlocks = p.newBlocks ++ blocksAsked ops
  statements : p'.newStatements = p.newStatements ++ addsAsked ops
  locals : p'.newLocals = p.newLocals ++ replicate (tempsAsked ops) ⟨none⟩
  nops : p'.makeNop = p.makeNop ++ nopsAsked ops
  patches_length : p'.patchMap.length = p.patchMap.length + (blocksAsked ops).length
  next_local : p'.nextLocal = p.nextLocal + tempsAsked ops
  patches : ∀ bb, p'.patchMap[bb]?.join = (p.patchMap[bb]?.join).or (patchAsked bb ops)
  results : ∀ before op after, ops = before ++ op :: after →
    results[before.length]? = some (indexAsked p.patchMap.length p.nextLocal before op)

variable {p p₁ p' : MirPatch} {op : Op} {ops : List Op} {r : Option Nat} {rs : List (Option Nat)}

theorem blocksAsked_cons (op : Op) (ops : List Op) :
    blocksAsked (op :: ops) = blocksAsked [op] ++ blocksAsked ops := by cases op <;> rfl

theorem blocksAsked_append : ∀ ops ops' : List Op,
    blocksAsked (ops ++ ops') = blocksAsked ops ++ blocksAsked ops'
  | [], _ => rfl
  | op :: ops, ops' => by
    rw [cons_append, blocksAsked_cons op (ops ++ ops'), blocksAsked_append ops ops',
      blocksAsked_cons op ops, append_assoc]

theorem addsAsked_cons (op : Op) (ops : List Op) :
    addsAsked (op :: ops) = addsAsked [op] ++ addsAsked ops := by cases op <;> rfl

theorem nopsAsked_cons (op : Op) (ops : List Op) :
    nopsAsked (op :: ops) = nopsAsked [op] ++ nopsAsked ops := by cases op <;> rfl

theorem tempsAsked_cons (op : Op) (ops : List Op) :
    tempsAsked (op :: ops) = tempsAsked [op] + tempsAsked ops := by
  rw [tempsAsked, tempsAsked, tempsAsked, ← count_append]
  rfl

theorem patchAsked_cons (bb : BasicBlock) (op : Op) (ops : List Op) :
    patchAsked bb (op :: ops) = (patchAsked bb [op]).or (patchAsked bb ops) := by
  cases op with
  | patchTerminator block new =>
    rw [patchAsked, patchAsked]
    split <;> rfl
  | newBlock | newTemp | addStatement | makeNop => rfl

theorem built_nil : Built p [] [] p := by
  refine ⟨?_, ?_, ?_, ?_, rfl, rfl, fun bb => ?_, fun before op after h => ?_⟩
  · exact (append_nil _).symm
  · exact (append_nil _).symm
  · exact (append_nil _).symm
  · exact (append_nil _).symm
  · exact (or_none).symm
  · exact absurd h.symm (by simp)

theorem join_concat_none (l : List (Option Terminator)) (bb : Nat) :
    (l ++ [none])[bb]?.join = l[bb]?.join := by
  obtain hlt | rfl | hgt := lt_trichotomy bb l.length
  · rw [getElem?_append_left hlt]
  · rw [getElem?_concat_length, getElem?_eq_none le_rfl]
    rfl
  · rw [getElem?_eq_none (by rw [length_append]; exact hgt), getElem?_eq_none (le_of_lt hgt)]

theorem results_single {i : Option Nat} (h : r = i) (before : List Op) (op' : Op) (after : List Op)
    (hsplit : [op] = before ++ op' :: after)
    (hi : i = indexAsked p.patchMap.length p.nextLocal [] op) :
    [r][before.length]? = some (indexAsked p.patchMap.length p.nextLocal before op') := by
  obtain ⟨rfl, rfl, rfl⟩ : before = [] ∧ op' = op ∧ after = [] := by
    cases before with
    | nil => simpa [eq_comm] using hsplit
    | cons a before => simp at hsplit
  rw [h, hi]
  rfl

theorem perform_built (h : p.perform op = .ok (r, p₁)) : Built p [op] [r] p₁ := by
  cases op with
  | newBlock data =>
    cases h
    refine ⟨rfl, (append_nil _).symm, (append_nil _).symm, (append_nil _).symm, ?_,
      rfl, fun bb => ?_, fun before op' after hsplit => results_single rfl before op' after hsplit rfl⟩
    · exact length_append
    · refine (join_concat_none _ _).trans ?_
      exact (or_none).symm
  | newTemp =>
    cases h
    exact ⟨(append_nil _).symm, (append_nil _).symm, rfl, (append_nil _).symm, rfl,
      rfl, fun bb => (or_none).symm,
      fun before op' after hsplit => results_single rfl before op' after hsplit rfl⟩
  | addStatement loc stmt =>
    cases h
    exact ⟨(append_nil _).symm, rfl, (append_nil _).symm, (append_nil _).symm, rfl,
      rfl, fun bb => (or_none).symm,
      fun before op' after hsplit => results_single rfl before op' after hsplit rfl⟩
  | makeNop loc =>
    cases h
    exact ⟨(append_nil _).symm, (append_nil _).symm, (append_nil _).symm, rfl, rfl,
      rfl, fun bb => (or_none).symm,
      fun before op' after hsplit => results_single rfl before op' after hsplit rfl⟩
  | patchTerminator block new =>
    obtain ⟨p2, hpatch, h⟩ := bind_eq_ok.1 h
    cases h
    obtain ⟨patch, hget, hpatch⟩ := bind_eq_ok.1 hpatch
    obtain ⟨_, hnone, hpatch⟩ := bind_eq_ok.1 hpatch
    cases hpatch
    have hget := expect_eq_ok.1 hget
    have hnone := isNone_iff_eq_none.1 (assert_eq_ok.1 hnone)
    refine ⟨(append_nil _).symm, (append_nil _).symm, (append_nil _).symm,
      (append_nil _).symm, length_set, rfl, fun bb => ?_,
      fun before op' after hsplit => results_single rfl before op' after hsplit rfl⟩
    rw [patchAsked, patchAsked, getElem?_set]
    split
    · next heq =>
      subst heq
      rw [if_pos (Slice.lt_length hget), hget, hnone]
      rfl
    · exact (or_none).symm

theorem Built.cons (h : Built p [op] [r] p₁) (h' : Built p₁ ops rs p') :
    Built p (op :: ops) (r :: rs) p' := by
  refine ⟨?_, ?_, ?_, ?_, ?_, ?_, fun bb => ?_, fun before op' after hsplit => ?_⟩
  · rw [h'.blocks, h.blocks, blocksAsked_cons op ops, append_assoc]
  · rw [h'.statements, h.statements, addsAsked_cons op ops, append_assoc]
  · rw [h'.locals, h.locals, tempsAsked_cons op ops, replicate_add, append_assoc]
  · rw [h'.nops, h.nops, nopsAsked_cons op ops, append_assoc]
  · rw [h'.patches_length, h.patches_length, blocksAsked_cons op ops, length_append, add_assoc]
  · rw [h'.next_local, h.next_local, tempsAsked_cons op ops, add_assoc]
  · rw [h'.patches, h.patches, patchAsked_cons bb op ops, Option.or_assoc]
  · cases before with
    | nil =>
      obtain ⟨rfl, -⟩ := List.cons.inj hsplit
      exact h.results [] op [] rfl
    | cons a before =>
      obtain ⟨rfl, hrest⟩ := List.cons.inj hsplit
      have := h'.results before op' after hrest
      rw [length_cons, getElem?_cons_succ, this, h.patches_length, h.next_local]
      congr 1
      cases op' with
      | newBlock data =>
        rw [indexAsked, indexAsked, blocksAsked_cons op before, length_append, add_assoc]
      | newTemp => rw [indexAsked, indexAsked, tempsAsked_cons op before, add_assoc]
      | patchTerminator | addStatement | makeNop => rfl

theorem build_built : ∀ {ops : List Op} {p : MirPatch} {rs : List (Option Nat)},
    p.build ops = .ok (rs, p') → Built p ops rs p'
  | [], p, rs, h => by
    cases h
    exact built_nil
  | op :: ops, p, rs, h => by
    obtain ⟨⟨r, p₁⟩, hop, h⟩ := bind_eq_ok.1 h
    obtain ⟨⟨rs', p2⟩, hops, h⟩ := bind_eq_ok.1 h
    cases h
    exact (perform_built hop).cons (build_built hops)

/-! ## A patch of a body -/

variable {body : Body} {p₀ : MirPatch}

/-- The block that `new` adds when there is no block to resume in. -/
def resumeData : BasicBlockData where
  statements := []
  terminator := some .resume
  isCleanup := true

structure Fresh (body : Body) (p : MirPatch) : Prop where
  blocks : p.newBlocks = [] ∨ p.newBlocks = [resumeData]
  statements : p.newStatements = []
  locals : p.newLocals = []
  nops : p.makeNop = []
  next_local : p.nextLocal = body.localDecls.length
  patches_length : p.patchMap.length = body.basicBlocks.length + p.newBlocks.length

theorem Fresh.patch (h : Fresh body p) {block : BasicBlock} {new : Terminator}
    (hp : p.patchTerminator block new = .ok p') : Fresh body p' := by
  obtain ⟨patch, -, hp⟩ := bind_eq_ok.1 hp
  obtain ⟨_, -, hp⟩ := bind_eq_ok.1 hp
  cases hp
  exact ⟨h.blocks, h.statements, h.locals, h.nops, h.next_local, length_set.trans h.patches_length⟩

theorem new_fresh (h : MirPatch.new body = .ok p) : Fresh body p := by
  obtain ⟨⟨resumeBlock, resumeStmtBlock⟩, -, h⟩ := bind_eq_ok.1 h
  cases resumeBlock with
  | none =>
    have hfresh : ∀ bb, Fresh body
        { patchMap := replicate body.basicBlocks.length none ++ [none], newBlocks := [resumeData],
          newStatements := [], newLocals := [], resumeBlock := bb,
          nextLocal := body.localDecls.length, makeNop := [] } := fun bb =>
      ⟨.inr rfl, rfl, rfl, rfl, rfl, by simp⟩
    cases resumeStmtBlock with
    | none =>
      cases h
      exact hfresh _
    | some bb => exact (hfresh _).patch h
  | some bb =>
    have hfresh : Fresh body
        { patchMap := replicate body.basicBlocks.length none, newBlocks := [],
          newStatements := [], newLocals := [], resumeBlock := bb,
          nextLocal := body.localDecls.length, makeNop := [] } :=
      ⟨.inl rfl, rfl, rfl, rfl, rfl, by simp⟩
    cases resumeStmtBlock with
    | none =>
      cases h
      exact hfresh
    | some bb' => exact hfresh.patch h

def blockAsked (p₀ : MirPatch) (ops : List Op) (bb : BasicBlock) (data : BasicBlockData) :
    BasicBlockData where
  statements := splice (addsAt ops bb) (nopped (nopsAsked ops) bb data.statements) 0
  terminator := ((p₀.patchMap[bb]?.join).or (patchAsked bb ops)).or data.terminator
  isCleanup := data.isCleanup

/-- The blocks of a body with the ones that are added: the resume block, if `new` made one, and those
of the operations. -/
def blocksWith (body : Body) (p₀ : MirPatch) (ops : List Op) : List BasicBlockData :=
  body.basicBlocks ++ p₀.newBlocks ++ blocksAsked ops

/-- Whatever operations a patch is built with, `apply` does what they asked for: the new blocks and
locals have the indices that were returned, terminators are replaced, and each block keeps its
statements, with the added ones in front of the places they were asked for. -/
theorem build_apply (hnew : MirPatch.new body = .ok p₀) (hbuild : p₀.build ops = .ok (rs, p))
    (hterm : ∀ data ∈ body.basicBlocks ++ blocksAsked ops, data.terminator.isSome)
    (hnops : ∀ loc ∈ nopsAsked ops, ∃ data, body.basicBlocks[loc.block]? = some data ∧
      loc.statementIndex < data.statements.length)
    (hadds : ∀ x ∈ addsAsked ops, ∃ data, (blocksWith body p₀ ops)[x.1.block]? = some data ∧
      x.1.statementIndex ≤ data.statements.length) : ∃ body', p.apply body = .ok body' ∧
      body'.basicBlocks = (blocksWith body p₀ ops).mapIdx (blockAsked p₀ ops) ∧
      body'.localDecls = body.localDecls ++ replicate (tempsAsked ops) ⟨none⟩ ∧
      body'.argCount = body.argCount ∧
      (∀ before data after, ops = before ++ .newBlock data :: after →
        ∃ bb, rs[before.length]? = some (some bb) ∧ (blocksWith body p₀ ops)[bb]? = some data ∧
          bb = (body.basicBlocks ++ p₀.newBlocks).length + (blocksAsked before).length) ∧
      (∀ before after, ops = before ++ .newTemp :: after →
        rs[before.length]? = some (some (body.localDecls.length + tempsAsked before))) := by
  have hfresh := new_fresh hnew
  have hbuilt := build_built hbuild
  have hstatements := hbuilt.statements
  have hnops' := hbuilt.nops
  have hlocals := hbuilt.locals
  have hblocks := hbuilt.blocks
  rw [hfresh.statements, nil_append] at hstatements
  rw [hfresh.nops, nil_append] at hnops'
  rw [hfresh.locals, nil_append] at hlocals
  have hwith : body.basicBlocks ++ p.newBlocks = blocksWith body p₀ ops := by
    rw [hblocks, blocksWith, append_assoc]
  have hfits : Fits p body := by
    refine ⟨?_, ?_, by rwa [hnops'], by rwa [hstatements, hwith]⟩
    · rw [hbuilt.patches_length, hfresh.patches_length, hblocks, length_append, add_assoc]
    · intro data hdata
      rw [hwith, blocksWith] at hdata
      obtain hdata | hdata := mem_append.1 hdata
      · obtain hdata | hdata := mem_append.1 hdata
        · exact hterm data (mem_append_left _ hdata)
        · obtain hnil | hone := hfresh.blocks
          · rw [hnil] at hdata
            exact absurd hdata not_mem_nil
          · rw [hone] at hdata
            rw [mem_singleton.1 hdata]
            rfl
      · exact hterm data (mem_append_right _ hdata)
  refine ⟨_, apply_eq hfits, ?_, ?_, rfl, ?_, ?_⟩
  · rw [mapBlocks, extended]
    dsimp only
    congr 1
    funext bb data
    rw [patched, blockAsked, hbuilt.patches, hstatements, hnops']
    congr 2
    funext i
    exact atPlace_inBlock _ _ _
  · rw [mapBlocks, extended, hlocals]
  · intro before data after hops
    refine ⟨_, hbuilt.results before _ after hops, ?_, ?_⟩
    · have hsplit : blocksAsked ops = blocksAsked before ++ data :: blocksAsked after := by
        rw [hops, blocksAsked_append]
        rfl
      rw [blocksWith, hsplit, hfresh.patches_length, ← length_append,
        getElem?_append_right (Nat.le_add_right _ _), Nat.add_sub_cancel_left]
      exact Slice.getElem?_append_cons rfl
    · rw [hfresh.patches_length, length_append]
  · intro before after hops
    rw [hbuilt.results before _ after hops, indexAsked, hfresh.next_local]

/-- A statement in front of one that becomes `Nop`, and a jump to a new block. -/
theorem build_apply_goto :
    ∃ p rs body', (MirPatch.new ⟨[⟨[.storageLive 0], some .ret, false⟩], [⟨none⟩], 0⟩ >>= fun p₀ =>
      p₀.build [.newBlock ⟨[], some .ret, false⟩, .patchTerminator 0 (.goto 2), .makeNop ⟨0, 0⟩,
        .addStatement ⟨0, 0⟩ (.storageDead 0), .newTemp]) = .ok (rs, p) ∧
      p.apply ⟨[⟨[.storageLive 0], some .ret, false⟩], [⟨none⟩], 0⟩ = .ok body' ∧
      body'.localDecls = [⟨none⟩, ⟨none⟩] := by
  obtain ⟨body', happly, -, hlocals, -⟩ := build_apply
    (show MirPatch.new ⟨[⟨[.storageLive 0], some .ret, false⟩], [⟨none⟩], 0⟩ = .ok _ from rfl)
    (show MirPatch.build _ [.newBlock ⟨[], some .ret, false⟩, .patchTerminator 0 (.goto 2),
      .makeNop ⟨0, 0⟩, .addStatement ⟨0, 0⟩ (.storageDead 0), .newTemp] = .ok _ from rfl)
    (by decide) (fun loc hloc => by
      rw [mem_singleton.1 hloc]
      exact ⟨_, rfl, by decide⟩) (fun x hx => by
      rw [mem_singleton.1 hx]
      exact ⟨_, rfl, by decide⟩)
  exact ⟨_, _, body', rfl, happly, hlocals⟩

/-- A statement of a new block cannot be turned into `Nop`: that is done before the new blocks are
there. -/
theorem apply_nop_in_new_block :
    ∃ p₀ rs p, MirPatch.new ⟨[⟨[], some .ret, false⟩], [⟨none⟩], 0⟩ = .ok p₀ ∧
      p₀.build [.newBlock ⟨[.storageLive 0], some .ret, false⟩, .makeNop ⟨2, 0⟩] = .ok (rs, p) ∧
      rs = [some 2, none] ∧
      p.apply ⟨[⟨[], some .ret, false⟩], [⟨none⟩], 0⟩ = .error (.panic "index out of bounds") :=
  ⟨_, _, _, rfl, rfl, rfl, rfl⟩

end Tortis.MirPatch
