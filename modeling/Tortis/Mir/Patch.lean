import Tortis.Lib.Splice
import Tortis.Mir.Traversal

/-!
# Patches to bodies

`MirPatch` of `librustc_mir/util/patch.rs`: new blocks, locals and statements and the terminators to
be replaced are collected, and `apply` writes them. `apply_eq` says what it makes of a body: each block
keeps its statements, with the added ones in front of the places they were asked for.
-/

namespace Tortis

open Outcome List Bool Slice Body

structure MirPatch where
  patchMap : List (Option Terminator)
  newBlocks : List BasicBlockData
  newStatements : List (Location × Statement)
  newLocals : List LocalDecl
  resumeBlock : BasicBlock
  nextLocal : Nat
  makeNop : List Location

def Body.makeStatementNop (body : Body) (loc : Location) : Outcome Body := do
  let block ← body.block loc.block
  let statements ← Slice.set block.statements loc.statementIndex .nop
  pure { body with basicBlocks := body.basicBlocks.set loc.block { block with statements } }

/-- `body[bb].terminator_mut().kind = kind`. -/
def Body.setTerminator (body : Body) (bb : BasicBlock) (kind : Terminator) : Outcome Body := do
  let block ← body.block bb
  let _ ← expect "invalid terminator state" block.terminator
  pure { body with
    basicBlocks := body.basicBlocks.set bb { block with terminator := some kind } }

namespace MirPatch

section
variable (self : MirPatch)

def newBlock (data : BasicBlockData) : BasicBlock × MirPatch :=
  (self.patchMap.length,
    { self with newBlocks := self.newBlocks ++ [data], patchMap := self.patchMap ++ [none] })

def newTemp : Local × MirPatch :=
  (self.nextLocal,
    { self with nextLocal := self.nextLocal + 1, newLocals := self.newLocals ++ [⟨none⟩] })

def patchTerminator (block : BasicBlock) (new : Terminator) :
    Outcome MirPatch := do
  let patch ← Slice.get self.patchMap block
  assert patch.isNone "assertion failed: self.patch_map[block].is_none()"
  pure { self with patchMap := self.patchMap.set block (some new) }

def addStatement (loc : Location) (stmt : Statement) : MirPatch :=
  { self with newStatements := self.newStatements ++ [(loc, stmt)] }

def makeNopAt (loc : Location) : MirPatch :=
  { self with makeNop := self.makeNop ++ [loc] }

/-- The loop of `new` that looks for a resume block, and for one that has statements. It ends at the
first block that resumes. -/
def findResume : List BasicBlockData → BasicBlock →
    Outcome (Option BasicBlock × Option BasicBlock)
  | [], _ => .ok (none, none)
  | block :: rest, bb => do
    let kind ← expect "invalid terminator state" block.terminator
    if kind = .resume then
      if block.statements.length > 0 then pure (none, some bb) else pure (some bb, none)
    else findResume rest (bb + 1)

def new (body : Body) : Outcome MirPatch := do
  let result : MirPatch :=
    { patchMap := replicate body.basicBlocks.length none
      newBlocks := []
      newStatements := []
      newLocals := []
      nextLocal := body.localDecls.length
      resumeBlock := START_BLOCK
      makeNop := [] }
  let (resumeBlock, resumeStmtBlock) ← findResume body.basicBlocks START_BLOCK
  let (resumeBlock, result) :=
    match resumeBlock with
    | some bb => (bb, result)
    | none => result.newBlock { statements := [], terminator := some .resume, isCleanup := true }
  let result := { result with resumeBlock }
  match resumeStmtBlock with
  | some bb => result.patchTerminator bb (.goto resumeBlock)
  | none => pure result

/-- The loop of `apply` over the terminators, from a block on. -/
def patchTerminators : List (Option Terminator) → BasicBlock → Body → Outcome Body
  | [], _, body => .ok body
  | none :: patches, src, body => patchTerminators patches (src + 1) body
  | some patch :: patches, src, body => do
    let body ← body.setTerminator src patch
    patchTerminators patches (src + 1) body

/-- The state of the loop that inserts the statements. -/
structure Inserting where
  body : Body
  delta : Nat
  lastBb : BasicBlock

def sourceInfoForIndex (data : BasicBlockData) (index : Nat) : Outcome Unit :=
  match data.statements[index]? with
  | some _ => .ok ()
  | none => do
    let _ ← expect "invalid terminator state" data.terminator
    pure ()

def insertStatement (s : Inserting) : Location × Statement → Outcome Inserting
  | (loc, stmt) => do
    let (delta, lastBb) := if loc.block ≠ s.lastBb then (0, loc.block) else (s.delta, s.lastBb)
    let index := loc.statementIndex + delta
    let block ← s.body.block loc.block
    sourceInfoForIndex block index
    assert (index ≤ block.statements.length) "insertion index should be <= len"
    let statements := block.statements.insertIdx index stmt
    pure
      { body := { s.body with
          basicBlocks := s.body.basicBlocks.set loc.block { block with statements } }
        delta := delta + 1
        lastBb }

/-- `a <= b` for locations. -/
def locationLe (a b : Location) : Bool :=
  a.block < b.block || (a.block == b.block && a.statementIndex ≤ b.statementIndex)

def apply (body : Body) : Outcome Body := do
  let body ← self.makeNop.foldlM makeStatementNop body
  let body := { body with basicBlocks := body.basicBlocks ++ self.newBlocks }
  let body := { body with localDecls := body.localDecls ++ self.newLocals }
  let body ← patchTerminators self.patchMap 0 body
  let newStatements := self.newStatements.mergeSort fun a b => locationLe a.1 b.1
  let s ← newStatements.foldlM insertStatement { body, delta := 0, lastBb := START_BLOCK }
  pure s.body

/-! ## What a patch asks for -/

/-- The statements that are added in a block, with their places. -/
def inBlock (bb : BasicBlock) (stmts : List (Location × Statement)) : List (Nat × Statement) :=
  (stmts.filter (·.1.block == bb)).map fun x => (x.1.statementIndex, x.2)

/-- The statements of a block, with those at the locations turned into `Nop`. -/
def nopped (locs : List Location) (bb : BasicBlock) (stmts : List Statement) : List Statement :=
  stmts.mapIdx fun i stmt => if ⟨bb, i⟩ ∈ locs then .nop else stmt

/-- A block with its statements at the locations turned into `Nop`. -/
def noppedBlock (locs : List Location) (bb : BasicBlock) (data : BasicBlockData) : BasicBlockData :=
  { data with statements := nopped locs bb data.statements }

def patched (bb : BasicBlock) (data : BasicBlockData) : BasicBlockData where
  statements := splice (atPlace (inBlock bb self.newStatements))
    (nopped self.makeNop bb data.statements) 0
  terminator := (self.patchMap[bb]?.join).or data.terminator
  isCleanup := data.isCleanup

end

/-- What the locations of a patch must be for a body: statements of the body are turned into `Nop`, and
statements are added in front of a statement of a block or at its end. -/
structure Fits (p : MirPatch) (body : Body) : Prop where
  patches : p.patchMap.length = body.basicBlocks.length + p.newBlocks.length
  terminated : ∀ data ∈ body.basicBlocks ++ p.newBlocks, data.terminator.isSome
  nops : ∀ loc ∈ p.makeNop, ∃ data, body.basicBlocks[loc.block]? = some data ∧
    loc.statementIndex < data.statements.length
  adds : ∀ x ∈ p.newStatements, ∃ data,
    (body.basicBlocks ++ p.newBlocks)[x.1.block]? = some data ∧
      x.1.statementIndex ≤ data.statements.length

/-! ## The statements that become `Nop` -/

variable {body : Body} {bb : BasicBlock} {data : BasicBlockData}

theorem set_mapIdx {α β : Type} (l : List α) (f : Nat → α → β) (i : Nat) (x : β) :
    (l.mapIdx f).set i x = l.mapIdx fun j a => if j = i then x else f j a := by
  refine ext_getElem? fun j => ?_
  rw [getElem?_set, getElem?_mapIdx, getElem?_mapIdx, length_mapIdx]
  split
  · next h =>
    subst h
    split
    · next hlt => rw [getElem?_eq_getElem hlt, Option.map_some, if_pos rfl]
    · next hge => rw [getElem?_eq_none (Nat.le_of_not_lt hge), Option.map_none]
  · next h =>
    congr 1
    funext a
    rw [if_neg (Ne.symm h)]

def mapBlocks (body : Body) (f : BasicBlock → BasicBlockData → BasicBlockData) : Body :=
  { body with basicBlocks := body.basicBlocks.mapIdx f }

variable {f : BasicBlock → BasicBlockData → BasicBlockData}

theorem block_mapBlocks
    (h : body.basicBlocks[bb]? = some data) : (mapBlocks body f).block bb = .ok (f bb data) := by
  rw [block, mapBlocks, getElem?_mapIdx, h]
  rfl

theorem mapBlocks_self (h : ∀ bb data, body.basicBlocks[bb]? = some data → f bb data = data) :
    mapBlocks body f = body := by
  have hblocks : body.basicBlocks.mapIdx f = body.basicBlocks := by
    refine ext_getElem? fun j => ?_
    rw [getElem?_mapIdx]
    cases hj : body.basicBlocks[j]? with
    | none => rfl
    | some data => rw [Option.map_some, h j data hj]
  simp only [mapBlocks, hblocks]

variable {g : BasicBlock → BasicBlockData → BasicBlockData}

theorem set_mapBlocks {x : BasicBlockData}
    (h : body.basicBlocks[bb]? = some data) (hx : x = g bb data)
    (hother : ∀ j ≠ bb, ∀ d, g j d = f j d) :
    { mapBlocks body f with basicBlocks := (mapBlocks body f).basicBlocks.set bb x } =
      mapBlocks body g := by
  have hblocks : (body.basicBlocks.mapIdx f).set bb x = body.basicBlocks.mapIdx g := by
    rw [set_mapIdx]
    refine ext_getElem? fun j => ?_
    rw [getElem?_mapIdx, getElem?_mapIdx]
    by_cases hj : j = bb
    · subst hj
      rw [h, Option.map_some, Option.map_some, if_pos rfl, hx]
    · simp only [if_neg hj]
      exact congrArg (fun F => Option.map F _) (funext fun d => (hother j hj d).symm)
  simp only [mapBlocks, hblocks]

theorem nopped_length (locs : List Location) (bb : BasicBlock) (stmts : List Statement) :
    (nopped locs bb stmts).length = stmts.length := length_mapIdx

variable {locs : List Location}

theorem nopped_fresh (h : ∀ loc ∈ locs, loc.block ≠ bb)
    (stmts : List Statement) : nopped locs bb stmts = stmts := by
  rw [nopped]
  refine ext_getElem? fun j => ?_
  have hmem : (⟨bb, j⟩ : Location) ∉ locs := fun hmem => h _ hmem rfl
  simp [hmem]

theorem nopped_concat (locs : List Location) (bb : BasicBlock) (i : Nat) (stmts : List Statement) :
    (nopped locs bb stmts).set i .nop = nopped (locs ++ [⟨bb, i⟩]) bb stmts := by
  rw [nopped, set_mapIdx, nopped]
  congr 1
  funext j stmt
  by_cases h : j = i
  · simp [h]
  · simp [h]

variable {loc : Location}

theorem nopped_other (h : bb ≠ loc.block)
    (stmts : List Statement) : nopped (locs ++ [loc]) bb stmts = nopped locs bb stmts := by
  rw [nopped, nopped]
  congr 1
  funext j stmt
  have : (⟨bb, j⟩ : Location) ≠ loc := fun heq => h (heq ▸ rfl)
  simp [this]

theorem makeNop_step (locs : List Location) (hdata : body.basicBlocks[loc.block]? = some data)
    (hlt : loc.statementIndex < data.statements.length) :
    (mapBlocks body (noppedBlock locs)).makeStatementNop loc =
      .ok (mapBlocks body (noppedBlock (locs ++ [loc]))) := by
  have hset : Slice.set (noppedBlock locs loc.block data).statements loc.statementIndex .nop =
      .ok (nopped (locs ++ [loc]) loc.block data.statements) := by
    rw [noppedBlock, set_eq (by rwa [nopped_length]), nopped_concat]
  rw [makeStatementNop, block_mapBlocks hdata, ok_bind, hset, ok_bind, pure_eq]
  exact congrArg Except.ok (set_mapBlocks hdata rfl fun j hj d => by
    rw [noppedBlock, noppedBlock, nopped_other hj])

theorem makeNops_eq (h : ∀ loc ∈ locs, ∃ data, body.basicBlocks[loc.block]? = some data ∧
      loc.statementIndex < data.statements.length) :
    locs.foldlM makeStatementNop body = .ok (mapBlocks body (noppedBlock locs)) := by
  have hstart : body = mapBlocks body (noppedBlock []) :=
    (mapBlocks_self fun bb data _ => by
      rw [noppedBlock, nopped_fresh fun _ h => absurd h not_mem_nil]).symm
  obtain ⟨body', hrun, rfl⟩ := foldlM_start
    (P := fun locs body' => body' = mapBlocks body (noppedBlock locs)) (f := makeStatementNop)
    (l := locs) hstart fun pre loc post body' hlocs hbody' => by
      subst hbody'
      obtain ⟨data, hdata, hlt⟩ := h loc (by rw [hlocs]; simp)
      exact ⟨_, makeNop_step pre hdata hlt, rfl⟩
  exact hrun

/-! ## The terminators -/

theorem mapBlocks_mapBlocks (f g : BasicBlock → BasicBlockData → BasicBlockData) :
    mapBlocks (mapBlocks body f) g = mapBlocks body fun bb data => g bb (f bb data) := by
  simp only [mapBlocks, mapIdx_mapIdx]
  rfl

theorem mapBlocks_congr (h : ∀ bb data, body.basicBlocks[bb]? = some data → f bb data = g bb data) :
    mapBlocks body f = mapBlocks body g := by
  have hblocks : body.basicBlocks.mapIdx f = body.basicBlocks.mapIdx g := by
    refine ext_getElem? fun j => ?_
    rw [getElem?_mapIdx, getElem?_mapIdx]
    cases hj : body.basicBlocks[j]? with
    | none => rfl
    | some data => rw [Option.map_some, Option.map_some, h j data hj]
  simp only [mapBlocks, hblocks]

/-- The terminator that a list of patches has for a block, when it starts at block `src`. -/
def patchAt (patches : List (Option Terminator)) (src bb : Nat) : Option Terminator :=
  if src ≤ bb then patches[bb - src]?.join else none

theorem patchAt_cons (patch : Option Terminator) (patches : List (Option Terminator))
    (src bb : Nat) : patchAt (patch :: patches) src bb =
      if bb = src then patch else patchAt patches (src + 1) bb := by
  rw [patchAt, patchAt]
  obtain hlt | rfl | hgt := lt_trichotomy bb src
  · rw [if_neg (by omega), if_neg (by omega), if_neg (by omega)]
  · rw [if_pos le_rfl, if_pos rfl, Nat.sub_self]
    rfl
  · rw [if_pos (by omega), if_neg (by omega), if_pos (by omega),
      show bb - src = bb - (src + 1) + 1 by omega, getElem?_cons_succ]

/-- A block with its terminator replaced. -/
def repatched (patch : Nat → Option Terminator) (bb : BasicBlock) (data : BasicBlockData) :
    BasicBlockData := { data with terminator := (patch bb).or data.terminator }

theorem setTerminator_eq {src : Nat} (h : body.basicBlocks[src]? = some data)
    (hterm : data.terminator.isSome) (t : Terminator) : body.setTerminator src t =
      .ok (mapBlocks body (repatched fun bb => if bb = src then some t else none)) := by
  have hblock := block_mapBlocks (f := fun _ d => d) h
  have hself : mapBlocks body (fun _ d => d) = body := mapBlocks_self fun _ _ _ => rfl
  have hset := set_mapBlocks (f := fun _ d => d) (x := { data with terminator := some t })
    (g := repatched fun bb => if bb = src then some t else none) h
    (by rw [repatched, if_pos rfl, Option.some_or]) fun j hj d => by
      rw [repatched, if_neg hj, Option.none_or]
  rw [hself] at hblock hset
  obtain ⟨t', ht'⟩ := Option.isSome_iff_exists.1 hterm
  rw [setTerminator, hblock, ok_bind, ht', expect_some, ok_bind, pure_eq]
  exact congrArg Except.ok hset

theorem patchTerminators_eq : ∀ (patches : List (Option Terminator)) (src : Nat) (body : Body),
    (∀ data ∈ body.basicBlocks, data.terminator.isSome) →
      src + patches.length ≤ body.basicBlocks.length →
      patchTerminators patches src body = .ok (mapBlocks body (repatched (patchAt patches src)))
  | [], src, body, _, _ => by
    rw [patchTerminators, mapBlocks_self fun bb data _ => ?_]
    simp [repatched, patchAt]
  | none :: patches, src, body, hterm, hlen => by
    rw [length_cons] at hlen
    rw [patchTerminators, patchTerminators_eq patches (src + 1) body hterm (by omega)]
    refine congrArg Except.ok (mapBlocks_congr fun bb data _ => ?_)
    rw [repatched, repatched, patchAt_cons]
    split
    · next h => rw [h, patchAt, if_neg (by omega)]
    · rfl
  | some t :: patches, src, body, hterm, hlen => by
    rw [length_cons] at hlen
    obtain ⟨data, hdata⟩ := exists_getElem? (show src < body.basicBlocks.length by omega)
    rw [patchTerminators, setTerminator_eq hdata (hterm data (mem_of_getElem? hdata)),
      ok_bind, patchTerminators_eq patches (src + 1) _ ?_ ?_, mapBlocks_mapBlocks]
    · refine congrArg Except.ok (mapBlocks_congr fun bb data _ => ?_)
      rw [repatched, repatched, repatched, patchAt_cons]
      split
      · next h => rw [h, patchAt, if_neg (by omega), Option.none_or]
      · rw [Option.none_or]
    · intro data' hdata'
      obtain ⟨j, hj⟩ := mem_iff_getElem?.1 hdata'
      rw [mapBlocks, getElem?_mapIdx] at hj
      obtain ⟨d, hd, rfl⟩ := Option.map_eq_some_iff.1 hj
      rw [repatched, Option.isSome_or, hterm d (mem_of_getElem? hd), Bool.or_true]
    · rw [mapBlocks, length_mapIdx]
      omega

/-! ## The statements that are added -/

theorem inBlock_concat (bb : BasicBlock) (done : List (Location × Statement)) (loc : Location)
    (stmt : Statement) : inBlock bb (done ++ [(loc, stmt)]) =
      if loc.block = bb then inBlock bb done ++ [(loc.statementIndex, stmt)] else inBlock bb done := by
  split
  · next h => simp [h, inBlock]
  · next h => simp [h, inBlock]

def splicedBlock (done : List (Location × Statement)) (bb : BasicBlock) (data : BasicBlockData) :
    BasicBlockData := { data with statements := splice (atPlace (inBlock bb done)) data.statements 0 }

/-- The state of the loop that inserts the statements, after those that are done. -/
structure InsertingAt (body : Body) (done : List (Location × Statement)) (s : Inserting) : Prop where
  body_eq : s.body = mapBlocks body (splicedBlock done)
  delta_eq : s.delta = (inBlock s.lastBb done).length
  le_last : ∀ x ∈ done, @LE.le Nat _ x.1.block s.lastBb
  last_mem : done ≠ [] → ∃ x ∈ done, x.1.block = s.lastBb

theorem locationLe_iff {a b : Location} : locationLe a b = true ↔ @LT.lt Nat _ a.block b.block ∨
        (@Eq Nat a.block b.block ∧ a.statementIndex ≤ b.statementIndex) := by
  simp [locationLe]

variable {done : List (Location × Statement)} {s : Inserting}

theorem InsertingAt.delta (h : InsertingAt body done s) (hle : ∀ x ∈ done, locationLe x.1 loc) :
    (if loc.block ≠ s.lastBb then (0, loc.block) else (s.delta, s.lastBb)) =
      ((inBlock loc.block done).length, loc.block) := by
  by_cases heq : loc.block = s.lastBb
  · rw [if_neg (not_not.2 heq), h.delta_eq, heq]
  · rw [if_pos heq]
    have hnone : inBlock loc.block done = [] := by
      rw [inBlock, map_eq_nil_iff, filter_eq_nil_iff]
      intro x hx hxl
      obtain ⟨y, hy, hyl⟩ := h.last_mem (ne_nil_of_mem hx)
      have hxle := h.le_last x hx
      rw [beq_iff_eq.1 hxl] at hxle
      obtain hlt | ⟨hyb, -⟩ := locationLe_iff.1 (hle y hy)
      · exact absurd hxle (Nat.not_le.2 (hyl ▸ hlt))
      · exact heq (hyb.symm.trans hyl)
    rw [hnone]
    rfl

theorem mem_inBlock {bb : BasicBlock} {x : Nat × Statement} :
    x ∈ inBlock bb done ↔ ((⟨bb, x.1⟩ : Location), x.2) ∈ done := by
  obtain ⟨i, stmt⟩ := x
  simp only [inBlock, mem_map, mem_filter, beq_iff_eq, Prod.mk.injEq]
  constructor
  · rintro ⟨⟨⟨bb', i'⟩, stmt'⟩, ⟨hmem, rfl⟩, rfl, rfl⟩
    exact hmem
  · exact fun h => ⟨_, ⟨h, rfl⟩, rfl, rfl⟩

theorem InsertingAt.step (h : InsertingAt body done s) (hle : ∀ x ∈ done, locationLe x.1 loc)
    (hdata : body.basicBlocks[loc.block]? = some data) (hterm : data.terminator.isSome)
    (hindex : loc.statementIndex ≤ data.statements.length) (stmt : Statement) :
    ∃ s', insertStatement s (loc, stmt) = .ok s' ∧ InsertingAt body (done ++ [(loc, stmt)]) s' := by
  have hplaces : ∀ x ∈ inBlock loc.block done, x.1 ≤ loc.statementIndex := by
    intro x hx
    obtain hlt | ⟨-, hi⟩ := locationLe_iff.1 (hle _ (mem_inBlock.1 hx))
    · exact absurd hlt (lt_irrefl _)
    · exact hi
  have hlen : (splicedBlock done loc.block data).statements.length =
      data.statements.length + (inBlock loc.block done).length :=
    length_splice_atPlace fun x hx => le_trans (hplaces x hx) hindex
  have hinfo : ∀ i, sourceInfoForIndex (splicedBlock done loc.block data) i = .ok () := by
    intro i
    obtain ⟨t, ht⟩ := Option.isSome_iff_exists.1 hterm
    rw [sourceInfoForIndex]
    split
    · rfl
    · rw [splicedBlock, ht, expect_some]
      rfl
  have hinsert : (splicedBlock done loc.block data).statements.insertIdx
      (loc.statementIndex + (inBlock loc.block done).length) stmt =
        (splicedBlock (done ++ [(loc, stmt)]) loc.block data).statements := by
    rw [splicedBlock, splicedBlock, inBlock_concat, if_pos rfl]
    exact splice_concat hindex hplaces stmt
  refine ⟨⟨mapBlocks body (splicedBlock (done ++ [(loc, stmt)])),
    (inBlock loc.block done).length + 1, loc.block⟩, ?_, rfl, ?_, ?_, ?_⟩
  · rw [insertStatement, h.delta hle, h.body_eq]
    dsimp only
    rw [block_mapBlocks hdata, ok_bind, hinfo, ok_bind, bind_of_assert (by omega), hinsert, pure_eq]
    refine congrArg (fun b => Except.ok (Inserting.mk b _ _)) (set_mapBlocks hdata rfl ?_)
    intro j hj d
    rw [splicedBlock, splicedBlock, inBlock_concat, if_neg (Ne.symm hj)]
  · rw [inBlock_concat, if_pos rfl, length_append]
    rfl
  · intro x hx
    obtain hx | hx := mem_append.1 hx
    · obtain hlt | ⟨heq, -⟩ := locationLe_iff.1 (hle x hx)
      · exact le_of_lt hlt
      · exact le_of_eq heq
    · rw [mem_singleton.1 hx]
  · exact fun _ => ⟨(loc, stmt), by simp, rfl⟩

theorem insertStatements_eq {stmts : List (Location × Statement)}
    (hsorted : stmts.Pairwise fun a b => locationLe a.1 b.1)
    (hterm : ∀ data ∈ body.basicBlocks, data.terminator.isSome)
    (h : ∀ x ∈ stmts, ∃ data, body.basicBlocks[x.1.block]? = some data ∧
      x.1.statementIndex ≤ data.statements.length) :
    ∃ s, stmts.foldlM insertStatement { body, delta := 0, lastBb := START_BLOCK } = .ok s ∧
      s.body = mapBlocks body (splicedBlock stmts) := by
  have hstart : InsertingAt body [] { body, delta := 0, lastBb := START_BLOCK } := by
    refine ⟨(mapBlocks_self fun bb data _ => ?_).symm, rfl, (fun _ h => nomatch h), by simp⟩
    have hnone : ∀ i, atPlace (inBlock bb []) i = [] := fun i => rfl
    rw [splicedBlock, splice_nil hnone]
  obtain ⟨s, hrun, hs⟩ := foldlM_start (P := InsertingAt body) (f := insertStatement)
    (l := stmts) hstart fun pre x post s hstmts hs => by
      obtain ⟨data, hdata, hindex⟩ := h x (by rw [hstmts]; simp)
      rw [hstmts] at hsorted
      exact hs.step (fun y hy => (pairwise_append.1 hsorted).2.2 y hy x (.head _)) hdata
        (hterm data (mem_of_getElem? hdata)) hindex x.2
  exact ⟨s, hrun, hs.body_eq⟩

theorem locationLe_trans (a b c : Location) (hab : locationLe a b) (hbc : locationLe b c) :
    locationLe a c := by
  rw [locationLe_iff] at *
  omega

theorem locationLe_total (a b : Location) : locationLe a b || locationLe b a := by
  rw [or_eq_true, locationLe_iff, locationLe_iff]
  omega

theorem atPlace_inBlock (stmts : List (Location × Statement)) (bb : BasicBlock) (i : Nat) :
    atPlace (inBlock bb stmts) i = (stmts.filter fun x => decide (x.1 = ⟨bb, i⟩)).map Prod.snd := by
  rw [atPlace, inBlock, filter_map, map_map, filter_filter]
  congr 1
  refine filter_congr fun x _ => ?_
  obtain ⟨⟨bb', i'⟩, stmt⟩ := x
  simp only [Function.comp_apply, Location.mk.injEq, decide_and]
  exact and_comm _ _

theorem splicedBlock_mergeSort (stmts : List (Location × Statement)) :
    splicedBlock (stmts.mergeSort fun a b => locationLe a.1 b.1) = splicedBlock stmts := by
  have hplace : ∀ bb, atPlace (inBlock bb (stmts.mergeSort fun a b => locationLe a.1 b.1)) =
      atPlace (inBlock bb stmts) := by
    intro bb
    funext i
    have hle : ∀ a b : Location × Statement, decide (a.1 = ⟨bb, i⟩) → decide (b.1 = ⟨bb, i⟩) →
        locationLe a.1 b.1 := by
      intro a b ha hb
      rw [of_decide_eq_true ha, of_decide_eq_true hb, locationLe_iff]
      exact .inr ⟨rfl, Nat.le_refl i⟩
    rw [atPlace_inBlock, atPlace_inBlock, filter_mergeSort (fun a b c => locationLe_trans a.1 b.1 c.1)
      (fun a b => locationLe_total a.1 b.1) hle]
  funext bb data
  rw [splicedBlock, splicedBlock, hplace]

/-! ## The patch is applied -/

theorem isSome_of_mapBlocks {f : BasicBlock → BasicBlockData → BasicBlockData}
    (h : ∀ bb data, body.basicBlocks[bb]? = some data → (f bb data).terminator.isSome)
    (data : BasicBlockData) (hdata : data ∈ (mapBlocks body f).basicBlocks) :
    data.terminator.isSome := by
  obtain ⟨j, hj⟩ := mem_iff_getElem?.1 hdata
  rw [mapBlocks, getElem?_mapIdx] at hj
  obtain ⟨d, hd, rfl⟩ := Option.map_eq_some_iff.1 hj
  exact h j d hd

def extended (self : MirPatch) (body : Body) : Body :=
  { body with
    basicBlocks := body.basicBlocks ++ self.newBlocks
    localDecls := body.localDecls ++ self.newLocals }

variable {self : MirPatch}

theorem extend_nopped (h : Fits self body) : { mapBlocks body (noppedBlock self.makeNop) with
      basicBlocks := (mapBlocks body (noppedBlock self.makeNop)).basicBlocks ++ self.newBlocks
      localDecls := (mapBlocks body (noppedBlock self.makeNop)).localDecls ++ self.newLocals } =
      mapBlocks (self.extended body) (noppedBlock self.makeNop) := by
  have hblocks : body.basicBlocks.mapIdx (noppedBlock self.makeNop) ++ self.newBlocks =
      (body.basicBlocks ++ self.newBlocks).mapIdx (noppedBlock self.makeNop) := by
    rw [mapIdx_append]
    congr 1
    refine (ext_getElem? fun j => ?_)
    rw [getElem?_mapIdx]
    cases hj : self.newBlocks[j]? with
    | none => rfl
    | some data =>
      rw [Option.map_some, noppedBlock, nopped_fresh]
      intro loc hloc hb
      obtain ⟨d, hd, -⟩ := h.nops loc hloc
      have := lt_length hd
      rw [hb] at this
      exact absurd this (Nat.not_lt.2 (Nat.le_add_left _ _))
  simp only [mapBlocks, extended, hblocks]

theorem apply_eq (h : Fits self body) :
    self.apply body = .ok (mapBlocks (self.extended body) self.patched) := by
  have hterm : ∀ bb (data : BasicBlockData), (self.extended body).basicBlocks[bb]? = some data →
      data.terminator.isSome := fun bb data hdata => h.terminated data (mem_of_getElem? hdata)
  have hterm' := isSome_of_mapBlocks (f := noppedBlock self.makeNop) hterm
  have hpatch := patchTerminators_eq self.patchMap 0 _ hterm' (by
    rw [mapBlocks, length_mapIdx, extended, length_append, zero_add]
    exact le_of_eq h.patches)
  rw [mapBlocks_mapBlocks] at hpatch
  have hterm'' := @isSome_of_mapBlocks (self.extended body)
    (fun bb data => repatched (patchAt self.patchMap 0) bb (noppedBlock self.makeNop bb data))
    fun bb data hdata => by
      rw [repatched, Option.isSome_or, noppedBlock, hterm bb data hdata, Bool.or_true]
  obtain ⟨s, hrun, hs⟩ := insertStatements_eq (pairwise_mergeSort
    (fun a b c => locationLe_trans a.1 b.1 c.1) (fun a b => locationLe_total a.1 b.1)
    self.newStatements) hterm'' fun x hx => by
      obtain ⟨data, hdata, hindex⟩ := h.adds x (mem_mergeSort.1 hx)
      have hblock : (self.extended body).basicBlocks[x.1.block]? = some data := hdata
      refine ⟨_, by rw [mapBlocks, getElem?_mapIdx, hblock]; rfl, ?_⟩
      change x.1.statementIndex ≤ (nopped self.makeNop x.1.block data.statements).length
      rwa [nopped_length]
  rw [apply, makeNops_eq h.nops, ok_bind]
  dsimp only
  rw [extend_nopped h, hpatch, ok_bind, hrun, ok_bind, pure_eq, hs,
    mapBlocks_mapBlocks, splicedBlock_mergeSort]
  refine congrArg Except.ok (mapBlocks_congr fun bb data _ => ?_)
  rw [splicedBlock, repatched, noppedBlock, patched, patchAt, if_pos (Nat.zero_le bb), Nat.sub_zero]

end MirPatch

end Tortis
