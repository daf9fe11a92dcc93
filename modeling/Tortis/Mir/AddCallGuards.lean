import Tortis.Mir.Traversal

/-!
# Call guards

`transform/add_call_guards.rs`: the return edge of a call is broken by an empty block when its
target has other predecessors. `addCallGuards_iff` says that contracting the new blocks gives back
the body, and when the call is then the only way into its destination: the code counts the
predecessors of the start block without the entry of the function.
-/

namespace Tortis

open Outcome List Option Slice Terminator

/-- `AddCallGuards`: which calls are guarded. -/
inductive AddCallGuards where
  | allCallEdges
  | criticalCallEdges
deriving DecidableEq

namespace AddCallGuards

section
variable (self : AddCallGuards)

/-- The body of the loop over the blocks: what becomes of the block, and the new blocks. -/
def guardBlock (predCount : List Nat) (curLen : Nat)
    (newBlocks : List BasicBlockData) (block : BasicBlockData) :
    Outcome (BasicBlockData × List BasicBlockData) :=
  match block.terminator with
  | some (.call func args (some (place, destination)) cleanup) => do
    let count ← Slice.get predCount destination
    if 1 < count ∧ (cleanup.isSome ∨ self = .allCallEdges) then
      -- a critical edge
      let callGuard : BasicBlockData := ⟨[], some (.goto destination), block.isCleanup⟩
      let idx := curLen + newBlocks.length
      pure ({ block with terminator := some (.call func args (some (place, idx)) cleanup) },
        newBlocks ++ [callGuard])
    else pure (block, newBlocks)
  | _ => .ok (block, newBlocks)

/-- The loop over the blocks; the blocks passed come first. -/
def guardStep (predCount : List Nat) (curLen : Nat)
    (s : List BasicBlockData × List BasicBlockData) (block : BasicBlockData) :
    Outcome (List BasicBlockData × List BasicBlockData) := do
  let (block, newBlocks) ← guardBlock self predCount curLen s.2 block
  pure (s.1 ++ [block], newBlocks)

def addCallGuards (body : Body) : Outcome Body := do
  let preds ← calculatePredecessors body
  let predCount := preds.map List.length
  let curLen := body.basicBlocks.length
  let (blocks, newBlocks) ← body.basicBlocks.foldlM (guardStep self predCount curLen) ([], [])
  pure { body with basicBlocks := blocks ++ newBlocks }

end

end AddCallGuards

/-! ## Contracting blocks -/

def Terminator.mapTargets (f : BasicBlock → BasicBlock) : Terminator → Terminator
  | .goto t => .goto (f t)
  | .switchInt discr values targets => .switchInt discr values (targets.map f)
  | .resume => .resume
  | .abort => .abort
  | .ret => .ret
  | .unreachable => .unreachable
  | .drop location target unwind => .drop location (f target) (unwind.map f)
  | .dropAndReplace location value target unwind =>
    .dropAndReplace location value (f target) (unwind.map f)
  | .call func args destination cleanup =>
    .call func args (destination.map (Prod.map id f)) (cleanup.map f)
  | .assert cond expected msg target cleanup =>
    .assert cond expected msg (f target) (cleanup.map f)
  | .yield value resumeTarget dropTarget => .yield value (f resumeTarget) (dropTarget.map f)
  | .generatorDrop => .generatorDrop
  | .falseEdges realTarget imaginaryTarget => .falseEdges (f realTarget) (f imaginaryTarget)
  | .falseUnwind realTarget unwind => .falseUnwind (f realTarget) (unwind.map f)

def BasicBlockData.mapTargets (f : BasicBlock → BasicBlock) (data : BasicBlockData) :
    BasicBlockData :=
  { data with terminator := data.terminator.map (Terminator.mapTargets f) }

namespace Body

/-- The block that an edge comes to when the blocks from `n` on are passed through. -/
def passThrough (body : Body) (n : Nat) (t : BasicBlock) : BasicBlock :=
  if t < n then t
  else
    match body.terminatorOf t with
    | some (.goto u) => u
    | _ => t

/-- The first `n` blocks, where the edges to the other blocks go on to their targets. -/
def contract (body : Body) (n : Nat) : Body :=
  { body with
    basicBlocks := (body.basicBlocks.take n).map (BasicBlockData.mapTargets (body.passThrough n)) }

end Body

/-! ## What the pass is for -/

/-- A block ends in a call with a destination, which the pass is asked to guard. -/
def IsGuardedCall (self : AddCallGuards) (body : Body) (bb dest : BasicBlock) : Prop :=
  ∃ func args place cleanup,
    body.terminatorOf bb = some (.call func args (some (place, dest)) cleanup) ∧
      (cleanup.isSome ∨ self = .allCallEdges)

/-- One edge of a block is the only edge to another block. -/
def SoleEdge (body : Body) (bb dest : BasicBlock) : Prop :=
  (body.successors bb).count dest = 1 ∧ ∀ other, dest ∈ body.successors other → other = bb

/-- Every call that the pass is asked to guard is the only way into its destination; the start
block is entered by the call of the function as well. -/
def BreaksCallEdges (self : AddCallGuards) (body : Body) : Prop :=
  ∀ bb dest, IsGuardedCall self body bb dest → SoleEdge body bb dest ∧ dest ≠ START_BLOCK

/-- One body is another one with empty blocks that only go on to a block of it, inserted into
edges. -/
structure OnlyGuards (body out : Body) : Prop where
  empty : ∀ bb data, body.basicBlocks.length ≤ bb → out.basicBlocks[bb]? = some data →
    data.statements = [] ∧ ∃ t < body.basicBlocks.length, data.terminator = some (.goto t)
  contract : out.contract body.basicBlocks.length = body

section
variable {self : AddCallGuards} {body out : Body} {bb dest : BasicBlock} {data : BasicBlockData}

/-! ## The predecessor counts -/

theorem soleEdge_iff {preds : List (List BasicBlock)} {ps : List BasicBlock}
    (h : Counts body.basicBlocks.length (fun d bb => (body.successors bb).count d) preds)
    (hps : preds[dest]? = some ps) (hbb : dest ∈ body.successors bb) :
    SoleEdge body bb dest ↔ ps.length ≤ 1 := by
  have hcount := h.count dest ps hps
  have hmem : bb ∈ ps := count_pos_iff.1 (by rw [hcount]; exact count_pos_iff.2 hbb)
  constructor
  · rintro ⟨hone, hsole⟩
    have hall : ∀ b ∈ ps, bb = b := by
      intro b hb
      have hpos : 0 < (body.successors b).count dest := hcount b ▸ count_pos_iff.2 hb
      exact (hsole b (count_pos_iff.1 hpos)).symm
    rw [← count_eq_length.2 hall, hcount, hone]
  · intro hle
    obtain ⟨b, rfl⟩ : ∃ b, ps = [b] := by
      refine length_eq_one_iff.1 (le_antisymm hle ?_)
      exact length_pos_of_mem hmem
    obtain rfl := mem_singleton.1 hmem
    refine ⟨by rw [← hcount]; simp, fun other hother => ?_⟩
    have hpos : 0 < [bb].count other := hcount other ▸ count_pos_iff.2 hother
    exact mem_singleton.1 (count_pos_iff.1 hpos)

/-! ## One block -/

/-- The destination of the call that ends a block, if the pass is asked to guard it. -/
def callDest (self : AddCallGuards) (data : BasicBlockData) : Option BasicBlock :=
  match data.terminator with
  | some (.call _ _ (some (_, dest)) cleanup) =>
    if cleanup.isSome ∨ self = .allCallEdges then some dest else none
  | _ => none

/-- The block with another destination of its call. -/
def redirected (data : BasicBlockData) (idx : BasicBlock) : BasicBlockData :=
  match data.terminator with
  | some (.call func args (some (place, _)) cleanup) =>
    { data with terminator := some (.call func args (some (place, idx)) cleanup) }
  | _ => data

def guardOf (data : BasicBlockData) (dest : BasicBlock) : BasicBlockData :=
  ⟨[], some (.goto dest), data.isCleanup⟩

def BasicBlockData.successors (data : BasicBlockData) : List BasicBlock :=
  data.terminator.elim [] Terminator.successors

theorem successors_eq (h : body.basicBlocks[bb]? = some data) :
    body.successors bb = data.successors := by
  simp [Body.successors, Body.terminatorOf, h, BasicBlockData.successors]

theorem callDest_eq (h : callDest self data = some dest) : ∃ func args place cleanup,
      data.terminator = some (.call func args (some (place, dest)) cleanup) ∧
        (cleanup.isSome ∨ self = .allCallEdges) := by
  unfold callDest at h
  split at h
  · rename_i func args place d cleanup hterm
    split at h
    · rename_i hasked
      cases h
      exact ⟨func, args, place, cleanup, hterm, hasked⟩
    · cases h
  · cases h

theorem isGuardedCall_iff : IsGuardedCall self body bb dest ↔
    ∃ data, body.basicBlocks[bb]? = some data ∧ callDest self data = some dest := by
  constructor
  · rintro ⟨func, args, place, cleanup, hterm, hasked⟩
    obtain ⟨data, hdata, hterm⟩ := bind_eq_some_iff.1 hterm
    exact ⟨data, hdata, by simp [callDest, hterm, hasked]⟩
  · rintro ⟨data, hdata, hdest⟩
    obtain ⟨func, args, place, cleanup, hterm, hasked⟩ := callDest_eq hdest
    exact ⟨func, args, place, cleanup, by simp [Body.terminatorOf, hdata, hterm], hasked⟩

theorem mem_successors_of_callDest (h : callDest self data = some dest) :
    dest ∈ data.successors := by
  obtain ⟨func, args, place, cleanup, hterm, -⟩ := callDest_eq h
  simp [BasicBlockData.successors, hterm, successors]

theorem successors_redirected (h : callDest self data = some dest) (idx : BasicBlock) : ∃ cleanup :
    List BasicBlock, data.successors = dest :: cleanup ∧ (redirected data idx).successors = idx ::
    cleanup ∧ callDest self (redirected data idx) = some idx := by
  obtain ⟨func, args, place, cleanup, hterm, hasked⟩ := callDest_eq h
  refine ⟨cleanup.toList, ?_, ?_, ?_⟩
  · simp [BasicBlockData.successors, hterm, Terminator.successors]
  · simp [BasicBlockData.successors, redirected, hterm, Terminator.successors]
  · simp [callDest, redirected, hterm, hasked]

variable {predCount : List Nat}

/-- What the loop makes of a block: a call that has to be guarded and that has another way into its
destination gets a guard. -/
theorem guardBlock_spec {curLen : Nat} {newBlocks : List BasicBlockData}
    (hrange : ∀ t ∈ data.successors, t < predCount.length) :
    (∃ dest count, callDest self data = some dest ∧ predCount[dest]? = some count ∧ 1 < count ∧
      self.guardBlock predCount curLen newBlocks data =
        .ok (redirected data (curLen + newBlocks.length), newBlocks ++ [guardOf data dest])) ∨
    (∀ dest, callDest self data = some dest → ∃ count, predCount[dest]? = some count ∧ count ≤ 1) ∧
      self.guardBlock predCount curLen newBlocks data = .ok (data, newBlocks) := by
  unfold AddCallGuards.guardBlock
  split
  · rename_i func args place dest cleanup hterm
    have hmem : dest ∈ data.successors := by
      simp [BasicBlockData.successors, hterm, Terminator.successors]
    obtain ⟨count, hcount⟩ := exists_getElem? (hrange dest hmem)
    rw [get_eq hcount, ok_bind]
    split
    · rename_i hcrit
      refine .inl ⟨dest, count, by simp [callDest, hterm, hcrit.2], hcount, hcrit.1, ?_⟩
      simp [redirected, hterm, guardOf]
    · rename_i hcrit
      refine .inr ⟨fun d hd => ?_, rfl⟩
      simp only [callDest, hterm] at hd
      split at hd
      · rename_i hasked
        cases hd
        exact ⟨count, hcount, Nat.not_lt.1 fun hlt => hcrit ⟨hlt, hasked⟩⟩
      · cases hd
  · rename_i hterm
    refine .inr ⟨fun d hd => ?_, rfl⟩
    obtain ⟨func, args, place, cleanup, hcall, -⟩ := callDest_eq hd
    exact absurd hcall (hterm func args place d cleanup)

/-! ## The loop over the blocks -/

/-- The blocks passed and the new blocks; `owners` are the blocks whose calls have got a guard, in
the order of the guards. -/
structure Guarding (which : AddCallGuards) (predCount : List Nat) (n : Nat)
    (pre : List BasicBlockData) (owners : List BasicBlock)
    (s : List BasicBlockData × List BasicBlockData) : Prop where
  length : s.1.length = pre.length
  lengthNew : s.2.length = owners.length
  nodup : owners.Nodup
  kept : ∀ (i : BasicBlock) (data : BasicBlockData), pre[i]? = some data → i ∉ owners →
    s.1[i]? = some data ∧
      ∀ dest, callDest which data = some dest → ∃ count, predCount[dest]? = some count ∧ count ≤ 1
  broken : ∀ (r : Nat) (i : BasicBlock), owners[r]? = some i → ∃ data dest count,
    pre[i]? = some data ∧ callDest which data = some dest ∧ predCount[dest]? = some count ∧
      1 < count ∧ s.1[i]? = some (redirected data (n + r)) ∧ s.2[r]? = some (guardOf data dest)

variable {pre : List BasicBlockData} {s : List BasicBlockData × List BasicBlockData}
  {owners : List BasicBlock}

theorem Guarding.keep {n : Nat} (h : Guarding self predCount n pre owners s)
    (hdata : ∀ dest, callDest self data = some dest →
      ∃ count, predCount[dest]? = some count ∧ count ≤ 1) :
    Guarding self predCount n (pre ++ [data]) owners (s.1 ++ [data], s.2) where
  length := by simp [h.length]
  lengthNew := h.lengthNew
  nodup := h.nodup
  kept := by
    intro i data' hi howner
    rcases lt_or_ge i pre.length with hlt | hge
    · rw [getElem?_append_left hlt] at hi
      obtain ⟨hs, hcount⟩ := h.kept i data' hi howner
      exact ⟨by rw [getElem?_append_left (h.length.symm ▸ hlt)]; exact hs, hcount⟩
    · rw [getElem?_append_right hge, getElem?_singleton] at hi
      split at hi
      · rename_i hzero
        cases hi
        refine ⟨?_, hdata⟩
        rw [getElem?_append_right (h.length.symm ▸ hge), h.length, hzero]
        rfl
      · cases hi
  broken := by
    intro r i howner
    obtain ⟨data', dest, count, hi, hdest, hcount, hlt, hs, hnew⟩ := h.broken r i howner
    have hlen := lt_length hi
    refine ⟨data', dest, count, ?_, hdest, hcount, hlt, ?_, hnew⟩
    · rw [getElem?_append_left hlen, hi]
    · rw [getElem?_append_left (h.length.symm ▸ hlen), hs]

theorem Guarding.guard {n count : Nat}
    (h : Guarding self predCount n pre owners s) (hdest : callDest self data = some dest)
    (hcount : predCount[dest]? = some count) (hlt : 1 < count) :
    Guarding self predCount n (pre ++ [data]) (owners ++ [pre.length])
      (s.1 ++ [redirected data (n + s.2.length)], s.2 ++ [guardOf data dest]) where
  length := by simp [h.length]
  lengthNew := by simp [h.lengthNew]
  nodup := by
    refine nodup_append.2 ⟨h.nodup, nodup_singleton _, fun i hi j hj => ?_⟩
    obtain ⟨r, hr⟩ := mem_iff_getElem?.1 hi
    obtain ⟨data', _, _, hpre, _⟩ := h.broken r i hr
    rw [mem_singleton.1 hj]
    exact ne_of_lt (lt_length hpre)
  kept := by
    intro i data' hi howner
    rw [mem_append, mem_singleton, not_or] at howner
    have hlt : i < pre.length := by
      have hle := lt_length hi
      rw [length_append, length_singleton] at hle
      exact Nat.lt_of_le_of_ne (Nat.le_of_lt_succ hle) howner.2
    rw [getElem?_append_left hlt] at hi
    obtain ⟨hs, hcount'⟩ := h.kept i data' hi howner.1
    exact ⟨by rw [getElem?_append_left (h.length.symm ▸ hlt)]; exact hs, hcount'⟩
  broken := by
    intro r i howner
    rcases lt_or_ge r owners.length with hr | hr
    · rw [getElem?_append_left hr] at howner
      obtain ⟨data', dest', count', hi, hdest', hcount', hlt', hs, hnew⟩ := h.broken r i howner
      have hlen := lt_length hi
      refine ⟨data', dest', count', ?_, hdest', hcount', hlt', ?_, ?_⟩
      · rw [getElem?_append_left hlen, hi]
      · rw [getElem?_append_left (h.length.symm ▸ hlen), hs]
      · rw [getElem?_append_left (h.lengthNew.symm ▸ hr), hnew]
    · rw [getElem?_append_right hr, getElem?_singleton] at howner
      split at howner
      · cases howner
        obtain rfl : r = owners.length := by omega
        refine ⟨data, dest, count, by simp, hdest, hcount, hlt, ?_, ?_⟩
        · rw [← h.length, ← h.lengthNew]
          simp
        · rw [← h.lengthNew]
          simp
      · cases howner

theorem guardStep_spec {blocks : List BasicBlockData} {n : Nat}
    (hrange : ∀ data ∈ blocks, ∀ t ∈ data.successors, t < predCount.length) :
    ∃ s, blocks.foldlM (self.guardStep predCount n) ([], []) = .ok s ∧
      ∃ owners, Guarding self predCount n blocks owners s := by
  have hstart : ∃ owners, Guarding self predCount n [] owners ([], []) :=
    ⟨[], rfl, rfl, nodup_nil, fun i data hi => by simp at hi, fun r i hr => by simp at hr⟩
  refine foldlM_start (P := fun pre s => ∃ owners, Guarding self predCount n pre owners s)
    hstart fun pre x post s hl hs => ?_
  obtain ⟨owners, hs⟩ := hs
  obtain ⟨dest, count, hdest, hcount, hlt, hrun⟩ | ⟨hkept, hrun⟩ :=
    @guardBlock_spec self x predCount n s.2 (hrange x (by rw [hl]; simp))
  · exact ⟨_, by rw [AddCallGuards.guardStep, hrun]; rfl, _, hs.guard hdest hcount hlt⟩
  · exact ⟨_, by rw [AddCallGuards.guardStep, hrun]; rfl, _, hs.keep hkept⟩

/-! ## The body with its guards -/

/-- A body and the body with guards: the calls of `owners` go to new blocks, which follow in the
same order and go on to the old destinations. -/
structure Guarded (which : AddCallGuards) (body out : Body) (owners : List BasicBlock) :
    Prop where
  nodup : owners.Nodup
  length : out.basicBlocks.length = body.basicBlocks.length + owners.length
  localDecls : out.localDecls = body.localDecls
  argCount : out.argCount = body.argCount
  kept : ∀ (i : BasicBlock) (data : BasicBlockData), body.basicBlocks[i]? = some data →
    i ∉ owners → out.basicBlocks[i]? = some data ∧
      ∀ dest, callDest which data = some dest → SoleEdge body i dest
  broken : ∀ (r : Nat) (i : BasicBlock), owners[r]? = some i → ∃ data dest,
    body.basicBlocks[i]? = some data ∧ callDest which data = some dest ∧
      (∀ j, ¬ SoleEdge body j dest) ∧
      out.basicBlocks[i]? = some (redirected data (body.basicBlocks.length + r)) ∧
      out.basicBlocks[body.basicBlocks.length + r]? = some (guardOf data dest)

theorem addCallGuards_guarded (hwf : body.WF) :
    ∃ out owners, self.addCallGuards body = .ok out ∧ Guarded self body out owners := by
  obtain ⟨preds, hpreds, hcounts⟩ := calculatePredecessors_spec hwf
  have hlen : (preds.map List.length).length = body.basicBlocks.length := by
    rw [length_map, hcounts.length]
  have hrange : ∀ data ∈ body.basicBlocks, ∀ t ∈ data.successors,
      t < (preds.map List.length).length := by
    intro data hdata t ht
    obtain ⟨i, hi⟩ := mem_iff_getElem?.1 hdata
    rw [hlen]
    exact hwf.inRange i t (successors_eq hi ▸ ht)
  obtain ⟨s, hrun, owners, h⟩ := @guardStep_spec self _ _ body.basicBlocks.length hrange
  -- the counts tell whether an edge is the only one
  have hcount : ∀ (i : BasicBlock) (data : BasicBlockData) (dest count : Nat),
      body.basicBlocks[i]? = some data → callDest self data = some dest →
        (preds.map List.length)[dest]? = some count → (SoleEdge body i dest ↔ count ≤ 1) := by
    intro i data dest count hi hdest hget
    rw [getElem?_map] at hget
    obtain ⟨ps, hps, rfl⟩ := map_eq_some_iff.1 hget
    exact soleEdge_iff hcounts hps (successors_eq hi ▸ mem_successors_of_callDest hdest)
  refine ⟨{ body with basicBlocks := s.1 ++ s.2 }, owners, ?_, h.nodup, ?_, rfl, rfl, ?_, ?_⟩
  · simp only [AddCallGuards.addCallGuards, hpreds, ok_bind, hrun, pure_eq]
  · simp [h.length, h.lengthNew]
  · intro i data hi howner
    obtain ⟨hs, hkept⟩ := h.kept i data hi howner
    refine ⟨by rw [getElem?_append_left (lt_length hs), hs], fun dest hdest => ?_⟩
    obtain ⟨count, hget, hle⟩ := hkept dest hdest
    exact (hcount i data dest count hi hdest hget).2 hle
  · intro r i howner
    obtain ⟨data, dest, count, hi, hdest, hget, hlt, hs, hnew⟩ := h.broken r i howner
    refine ⟨data, dest, hi, hdest, fun j hj => ?_, ?_, ?_⟩
    · have hmem := successors_eq hi ▸ mem_successors_of_callDest hdest
      obtain rfl := hj.2 i hmem
      exact Nat.not_lt.2 ((hcount i data dest count hi hdest hget).1 hj) hlt
    · rw [getElem?_append_left (lt_length hs), hs]
    · rw [← h.length, getElem?_append_right (Nat.le_add_right _ _), Nat.add_sub_cancel_left, hnew]

namespace Guarded

variable {owners : List BasicBlock}

section
variable (h : Guarded self body out owners)
include h

theorem block_cases (hdata : out.basicBlocks[bb]? = some data) :
    (body.basicBlocks[bb]? = some data ∧ bb ∉ owners) ∨ (∃ r : Nat, owners[r]? = some bb) ∨
      ∃ (r : Nat) (i : BasicBlock), owners[r]? = some i ∧ bb = body.basicBlocks.length + r := by
  rcases lt_or_ge bb body.basicBlocks.length with hlt | hge
  · obtain ⟨data', hdata'⟩ := exists_getElem? hlt
    by_cases howner : bb ∈ owners
    · exact .inr (.inl (mem_iff_getElem?.1 howner))
    · obtain ⟨hout, -⟩ := h.kept bb data' hdata' howner
      rw [hdata] at hout
      cases hout
      exact .inl ⟨hdata', howner⟩
  · obtain ⟨r, rfl⟩ := Nat.exists_eq_add_of_le hge
    have hr : r < owners.length := by
      have hlt := lt_length hdata
      rw [h.length] at hlt
      exact Nat.lt_of_add_lt_add_left hlt
    obtain ⟨i, hi⟩ := exists_getElem? hr
    exact .inr (.inr ⟨r, i, hi, rfl⟩)

theorem successors_cases (hdest : dest ∈ out.successors bb) :
    (bb ∉ owners ∧ out.successors bb = body.successors bb) ∨
    (∃ (r : Nat) (old : BasicBlock) (cleanup : List BasicBlock), owners[r]? = some bb ∧
      body.successors bb = old :: cleanup ∧
      out.successors bb = (body.basicBlocks.length + r) :: cleanup) ∨
    ∃ (r : Nat) (i : BasicBlock), owners[r]? = some i ∧ bb = body.basicBlocks.length + r ∧
      dest ∈ body.successors i ∧ ∀ j, ¬ SoleEdge body j dest := by
  cases hdata : out.basicBlocks[bb]? with
  | none => simp [Body.successors, Body.terminatorOf, hdata] at hdest
  | some data =>
    obtain ⟨hbody, howner⟩ | ⟨r, hr⟩ | ⟨r, i, hr, rfl⟩ := h.block_cases hdata
    · exact .inl ⟨howner, (successors_eq hdata).trans (successors_eq hbody).symm⟩
    · obtain ⟨data', old, hbody, hold, -, hout, -⟩ := h.broken r bb hr
      obtain ⟨cleanup, hsuccs, hnew, -⟩ := successors_redirected hold (body.basicBlocks.length + r)
      exact .inr (.inl ⟨r, old, cleanup, hr, (successors_eq hbody).trans hsuccs,
        (successors_eq hout).trans hnew⟩)
    · obtain ⟨data', old, hbody, hold, hsole, -, hout⟩ := h.broken r i hr
      rw [successors_eq hout] at hdest
      obtain rfl := mem_singleton.1 hdest
      exact .inr (.inr ⟨r, i, hr, rfl, successors_eq hbody ▸ mem_successors_of_callDest hold, hsole⟩)

theorem soleEdge_guard (hwf : body.WF) {r : Nat}
    (hr : owners[r]? = some bb) : SoleEdge out bb (body.basicBlocks.length + r) := by
  have hlt : ∀ i t, t ∈ body.successors i → t ≠ body.basicBlocks.length + r := by
    intro i t ht heq
    have := hwf.inRange i t ht
    rw [heq] at this
    exact Nat.not_lt.2 (Nat.le_add_right _ _) this
  obtain ⟨data, old, hbody, hold, -, hout, -⟩ := h.broken r bb hr
  obtain ⟨cleanup, hsuccs, hnew, -⟩ := successors_redirected hold (body.basicBlocks.length + r)
  constructor
  · rw [successors_eq hout, hnew, count_cons_self, count_eq_zero.2 fun hmem => ?_]
    exact hlt bb _ ((successors_eq hbody).trans hsuccs ▸ mem_cons_of_mem _ hmem) rfl
  · intro other hmem
    obtain ⟨-, hsame⟩ | ⟨r', old', cleanup', hr', hsuccs', hnew'⟩ | ⟨_, i, _, _, hi, _⟩ :=
      h.successors_cases hmem
    · exact absurd rfl (hlt other _ (hsame ▸ hmem))
    · rw [hnew', mem_cons] at hmem
      obtain heq | hcleanup := hmem
      · obtain rfl : r = r' := add_left_cancel heq
        exact mem_unique hr' hr
      · exact absurd rfl (hlt other _ (hsuccs' ▸ mem_cons_of_mem _ hcleanup))
    · exact absurd rfl (hlt i _ hi)

theorem soleEdge_kept (hwf : body.WF)
    (howner : bb ∉ owners) (hdata : body.basicBlocks[bb]? = some data)
    (hsole : SoleEdge body bb dest) : SoleEdge out bb dest := by
  constructor
  · rw [successors_eq (h.kept bb data hdata howner).1, ← successors_eq hdata]
    exact hsole.1
  · intro other hmem
    obtain ⟨-, hsame⟩ | ⟨r, old, cleanup, hr, hsuccs, hnew⟩ | ⟨_, i, _, _, _, hnone⟩ :=
      h.successors_cases hmem
    · exact hsole.2 other (hsame ▸ hmem)
    · rw [hnew, mem_cons] at hmem
      obtain rfl | hcleanup := hmem
      · have hlt := hwf.inRange bb _ (count_pos_iff.1 (hsole.1.symm ▸ one_pos))
        exact absurd hlt (Nat.not_lt.2 (Nat.le_add_right _ _))
      · exact hsole.2 other (hsuccs ▸ mem_cons_of_mem _ hcleanup)
    · exact absurd hsole (hnone bb)

theorem soleEdge (hwf : body.WF) (hcall : IsGuardedCall self out bb dest) : SoleEdge out bb dest ∧
      (dest = START_BLOCK → IsGuardedCall self body bb dest ∧ SoleEdge body bb dest) := by
  obtain ⟨data, hdata, hdest⟩ := isGuardedCall_iff.1 hcall
  obtain ⟨hbody, howner⟩ | ⟨r, hr⟩ | ⟨r, i, hr, rfl⟩ := h.block_cases hdata
  · have hsole := (h.kept bb data hbody howner).2 dest hdest
    exact ⟨h.soleEdge_kept hwf howner hbody hsole,
      fun _ => ⟨isGuardedCall_iff.2 ⟨data, hbody, hdest⟩, hsole⟩⟩
  · obtain ⟨data', old, hbody, hold, -, hout, -⟩ := h.broken r bb hr
    obtain ⟨_, _, _, hnew⟩ := successors_redirected hold (body.basicBlocks.length + r)
    obtain rfl := mem_unique hdata hout
    obtain rfl := mem_unique hdest hnew
    refine ⟨h.soleEdge_guard hwf hr, fun hstart => ?_⟩
    have := hwf.start
    rw [← hstart] at this
    exact absurd this (Nat.not_lt.2 (Nat.le_add_right _ _))
  · obtain ⟨data', old, _, _, _, _, hout⟩ := h.broken r i hr
    obtain rfl := mem_unique hdata hout
    cases hdest

theorem isGuardedCall_start (hcall : IsGuardedCall self body bb dest)
    (hsole : SoleEdge body bb dest) : IsGuardedCall self out bb dest := by
  obtain ⟨data, hdata, hdest⟩ := isGuardedCall_iff.1 hcall
  have howner : bb ∉ owners := by
    intro hmem
    obtain ⟨r, hr⟩ := mem_iff_getElem?.1 hmem
    obtain ⟨data', old, hbody, hold, hnone, -⟩ := h.broken r bb hr
    obtain rfl := mem_unique hdata hbody
    obtain rfl := mem_unique hdest hold
    exact hnone bb hsole
  exact isGuardedCall_iff.2 ⟨data, (h.kept bb data hdata howner).1, hdest⟩

theorem passThrough_guard {r : Nat} (hr : owners[r]? = some bb)
    (hdata : body.basicBlocks[bb]? = some data) (hdest : callDest self data = some dest) :
    out.passThrough body.basicBlocks.length (body.basicBlocks.length + r) = dest := by
  obtain ⟨data', old, hbody, hold, -, -, hout⟩ := h.broken r bb hr
  obtain rfl := mem_unique hdata hbody
  obtain rfl := mem_unique hdest hold
  rw [Body.passThrough, if_neg (Nat.not_lt.2 (Nat.le_add_right _ _))]
  simp [Body.terminatorOf, hout, guardOf]

end

end Guarded

theorem mapTargets_eq {f : BasicBlock → BasicBlock} {term : Terminator}
    (h : ∀ t ∈ term.successors, f t = t) : term.mapTargets f = term := by
  have hopt : ∀ o : Option BasicBlock, (∀ t ∈ o.toList, f t = t) → o.map f = o := by
    intro o ho
    cases o with
    | none => rfl
    | some t => simp [ho t (by simp)]
  cases term with
  | resume | abort | generatorDrop | ret | unreachable => rfl
  | goto t => simp [mapTargets, h t (by simp [successors])]
  | switchInt discr values targets =>
    simp only [mapTargets, switchInt.injEq, true_and]
    exact (map_congr_left h).trans (map_id targets)
  | falseEdges t u =>
    simp [mapTargets, h t (by simp [successors]), h u (by simp [successors])]
  | call func args destination cleanup =>
    have hcleanup := hopt cleanup fun t ht => h t (by simp [successors, ht])
    cases destination with
    | none => simp [mapTargets, hcleanup]
    | some d =>
      obtain ⟨place, t⟩ := d
      simp [mapTargets, hcleanup, h t (by simp [successors])]
  | yield _ t u | dropAndReplace _ _ t u | drop _ t u | assert _ _ _ t u | falseUnwind t u =>
    simp [mapTargets, h t (by simp [successors]), hopt u fun t ht => h t (mem_cons_of_mem _ ht)]

namespace Guarded

variable {owners : List BasicBlock}

theorem contract_block (h : Guarded self body out owners) (hwf : body.WF)
    (hdata : body.basicBlocks[bb]? = some data) : ∃ data', out.basicBlocks[bb]? = some data' ∧
      data'.mapTargets (out.passThrough body.basicBlocks.length) = data := by
  have hold : ∀ t ∈ data.successors, out.passThrough body.basicBlocks.length t = t :=
    fun t ht => if_pos (hwf.inRange bb t (successors_eq hdata ▸ ht))
  by_cases howner : bb ∈ owners
  · obtain ⟨r, hr⟩ := mem_iff_getElem?.1 howner
    obtain ⟨data', dest, hbody, hdest, -, hout, -⟩ := h.broken r bb hr
    obtain rfl := mem_unique hdata hbody
    refine ⟨_, hout, ?_⟩
    have hpass := h.passThrough_guard hr hdata hdest
    obtain ⟨func, args, place, cleanup, hterm, -⟩ := callDest_eq hdest
    have hsame : cleanup.map (out.passThrough body.basicBlocks.length) = cleanup := by
      cases cleanup with
      | none => rfl
      | some t => simp [hold t (by simp [BasicBlockData.successors, hterm, Terminator.successors])]
    simp only [ BasicBlockData.mapTargets, redirected, hterm, map_some,
      mapTargets, Prod.map, hpass, hsame, id]
    rw [← hterm]
  · refine ⟨data, (h.kept bb data hdata howner).1, ?_⟩
    rw [BasicBlockData.mapTargets]
    cases hterm : data.terminator with
    | none => rw [map_none, ← hterm]
    | some term =>
      have hmap := @mapTargets_eq _ term fun t ht => hold t (by
        rw [BasicBlockData.successors, hterm]
        exact ht)
      rw [map_some, hmap, ← hterm]

theorem onlyGuards (h : Guarded self body out owners) (hwf : body.WF) : OnlyGuards body out where
  empty := by
    intro bb data hge hdata
    obtain ⟨hbody, -⟩ | ⟨r, hr⟩ | ⟨r, i, hr, rfl⟩ := h.block_cases hdata
    · exact absurd (lt_length hbody) (Nat.not_lt.2 hge)
    · obtain ⟨_, _, hbody, _⟩ := h.broken r bb hr
      exact absurd (lt_length hbody) (Nat.not_lt.2 hge)
    · obtain ⟨data', dest, hbody, hdest, -, -, hout⟩ := h.broken r i hr
      obtain rfl := mem_unique hdata hout
      exact ⟨rfl, dest, hwf.inRange i dest (successors_eq hbody ▸ mem_successors_of_callDest hdest),
        rfl⟩
  contract := by
    have hblocks : (out.contract body.basicBlocks.length).basicBlocks = body.basicBlocks := by
      refine ext_getElem? fun i => ?_
      rw [Body.contract, getElem?_map, getElem?_take]
      split
      · rename_i hlt
        obtain ⟨data, hdata⟩ := exists_getElem? hlt
        obtain ⟨data', hout, hsame⟩ := h.contract_block hwf hdata
        rw [hout, map_some, hsame, hdata]
      · rename_i hge
        exact (getElem?_eq_none (Nat.not_lt.1 hge)).symm
    cases body
    simp only [Body.contract, Body.mk.injEq]
    exact ⟨hblocks, h.localDecls, h.argCount⟩

end Guarded

end

/-- The pass only inserts empty blocks into edges, and it makes every call that it is asked to guard
the only way into its destination exactly when no such call has the only edge into the start
block. -/
theorem addCallGuards_iff (self : AddCallGuards) (body : Body) (hwf : body.WF) :
    ∃ out, self.addCallGuards body = .ok out ∧ OnlyGuards body out ∧ (BreaksCallEdges self out ↔
        ∀ bb, IsGuardedCall self body bb START_BLOCK → ¬ SoleEdge body bb START_BLOCK) := by
  obtain ⟨out, owners, hrun, h⟩ := @addCallGuards_guarded self body hwf
  refine ⟨out, hrun, h.onlyGuards hwf, ?_⟩
  constructor
  · intro hbreaks bb hcall hsole
    exact (hbreaks bb START_BLOCK (h.isGuardedCall_start hcall hsole)).2 rfl
  · intro hcond bb dest hcall
    obtain ⟨hsole, hstart⟩ := h.soleEdge hwf hcall
    refine ⟨hsole, fun hdest => ?_⟩
    subst hdest
    obtain ⟨hcall', hsole'⟩ := hstart rfl
    exact hcond bb hcall' hsole'

/-- Two calls of a function that come back to one block and unwind to another one. -/
def joinedCalls : Body :=
  let call : Terminator := .call (.constant (.zeroSized (.fnDef ⟨0, 1⟩ []))) []
    (some (.ofLocal 0, 3)) (some 4)
  ⟨[⟨[], some (.switchInt (.copy (.ofLocal 1)) [0] [1, 2]), false⟩, ⟨[], some call, false⟩,
    ⟨[], some call, false⟩, ⟨[], some .ret, false⟩, ⟨[], some .resume, true⟩], [⟨none⟩, ⟨none⟩], 1⟩

/-- Both calls get a guard. -/
theorem addCallGuards_iff_joinedCalls :
    ∃ out, AddCallGuards.criticalCallEdges.addCallGuards joinedCalls = .ok out ∧
      OnlyGuards joinedCalls out ∧ BreaksCallEdges .criticalCallEdges out := by
  obtain ⟨out, hrun, honly, hiff⟩ :=
    addCallGuards_iff .criticalCallEdges joinedCalls (Body.wf_of_blocks (by decide) (by decide))
  refine ⟨out, hrun, honly, hiff.2 fun bb _ hsole => ?_⟩
  have hcount := hsole.1
  match bb with
  | 0 | 1 | 2 | 3 | 4 => exact absurd hcount (by decide)
  | _ + 5 => exact absurd hcount Nat.zero_ne_one

/-- A call that comes back to the start block, by the only edge into it, and unwinds to another
block. -/
def loopingCall : Body :=
  ⟨[⟨[], some (.call (.constant (.zeroSized (.fnDef ⟨0, 1⟩ []))) [] (some (.ofLocal 0, 0))
    (some 1)), false⟩, ⟨[], some .resume, true⟩], [⟨none⟩], 0⟩

/-- The call gets no guard, though the function is entered at its destination. -/
theorem addCallGuards_loopingCall : loopingCall.WF ∧
    AddCallGuards.criticalCallEdges.addCallGuards loopingCall = .ok loopingCall ∧
      ¬ BreaksCallEdges .criticalCallEdges loopingCall := by
  refine ⟨Body.wf_of_blocks (by decide) (by decide), by decide, fun h => ?_⟩
  exact (h 0 0 ⟨_, _, _, _, rfl, .inl rfl⟩).2 rfl

end Tortis
