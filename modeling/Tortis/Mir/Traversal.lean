import Tortis.DataStructures.TriColor
import Tortis.Lib.Slice
import Tortis.Mir.Syntax

/-!
# The control-flow graph

`Postorder` and `ReversePostorder` of `librustc/mir/traversal.rs`. The iterator keeps the marks and
a stack of blocks with iterators over their successors; `traverse_successor` only grows the stack
and `next` pops it. `postorder_spec` says that on a well-formed body the iteration ends and yields
a postorder of the blocks that can be reached.

`calculate_predecessors` of `librustc/mir/cache.rs`: for every block the blocks whose terminators go
to it, once for each of their edges (`calculatePredecessors_spec`).
-/

namespace Tortis

open Outcome List Option Slice Body

/-- The state of the iterator; the stack has its top first. -/
structure Postorder where
  visited : FxHashSet BasicBlock
  visitStack : List (BasicBlock × List BasicBlock)

/-- `self.body[bb]`. -/
def Body.block (body : Body) (bb : BasicBlock) : Outcome BasicBlockData :=
  expect "index out of bounds" body.basicBlocks[bb]?

namespace Postorder

/-- The loop of `traverse_successor`: look at the next successor of the top of the stack and enter
it when it is not marked, until the top has no successor left. -/
def traverseSuccessor (body : Body) : Nat → Postorder → Outcome Postorder
  | 0, _ => .error .outOfFuel
  | n + 1, ⟨visited, (b, bb :: iter) :: stack⟩ =>
    if bb ∈ visited then traverseSuccessor body n ⟨visited, (b, iter) :: stack⟩
    else do
      let data ← body.block bb
      match data.terminator with
      | some term =>
        traverseSuccessor body n
          ⟨visited.insert bb, (bb, term.successors) :: (b, iter) :: stack⟩
      | none => traverseSuccessor body n ⟨visited.insert bb, (b, iter) :: stack⟩
  | _ + 1, po => .ok po

def new (body : Body) (n : Nat) (root : BasicBlock) : Outcome Postorder := do
  let data ← body.block root
  match data.terminator with
  | some term => traverseSuccessor body n ⟨FxHashSet.insert ∅ root, [(root, term.successors)]⟩
  | none => .ok ⟨∅, []⟩

def next (body : Body) (n : Nat) (po : Postorder) : Outcome (Option BasicBlock × Postorder) :=
  match po.visitStack with
  | (bb, _) :: stack => do
    let po ← traverseSuccessor body n { po with visitStack := stack }
    return (some bb, po)
  | [] => .ok (none, po)

/-- The blocks the iterator yields from a state on. -/
def collect (body : Body) (n : Nat) : Nat → Postorder → Outcome (List BasicBlock)
  | 0, _ => .error .outOfFuel
  | k + 1, po => do
    match ← next body n po with
    | (some bb, po) => return bb :: (← collect body n k po)
    | (none, _) => return []

end Postorder

/-- Fuel for a traversal: each block is entered and left once and each edge looked at once. -/
def Body.traversalFuel (body : Body) : Nat :=
  ((range body.basicBlocks.length).map fun bb => 2 + (body.successors bb).length).sum + 1

/-- `ReversePostorder::new`, as far as the blocks it collects, in postorder. -/
def postorder (body : Body) (root : BasicBlock) : Outcome (List BasicBlock) := do
  let po ← Postorder.new body body.traversalFuel root
  po.collect body body.traversalFuel body.traversalFuel

/-- The blocks `reverse_postorder` yields, which runs through the postorder from its end. -/
def reversePostorder (body : Body) : Outcome (List BasicBlock) := do
  return (← postorder body START_BLOCK).reverse

/-! ## The iterator is a postorder walk -/

namespace Postorder

/-- The walk an iterator is at when it has yielded `out`. -/
def walk (po : Postorder) (out : List BasicBlock) : Walk BasicBlock :=
  ⟨po.visited, po.visitStack, out⟩

variable {body : Body} {root : BasicBlock}

def blocks (body : Body) : Finset BasicBlock := Finset.range body.basicBlocks.length

theorem successors_mem_blocks (h : body.WF) (u : BasicBlock) (v : BasicBlock)
    (hv : v ∈ body.successors u) : v ∈ blocks body :=
  Finset.mem_range.2 (h.inRange u v hv)

theorem block_spec (h : body.WF) {bb : BasicBlock} (hbb : bb < body.basicBlocks.length) :
    ∃ data term, body.block bb = .ok data ∧ data.terminator = some term ∧
      term.successors = body.successors bb := by
  obtain ⟨term, hterm⟩ := h.terminatorOf hbb
  have hget : body.basicBlocks[bb]? = some body.basicBlocks[bb] := by simp [hbb]
  refine ⟨body.basicBlocks[bb], term, by simp [block, hget], ?_, ?_⟩
  · simpa [terminatorOf, hget] using hterm
  · simp [successors, hterm]

theorem traverseSuccessor_spec (h : body.WF) (out : List BasicBlock) :
    ∀ (n : Nat) (po : Postorder), (po.walk out).Inv body.successors root →
      (po.walk out).turns body.successors (blocks body) < n →
      ∃ po', traverseSuccessor body n po = .ok po' ∧ (po'.walk out).Inv body.successors root ∧
        (po'.walk out).turns body.successors (blocks body) ≤
          (po.walk out).turns body.successors (blocks body) ∧
        ∀ e ∈ po'.visitStack.head?, e.2 = []
  | 0, _, _, hn => absurd hn (Nat.not_lt_zero _)
  | n + 1, ⟨visited, []⟩, hi, _ => ⟨_, rfl, hi, le_rfl, by simp⟩
  | n + 1, ⟨visited, (b, []) :: stack⟩, hi, _ => ⟨_, rfl, hi, le_rfl, by simp⟩
  | n + 1, ⟨visited, (b, bb :: iter) :: stack⟩, hi, hn => by
    by_cases hvis : bb ∈ visited
    · have hs : Walk.Step body.successors
          ⟨visited, (b, bb :: iter) :: stack, out⟩ ⟨visited, (b, iter) :: stack, out⟩ := .skip hvis
      have hlt := hs.turns_lt (successors_mem_blocks h) hi
      obtain ⟨po', hrun, hi', hle, htop⟩ :=
        traverseSuccessor_spec h out n ⟨visited, (b, iter) :: stack⟩ (hs.inv hi)
          (lt_of_lt_of_le hlt (Nat.le_of_lt_succ hn))
      exact ⟨po', by rw [traverseSuccessor, if_pos hvis, hrun], hi', hle.trans hlt.le, htop⟩
    · have hs : Walk.Step body.successors ⟨visited, (b, bb :: iter) :: stack, out⟩
          ⟨visited.insert bb, (bb, body.successors bb) :: (b, iter) :: stack, out⟩ := .push hvis
      have hlt := hs.turns_lt (successors_mem_blocks h) hi
      have hbb := h.inRange b bb (hi.remaining _ (.head _) bb (.head _))
      obtain ⟨data, term, hdata, hterm, hsucc⟩ := block_spec h hbb
      obtain ⟨po', hrun, hi', hle, htop⟩ :=
        traverseSuccessor_spec h out n
          ⟨visited.insert bb, (bb, body.successors bb) :: (b, iter) :: stack⟩ (hs.inv hi)
          (lt_of_lt_of_le hlt (Nat.le_of_lt_succ hn))
      refine ⟨po', ?_, hi', hle.trans hlt.le, htop⟩
      rw [traverseSuccessor, if_neg hvis, hdata, ok_bind, hterm, ← hrun, ← hsucc]

theorem collect_spec (h : body.WF) (n : Nat) :
    ∀ (k : Nat) (po : Postorder) (out : List BasicBlock), (po.walk out).Inv body.successors root →
      (∀ e ∈ po.visitStack.head?, e.2 = []) →
      (po.walk out).turns body.successors (blocks body) < n →
      (po.walk out).turns body.successors (blocks body) < k →
      ∃ rest, po.collect body n k = .ok rest ∧ IsPostorder body.successors root (out ++ rest)
  | 0, _, _, _, _, _, hk => absurd hk (Nat.not_lt_zero _)
  | k + 1, ⟨visited, []⟩, out, hi, _, _, _ =>
    ⟨[], rfl, by simpa using Walk.Inv.isPostorder hi⟩
  | k + 1, ⟨visited, (b, iter) :: stack⟩, out, hi, htop, hn, hk => by
    obtain rfl : iter = [] := htop (b, iter) rfl
    have hs : Walk.Step body.successors ⟨visited, (b, []) :: stack, out⟩
        ⟨visited, stack, out ++ [b]⟩ := .pop
    have hlt := hs.turns_lt (successors_mem_blocks h) hi
    obtain ⟨po', hrun, hi', hle, htop'⟩ := traverseSuccessor_spec h (out ++ [b]) n
      ⟨visited, stack⟩ (hs.inv hi) (hlt.trans hn)
    obtain ⟨rest, hrest, hpost⟩ := collect_spec h n k po' (out ++ [b]) hi' htop'
      (hle.trans_lt (hlt.trans hn)) (hle.trans_lt (lt_of_lt_of_le hlt (Nat.le_of_lt_succ hk)))
    refine ⟨b :: rest, ?_, by simpa using hpost⟩
    simp [collect, next, hrun, hrest]

end Postorder

variable {body : Body} {root : BasicBlock}

theorem turns_start_lt (hroot : root < body.basicBlocks.length) :
    (Walk.start body.successors root).turns body.successors (Postorder.blocks body) <
      body.traversalFuel := by
  have hmem : root ∈ Postorder.blocks body := Finset.mem_range.2 hroot
  have hfilter : (Postorder.blocks body).filter
      (· ∉ (Walk.start body.successors root).visited) = (Postorder.blocks body).erase root := by
    ext v
    simp [Walk.start, and_comm]
  have hsum := Finset.add_sum_erase _ (fun v => 2 + (body.successors v).length) hmem
  have htotal : ((range body.basicBlocks.length).map
      fun bb => 2 + (body.successors bb).length).sum =
        ∑ v ∈ Postorder.blocks body, (2 + (body.successors v).length) := rfl
  rw [Walk.turns, hfilter, traversalFuel, htotal]
  simp only [Walk.start, map_cons, map_nil, sum_cons, sum_nil]
  omega

theorem postorder_spec (h : body.WF) (hroot : root < body.basicBlocks.length) :
    ∃ out, postorder body root = .ok out ∧ IsPostorder body.successors root out := by
  obtain ⟨data, term, hdata, hterm, hsucc⟩ := Postorder.block_spec h hroot
  have hlt := turns_start_lt hroot
  obtain ⟨po, hrun, hi, hle, htop⟩ := Postorder.traverseSuccessor_spec h [] body.traversalFuel
    ⟨FxHashSet.insert ∅ root, [(root, body.successors root)]⟩ Walk.start_inv hlt
  obtain ⟨out, hout, hpost⟩ := Postorder.collect_spec h body.traversalFuel body.traversalFuel po []
    hi htop (hle.trans_lt hlt) (hle.trans_lt hlt)
  refine ⟨out, ?_, by simpa using hpost⟩
  simp [postorder, Postorder.new, hdata, hterm, hsucc, hrun, hout]

/-! ## Predecessors of blocks -/

/-- `result[tgt].push(bb)`. -/
def pushPredecessor (bb : BasicBlock) (result : List (List BasicBlock)) (tgt : BasicBlock) :
    Outcome (List (List BasicBlock)) := do
  let preds ← Slice.get result tgt
  Slice.set result tgt (preds ++ [bb])

/-- The body of the loop over the blocks. -/
def pushPredecessors (result : List (List BasicBlock)) (block : BasicBlockData × BasicBlock) :
    Outcome (List (List BasicBlock)) :=
  match block.1.terminator with
  | some term => term.successors.foldlM (pushPredecessor block.2) result
  | none => .ok result

def calculatePredecessors (body : Body) : Outcome (List (List BasicBlock)) :=
  body.basicBlocks.zipIdx.foldlM pushPredecessors (replicate body.basicBlocks.length [])

section
variable {body : Body} {tgt : BasicBlock} {result : List (List BasicBlock)} {n : Nat}

/-- The predecessors found so far of every block: how often a block is among them is given. -/
structure Counts (n : Nat) (count : BasicBlock → BasicBlock → Nat)
    (result : List (List BasicBlock)) : Prop where
  length : result.length = n
  count : ∀ (d : BasicBlock) (preds : List BasicBlock), result[d]? = some preds →
    ∀ bb, preds.count bb = count d bb

variable {count : BasicBlock → BasicBlock → Nat}

theorem pushPredecessor_spec (bb : BasicBlock) (h : Counts n count result) (htgt : tgt < n) :
    ∃ result', pushPredecessor bb result tgt = .ok result' ∧
      Counts n (fun d b => count d b + if d = tgt ∧ b = bb then 1 else 0) result' := by
  obtain ⟨preds, hpreds⟩ := exists_getElem? (h.length.symm ▸ htgt)
  refine ⟨result.set tgt (preds ++ [bb]), ?_, by simp [h.length], fun d ps hd b => ?_⟩
  · rw [pushPredecessor, get_eq hpreds, ok_bind, set_eq (lt_length hpreds)]
  · rw [getElem?_set] at hd
    split at hd
    · rename_i heq
      subst heq
      rw [if_pos (lt_length hpreds)] at hd
      cases hd
      have hcount := h.count tgt preds hpreds b
      simp only [count_append, hcount, count_singleton, true_and, beq_iff_eq]
      simp only [eq_comm]
    · rename_i hne
      have hfalse : ¬ (d = tgt ∧ b = bb) := fun heq => hne heq.1.symm
      rw [if_neg hfalse, add_zero]
      exact h.count d ps hd b

theorem pushPredecessors_spec (bb : BasicBlock)
    {succs : List BasicBlock} (h : Counts n count result) (hsuccs : ∀ t ∈ succs, t < n) :
    ∃ result', succs.foldlM (pushPredecessor bb) result = .ok result' ∧
      Counts n (fun d b => count d b + if b = bb then succs.count d else 0) result' := by
  have hstart : Counts n (fun d b => count d b + if b = bb then [].count d else 0) result := by
    simpa using h
  refine foldlM_start (P := fun pre => Counts n fun d b =>
    count d b + if b = bb then pre.count d else 0) hstart fun pre x post s hl hs => ?_
  obtain ⟨s', hrun, hs'⟩ := pushPredecessor_spec bb hs (hsuccs x (by rw [hl]; simp))
  refine ⟨s', hrun, hs'.length, fun d preds hd b => (hs'.count d preds hd b).trans ?_⟩
  by_cases hb : b = bb
  · by_cases hd : d = x
    · simp [hb, hd, add_assoc]
    · simp [hb, hd, Ne.symm hd]
  · simp [hb]

theorem zipIdx_split {pre post : List (BasicBlockData × BasicBlock)}
    {x : BasicBlockData × BasicBlock} (h : body.basicBlocks.zipIdx = pre ++ x :: post) :
    x.2 = pre.length ∧ body.basicBlocks[pre.length]? = some x.1 := by
  have hget : body.basicBlocks.zipIdx[pre.length]? = some x := by
    rw [h]
    simp
  rw [getElem?_zipIdx] at hget
  obtain ⟨data, hdata, rfl⟩ := map_eq_some_iff.1 hget
  exact ⟨zero_add _, hdata⟩

theorem calculatePredecessors_spec (h : body.WF) : ∃ preds, calculatePredecessors body = .ok preds ∧
      Counts body.basicBlocks.length (fun d bb => (body.successors bb).count d) preds := by
  have hstart : Counts body.basicBlocks.length
      (fun d bb => if bb < 0 then (body.successors bb).count d else 0)
      (replicate body.basicBlocks.length []) := by
    refine ⟨length_replicate, fun d preds hd bb => ?_⟩
    rw [getElem?_replicate] at hd
    split at hd
    · cases hd
      simp
    · cases hd
  obtain ⟨preds, hrun, hpreds⟩ := foldlM_start (P := fun pre =>
    Counts body.basicBlocks.length fun d bb =>
      if bb < pre.length then (body.successors bb).count d else 0) (f := pushPredecessors)
    (l := body.basicBlocks.zipIdx) hstart fun pre x post s hl hs => by
      obtain ⟨hx, hdata⟩ := zipIdx_split hl
      obtain ⟨term, hterm⟩ := isSome_iff_exists.1 (h.terminated x.1 (mem_of_getElem? hdata))
      have hsuccs : body.successors pre.length = term.successors := by
        simp [successors, terminatorOf, hdata, hterm]
      obtain ⟨s', hrun, hs'⟩ := pushPredecessors_spec x.2 hs
        (fun t ht => h.inRange pre.length t (hsuccs ▸ ht))
      refine ⟨s', by rw [pushPredecessors, hterm]; exact hrun, hs'.length, fun d ps hd b => ?_⟩
      rw [hs'.count d ps hd b, hx, length_append, length_singleton]
      rcases lt_trichotomy b pre.length with hlt | rfl | hgt
      · simp [hlt, Nat.lt_succ_of_lt hlt, ne_of_lt hlt]
      · simp [hsuccs]
      · simp [lt_asymm hgt, ne_of_gt hgt, Nat.not_lt.2 (Nat.succ_le_of_lt hgt)]
  refine ⟨preds, hrun, hpreds.length, fun d ps hd bb => (hpreds.count d ps hd bb).trans ?_⟩
  rw [length_zipIdx]
  split
  · rfl
  · rename_i hge
    have hnone : body.basicBlocks[bb]? = none := getElem?_eq_none (Nat.not_lt.1 hge)
    simp [successors, terminatorOf, hnone]

end

end Tortis
