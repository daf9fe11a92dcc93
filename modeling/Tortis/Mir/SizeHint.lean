import Tortis.Mir.Preorder
import Mathlib.Data.Set.Card

/-!
# Size hints of the traversals

`size_hint` of the three iterators of `librustc/mir/traversal.rs`. Both bounds of `Preorder` and
`Postorder` count the blocks that are not marked as blocks still to come. A block that cannot be
reached is never yielded, and a postorder iterator marks a block when it enters it and yields it when
it leaves it. `sizeHint_iff` says for every body, root and number of calls of `next` when the blocks
that are still yielded lie between the bounds.
-/

namespace Tortis

open List Option

/-! ## The hints -/

/-- `BitSet::count` of the marks. -/
def markCount (visited : FxHashSet BasicBlock) : Nat := visited.toList.length

section
variable (body : Body)

def Preorder.sizeHint (po : Preorder) : Nat × Option Nat :=
  let upper := body.basicBlocks.length - markCount po.visited
  let lower := if po.rootIsStartBlock then upper else po.worklist.length
  (lower, some upper)

/-- `Postorder::size_hint` of an iterator with the given `root_is_start_block`. -/
def Postorder.sizeHint (rootIsStartBlock : Bool) (po : Postorder) : Nat × Option Nat :=
  let upper := body.basicBlocks.length - markCount po.visited
  let lower := if rootIsStartBlock then upper else po.visitStack.length
  (lower, some upper)

def ReversePostorder.sizeHint (po : ReversePostorder) : Nat × Option Nat := (po.idx, some po.idx)

/-- The number of items lies between the bounds of a hint. -/
def IsHint (hint : Nat × Option Nat) (items : Nat) : Prop :=
  hint.1 ≤ items ∧ ∀ upper ∈ hint.2, items ≤ upper

/-- The state of an iterator after `k` calls of `next`. -/
def afterCalls {σ : Type} (next : σ → Outcome (Option BasicBlock × σ)) : Nat → σ → Outcome σ
  | 0, s => .ok s
  | k + 1, s => do
    let (_, s) ← next s
    afterCalls next k s

/-- The blocks that can be reached from the root. -/
def reached (root : BasicBlock) : Set BasicBlock :=
  {b | Reach body.successors root b}

/-- The blocks that cannot be reached from the root. -/
def unreachedBlocks (root : BasicBlock) : Set BasicBlock :=
  {b | b < body.basicBlocks.length ∧ ¬ Reach body.successors root b}

end

/-! ## Counting blocks -/

variable {body : Body} {root : BasicBlock}

theorem afterCalls_spec {σ : Type} {next : σ → Outcome (Option BasicBlock × σ)} {P : σ → Prop}
    (hnext : ∀ s, P s → ∃ r s', next s = .ok (r, s') ∧ P s') :
    ∀ (k : Nat) (s : σ), P s → ∃ s', afterCalls next k s = .ok s' ∧ P s' := by
  intro k
  induction k with
  | zero => exact fun s hs => ⟨s, rfl, hs⟩
  | succ k ih =>
    intro s hs
    obtain ⟨r, s', hrun, hs'⟩ := hnext s hs
    obtain ⟨s'', hrun', hs''⟩ := ih s' hs'
    exact ⟨s'', by simp [afterCalls, hrun, hrun'], hs''⟩

theorem ncard_reached {l : List BasicBlock} (hnd : l.Nodup)
    (hmem : ∀ b, b ∈ l ↔ Reach body.successors root b) : (reached body root).ncard = l.length := by
  have hset : reached body root = (l.toFinset : Set BasicBlock) := by
    ext b
    simp [reached, hmem]
  rw [hset, Set.ncard_coe_finset, toFinset_card_of_nodup hnd]

theorem ncard_reached_add (h : body.WF) (hroot : root < body.basicBlocks.length) :
    (reached body root).ncard + (unreachedBlocks body root).ncard = body.basicBlocks.length := by
  have hsub : reached body root ⊆ (Finset.range body.basicBlocks.length : Set BasicBlock) := by
    intro b hb
    rw [Finset.coe_range, Set.mem_Iio]
    rcases Relation.ReflTransGen.cases_tail hb with rfl | ⟨p, -, hp⟩
    · exact hroot
    · exact h.inRange p b hp
  have hfin := Finset.finite_toSet (Finset.range body.basicBlocks.length)
  have hdiff : unreachedBlocks body root =
      (Finset.range body.basicBlocks.length : Set BasicBlock) \ reached body root := by
    ext b
    simp [unreachedBlocks, reached]
  have hle := Set.ncard_le_ncard hsub hfin
  have hcard := Set.ncard_coe_finset (Finset.range body.basicBlocks.length)
  rw [Finset.card_range] at hcard
  rw [hdiff, Set.ncard_sdiff hsub (hfin.subset hsub), hcard]
  omega

theorem ncard_unreachedBlocks_eq_zero_iff : (unreachedBlocks body root).ncard = 0 ↔
      ∀ b < body.basicBlocks.length, Reach body.successors root b := by
  have hfin : (unreachedBlocks body root).Finite :=
    (Finset.finite_toSet (Finset.range body.basicBlocks.length)).subset fun b hb => by
      simpa using hb.1
  rw [Set.ncard_eq_zero hfin, Set.eq_empty_iff_forall_notMem]
  simp only [unreachedBlocks, Set.mem_ofPred_eq, not_and, not_not]

/-! ## Preorder -/

namespace Preorder

theorem markCount_eq {w : Sweep BasicBlock} (hi : w.Inv body.successors root) :
    markCount w.visited = w.out.length := by
  have hperm : w.visited.toList.Perm w.out :=
    (perm_ext_iff_of_nodup w.visited.nodup hi.nodup).2 fun b => hi.mem_visited b
  exact hperm.length_eq

theorem isHint_iff (h : body.WF) (hroot : root < body.basicBlocks.length) (k : Nat) :
    ∃ po rest, afterCalls (next body) k (new root) = .ok po ∧
      po.collect body (body.basicBlocks.length + 1) = .ok rest ∧
      (IsHint (po.sizeHint body) rest.length ↔
        if root = START_BLOCK then ∀ b < body.basicBlocks.length, Reach body.successors root b
        else po.worklist.length + markCount po.visited ≤ (reached body root).ncard) := by
  have hkeep : ∀ po : Preorder, (∃ out, (po.sweep out).Inv body.successors root) ∧
      po.rootIsStartBlock = (root == START_BLOCK) → ∃ r po', next body po = .ok (r, po') ∧
        (∃ out, (po'.sweep out).Inv body.successors root) ∧
          po'.rootIsStartBlock = (root == START_BLOCK) := by
    rintro po ⟨⟨out, hi⟩, hstart⟩
    rcases nextFrom_spec h hroot po.rootIsStartBlock po.visited out po.worklist hi with
      ⟨hrun, hi'⟩ | ⟨bb, po', hrun, hstart', -, -, hi'⟩
    · exact ⟨none, _, hrun, ⟨out, hi'⟩, hstart⟩
    · exact ⟨some bb, po', hrun, ⟨_, hi'⟩, hstart'.trans hstart⟩
  obtain ⟨po, hrun, ⟨out, hi⟩, hstart⟩ :=
    afterCalls_spec hkeep k (new root) ⟨⟨[], Sweep.start_inv⟩, rfl⟩
  obtain ⟨rest, hrest, hpre⟩ :=
    collect_spec h hroot (body.basicBlocks.length + 1) po out hi (by omega)
  refine ⟨po, rest, hrun, hrest, ?_⟩
  have htotal : (reached body root).ncard = out.length + rest.length := by
    rw [ncard_reached hpre.nodup hpre.mem_iff, length_append]
  have hmarks : markCount po.visited = out.length := markCount_eq hi
  have hall := ncard_reached_add h hroot
  simp only [IsHint, sizeHint, hstart, mem_some_iff, forall_eq', hmarks]
  by_cases hr : root = START_BLOCK
  · rw [if_pos hr, ← ncard_unreachedBlocks_eq_zero_iff]
    simp only [hr, beq_self_eq_true, if_true] at *
    omega
  · rw [if_neg hr]
    simp only [beq_eq_false_iff_ne.2 hr, Bool.false_eq_true, if_false]
    omega

end Preorder

/-! ## Postorder -/

namespace Postorder

theorem markCount_eq {w : Walk BasicBlock} (hi : w.Inv body.successors root) :
    markCount w.visited = w.stack.length + w.out.length := by
  have hperm : w.visited.toList.Perm (w.stack.map Prod.fst ++ w.out) :=
    (perm_ext_iff_of_nodup w.visited.nodup hi.nodup).2 fun b => by
      rw [mem_append]
      exact hi.mem_visited b
  rw [markCount, hperm.length_eq, length_append, length_map]

/-- What a postorder iterator keeps between calls of `next`: it is at a walk whose top block has no
successor left and whose remaining turns are fewer than the fuel. -/
structure Resting (body : Body) (root : BasicBlock) (po : Postorder) (out : List BasicBlock) :
    Prop where
  inv : (po.walk out).Inv body.successors root
  top : ∀ e ∈ po.visitStack.head?, e.2 = []
  turns : (po.walk out).turns body.successors (blocks body) < body.traversalFuel

theorem new_resting (h : body.WF) (hroot : root < body.basicBlocks.length) :
    ∃ po, new body body.traversalFuel root = .ok po ∧ Resting body root po [] := by
  obtain ⟨data, term, hdata, hterm, hsucc⟩ := block_spec h hroot
  have hlt := turns_start_lt hroot
  obtain ⟨po, hrun, hi, hle, htop⟩ := traverseSuccessor_spec h [] body.traversalFuel
    ⟨FxHashSet.insert ∅ root, [(root, body.successors root)]⟩ Walk.start_inv hlt
  exact ⟨po, by simp [new, hdata, hterm, hsucc, hrun], hi, htop, hle.trans_lt hlt⟩

theorem Resting.next (h : body.WF) {po : Postorder} {out : List BasicBlock}
    (hr : Resting body root po out) :
    ∃ r po' out', Postorder.next body body.traversalFuel po = .ok (r, po') ∧
      Resting body root po' out' := by
  obtain ⟨visited, stack⟩ := po
  cases stack with
  | nil => exact ⟨none, ⟨visited, []⟩, out, rfl, hr⟩
  | cons e stack =>
    obtain ⟨b, iter⟩ := e
    obtain rfl : iter = [] := hr.top (b, iter) rfl
    have hs : Walk.Step body.successors ⟨visited, (b, []) :: stack, out⟩
        ⟨visited, stack, out ++ [b]⟩ := .pop
    have hlt := hs.turns_lt (successors_mem_blocks h) hr.inv
    obtain ⟨po', hrun, hi', hle, htop'⟩ := traverseSuccessor_spec h (out ++ [b])
      body.traversalFuel ⟨visited, stack⟩ (hs.inv hr.inv) (hlt.trans hr.turns)
    exact ⟨some b, po', out ++ [b], by simp [Postorder.next, hrun], hi', htop',
      hle.trans_lt (hlt.trans hr.turns)⟩

theorem isHint_iff (h : body.WF) (hroot : root < body.basicBlocks.length) (k : Nat) :
    ∃ start po rest, new body body.traversalFuel root = .ok start ∧
      afterCalls (Postorder.next body body.traversalFuel) k start = .ok po ∧
      po.collect body body.traversalFuel body.traversalFuel = .ok rest ∧
      (IsHint (po.sizeHint body (root == START_BLOCK)) rest.length ↔
        po.visitStack.length ≤ (unreachedBlocks body root).ncard ∧
          (root = START_BLOCK → po.visitStack.length = (unreachedBlocks body root).ncard)) := by
  obtain ⟨start, hnew, hstart⟩ := new_resting h hroot
  have hkeep : ∀ po : Postorder, (∃ out, Resting body root po out) → ∃ r po',
      Postorder.next body body.traversalFuel po = .ok (r, po') ∧
        ∃ out, Resting body root po' out := by
    rintro po ⟨out, hr⟩
    obtain ⟨r, po', out', hrun, hr'⟩ := hr.next h
    exact ⟨r, po', hrun, out', hr'⟩
  obtain ⟨po, hrun, out, hr⟩ := afterCalls_spec hkeep k start ⟨[], hstart⟩
  obtain ⟨rest, hrest, hpost⟩ := collect_spec h body.traversalFuel body.traversalFuel po out hr.inv
    hr.top hr.turns hr.turns
  refine ⟨start, po, rest, hnew, hrun, hrest, ?_⟩
  have htotal : (reached body root).ncard = out.length + rest.length := by
    rw [ncard_reached hpost.nodup hpost.mem_iff, length_append]
  have hmarks : markCount po.visited = po.visitStack.length + out.length := markCount_eq hr.inv
  have hstack : po.visitStack.length ≤ rest.length := by
    have hsub : ∀ b ∈ po.visitStack.map Prod.fst ++ out, b ∈ out ++ rest := by
      intro b hb
      refine (hpost.mem_iff b).2 ?_
      have := hr.inv.reach b ((hr.inv.mem_visited b).2 (mem_append.1 hb))
      exact Relation.ReflTransGen.mono (fun _ _ => And.left) _ _ this
    have hle := hr.inv.nodup.length_le_of_subset hsub
    simp only [walk, length_append, length_map] at hle
    omega
  have hall := ncard_reached_add h hroot
  simp only [IsHint, sizeHint, mem_some_iff, forall_eq', hmarks]
  by_cases hs : root = START_BLOCK
  · simp only [hs, beq_self_eq_true, if_true, true_imp_iff] at *
    omega
  · simp only [hs, beq_eq_false_iff_ne.2 hs, Bool.false_eq_true, if_false, false_imp_iff, and_true]
    omega

end Postorder

/-! ## Reverse postorder -/

theorem ReversePostorder.isHint (h : body.WF) (hroot : root < body.basicBlocks.length) (k : Nat) :
    ∃ start po rest, new body root = .ok start ∧ afterCalls (next body) k start = .ok po ∧
      po.collect body (body.basicBlocks.length + 1) = .ok rest ∧ IsHint po.sizeHint rest.length := by
  obtain ⟨out, hnew, hpost, hlt, -⟩ := collect_new h hroot
  have hlen := length_le_of_lt hpost.nodup hlt
  have hkeep : ∀ po : ReversePostorder, po.blocks = out ∧ po.idx ≤ out.length →
      ∃ r po', next body po = .ok (r, po') ∧ po'.blocks = out ∧ po'.idx ≤ out.length := by
    rintro ⟨blocks, idx⟩ ⟨rfl, hidx⟩
    cases idx with
    | zero => exact ⟨none, _, rfl, rfl, hidx⟩
    | succ idx => exact ⟨_, _, next_spec hlt hidx, rfl, Nat.le_of_succ_le hidx⟩
  obtain ⟨⟨blocks, idx⟩, hrun, rfl, hidx⟩ := afterCalls_spec hkeep k ⟨out, out.length⟩ ⟨rfl, le_rfl⟩
  refine ⟨_, _, _, hnew, hrun, collect_eq hlt idx _ hidx (Nat.lt_succ_of_le (hidx.trans hlen)), ?_⟩
  simp [IsHint, sizeHint, length_take, min_eq_left hidx]

/-! ## All three -/

/-- On a well-formed body, from every root and after any number of calls of `next`: the hint of an
iterator in reverse postorder is right. The hint of a preorder iterator is right, from the start
block, exactly when every block can be reached, and from another root exactly when the worklist and
the marks are together no more than the blocks that can be reached. The hint of a postorder iterator
is right exactly when its stack is no longer than there are blocks that cannot be reached and, from
the start block, as long. -/
theorem sizeHint_iff (h : body.WF) (hroot : root < body.basicBlocks.length) (k : Nat) :
    (∃ start po rest, ReversePostorder.new body root = .ok start ∧
      afterCalls (ReversePostorder.next body) k start = .ok po ∧
      po.collect body (body.basicBlocks.length + 1) = .ok rest ∧
      IsHint po.sizeHint rest.length) ∧
    (∃ po rest, afterCalls (Preorder.next body) k (Preorder.new root) = .ok po ∧
      po.collect body (body.basicBlocks.length + 1) = .ok rest ∧
      (IsHint (po.sizeHint body) rest.length ↔
        if root = START_BLOCK then ∀ b < body.basicBlocks.length, Reach body.successors root b
        else po.worklist.length + markCount po.visited ≤ (reached body root).ncard)) ∧
    ∃ start po rest, Postorder.new body body.traversalFuel root = .ok start ∧
      afterCalls (Postorder.next body body.traversalFuel) k start = .ok po ∧
      po.collect body body.traversalFuel body.traversalFuel = .ok rest ∧
      (IsHint (po.sizeHint body (root == START_BLOCK)) rest.length ↔
        po.visitStack.length ≤ (unreachedBlocks body root).ncard ∧
          (root = START_BLOCK → po.visitStack.length = (unreachedBlocks body root).ncard)) :=
  ⟨ReversePostorder.isHint h hroot k, Preorder.isHint_iff h hroot k, Postorder.isHint_iff h hroot k⟩

/-- A body of one block. -/
def returning : Body := ⟨[⟨[], some .ret, false⟩], [], 0⟩

theorem returning_wf : returning.WF := Body.wf_of_blocks (by decide) (by decide)

/-- In its body the postorder iterator has marked the block it is yet to yield. -/
theorem sizeHint_returning :
    ∃ po, Postorder.new returning returning.traversalFuel START_BLOCK = .ok po ∧
      po.collect returning returning.traversalFuel returning.traversalFuel = .ok [START_BLOCK] ∧
      po.sizeHint returning true = (0, some 0) ∧
      ¬ IsHint (po.sizeHint returning true) [START_BLOCK].length := by
  refine ⟨_, rfl, rfl, rfl, ?_⟩
  rintro ⟨-, hle⟩
  exact absurd (hle 0 rfl) (by decide)

/-- After one call on the example the preorder iterator is at a state with a right hint exactly when
every block can be reached. -/
theorem sizeHint_iff_returning :
    ∃ po rest, afterCalls (Preorder.next returning) 1 (Preorder.new START_BLOCK) = .ok po ∧
      po.collect returning 2 = .ok rest ∧ (IsHint (po.sizeHint returning) rest.length ↔
        ∀ b < 1, Reach returning.successors START_BLOCK b) := by
  obtain ⟨-, ⟨po, rest, hrun, hrest, hiff⟩, -⟩ := sizeHint_iff returning_wf returning_wf.start 1
  exact ⟨po, rest, hrun, hrest, by rwa [if_pos rfl] at hiff⟩

end Tortis
