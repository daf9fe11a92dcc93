import Tortis.Collections.BinaryHeap
import Mathlib.Data.Multiset.AddSub

/-!
# The binary heap is a priority queue

A priority queue is a multiset of elements (`Answers`). A program holds any number of heaps and
calls their functions in any order (`Command`); each call does and answers what the priority queue
does, and the heaps stay in order (`heaps_are_queues`).
-/

namespace Tortis.Collections

open Outcome BinaryHeap Function

variable {α : Type}

/-- A call of a program whose heaps are numbered. -/
inductive Command (α : Type) where
  | fromVec (h : Nat) (vec : List α)
  | push (h : Nat) (item : α)
  | peek (h : Nat)
  | pop (h : Nat)
  | append (h other : Nat) (hne : h ≠ other)
  /-- `drain_sorted`, dropped after `k` elements. -/
  | drainSorted (h k : Nat)
  /-- `peek_mut`, a change of the root, and the guard dropped. -/
  | peekMut (h : Nat) (change : α → α)
  /-- `peek_mut`, a change of the root, and `PeekMut::pop`. -/
  | peekMutPop (h : Nat) (change : α → α)
  /-- `into_sorted_vec`, which leaves a new heap in the place. -/
  | intoSortedVec (h : Nat)

/-- What a call returns. -/
inductive Reply (α : Type) where
  | unit
  | item (item : Option α)
  | items (items : List α)

/-! ## Priority queues -/

section
variable [Preorder α]

/-- A maximum of a queue, if there is one, and what is left without it. -/
inductive Takes (q : Multiset α) : Option α → Multiset α → Prop where
  | none : q = 0 → Takes q none 0
  | some {item : α} {rest : Multiset α} : q = item ::ₘ rest → (∀ a ∈ q, a ≤ item) →
    Takes q (some item) rest

/-- What a call does with the queues, and what it answers. -/
inductive Answers (qs : Nat → Multiset α) : Command α → Reply α → (Nat → Multiset α) → Prop where
  | fromVec {h vec} : Answers qs (.fromVec h vec) .unit (update qs h vec)
  | push {h item} : Answers qs (.push h item) .unit (update qs h (item ::ₘ qs h))
  | peek {h item rest} : Takes (qs h) item rest → Answers qs (.peek h) (.item item) qs
  | pop {h item rest} : Takes (qs h) item rest →
    Answers qs (.pop h) (.item item) (update qs h rest)
  | append {h other hne} : Answers qs (.append h other hne) .unit
    (update (update qs h (qs h + qs other)) other 0)
  | drainSorted {h k} {items : List α} {rest : Multiset α} : items + rest = qs h →
    items.length = min k (qs h).card → items.Pairwise (· ≥ ·) → (∀ a ∈ items, ∀ b ∈ rest, b ≤ a) →
    Answers qs (.drainSorted h k) (.items items) (update qs h 0)
  | peekMut {h change root rest} : Takes (qs h) (some root) rest →
    Answers qs (.peekMut h change) .unit (update qs h (change root ::ₘ rest))
  | peekMutNone {h change} : Takes (qs h) none 0 → Answers qs (.peekMut h change) .unit qs
  | peekMutPop {h change root rest} : Takes (qs h) root rest →
    Answers qs (.peekMutPop h change) (.item (root.map change)) (update qs h rest)
  | intoSortedVec {h} {items : List α} : items = qs h → items.Pairwise (· ≤ ·) →
    Answers qs (.intoSortedVec h) (.items items) (update qs h 0)

inductive AnswersAll : (Nat → Multiset α) → List (Command α) → List (Reply α) →
    (Nat → Multiset α) → Prop where
  | nil {qs} : AnswersAll qs [] [] qs
  | cons {qs qs₁ qs' command commands reply replies} : Answers qs command reply qs₁ →
    AnswersAll qs₁ commands replies qs' →
    AnswersAll qs (command :: commands) (reply :: replies) qs'

end

/-! ## Programs -/

section
variable [Preorder α] [DecidableLE α] [DecidableLT α]

def step (heaps : Nat → BinaryHeap α) :
    Command α → Outcome (Reply α × (Nat → BinaryHeap α))
  | .fromVec h vec => do
    let heap ← fromVec vec
    .ok (.unit, update heaps h heap)
  | .push h item => do
    let heap ← (heaps h).push item
    .ok (.unit, update heaps h heap)
  | .peek h => .ok (.item (heaps h).peek, heaps)
  | .pop h => do
    let (item, heap) ← (heaps h).pop
    .ok (.item item, update heaps h heap)
  | .append h other _ => do
    let (heap, heap') ← (heaps h).append (heaps other)
    .ok (.unit, update (update heaps h heap) other heap')
  | .drainSorted h k => do
    let (items, heap) ← (heaps h).drainSorted k
    .ok (.items items, update heaps h heap)
  | .peekMut h change => do
    let (_, heap) ← (heaps h).peekMut change
    .ok (.unit, update heaps h heap)
  | .peekMutPop h change => do
    let (item, heap) ← (heaps h).peekMutPop change
    .ok (.item item, update heaps h heap)
  | .intoSortedVec h => do
    let vec ← (heaps h).intoSortedVec
    .ok (.items vec, update heaps h .new)

def run (heaps : Nat → BinaryHeap α) :
    List (Command α) → Outcome (List (Reply α) × (Nat → BinaryHeap α))
  | [] => .ok ([], heaps)
  | command :: commands => do
    let (reply, heaps) ← step heaps command
    let (replies, heaps) ← run heaps commands
    .ok (reply :: replies, heaps)

/-! ## The refinement -/

def BinaryHeap.elements (heap : BinaryHeap α) : Multiset α := heap.data

def InOrder (heaps : Nat → BinaryHeap α) : Prop := ∀ h, IsHeap (heaps h).data

/-- The queues that the heaps stand for. -/
def queues (heaps : Nat → BinaryHeap α) : Nat → Multiset α := fun h => (heaps h).elements

variable {heaps : Nat → BinaryHeap α} {heap : BinaryHeap α} {h : Nat}

section
omit [DecidableLE α] [DecidableLT α]

theorem isHeap_new : IsHeap (BinaryHeap.new : BinaryHeap α).data :=
  fun _ _ hi => absurd hi (Nat.not_lt_zero _)

theorem InOrder.update (hs : InOrder heaps) (hheap : IsHeap heap.data) :
    InOrder (update heaps h heap) := by
  intro i
  rw [update_apply]
  split
  · exact hheap
  · exact hs i

omit [Preorder α] in
theorem queues_update (heaps : Nat → BinaryHeap α) (h : Nat) (heap : BinaryHeap α) :
    queues (update heaps h heap) = update (queues heaps) h heap.elements := by
  funext i
  rw [queues, update_apply, update_apply]
  split <;> rfl

omit [Preorder α] in
theorem BinaryHeap.elements_eq_zero : heap.elements = 0 ↔ heap.peek = none := by
  rw [elements, Multiset.coe_eq_zero, peek_eq_none]

omit [Preorder α] in
theorem isEmpty_of_peek (h : heap.peek = none) : heap.isEmpty = true := by
  rw [isEmpty, len, peek_eq_none.1 h]
  rfl

theorem takes_peek (hheap : IsHeap heap.data) :
    ∃ rest, Takes heap.elements heap.peek rest ∧ ∀ {root : α} {data : List α},
      heap.peek = some root → heap.data.Perm (root :: data) → (data : Multiset α) = rest := by
  cases hpeek : heap.peek with
  | none => exact ⟨0, .none (elements_eq_zero.2 hpeek), nofun⟩
  | some root =>
    obtain ⟨-, rest, hdata, -⟩ := set_root hheap hpeek root
    refine ⟨rest, .some ?_ fun a ha => peek_max hheap hpeek a ha, ?_⟩
    · rw [elements, hdata, Multiset.cons_coe]
    · intro root' data heq hperm
      obtain rfl := Option.some.inj heq
      rw [hdata] at hperm
      exact Multiset.coe_eq_coe.2 ((List.perm_cons _).1 hperm).symm

end

variable [Std.Total fun a b : α => a ≤ b]

theorem step_refines (hs : InOrder heaps) (command : Command α) :
    ∃ reply heaps', step heaps command = .ok (reply, heaps') ∧ InOrder heaps' ∧
      Answers (queues heaps) command reply (queues heaps') := by
  cases command with
  | fromVec h vec =>
    obtain ⟨heap, hrun, hperm, hheap⟩ := rebuild_spec ⟨vec⟩
    refine ⟨_, _, by rw [step, fromVec, hrun, ok_bind], hs.update hheap, ?_⟩
    rw [queues_update, elements, Multiset.coe_eq_coe.2 hperm]
    exact .fromVec
  | push h item =>
    obtain ⟨heap, hrun, hperm, hheap⟩ := push_spec (hs h) item
    refine ⟨_, _, by rw [step, hrun, ok_bind], hs.update hheap, ?_⟩
    rw [queues_update, elements, Multiset.coe_eq_coe.2 hperm, ← Multiset.cons_coe]
    exact .push
  | peek h =>
    obtain ⟨rest, htakes, -⟩ := takes_peek (hs h)
    exact ⟨_, heaps, rfl, hs, .peek htakes⟩
  | pop h =>
    obtain ⟨rest, htakes, hrest⟩ := takes_peek (hs h)
    cases hpeek : (heaps h).peek with
    | none =>
      have hrun := pop_nil (peek_eq_none.1 hpeek)
      rw [hpeek] at htakes
      cases htakes with
      | none hzero =>
        refine ⟨_, _, by rw [step, hrun, ok_bind], hs.update (hs h), ?_⟩
        rw [queues_update]
        refine .pop ?_
        rw [hzero]
        exact .none hzero
    | some root =>
      obtain ⟨heap, hrun, hperm, hheap⟩ := pop_spec ((hs h).from_later (Nat.zero_le 1)) hpeek
      refine ⟨_, _, by rw [step, hrun, ok_bind], hs.update hheap, ?_⟩
      rw [queues_update, elements, hrest hpeek hperm]
      exact .pop (hpeek ▸ htakes)
  | append h other hne =>
    obtain ⟨heap, hrun, hperm, hheap⟩ := append_spec (hs h) (hs other)
    refine ⟨_, _, by rw [step, hrun, ok_bind], (hs.update hheap).update isHeap_new, ?_⟩
    rw [queues_update, queues_update, elements, Multiset.coe_eq_coe.2 hperm, ← Multiset.coe_add]
    exact .append
  | drainSorted h k =>
    obtain ⟨items, rest, hrun, hperm, hlen, hsorted, hrest⟩ := drainSorted_spec k (hs h)
    refine ⟨_, _, by rw [step, hrun, ok_bind], hs.update isHeap_new, ?_⟩
    rw [queues_update]
    exact @Answers.drainSorted _ _ _ h k items rest
      ((Multiset.coe_add _ _).trans (Multiset.coe_eq_coe.2 hperm)) hlen hsorted hrest
  | peekMut h change =>
    obtain ⟨rest, htakes, hrest⟩ := takes_peek (hs h)
    cases hpeek : (heaps h).peek with
    | none =>
      rw [hpeek] at htakes
      cases htakes with
      | none hzero =>
        refine ⟨_, _, by rw [step, peekMut, if_pos (isEmpty_of_peek hpeek), ok_bind],
          hs.update (hs h), ?_⟩
        rw [update_eq_self]
        exact .peekMutNone (.none hzero)
    | some root =>
      obtain ⟨heap, data, hrun, hdata, hperm, hheap⟩ := peekMut_spec (hs h) hpeek change
      refine ⟨_, _, by rw [step, hrun, ok_bind], hs.update hheap, ?_⟩
      rw [queues_update, elements, Multiset.coe_eq_coe.2 hperm, ← Multiset.cons_coe,
        hrest hpeek (.of_eq hdata)]
      exact .peekMut (hpeek ▸ htakes)
  | peekMutPop h change =>
    obtain ⟨rest, htakes, hrest⟩ := takes_peek (hs h)
    cases hpeek : (heaps h).peek with
    | none =>
      rw [hpeek] at htakes
      cases htakes with
      | none hzero =>
        refine ⟨_, _, by rw [step, peekMutPop, if_pos (isEmpty_of_peek hpeek), ok_bind],
          hs.update (hs h), ?_⟩
        rw [queues_update]
        refine @Answers.peekMutPop _ _ _ h change none _ ?_
        rw [hzero]
        exact .none hzero
    | some root =>
      obtain ⟨heap, data, hrun, hdata, hperm, hheap⟩ := peekMutPop_spec (hs h) hpeek change
      refine ⟨_, _, by rw [step, hrun, ok_bind], hs.update hheap, ?_⟩
      rw [queues_update, elements, Multiset.coe_eq_coe.2 hperm, hrest hpeek (.of_eq hdata)]
      rw [hpeek] at htakes
      exact @Answers.peekMutPop _ _ (queues heaps) h change (some root) _ htakes
  | intoSortedVec h =>
    obtain ⟨vec, hrun, hperm, hsorted⟩ := intoSortedVec_spec (hs h)
    refine ⟨_, _, by rw [step, hrun, ok_bind], hs.update isHeap_new, ?_⟩
    rw [queues_update]
    exact .intoSortedVec (Multiset.coe_eq_coe.2 hperm) hsorted

theorem append_strategies (hs : InOrder heaps) (h other : Nat) :
    (∃ heap, rebuild ⟨(heaps h).data ++ (heaps other).data⟩ = .ok heap ∧
      IsHeap heap.data ∧ heap.elements = queues heaps h + queues heaps other) ∧
    ∃ heap, (heaps h).extend (heaps other).data = .ok heap ∧
      IsHeap heap.data ∧ heap.elements = queues heaps h + queues heaps other := by
  constructor
  · obtain ⟨heap, hrun, hperm, hheap⟩ := rebuild_spec ⟨(heaps h).data ++ (heaps other).data⟩
    exact ⟨heap, hrun, hheap, (Multiset.coe_eq_coe.2 hperm).trans (Multiset.coe_add _ _).symm⟩
  · obtain ⟨heap, hrun, hperm, hheap⟩ := extend_spec (heaps other).data (hs h)
    exact ⟨heap, hrun, hheap, (Multiset.coe_eq_coe.2 hperm).trans (Multiset.coe_add _ _).symm⟩

theorem run_of_inOrder : ∀ (commands : List (Command α)) {heaps : Nat → BinaryHeap α},
    InOrder heaps → ∃ replies heaps', run heaps commands = .ok (replies, heaps') ∧
      InOrder heaps' ∧ AnswersAll (queues heaps) commands replies (queues heaps')
  | [], heaps, hs => ⟨[], heaps, rfl, hs, .nil⟩
  | command :: commands, heaps, hs => by
    obtain ⟨reply, heaps1, hstep, hs1, hanswers⟩ := step_refines hs command
    obtain ⟨replies, heaps', hrun, hs', hall⟩ := run_of_inOrder commands hs1
    refine ⟨reply :: replies, heaps', ?_, hs', .cons hanswers hall⟩
    rw [run, hstep, ok_bind]
    dsimp only
    rw [hrun, ok_bind]

/-- Every program of calls returns, and its heaps are priority queues. -/
theorem heaps_are_queues (commands : List (Command α)) :
    ∃ replies heaps, run (fun _ => .new) commands = .ok (replies, heaps) ∧
      AnswersAll (fun _ => 0) commands replies (queues heaps) ∧
      (∀ h, IsHeap (heaps h).data) ∧ ∀ h other,
        (∃ heap, rebuild ⟨(heaps h).data ++ (heaps other).data⟩ = .ok heap ∧
          IsHeap heap.data ∧ heap.elements = queues heaps h + queues heaps other) ∧
        ∃ heap, (heaps h).extend (heaps other).data = .ok heap ∧
          IsHeap heap.data ∧ heap.elements = queues heaps h + queues heaps other := by
  obtain ⟨replies, heaps, hrun, hs, hall⟩ := run_of_inOrder commands
    (fun _ => isHeap_new : InOrder fun _ => (.new : BinaryHeap α))
  exact ⟨replies, heaps, hrun, hall, hs, append_strategies hs⟩

end

def exampleCalls : List (Command Nat) :=
  [.fromVec 0 [3, 1, 2], .push 0 5, .fromVec 1 [4, 6], .append 0 1 (by decide), .pop 0,
    .peekMut 0 (fun _ => 0), .peekMutPop 0 (· + 1), .drainSorted 0 2, .fromVec 0 [2, 1],
    .intoSortedVec 0]

theorem heaps_are_queues_example : ∃ replies heaps, run (fun _ => .new) exampleCalls =
      .ok (replies, heaps) ∧ AnswersAll (fun _ => 0) exampleCalls replies (queues heaps) ∧
      (∀ h, IsHeap (heaps h).data) ∧ ∀ h other,
        (∃ heap, rebuild ⟨(heaps h).data ++ (heaps other).data⟩ = .ok heap ∧
          IsHeap heap.data ∧ heap.elements = queues heaps h + queues heaps other) ∧
        ∃ heap, (heaps h).extend (heaps other).data = .ok heap ∧
          IsHeap heap.data ∧ heap.elements = queues heaps h + queues heaps other :=
  heaps_are_queues exampleCalls

end Tortis.Collections
