import Tortis.Lib.Search

/-!
# Searches that mark a node when it is put on the stack

A node is taken off the stack and put out, and those of its successors that are not marked are
marked and put on the stack. `Step` is one turn and `Inv` what every turn keeps: a node is on the
stack or put out as often as it has been put on the stack, which is once for being marked and once
more for being the start.
-/

namespace Tortis

open List

section
variable {α : Type} [DecidableEq α]

/-- The elements of a list that are not marked, each where it occurs first. -/
def fresh (marked : Finset α) : List α → List α
  | [] => []
  | a :: l => if a ∈ marked then fresh marked l else a :: fresh (insert a marked) l

variable {marked : Finset α}

theorem fresh_of_mem {a : α} (h : a ∈ marked) (l : List α) :
    fresh marked (a :: l) = fresh marked l := if_pos h

theorem fresh_of_notMem {a : α} (h : a ∉ marked) (l : List α) :
    fresh marked (a :: l) = a :: fresh (insert a marked) l := if_neg h

theorem count_fresh : ∀ {marked : Finset α} {l : List α} {b : α},
    (fresh marked l).count b = if b ∈ l ∧ b ∉ marked then 1 else 0
  | _, [], _ => by simp [fresh]
  | marked, a :: l, b => by
    by_cases ha : a ∈ marked
    · rw [fresh_of_mem ha, count_fresh]
      by_cases hba : b = a
      · simp [hba, ha]
      · simp [hba]
    · rw [fresh_of_notMem ha, count_cons, count_fresh]
      by_cases hba : b = a
      · simp [hba, ha]
      · simp [hba, Ne.symm hba]

/-- The state of a search: the marks, the stack (next node first) and the nodes put out. -/
structure Discovery (α : Type) where
  marked : Finset α
  stack : List α
  out : List α

namespace Discovery

/-- The search that is to look at the start. -/
def start (root : α) : Discovery α := ⟨∅, [root], []⟩

/-- One turn of the search. -/
inductive Step (succ : α → List α) : Discovery α → Discovery α → Prop
  | visit {marked x stack out} : Step succ ⟨marked, x :: stack, out⟩
      ⟨marked ∪ (succ x).toFinset, (fresh marked (succ x)).reverse ++ stack, out ++ [x]⟩

/-- What the search keeps. -/
structure Inv (succ : α → List α) (root : α) (w : Discovery α) : Prop where
  count : ∀ v, (w.out ++ w.stack).count v =
    (if v = root then 1 else 0) + if v ∈ w.marked then 1 else 0
  reached : ∀ v ∈ w.marked, Relation.TransGen (fun a b => b ∈ succ a) root v
  closed : ∀ u ∈ w.out, ∀ v ∈ succ u, v ∈ w.marked

variable {succ : α → List α} {root : α}

theorem start_inv : Inv succ root (start root) := by
  constructor
  · intro v
    by_cases hv : v = root
    · simp [start, hv]
    · simp [start, hv, count_eq_zero]
  · simp [start]
  · simp [start]

variable {w w' : Discovery α} {v : α}

theorem Inv.mem_iff (h : Inv succ root w) : v ∈ w.out ++ w.stack ↔ v = root ∨ v ∈ w.marked := by
  rw [← count_pos_iff, h.count]
  split <;> split <;> simp [*]

theorem Inv.reach (h : Inv succ root w) (hv : v ∈ w.out ++ w.stack) : Reach succ root v := by
  rcases h.mem_iff.1 hv with rfl | hv
  · exact .refl
  · exact (h.reached v hv).to_reflTransGen

/-- A node comes to be on the stack or put out once more where it comes to be marked. -/
theorem Step.count (hs : Step succ w w') (v : α) :
    (w'.out ++ w'.stack).count v + (if v ∈ w.marked then 1 else 0) =
      (w.out ++ w.stack).count v + if v ∈ w'.marked then 1 else 0 := by
  obtain @⟨marked, x, stack, out⟩ := hs
  simp only [count_append, count_cons, count_nil, count_reverse,
    count_fresh, Finset.mem_union, mem_toFinset]
  by_cases hmarked : v ∈ marked <;> by_cases hsucc : v ∈ succ x <;>
    simp only [hmarked, hsucc, not_true, not_false_iff, and_true, and_false, and_self, or_true,
      or_false, if_true, if_false] <;> omega

theorem Step.inv (hs : Step succ w w') (h : Inv succ root w) : Inv succ root w' := by
  obtain @⟨marked, x, stack, out⟩ := hs
  have hx : Reach succ root x := h.reach (by simp)
  refine ⟨fun v => ?_, fun v hv => ?_, fun u hu v hv => ?_⟩
  · have hstep := Step.count (.visit : Step succ ⟨marked, x :: stack, out⟩ _) v
    have hcount := h.count v
    omega
  · rcases Finset.mem_union.1 hv with hv | hv
    · exact h.reached v hv
    · exact Relation.TransGen.tail' hx (mem_toFinset.1 hv)
  · rcases mem_append.1 hu with hu | hu
    · exact Finset.mem_union_left _ (h.closed u hu v hv)
    · rw [mem_singleton.1 hu] at hv
      exact Finset.mem_union_right _ (mem_toFinset.2 hv)

theorem Inv.mem_marked {marked : Finset α} {out : List α} (h : Inv succ root ⟨marked, [], out⟩)
    : v ∈ marked ↔ Relation.TransGen (fun a b => b ∈ succ a) root v := by
  have hout : ∀ u, u = root ∨ u ∈ marked → u ∈ out := fun u hu => by simpa using h.mem_iff.2 hu
  refine ⟨h.reached v, fun hv => ?_⟩
  induction hv with
  | single hv => exact h.closed root (hout root (.inl rfl)) _ hv
  | tail _ hv ih => exact h.closed _ (hout _ (.inr ih)) _ hv

open scoped Classical in
section
variable {out : List α} {marked : Finset α} (h : Inv succ root ⟨marked, [], out⟩)
include h

/-- When the stack is empty, a node has been put out once for being reached in one step or more, and
the start once more. -/
theorem Inv.count_out (v : α) : out.count v = (if v = root then 1 else 0) +
      if Relation.TransGen (fun a b => b ∈ succ a) root v then 1 else 0 := by
  have hcount := h.count v
  simp only [append_nil, h.mem_marked] at hcount
  rw [hcount]

theorem Inv.mem_out {v : α} : v ∈ out ↔ Reach succ root v := by
  rw [Reach, Relation.reflTransGen_iff_eq_or_transGen, ← h.mem_marked]
  simpa using h.mem_iff (v := v)

theorem Inv.nodup_iff : out.Nodup ↔ ¬ Relation.TransGen (fun a b => b ∈ succ a) root root := by
  rw [nodup_iff_count_le_one]
  constructor
  · intro hle hcycle
    have := hle root
    rw [h.count_out, if_pos rfl, if_pos hcycle] at this
    omega
  · intro hcycle v
    rw [h.count_out]
    by_cases hv : v = root
    · rw [hv, if_pos rfl, if_neg hcycle]
    · rw [if_neg hv]
      split <;> omega

end

/-! ## The length of a search -/

/-- The number of turns a search over the nodes `V` can still take. -/
def turns (V : Finset α) (w : Discovery α) : Nat := w.stack.length + (V \ w.marked).card

theorem turns_start (V : Finset α) (root : α) : (start root).turns V = 1 + V.card := by
  simp [turns, start]

theorem length_fresh : ∀ (V marked : Finset α) {l : List α}, (∀ a ∈ l, a ∈ V) →
    (fresh marked l).length + (V \ (marked ∪ l.toFinset)).card = (V \ marked).card
  | V, marked, [], _ => by simp [fresh]
  | V, marked, a :: l, hl => by
    have ih := fun m => length_fresh V m fun b hb => hl b (.tail _ hb)
    by_cases ha : a ∈ marked
    · rw [fresh_of_mem ha, ← ih marked, toFinset_cons, Finset.union_insert,
        Finset.insert_eq_of_mem (Finset.mem_union_left _ ha)]
    · rw [fresh_of_notMem ha, length_cons, toFinset_cons, Finset.union_insert,
        ← Finset.insert_union]
      have hmem : a ∈ V \ marked := Finset.mem_sdiff.2 ⟨hl a (.head _), ha⟩
      have hcard := Finset.card_erase_add_one hmem
      rw [← Finset.sdiff_insert] at hcard
      have := ih (insert a marked)
      omega

theorem Step.turns_lt {V : Finset α} (hV : ∀ u ∈ V, ∀ v ∈ succ u, v ∈ V)
    (hs : Step succ w w') (hstack : ∀ u ∈ w.stack, u ∈ V) : w'.turns V < w.turns V := by
  obtain @⟨marked, x, stack, out⟩ := hs
  have := length_fresh V marked (hV x (hstack x (.head _)))
  simp only [turns, length_append, length_reverse, length_cons]
  omega

end Discovery

end

end Tortis
