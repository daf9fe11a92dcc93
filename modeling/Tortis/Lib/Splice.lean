import Mathlib.Data.List.Basic
import Mathlib.Algebra.Ring.Nat

/-!
# Insertions into a list

`splice adds l i` is the list `l`, whose first element has the place `i`, with the elements that
`adds` asks for in front of each place, and at the end. An element that is added behind those of its
place is inserted behind all that stands before it (`splice_insert`), so insertions in the order of
their places, each one moved by those before, make the splice.
-/

namespace Tortis

open List Bool Function

section
variable {α : Type}

/-- The list with the elements that are added in front of each place and at the end. -/
def splice (adds : Nat → List α) : List α → Nat → List α
  | [], i => adds i
  | a :: l, i => adds i ++ a :: splice adds l (i + 1)

variable {adds : Nat → List α}

theorem splice_nil (h : ∀ i, adds i = []) : ∀ (l : List α) (i : Nat), splice adds l i = l
  | [], i => h i
  | a :: l, i => by rw [splice, h i, splice_nil h l, nil_append]

theorem splice_congr {adds adds' : Nat → List α} :
    ∀ (l : List α) (i : Nat), (∀ j, i ≤ j → adds j = adds' j) → splice adds l i = splice adds' l i
  | [], i, h => h i (le_refl i)
  | a :: l, i, h => by
    rw [splice, splice, h i (le_refl i), splice_congr l (i + 1) fun j hj =>
      h j (Nat.le_of_succ_le hj)]

theorem insertIdx_append (l l' : List α) (k : Nat) (s : α) :
    (l ++ l').insertIdx (l.length + k) s = l ++ l'.insertIdx k s := by
  induction l with
  | nil => rw [nil_append, length_nil, zero_add, nil_append]
  | cons a l ih =>
    rw [cons_append, length_cons, Nat.add_right_comm, insertIdx_succ_cons, ih, cons_append]

section
variable (adds : Nat → List α)

/-- The number of elements that are added at the places from `i` to `k`. -/
def addedUpTo (i k : Nat) : Nat :=
  ((range' i (k + 1 - i)).map fun j => (adds j).length).sum

theorem addedUpTo_self (i : Nat) : addedUpTo adds i i = (adds i).length := by
  rw [addedUpTo, Nat.add_sub_cancel_left]
  exact add_zero _

theorem addedUpTo_succ {i k : Nat} (h : i < k) :
    addedUpTo adds i k = (adds i).length + addedUpTo adds (i + 1) k := by
  obtain ⟨m, hm⟩ : ∃ m, k + 1 - i = m + 1 := ⟨k - i, by omega⟩
  rw [addedUpTo, addedUpTo, hm, show k + 1 - (i + 1) = m by omega, range'_succ]
  rfl

end

variable {k : Nat}

theorem splice_insert (s : α) : ∀ (l : List α) (i : Nat), i ≤ k → k ≤ i + l.length →
      (splice adds l i).insertIdx (k - i + addedUpTo adds i k) s =
        splice (update adds k (adds k ++ [s])) l i
  | [], i, hik, hk => by
    obtain rfl : i = k := le_antisymm hik hk
    rw [Nat.sub_self, addedUpTo_self, zero_add, splice, splice, update_self, insertIdx_length_self]
  | a :: l, i, hik, hk => by
    rw [splice, splice]
    obtain hlt | rfl := lt_or_eq_of_le hik
    · have hplace : k - i + addedUpTo adds i k =
          (adds i).length + (k - (i + 1) + addedUpTo adds (i + 1) k + 1) := by
        rw [addedUpTo_succ adds hlt]
        omega
      rw [length_cons] at hk
      rw [hplace, insertIdx_append, insertIdx_succ_cons, splice_insert s l (i + 1) hlt (by omega),
        update_of_ne (ne_of_lt hlt)]
    · rw [Nat.sub_self, addedUpTo_self, zero_add, update_self,
        splice_congr l (i + 1) fun j hj => update_of_ne (ne_of_gt hj) _ adds]
      have := insertIdx_append (adds i) (a :: splice adds l (i + 1)) 0 s
      rw [insertIdx_zero, Nat.add_zero (adds i).length] at this
      rw [this, append_assoc, singleton_append]

/-! ## Elements with their places -/

/-- The elements of a list that have a place, in its order. -/
def atPlace (adds : List (Nat × α)) (i : Nat) : List α := (adds.filter (·.1 == i)).map Prod.snd

theorem atPlace_concat (adds : List (Nat × α)) (k : Nat) (s : α) :
    atPlace (adds ++ [(k, s)]) = update (atPlace adds) k (atPlace adds k ++ [s]) := by
  funext j
  rw [update_apply]
  split
  · next h =>
    subst h
    simp [atPlace]
  · next h =>
    simp [atPlace, Ne.symm h]

theorem addedUpTo_atPlace (adds : List (Nat × α)) : ∀ {m i : Nat}, i + m = k →
      addedUpTo (atPlace adds) i k = adds.countP fun x => i ≤ x.1 && x.1 ≤ k
  | 0, i, h => by
    obtain rfl : i = k := h
    rw [addedUpTo_self, atPlace, length_map, ← countP_eq_length_filter]
    refine countP_congr fun x _ => ?_
    simp only [beq_iff_eq, and_eq_true, decide_eq_true_eq]
    omega
  | m + 1, i, h => by
    rw [addedUpTo_succ _ (by omega), addedUpTo_atPlace adds (show i + 1 + m = k by omega), atPlace,
      length_map, ← countP_eq_length_filter]
    induction adds with
    | nil => rfl
    | cons x adds ih =>
      simp only [countP_cons, beq_iff_eq, and_eq_true, decide_eq_true_eq] at ih ⊢
      split <;> split <;> split <;> omega

variable {adds : List (Nat × α)} {l : List α}

theorem splice_concat (hk : k ≤ l.length)
    (h : ∀ x ∈ adds, x.1 ≤ k) (s : α) : (splice (atPlace adds) l 0).insertIdx (k + adds.length) s =
      splice (atPlace (adds ++ [(k, s)])) l 0 := by
  have hcount : addedUpTo (atPlace adds) 0 k = adds.length := by
    rw [addedUpTo_atPlace adds (zero_add k), countP_eq_length]
    intro x hx
    simpa using h x hx
  rw [atPlace_concat, ← splice_insert s l 0 (Nat.zero_le k) (by omega), hcount, Nat.sub_zero]

theorem length_splice (adds : Nat → List α) :
    ∀ (l : List α) (i : Nat), (splice adds l i).length = l.length + addedUpTo adds i (i + l.length)
  | [], i => by
    rw [splice, length_nil, add_zero, addedUpTo_self, zero_add]
  | a :: l, i => by
    rw [splice, length_append, length_cons, length_splice adds l (i + 1), length_cons,
      addedUpTo_succ adds (show i < i + (l.length + 1) by omega),
      show i + 1 + l.length = i + (l.length + 1) by omega]
    omega

theorem length_splice_atPlace (h : ∀ x ∈ adds, x.1 ≤ l.length) :
    (splice (atPlace adds) l 0).length = l.length + adds.length := by
  rw [length_splice, addedUpTo_atPlace adds rfl, countP_eq_length.2 fun x hx => by
    simpa using h x hx]

/-! ## Stable sorting -/

theorem filter_mergeSort {le : α → α → Bool} (htrans : ∀ a b c, le a b → le b c → le a c)
    (htotal : ∀ a b, le a b || le b a) {p : α → Bool} (hp : ∀ a b, p a → p b → le a b) (l : List α) :
    (l.mergeSort le).filter p = l.filter p := by
  have hsorted : (l.filter p).Pairwise fun a b => le a b :=
    pairwise_of_forall_mem_list fun a ha b hb =>
      hp a b (mem_filter.1 ha).2 (mem_filter.1 hb).2
  have hsub : (l.filter p).Sublist (l.mergeSort le) :=
    sublist_mergeSort htrans htotal hsorted filter_sublist
  have hsub' : (l.filter p).Sublist ((l.mergeSort le).filter p) := by
    have := hsub.filter p
    rwa [filter_filter, show (fun a => p a && p a) = p by funext a; exact and_self _] at this
  exact (hsub'.eq_of_length ((mergeSort_perm l le).filter p).length_eq.symm).symm

end

end Tortis
