import Mathlib.Data.List.Basic
import Mathlib.Order.Basic

/-!
# Places in a filtered list

`rank p l i` is the number of elements before the place `i` that satisfy `p`: the place that the
element at `i` has in `l.filter p` when it satisfies `p`. Filtering keeps the order
(`rank_lt_rank`), and each place of the filtered list is the rank of one place
(`exists_of_filter`).
-/

namespace Tortis

open List Bool

variable {α : Type} {p : α → Bool} {l : List α} {a b : α} {i j : Nat}

/-- The number of elements before a place that satisfy a predicate. -/
def rank (p : α → Bool) (l : List α) (i : Nat) : Nat := (l.take i).countP p

section
variable (h : l[i]? = some a)
include h

theorem take_succ_of_getElem? : l.take (i + 1) = l.take i ++ [a] := by
  rw [take_add_one, h]
  rfl

theorem rank_succ : rank p l (i + 1) = rank p l i + if p a then 1 else 0 := by
  rw [rank, take_succ_of_getElem? h, countP_append, countP_singleton, rank]

theorem filter_take_succ :
    (l.take (i + 1)).filter p = (l.take i).filter p ++ if p a then [a] else [] := by
  rw [take_succ_of_getElem? h, filter_append]
  congr 1
  cases hp : p a <;> simp [hp]

theorem filter_take_skip (ha : p a = false) : (l.take (i + 1)).filter p = (l.take i).filter p := by
  rw [filter_take_succ h, ha, if_neg Bool.false_ne_true, append_nil]

end

theorem length_filter_take (p : α → Bool) (l : List α) (i : Nat) :
    ((l.take i).filter p).length = rank p l i :=
  countP_eq_length_filter.symm

theorem rank_le (p : α → Bool) (l : List α) (i : Nat) : rank p l i ≤ i :=
  Nat.le_trans countP_le_length (length_take_le i l)

theorem rank_mono (h : i ≤ j) : rank p l i ≤ rank p l j :=
  ((take_prefix_take_left h).sublist).countP_le

theorem filter_getElem?_rank (h : l[i]? = some a) (ha : p a = true) :
    (l.filter p)[rank p l i]? = some a := by
  have hsplit : l = l.take i ++ a :: l.drop (i + 1) := by
    obtain ⟨hi, rfl⟩ := List.getElem?_eq_some_iff.1 h
    rw [← List.drop_eq_getElem_cons, List.take_append_drop]
  rw [congrArg (List.filter p) hsplit, filter_append, filter_cons_of_pos ha,
    ← length_filter_take, getElem?_append_right (Nat.le_refl _), Nat.sub_self]
  rfl

theorem exists_of_filter : ∀ {l : List α} {j : Nat}, (l.filter p)[j]? = some a →
    ∃ i, l[i]? = some a ∧ p a = true ∧ rank p l i = j
  | [], _, h => by cases h
  | b :: l, j, h => by
    cases hb : p b with
    | false =>
      rw [filter_cons_of_neg (by rw [hb]; exact false_ne_true)] at h
      obtain ⟨i, hi, ha, hrank⟩ := exists_of_filter h
      refine ⟨i + 1, hi, ha, ?_⟩
      rw [rank, take_succ_cons, countP_cons_of_neg (by rw [hb]; exact false_ne_true)]
      exact hrank
    | true =>
      rw [filter_cons_of_pos hb] at h
      cases j with
      | zero =>
        obtain rfl := Option.some.inj h
        exact ⟨0, rfl, hb, rfl⟩
      | succ j =>
        obtain ⟨i, hi, ha, hrank⟩ := exists_of_filter (l := l) (j := j) h
        refine ⟨i + 1, hi, ha, ?_⟩
        rw [rank, take_succ_cons, countP_cons_of_pos hb]
        exact congrArg (· + 1) hrank

theorem rank_lt_rank (h : l[i]? = some a) (ha : p a = true) (hij : i < j) :
    rank p l i < rank p l j := by
  have hsucc := @rank_succ _ p l a i h
  rw [if_pos ha] at hsucc
  have := @rank_mono _ p l (i + 1) j hij
  omega

theorem rank_inj (hi : l[i]? = some a) (ha : p a = true) (hj : l[j]? = some b) (hb : p b = true)
    (h : rank p l i = rank p l j) : i = j := by
  rcases Nat.lt_trichotomy i j with hlt | heq | hgt
  · exact absurd h (Nat.ne_of_lt (rank_lt_rank hi ha hlt))
  · exact heq
  · exact absurd h.symm (Nat.ne_of_lt (rank_lt_rank hj hb hgt))

theorem rank_eq_self (h : ∀ a ∈ l, p a = true) (hi : i ≤ l.length) : rank p l i = i := by
  rw [rank, countP_eq_length.2 fun a ha => h a (mem_of_mem_take ha), length_take_of_le hi]

end Tortis
