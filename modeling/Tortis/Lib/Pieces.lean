import Mathlib.Data.List.Basic

/-!
# Pieces between separators

A list is cut at the elements that satisfy `p`, and `List.splitOnP` gives all the pieces. A cut at
the first separator takes the first piece away, a cut at the last one the last piece
(`filterMap_first`, `filterMap_last`).
-/

namespace Tortis

open List Option

namespace Pieces

variable {α β : Type} (p : α → Bool) {l : List α}

def position (l : List α) : Option Nat := l.findIdx? p

def rposition (l : List α) : Option Nat := (position p l.reverse).map (l.length - 1 - ·)

variable {p}

theorem position_none (h : position p l = none) : ∀ x ∈ l, p x = false :=
  findIdx?_eq_none_iff.1 h

theorem position_some {i : Nat} (h : position p l = some i) :
    ∃ a s b, l = a ++ s :: b ∧ a.length = i ∧ p s = true ∧ ∀ x ∈ a, p x = false := by
  obtain ⟨hi, hs, hbefore⟩ := findIdx?_eq_some_iff_getElem.1 h
  refine ⟨l.take i, l[i], l.drop (i + 1), ?_, length_take_of_le (Nat.le_of_lt hi), hs, fun x hx => ?_⟩
  · rw [← drop_eq_getElem_cons hi, take_append_drop]
  · obtain ⟨j, hj, rfl⟩ := mem_iff_getElem.1 hx
    rw [length_take] at hj
    rw [getElem_take]
    exact Bool.eq_false_iff.2 (hbefore j (by omega))

theorem rposition_none (h : rposition p l = none) : ∀ x ∈ l, p x = false := fun x hx =>
  position_none (map_eq_none_iff.1 h) x (mem_reverse.2 hx)

theorem rposition_some {i : Nat} (h : rposition p l = some i) :
    ∃ a s b, l = a ++ s :: b ∧ a.length = i ∧ p s = true ∧ ∀ x ∈ b, p x = false := by
  obtain ⟨j, hj, rfl⟩ := map_eq_some_iff.1 h
  obtain ⟨b, s, a, hl, rfl, hs, hb⟩ := position_some hj
  have hl' : l = a.reverse ++ s :: b.reverse := by
    rw [← reverse_reverse l, hl]
    simp
  refine ⟨a.reverse, s, b.reverse, hl', ?_, hs, fun x hx => hb x (mem_reverse.1 hx)⟩
  rw [hl']
  simp only [length_append, length_cons, length_reverse]
  omega

section
variable (f : List α → Option β)

theorem filterMap_first {a b : List α} {s : α} (hs : p s = true) (ha : ∀ x ∈ a, p x = false) :
    ((a ++ s :: b).splitOnP p).filterMap f = (f a).toList ++ (b.splitOnP p).filterMap f := by
  rw [splitOnP_append_cons_of_forall_mem ha s hs, filterMap_cons]
  cases f a <;> rfl

theorem filterMap_last {a b : List α} {s : α} (hs : p s = true) (hb : ∀ x ∈ b, p x = false) :
    ((a ++ s :: b).splitOnP p).filterMap f = (a.splitOnP p).filterMap f ++ (f b).toList := by
  rw [splitOnP_append_cons a b hs, filterMap_append, splitOnP_eq_singleton hb, filterMap_cons]
  cases f b <;> rfl

theorem filterMap_only (hl : ∀ x ∈ l, p x = false) : (l.splitOnP p).filterMap f = (f l).toList := by
  rw [splitOnP_eq_singleton hl, filterMap_cons]
  cases f l <;> rfl

end

theorem forall_of_mem_splitOnP : ∀ {l a : List α}, a ∈ l.splitOnP p → ∀ x ∈ a, p x = false
  | [], a, ha => by simp_all
  | y :: l, a, ha => by
    obtain ⟨b, bs, hb⟩ := exists_cons_of_ne_nil (splitOnP_ne_nil p l)
    have ih := fun a => @forall_of_mem_splitOnP l a
    rw [splitOnP_cons_eq_if_modifyHead] at ha
    rw [hb] at ha ih
    split at ha
    · rcases mem_cons.1 ha with rfl | ha
      · simp
      · exact ih a ha
    · next hy =>
      rcases mem_cons.1 ha with rfl | ha
      · exact forall_mem_cons.2 ⟨Bool.eq_false_iff.2 hy, ih b mem_cons_self⟩
      · exact ih a (mem_cons_of_mem _ ha)

theorem length_splitOnP_le : ∀ l : List α, (l.splitOnP p).length ≤ l.length + 1
  | [] => by simp
  | y :: l => by
    have ih := length_splitOnP_le l
    rw [splitOnP_cons_eq_if_modifyHead]
    split <;> simp <;> omega

theorem head?_splitOnP {a : List α} (ha : ∀ x ∈ a, p x = false) :
    (l.splitOnP p).head? = some a ↔ l = a ∨ ∃ s b, l = a ++ s :: b ∧ p s = true := by
  constructor
  · intro h
    cases hpos : position p l with
    | none =>
      rw [splitOnP_eq_singleton (position_none hpos)] at h
      exact .inl (some.inj h)
    | some i =>
      obtain ⟨a', s, b, rfl, -, hs, ha'⟩ := position_some hpos
      rw [splitOnP_append_cons_of_forall_mem ha' s hs] at h
      obtain rfl := some.inj h
      exact .inr ⟨s, b, rfl, hs⟩
  · rintro (rfl | ⟨s, b, rfl, hs⟩)
    · rw [splitOnP_eq_singleton ha, head?_cons]
    · rw [splitOnP_append_cons_of_forall_mem ha s hs, head?_cons]

end Pieces

end Tortis
