import Mathlib.Data.List.Pairwise
import Mathlib.Order.Interval.Set.Basic
import Mathlib.Tactic.Common

/-!
# Sets kept as a list of intervals

A list of closed intervals of natural numbers partitions a set when none of them is empty, no two
meet and together they are the set (`Tiles`). Cutting an interval out of every one of them takes its
elements away from the set (`Tiles.cut`).
-/

namespace Tortis

open List

/-- A closed interval, given by its ends. -/
abbrev Segment := Nat × Nat

namespace Segment

def Mem (x : Nat) (i : Segment) : Prop := i.1 ≤ x ∧ x ≤ i.2

/-- What is left of the second interval without the first: nothing, a part below, a part above or
both. -/
def cut (cutter i : Segment) : List Segment :=
  if i.2 < cutter.1 ∨ cutter.2 < i.1 then [i]
  else (if i.1 < cutter.1 then [(i.1, cutter.1 - 1)] else []) ++
    if cutter.2 < i.2 then [(cutter.2 + 1, i.2)] else []

variable {cutter i : Segment}

theorem mem_cut (hc : cutter.1 ≤ cutter.2) (x : Nat) :
    (∃ p ∈ cut cutter i, Mem x p) ↔ Mem x i ∧ ¬ Mem x cutter := by
  obtain ⟨a, b⟩ := cutter
  obtain ⟨c, d⟩ := i
  simp only [cut, Mem] at *
  split <;> rename_i h
  · simp only [mem_singleton, exists_eq_left]
    omega
  · simp only [mem_append, or_and_right, exists_or]
    have hlow : (∃ p : Segment, p ∈ (if c < a then [(c, a - 1)] else []) ∧ p.1 ≤ x ∧ x ≤ p.2) ↔
        c < a ∧ c ≤ x ∧ x ≤ a - 1 := by
      split <;> simp_all
    have hhigh : (∃ p : Segment, p ∈ (if b < d then [(b + 1, d)] else []) ∧ p.1 ≤ x ∧ x ≤ p.2) ↔
        b < d ∧ b + 1 ≤ x ∧ x ≤ d := by
      split <;> simp_all
    rw [hlow, hhigh]
    omega

theorem le_of_mem_cut {cutter i p : Segment} (hi : i.1 ≤ i.2) (hp : p ∈ cut cutter i) :
    p.1 ≤ p.2 := by
  simp only [cut] at hp
  split at hp
  · rwa [mem_singleton.1 hp]
  · rcases mem_append.1 hp with hp | hp <;> split at hp <;>
      simp only [mem_singleton, not_mem_nil] at hp
    · subst hp
      omega
    · subst hp
      omega

theorem pairwise_cut (hc : cutter.1 ≤ cutter.2) :
    (cut cutter i).Pairwise fun p q => ∀ x, ¬ (Mem x p ∧ Mem x q) := by
  rw [cut]
  split
  · exact pairwise_singleton _ _
  · split <;> split <;> simp only [nil_append, append_nil,
      List.Pairwise.nil, singleton_append, pairwise_cons, mem_singleton,
      not_mem_nil, forall_eq, Mem, and_true, false_imp_iff, implies_true]
    omega

end Segment

/-- A list of intervals partitions a set. -/
structure Tiles (S : Nat → Prop) (l : List Segment) : Prop where
  le : ∀ i ∈ l, i.1 ≤ i.2
  apart : l.Pairwise fun i j => ∀ x, ¬ (Segment.Mem x i ∧ Segment.Mem x j)
  mem_iff : ∀ x, (∃ i ∈ l, Segment.Mem x i) ↔ S x

namespace Tiles

theorem nil : Tiles (fun _ => False) [] := ⟨by simp, .nil, by simp⟩

theorem singleton {i : Segment} (hi : i.1 ≤ i.2) : Tiles (fun x => Segment.Mem x i) [i] :=
  ⟨by simpa using hi, pairwise_singleton _ _, by simp⟩

variable {S T : Nat → Prop}

theorem append {l m : List Segment} (hl : Tiles S l) (hm : Tiles T m)
    (hST : ∀ x, ¬ (S x ∧ T x)) : Tiles (fun x => S x ∨ T x) (l ++ m) where
  le i hi := (mem_append.1 hi).elim (hl.le i) (hm.le i)
  apart := by
    refine pairwise_append.2 ⟨hl.apart, hm.apart, ?_⟩
    rintro i hi j hj x ⟨hxi, hxj⟩
    exact hST x ⟨(hl.mem_iff x).1 ⟨i, hi, hxi⟩, (hm.mem_iff x).1 ⟨j, hj, hxj⟩⟩
  mem_iff x := by
    rw [← hl.mem_iff x, ← hm.mem_iff x]
    simp only [mem_append, or_and_right, exists_or]

variable {l : List Segment}

theorem congr (h : Tiles S l) (hST : ∀ x, S x ↔ T x) : Tiles T l :=
  ⟨h.le, h.apart, fun x => (h.mem_iff x).trans (hST x)⟩

theorem cut {S : Nat → Prop} {cutter : Segment} (h : Tiles S l) (hc : cutter.1 ≤ cutter.2) :
    Tiles (fun x => S x ∧ ¬ Segment.Mem x cutter) (l.flatMap (Segment.cut cutter)) where
  le p hp := by
    obtain ⟨i, hi, hp⟩ := mem_flatMap.1 hp
    exact Segment.le_of_mem_cut (h.le i hi) hp
  apart := by
    refine pairwise_flatMap.2 ⟨fun i _ => Segment.pairwise_cut hc, h.apart.imp ?_⟩
    intro i j hij p hp q hq x hx
    exact hij x ⟨((Segment.mem_cut hc x).1 ⟨p, hp, hx.1⟩).1, ((Segment.mem_cut hc x).1 ⟨q, hq, hx.2⟩).1⟩
  mem_iff x := by
    rw [← h.mem_iff x]
    constructor
    · rintro ⟨p, hp, hx⟩
      obtain ⟨i, hi, hp⟩ := mem_flatMap.1 hp
      obtain ⟨hxi, hxc⟩ := (Segment.mem_cut hc x).1 ⟨p, hp, hx⟩
      exact ⟨⟨i, hi, hxi⟩, hxc⟩
    · rintro ⟨⟨i, hi, hxi⟩, hxc⟩
      obtain ⟨p, hp, hx⟩ := (Segment.mem_cut hc x).2 ⟨hxi, hxc⟩
      exact ⟨p, mem_flatMap.2 ⟨i, hi, hp⟩, hx⟩

end Tiles

end Tortis
