import Mathlib.Algebra.BigOperators.Group.List.Basic
import Mathlib.Algebra.Order.Group.Nat
import Mathlib.Algebra.Ring.Nat

/-!
# Ranges that tile a text

A text is a list whose elements have sizes, and positions count sizes. `Tiled` cuts a text into
pieces, whose ranges are listed in order, and gaps of some kind between them. So every range is that
of a piece of the text (`Tiled.exists_piece`), and the ranges do not overlap (`Tiled.pairwise`).
-/

namespace Tortis.Tiling

open List

variable {α : Type} {size : α → Nat} {Gap : List α → List α → Prop}

def width (size : α → Nat) (l : List α) : Nat := (l.map size).sum

theorem width_append (s t : List α) : width size (s ++ t) = width size s + width size t := by
  rw [width, width, width, map_append, sum_append]

theorem width_pos (hsize : ∀ a, 0 < size a) {s : List α} (hs : s ≠ []) : 0 < width size s := by
  obtain ⟨a, s, rfl⟩ := exists_cons_of_ne_nil hs
  exact Nat.add_pos_left (hsize a) _

/-- Ranges that tile a text which starts at a position. -/
inductive Tiled (size : α → Nat) (Gap : List α → List α → Prop) :
    Nat → List α → List (Nat × Nat) → Prop where
  | nil {pos : Nat} : Tiled size Gap pos [] []
  | piece {pos : Nat} {s rest : List α} {ranges : List (Nat × Nat)} (nonempty : s ≠ [])
      (tail : Tiled size Gap (pos + width size s) rest ranges) :
      Tiled size Gap pos (s ++ rest) ((pos, pos + width size s) :: ranges)
  | gap {pos : Nat} {s rest : List α} {ranges : List (Nat × Nat)} (isGap : Gap s rest)
      (tail : Tiled size Gap (pos + width size s) rest ranges) :
      Tiled size Gap pos (s ++ rest) ranges

variable {pos : Nat} {text : List α} {ranges : List (Nat × Nat)}

section
variable (h : Tiled size Gap pos text ranges)
include h

theorem Tiled.exists_piece {r : Nat × Nat} (hr : r ∈ ranges) :
    ∃ s t u, text = s ++ (t ++ u) ∧ t ≠ [] ∧ r.1 = pos + width size s ∧
      r.2 = pos + width size (s ++ t) := by
  have later : ∀ {pos : Nat} {s rest : List α} {r : Nat × Nat},
      (∃ s' t u, rest = s' ++ (t ++ u) ∧ t ≠ [] ∧ r.1 = pos + width size s + width size s' ∧
        r.2 = pos + width size s + width size (s' ++ t)) →
      ∃ s' t u, s ++ rest = s' ++ (t ++ u) ∧ t ≠ [] ∧ r.1 = pos + width size s' ∧
        r.2 = pos + width size (s' ++ t) := by
    rintro pos s rest r ⟨s', t, u, rfl, ht, hstart, hstop⟩
    refine ⟨s ++ s', t, u, (append_assoc _ _ _).symm, ht, ?_, ?_⟩
    · rw [hstart, width_append, add_assoc]
    · rw [hstop, append_assoc, width_append s (s' ++ t), add_assoc]
  induction h with
  | nil => cases hr
  | @piece pos s rest ranges hs _ ih =>
    rcases mem_cons.mp hr with rfl | hr
    · exact ⟨[], s, rest, rfl, hs, rfl, rfl⟩
    · exact later (ih hr)
  | gap _ _ ih => exact later (ih hr)

theorem Tiled.le_start {r : Nat × Nat} (hr : r ∈ ranges) : pos ≤ r.1 := by
  obtain ⟨s, -, -, -, -, hstart, -⟩ := h.exists_piece hr
  omega

theorem Tiled.pairwise : ranges.Pairwise fun r r' => r.2 ≤ r'.1 := by
  induction h with
  | nil => exact .nil
  | piece _ htail ih => exact .cons (fun r' hr' => htail.le_start hr') ih
  | gap _ _ ih => exact ih

end

end Tortis.Tiling
