import Mathlib.Algebra.BigOperators.Group.List.Basic
import Mathlib.Algebra.Order.Ring.Int

/-!
# When a running total comes to zero

Every element of a list has a weight. A total that starts at `d` either comes to zero after some
part of the list, and `Returns` says after which part it does so first, or it never does (`Never`).
Both are read off the list from its front (`returns_cons`, `never_cons`).
-/

namespace Tortis.RunningTotal

open List

variable {α : Type} {w : α → Int} {d : Int} {a : α} {l : List α}

/-- The sum of the weights. -/
def total (w : α → Int) (l : List α) : Int := (l.map w).sum

@[simp] theorem total_nil : total w [] = 0 := rfl

@[simp] theorem total_cons : total w (a :: l) = w a + total w l := by
  rw [total, total, map_cons, sum_cons]

/-- The total that starts at `d` comes to zero with the end of the list, and not before. -/
structure Returns (w : α → Int) (d : Int) (l : List α) : Prop where
  zero : d + total w l = 0
  first : ∀ q, q <+: l → q ≠ l → d + total w q ≠ 0

/-- The total that starts at `d` does not come to zero. -/
def Never (w : α → Int) (d : Int) (l : List α) : Prop := ∀ q, q <+: l → d + total w q ≠ 0

theorem returns_nil : Returns w 0 [] where
  zero := by simp
  first q hq hne := absurd (prefix_nil.mp hq) hne

theorem returns_cons (hd : d ≠ 0) (h : Returns w (d + w a) l) : Returns w d (a :: l) where
  zero := by
    rw [total_cons, ← add_assoc]
    exact h.zero
  first q hq hne := by
    rcases prefix_cons_iff.mp hq with rfl | ⟨q, rfl, hpre⟩
    · simpa using hd
    · rw [total_cons, ← add_assoc]
      exact h.first q hpre fun heq => hne (by rw [heq])

theorem never_nil (hd : d ≠ 0) : Never w d [] := by
  intro q hq
  rw [prefix_nil.mp hq]
  simpa using hd

theorem never_cons (hd : d ≠ 0) (h : Never w (d + w a) l) : Never w d (a :: l) := by
  intro q hq
  rcases prefix_cons_iff.mp hq with rfl | ⟨q, rfl, hpre⟩
  · simpa using hd
  · rw [total_cons, ← add_assoc]
    exact h q hpre

end Tortis.RunningTotal
