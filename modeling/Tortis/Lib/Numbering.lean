import Mathlib.Data.List.Basic

/-!
# Tables that number their values

A table is a list of values; a value's number is the position where it stands, and a value that the
table does not have yet goes to its end. The numbers are found through a function beside the table
(`Tracks`), so that no value is in the table twice. Numbers are for good: a longer table answers
the same (`getElem?_of_isPrefix`).
-/

namespace Tortis.Numbering

open List

variable {α : Type} {number : α → Option Nat} {table table' : List α} {a b : α} {i j : Nat}

/-- The function knows the numbers of the table's values. -/
def Tracks (number : α → Option Nat) (table : List α) : Prop :=
  ∀ a i, number a = some i ↔ table[i]? = some a

theorem Tracks.nil : Tracks (fun _ : α => none) [] := fun _ _ => by simp

theorem Tracks.getElem?_eq (h : Tracks number table) (ha : number a = some i) :
    table[i]? = some a :=
  (h a i).mp ha

theorem Tracks.position_unique (h : Tracks number table) (hi : table[i]? = some a)
    (hj : table[j]? = some a) : i = j :=
  Option.some.inj (((h a i).mpr hi).symm.trans ((h a j).mpr hj))

theorem Tracks.push [DecidableEq α] (h : Tracks number table) (ha : number a = none) :
    Tracks (fun b => if b = a then some table.length else number b) (table ++ [a]) := by
  intro b i
  dsimp only
  rcases Nat.lt_trichotomy i table.length with hlt | rfl | hgt
  · rw [List.getElem?_append_left hlt, ← h b i]
    split
    · rename_i heq
      subst heq
      rw [ha]
      exact iff_of_false (fun hb => by have := Option.some.inj hb; omega) (by simp)
    · rfl
  · split
    · rename_i heq
      simp [heq]
    · rename_i hne
      rw [h b, getElem?_eq_none (Nat.le_refl _)]
      simp [Ne.symm hne]
  · rw [getElem?_eq_none (by rw [length_append, length_singleton]; omega)]
    split
    · exact iff_of_false (fun hb => by have := Option.some.inj hb; omega) (by simp)
    · rw [h b, getElem?_eq_none (Nat.le_of_lt hgt)]

theorem getElem?_of_isPrefix (h : table <+: table') (hi : table[i]? = some a) :
    table'[i]? = some a := by
  obtain ⟨more, rfl⟩ := h
  rw [List.getElem?_append_left (List.getElem?_eq_some_iff.mp hi).1, hi]

end Tortis.Numbering
