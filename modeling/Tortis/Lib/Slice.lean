import Tortis.Lib.Outcome
import Mathlib.Logic.Equiv.Basic
import Mathlib.Data.List.Perm.Basic

/-!
# Slices

The elements of a slice are a list. A read, a write, a swap or a subslice halts outside of it, so a
run that returns has stayed in bounds. `exchange` is what a swap makes of the list, read place by
place (`exchange_getElem?`), and `At r l i j` relates the elements at two places.
-/

namespace Tortis

open List Outcome

namespace Slice

variable {α : Type} {l : List α} {a b : α} {i j k : Nat}

/-- `l[i]`, and also `l.get_unchecked(i)`. -/
def get (l : List α) (i : Nat) : Outcome α := expect "index out of bounds" l[i]?

def set (l : List α) (i : Nat) (a : α) : Outcome (List α) :=
  if i < l.length then .ok (l.set i a) else .error (.panic "index out of bounds")

/-- `l.swap(i, j)`. -/
def swap (l : List α) (i j : Nat) : Outcome (List α) := do
  let a ← get l i
  let b ← get l j
  .ok ((l.set i b).set j a)

theorem get_eq (h : l[i]? = some a) : get l i = .ok a := by
  rw [get, h, expect_some]

theorem set_eq (h : i < l.length) (a : α) : set l i a = .ok (l.set i a) := if_pos h

theorem exists_getElem? (h : i < l.length) : ∃ a, l[i]? = some a :=
  ⟨l[i], getElem?_eq_getElem h⟩

theorem lt_length (h : l[i]? = some a) : i < l.length := (List.getElem?_eq_some_iff.1 h).1

variable {l' : List α}

theorem getElem?_append_cons (h : i = l.length) : (l ++ a :: l')[i]? = some a := by
  subst h
  simp

theorem get_append (h : i = l.length) : get (l ++ a :: l') i = .ok a :=
  get_eq (getElem?_append_cons h)

theorem set_append (h : i = l.length) (b : α) : set (l ++ a :: l') i b = .ok (l ++ b :: l') := by
  subst h
  rw [set_eq (by simp), set_append_right _ _ le_rfl, Nat.sub_self, set_cons_zero]

theorem take_parts (l l' l'' : List α) : (l ++ l' ++ l'').take (l.length + l'.length) = l ++ l' :=
  take_left' length_append

theorem drop_parts (l l' l'' : List α) : (l ++ l' ++ l'').drop (l.length + l'.length) = l'' :=
  drop_left' length_append

/-- The list with the elements at two places exchanged. -/
def exchange (l : List α) (i j : Nat) : List α :=
  match l[i]?, l[j]? with
  | some a, some b => (l.set i b).set j a
  | _, _ => l

theorem exchange_eq (hi : l[i]? = some a) (hj : l[j]? = some b) :
    exchange l i j = (l.set i b).set j a := by
  rw [exchange, hi, hj]

theorem swap_eq (hi : i < l.length) (hj : j < l.length) : swap l i j = .ok (exchange l i j) := by
  obtain ⟨a, ha⟩ := exists_getElem? hi
  obtain ⟨b, hb⟩ := exists_getElem? hj
  rw [swap, get_eq ha, ok_bind, get_eq hb, ok_bind, exchange_eq ha hb]

@[simp] theorem exchange_length (l : List α) (i j : Nat) : (exchange l i j).length = l.length := by
  rw [exchange]
  split <;> simp

theorem exchange_getElem? (hi : i < l.length) (hj : j < l.length) (k : Nat) :
    (exchange l i j)[k]? = l[Equiv.swap i j k]? := by
  obtain ⟨a, ha⟩ := exists_getElem? hi
  obtain ⟨b, hb⟩ := exists_getElem? hj
  rw [exchange_eq ha hb, getElem?_set, length_set, getElem?_set, Equiv.swap_apply_def]
  by_cases hki : k = i
  · rw [if_pos hki]
    by_cases hij : i = j
    · rw [hki, if_pos hij.symm, if_pos hj, ← hij, ha]
    · rw [if_neg (hki ▸ Ne.symm hij), if_pos hki.symm, if_pos hi, hb]
  · rw [if_neg hki]
    by_cases hkj : k = j
    · rw [if_pos hkj.symm, if_pos hj, if_pos hkj, ha]
    · rw [if_neg (Ne.symm hkj), if_neg (Ne.symm hki), if_neg hkj]

theorem exchange_perm (l : List α) (i j : Nat) : (exchange l i j).Perm l := by
  rw [exchange]
  split
  · next a b ha hb =>
    obtain ⟨hi, rfl⟩ := List.getElem?_eq_some_iff.1 ha
    obtain ⟨hj, rfl⟩ := List.getElem?_eq_some_iff.1 hb
    exact set_set_perm hi hj
  · exact .refl _

theorem exchange_drop {n : Nat} (hi : i < n) (hj : j < n) : (exchange l i j).drop n = l.drop n := by
  rw [exchange]
  split
  · rw [drop_set_of_lt hj, drop_set_of_lt hi]
  · rfl

theorem perm_take_of_drop {n : Nat} (h : l'.Perm l) (hdrop : l'.drop n = l.drop n) :
    (l'.take n).Perm (l.take n) := by
  rw [← take_append_drop n l', ← take_append_drop n l, hdrop] at h
  exact (perm_append_right_iff _).1 h

/-! ## Subslices -/

/-- `&l[i..]`. -/
def sliceFrom (l : List α) (i : Nat) : Outcome (List α) :=
  if i ≤ l.length then .ok (l.drop i) else .error (.panic "slice index out of range")

/-- `&l[..i]`. -/
def sliceTo (l : List α) (i : Nat) : Outcome (List α) :=
  if i ≤ l.length then .ok (l.take i) else .error (.panic "slice index out of range")

/-- `&l[..l.len() - i]`. -/
def sliceToEnd (l : List α) (i : Nat) : Outcome (List α) :=
  if i ≤ l.length then .ok (l.take (l.length - i))
  else .error (.panic "attempt to subtract with overflow")

theorem sliceFrom_append {a b : List α} {i : Nat} (h : a.length = i) :
    sliceFrom (a ++ b) i = .ok b := by
  subst h
  rw [sliceFrom, if_pos (by simp), drop_left]

theorem sliceTo_append {a b : List α} {i : Nat} (h : a.length = i) :
    sliceTo (a ++ b) i = .ok a := by
  subst h
  rw [sliceTo, if_pos (by simp), take_left]

theorem sliceToEnd_append {a b : List α} {i : Nat} (h : b.length = i) :
    sliceToEnd (a ++ b) i = .ok a := by
  subst h
  rw [sliceToEnd, if_pos (by simp), length_append, Nat.add_sub_cancel, take_left]

/-! ## Relations between places -/

/-- The elements at two places are related, where both places are in bounds. -/
def At (r : α → α → Prop) (l : List α) (i j : Nat) : Prop :=
  ∀ a, l[i]? = some a → ∀ b, l[j]? = some b → r a b

section
variable {r : α → α → Prop}

theorem At.of_eq (hi : l[i]? = some a) (hj : l[j]? = some b) (h : r a b) : At r l i j := by
  intro a' ha b' hb
  rw [hi] at ha
  rw [hj] at hb
  cases ha
  cases hb
  exact h

theorem At.trans [IsTrans α r] (h : At r l i j) (h' : At r l j k) (hj : j < l.length) :
    At r l i k := by
  intro a ha c hc
  obtain ⟨b, hb⟩ := exists_getElem? hj
  exact IsTrans.trans a b c (h a ha b hb) (h' b hb c hc)

theorem At.exchange {p q : Nat} (hp : p < l.length) (hq : q < l.length) :
    At r (exchange l p q) i j ↔ At r l (Equiv.swap p q i) (Equiv.swap p q j) := by
  rw [At, At, exchange_getElem? hp hq, exchange_getElem? hp hq]

end

end Slice

end Tortis
