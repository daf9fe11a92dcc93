import Tortis.Lib.Outcome

/-!
# Arrays of a fixed length

A read or a write outside of the array halts. What an array holds at a place is read with `getD`, so
that a write is described at every place at once (`getD_set`).
-/

namespace Tortis.FixedArray

open Option Vector

variable {α : Type} {n i : Nat} {v v' : Vector α n} {a : α}

def get (v : Vector α n) (i : Nat) : Outcome α := Outcome.expect "index out of bounds" v[i]?

def set (v : Vector α n) (i : Nat) (a : α) : Outcome (Vector α n) :=
  if h : i < n then .ok (v.set i a h) else .error (.panic "index out of bounds")

/-- The element at a place, and `d` outside of the array. -/
def getD (v : Vector α n) (i : Nat) (d : α) : α := v[i]?.getD d

theorem get_of_lt (h : i < n) (d : α) : get v i = .ok (getD v i d) := by
  rw [get, getD, getElem?_eq_getElem h, Outcome.expect_some, getD_some]

theorem get_eq_ok (h : get v i = .ok a) (d : α) : i < n ∧ a = getD v i d := by
  have hi : i < n := (Vector.getElem?_eq_some_iff.1 (Outcome.expect_eq_ok.1 h)).1
  rw [get_of_lt hi d] at h
  exact ⟨hi, (Except.ok.inj h).symm⟩

theorem get_of_le (h : n ≤ i) : get v i = .error (.panic "index out of bounds") := by
  rw [get, getElem?_eq_none h]
  rfl

theorem getD_set (h : i < n) (v : Vector α n) (a d : α) (j : Nat) :
    getD (v.set i a h) j d = if j = i then a else getD v j d := by
  rw [getD, getD, getElem?_set]
  by_cases hj : j = i
  · rw [if_pos hj.symm, if_pos hj]
    rfl
  · rw [if_neg (Ne.symm hj), if_neg hj]

theorem set_of_lt (h : i < n) (v : Vector α n) (a : α) :
    ∃ v', set v i a = .ok v' ∧ ∀ (d : α) j, getD v' j d = if j = i then a else getD v j d :=
  ⟨v.set i a h, dif_pos h, fun d => getD_set h v a d⟩

theorem set_eq_ok (h : set v i a = .ok v') :
    i < n ∧ ∀ (d : α) j, getD v' j d = if j = i then a else getD v j d := by
  rw [set] at h
  split at h
  · next hi =>
    cases h
    exact ⟨hi, fun d => getD_set hi v a d⟩
  · cases h

theorem set_of_le (h : n ≤ i) : set v i a = .error (.panic "index out of bounds") :=
  dif_neg (Nat.not_lt.2 h)

theorem getD_of_le (h : n ≤ i) (d : α) : getD v i d = d := by
  rw [getD, getElem?_eq_none h, getD_none]

theorem getD_replicate (a : α) (i : Nat) : getD (Vector.replicate n a) i a = a := by
  rw [getD, getElem?_replicate]
  split <;> rfl

theorem ext_getD (d : α) (h : ∀ i < n, getD v i d = getD v' i d) : v = v' := by
  refine Vector.ext fun i hi => ?_
  have := h i hi
  rwa [getD, getD, getElem?_eq_getElem hi, getElem?_eq_getElem hi, getD_some, getD_some] at this

end Tortis.FixedArray
