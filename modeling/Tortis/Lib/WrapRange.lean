import Mathlib.Algebra.Order.Group.Nat
import Mathlib.Order.Interval.Finset.Nat

/-!
# Ranges that wrap around

A range of values below a modulus `m`, from a start to an end that both belong to it; where the
end is below the start, the range goes on from zero. Values are counted from the end of the range:
`dist` says how far after it a value is, `gap` how many values lie between the end and the start.
A value is outside exactly where its distance is between one and the gap (`not_mem_iff`), so there
are `gap` values outside, and a range whose end is moved on by at most that many gets exactly the
values passed over (`mem_extend`).
-/

namespace Tortis.WrapRange

/-- The value `x` belongs to the range from `s` to `e`. -/
def Mem (s e x : Nat) : Prop := if s ≤ e then s ≤ x ∧ x ≤ e else s ≤ x ∨ x ≤ e

instance (s e x : Nat) : Decidable (Mem s e x) := by
  unfold Mem
  infer_instance

/-- How far the value `x` is after `e`. -/
def dist (m e x : Nat) : Nat := (x + m - e) % m

/-- How many values come after `e` and before `s`. -/
def gap (m s e : Nat) : Nat := (s + m - e - 1) % m

section
variable {m s e x k count : Nat}

theorem dist_eq (he : e < m) (hx : x < m) : dist m e x = if e ≤ x then x - e else x + m - e := by
  rw [dist]
  split
  · rw [show x + m - e = x - e + m by omega, Nat.add_mod_right, Nat.mod_eq_of_lt (by omega)]
  · exact Nat.mod_eq_of_lt (by omega)

theorem gap_eq (hs : s < m) (he : e < m) :
    gap m s e = if e < s then s - e - 1 else s + m - e - 1 := by
  rw [gap]
  split
  · rw [show s + m - e - 1 = s - e - 1 + m by omega, Nat.add_mod_right, Nat.mod_eq_of_lt (by omega)]
  · exact Nat.mod_eq_of_lt (by omega)

theorem gap_lt (hs : s < m) : gap m s e < m := Nat.mod_lt _ (by omega)

theorem dist_lt (hx : x < m) : dist m e x < m := Nat.mod_lt _ (by omega)

theorem add_mod_eq (he : e < m) (hk : k < m) :
    (e + k) % m = if e + k < m then e + k else e + k - m := by
  split
  · exact Nat.mod_eq_of_lt ‹_›
  · rw [Nat.mod_eq_sub_mod (by omega), Nat.mod_eq_of_lt (by omega)]

theorem dist_add (he : e < m) (hk : k < m) : dist m e ((e + k) % m) = k := by
  rw [dist_eq he (Nat.mod_lt _ (by omega)), add_mod_eq he hk]
  split_ifs <;> omega

theorem add_dist (he : e < m) (hx : x < m) : (e + dist m e x) % m = x := by
  rw [add_mod_eq he (dist_lt hx), dist_eq he hx]
  split_ifs <;> omega

theorem add_mod_inj (he : e < m) {j : Nat} (hk : k < m) (hj : j < m)
    (h : (e + k) % m = (e + j) % m) : k = j := by
  rw [← dist_add he hk, h, dist_add he hj]

theorem mem_iff (hs : s < m) (he : e < m) (hx : x < m) :
    Mem s e x ↔ dist m e x = 0 ∨ gap m s e < dist m e x := by
  rw [dist_eq he hx, gap_eq hs he, Mem]
  split_ifs <;> omega

theorem not_mem_iff (hs : s < m) (he : e < m) (hx : x < m) :
    ¬ Mem s e x ↔ 0 < dist m e x ∧ dist m e x ≤ gap m s e := by
  rw [mem_iff hs he hx]
  omega

theorem card_not_mem (hs : s < m) (he : e < m) :
    ((Finset.range m).filter fun x => ¬ Mem s e x).card = gap m s e := by
  have hgap := gap_lt (e := e) hs
  rw [← Nat.sub_zero (gap m s e), ← Nat.card_Ioc]
  refine Finset.card_nbij' (dist m e) (fun k => (e + k) % m) ?_ ?_ ?_ ?_
  · intro x hx
    obtain ⟨hx, hout⟩ := Finset.mem_filter.mp hx
    exact Finset.mem_Ioc.mpr ((not_mem_iff hs he (Finset.mem_range.mp hx)).mp hout)
  · intro k hk
    obtain ⟨hpos, hle⟩ := Finset.mem_Ioc.mp hk
    have hlt : (e + k) % m < m := Nat.mod_lt _ (by omega)
    refine Finset.mem_filter.mpr ⟨Finset.mem_range.mpr hlt, (not_mem_iff hs he hlt).mpr ?_⟩
    rw [dist_add he (by omega)]
    exact ⟨hpos, hle⟩
  · intro x hx
    exact add_dist he (Finset.mem_range.mp (Finset.mem_filter.mp hx).1)
  · intro k hk
    exact dist_add he (by have := Finset.mem_Ioc.mp hk; omega)

theorem dist_shift (he : e < m) (hx : x < m) (hk : k < m) :
    dist m ((e + k) % m) x =
      if k ≤ dist m e x then dist m e x - k else dist m e x + m - k := by
  rw [dist_eq (Nat.mod_lt _ (by omega)) hx, add_mod_eq he hk, dist_eq he hx]
  split_ifs <;> omega

theorem gap_shift (hs : s < m) (he : e < m) (hk : k ≤ gap m s e) :
    gap m s ((e + k) % m) = gap m s e - k := by
  have hlt : k < m := lt_of_le_of_lt hk (gap_lt hs)
  rw [gap_eq hs he] at hk ⊢
  rw [gap_eq hs (Nat.mod_lt _ (by omega)), add_mod_eq he hlt]
  split_ifs at hk ⊢ <;> omega

theorem mem_extend (hs : s < m) (he : e < m) (hc : count ≤ gap m s e) (hx : x < m) :
    Mem s ((e + count) % m) x ↔ Mem s e x ∨ ∃ k < count, x = (e + 1 + k) % m := by
  have hgap := gap_lt (e := e) hs
  have hpassed : (∃ k < count, x = (e + 1 + k) % m) ↔ 0 < dist m e x ∧ dist m e x ≤ count := by
    constructor
    · rintro ⟨k, hk, rfl⟩
      rw [add_assoc, dist_add he (by omega)]
      omega
    · rintro ⟨hpos, hle⟩
      refine ⟨dist m e x - 1, by omega, ?_⟩
      rw [add_assoc, Nat.add_sub_cancel' hpos, add_dist he hx]
  rw [mem_iff hs (Nat.mod_lt _ (by omega)) hx, mem_iff hs he hx, hpassed, gap_shift hs he hc,
    dist_shift he hx (by omega)]
  split_ifs <;> omega

end

end Tortis.WrapRange
