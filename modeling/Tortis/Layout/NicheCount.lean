import Tortis.Layout.Enum

/-!
# What a niche holds

A niche is counted and reserved exactly (`librustc_target/abi/mod.rs`). `Niche::available` computes
the gap of the valid range (`available_eq`), which is the number of values outside of it, also where
the range wraps around, is full, or ends at the largest value.
-/

namespace Tortis.Layout.Niche

open WrapRange (gap)

/-- The values of the niche's primitive that are not valid. -/
def invalidValues (dl : TargetDataLayout) (n : Niche) : Finset Nat :=
  (Finset.range (2 ^ n.scalar.value.bits dl)).filter fun x => ¬ n.scalar.Contains x

variable {dl : TargetDataLayout} {n : Niche} {count : Nat}

theorem wrapping_sub_mod {m w s e : Nat} (hw : 0 < w) (hdvd : m ∣ w) (he : e < m) :
    (s + w - (e + 1) % w) % w % m = gap m s e := by
  obtain ⟨q, rfl⟩ := hdvd
  have hq : 0 < q := Nat.pos_of_mul_pos_left hw
  have hle : m ≤ m * q := Nat.le_mul_of_pos_right m hq
  rw [Nat.mod_mod_of_dvd _ (dvd_mul_right m q), gap]
  by_cases hend : e + 1 < m * q
  · obtain ⟨q, rfl⟩ := Nat.exists_eq_add_of_le' hq
    rw [Nat.mod_eq_of_lt hend, show s + m * (q + 1) - (e + 1) = s + m - e - 1 + m * q by
      rw [Nat.mul_succ] at hle ⊢; omega, Nat.add_mul_mod_self_left]
  · rw [show e + 1 = m * q by omega, Nat.mod_self, Nat.sub_zero, Nat.add_mul_mod_self_left,
      show s + m - e - 1 = s by omega]

section
variable (hs : n.scalar.InRange dl)
include hs

theorem available_eq : n.available dl =
      gap (2 ^ n.scalar.value.bits dl) n.scalar.validStart n.scalar.validEnd :=
  wrapping_sub_mod (Nat.two_pow_pos _) (pow_dvd_pow 2 (Primitive.bits_le dl _)) hs.end_lt

theorem card_invalidValues : (n.invalidValues dl).card = n.available dl := by
  rw [available_eq hs]
  exact WrapRange.card_not_mem hs.start_lt hs.end_lt

theorem reserve_eq (hcount : 1 ≤ count) : n.reserve dl count =
      if count ≤ n.available dl then
        some ((n.scalar.validEnd + 1) % 2 ^ n.scalar.value.bits dl,
          { n.scalar with validEnd := (n.scalar.validEnd + count) % 2 ^ n.scalar.value.bits dl })
      else none := by
  have hpos := Nat.two_pow_pos (n.scalar.value.bits dl)
  have hgap := WrapRange.gap_lt (e := n.scalar.validEnd) hs.start_lt
  rw [available_eq hs, reserve]
  rw [Nat.sub_add_cancel hpos, mod_mod_bits, mod_mod_bits]
  by_cases hmax : count > 2 ^ n.scalar.value.bits dl - 1
  · rw [if_pos hmax, if_neg (by omega)]
  · have hcontains : n.scalar.Contains
        ((n.scalar.validEnd + count) % 2 ^ n.scalar.value.bits dl) ↔
          gap (2 ^ n.scalar.value.bits dl) n.scalar.validStart n.scalar.validEnd < count := by
      refine (WrapRange.mem_iff hs.start_lt hs.end_lt (Nat.mod_lt _ hpos)).trans ?_
      rw [WrapRange.dist_add hs.end_lt (by omega)]
      omega
    rw [if_neg hmax]
    simp only [hcontains, ← not_le, ite_not]

end

/-- Niches are counted and reserved exactly. -/
theorem reserve_exact (hs : n.scalar.InRange dl) (hcount : 1 ≤ count) :
    n.available dl = (n.invalidValues dl).card ∧
    ((n.reserve dl count).isSome ↔ count ≤ (n.invalidValues dl).card) ∧
    ∀ start s, n.reserve dl count = some (start, s) →
      (∀ j < count, ∀ k < count, (start + j) % 2 ^ n.scalar.value.bits dl =
        (start + k) % 2 ^ n.scalar.value.bits dl → j = k) ∧
      (∀ k < count, (start + k) % 2 ^ n.scalar.value.bits dl ∈ n.invalidValues dl) ∧
      s.value = n.scalar.value ∧ s.InRange dl ∧ ∀ x < 2 ^ n.scalar.value.bits dl, s.Contains x ↔
        n.scalar.Contains x ∨ ∃ k < count, x = (start + k) % 2 ^ n.scalar.value.bits dl := by
  have hpos := Nat.two_pow_pos (n.scalar.value.bits dl)
  refine ⟨(card_invalidValues hs).symm, ?_, ?_⟩
  · rw [reserve_eq hs hcount, card_invalidValues hs]
    split <;> simp_all
  · intro start s h
    have hout := fun k hk => reserve_outside (k := k) hs h hk
    rw [reserve_eq hs hcount] at h
    split at h
    case isFalse => cases h
    case isTrue hle =>
    cases h
    rw [available_eq hs] at hle
    have hlt : count < 2 ^ n.scalar.value.bits dl :=
      lt_of_le_of_lt hle (WrapRange.gap_lt hs.start_lt)
    refine ⟨?_, ?_, rfl, ⟨hs.start_lt, Nat.mod_lt _ hpos⟩, ?_⟩
    · intro j hj k hk heq
      rw [Nat.mod_add_mod, Nat.mod_add_mod, add_assoc, add_assoc] at heq
      have := WrapRange.add_mod_inj hs.end_lt (by omega) (by omega) heq
      omega
    · intro k hk
      exact Finset.mem_filter.mpr ⟨Finset.mem_range.mpr (Nat.mod_lt _ hpos), hout k hk⟩
    · intro x hx
      simp only [Nat.mod_add_mod]
      exact WrapRange.mem_extend hs.start_lt hs.end_lt hle hx

/-- A range of bytes that wraps around: two values are invalid, and both are reserved. -/
theorem reserve_exact_wrapping :
    let n : Niche := ⟨0, Primitive.int .i8 false, 200, 197⟩
    let s : Scalar := ⟨Primitive.int .i8 false, 200, 199⟩
    n.available Sample.target = 2 ∧ n.reserve Sample.target 2 = some (198, s) ∧
    ∀ x < 2 ^ n.scalar.value.bits Sample.target, s.Contains x ↔
      n.scalar.Contains x ∨ ∃ k < 2, x = (198 + k) % 2 ^ n.scalar.value.bits Sample.target :=
  ⟨by decide, by decide, ((reserve_exact ⟨by decide, by decide⟩ (by decide)).2.2 198 _
    (by decide)).2.2.2.2⟩

end Tortis.Layout.Niche
