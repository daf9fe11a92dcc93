import Mathlib.Algebra.Order.Field.Power
import Mathlib.Tactic.Positivity
import Tortis.Num.Flt2Dec

/-!
# The estimate of the exponent

`estimate_scaling_factor` multiplies by 1292913986 / 2^32 for `log10 2`. Below it is 8651/28738, and
above `log10 2` is 4004/13301; no fraction with a denominator below 28738 + 13301 lies between these
two, so that a power of two is on the side of a power of ten that the product tells.
-/

namespace Tortis.Num

section
variable {a b p q i j : Nat}

theorem pow_lt_of_ratio (h : a ^ p < b ^ q) (hb : 0 < b) (hi : i ≠ 0) (hle : q * i ≤ p * j) :
    a ^ i < b ^ j := by
  refine lt_of_pow_lt_pow_left₀ p (Nat.zero_le _) ?_
  calc (a ^ i) ^ p = (a ^ p) ^ i := pow_right_comm a i p
    _ < (b ^ q) ^ i := Nat.pow_lt_pow_left h hi
    _ = b ^ (q * i) := (pow_mul b q i).symm
    _ ≤ b ^ (p * j) := Nat.pow_le_pow_right hb hle
    _ = (b ^ j) ^ p := by rw [mul_comm, pow_mul]

theorem ten_pow_lt (hi : i ≠ 0) (h : i * 2 ^ 32 ≤ j * 1292913986) : 10 ^ i < 2 ^ j :=
  pow_lt_of_ratio (show 10 ^ 21306 < 2 ^ 70777 by decide +kernel) two_pos hi (by omega)

theorem two_pow_lt (hj : j ≠ 0) (hlt : j < 42039) (h : j * 1292913986 ≤ i * 2 ^ 32) :
    2 ^ j < 10 ^ i := by
  obtain hgt | hle := Nat.lt_or_ge (13301 * i) (4004 * j)
  · have : 8651 * j < 28738 * i := by omega
    omega
  · exact pow_lt_of_ratio (show 2 ^ 13301 < 10 ^ 4004 by decide +kernel) (by decide) hj hle

end

variable {t k : Int}

theorem ten_zpow_le (hlow : -42039 < t) (h : k * 2 ^ 32 ≤ t * 1292913986) :
    (10 : ℚ) ^ k ≤ 2 ^ t := by
  obtain ht | ht := le_or_gt 0 t
  · obtain hk | hk := le_or_gt k 0
    · exact le_trans (zpow_le_one_of_nonpos₀ (by norm_num) hk) (one_le_zpow₀ (by norm_num) ht)
    · lift k to Nat using hk.le
      lift t to Nat using ht
      rw [zpow_natCast, zpow_natCast]
      exact_mod_cast (@ten_pow_lt k t (by omega) (by omega)).le
  · obtain ⟨i, rfl⟩ : ∃ i : Nat, k = -i := ⟨(-k).toNat, by omega⟩
    obtain ⟨j, rfl⟩ : ∃ j : Nat, t = -j := ⟨(-t).toNat, by omega⟩
    rw [zpow_neg, zpow_neg, zpow_natCast, zpow_natCast]
    refine inv_anti₀ (by positivity) ?_
    exact_mod_cast (@two_pow_lt i j (by omega) (by omega) (by omega)).le

theorem two_zpow_lt (hhigh : t < 42039) (h : t * 1292913986 < k * 2 ^ 32) :
    (2 : ℚ) ^ t < 10 ^ k := by
  obtain ht | ht := lt_or_ge 0 t
  · lift k to Nat using by omega
    lift t to Nat using ht.le
    rw [zpow_natCast, zpow_natCast]
    exact_mod_cast @two_pow_lt k t (by omega) (by omega) (by omega)
  · obtain hk | hk := le_or_gt 1 k
    · exact lt_of_le_of_lt (zpow_le_one_of_nonpos₀ (by norm_num) ht)
        (one_lt_zpow₀ (by norm_num) hk)
    · obtain ⟨i, rfl⟩ : ∃ i : Nat, k = -i := ⟨(-k).toNat, by omega⟩
      obtain ⟨j, rfl⟩ : ∃ j : Nat, t = -j := ⟨(-t).toNat, by omega⟩
      rw [zpow_neg, zpow_neg, zpow_natCast, zpow_natCast]
      refine inv_strictAnti₀ (by positivity) ?_
      obtain rfl | hi := Nat.eq_zero_or_pos i
      · exact one_lt_pow₀ (by norm_num) (by omega)
      · exact_mod_cast @ten_pow_lt i j hi.ne' (by omega)

/-- The product and the estimate are in their ranges, for the exponents of an `i16`. -/
theorem estimate_eq_shift {mant : Nat} {exp : Int} (hmant : mant < 2 ^ 64) (hlow : -2 ^ 15 ≤ exp)
    (hhigh : exp < 2 ^ 15) : ((mant - 1).size + exp) * 1292913986 < 2 ^ 63 ∧
      -2 ^ 63 ≤ ((mant - 1).size + exp) * 1292913986 ∧
      estimateScalingFactor mant exp = ((mant - 1).size + exp) * 1292913986 / 2 ^ 32 := by
  have hsize : (mant - 1).size ≤ 64 := Nat.size_le.2 (by omega)
  refine ⟨by omega, by omega, ?_⟩
  rw [estimateScalingFactor, show (32 : Int) = (32 : Nat) from rfl, Int.shiftRight_natCast_right,
    Int.shiftRight_eq_div_pow]
  exact Int.bmod_eq_of_le (by omega) (by omega)

theorem estimate_bounds {mant : Nat} {exp : Int} (hpos : 0 < mant) (hmant : mant < 2 ^ 64)
    (hlow : -2 ^ 15 ≤ exp) (hhigh : exp < 2 ^ 15) :
    (10 : ℚ) ^ (estimateScalingFactor mant exp - 1) < mant * 2 ^ exp ∧
      (mant : ℚ) * 2 ^ exp < 10 ^ (estimateScalingFactor mant exp + 1) := by
  have hsize : (mant - 1).size ≤ 64 := Nat.size_le.2 (by omega)
  obtain ⟨-, -, hk⟩ := estimate_eq_shift hmant hlow hhigh
  generalize estimateScalingFactor mant exp = k at *
  have hbelow := @ten_zpow_le ((mant - 1).size + exp) k (by omega) (by omega)
  have habove := @two_zpow_lt ((mant - 1).size + exp) (k + 1) (by omega) (by omega)
  rw [zpow_add₀ (by norm_num), zpow_natCast] at hbelow habove
  have hle : mant ≤ 2 ^ (mant - 1).size := by
    have := Nat.lt_size_self (mant - 1)
    omega
  have hlt : 2 ^ (mant - 1).size < 10 * mant := by
    cases hs : (mant - 1).size with
    | zero => omega
    | succ s =>
      have := Nat.lt_size.1 (show s < (mant - 1).size by omega)
      rw [pow_succ]
      omega
  constructor
  · rw [zpow_sub_one₀ (by norm_num), ← div_eq_mul_inv, div_lt_iff₀' (by norm_num), ← mul_assoc]
    refine lt_of_le_of_lt hbelow (mul_lt_mul_of_pos_right ?_ (by positivity))
    exact_mod_cast hlt
  · refine lt_of_le_of_lt (mul_le_mul_of_nonneg_right ?_ (by positivity)) habove
    exact_mod_cast hle

/-- The number is above a tenth of the power of ten that is estimated, and at most ten times as
large. No step of the estimate wraps. -/
theorem estimateScalingFactor_spec {mant : Nat} {exp : Int} (hpos : 0 < mant)
    (hmant : mant < 2 ^ 64) (hlow : -2 ^ 15 ≤ exp) (hhigh : exp < 2 ^ 15) :
    (10 : ℚ) ^ (estimateScalingFactor mant exp - 1) < mant * 2 ^ exp ∧
      (mant : ℚ) * 2 ^ exp ≤ 10 ^ (estimateScalingFactor mant exp + 1) ∧
      ((mant - 1).size + exp) * 1292913986 < 2 ^ 63 ∧
      -2 ^ 63 ≤ ((mant - 1).size + exp) * 1292913986 ∧
      estimateScalingFactor mant exp = ((mant - 1).size + exp) * 1292913986 / 2 ^ 32 :=
  have h := estimate_bounds hpos hmant hlow hhigh
  ⟨h.1, h.2.le, estimate_eq_shift hmant hlow hhigh⟩

/-- The largest number of all. -/
theorem estimateScalingFactor_max : ((2 ^ 64 - 1 : Nat) : ℚ) * 2 ^ (32767 : Int) ≤
    10 ^ (estimateScalingFactor (2 ^ 64 - 1) 32767 + 1) :=
  (estimateScalingFactor_spec (by decide) (by decide) (by decide) (by decide)).2.1

end Tortis.Num
