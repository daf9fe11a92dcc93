import Mathlib.Data.Nat.Digits.Defs

/-!
# Positional numerals

`upTo B f k` is the number whose base-`B` digits, from the least significant one on, are
`f 0, …, f (k - 1)`.
-/

namespace Tortis.Positional

open List Function

variable {B : Nat} {f g : Nat → Nat} {i k m : Nat}

/-- The number with the given digits. -/
def upTo (B : Nat) (f : Nat → Nat) (k : Nat) : Nat := Nat.ofDigits B ((range k).map f)

@[simp] theorem upTo_zero (B : Nat) (f : Nat → Nat) : upTo B f 0 = 0 := rfl

theorem upTo_succ (B : Nat) (f : Nat → Nat) (k : Nat) :
    upTo B f (k + 1) = upTo B f k + f k * B ^ k := by
  rw [upTo, range_succ, map_append, Nat.ofDigits_append, length_map,
    length_range, map_singleton, Nat.ofDigits_singleton, upTo, mul_comm (B ^ k)]

theorem upTo_congr (h : ∀ i < k, f i = g i) : upTo B f k = upTo B g k := by
  rw [upTo, upTo, map_congr_left fun i hi => h i (mem_range.1 hi)]

theorem upTo_lt (hf : ∀ i, f i < B) : ∀ k, upTo B f k < B ^ k := by
  intro k
  induction k with
  | zero => simp
  | succ k ih =>
    have hk : (f k + 1) * B ^ k ≤ B * B ^ k := Nat.mul_le_mul_right _ (hf k)
    rw [upTo_succ, pow_succ, mul_comm (B ^ k)]
    linarith

theorem upTo_of_zero (hmk : m ≤ k) (h : ∀ i, m ≤ i → f i = 0) : upTo B f k = upTo B f m := by
  induction k, hmk using Nat.le_induction with
  | base => rfl
  | succ k hk ih => rw [upTo_succ, h k hk, zero_mul, add_zero, ih]

theorem upTo_mono (h : m ≤ k) : upTo B f m ≤ upTo B f k := by
  induction k, h using Nat.le_induction with
  | base => exact le_rfl
  | succ k hk ih =>
    rw [upTo_succ]
    exact Nat.le_add_right_of_le ih

theorem upTo_update (x : Nat) (hi : i < k) :
    upTo B (update f i x) k + f i * B ^ i = upTo B f k + x * B ^ i := by
  induction k with
  | zero => exact absurd hi (Nat.not_lt_zero i)
  | succ k ih =>
    rw [upTo_succ, upTo_succ]
    obtain hlt | rfl := Nat.lt_succ_iff_lt_or_eq.1 hi
    · rw [update_of_ne (ne_of_gt hlt)]
      omega
    · have : upTo B (update f i x) i = upTo B f i :=
        upTo_congr fun j hj => update_of_ne (ne_of_lt hj) x f
      rw [this, update_self]
      omega

theorem upTo_shift (m k : Nat) :
    upTo B (fun i => if i < m then 0 else f (i - m)) (m + k) = B ^ m * upTo B f k := by
  induction k with
  | zero =>
    rw [add_zero, upTo_congr (@fun i hi => if_pos hi),
      @upTo_of_zero B (fun _ => 0) m 0 (Nat.zero_le m) fun _ _ => rfl]
    simp
  | succ k ih =>
    rw [← add_assoc, upTo_succ, ih, upTo_succ, if_neg (by omega), Nat.add_sub_cancel_left]
    ring

section
variable (hf : ∀ i, f i < B)
include hf

theorem upTo_mod (h : i ≤ k) : upTo B f k % B ^ i = upTo B f i := by
  induction k, h using Nat.le_induction with
  | base => exact Nat.mod_eq_of_lt (upTo_lt hf i)
  | succ k hk ih =>
    obtain ⟨d, rfl⟩ := Nat.exists_eq_add_of_le hk
    rw [upTo_succ, pow_add, ← mul_assoc, mul_comm (f _), mul_assoc, Nat.add_mul_mod_self_left, ih]

theorem upTo_div_mod (h : i < k) : upTo B f k / B ^ i % B = f i := by
  have hB : 0 < B ^ i := Nat.pow_pos (Nat.zero_lt_of_lt (hf 0))
  rw [← Nat.mod_mul_right_div_self, ← pow_succ, upTo_mod hf h, upTo_succ, mul_comm (f i),
    Nat.add_mul_div_left _ _ hB, Nat.div_eq_of_lt (upTo_lt hf i), zero_add]

theorem upTo_inj (hg : ∀ i, g i < B) : upTo B f k = upTo B g k ↔ ∀ i < k, f i = g i := by
  refine ⟨fun h i hi => ?_, upTo_congr⟩
  rw [← upTo_div_mod hf hi, h, upTo_div_mod hg hi]

theorem upTo_compare (hg : ∀ i, g i < B) (k : Nat) : compare (upTo B f (k + 1)) (upTo B g (k + 1)) =
      (compare (f k) (g k)).then (compare (upTo B f k) (upTo B g k)) := by
  have hfk := upTo_lt hf k
  have hgk := upTo_lt hg k
  rw [upTo_succ, upTo_succ]
  obtain h | h | h := lt_trichotomy (f k) (g k)
  · have hle : (f k + 1) * B ^ k ≤ g k * B ^ k := Nat.mul_le_mul_right _ h
    rw [compare_lt_iff_lt.2 h, compare_lt_iff_lt.2 (by linarith)]
    rfl
  · rw [h, compare_eq_iff_eq.2 rfl]
    obtain h' | h' | h' := lt_trichotomy (upTo B f k) (upTo B g k)
    · rw [compare_lt_iff_lt.2 h', compare_lt_iff_lt.2 (by omega)]
      rfl
    · rw [h', compare_eq_iff_eq.2 rfl, compare_eq_iff_eq.2 rfl]
      rfl
    · rw [compare_gt_iff_gt.2 h', compare_gt_iff_gt.2 (by omega)]
      rfl
  · have hle : (g k + 1) * B ^ k ≤ f k * B ^ k := Nat.mul_le_mul_right _ h
    rw [compare_gt_iff_gt.2 h, compare_gt_iff_gt.2 (by linarith)]
    rfl

end

theorem pow_le_upTo (hi : i < k) (h : f i ≠ 0) : B ^ i ≤ upTo B f k := by
  have := @upTo_mono B f k (i + 1) hi
  rw [upTo_succ] at this
  have := Nat.le_mul_of_pos_left (B ^ i) (Nat.pos_of_ne_zero h)
  omega

theorem upTo_eq_zero (hB : 0 < B) : upTo B f k = 0 ↔ ∀ i < k, f i = 0 := by
  refine ⟨fun h i hi => ?_, fun h => ?_⟩
  · by_contra hne
    have := @pow_le_upTo B f i k hi hne
    have := pow_pos hB (n := i)
    omega
  · rw [upTo_congr h]
    exact @upTo_of_zero B (fun _ => 0) k 0 (Nat.zero_le k) fun _ _ => rfl

end Tortis.Positional
