import Mathlib.Algebra.Order.Field.Power
import Mathlib.Algebra.Order.Floor.Semifield
import Mathlib.Tactic.LinearCombination
import Mathlib.Tactic.Ring

/-!
# The shortest numeral in an interval

A positive number `value` stands with bounds `low` and `high`, which are allowed or not. A numeral of
`n` digits in base `b` is a natural number below `b ^ n` times a power of `b`. Digits are generated
from the most significant one on: after `j` digits the candidates are the multiples of the `j`-th unit
next to `value` (`Down`, `Up`). The first place where one of them is inside gives a shortest numeral
(`exists_candidate`), and the nearer one is then a closest one (`shortest`).

A loop that generates digits keeps the rest of the number as a natural number over a scale `s`, with
the distances of the bounds over the same scale.
-/

namespace Tortis.Shortest

variable {K : Type} [Field K] [LinearOrder K]

/-- A positive number with its bounds. -/
structure Bounds (K : Type) [Field K] [LinearOrder K] where
  low : K
  value : K
  high : K
  inclusive : Bool
  low_pos : 0 < low
  low_lt : low < value
  lt_high : value < high

namespace Bounds

variable (I : Bounds K)

/-- A comparison with a bound. -/
def Within (x y : K) : Prop := if I.inclusive then x ≤ y else x < y

/-- Between the bounds. -/
def Inside (w : K) : Prop := I.Within I.low w ∧ I.Within w I.high

theorem value_pos : 0 < I.value := lt_trans I.low_pos I.low_lt

variable {I} {x y z : K}

theorem Within.le (h : I.Within x y) : x ≤ y := by
  rw [Within] at h
  split at h
  · exact h
  · exact le_of_lt h

theorem within_of_lt (h : x < y) : I.Within x y := by
  rw [Within]
  split
  · exact le_of_lt h
  · exact h

theorem Within.trans_le (h : I.Within x y) (hyz : y ≤ z) : I.Within x z := by
  rw [Within] at h ⊢
  split at h
  · next hi =>
    rw [if_pos hi]
    exact le_trans h hyz
  · next hi =>
    rw [if_neg hi]
    exact lt_of_lt_of_le h hyz

theorem Within.le_trans (hxy : x ≤ y) (h : I.Within y z) : I.Within x z := by
  rw [Within] at h ⊢
  split at h
  · next hi =>
    rw [if_pos hi]
    exact hxy.trans h
  · next hi =>
    rw [if_neg hi]
    exact lt_of_le_of_lt hxy h

theorem le_of_not_within (h : ¬I.Within x y) : y ≤ x := by
  by_contra hlt
  exact h (within_of_lt (not_le.1 hlt))

theorem within_high (h : x ≤ I.value) : I.Within x I.high :=
  within_of_lt (lt_of_le_of_lt h I.lt_high)

theorem within_low (h : I.value ≤ x) : I.Within I.low x :=
  within_of_lt (lt_of_lt_of_le I.low_lt h)

end Bounds

/-! ## Units -/

variable [IsStrictOrderedRing K] {b : Nat} {I : Bounds K} {k : Int} {j n : Nat}

/-- The unit of the `j`-th digit of a number below `b ^ k`. -/
def unit (K : Type) [Field K] (b : Nat) (k : Int) (j : Nat) : K := (b : K) ^ (k - j)

theorem base_pos (hb : 2 ≤ b) : (0 : K) < b := by
  exact_mod_cast lt_of_lt_of_le two_pos hb

theorem unit_pos (hb : 2 ≤ b) (k : Int) (j : Nat) : 0 < unit K b k j := zpow_pos (base_pos hb) _

theorem pow_mul_unit (hb : 2 ≤ b) (k : Int) (i j : Nat) :
    ((b ^ i : Nat) : K) * unit K b k j = (b : K) ^ (k - j + i) := by
  rw [unit, Nat.cast_pow, ← zpow_natCast, ← zpow_add₀ (base_pos hb).ne', Int.add_comm]

/-- The value is of `k` digits before the point, as far as the upper bound says. -/
structure Scaled (I : Bounds K) (b : Nat) (k : Int) : Prop where
  lower : I.Within ((b : K) ^ (k - 1)) I.high
  upper : ¬I.Within ((b : K) ^ k) I.high

theorem Scaled.leading (hb : 2 ≤ b) (hj : 1 ≤ j) :
    ((b ^ (j - 1) : Nat) : K) * unit K b k j = (b : K) ^ (k - 1) := by
  rw [pow_mul_unit hb]
  congr 1
  omega

/-- A numeral of `j` digits is a multiple of the unit, or is below the power of the base that the
upper bound is above. -/
theorem multiple_or_lt (hb : 2 ≤ b) {m : Nat} (hm : m < b ^ j) (e : Int) :
    (∃ m' : Nat, (m : K) * (b : K) ^ e = m' * unit K b k j) ∨
      (m : K) * (b : K) ^ e < (b : K) ^ (k - 1) := by
  obtain h | h := le_or_gt (k - j) e
  · refine .inl ⟨m * b ^ (e - (k - j)).toNat, ?_⟩
    rw [Nat.cast_mul, mul_assoc, pow_mul_unit hb, Int.toNat_of_nonneg (by omega)]
    congr 2
    omega
  · refine .inr ?_
    have hone : (1 : K) ≤ b := by exact_mod_cast (by omega : 1 ≤ b)
    calc (m : K) * (b : K) ^ e < (b : K) ^ j * (b : K) ^ e :=
          mul_lt_mul_of_pos_right (by exact_mod_cast hm) (zpow_pos (base_pos hb) e)
      _ = (b : K) ^ (j + e) := by
          rw [← zpow_natCast, ← zpow_add₀ (base_pos hb).ne']
      _ ≤ (b : K) ^ (k - 1) := zpow_le_zpow_right₀ hone (by omega)

theorem abs_le_of_between {x v w y : K} (hx : x ≤ v) (hy : v ≤ y) (hw : w ≤ x ∨ y ≤ w)
    {c : K} (hc : (c = x ∧ (y ≤ w → v - x ≤ y - v)) ∨ (c = y ∧ (w ≤ x → y - v ≤ v - x))) :
    |c - v| ≤ |w - v| := by
  obtain ⟨rfl, h⟩ | ⟨rfl, h⟩ := hc
  · rw [abs_sub_comm, abs_of_nonneg (sub_nonneg.2 hx)]
    obtain hw | hw := hw
    · rw [abs_sub_comm w, abs_of_nonneg (by linarith)]
      linarith
    · rw [abs_of_nonneg (by linarith)]
      linarith [h hw]
  · rw [abs_of_nonneg (sub_nonneg.2 hy)]
    obtain hw | hw := hw
    · rw [abs_sub_comm w, abs_of_nonneg (by linarith)]
      linarith [h hw]
    · rw [abs_of_nonneg (by linarith)]
      linarith

theorem digit_lt_pow (hb : 2 ≤ b) {m : Nat} (hm : m < b) {e : Int}
    (h : (m : K) * (b : K) ^ e < (b : K) ^ (k - 1)) :
    b * ((m : K) * (b : K) ^ e) ≤ (b - 1) * (b : K) ^ (k - 1) := by
  have hone : (1 : K) ≤ b := by exact_mod_cast (by omega : 1 ≤ b)
  obtain rfl | hpos := Nat.eq_zero_or_pos m
  · rw [Nat.cast_zero, zero_mul, mul_zero]
    exact mul_nonneg (sub_nonneg.2 hone) (zpow_pos (base_pos hb) _).le
  · have he : e + 1 ≤ k - 1 := by
      by_contra hge
      have hle : (b : K) ^ (k - 1) ≤ (b : K) ^ e := zpow_le_zpow_right₀ hone (by omega)
      have hm1 : (1 : K) ≤ m := by exact_mod_cast hpos
      have := mul_le_mul_of_nonneg_right hm1 (zpow_pos (base_pos hb) e).le
      linarith
    have hm' : (m : K) ≤ b - 1 := by
      have : ((m + 1 : Nat) : K) ≤ b := by exact_mod_cast hm
      push_cast at this
      linarith
    calc b * ((m : K) * (b : K) ^ e) = m * (b : K) ^ (e + 1) := by
          rw [zpow_add_one₀ (base_pos hb).ne']
          ring
      _ ≤ (b - 1) * (b : K) ^ (k - 1) := mul_le_mul hm' (zpow_le_zpow_right₀ hone he)
          (zpow_pos (base_pos hb) _).le (sub_nonneg.2 hone)

/-! ## Candidates -/

variable [FloorSemiring K]

/-- The digits of the value before the `j`-th unit. -/
def floorAt (I : Bounds K) (b : Nat) (k : Int) (j : Nat) : Nat := ⌊I.value / unit K b k j⌋₊

/-- The multiple of the unit below the value is inside. -/
def Down (I : Bounds K) (b : Nat) (k : Int) (j : Nat) : Prop :=
  I.Within I.low (floorAt I b k j * unit K b k j)

/-- The multiple of the unit above the value is inside. -/
def Up (I : Bounds K) (b : Nat) (k : Int) (j : Nat) : Prop :=
  I.Within ((floorAt I b k j + 1) * unit K b k j) I.high

section
variable (hb : 2 ≤ b)
include hb

theorem floorAt_le : (floorAt I b k j : K) * unit K b k j ≤ I.value := by
  have := Nat.floor_le (div_nonneg I.value_pos.le (unit_pos hb k j).le)
  rwa [le_div_iff₀ (unit_pos hb k j)] at this

theorem lt_floorAt : I.value < (floorAt I b k j + 1) * unit K b k j := by
  have := Nat.lt_floor_add_one (I.value / unit K b k j)
  rwa [div_lt_iff₀ (unit_pos hb k j)] at this

theorem down_of_le {m : Nat} (h : I.Inside (m * unit K b k j))
    (hle : (m : K) * unit K b k j ≤ I.value) :
    Down I b k j ∧ (m : K) * unit K b k j ≤ floorAt I b k j * unit K b k j := by
  have hm : m ≤ floorAt I b k j := Nat.le_floor ((le_div_iff₀ (unit_pos hb k j)).2 hle)
  have hmul : (m : K) * unit K b k j ≤ floorAt I b k j * unit K b k j :=
    mul_le_mul_of_nonneg_right (Nat.cast_le.2 hm) (unit_pos hb k j).le
  exact ⟨h.1.trans_le hmul, hmul⟩

theorem up_of_lt {m : Nat} (h : I.Inside (m * unit K b k j)) (hlt : I.value < m * unit K b k j) :
    Up I b k j ∧ (floorAt I b k j + 1) * unit K b k j ≤ m * unit K b k j := by
  have hm : floorAt I b k j < m := (Nat.floor_lt (div_nonneg I.value_pos.le (unit_pos hb k j).le)).2
    ((div_lt_iff₀ (unit_pos hb k j)).2 hlt)
  have hmul : (floorAt I b k j + 1) * unit K b k j ≤ m * unit K b k j :=
    mul_le_mul_of_nonneg_right (by exact_mod_cast hm) (unit_pos hb k j).le
  exact ⟨Bounds.Within.le_trans hmul h.2, hmul⟩

theorem inside_down (h : Down I b k j) : I.Inside (floorAt I b k j * unit K b k j) :=
  ⟨h, Bounds.within_high (floorAt_le hb)⟩

theorem inside_up (h : Up I b k j) : I.Inside ((floorAt I b k j + 1) * unit K b k j) :=
  ⟨Bounds.within_low (lt_floorAt hb).le, h⟩

/-- A numeral of `j` digits that is inside makes a candidate that is, and one that is not farther from
the value, unless the value is below the power of the base. -/
theorem candidate_of_inside (hk : Scaled I b k) (hj : 1 ≤ j) {m : Nat} (hm : m < b ^ j)
    {e : Int} (h : I.Inside (m * (b : K) ^ e)) :
    (Down I b k j ∧ (m : K) * (b : K) ^ e ≤ floorAt I b k j * unit K b k j) ∨
      (Up I b k j ∧ (floorAt I b k j + 1) * unit K b k j ≤ m * (b : K) ^ e) ∨
      (Up I b k j ∧ I.value < (b : K) ^ (k - 1) ∧ (m : K) * (b : K) ^ e < (b : K) ^ (k - 1)) := by
  obtain ⟨m', hm'⟩ | hlt := @multiple_or_lt K _ _ _ _ k j hb m hm e
  · rw [hm'] at h ⊢
    obtain hle | hgt := le_or_gt ((m' : K) * unit K b k j) I.value
    · exact .inl (down_of_le hb h hle)
    · exact .inr (.inl (up_of_lt hb h hgt))
  · have hlead := Scaled.leading hb hj (K := K) (k := k)
    obtain hle | hgt := le_or_gt ((b : K) ^ (k - 1)) I.value
    · have hinside : I.Inside ((b ^ (j - 1) : Nat) * unit K b k j) := by
        rw [hlead]
        exact ⟨h.1.trans_le hlt.le, Bounds.within_high hle⟩
      obtain ⟨hdown, hmul⟩ := down_of_le hb hinside (by rwa [hlead])
      rw [hlead] at hmul
      exact .inl ⟨hdown, (hlt.le).trans hmul⟩
    · have hinside : I.Inside ((b ^ (j - 1) : Nat) * unit K b k j) := by
        rw [hlead]
        exact ⟨Bounds.within_low hgt.le, hk.lower⟩
      exact .inr (.inr ⟨(up_of_lt hb hinside (by rwa [hlead])).1, hgt, hlt⟩)

end

/-! ## The first candidate -/

/-- Digits are generated up to the first candidate. -/
structure Stops (I : Bounds K) (b : Nat) (k : Int) (n : Nat) : Prop where
  pos : 1 ≤ n
  stop : Down I b k n ∨ Up I b k n
  before : ∀ j, 1 ≤ j → j < n → ¬Down I b k j ∧ ¬Up I b k j

/-- The numeral is the nearer candidate. -/
def Nearer (I : Bounds K) (b : Nat) (k : Int) (n N : Nat) : Prop :=
  (N = floorAt I b k n ∧ Down I b k n ∧ (Up I b k n →
    I.value - floorAt I b k n * unit K b k n ≤ (floorAt I b k n + 1) * unit K b k n - I.value)) ∨
  (N = floorAt I b k n + 1 ∧ Up I b k n ∧ (Down I b k n →
    (floorAt I b k n + 1) * unit K b k n - I.value ≤ I.value - floorAt I b k n * unit K b k n))

/-- A shortest numeral inside of the bounds, and a closest one of its length. -/
structure IsShortest (I : Bounds K) (b : Nat) (k : Int) (n N : Nat) : Prop where
  lower : b ^ (n - 1) ≤ N
  upper : N < b ^ n
  inside : I.Inside (N * (b : K) ^ (k - n))
  shortest : ∀ m < n, ∀ M < b ^ m, ∀ e : Int, ¬I.Inside (M * (b : K) ^ e)
  closest : ∀ M < b ^ n, ∀ e : Int, I.Inside (M * (b : K) ^ e) →
    |N * (b : K) ^ (k - n) - I.value| ≤ |M * (b : K) ^ e - I.value|

theorem stops_at_once (hb : 2 ≤ b) (hk : Scaled I b k) (hstop : Stops I b k n)
    (hlt : I.value < (b : K) ^ (k - 1)) :
    n = 1 ∧ floorAt I b k 1 = 0 ∧ ¬Down I b k 1 ∧ unit K b k 1 = (b : K) ^ (k - 1) := by
  have hunit : unit K b k 1 = (b : K) ^ (k - 1) := by rw [unit, Nat.cast_one]
  have hfloor : floorAt I b k 1 = 0 := by
    rw [floorAt, Nat.floor_eq_zero, hunit]
    exact (div_lt_one (zpow_pos (base_pos hb) _)).2 hlt
  have hup : Up I b k 1 := by
    rw [Up, hfloor, Nat.cast_zero, zero_add, one_mul, hunit]
    exact hk.lower
  have hdown : ¬Down I b k 1 := by
    rw [Down, hfloor, Nat.cast_zero, zero_mul]
    exact fun h => absurd h.le (not_le.2 I.low_pos)
  refine ⟨?_, hfloor, hdown, hunit⟩
  by_contra hne
  exact (hstop.before 1 (le_refl 1) (by have := hstop.pos; omega)).2 hup

theorem Nearer.digits (hb : 2 ≤ b) (hk : Scaled I b k) (hstop : Stops I b k n) {N : Nat}
    (hN : Nearer I b k n N) : b ^ (n - 1) ≤ N ∧ N < b ^ n := by
  have hu := unit_pos hb k n (K := K)
  have hlead := Scaled.leading hb hstop.pos (K := K) (k := k)
  have hpow : ((b ^ n : Nat) : K) * unit K b k n = (b : K) ^ k := by
    rw [pow_mul_unit hb, sub_add_cancel]
  have hlt : I.value < (b : K) ^ k := lt_of_lt_of_le I.lt_high (Bounds.le_of_not_within hk.upper)
  have hfloor : floorAt I b k n < b ^ n := by
    have : (floorAt I b k n : K) * unit K b k n < (b ^ n : Nat) * unit K b k n := by
      rw [hpow]
      exact lt_of_le_of_lt (floorAt_le hb) hlt
    exact_mod_cast lt_of_mul_lt_mul_right this hu.le
  have hlow : (b : K) ^ (k - 1) ≤ I.value → b ^ (n - 1) ≤ floorAt I b k n := fun hle =>
    Nat.le_floor ((le_div_iff₀ hu).2 (by rwa [hlead]))
  obtain ⟨rfl, hdown, -⟩ | ⟨rfl, hup, -⟩ := hN
  · refine ⟨hlow ?_, hfloor⟩
    by_contra hlt
    obtain ⟨rfl, -, hnot, -⟩ := stops_at_once hb hk hstop (not_le.1 hlt)
    exact hnot hdown
  · constructor
    · obtain hle | hgt := le_or_gt ((b : K) ^ (k - 1)) I.value
      · exact Nat.le_succ_of_le (hlow hle)
      · obtain ⟨rfl, hzero, -, -⟩ := stops_at_once hb hk hstop hgt
        rw [hzero]
        exact le_refl 1
    · obtain hlt | heq := lt_or_eq_of_le (Nat.succ_le_of_lt hfloor)
      · exact hlt
      · have hcast : (floorAt I b k n : K) + 1 = (b ^ n : Nat) := by exact_mod_cast heq
        rw [Up, hcast, hpow] at hup
        exact absurd hup hk.upper

/-- The nearer candidate is a closest numeral of its length. -/
theorem Nearer.closest (hb : 2 ≤ b) (hk : Scaled I b k) (hstop : Stops I b k n)
    (hnear : I.value < (b : K) ^ (k - 1) → (2 * b - 1) * (b : K) ^ (k - 1) ≤ 2 * b * I.value)
    {N M : Nat} (hN : Nearer I b k n N) (hM : M < b ^ n) {e : Int}
    (h : I.Inside (M * (b : K) ^ e)) :
    |N * unit K b k n - I.value| ≤ |M * (b : K) ^ e - I.value| := by
  have hle := floorAt_le hb (I := I) (k := k) (j := n)
  have hlt := lt_floorAt hb (I := I) (k := k) (j := n)
  have hcases := candidate_of_inside hb hk hstop.pos hM h
  obtain hval | hval := lt_or_ge I.value ((b : K) ^ (k - 1))
  · obtain ⟨rfl, hzero, hnot, hunit⟩ := stops_at_once hb hk hstop hval
    obtain ⟨-, hdown, -⟩ | ⟨rfl, -, -⟩ := hN
    · exact absurd hdown hnot
    · rw [hzero, hunit] at hcases ⊢
      rw [Nat.cast_zero, zero_add, one_mul] at hcases
      rw [zero_add, Nat.cast_one, one_mul, abs_of_nonneg (sub_nonneg.2 hval.le)]
      obtain h | h | ⟨-, -, hlow⟩ := hcases
      · exact absurd h.1 hnot
      · rw [abs_of_nonneg (by linarith [h.2])]
        linarith [h.2]
      · have hdigit := digit_lt_pow hb (by rwa [pow_one] at hM) hlow
        have hb' := base_pos hb (K := K)
        have hsum : b * ((b : K) ^ (k - 1) + M * (b : K) ^ e) ≤ b * (2 * I.value) := by
          linarith [hnear hval]
        have := le_of_mul_le_mul_left hsum hb'
        rw [abs_sub_comm, abs_of_nonneg (by linarith)]
        linarith
  · have hw : (Down I b k n ∧ (M : K) * (b : K) ^ e ≤ floorAt I b k n * unit K b k n) ∨
        (Up I b k n ∧ (floorAt I b k n + 1) * unit K b k n ≤ M * (b : K) ^ e) :=
      hcases.imp_right fun h => h.resolve_right fun h => not_lt.2 hval h.2.1
    refine abs_le_of_between hle hlt.le (hw.imp And.right And.right) ?_
    obtain ⟨rfl, -, hnearer⟩ | ⟨rfl, -, hnearer⟩ := hN
    · refine .inl ⟨rfl, fun hge => hnearer ?_⟩
      exact (hw.resolve_left fun h => by linarith [h.2]).1
    · refine .inr ⟨by rw [Nat.cast_succ], fun hge => hnearer ?_⟩
      exact (hw.resolve_right fun h => by linarith [h.2]).1

theorem isShortest (hb : 2 ≤ b) (hk : Scaled I b k) (hstop : Stops I b k n)
    (hnear : I.value < (b : K) ^ (k - 1) → (2 * b - 1) * (b : K) ^ (k - 1) ≤ 2 * b * I.value)
    {N : Nat} (hN : Nearer I b k n N) : IsShortest I b k n N := by
  obtain ⟨hlower, hupper⟩ := hN.digits hb hk hstop
  refine ⟨hlower, hupper, ?_, fun m hm M hM e h => ?_, fun M hM e h =>
    hN.closest hb hk hstop hnear hM h⟩
  · obtain ⟨rfl, hdown, -⟩ | ⟨rfl, hup, -⟩ := hN
    · exact inside_down hb hdown
    · rw [Nat.cast_succ]
      exact inside_up hb hup
  · obtain rfl | hpos := Nat.eq_zero_or_pos m
    · have hzero : M = 0 := by simpa using hM
      rw [hzero, Nat.cast_zero, zero_mul] at h
      exact absurd h.1.le (not_le.2 I.low_pos)
    · obtain ⟨hdown, hup⟩ := hstop.before m hpos hm
      obtain h | h | h := candidate_of_inside hb hk hpos hM h
      · exact hdown h.1
      · exact hup h.1
      · exact hup h.1

theorem width_le_unit (hdown : ¬Down I b k j) (hup : ¬Up I b k j) :
    I.high - I.low ≤ unit K b k j := by
  have h1 := Bounds.le_of_not_within hdown
  have h2 := Bounds.le_of_not_within hup
  linarith

end Tortis.Shortest

/-! ## Digits by division -/

namespace Tortis.Shortest

variable {K : Type} [Field K] [LinearOrder K] {b : Nat} {I : Bounds K} {k : Int}
  {s i N m mi pl : Nat}

/-- After `i` digits that make `N`, there are `m / s` units of the next digit left of the value, and
the bounds are `mi / s` and `pl / s` of these units away. -/
structure Rest (I : Bounds K) (b : Nat) (k : Int) (s i N m mi pl : Nat) : Prop where
  value : I.value * s = (N * b * s + m) * unit K b k (i + 1)
  low : (I.value - I.low) * s = mi * unit K b k (i + 1)
  high : (I.high - I.value) * s = pl * unit K b k (i + 1)
  lt : m < b * s

theorem Rest.digit_lt (h : Rest I b k s i N m mi pl) : m / s < b :=
  Nat.div_lt_of_lt_mul (mul_comm b s ▸ h.lt)

variable [IsStrictOrderedRing K]

theorem Rest.below (h : Rest I b k s i N m mi pl) :
    (I.value - ((N * b + m / s : Nat) : K) * unit K b k (i + 1)) * s =
      (m % s : Nat) * unit K b k (i + 1) := by
  have hm : ((m / s : Nat) : K) * s + (m % s : Nat) = m := by
    exact_mod_cast Nat.div_add_mod' m s
  rw [sub_mul, h.value, ← hm]
  push_cast
  ring

theorem Rest.above (hs : 0 < s) (h : Rest I b k s i N m mi pl) :
    ((((N * b + m / s : Nat) : K) + 1) * unit K b k (i + 1) - I.value) * s =
      (s - m % s : Nat) * unit K b k (i + 1) := by
  have hsub : ((s - m % s : Nat) : K) = s - (m % s : Nat) :=
    Nat.cast_sub (le_of_lt (Nat.mod_lt m hs))
  rw [hsub]
  linear_combination -h.below

theorem le_iff_over {c u x y : K} {p q : Nat} (hc : 0 < c) (hu : 0 < u) (hx : x * c = p * u)
    (hy : y * c = q * u) : x ≤ y ↔ p ≤ q := by
  rw [← mul_le_mul_iff_left₀ hc, hx, hy, mul_le_mul_iff_left₀ hu, Nat.cast_le]

theorem lt_iff_over {c u x y : K} {p q : Nat} (hc : 0 < c) (hu : 0 < u) (hx : x * c = p * u)
    (hy : y * c = q * u) : x < y ↔ p < q := by
  rw [← not_le, le_iff_over hc hu hy hx, not_le]

theorem unit_succ (hb : 2 ≤ b) (k : Int) (j : Nat) : unit K b k j = b * unit K b k (j + 1) := by
  have hj : k - ((j + 1 : Nat) : Int) + 1 = k - j := by
    push_cast
    ring
  rw [unit, unit, ← hj, zpow_add_one₀ (base_pos hb).ne', mul_comm]

theorem Rest.start (hb : 2 ≤ b) (hk : ¬I.Within ((b : K) ^ k) I.high) (hs : 0 < s)
    (hvalue : I.value * s = m * (b : K) ^ (k - 1))
    (hlow : (I.value - I.low) * s = mi * (b : K) ^ (k - 1))
    (hhigh : (I.high - I.value) * s = pl * (b : K) ^ (k - 1)) : Rest I b k s 0 0 m mi pl := by
  have hunit : unit K b k (0 + 1) = (b : K) ^ (k - 1) := by
    rw [unit]
    norm_num
  have hs' : (0 : K) < s := Nat.cast_pos.2 hs
  refine ⟨by rw [hunit, hvalue, Nat.cast_zero, zero_mul, zero_mul, zero_add], by rw [hunit, hlow],
    by rw [hunit, hhigh], ?_⟩
  have hlt : I.value < (b : K) ^ k := lt_of_lt_of_le I.lt_high (Bounds.le_of_not_within hk)
  have hpow : (b : K) ^ k * s = (b * s : Nat) * (b : K) ^ (k - 1) := by
    rw [← sub_add_cancel k 1, zpow_add_one₀ (base_pos hb).ne', add_sub_cancel_right]
    push_cast
    ring
  exact (lt_iff_over hs' (zpow_pos (base_pos hb) _) hvalue hpow).1 hlt

namespace Rest

variable (hb : 2 ≤ b) (hs : 0 < s) (h : Rest I b k s i N m mi pl)

include hb hs h

theorem floorAt_eq [FloorSemiring K] : floorAt I b k (i + 1) = N * b + m / s := by
  have hu := unit_pos hb k (i + 1) (K := K)
  have hs' : (0 : K) < s := Nat.cast_pos.2 hs
  have hzero : (0 : K) * s = (0 : Nat) * unit K b k (i + 1) := by simp
  rw [floorAt, Nat.floor_eq_iff (div_nonneg I.value_pos.le hu.le), le_div_iff₀ hu, div_lt_iff₀ hu,
    ← sub_nonneg, ← sub_pos]
  constructor
  · exact (le_iff_over hs' hu hzero h.below).2 (Nat.zero_le _)
  · exact (lt_iff_over hs' hu hzero (h.above hs)).2 (Nat.sub_pos_of_lt (Nat.mod_lt m hs))

theorem down_iff [FloorSemiring K] :
    Down I b k (i + 1) ↔ if I.inclusive then m % s ≤ mi else m % s < mi := by
  have hu := unit_pos hb k (i + 1) (K := K)
  have hs' : (0 : K) < s := Nat.cast_pos.2 hs
  rw [Down, h.floorAt_eq hb hs, Bounds.Within]
  split
  · rw [← le_iff_over hs' hu h.below h.low, sub_le_sub_iff_left]
  · rw [← lt_iff_over hs' hu h.below h.low, sub_lt_sub_iff_left]

theorem up_iff [FloorSemiring K] :
    Up I b k (i + 1) ↔ if I.inclusive then s ≤ m % s + pl else s < m % s + pl := by
  have hu := unit_pos hb k (i + 1) (K := K)
  have hs' : (0 : K) < s := Nat.cast_pos.2 hs
  have hmod := Nat.mod_lt m hs
  rw [Up, h.floorAt_eq hb hs, Bounds.Within]
  split
  · rw [← sub_le_sub_iff_right I.value, le_iff_over hs' hu (h.above hs) h.high]
    omega
  · rw [← sub_lt_sub_iff_right I.value, lt_iff_over hs' hu (h.above hs) h.high]
    omega

theorem floor_nearer_iff [FloorSemiring K] : I.value - floorAt I b k (i + 1) * unit K b k (i + 1) ≤
      (floorAt I b k (i + 1) + 1) * unit K b k (i + 1) - I.value ↔ 2 * (m % s) ≤ s := by
  rw [h.floorAt_eq hb hs, le_iff_over (Nat.cast_pos.2 hs) (unit_pos hb k (i + 1)) h.below
    (h.above hs)]
  omega

theorem ceil_nearer_iff [FloorSemiring K] :
    (floorAt I b k (i + 1) + 1) * unit K b k (i + 1) - I.value ≤
      I.value - floorAt I b k (i + 1) * unit K b k (i + 1) ↔ s ≤ 2 * (m % s) := by
  rw [h.floorAt_eq hb hs, le_iff_over (Nat.cast_pos.2 hs) (unit_pos hb k (i + 1)) (h.above hs)
    h.below]
  omega

theorem next : Rest I b k s (i + 1) (N * b + m / s) (b * (m % s)) (b * mi) (b * pl) := by
  have hunit := unit_succ hb k (i + 1) (K := K)
  have hbelow := h.below
  have hlow := h.low
  have hhigh := h.high
  rw [hunit] at hbelow hlow hhigh
  refine ⟨?_, ?_, ?_, Nat.mul_lt_mul_of_pos_left (Nat.mod_lt m hs) (by omega)⟩
  · rw [sub_mul, sub_eq_iff_eq_add] at hbelow
    rw [hbelow]
    push_cast
    ring
  · rw [hlow]
    push_cast
    ring
  · rw [hhigh]
    push_cast
    ring

end Rest

end Tortis.Shortest
