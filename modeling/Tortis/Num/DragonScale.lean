import Tortis.Num.Dragon
import Tortis.Num.Estimate
import Tortis.Num.Product

/-!
# The scaling of a number to be printed

`mul_pow10` multiplies by the powers of ten that the bits of its argument ask for, so what it does is
the product of what its stages do. The estimate of the exponent (`estimate_fits`) leaves room in
`Big32x40` for all that `scaled` computes (`scaled_spec`).
-/

namespace Tortis.Num.Dragon

open Big Outcome

variable {x : Big32x40} {s n : Nat}

/-! ## Powers of ten -/

theorem length_pow10To16 : pow10To16.length = 2 := rfl

theorem valueOf_pow10To16 : valueOfList pow10To16 = 10 ^ 16 := by decide

theorem length_pow10To32 : pow10To32.length = 4 := rfl

theorem valueOf_pow10To32 : valueOfList pow10To32 = 10 ^ 32 := by decide

theorem length_pow10To64 : pow10To64.length = 7 := rfl

theorem valueOf_pow10To64 : valueOfList pow10To64 = 10 ^ 64 := by decide

theorem length_pow10To128 : pow10To128.length = 14 := rfl

theorem valueOf_pow10To128 : valueOfList pow10To128 = 10 ^ 128 := by decide

theorem length_pow10To256 : pow10To256.length = 27 := rfl

theorem valueOf_pow10To256 : valueOfList pow10To256 = 10 ^ 256 := by decide

theorem pow10_get {j : Nat} (hj : j < 10) : ∃ a, Slice.get pow10 j = .ok a ∧ a.toNat = 10 ^ j := by
  have hall : ∀ j < 10, (pow10[j]?.map BitVec.toNat) = some (10 ^ j) := by decide
  obtain ⟨a, ha, hval⟩ := Option.map_eq_some_iff.1 (hall j hj)
  exact ⟨a, Slice.get_eq ha, hval⟩

variable {s' b : Nat} {f : Big32x40 → Outcome Big32x40}

theorem skipStage (hx : x.Ok) (hs : x.size ≤ s)
    (hf : ∀ z : Big32x40, z.Ok → z.size ≤ s → MakesIn s' (f z) (10 ^ b * z.denote)) :
    MakesIn s' (pure x >>= f) (10 ^ (0 + b) * x.denote) := by
  rw [zero_add]
  exact hf x hx hs

theorem stage {run : Outcome Big32x40} {s' a b m : Nat} (h : MakesIn s run (10 ^ a * m))
    (hf : ∀ z : Big32x40, z.Ok → z.size ≤ s → MakesIn s' (f z) (10 ^ b * z.denote)) :
    MakesIn s' (run >>= f) (10 ^ (a + b) * m) := by
  obtain ⟨z, hz, hok, hsize, hval⟩ := h
  rw [hz, ok_bind, add_comm, pow_add, mul_assoc, ← hval]
  exact hf z hok hsize

theorem smallStage (hx : x.Ok) (hs : x.size ≤ s) (c : Prop) [Decidable c] {j : Nat} (hj : j < 10)
    (hn : s + (if c then 1 else 0) ≤ 40)
    (hf : ∀ z : Big32x40, z.Ok → z.size ≤ s + (if c then 1 else 0) →
      MakesIn s' (f z) (10 ^ b * z.denote)) :
    MakesIn s' (if c then do f (← x.mulSmall (← Slice.get pow10 j)) else pure x >>= f)
      (10 ^ ((if c then j else 0) + b) * x.denote) := by
  split
  · next hc =>
    simp only [if_pos hc] at hn hf
    obtain ⟨a, hget, ha⟩ := pow10_get hj
    rw [hget, ok_bind]
    exact stage (ha ▸ mulSmall_makesIn hx hs hn a) hf
  · next hc =>
    simp only [if_neg hc] at hf
    exact skipStage hx hs hf

variable {other : List (Digit 2)}

theorem digitsStage (hx : x.Ok) (hs : x.size ≤ s) (c : Prop) [Decidable c]
    {l w : Nat} (hl : other.length = l) (hw : valueOfList other = 10 ^ w)
    (hn : s + (if c then l else 0) ≤ 40)
    (hf : ∀ z : Big32x40, z.Ok → z.size ≤ s + (if c then l else 0) →
      MakesIn s' (f z) (10 ^ b * z.denote)) :
    MakesIn s' (if c then x.mulDigits other >>= f else pure x >>= f)
      (10 ^ ((if c then w else 0) + b) * x.denote) := by
  subst hl
  split
  · next hc =>
    simp only [if_pos hc] at hn hf
    have hmul := mulDigits_makesIn hx hs hn
    rw [hw, mul_comm] at hmul
    exact stage hmul hf
  · next hc =>
    simp only [if_neg hc] at hf
    exact skipStage hx hs hf

theorem lastStage (hx : x.Ok) (hs : x.size ≤ s) (c : Prop) [Decidable c]
    {l w : Nat} (hl : other.length = l) (hw : valueOfList other = 10 ^ w)
    (hn : s + (if c then l else 0) ≤ 40) :
    MakesIn (s + if c then l else 0) (if c then x.mulDigits other else pure x)
      (10 ^ (if c then w else 0) * x.denote) := by
  subst hl
  split
  · next hc =>
    rw [if_pos hc] at hn
    rw [← hw, mul_comm]
    exact mulDigits_makesIn hx hs hn
  · exact ⟨x, rfl, hx, hs, by rw [pow_zero, one_mul]⟩

theorem bits_of_exponent : ∀ n ≤ 343,
    (if n &&& 7 ≠ 0 then n &&& 7 else 0) + ((if n &&& 8 ≠ 0 then 8 else 0) +
      ((if n &&& 16 ≠ 0 then 16 else 0) + ((if n &&& 32 ≠ 0 then 32 else 0) +
      ((if n &&& 64 ≠ 0 then 64 else 0) + ((if n &&& 128 ≠ 0 then 128 else 0) +
      (if n &&& 256 ≠ 0 then 256 else 0)))))) = n ∧
    3 + (if n &&& 7 ≠ 0 then 1 else 0) + (if n &&& 8 ≠ 0 then 1 else 0) +
      (if n &&& 16 ≠ 0 then 2 else 0) + (if n &&& 32 ≠ 0 then 4 else 0) +
      (if n &&& 64 ≠ 0 then 7 else 0) + (if n &&& 128 ≠ 0 then 14 else 0) +
      (if n &&& 256 ≠ 0 then 27 else 0) ≤ 40 := by
  decide +kernel

theorem mulPow10_makes (debug : Bool) (hx : x.Ok) (hs : x.size ≤ 3) (hn : n ≤ 343) :
    Makes (mulPow10 debug x n) (10 ^ n * x.denote) := by
  obtain ⟨hexp, hsize⟩ := bits_of_exponent n hn
  have hlow : n &&& 7 < 10 := lt_of_le_of_lt Nat.and_le_right (by decide)
  have hmakes := smallStage hx hs (n &&& 7 ≠ 0) hlow (by omega) fun x1 h1 hs1 =>
    smallStage h1 hs1 (n &&& 8 ≠ 0) (show 8 < 10 by decide) (by omega) fun x2 h2 hs2 =>
    digitsStage h2 hs2 (n &&& 16 ≠ 0) length_pow10To16 valueOf_pow10To16 (by omega) fun x3 h3 hs3 =>
    digitsStage h3 hs3 (n &&& 32 ≠ 0) length_pow10To32 valueOf_pow10To32 (by omega) fun x4 h4 hs4 =>
    digitsStage h4 hs4 (n &&& 64 ≠ 0) length_pow10To64 valueOf_pow10To64 (by omega) fun x5 h5 hs5 =>
    digitsStage h5 hs5 (n &&& 128 ≠ 0) length_pow10To128 valueOf_pow10To128 (by omega)
      fun x6 h6 hs6 =>
    lastStage h6 hs6 (n &&& 256 ≠ 0) length_pow10To256 valueOf_pow10To256 hsize
  rw [hexp] at hmakes
  obtain ⟨z, hz, hok, -, hval⟩ := hmakes
  rw [mulPow10, debugAssert_of (decide_eq_true (by omega)), ok_bind]
  exact ⟨z, hz, hok, hval⟩

/-! ## The estimate -/

/-- What the estimate has to be, for a number of about `2^t`. -/
def EstimateFits (t k : Int) : Prop :=
  10 ^ (k + 325).toNat * 2 ^ 1076 ≤ 2 ^ (t + 1075).toNat * 10 ^ 326 ∧
    2 ^ (t + 1076).toNat * 10 ^ 326 < 10 ^ (k + 327).toNat * 2 ^ 1076 ∧
    -324 ≤ k ∧ k ≤ 308 ∧ (0 ≤ k ↔ 0 ≤ t) ∧ (t ≤ 54 → k ≤ 17)

instance (t k : Int) : Decidable (EstimateFits t k) := inferInstanceAs (Decidable (_ ∧ _))

theorem estimate_eq (mant : Nat) (exp : Int) :
    estimateScalingFactor mant exp = estimateScalingFactor 1 ((mant - 1).size + exp) := by
  rw [estimateScalingFactor, estimateScalingFactor, Nat.sub_self, Nat.size_zero]
  simp only [Nat.cast_zero, Int.zero_add]

theorem pow_toNat_add {a : ℚ} (ha : a ≠ 0) {c : Nat} {i j : Int} (hj : i + c = j) (h : 0 ≤ j) :
    a ^ j.toNat = a ^ i * a ^ c := by
  rw [← zpow_natCast, Int.toNat_of_nonneg h, ← hj, zpow_add₀ ha, zpow_natCast]

theorem estimate_fits {t : Int} (hlow : -1074 ≤ t) (hhigh : t ≤ 1025) :
    EstimateFits t (estimateScalingFactor 1 t) := by
  obtain ⟨-, -, hk⟩ := @estimate_eq_shift 1 t (by decide) (by omega) (by omega)
  rw [Nat.sub_self, Nat.size_zero, Nat.cast_zero, Int.zero_add] at hk
  generalize estimateScalingFactor 1 t = k at *
  have hbelow : (10 : ℚ) ^ k ≤ 2 ^ t := ten_zpow_le (by omega) (by omega)
  have habove : (2 : ℚ) ^ t < 10 ^ (k + 1) := two_zpow_lt (by omega) (by omega)
  refine ⟨?_, ?_, by omega, by omega, by omega, by omega⟩
  · have hk' := @pow_toNat_add 10 (by norm_num) 325 k (k + 325) rfl (by omega)
    have ht' := @pow_toNat_add 2 (by norm_num) 1075 t (t + 1075) rfl (by omega)
    have hscale : ∀ x y : ℚ, 0 ≤ x → 0 ≤ y → 10 ^ k * y * (x * 2) ≤ 2 ^ t * x * (y * 10) :=
      fun x y hx hy => calc
        10 ^ k * y * (x * 2) = 10 ^ k * 2 * (x * y) := by ring
        _ ≤ 2 ^ t * 10 * (x * y) := by gcongr; norm_num
        _ = 2 ^ t * x * (y * 10) := by ring
    have : (10 : ℚ) ^ (k + 325).toNat * 2 ^ 1076 ≤ 2 ^ (t + 1075).toNat * 10 ^ 326 := by
      rw [hk', ht', pow_succ 2 1075, pow_succ 10 325]
      exact hscale _ _ (by positivity) (by positivity)
    exact_mod_cast this
  · have hk' := @pow_toNat_add 10 (by norm_num) 326 (k + 1) (k + 327) (by omega) (by omega)
    have ht' := @pow_toNat_add 2 (by norm_num) 1076 t (t + 1076) rfl (by omega)
    have : (2 : ℚ) ^ (t + 1076).toNat * 10 ^ 326 < 10 ^ (k + 327).toNat * 2 ^ 1076 := by
      rw [hk', ht', mul_right_comm]
      gcongr
    exact_mod_cast this

/-! ## The fractional form -/

structure Fraction.Holds (f : Fraction) (m mi pl s : Nat) : Prop where
  mant : f.mant.Ok ∧ f.mant.denote = m
  minus : f.minus.Ok ∧ f.minus.denote = mi
  plus : f.plus.Ok ∧ f.plus.denote = pl
  scale : f.scale.Ok ∧ f.scale.denote = s

/-- The factor of the number in `2^e / 10^k`. -/
def numer (e k : Int) : Nat := 10 ^ (-k).toNat * 2 ^ e.toNat

/-- The factor of the scale in `2^e / 10^k`. -/
def denom (e k : Int) : Nat := 10 ^ k.toNat * 2 ^ (-e).toNat

theorem numer_pos (e k : Int) : 0 < numer e k :=
  Nat.mul_pos (Nat.pow_pos (by decide)) (Nat.two_pow_pos _)

theorem denom_pos (e k : Int) : 0 < denom e k :=
  Nat.mul_pos (Nat.pow_pos (by decide)) (Nat.two_pow_pos _)

theorem fits_of_printable {d : Decoded} (hd : Printable d) :
    ∃ n : Nat, 2 ≤ n ∧ n ≤ 55 ∧ 2 ^ (n - 1) < d.mant + d.plus ∧ d.mant + d.plus ≤ 2 ^ n ∧
      EstimateFits (n + d.exp) (estimateScalingFactor (d.mant + d.plus) d.exp) := by
  obtain ⟨hminus, hplus, hmant, hlt, hge, hle, -, -⟩ := hd
  have hupper : d.mant + d.plus - 1 < 2 ^ (d.mant + d.plus - 1).size := Nat.lt_size_self _
  have hlow : 2 ≤ (d.mant + d.plus - 1).size := Nat.lt_size.2 (by omega)
  have hhigh : (d.mant + d.plus - 1).size ≤ 55 := Nat.size_le.2 (by omega)
  have hlower : 2 ^ ((d.mant + d.plus - 1).size - 1) ≤ d.mant + d.plus - 1 :=
    Nat.lt_size.1 (by omega)
  refine ⟨(d.mant + d.plus - 1).size, hlow, hhigh, by omega, by omega, ?_⟩
  rw [estimate_eq]
  exact estimate_fits (by omega) (by omega)

theorem fromU64_part {v : Nat} (hv : v < 2 ^ 55) :
    MakesIn 2 (Big.fromU64 (BitVec.ofNat 64 v) : Outcome Big32x40) v :=
  fromU64_makesIn (by decide) (by decide) (by omega) (lt_of_lt_of_le hv (by decide))

/-- The part of `scaled` after the numbers are made. -/
def scaledFrom (debug : Bool) (f : Fraction) (exp k : Int) : Outcome Fraction := do
  let (mant, minus, plus, scale) ←
    if exp < 0 then do
      let scale ← f.scale.mulPow2 debug (-exp).toNat
      pure (f.mant, f.minus, f.plus, scale)
    else do
      let mant ← f.mant.mulPow2 debug exp.toNat
      let minus ← f.minus.mulPow2 debug exp.toNat
      let plus ← f.plus.mulPow2 debug exp.toNat
      pure (mant, minus, plus, f.scale)
  if k ≥ 0 then do
    let scale ← mulPow10 debug scale k.toNat
    pure { mant, minus, plus, scale }
  else do
    let mant ← mulPow10 debug mant (-k).toNat
    let minus ← mulPow10 debug minus (-k).toNat
    let plus ← mulPow10 debug plus (-k).toNat
    pure { mant, minus, plus, scale }

theorem scaled_eq (debug : Bool) (d : Decoded) (k : Int) :
    scaled debug d k = (do
      let mant ← Big.fromU64 (BitVec.ofNat 64 d.mant)
      let minus ← Big.fromU64 (BitVec.ofNat 64 d.minus)
      let plus ← Big.fromU64 (BitVec.ofNat 64 d.plus)
      let scale ← Big.fromSmall 1
      scaledFrom debug { mant, minus, plus, scale } d.exp k) := rfl

/-- The numbers before they are scaled. -/
structure Parts (d : Decoded) (f : Fraction) : Prop where
  holds : f.Holds d.mant d.minus d.plus 1
  mant_size : f.mant.size ≤ 2
  minus_size : f.minus.size ≤ 2
  plus_size : f.plus.size ≤ 2
  scale_size : f.scale.size ≤ 1

variable {d : Decoded} {k : Int} {f : Fraction}

section
variable (debug : Bool)

theorem scaledFrom_scale (h : Parts d f) (hexp : d.exp < 0) (hge : -55 ≤ d.exp) (hk : 0 ≤ k)
    (hle : k ≤ 308) : ∃ f', scaledFrom debug f d.exp k = .ok f' ∧ f'.Holds (numer d.exp k * d.mant)
    (numer d.exp k * d.minus) (numer d.exp k * d.plus) (denom d.exp k) := by
  obtain ⟨⟨hm, hmi, hpl, hsc⟩, -, -, -, hsize⟩ := h
  have hbits : digitBits 2 = 32 := rfl
  obtain ⟨sc, hsc', hok, hs, hval⟩ := mulPow2_makesIn (k := (-d.exp).toNat) debug hsc.1 (by omega)
    hsize (by rw [hbits]; omega)
  rw [hbits] at hs
  obtain ⟨sc', hsc'', hok', hval'⟩ := mulPow10_makes (n := k.toNat) debug hok (by omega) (by omega)
  have hnumer : numer d.exp k = 1 := by
    rw [numer, show d.exp.toNat = 0 by omega, show (-k).toNat = 0 by omega, Nat.pow_zero, Nat.pow_zero]
  refine ⟨⟨f.mant, f.minus, f.plus, sc'⟩, ?_, ?_⟩
  · simp only [scaledFrom, if_pos hexp, hsc', ok_bind, pure_eq, ge_iff_le, if_pos hk, hsc'']
  · rw [hnumer, one_mul, one_mul, one_mul]
    exact ⟨hm, hmi, hpl, hok', by rw [denom, hval', hval, hsc.2, mul_one]⟩

theorem scaledFrom_mant (h : Parts d f) (hexp : d.exp < 0) (hge : -1076 ≤ d.exp) (hk : ¬0 ≤ k)
    (hle : -324 ≤ k) : ∃ f', scaledFrom debug f d.exp k = .ok f' ∧ f'.Holds (numer d.exp k * d.mant)
    (numer d.exp k * d.minus) (numer d.exp k * d.plus) (denom d.exp k) := by
  obtain ⟨⟨hm, hmi, hpl, hsc⟩, hms, hmis, hpls, hsize⟩ := h
  have hbits : digitBits 2 = 32 := rfl
  obtain ⟨sc, hsc', hok, -, hval⟩ := mulPow2_makesIn (k := (-d.exp).toNat) debug hsc.1 (by omega)
    hsize (by rw [hbits]; omega)
  have hpow : ∀ {x : Big32x40} {v : Nat}, x.Ok ∧ x.denote = v → x.size ≤ 2 →
      ∃ z, mulPow10 debug x (-k).toNat = .ok z ∧ z.Ok ∧ z.denote = numer d.exp k * v := by
    intro x v hx hs
    obtain ⟨z, hz, hzok, hzval⟩ := mulPow10_makes (n := (-k).toNat) debug hx.1 (by omega) (by omega)
    refine ⟨z, hz, hzok, ?_⟩
    rw [hzval, hx.2, numer, show d.exp.toNat = 0 by omega, pow_zero, mul_one]
  obtain ⟨m, hm', hm⟩ := hpow hm hms
  obtain ⟨mi, hmi', hmi⟩ := hpow hmi hmis
  obtain ⟨pl, hpl', hpl⟩ := hpow hpl hpls
  refine ⟨⟨m, mi, pl, sc⟩, ?_, hm, hmi, hpl, hok, ?_⟩
  · simp only [scaledFrom, if_pos hexp, hsc', ok_bind, pure_eq, ge_iff_le, if_neg hk,
      hm', hmi', hpl']
  · rw [denom, show k.toNat = 0 by omega, hval, hsc.2, mul_one, pow_zero, one_mul]

theorem scaledFrom_large (h : Parts d f) (hd : Printable d) (hexp : ¬d.exp < 0) (hk : 0 ≤ k)
    (hle : k ≤ 308) : ∃ f', scaledFrom debug f d.exp k = .ok f' ∧ f'.Holds (numer d.exp k * d.mant)
    (numer d.exp k * d.minus) (numer d.exp k * d.plus) (denom d.exp k) := by
  obtain ⟨⟨hm, hmi, hpl, hsc⟩, hms, hmis, hpls, hsize⟩ := h
  have hbits : digitBits 2 = 32 := rfl
  have hmax := hd.exp_le
  have hpow : ∀ {x : Big32x40} {v : Nat}, x.Ok ∧ x.denote = v → 0 < v → x.size ≤ 2 →
      ∃ z, x.mulPow2 debug d.exp.toNat = .ok z ∧ z.Ok ∧ z.denote = numer d.exp k * v := by
    intro x v hx hv hs
    obtain ⟨z, hz, hzok, -, hzval⟩ := mulPow2_makesIn (k := d.exp.toNat) debug hx.1 (by omega) hs
      (by rw [hbits]; omega)
    refine ⟨z, hz, hzok, ?_⟩
    rw [hzval, hx.2, numer, show (-k).toNat = 0 by omega, pow_zero, one_mul]
  obtain ⟨m, hm', hm⟩ := hpow hm (lt_trans hd.minus_pos hd.minus_lt) hms
  obtain ⟨mi, hmi', hmi⟩ := hpow hmi hd.minus_pos hmis
  obtain ⟨pl, hpl', hpl⟩ := hpow hpl hd.plus_pos hpls
  obtain ⟨sc, hsc', hok, hval⟩ := mulPow10_makes (n := k.toNat) debug hsc.1 (by omega) (by omega)
  refine ⟨⟨m, mi, pl, sc⟩, ?_, hm, hmi, hpl, hok, ?_⟩
  · simp only [scaledFrom, if_neg hexp, hm', hmi', hpl', ok_bind, pure_eq, ge_iff_le,
      if_pos hk, hsc']
  · rw [denom, show (-d.exp).toNat = 0 by omega, hval, hsc.2, pow_zero]

theorem scaled_spec (hd : Printable d) (hk : k = estimateScalingFactor (d.mant + d.plus) d.exp) :
    ∃ f, scaled debug d k = .ok f ∧
      f.Holds (numer d.exp k * d.mant) (numer d.exp k * d.minus) (numer d.exp k * d.plus)
        (denom d.exp k) := by
  obtain ⟨n, hn, hn', -, -, -, -, hlow, hhigh, hsign, hsmall⟩ := fits_of_printable hd
  rw [← hk] at hlow hhigh hsign hsmall
  have hlt := hd.lt
  have hminus := hd.minus_lt
  obtain ⟨m, hm, hmok, hms, hmv⟩ := fromU64_part (show d.mant < 2 ^ 55 by omega)
  obtain ⟨mi, hmi, hmiok, hmis, hmiv⟩ := fromU64_part (show d.minus < 2 ^ 55 by omega)
  obtain ⟨pl, hpl, hplok, hpls, hplv⟩ := fromU64_part (show d.plus < 2 ^ 55 by omega)
  obtain ⟨sc, hsc, hscok, hscs, hscv⟩ : MakesIn 1 (Big.fromSmall 1 : Outcome Big32x40) 1 :=
    (fromSmall_makes (by decide) 1).makesIn fun z hz => by
      cases hz
      exact le_refl 1
  have hparts : Parts d ⟨m, mi, pl, sc⟩ :=
    ⟨⟨⟨hmok, hmv⟩, ⟨hmiok, hmiv⟩, ⟨hplok, hplv⟩, hscok, hscv⟩, hms, hmis, hpls, hscs⟩
  rw [scaled_eq, hm, ok_bind, hmi, ok_bind, hpl, ok_bind, hsc, ok_bind]
  by_cases hexp : d.exp < 0
  · by_cases hk0 : 0 ≤ k
    · exact scaledFrom_scale debug hparts hexp (by omega) hk0 hhigh
    · exact scaledFrom_mant debug hparts hexp hd.exp_ge hk0 hlow
  · exact scaledFrom_large debug hparts hd hexp (hsign.2 (by omega)) hhigh

end

end Tortis.Num.Dragon
