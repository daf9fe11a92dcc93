import Tortis.Num.DragonLoop
import Tortis.Num.Estimate

/-!
# The slow printer prints a shortest decimal

The estimate of the exponent is right or one too small, and `fixup` tells which (`fixup_spec`). From
there on the loop generates the digits of the number, and `finish` takes the nearer candidate. So the
result is a shortest decimal in the range, and a nearest one of its length (`formatShortest_spec`).
-/

namespace Tortis.Num

open Shortest Outcome List

/-- The range of the numbers that round to a decoded number. -/
def Decoded.bounds (d : Decoded) (hd : Printable d) : Bounds ℚ where
  low := ((d.mant : ℚ) - d.minus) * 2 ^ d.exp
  value := d.mant * 2 ^ d.exp
  high := ((d.mant : ℚ) + d.plus) * 2 ^ d.exp
  inclusive := d.inclusive
  low_pos := by
    have : (d.minus : ℚ) < d.mant := Nat.cast_lt.2 hd.minus_lt
    exact mul_pos (sub_pos.2 this) (by positivity)
  low_lt := by
    have : (0 : ℚ) < d.minus := Nat.cast_pos.2 hd.minus_pos
    exact mul_lt_mul_of_pos_right (by linarith) (by positivity)
  lt_high := by
    have : (0 : ℚ) < d.plus := Nat.cast_pos.2 hd.plus_pos
    exact mul_lt_mul_of_pos_right (by linarith) (by positivity)

namespace Dragon

open Big

variable {d : Decoded} {k : Int} {f : Fraction} {m mi pl s : Nat} {I : Bounds ℚ}

/-! ## The scale -/

theorem pow_toNat {b : ℚ} (hb : b ≠ 0) (e : Int) : b ^ (-e).toNat * b ^ e = b ^ e.toNat := by
  rw [← zpow_natCast, ← zpow_natCast, ← zpow_add₀ hb]
  congr 1
  omega

theorem numer_mul (e k : Int) : (numer e k : ℚ) * 10 ^ k = 2 ^ e * denom e k := by
  have h1 := pow_toNat (show (10 : ℚ) ≠ 0 by norm_num) k
  have h2 := pow_toNat (show (2 : ℚ) ≠ 0 by norm_num) e
  rw [numer, denom]
  push_cast
  rw [← h1, ← h2]
  ring

theorem small_denom {e k : Int} (he : -1076 ≤ e) (hk : k ≤ 308)
    (hcases : k ≤ 0 ∨ 0 ≤ e ∨ (k ≤ 17 ∧ -55 ≤ e)) : Small (denom e k) := by
  have hpow : ∀ {a b : Nat}, k.toNat ≤ a → (-e).toNat ≤ b → denom e k ≤ 10 ^ a * 2 ^ b :=
    fun ha hb => Nat.mul_le_mul (Nat.pow_le_pow_right (by decide) ha)
      (Nat.pow_le_pow_right (by decide) hb)
  have hle : 128 * (10 ^ 0 * 2 ^ 1076) ≤ radix 2 ^ 40 ∧ 128 * (10 ^ 308 * 2 ^ 0) ≤ radix 2 ^ 40 ∧
      128 * (10 ^ 17 * 2 ^ 55) ≤ radix 2 ^ 40 := by decide +kernel
  obtain h | h | ⟨h, h'⟩ := hcases
  · exact le_trans (Nat.mul_le_mul_left _ (hpow (by omega) (by omega))) hle.1
  · exact le_trans (Nat.mul_le_mul_left _ (hpow (by omega) (by omega))) hle.2.1
  · exact le_trans (Nat.mul_le_mul_left _ (hpow (by omega) (by omega))) hle.2.2

/-! ## The exponent -/

/-- The number and its range over a scale, in units of a power of ten. -/
structure Over (I : Bounds ℚ) (k : Int) (m mi pl s : Nat) : Prop where
  value : I.value * s = m * 10 ^ k
  low : (I.value - I.low) * s = mi * 10 ^ k
  high : (I.high - I.value) * s = pl * 10 ^ k

theorem ten_pow_pos (k : Int) : (0 : ℚ) < 10 ^ k := zpow_pos (by norm_num) k

theorem Over.sum (h : Over I k m mi pl s) : I.high * s = (m + pl : Nat) * 10 ^ k := by
  have hvalue := h.value
  have hhigh := h.high
  push_cast
  linarith

theorem Over.minus_le (hs : 0 < s) (h : Over I k m mi pl s) : mi ≤ m := by
  have hlow := I.low_pos
  exact (le_iff_over (Nat.cast_pos.2 hs) (ten_pow_pos k) h.low h.value).1 (by linarith)

theorem Over.ten (h : Over I k m mi pl s) : Over I (k - 1) (10 * m) (10 * mi) (10 * pl) s := by
  obtain ⟨hvalue, hlow, hhigh⟩ := h
  have hpow : (10 : ℚ) ^ k = 10 ^ (k - 1) * 10 := by
    rw [← zpow_add_one₀ (by norm_num), sub_add_cancel]
  rw [hpow] at hvalue hlow hhigh
  refine ⟨?_, ?_, ?_⟩
  · rw [hvalue]
    push_cast
    ring
  · rw [hlow]
    push_cast
    ring
  · rw [hhigh]
    push_cast
    ring

theorem Over.within_iff (hs : 0 < s) (h : Over I k m mi pl s) :
    I.Within (10 ^ k) I.high ↔ if I.inclusive then s ≤ m + pl else s < m + pl := by
  have hpow : (10 : ℚ) ^ k * s = s * 10 ^ k := mul_comm _ _
  rw [Bounds.Within]
  split
  · exact le_iff_over (Nat.cast_pos.2 hs) (ten_pow_pos k) hpow h.sum
  · exact lt_iff_over (Nat.cast_pos.2 hs) (ten_pow_pos k) hpow h.sum

theorem Over.start (h : Over I (k - 1) m mi pl s) (hk : ¬I.Within ((10 : ℚ) ^ k) I.high)
    (hs : 0 < s) : Rest I 10 k s 0 0 m mi pl :=
  .start (by decide) hk hs h.value h.low h.high

theorem fixup_spec (hs : 0 < s) (hsmall : Small s) (hover : Over I k m mi pl s)
    (hlow : (10 : ℚ) ^ (k - 1) < I.high) (hhigh : I.high < (10 : ℚ) ^ (k + 1))
    (hf : f.Holds m mi pl s) :
    ∃ f' k' m' mi' pl', fixup f I.inclusive k = .ok (f', k') ∧ Scaled I 10 k' ∧
      Rest I 10 k' s 0 0 m' mi' pl' ∧ f'.Holds m' mi' pl' s ∧ f'.scale = f.scale ∧ mi' ≤ 10 * s ∧
      pl' ≤ 10 * s ∧ f.mant.size ≤ f'.mant.size := by
  have hpow : (10 : ℚ) ^ (k + 1) * s = (10 * s : Nat) * 10 ^ k := by
    rw [zpow_add_one₀ (by norm_num)]
    push_cast
    ring
  have hlt : m + pl < 10 * s :=
    (lt_iff_over (Nat.cast_pos.2 hs) (ten_pow_pos k) hover.sum hpow).1 hhigh
  have hmi := hover.minus_le hs
  rw [fixup, roundsUp_spec hf (hsmall.lt (by omega)), ok_bind]
  by_cases hup : if I.inclusive then s ≤ m + pl else s < m + pl
  · rw [if_pos (decide_eq_true hup)]
    have hnot : ¬I.Within ((10 : ℚ) ^ (k + 1)) I.high := fun h => absurd h.le (not_le.2 hhigh)
    refine ⟨f, k + 1, m, mi, pl, rfl, ⟨?_, hnot⟩, ?_, hf, rfl, by omega, by omega, le_rfl⟩
    · rw [Nat.cast_ofNat, add_sub_cancel_right]
      exact (hover.within_iff hs).2 hup
    · exact Over.start (by rwa [add_sub_cancel_right]) hnot hs
  · rw [if_neg (by rwa [decide_eq_true_iff])]
    have hle : m + pl ≤ s := by
      split at hup <;> omega
    have hnot : ¬I.Within ((10 : ℚ) ^ k) I.high := fun h => hup ((hover.within_iff hs).1 h)
    obtain ⟨f', hf', hholds, hscale, hsize⟩ := timesTen_spec hf (hsmall.lt (by omega)) (hsmall.lt (by omega))
      (hsmall.lt (by omega))
    refine ⟨f', k, 10 * m, 10 * mi, 10 * pl, ?_, ⟨?_, hnot⟩, hover.ten.start hnot hs, hholds, hscale,
      by omega, by omega, hsize⟩
    · rw [hf']
      rfl
    · exact Bounds.within_of_lt (by exact_mod_cast hlow)

/-! ## The bounds -/

theorem last_digit (hd : Printable d) (hk : Scaled (d.bounds hd) 10 k) :
    Down (d.bounds hd) 10 k 17 ∨ Up (d.bounds hd) 10 k 17 := by
  by_contra hnot
  rw [not_or] at hnot
  have hwidth := width_le_unit hnot.1 hnot.2
  have hlow : ((10 : Nat) : ℚ) ^ (k - 1) ≤ (d.bounds hd).high := hk.lower.le
  have hpow : ((10 : Nat) : ℚ) ^ (k - 1) = 10 ^ 16 * unit ℚ 10 k 17 := by
    rw [unit, ← zpow_natCast, Nat.cast_ofNat, ← zpow_add₀ (by norm_num)]
    congr 1
    ring
  have hdigits : (d.mant : ℚ) + d.plus < 10 ^ 16 * (d.minus + d.plus) := by exact_mod_cast hd.digits
  have hpos : (0 : ℚ) < 2 ^ d.exp := by positivity
  have hlt : (d.bounds hd).high < 10 ^ 16 * ((d.bounds hd).high - (d.bounds hd).low) := by
    have := mul_lt_mul_of_pos_right hdigits hpos
    simp only [Decoded.bounds]
    linarith
  linarith

theorem le_iff_pow (a b n E : Nat) :
    (a : ℚ) * 10 ^ (-(n : Int)) ≤ b * 2 ^ (-(E : Int)) ↔ a * 2 ^ E ≤ b * 10 ^ n := by
  rw [zpow_neg, zpow_neg, zpow_natCast, zpow_natCast, ← div_eq_mul_inv, ← div_eq_mul_inv,
    div_le_div_iff₀ (by positivity) (by positivity)]
  exact_mod_cast Iff.rfl

/-- What is to be checked of the small subnormal numbers with these exponents. -/
def SubnormalCheck (L E : Nat) : Prop :=
  19 * 10 ^ L < 2 ^ E ∧ 2 ^ E ≤ 2 * 10 ^ (L + 2) ∧
    ∀ m ≤ 9, 2 * m * 10 ^ (L + 1) < 2 ^ E → 2 ^ E ≤ (2 * m + 1) * 10 ^ (L + 1) →
      19 * 2 ^ E ≤ 20 * (2 * m) * 10 ^ (L + 1)

instance (L E : Nat) : Decidable (SubnormalCheck L E) := inferInstanceAs (Decidable (_ ∧ _ ∧ _))

/-- A small subnormal number that is below a power of ten in its range is near to it. -/
theorem near_subnormal {x m E L : Nat} {e : Int} (h : SubnormalCheck L E) (hx : x = 2 * m)
    (hm : 1 ≤ m) (hm' : m ≤ 9) (hlt : (x : ℚ) * 2 ^ (-(E : Int)) < 10 ^ e)
    (hle : (10 : ℚ) ^ e ≤ (x + 1 : Nat) * 2 ^ (-(E : Int))) :
    19 * (10 : ℚ) ^ e ≤ 20 * (x * 2 ^ (-(E : Int))) := by
  obtain ⟨h1, h2, hcheck⟩ := h
  have hnear := hcheck m hm'
  rw [← hx] at hnear
  obtain he | he | he : -(L : Int) ≤ e ∨ e ≤ -((L + 2 : Nat) : Int) ∨ e = -((L + 1 : Nat) : Int) := by
    omega
  · have hpow : (10 : ℚ) ^ (-(L : Int)) ≤ 10 ^ e := zpow_le_zpow_right₀ (by norm_num) he
    have := (le_iff_pow 1 (x + 1) L E).1 (by rw [Nat.cast_one, one_mul]; exact hpow.trans hle)
    have := Nat.mul_le_mul_right (10 ^ L) (show x + 1 ≤ 19 by omega)
    omega
  · have hpow : (10 : ℚ) ^ e ≤ 10 ^ (-((L + 2 : Nat) : Int)) := zpow_le_zpow_right₀ (by norm_num) he
    have hnot := mt (le_iff_pow 1 x (L + 2) E).2 (by
      rw [Nat.cast_one, one_mul]
      exact not_le.2 (hlt.trans_le hpow))
    have := Nat.mul_le_mul_right (10 ^ (L + 2)) (show 2 ≤ x by omega)
    omega
  · subst he
    have hlow := mt (le_iff_pow 1 x (L + 1) E).2 (by
      rw [Nat.cast_one, one_mul]
      exact not_le.2 hlt)
    have hhigh := (le_iff_pow 1 (x + 1) (L + 1) E).1 (by rwa [Nat.cast_one, one_mul])
    have := (le_iff_pow 19 (20 * x) (L + 1) E).2 (hnear (by omega) (by omega))
    push_cast at this ⊢
    linarith

theorem check_f64 : SubnormalCheck 322 1075 := by decide +kernel

theorem check_f32 : SubnormalCheck 43 150 := by decide

theorem near_power (hd : Printable d) {e : Int} (hlt : (d.bounds hd).value < 10 ^ e)
    (hle : (10 : ℚ) ^ e ≤ (d.bounds hd).high) : 19 * (10 : ℚ) ^ e ≤ 20 * (d.bounds hd).value := by
  simp only [Decoded.bounds] at hlt hle ⊢
  obtain hfar | ⟨hplus, hexp, m, hm, hm1, hm9⟩ := hd.near
  · have hfar : 19 * (d.plus : ℚ) ≤ d.mant := by exact_mod_cast hfar
    have hpos : (0 : ℚ) < 2 ^ d.exp := by positivity
    have := mul_le_mul_of_nonneg_right hfar hpos.le
    linarith
  · have hsum : (d.mant : ℚ) + d.plus = (d.mant + 1 : Nat) := by
      rw [hplus]
      push_cast
      ring
    rw [hsum] at hle
    obtain hexp | hexp := hexp
    · rw [hexp, show (-1075 : Int) = -((1075 : Nat) : Int) from rfl] at hlt hle ⊢
      exact near_subnormal check_f64 hm hm1 hm9 hlt hle
    · rw [hexp, show (-150 : Int) = -((150 : Nat) : Int) from rfl] at hlt hle ⊢
      exact near_subnormal check_f32 hm hm1 hm9 hlt hle

/-! ## The rounding -/

def finishWith (g : Generated) (k : Int) (roundUp? : Bool) : Outcome (Nat × Int × List UInt8) := do
  if roundUp? then do
    let (c, buf) ← roundUp g.buf g.i
    match c with
    | some c => do
      let buf ← Slice.set buf g.i c
      pure (g.i + 1, k + 1, buf)
    | none => pure (g.i, k, buf)
  else pure (g.i, k, g.buf)

theorem finish_eq (debug : Bool) {g : Generated} {len : Nat} (hsmall : Small s)
    (hg : g.Ends I k s len) {scale : Big32x40} (hscale : scale.Ok ∧ scale.denote = s) :
    ∃ r : Bool, (r = true ↔ Up I 10 k g.i ∧ (Down I 10 k g.i → s ≤ 2 * g.mant.denote)) ∧
      finish debug g scale k = finishWith g k r := by
  have hdown := hg.down
  have hup := hg.up
  have hlt := hg.mant_lt
  obtain ⟨hsc, hscv⟩ := hscale
  cases hgu : g.up with
  | false =>
    rw [hgu] at hup
    refine ⟨false, ⟨nofun, fun h => hup.2 h.1⟩, ?_⟩
    rw [finish, hgu]
    rfl
  | true =>
    rw [hgu] at hup
    cases hgd : g.down with
    | false =>
      rw [hgd] at hdown
      refine ⟨true, ⟨fun _ => ⟨hup.1 rfl, fun h => absurd (hdown.2 h) nofun⟩, fun _ => rfl⟩, ?_⟩
      rw [finish, hgu, hgd]
      rfl
    | true =>
      rw [hgd] at hdown
      refine ⟨decide (s ≤ 2 * g.mant.denote), ?_, ?_⟩
      · rw [decide_eq_true_iff]
        exact ⟨fun h => ⟨hup.1 rfl, fun _ => h⟩, fun h => h.2 (hdown.1 rfl)⟩
      · obtain ⟨z, hz, hok, hval⟩ : Makes (g.mant.mulPow2 debug 1) (2 ^ 1 * g.mant.denote) := by
          refine mulPow2_makes debug hg.mant_ok hg.mant_size ?_ (hsmall.lt (by omega))
          exact hg.mant_ok.size_le
        have hcmp : decide (compare z.denote scale.denote ≠ .lt) = decide (s ≤ 2 * g.mant.denote) := by
          rw [decide_eq_decide, ne_eq, Nat.compare_eq_lt, not_lt, hscv, hval, pow_one]
        rw [finish, hgu, hgd]
        simp only [Bool.not_true, Bool.false_eq_true, if_true, if_false, hz, ok_bind,
          cmp_ok hok hsc, hcmp]
        rfl

theorem finishWith_spec {g : Generated} {len : Nat} (hg : g.Ends I k s len) (hlen : 17 ≤ len)
    (hk : Scaled I 10 k) {r : Bool}
    (hr : r = true ↔ Up I 10 k g.i ∧ (Down I 10 k g.i → s ≤ 2 * g.mant.denote)) :
    ∃ buf, finishWith g k r = .ok (g.i, k, buf) ∧ buf.length = len ∧ IsDigits (buf.take g.i) ∧
      Nearer I 10 k g.i (numeral (buf.take g.i)) := by
  cases r with
  | false =>
    have hnot : ¬(Up I 10 k g.i ∧ (Down I 10 k g.i → s ≤ 2 * g.mant.denote)) :=
      fun h => Bool.false_ne_true (hr.2 h)
    have hdown : Down I 10 k g.i := by
      by_contra h
      exact hnot ⟨hg.stops.stop.resolve_left h, fun h' => absurd h' h⟩
    refine ⟨g.buf, rfl, hg.length, hg.digits, .inl ⟨hg.value, hdown, fun hup => ?_⟩⟩
    rw [hg.floor_nearer]
    by_contra h
    exact hnot ⟨hup, fun _ => by omega⟩
  | true =>
    obtain ⟨hup, hnear⟩ := hr.1 rfl
    have hN : Nearer I 10 k g.i (floorAt I 10 k g.i + 1) :=
      .inr ⟨rfl, hup, fun hdown => hg.ceil_nearer.2 (hnear hdown)⟩
    have hlt := (hN.digits (by decide) hk hg.stops).2
    have hle := hg.le
    obtain ⟨buf, hround, hlen', hdigits, hval⟩ := roundUp_eq (by rw [hg.length]; omega) hg.digits
      (by rwa [hg.value])
    refine ⟨buf, ?_, hlen'.trans hg.length, hdigits, ?_⟩
    · rw [finishWith, if_pos rfl, hround]
      rfl
    · rwa [hval, hg.value]

/-! ## The printer -/

theorem high_between (hd : Printable d) (hk : k = estimateScalingFactor (d.mant + d.plus) d.exp) :
    (10 : ℚ) ^ (k - 1) < (d.bounds hd).high ∧ (d.bounds hd).high < 10 ^ (k + 1) := by
  have hge := hd.exp_ge
  have hle := hd.exp_le
  have hlt := hd.lt
  have hpos := hd.plus_pos
  have h := @estimate_bounds (d.mant + d.plus) d.exp (by omega) (by omega) (by omega) (by omega)
  rwa [← hk, Nat.cast_add] at h

theorem over_of_printable (hd : Printable d) (k : Int) :
    Over (d.bounds hd) k (numer d.exp k * d.mant) (numer d.exp k * d.minus) (numer d.exp k * d.plus)
      (denom d.exp k) := by
  have := numer_mul d.exp k
  refine ⟨?_, ?_, ?_⟩ <;> simp only [Decoded.bounds] <;> push_cast
  · linear_combination -(d.mant : ℚ) * this
  · linear_combination -(d.minus : ℚ) * this
  · linear_combination -(d.plus : ℚ) * this

theorem formatShortest_eq (debug : Bool) (hd : Printable d) {buf : List UInt8}
    (hlen : maxSigDigits ≤ buf.length) :
    formatShortest debug d buf = (do
      let f ← scaled debug d (estimateScalingFactor (d.mant + d.plus) d.exp)
      let (f, k) ← fixup f d.inclusive (estimateScalingFactor (d.mant + d.plus) d.exp)
      let m ← multiples debug f.scale
      let g ← shortestLoop debug d.inclusive m (buf.length + 1) f buf 0
      finish debug g f.scale k) := by
  have hminus := hd.minus_pos
  have hminus' := hd.minus_lt
  have hlt := hd.lt
  rw [formatShortest, bind_of_assert (by omega), bind_of_assert hminus, bind_of_assert hd.plus_pos,
    bind_of_assert (by omega), bind_of_assert hminus'.le, bind_of_assert hlen]

theorem shortest_of_printable (debug : Bool) (hd : Printable d) {buf : List UInt8}
    (hlen : 17 ≤ buf.length) : ∃ n k buf', formatShortest debug d buf = .ok (n, k, buf') ∧ n ≤ 17 ∧
      buf'.length = buf.length ∧ IsDigits (buf'.take n) ∧
      IsShortest (d.bounds hd) 10 k n (numeral (buf'.take n)) := by
  obtain ⟨e, he⟩ : ∃ e, e = estimateScalingFactor (d.mant + d.plus) d.exp := ⟨_, rfl⟩
  obtain ⟨n, -, hn', -, -, -, -, -, hk', hsign, hk17⟩ := fits_of_printable hd
  rw [← he] at hk' hsign hk17
  obtain ⟨f, hf, hholds⟩ := scaled_spec debug hd he
  obtain ⟨hbelow, habove⟩ := high_between hd he
  have hover := over_of_printable hd e
  have hs := denom_pos d.exp e
  have hsmall : Small (denom d.exp e) := small_denom hd.exp_ge hk' (by omega)
  obtain ⟨f', k, m, mi, pl, hfix, hscaled, hrest, hholds', -, hmi, hpl, hsize⟩ :=
    fixup_spec hs hsmall hover hbelow habove hholds
  obtain ⟨ms, hms, hmholds, hmscale⟩ := multiples_spec debug hholds'.scale hs hsmall
  have hmant : 0 < f.mant.size := hholds.mant.1.size_pos (by
    rw [hholds.mant.2]
    exact mul_pos (numer_pos _ _) (lt_trans hd.minus_pos hd.minus_lt))
  have hstart : LoopAt (d.bounds hd) k ms (denom d.exp e) f' buf 0 0 m mi pl := by
    refine ⟨hrest, hholds', hmscale.symm, lt_of_lt_of_le hmant hsize, hmi, hpl, fun j h h' => ?_,
      ?_, ?_, Nat.zero_le _, hlen⟩
    · omega
    · exact nofun
    · rfl
  obtain ⟨g, hloop, hends⟩ := shortestLoop_spec debug hs hsmall hmholds (last_digit hd hscaled)
    hstart (show 17 ≤ 0 + (buf.length + 1) by omega)
  obtain ⟨r, hr, hfinish⟩ := finish_eq debug hsmall hends hholds'.scale
  obtain ⟨buf', hround, hlen', hdigits, hnearer⟩ := finishWith_spec hends hlen hscaled hr
  refine ⟨g.i, k, buf', ?_, hends.le, hlen', hdigits,
    isShortest (by decide) hscaled hends.stops (fun hlt => ?_) hnearer⟩
  · rw [formatShortest_eq debug hd hlen, ← he, hf, ok_bind,
      show d.inclusive = (d.bounds hd).inclusive from rfl, hfix, ok_bind]
    dsimp only
    rw [hms, ok_bind, hloop, ok_bind, hfinish, hround]
  · have := near_power hd (e := k - 1) (by exact_mod_cast hlt) (by exact_mod_cast hscaled.lower.le)
    push_cast
    linarith

end Dragon

/-- Whatever number `decode` gives, the slow printer returns digits that make a shortest decimal in
the range of the number, and a nearest one of its length. The first digit is not a zero. -/
theorem formatShortest_spec (T : RawFloat) (v : BitVec T.width) (debug neg : Bool) (d : Decoded)
    (buf : List UInt8) (h : decode T v = (neg, .finite d)) (hlen : 17 ≤ buf.length) :
    ∃ n k buf', Dragon.formatShortest debug d buf = .ok (n, k, buf') ∧ n ≤ 17 ∧
      buf'.length = buf.length ∧ IsDigits (buf'.take n) ∧ buf'.head? ≠ some 48 ∧
      IsShortest (d.bounds (printable h)) 10 k n (numeral (buf'.take n)) := by
  obtain ⟨n, k, buf', hrun, hn, hlen', hdigits, hshort⟩ :=
    Dragon.shortest_of_printable debug (printable h) hlen
  refine ⟨n, k, buf', hrun, hn, hlen', hdigits, ?_, hshort⟩
  have hpos : 0 < n := by
    by_contra hzero
    have := hshort.upper
    have := hshort.lower
    rw [Nat.eq_zero_of_not_pos hzero] at *
    omega
  have htake : (buf'.take n).length = n := by
    rw [length_take]
    omega
  have hhead := head_ne_zero hdigits (by
    rw [htake]
    exact hshort.lower)
  rwa [head?_take, if_neg (by omega)] at hhead

/-- The number one is printed. -/
theorem formatShortest_one :
    ∃ n k buf', Dragon.formatShortest true ⟨2 ^ 54, 1, 2, -54, true⟩ (replicate 17 0) =
      .ok (n, k, buf') ∧ n ≤ 17 := by
  obtain ⟨n, k, buf', hrun, hn, -⟩ := formatShortest_spec .f64 0x3ff0000000000000#64 true false
    ⟨2 ^ 54, 1, 2, -54, true⟩ (replicate 17 0) (by decide) (by decide)
  exact ⟨n, k, buf', hrun, hn⟩

end Tortis.Num
