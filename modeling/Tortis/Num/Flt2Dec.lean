import Mathlib.Tactic.NormNum
import Tortis.Lib.Pieces
import Tortis.Lib.Slice
import Mathlib.Data.Int.Bitwise

/-!
# Floating-point numbers to be printed

`f32` and `f64` are read as bit patterns. The two implementations of `RawFloat` differ in their
constants; `classify` and `integer_decode` are one definition over these. The masks cut the bits in
an exponent and a mantissa, and both functions are read off these parts.

`decode` gives the number that is printed, with the range of the numbers that round to it.
-/

namespace Tortis.Num

open Slice

/-- The types that `RawFloat` is implemented for. -/
inductive RawFloat where
  | f32
  | f64

inductive FpCategory where
  | nan
  | infinite
  | zero
  | subnormal
  | normal

namespace RawFloat

variable {T : RawFloat} {bits : Nat}

/-- The number of bits of `Self::Bits`. -/
def width : RawFloat → Nat
  | f32 => 32
  | f64 => 64

/-- `SIG_BITS`: the number of bits in the significand, including the hidden bit. -/
def sigBits : RawFloat → Nat
  | f32 => 24
  | f64 => 53

/-- `EXP_BITS`: the number of bits in the exponent. -/
def expBits : RawFloat → Nat
  | f32 => 8
  | f64 => 11

section
variable (T : RawFloat)

/-- `EXPLICIT_SIG_BITS`: the number of bits in the significand, excluding the hidden bit. -/
def explicitSigBits : Nat := T.sigBits - 1

/-- The mask of the exponent in `integer_decode`, where it is shifted down. -/
def expMask : RawFloat → Nat
  | f32 => 0xff
  | f64 => 0x7ff

/-- The mask of the mantissa in `integer_decode`, and `MAN_MASK` of `classify`. -/
def manMask : RawFloat → Nat
  | f32 => 0x7fffff
  | f64 => 0xfffffffffffff

/-- `EXP_MASK` of `classify`. -/
def classExpMask : RawFloat → Nat
  | f32 => 0x7f800000
  | f64 => 0x7ff0000000000000

def hiddenBit : RawFloat → Nat
  | f32 => 0x800000
  | f64 => 0x10000000000000

/-- Exponent bias and mantissa shift in `integer_decode`. -/
def expOffset : RawFloat → Int
  | f32 => 127 + 23
  | f64 => 1023 + 52

def minPositive : RawFloat → Nat
  | f32 => 0x00800000
  | f64 => 0x0010000000000000

section
variable (bits : Nat)

def classify : FpCategory :=
  if bits &&& T.classExpMask = 0 then
    if bits &&& T.manMask = 0 then .zero else .subnormal
  else if bits &&& T.classExpMask = T.classExpMask then
    if bits &&& T.manMask = 0 then .infinite else .nan
  else .normal

def integerDecode : Nat × Int × Int :=
  let sign := if bits >>> (T.width - 1) = 0 then 1 else -1
  let exponent := (bits >>> T.explicitSigBits) &&& T.expMask
  let mantissa :=
    if exponent = 0 then (bits &&& T.manMask) <<< 1 else (bits &&& T.manMask) ||| T.hiddenBit
  (mantissa, exponent - T.expOffset, sign)

/-! ## The parts of a bit pattern -/

theorem manMask_eq : T.manMask = 2 ^ T.explicitSigBits - 1 := by
  cases T <;> rfl

theorem expMask_eq : T.expMask = 2 ^ T.expBits - 1 := by
  cases T <;> rfl

theorem hiddenBit_eq : T.hiddenBit = 2 ^ T.explicitSigBits := by
  cases T <;> rfl

theorem classExpMask_eq : T.classExpMask = T.expMask <<< T.explicitSigBits := by
  cases T <;> rfl

/-- The mantissa without the hidden bit. -/
def frac : Nat := bits % 2 ^ T.explicitSigBits

/-- The exponent with its bias. -/
def biased : Nat := bits / 2 ^ T.explicitSigBits % 2 ^ T.expBits

theorem frac_lt : T.frac bits < 2 ^ T.explicitSigBits :=
  Nat.mod_lt _ (Nat.two_pow_pos _)

theorem biased_lt : T.biased bits < 2 ^ T.expBits :=
  Nat.mod_lt _ (Nat.two_pow_pos _)

theorem and_manMask : bits &&& T.manMask = T.frac bits := by
  rw [manMask_eq, Nat.and_two_pow_sub_one_eq_mod, frac]

theorem shift_and_expMask : (bits >>> T.explicitSigBits) &&& T.expMask = T.biased bits := by
  rw [expMask_eq, Nat.and_two_pow_sub_one_eq_mod, Nat.shiftRight_eq_div_pow, biased]

theorem and_classExpMask : bits &&& T.classExpMask = T.biased bits <<< T.explicitSigBits := by
  rw [classExpMask_eq, ← shift_and_expMask]
  refine Nat.eq_of_testBit_eq fun i => ?_
  by_cases hi : T.explicitSigBits ≤ i
  · simp [hi]
  · simp [hi]

theorem or_hiddenBit : T.frac bits ||| T.hiddenBit = 2 ^ T.explicitSigBits + T.frac bits := by
  have := Nat.two_pow_add_eq_or_of_lt (frac_lt T bits) 1
  rw [mul_one] at this
  rw [hiddenBit_eq, this, Nat.lor_comm]

theorem shiftLeft_eq_zero {a k : Nat} : a <<< k = 0 ↔ a = 0 := by
  rw [Nat.shiftLeft_eq, Nat.mul_eq_zero]
  exact or_iff_left (Nat.two_pow_pos k).ne'

theorem shiftLeft_inj {a b k : Nat} : a <<< k = b <<< k ↔ a = b := by
  rw [Nat.shiftLeft_eq, Nat.shiftLeft_eq]
  exact Nat.mul_left_inj (Nat.two_pow_pos k).ne'

theorem classify_eq :
    T.classify bits =
      if T.biased bits = 0 then if T.frac bits = 0 then .zero else .subnormal
      else if T.biased bits = T.expMask then if T.frac bits = 0 then .infinite else .nan
      else .normal := by
  rw [classify, and_classExpMask, and_manMask]
  simp only [shiftLeft_eq_zero, classExpMask_eq, shiftLeft_inj]

theorem integerDecode_fst :
    (T.integerDecode bits).1 =
      if T.biased bits = 0 then 2 * T.frac bits else 2 ^ T.explicitSigBits + T.frac bits := by
  simp only [integerDecode, shift_and_expMask, and_manMask, or_hiddenBit, Nat.shiftLeft_eq,
    pow_one, mul_comm]

theorem integerDecode_exp : (T.integerDecode bits).2.1 = T.biased bits - T.expOffset := by
  simp only [integerDecode, shift_and_expMask]

end

end

end RawFloat

/-! ## Floating-point numbers to be printed -/

/-- `Decoded`: any number from `(mant - minus) * 2^exp` to `(mant + plus) * 2^exp` rounds to
`mant * 2^exp`. -/
structure Decoded where
  mant : Nat
  minus : Nat
  plus : Nat
  exp : Int
  /-- True when the range is inclusive. -/
  inclusive : Bool
deriving DecidableEq

inductive FullDecoded where
  | nan
  | infinite
  | zero
  | finite (decoded : Decoded)
deriving DecidableEq

/-- `decode`: whether the number is negative, and its magnitude. -/
def decode (T : RawFloat) (v : BitVec T.width) : Bool × FullDecoded :=
  let (mant, exp, sign) := T.integerDecode v.toNat
  let even := mant &&& 1 = 0
  let decoded :=
    match T.classify v.toNat with
    | .nan => .nan
    | .infinite => .infinite
    | .zero => .zero
    | .subnormal =>
      -- neighbors: (mant - 2, exp) -- (mant, exp) -- (mant + 2, exp)
      .finite { mant, minus := 1, plus := 1, exp, inclusive := even }
    | .normal =>
      let minnorm := T.integerDecode T.minPositive
      if mant = minnorm.1 then
        -- neighbors: (maxmant, exp - 1) -- (minnormmant, exp) -- (minnormmant + 1, exp)
        .finite { mant := mant <<< 2, minus := 1, plus := 2, exp := exp - 2, inclusive := even }
      else
        -- neighbors: (mant - 1, exp) -- (mant, exp) -- (mant + 1, exp)
        .finite { mant := mant <<< 1, minus := 1, plus := 1, exp := exp - 1, inclusive := even }
  (decide (sign < 0), decoded)

def maxSigDigits : Nat := 17

/-- The assignments of zeros in `round_up`, from `j` on and below `n`. -/
def fillZeros (d : List UInt8) (j n : Nat) : Outcome (List UInt8) :=
  (List.range' j (n - j)).foldlM (fun d j => set d j 48) d

/-- `round_up`: increases the last digit and propagates the carry. Returns a next digit when it
causes the length change. -/
def roundUp (d : List UInt8) (n : Nat) : Outcome (Option UInt8 × List UInt8) := do
  let slice ← sliceTo d n
  match Pieces.rposition (fun c => c != 57) slice with
  | some i => do
    -- `d[i+1..n]` is all nines
    let c ← get d i
    let d ← set d i (c + 1)
    let d ← fillZeros d (i + 1) n
    pure (none, d)
  | none =>
    if n > 0 then do
      -- 999..999 rounds to 1000..000 with an increased exponent
      let d ← set d 0 49
      let d ← fillZeros d 1 n
      pure (some 48, d)
    else
      -- an empty buffer rounds up (a bit strange but reasonable)
      pure (some 49, d)

def estimateScalingFactor (mant : Nat) (exp : Int) : Int :=
  -- 2^(nbits-1) < mant <= 2^nbits if mant > 0
  let nbits : Int := (mant - 1).size
  -- 1292913986 = floor(2^32 * log_10 2)
  (((nbits + exp) * 1292913986) >>> 32).bmod (2 ^ 16)

/-! ## What is printed -/

/-- What the printers need to know about a number. -/
structure Printable (d : Decoded) : Prop where
  minus_pos : 0 < d.minus
  plus_pos : 0 < d.plus
  minus_lt : d.minus < d.mant
  lt : d.mant + d.plus < 2 ^ 55
  exp_ge : -1076 ≤ d.exp
  exp_le : d.exp ≤ 970
  digits : d.mant + d.plus < 10 ^ 16 * (d.minus + d.plus)
  near : 19 * d.plus ≤ d.mant ∨
    d.plus = 1 ∧ (d.exp = -1075 ∨ d.exp = -150) ∧ ∃ m, d.mant = 2 * m ∧ 1 ≤ m ∧ m ≤ 9

theorem RawFloat.ranges (T : RawFloat) :
    2 ^ 23 ≤ 2 ^ T.explicitSigBits ∧ 2 ^ T.explicitSigBits ≤ 2 ^ 52 ∧
      (T.expOffset = 150 ∨ T.expOffset = 1075) := by
  cases T <;> decide

variable {T : RawFloat} {v : BitVec T.width} {d : Decoded}

theorem decode_finite {neg : Bool} (h : decode T v = (neg, .finite d)) :
    (T.biased v.toNat = 0 ∧ T.frac v.toNat ≠ 0 ∧ d.mant = 2 * T.frac v.toNat ∧ d.minus = 1 ∧
      d.plus = 1 ∧ d.exp = -T.expOffset) ∨
    (T.biased v.toNat ≠ 0 ∧ T.biased v.toNat ≠ T.expMask ∧ d.minus = 1 ∧
      ((T.frac v.toNat = 0 ∧ d.mant = 4 * 2 ^ T.explicitSigBits ∧ d.plus = 2 ∧
        d.exp = T.biased v.toNat - T.expOffset - 2) ∨
      (T.frac v.toNat ≠ 0 ∧ d.mant = 2 * (2 ^ T.explicitSigBits + T.frac v.toNat) ∧ d.plus = 1 ∧
        d.exp = T.biased v.toNat - T.expOffset - 1))) := by
  have hmin : (T.integerDecode T.minPositive).1 = 2 ^ T.explicitSigBits := by
    cases T <;> decide
  have hfst := T.integerDecode_fst v.toNat
  have hexp := T.integerDecode_exp v.toNat
  rcases hdec : T.integerDecode v.toNat with ⟨mant, exp, sign⟩
  rw [hdec] at hfst hexp
  rw [decode, hdec] at h
  obtain ⟨-, hd⟩ := Prod.mk.inj h
  dsimp only at hd hfst hexp
  rw [RawFloat.classify_eq, hmin] at hd
  subst hfst hexp
  by_cases hb : T.biased v.toNat = 0
  · simp only [if_pos hb] at hd
    by_cases hf : T.frac v.toNat = 0
    · rw [if_pos hf] at hd
      cases hd
    · rw [if_neg hf] at hd
      cases hd
      exact .inl ⟨hb, hf, rfl, rfl, rfl, by simp [hb]⟩
  · simp only [if_neg hb] at hd
    by_cases hm : T.biased v.toNat = T.expMask
    · by_cases hf : T.frac v.toNat = 0
      · rw [if_pos hm, if_pos hf] at hd
        cases hd
      · rw [if_pos hm, if_neg hf] at hd
        cases hd
    · rw [if_neg hm] at hd
      by_cases hf : T.frac v.toNat = 0
      · rw [if_pos (by rw [hf, add_zero])] at hd
        cases hd
        refine .inr ⟨hb, hm, rfl, .inl ⟨hf, ?_, rfl, rfl⟩⟩
        rw [hf, add_zero, Nat.shiftLeft_eq, mul_comm]
      · rw [if_neg (by omega)] at hd
        cases hd
        refine .inr ⟨hb, hm, rfl, .inr ⟨hf, ?_, rfl, rfl⟩⟩
        rw [Nat.shiftLeft_eq, mul_comm]

theorem printable {neg : Bool} (h : decode T v = (neg, .finite d)) : Printable d := by
  obtain ⟨hlow, hhigh, hoff⟩ := T.ranges
  have hfrac := T.frac_lt v.toNat
  obtain ⟨hb, hf, hmant, hminus, hplus, hexp⟩ | ⟨hb, hm, hminus, hnormal⟩ := decode_finite h
  · refine ⟨by omega, by omega, by omega, by omega, by omega, by omega, by omega, ?_⟩
    obtain hm | hm := lt_or_ge (T.frac v.toNat) 10
    · exact .inr ⟨hplus, by omega, _, hmant, by omega, by omega⟩
    · exact .inl (by omega)
  · have hrange : -1074 ≤ (T.biased v.toNat : Int) - T.expOffset ∧
        (T.biased v.toNat : Int) - T.expOffset ≤ 971 := by
      have hlt := T.biased_lt v.toNat
      cases T with
      | f32 =>
        simp only [RawFloat.expBits, RawFloat.expMask, RawFloat.expOffset] at hlt hm ⊢
        omega
      | f64 =>
        simp only [RawFloat.expBits, RawFloat.expMask, RawFloat.expOffset] at hlt hm ⊢
        omega
    obtain ⟨hf, hmant, hplus, hexp⟩ | ⟨hf, hmant, hplus, hexp⟩ := hnormal
    · refine ⟨by omega, by omega, by omega, by omega, by omega, by omega, by omega, .inl ?_⟩
      omega
    · refine ⟨by omega, by omega, by omega, by omega, by omega, by omega, by omega, .inl ?_⟩
      omega

end Tortis.Num
