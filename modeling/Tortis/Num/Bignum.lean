import Mathlib.Data.Nat.Bitwise
import Mathlib.Tactic.Linarith
import Mathlib.Tactic.Ring
import Tortis.Lib.FixedArray
import Tortis.Lib.Slice

/-!
# Big numbers of a fixed number of digits

The operations of `FullOps`, on digits of `w` bits: the products and the quotients are taken in
twice as many bits, and none of them wraps there.

The numbers that `define_bignum!` makes, for digits of `2^t` bytes and arrays of `n` digits:
`Big32x40` is `Big 2 40`. A `&mut self` operation is a function from the number before to the number
after it. `debug` says that the build checks debug assertions.
-/

namespace Tortis.Num

variable {w : Nat}

def debugAssert (debug cond : Bool) (msg : String) : Outcome Unit :=
  if debug then Outcome.assert cond msg else .ok ()

def addWithOverflow (a b : BitVec w) : BitVec w × Bool := (a + b, decide (2 ^ w ≤ a.toNat + b.toNat))

def fullAdd (self other : BitVec w) (carry : Bool) : Bool × BitVec w :=
  let (v, carry₁) := addWithOverflow self other
  let (v, carry₂) := addWithOverflow v (if carry then 1 else 0)
  (carry₁ || carry₂, v)

def fullMul (self other carry : BitVec w) : BitVec w × BitVec w :=
  let v := self.setWidth (2 * w) * other.setWidth (2 * w) + carry.setWidth (2 * w)
  ((v >>> w).setWidth w, v.setWidth w)

def fullMulAdd (self other other₂ carry : BitVec w) : BitVec w × BitVec w :=
  let v := self.setWidth (2 * w) * other.setWidth (2 * w) + other₂.setWidth (2 * w) +
    carry.setWidth (2 * w)
  ((v >>> w).setWidth w, v.setWidth w)

def fullDivRem (debug : Bool) (self other borrow : BitVec w) : Outcome (BitVec w × BitVec w) := do
  debugAssert debug (borrow < other) "assertion failed: borrow < other"
  let lhs := (borrow.setWidth (2 * w) <<< w) ||| self.setWidth (2 * w)
  let rhs := other.setWidth (2 * w)
  pure ((lhs / rhs).setWidth w, (lhs % rhs).setWidth w)

theorem debugAssert_of {debug cond : Bool} {msg : String} (h : cond = true) :
    debugAssert debug cond msg = .ok () := by
  cases debug with
  | false => rfl
  | true => rw [debugAssert, if_pos rfl, Outcome.assert, if_pos h]

theorem two_le_pow (hw : 0 < w) : 2 ≤ 2 ^ w :=
  le_trans (le_of_eq (pow_one 2).symm) (Nat.pow_le_pow_right (by decide) hw)

theorem add_toNat (a b : BitVec w) :
    (a + b).toNat + (if 2 ^ w ≤ a.toNat + b.toNat then 1 else 0) * 2 ^ w = a.toNat + b.toNat := by
  rw [BitVec.toNat_add]
  split
  · rw [Nat.mod_eq_sub_mod (by omega), Nat.mod_eq_of_lt (by omega)]
    omega
  · rw [Nat.mod_eq_of_lt (by omega)]
    omega

theorem fullAdd_spec (hw : 0 < w) (a b : BitVec w) (c : Bool) :
    (fullAdd a b c).2.toNat + (fullAdd a b c).1.toNat * 2 ^ w = a.toNat + b.toNat + c.toNat := by
  have h1 := add_toNat a b
  have h2 := add_toNat (a + b) (if c then 1 else 0)
  have hc : (if c then 1 else 0 : BitVec w).toNat = c.toNat := by
    cases c with
    | false => simp
    | true => rw [if_pos rfl, BitVec.ofNat_eq_ofNat, BitVec.toNat_ofNat,
        Nat.mod_eq_of_lt (two_le_pow hw), Bool.toNat_true]
  have hc' := c.toNat_le
  rw [hc] at h2
  simp only [fullAdd, addWithOverflow, hc]
  by_cases hov : 2 ^ w ≤ a.toNat + b.toNat
  · have hno : ¬2 ^ w ≤ (a + b).toNat + c.toNat := by
      rw [if_pos hov] at h1
      omega
    rw [if_pos hov] at h1
    rw [if_neg hno] at h2
    rw [decide_eq_true hov, Bool.true_or, Bool.toNat_true]
    omega
  · rw [if_neg hov] at h1
    rw [decide_eq_false hov, Bool.false_or]
    by_cases hov' : 2 ^ w ≤ (a + b).toNat + c.toNat
    · rw [if_pos hov'] at h2
      rw [decide_eq_true hov', Bool.toNat_true]
      omega
    · rw [if_neg hov'] at h2
      rw [decide_eq_false hov', Bool.toNat_false]
      omega

theorem halves (v : BitVec (2 * w)) :
    (v.setWidth w).toNat + ((v >>> w).setWidth w).toNat * 2 ^ w = v.toNat := by
  have hv : v.toNat / 2 ^ w < 2 ^ w := by
    have := v.isLt
    rw [Nat.div_lt_iff_lt_mul (Nat.two_pow_pos w), ← pow_add, ← Nat.two_mul]
    exact this
  rw [BitVec.toNat_setWidth, BitVec.toNat_setWidth, BitVec.toNat_ushiftRight,
    Nat.shiftRight_eq_div_pow, Nat.mod_eq_of_lt hv, mul_comm (_ / _), Nat.mod_add_div]

theorem wide_toNat (a : BitVec w) : (a.setWidth (2 * w)).toNat = a.toNat := by
  rw [BitVec.toNat_setWidth, Nat.mod_eq_of_lt]
  exact lt_of_lt_of_le a.isLt (Nat.pow_le_pow_right (by decide) (by omega))

theorem product_lt {a b c d m : Nat} (ha : a < m) (hb : b < m) (hc : c < m) (hd : d < m) :
    a * b + c + d < m * m := by
  obtain ⟨p, rfl⟩ : ∃ p, m = p + 1 := ⟨m - 1, by omega⟩
  have := Nat.mul_le_mul (Nat.le_of_lt_succ ha) (Nat.le_of_lt_succ hb)
  have hsq : (p + 1) * (p + 1) = p * p + p + p + 1 := by ring
  omega

theorem fullMulAdd_spec (a b c d : BitVec w) :
    (fullMulAdd a b c d).2.toNat + (fullMulAdd a b c d).1.toNat * 2 ^ w =
      a.toNat * b.toNat + c.toNat + d.toNat := by
  have hlt := product_lt a.isLt b.isLt c.isLt d.isLt
  rw [← pow_add, ← Nat.two_mul] at hlt
  simp only [fullMulAdd]
  rw [halves, BitVec.toNat_add, BitVec.toNat_add, BitVec.toNat_mul, wide_toNat, wide_toNat,
    wide_toNat, wide_toNat, Nat.mod_add_mod, add_assoc, Nat.mod_add_mod, ← add_assoc,
    Nat.mod_eq_of_lt hlt]

theorem fullMul_spec (a b c : BitVec w) :
    (fullMul a b c).2.toNat + (fullMul a b c).1.toNat * 2 ^ w = a.toNat * b.toNat + c.toNat := by
  have hlt := product_lt a.isLt b.isLt (Nat.two_pow_pos w) c.isLt
  rw [← pow_add, ← Nat.two_mul, add_zero] at hlt
  simp only [fullMul]
  rw [halves, BitVec.toNat_add, BitVec.toNat_mul, wide_toNat, wide_toNat, wide_toNat,
    Nat.mod_add_mod, Nat.mod_eq_of_lt hlt]

theorem or_toNat (a b : BitVec w) :
    ((b.setWidth (2 * w) <<< w) ||| a.setWidth (2 * w)).toNat = b.toNat * 2 ^ w + a.toNat := by
  have hb : b.toNat * 2 ^ w < 2 ^ (2 * w) := by
    rw [Nat.two_mul, pow_add]
    exact Nat.mul_lt_mul_of_pos_right b.isLt (Nat.two_pow_pos w)
  rw [BitVec.toNat_or, BitVec.toNat_shiftLeft, wide_toNat, wide_toNat, Nat.shiftLeft_eq,
    Nat.mod_eq_of_lt hb, mul_comm, Nat.two_pow_add_eq_or_of_lt a.isLt]

theorem fullDivRem_spec (debug : Bool) {a b c : BitVec w} (h : c < b) :
    ∃ quo rem, fullDivRem debug a b c = .ok (quo, rem) ∧ rem < b ∧
      quo.toNat * b.toNat + rem.toNat = c.toNat * 2 ^ w + a.toNat := by
  have hcb : c.toNat < b.toNat := h
  have ha := a.isLt
  have hquo : (c.toNat * 2 ^ w + a.toNat) / b.toNat < 2 ^ w := by
    rw [Nat.div_lt_iff_lt_mul (Nat.zero_lt_of_lt hcb)]
    have hle : (c.toNat + 1) * 2 ^ w ≤ b.toNat * 2 ^ w := Nat.mul_le_mul_right _ hcb
    linarith
  have hrem : (c.toNat * 2 ^ w + a.toNat) % b.toNat < b.toNat :=
    Nat.mod_lt _ (Nat.zero_lt_of_lt hcb)
  refine ⟨_, _, by rw [fullDivRem, debugAssert_of (decide_eq_true h)]; rfl, ?_, ?_⟩
  · rw [BitVec.lt_def, BitVec.toNat_setWidth, BitVec.toNat_umod, or_toNat, wide_toNat,
      Nat.mod_eq_of_lt (lt_trans hrem b.isLt)]
    exact hrem
  · rw [BitVec.toNat_setWidth, BitVec.toNat_setWidth, BitVec.toNat_umod, BitVec.toNat_udiv,
      or_toNat, wide_toNat, Nat.mod_eq_of_lt (lt_trans hrem b.isLt), Nat.mod_eq_of_lt hquo,
      mul_comm, Nat.div_add_mod]

end Tortis.Num

/-! ## Big numbers of a fixed number of digits -/

namespace Tortis.Num

variable {t n : Nat}

/-- `mem::size_of::<$ty>() * 8`. -/
def digitBits (t : Nat) : Nat := 2 ^ t * 8

theorem digitBits_pos (t : Nat) : 0 < digitBits t :=
  mul_pos (Nat.two_pow_pos t) (by decide)

abbrev Digit (t : Nat) := BitVec (digitBits t)

structure Big (t n : Nat) where
  /-- One plus the offset to the maximum digit in use. -/
  size : Nat
  /-- The digits, from the least significant one on. -/
  base : Vector (Digit t) n
deriving DecidableEq

/-- An entry of `SMALL_POW5`: a power of five and its exponent. -/
structure SmallPow5 where
  power : Nat
  exp : Nat
  exp_pos : 0 < exp

def smallPow5 : List SmallPow5 :=
  [⟨125, 3, by decide⟩, ⟨15625, 6, by decide⟩, ⟨1220703125, 13, by decide⟩]

namespace Big

def fromSmall (v : Digit t) : Outcome (Big t n) := do
  let base ← FixedArray.set (Vector.replicate n 0) 0 v
  pure { size := 1, base }

/-- The loop of `from_u64`. A shift by all the bits of the number halts. -/
def fromU64Loop (v : BitVec 64) (base : Vector (Digit t) n) (sz : Nat) : Outcome (Big t n) :=
  if _h : 0 < v then do
    let base ← FixedArray.set base sz (v.setWidth (digitBits t))
    if digitBits t < 64 then fromU64Loop (v >>> digitBits t) base (sz + 1)
    else .error (.panic "attempt to shift right with overflow")
  else .ok { size := sz, base }
termination_by v.toNat
decreasing_by
  rw [BitVec.toNat_ushiftRight, Nat.shiftRight_eq_div_pow]
  exact Nat.div_lt_self _h (Nat.one_lt_two_pow (digitBits_pos t).ne')

def fromU64 (v : BitVec 64) : Outcome (Big t n) := fromU64Loop v (Vector.replicate n 0) 0

section
variable (self : Big t n)

def digits : Outcome (List (Digit t)) := Slice.sliceTo self.base.toList self.size

def getBit (i : Nat) : Outcome (BitVec 8) := do
  let d := i / digitBits t
  let b := i % digitBits t
  let digit ← FixedArray.get self.base d
  pure (((digit >>> b) &&& 1).setWidth 8)

def isZero : Outcome Bool := do
  let digits ← self.digits
  pure (digits.all (· == 0))

/-- The loop of `bit_length`. -/
def lastBit (self : Big t n) : Nat → Outcome Nat
  | 0 => do
    let bit ← self.getBit 0
    if bit = 0 then .error (.panic "attempt to subtract with overflow") else pure 0
  | i + 1 => do
    let bit ← self.getBit (i + 1)
    if bit = 0 then self.lastBit i else pure (i + 1)

def bitLength : Outcome Nat := do
  let digits ← self.digits
  -- skip over the most significant digits which are zero
  let zeros := (digits.reverse.takeWhile (· == 0)).length
  let stop := digits.length - zeros
  let nonzero := digits.take stop
  if nonzero.isEmpty then pure 0
  else do
    let i ← self.lastBit (nonzero.length * digitBits t - 1)
    pure (i + 1)

end

def addDigit (other : Vector (Digit t) n) :
    Vector (Digit t) n × Bool → Nat → Outcome (Vector (Digit t) n × Bool)
  | (base, carry), i => do
    let a ← FixedArray.get base i
    let b ← FixedArray.get other i
    let (c, v) := fullAdd a b carry
    let base ← FixedArray.set base i v
    pure (base, c)

/-- `&base[..sz]`. -/
def checkSlice (n sz : Nat) : Outcome Unit :=
  Outcome.assert (sz ≤ n) "slice index out of range"

def add (self other : Big t n) : Outcome (Big t n) := do
  let sz := max self.size other.size
  checkSlice n sz
  let (base, carry) ← (List.range sz).foldlM (addDigit other.base) (self.base, false)
  if carry then
    let base ← FixedArray.set base sz 1
    pure { size := sz + 1, base }
  else pure { size := sz, base }

def addSmallLoop (base : Vector (Digit t) n) (carry : Bool) (i : Nat) :
    Outcome (Vector (Digit t) n × Nat) :=
  if carry then
    if h : i < n then
      let (c, v) := fullAdd base[i] 0 carry
      addSmallLoop (base.set i v h) c (i + 1)
    else .error (.panic "index out of bounds")
  else .ok (base, i)
termination_by n - i

def addSmall (self : Big t n) (other : Digit t) : Outcome (Big t n) := do
  let a ← FixedArray.get self.base 0
  let (carry, v) := fullAdd a other false
  let base ← FixedArray.set self.base 0 v
  let (base, i) ← addSmallLoop base carry 1
  pure { size := if i > self.size then i else self.size, base }

def subDigit (other : Vector (Digit t) n) :
    Vector (Digit t) n × Bool → Nat → Outcome (Vector (Digit t) n × Bool)
  | (base, noborrow), i => do
    let a ← FixedArray.get base i
    let b ← FixedArray.get other i
    let (c, v) := fullAdd a (~~~b) noborrow
    let base ← FixedArray.set base i v
    pure (base, c)

def sub (self other : Big t n) : Outcome (Big t n) := do
  let sz := max self.size other.size
  checkSlice n sz
  let (base, noborrow) ← (List.range sz).foldlM (subDigit other.base) (self.base, true)
  Outcome.assert noborrow "assertion failed: noborrow"
  pure { size := sz, base }

def mulSmallDigit (other : Digit t) :
    Vector (Digit t) n × Digit t → Nat → Outcome (Vector (Digit t) n × Digit t)
  | (base, carry), i => do
    let a ← FixedArray.get base i
    let (c, v) := fullMul a other carry
    let base ← FixedArray.set base i v
    pure (base, c)

def mulSmall (self : Big t n) (other : Digit t) : Outcome (Big t n) := do
  let sz := self.size
  checkSlice n sz
  let (base, carry) ← (List.range sz).foldlM (mulSmallDigit other) (self.base, 0)
  if carry > 0 then
    let base ← FixedArray.set base sz carry
    pure { size := sz + 1, base }
  else pure { size := sz, base }

/-- An iteration of the loop of `mul_pow2` that moves the digits. -/
def moveDigit (digits : Nat) (base : Vector (Digit t) n) (i : Nat) :
    Outcome (Vector (Digit t) n) := do
  let a ← FixedArray.get base i
  FixedArray.set base (i + digits) a

/-- An iteration of the loop of `mul_pow2` that shifts the digits. -/
def shiftDigit (bits : Nat) (base : Vector (Digit t) n) (i : Nat) :
    Outcome (Vector (Digit t) n) := do
  let a ← FixedArray.get base i
  let b ← FixedArray.get base (i - 1)
  FixedArray.set base i ((a <<< bits) ||| (b >>> (digitBits t - bits)))

/-- The debug assertions of `mul_pow2`. -/
def mulPow2Check (self : Big t n) (digits bits : Nat) : Bool :=
  (self.base.toList.drop (n - digits)).all (· == 0) &&
    (bits == 0 || FixedArray.getD self.base (n - digits - 1) 0 >>> (digitBits t - bits) == 0)

/-- The second half of `mul_pow2`, which shifts by `bits` bits. -/
def shiftBits (base : Vector (Digit t) n) (sz digits bits : Nat) : Outcome (Big t n) := do
  if bits > 0 then
    let last := sz
    Outcome.assert (0 < last) "attempt to subtract with overflow"
    let top ← FixedArray.get base (last - 1)
    let overflow := top >>> (digitBits t - bits)
    let (base, sz) ←
      if overflow > 0 then do
        let base ← FixedArray.set base last overflow
        pure (base, sz + 1)
      else pure (base, sz)
    let base ← (List.range' (digits + 1) (last - (digits + 1))).reverse.foldlM (shiftDigit bits) base
    let a ← FixedArray.get base digits
    let base ← FixedArray.set base digits (a <<< bits)
    pure { size := sz, base }
  else pure { size := sz, base }

def mulPow2 (debug : Bool) (self : Big t n) (bits : Nat) : Outcome (Big t n) := do
  let digits := bits / digitBits t
  let bits := bits % digitBits t
  Outcome.assert (digits < n) "assertion failed: digits < $n"
  debugAssert debug (self.mulPow2Check digits bits) "assertion failed"
  let base ← (List.range self.size).reverse.foldlM (moveDigit digits) self.base
  let base ← (List.range digits).foldlM (fun base i => FixedArray.set base i 0) base
  shiftBits base (self.size + digits) digits bits

def mulPow5Loop (entry : SmallPow5) (self : Big t n) (e : Nat) : Outcome (Big t n × Nat) :=
  if _h : entry.exp ≤ e then do
    let self ← self.mulSmall (BitVec.ofNat (digitBits t) entry.power)
    mulPow5Loop entry self (e - entry.exp)
  else .ok (self, e)
termination_by e
decreasing_by
  have := entry.exp_pos
  omega

/-- An iteration of the second loop of `mul_pow5`. The product is checked for an overflow. -/
def timesFive (restPower : Digit t) (_i : Nat) : Outcome (Digit t) :=
  if restPower.toNat * 5 < 2 ^ digitBits t then .ok (restPower * 5)
  else .error (.panic "attempt to multiply with overflow")

/-- `mul_pow5`. The index of the table is the number of trailing zeros of the digit's size. -/
def mulPow5 (self : Big t n) (e : Nat) : Outcome (Big t n) := do
  let entry ← Slice.get smallPow5 t
  let (self, e) ← mulPow5Loop entry self e
  let restPower ← (List.range e).foldlM timesFive 1
  self.mulSmall restPower

/-- An iteration of the inner loop of `mul_inner`. -/
def mulDigit (a : Digit t) (i : Nat) (bb : List (Digit t)) :
    Vector (Digit t) n × Digit t → Nat → Outcome (Vector (Digit t) n × Digit t)
  | (ret, carry), j => do
    let b ← Slice.get bb j
    let r ← FixedArray.get ret (i + j)
    let (c, v) := fullMulAdd a b r carry
    let ret ← FixedArray.set ret (i + j) v
    pure (ret, c)

/-- An iteration of the outer loop of `mul_inner`. -/
def mulRow (aa bb : List (Digit t)) :
    Vector (Digit t) n × Nat → Nat → Outcome (Vector (Digit t) n × Nat)
  | (ret, retsz), i => do
    let a ← Slice.get aa i
    if a = 0 then pure (ret, retsz)
    else do
      let sz := bb.length
      let (ret, carry) ← (List.range sz).foldlM (mulDigit a i bb) (ret, 0)
      let (ret, sz) ←
        if carry > 0 then do
          let ret ← FixedArray.set ret (i + sz) carry
          pure (ret, sz + 1)
        else pure (ret, sz)
      pure (ret, if retsz < i + sz then i + sz else retsz)

def mulInner (ret : Vector (Digit t) n) (aa bb : List (Digit t)) :
    Outcome (Vector (Digit t) n × Nat) :=
  (List.range aa.length).foldlM (mulRow aa bb) (ret, 0)

def mulDigits (self : Big t n) (other : List (Digit t)) : Outcome (Big t n) := do
  let ret := Vector.replicate n 0
  let (ret, retsz) ←
    if self.size < other.length then do mulInner ret (← self.digits) other
    else do mulInner ret other (← self.digits)
  pure { size := retsz, base := ret }

section
variable (debug : Bool)

/-- An iteration of the loop of `div_rem_small`. -/
def divDigit (other : Digit t) :
    Vector (Digit t) n × Digit t → Nat → Outcome (Vector (Digit t) n × Digit t)
  | (base, borrow), i => do
    let a ← FixedArray.get base i
    let (q, r) ← fullDivRem debug a other borrow
    let base ← FixedArray.set base i q
    pure (base, r)

def divRemSmall (self : Big t n) (other : Digit t) :
    Outcome (Big t n × Digit t) := do
  Outcome.assert (other > 0) "assertion failed: other > 0"
  let sz := self.size
  checkSlice n sz
  let (base, borrow) ← (List.range sz).reverse.foldlM (divDigit debug other) (self.base, 0)
  pure ({ self with base }, borrow)

/-- `Iterator::cmp` on digits. -/
def iterCmp : List (Digit t) → List (Digit t) → Ordering
  | [], [] => .eq
  | [], _ :: _ => .lt
  | _ :: _, [] => .gt
  | a :: as, b :: bs => (compare a.toNat b.toNat).then (iterCmp as bs)

def cmp (self other : Big t n) : Outcome Ordering := do
  let sz := max self.size other.size
  let lhs ← Slice.sliceTo self.base.toList sz
  let rhs ← Slice.sliceTo other.base.toList sz
  pure (iterCmp lhs.reverse rhs.reverse)

def eq (self other : Big t n) : Bool := self.base == other.base

def divRemBit (self d : Big t n) :
    Big t n × Big t n × Bool → Nat → Outcome (Big t n × Big t n × Bool)
  | (q, r, qIsZero), i => do
    let r ← r.mulPow2 debug 1
    let bit ← self.getBit i
    let low ← FixedArray.get r.base 0
    let base ← FixedArray.set r.base 0 (low ||| bit.setWidth (digitBits t))
    let r := { r with base }
    if (← r.cmp d) ≠ .lt then do
      let r ← r.sub d
      -- set bit `i` of `q` to 1
      let digitIdx := i / digitBits t
      let bitIdx := i % digitBits t
      let (q, qIsZero) := if qIsZero then ({ q with size := digitIdx + 1 }, false) else (q, qIsZero)
      let digit ← FixedArray.get q.base digitIdx
      let base ← FixedArray.set q.base digitIdx (digit ||| ((1 : Digit t) <<< bitIdx))
      pure ({ q with base }, r, qIsZero)
    else pure (q, r, qIsZero)

/-- The digits behind those in use are zero. -/
def restIsZero (self : Big t n) : Bool := (self.base.toList.drop self.size).all (· == 0)

/-- `div_rem`. The quotient and the remainder overwrite `q` and `r`. -/
def divRem (self d q r : Big t n) : Outcome (Big t n × Big t n) := do
  Outcome.assert (!(← d.isZero)) "assertion failed: !d.is_zero()"
  let q := { q with base := q.base.map fun _ => 0 }
  let r := { r with base := r.base.map fun _ => 0 }
  let r := { r with size := d.size }
  let q := { q with size := 1 }
  let stop ← self.bitLength
  let (q, r, _) ← (List.range stop).reverse.foldlM (divRemBit debug self d) (q, r, true)
  debugAssert debug q.restIsZero "assertion failed: q.base[q.size..].iter().all(|&d| d == 0)"
  debugAssert debug r.restIsZero "assertion failed: r.base[r.size..].iter().all(|&d| d == 0)"
  pure (q, r)

end

end Big

end Tortis.Num
