import Tortis.Num.Bignum
import Tortis.Num.Flt2Dec

/-!
# The slow printer

The shortest mode of the Dragon strategy. The function is split in its parts: the
scaling of the number and its range (`scaled`), the choice of the exponent (`fixup`), the loop
that generates digits (`shortestLoop`), and the rounding. A byte of the buffer is a digit and `b'0'`.
-/

namespace Tortis.Num

abbrev Big32x40 := Big 2 40

namespace Dragon

def pow10 : List (Digit 2) :=
  [1, 10, 100, 1000, 10000, 100000, 1000000, 10000000, 100000000, 1000000000]

def pow10To16 : List (Digit 2) := [0x6fc10000, 0x2386f2]

def pow10To32 : List (Digit 2) := [0, 0x85acef81, 0x2d6d415b, 0x4ee]

def pow10To64 : List (Digit 2) :=
  [0, 0, 0xbf6a1f01, 0x6e38ed64, 0xdaa797ed, 0xe93ff9f4, 0x184f03]

def pow10To128 : List (Digit 2) :=
  [0, 0, 0, 0, 0x2e953e01, 0x3df9909, 0xf1538fd, 0x2374e42f, 0xd3cff5ec, 0xc404dc08, 0xbccdb0da,
    0xa6337f19, 0xe91f2603, 0x24e]

def pow10To256 : List (Digit 2) :=
  [0, 0, 0, 0, 0, 0, 0, 0, 0x982e7c01, 0xbed3875b, 0xd8d99f72, 0x12152f87, 0x6bde50c6, 0xcf4a6e70,
    0xd595d80f, 0x26b2716e, 0xadc666b0, 0x1d153624, 0x3c42d35a, 0x63ff540e, 0xcc5573c0, 0x65f9ef17,
    0x55bc28f2, 0x80dcc7f7, 0xf46eeddc, 0x5fdcefce, 0x553f7]

section
variable (debug : Bool)

def mulPow10 (x : Big32x40) (n : Nat) : Outcome Big32x40 := do
  debugAssert debug (n < 512) "assertion failed: n < 512"
  let x ← if n &&& 7 ≠ 0 then do x.mulSmall (← Slice.get pow10 (n &&& 7)) else pure x
  let x ← if n &&& 8 ≠ 0 then do x.mulSmall (← Slice.get pow10 8) else pure x
  let x ← if n &&& 16 ≠ 0 then x.mulDigits pow10To16 else pure x
  let x ← if n &&& 32 ≠ 0 then x.mulDigits pow10To32 else pure x
  let x ← if n &&& 64 ≠ 0 then x.mulDigits pow10To64 else pure x
  let x ← if n &&& 128 ≠ 0 then x.mulDigits pow10To128 else pure x
  if n &&& 256 ≠ 0 then x.mulDigits pow10To256 else pure x

/-- A step of `div_rem_upto_16`, with the weight of the bit. -/
def divRemBit16 (x scaleN : Big32x40) (d weight : Nat) : Outcome (Nat × Big32x40) := do
  if (← x.cmp scaleN) ≠ .lt then do
    let x ← x.sub scaleN
    pure (d + weight, x)
  else pure (d, x)

/-- `div_rem_upto_16`, only usable when `x < 16 * scale`. -/
def divRemUpto16 (x scale scale2 scale4 scale8 : Big32x40) :
    Outcome (Nat × Big32x40) := do
  let (d, x) ← divRemBit16 x scale8 0 8
  let (d, x) ← divRemBit16 x scale4 d 4
  let (d, x) ← divRemBit16 x scale2 d 2
  let (d, x) ← divRemBit16 x scale d 1
  debugAssert debug ((← x.cmp scale) = .lt) "assertion failed: *x < *scale"
  pure (d, x)

/-- `a < b` for orderings: `Less < Equal < Greater`. -/
def orderingLt : Ordering → Ordering → Bool
  | .lt, .eq | .lt, .gt | .eq, .gt => true
  | _, _ => false

/-- `rounding`: `a.cmp(&b) < rounding` is `if d.inclusive {a <= b} else {a < b}`. -/
def rounding (inclusive : Bool) : Ordering := if inclusive then .gt else .eq

/-- The number and its range, all over `scale`. -/
structure Fraction where
  mant : Big32x40
  minus : Big32x40
  plus : Big32x40
  scale : Big32x40

/-- The part of `format_shortest` that converts `{mant, plus, minus} * 2^exp` into the fractional
form and divides by `10^k`. -/
def scaled (d : Decoded) (k : Int) : Outcome Fraction := do
  let mant ← Big.fromU64 (BitVec.ofNat 64 d.mant)
  let minus ← Big.fromU64 (BitVec.ofNat 64 d.minus)
  let plus ← Big.fromU64 (BitVec.ofNat 64 d.plus)
  let scale ← Big.fromSmall 1
  let (mant, minus, plus, scale) ←
    if d.exp < 0 then do
      let scale ← scale.mulPow2 debug (-d.exp).toNat
      pure (mant, minus, plus, scale)
    else do
      let mant ← mant.mulPow2 debug d.exp.toNat
      let minus ← minus.mulPow2 debug d.exp.toNat
      let plus ← plus.mulPow2 debug d.exp.toNat
      pure (mant, minus, plus, scale)
  if k ≥ 0 then do
    let scale ← mulPow10 debug scale k.toNat
    pure { mant, minus, plus, scale }
  else do
    let mant ← mulPow10 debug mant (-k).toNat
    let minus ← mulPow10 debug minus (-k).toNat
    let plus ← mulPow10 debug plus (-k).toNat
    pure { mant, minus, plus, scale }

/-- The multiplication by ten that goes on to the next digit. -/
def Fraction.timesTen (f : Fraction) : Outcome Fraction := do
  let mant ← f.mant.mulSmall 10
  let minus ← f.minus.mulSmall 10
  let plus ← f.plus.mulSmall 10
  pure { f with mant, minus, plus }

/-- `scale.cmp(mant.clone().add(&plus)) < rounding`. -/
def Fraction.roundsUp (f : Fraction) (inclusive : Bool) : Outcome Bool := do
  let sum ← f.mant.add f.plus
  pure (orderingLt (← f.scale.cmp sum) (rounding inclusive))

/-- The part of `format_shortest` that chooses between `k` and `k + 1`. -/
def fixup (f : Fraction) (inclusive : Bool) (k : Int) : Outcome (Fraction × Int) := do
  if ← f.roundsUp inclusive then pure (f, k + 1)
  else do pure (← f.timesTen, k)

/-- `(1, 2, 4, 8) * scale`. -/
structure Multiples where
  scale : Big32x40
  scale2 : Big32x40
  scale4 : Big32x40
  scale8 : Big32x40

/-- The cached multiples of `scale`. -/
def multiples (scale : Big32x40) : Outcome Multiples := do
  let scale2 ← scale.mulPow2 debug 1
  let scale4 ← scale.mulPow2 debug 2
  let scale8 ← scale.mulPow2 debug 3
  pure { scale, scale2, scale4, scale8 }

/-- What the loop of `format_shortest` ends with. -/
structure Generated where
  mant : Big32x40
  down : Bool
  up : Bool
  buf : List UInt8
  i : Nat

/-- The loop of `format_shortest`. An iteration writes a byte, so a loop that returns has no more of
them than the buffer has bytes. -/
def shortestLoop (debug inclusive : Bool) (m : Multiples) :
    Nat → Fraction → List UInt8 → Nat → Outcome Generated
  | 0, _, _, _ => .error .outOfFuel
  | fuel + 1, f, buf, i => do
    let (d, mant) ← divRemUpto16 debug f.mant f.scale m.scale2 m.scale4 m.scale8
    debugAssert debug (d < 10) "assertion failed: d < 10"
    let buf ← Slice.set buf i (48 + UInt8.ofNat d)
    let i := i + 1
    let f := { f with mant }
    let down := orderingLt (← f.mant.cmp f.minus) (rounding inclusive)
    let up ← f.roundsUp inclusive
    if down || up then pure { mant := f.mant, down, up, buf, i }
    else do
      let f ← f.timesTen
      shortestLoop debug inclusive m fuel f buf i

/-- The last part of `format_shortest`, which rounds. -/
def finish (g : Generated) (scale : Big32x40) (k : Int) :
    Outcome (Nat × Int × List UInt8) := do
  let roundUp? ←
    if g.up then
      if !g.down then pure true
      else do
        -- both conditions were triggered and tie breaking prefers rounding up
        let mant ← g.mant.mulPow2 debug 1
        pure (decide ((← mant.cmp scale) ≠ .lt))
    else pure false
  if roundUp? then do
    let (c, buf) ← roundUp g.buf g.i
    match c with
    | some c => do
      let buf ← Slice.set buf g.i c
      pure (g.i + 1, k + 1, buf)
    | none => pure (g.i, k, buf)
  else pure (g.i, k, g.buf)

/-- `format_shortest`: the number of digits, the exponent and the buffer. -/
def formatShortest (d : Decoded) (buf : List UInt8) :
    Outcome (Nat × Int × List UInt8) := do
  Outcome.assert (d.mant > 0) "assertion failed: d.mant > 0"
  Outcome.assert (d.minus > 0) "assertion failed: d.minus > 0"
  Outcome.assert (d.plus > 0) "assertion failed: d.plus > 0"
  Outcome.assert (d.mant + d.plus < 2 ^ 64)
    "assertion failed: d.mant.checked_add(d.plus).is_some()"
  Outcome.assert (d.minus ≤ d.mant) "assertion failed: d.mant.checked_sub(d.minus).is_some()"
  Outcome.assert (buf.length ≥ maxSigDigits) "assertion failed: buf.len() >= MAX_SIG_DIGITS"
  let k := estimateScalingFactor (d.mant + d.plus) d.exp
  let f ← scaled debug d k
  let (f, k) ← fixup f d.inclusive k
  let m ← multiples debug f.scale
  let g ← shortestLoop debug d.inclusive m (buf.length + 1) f buf 0
  finish debug g f.scale k

end

end Dragon

end Tortis.Num
