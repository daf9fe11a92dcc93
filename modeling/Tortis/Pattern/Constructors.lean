import Tortis.Layout.Abi
import Tortis.Mir.Syntax

/-!
# Constructors of patterns

The constructors the exhaustiveness check of `librustc_mir/hair/pattern/_match.rs` counts: variants,
constants, ranges of constants and slices. Constants and the ends of ranges are bits, a `u128`
each. Ranges are compared and subtracted as intervals of unsigned numbers (`IntRange`), to which the
bits of a signed type are taken by flipping the sign bit. Additions and subtractions of ends are
checked, as a `u128` panics when it overflows. Spans are left out.
-/

namespace Tortis.Pattern

open Layout (TargetDataLayout Integer)

/-! ## Types and constants -/

inductive IntTy where
  | isize
  | i8
  | i16
  | i32
  | i64
  | i128
deriving DecidableEq

inductive UintTy where
  | usize
  | u8
  | u16
  | u32
  | u64
  | u128
deriving DecidableEq

/-- `Integer::from_attr` of a signed type. -/
def IntTy.toInteger (dl : TargetDataLayout) : IntTy → Integer
  | .isize => dl.ptrSizedInteger
  | .i8 => .i8
  | .i16 => .i16
  | .i32 => .i32
  | .i64 => .i64
  | .i128 => .i128

/-- `Integer::from_attr` of an unsigned type. -/
def UintTy.toInteger (dl : TargetDataLayout) : UintTy → Integer
  | .usize => dl.ptrSizedInteger
  | .u8 => .i8
  | .u16 => .i16
  | .u32 => .i32
  | .u64 => .i64
  | .u128 => .i128

/-- A variant of an enum: its id, and whether it has no values in the module of the match. -/
structure Variant where
  defId : DefId
  uninhabited : Bool
deriving DecidableEq

/-- `TyKind`, as far as `all_constructors` tells types apart. The length of an array is missing when
it is not known. -/
inductive Ty where
  | bool
  | char
  | int (ity : IntTy)
  | uint (uty : UintTy)
  | array (elem : Ty) (len : Option Nat)
  | slice (elem : Ty)
  | enum (variants : List Variant)
  | other (id : Nat)
deriving DecidableEq

/-- `ConstValue`: a `Scalar::Raw`, a constant that is still to be evaluated, or anything else. -/
inductive ConstValue where
  | raw (data size : Nat)
  | unevaluated (defId : DefId)
  | other (id : Nat)
deriving DecidableEq

structure Const where
  ty : Ty
  val : ConstValue
deriving DecidableEq

/-- `MatchCheckCtxt`, with what the type context answers. -/
structure MatchCheckCtxt where
  dl : TargetDataLayout
  isUninhabited : Ty → Bool
  exhaustivePatterns : Bool
  constEval : DefId → ConstValue

structure PatCtxt where
  ty : Ty
  maxSliceLength : Nat

inductive RangeEnd where
  | included
  | excluded
deriving DecidableEq

inductive Constructor where
  | single
  | variant (defId : DefId)
  | constantValue (c : Const)
  | constantRange (lo hi : Nat) (ty : Ty) (stop : RangeEnd)
  | slice (len : Nat)
deriving DecidableEq

/-! ## Bits -/

/-- `a - b` of two `u128`. -/
def u128Sub (a b : Nat) : Outcome Nat :=
  if b ≤ a then .ok (a - b) else .error (.panic "attempt to subtract with overflow")

/-- `a + b` of two `u128`. -/
def u128Add (a b : Nat) : Outcome Nat :=
  if a + b < 2 ^ 128 then .ok (a + b) else .error (.panic "attempt to add with overflow")

/-- `truncate` to a number of bytes: shift left to drop the bits above, then back. -/
def truncate (value size : Nat) : Nat :=
  if size = 0 then 0 else ((value <<< (128 - 8 * size)) % 2 ^ 128) >>> (128 - 8 * size)

def checkRaw (data size targetSize : Nat) : Outcome Unit := do
  Outcome.assert (targetSize = size) "assertion failed: `(left == right)`"
  Outcome.assert (size ≠ 0) "you should never look at the bits of a ZST"
  Outcome.assert (truncate data size = data) "Scalar value exceeds size"

/-- The size of the types that constants are made of. -/
def Ty.size (dl : TargetDataLayout) : Ty → Option Nat
  | .bool => some 1
  | .char => some 4
  | .int ity => some (ity.toInteger dl).size
  | .uint uty => some (uty.toInteger dl).size
  | _ => none

def Const.fromBits (dl : TargetDataLayout) (bits : Nat) (ty : Ty) : Outcome Const := do
  let size ← Outcome.expect "could not compute layout" (ty.size dl)
  Outcome.assert (truncate bits size = bits) "Unsigned value does not fit in bits"
  return ⟨ty, .raw bits size⟩

/-- `ConstValue::try_to_bits` after `Const::eval`. -/
def Const.tryEvalBits (cx : MatchCheckCtxt) (c : Const) (size : Nat) : Outcome (Option Nat) :=
  match (match c.val with
    | .unevaluated defId => cx.constEval defId
    | val => val) with
  | .raw data size' => do
    checkRaw data size' size
    return some data
  | _ => .ok none

/-! ## Intervals -/

/-- `IntRange`: an interval of biased bits. -/
structure IntRange where
  lo : Nat
  hi : Nat
  ty : Ty

namespace IntRange

def isIntegral : Ty → Bool
  | .char | .int _ | .uint _ => true
  | _ => false

def integralSizeAndSignedBias (dl : TargetDataLayout) : Ty → Option (Nat × Nat)
  | .char => some (4, 0)
  | .int ity =>
    let size := (ity.toInteger dl).size
    some (size, 1 <<< (8 * size - 1))
  | .uint uty => some ((uty.toInteger dl).size, 0)
  | _ => none

def signedBias (dl : TargetDataLayout) : Ty → Nat
  | .int ity => 1 <<< ((ity.toInteger dl).bits - 1)
  | _ => 0

section
variable (cx : MatchCheckCtxt)

def fromConst (value : Const) : Outcome (Option IntRange) :=
  match integralSizeAndSignedBias cx.dl value.ty with
  | some (targetSize, bias) =>
    match value.val with
    | .raw data size => do
      checkRaw data size targetSize
      return some ⟨data ^^^ bias, data ^^^ bias, value.ty⟩
    | _ => do
      match ← value.tryEvalBits cx targetSize with
      | some val => return some ⟨val ^^^ bias, val ^^^ bias, value.ty⟩
      | none => return none
  | none => .ok none

def fromRange (lo hi : Nat) (ty : Ty) (stop : RangeEnd) : Outcome (Option IntRange) :=
  if isIntegral ty then
    let bias := signedBias cx.dl ty
    let lo := lo ^^^ bias
    let hi := hi ^^^ bias
    if lo > hi ∨ lo = hi ∧ stop = .excluded then .ok none
    else do
      let offset := if stop = .excluded then 1 else 0
      return some ⟨lo, ← u128Sub hi offset, ty⟩
  else .ok none

def fromCtor : Constructor → Outcome (Option IntRange)
  | .constantRange lo hi ty stop => fromRange cx lo hi ty stop
  | .constantValue value => fromConst cx value
  | _ => .ok none

def rangeToCtor (ty : Ty) (lo hi : Nat) : Outcome Constructor :=
  let bias := signedBias cx.dl ty
  if lo = hi then do return .constantValue (← Const.fromBits cx.dl (lo ^^^ bias) ty)
  else .ok (.constantRange (lo ^^^ bias) (hi ^^^ bias) ty .included)

/-- The part of the subrange below the interval: the interval meets an upper section of it. -/
def lowerSection (self subrange : IntRange) : Outcome (List Constructor) :=
  if self.lo > subrange.lo then do
    return [← rangeToCtor cx self.ty subrange.lo (← u128Sub self.lo 1)]
  else .ok []

/-- The part of the subrange above the interval: the interval meets a lower section of it. -/
def upperSection (self subrange : IntRange) : Outcome (List Constructor) :=
  if self.hi < subrange.hi then do
    return [← rangeToCtor cx self.ty (← u128Add self.hi 1) subrange.hi]
  else .ok []

/-- One turn of the loop of `IntRange::subtract_from`. -/
def subtractStep (self : IntRange) (remaining : List Constructor)
    (r : Constructor) : Outcome (List Constructor) := do
  match ← fromCtor cx r with
  | none => return remaining
  | some subrange =>
    if self.lo > subrange.hi ∨ subrange.lo > self.hi then
      return remaining ++ [← rangeToCtor cx self.ty subrange.lo subrange.hi]
    else
      return remaining ++ (← lowerSection cx self subrange) ++ (← upperSection cx self subrange)

def subtractFrom (self : IntRange) (ranges : List Constructor) : Outcome (List Constructor) :=
  ranges.foldlM (subtractStep cx self) []

end

end IntRange

/-! ## Missing constructors -/

section
variable (cx : MatchCheckCtxt)

/-- What one used constructor leaves of the pieces in `Constructor::subtract_ctors`. -/
def Constructor.refine (self other : Constructor)
    (refined : List Constructor) : Outcome (List Constructor) :=
  if other = self then .ok []
  else do
    match ← IntRange.fromCtor cx other with
    | some interval => interval.subtractFrom cx refined
    | none => return refined

/-- The loop of `Constructor::subtract_ctors`, which ends early when nothing is left. -/
def Constructor.subtractCtorsLoop (cx : MatchCheckCtxt) (self : Constructor) :
    List Constructor → List Constructor → Outcome (List Constructor)
  | [], refined => .ok refined
  | other :: others, refined => do
    let refined ← self.refine cx other refined
    if refined.isEmpty then return refined else subtractCtorsLoop cx self others refined

def Constructor.subtractCtors (self : Constructor)
    (others : List Constructor) : Outcome (List Constructor) :=
  self.subtractCtorsLoop cx others [self]

def allConstructors (pcx : PatCtxt) : Outcome (List Constructor) :=
  match pcx.ty with
  | .bool => [true, false].mapM fun b => do
    return .constantValue (← Const.fromBits cx.dl b.toNat .bool)
  | .array sub (some len) =>
    .ok (if len ≠ 0 ∧ cx.isUninhabited sub then [] else [.slice len])
  | .array sub none | .slice sub =>
    .ok (if cx.isUninhabited sub then [.slice 0]
      else (List.range (pcx.maxSliceLength + 1)).map .slice)
  | .enum variants =>
    .ok ((variants.filter fun v => !cx.exhaustivePatterns || !v.uninhabited).map fun v =>
      .variant v.defId)
  | .char => .ok [.constantRange 0 0xD7FF .char .included,
      .constantRange 0xE000 0x10FFFF .char .included]
  | .int ity => do
    let bits := (ity.toInteger cx.dl).bits
    let min := 1 <<< (bits - 1)
    let max ← u128Sub min 1
    return [.constantRange min max pcx.ty .included]
  | .uint uty =>
    let size := (uty.toInteger cx.dl).size
    .ok [.constantRange 0 (truncate (2 ^ 128 - 1) size) pcx.ty .included]
  | .other _ => .ok (if cx.isUninhabited pcx.ty then [] else [.single])

structure MissingConstructors where
  allCtors : List Constructor
  usedCtors : List Constructor

def MissingConstructors.iter (missing : MissingConstructors) :
    Outcome (List Constructor) := do
  return (← missing.allCtors.mapM fun reqCtor => reqCtor.subtractCtors cx missing.usedCtors).flatten

end

end Tortis.Pattern
