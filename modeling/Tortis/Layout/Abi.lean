import Mathlib.Tactic.Ring
import Tortis.Interpret.Allocation
import Tortis.Lib.WrapRange

/-!
# Sizes, scalars and niches

The vocabulary of type layouts (`librustc_target/abi/mod.rs`). Sizes are in bytes and natural
numbers: a size that a layout adds up is checked against `obj_size_bound`, far below `2^64`. An
alignment is given by its exponent. A niche is a scalar with values outside of its valid range,
which may wrap around; `Niche.reserve` sets some of them aside, and `Niche.reserve_outside` says
that it takes them from outside of the valid range.
-/

namespace Tortis.Layout

/-! ## Alignments -/

structure Align where
  pow2 : Nat
deriving DecidableEq

namespace Align

def bytes (a : Align) : Nat := 2 ^ a.pow2

protected def max (a b : Align) : Align := ⟨Nat.max a.pow2 b.pow2⟩

protected def min (a b : Align) : Align := ⟨Nat.min a.pow2 b.pow2⟩

theorem bytes_pos (a : Align) : 0 < a.bytes := Nat.two_pow_pos _

theorem bytes_dvd {a b : Align} (h : a.pow2 ≤ b.pow2) : a.bytes ∣ b.bytes :=
  pow_dvd_pow 2 h

end Align

/-- `Size::align_to`: clearing the bits of the mask takes the remainder away. -/
def alignTo (size : Nat) (align : Align) : Nat :=
  let mask := align.bytes - 1
  (size + mask) - (size + mask) % align.bytes

theorem le_alignTo (size : Nat) (align : Align) : size ≤ alignTo size align := by
  have := Nat.mod_lt (size + (align.bytes - 1)) align.bytes_pos
  simp only [alignTo]
  omega

theorem dvd_alignTo (size : Nat) (align : Align) : align.bytes ∣ alignTo size align :=
  Nat.dvd_sub_mod _

structure AbiAndPrefAlign where
  abi : Align
  pref : Align
deriving DecidableEq

namespace AbiAndPrefAlign

def new (align : Align) : AbiAndPrefAlign := ⟨align, align⟩

protected def min (a b : AbiAndPrefAlign) : AbiAndPrefAlign :=
  ⟨a.abi.min b.abi, a.pref.min b.pref⟩

protected def max (a b : AbiAndPrefAlign) : AbiAndPrefAlign :=
  ⟨a.abi.max b.abi, a.pref.max b.pref⟩

theorem max_abi_le {a b : AbiAndPrefAlign} {p : Nat} :
    (a.max b).abi.pow2 ≤ p ↔ a.abi.pow2 ≤ p ∧ b.abi.pow2 ≤ p :=
  Nat.max_le

end AbiAndPrefAlign

/-! ## Scalars -/

inductive Integer where
  | i8
  | i16
  | i32
  | i64
  | i128
deriving DecidableEq

namespace Integer

/-- The exponent of the size, which is also the position in the declared order. -/
def rank : Integer → Nat
  | .i8 => 0
  | .i16 => 1
  | .i32 => 2
  | .i64 => 3
  | .i128 => 4

def size (i : Integer) : Nat := 2 ^ i.rank

def bits (i : Integer) : Nat := 8 * i.size

protected def max (a b : Integer) : Integer := if a.rank ≤ b.rank then b else a

def fitSigned (x : Int) : Integer :=
  if -0x80 ≤ x ∧ x ≤ 0x7f then .i8
  else if -0x8000 ≤ x ∧ x ≤ 0x7fff then .i16
  else if -0x80000000 ≤ x ∧ x ≤ 0x7fffffff then .i32
  else if -0x8000000000000000 ≤ x ∧ x ≤ 0x7fffffffffffffff then .i64
  else .i128

def fitUnsigned (x : Nat) : Integer :=
  if x ≤ 0xff then .i8
  else if x ≤ 0xffff then .i16
  else if x ≤ 0xffffffff then .i32
  else if x ≤ 0xffffffffffffffff then .i64
  else .i128

end Integer

inductive FloatTy where
  | f32
  | f64
deriving DecidableEq

inductive Primitive where
  | int (ity : Integer) (signed : Bool)
  | float (ty : FloatTy)
  | pointer
deriving DecidableEq

/-- The pointer sizes that `obj_size_bound` and `ptr_sized_integer` know. -/
inductive PointerWidth where
  | w16
  | w32
  | w64

def PointerWidth.size : PointerWidth → Nat
  | .w16 => 2
  | .w32 => 4
  | .w64 => 8

/-- `TargetDataLayout`, as far as layouts of enums read it. -/
structure TargetDataLayout where
  endian : Interpret.Endian
  i8Align : AbiAndPrefAlign
  i16Align : AbiAndPrefAlign
  i32Align : AbiAndPrefAlign
  i64Align : AbiAndPrefAlign
  i128Align : AbiAndPrefAlign
  f32Align : AbiAndPrefAlign
  f64Align : AbiAndPrefAlign
  pointerSize : PointerWidth
  pointerAlign : AbiAndPrefAlign
  aggregateAlign : AbiAndPrefAlign

namespace TargetDataLayout

section
variable (dl : TargetDataLayout)

def objSizeBound : Nat :=
  match dl.pointerSize with
  | .w16 => 2 ^ 15
  | .w32 => 2 ^ 31
  | .w64 => 2 ^ 47

def ptrSizedInteger : Integer :=
  match dl.pointerSize with
  | .w16 => .i16
  | .w32 => .i32
  | .w64 => .i64

/-- The target, as the interpreter's memory reads it. -/
def interpCx (byteOrder : Interpret.ByteOrder) : Interpret.InterpCx where
  endian := dl.endian
  pointerSize := dl.pointerSize.size
  byteOrder := byteOrder
  pointerSize_pos := by cases dl.pointerSize <;> decide
  pointerSize_le := by cases dl.pointerSize <;> decide

end

end TargetDataLayout

section
variable (dl : TargetDataLayout)

def checkedAdd (size offset : Nat) : Option Nat :=
  if size + offset < dl.objSizeBound then some (size + offset) else none

theorem checkedAdd_eq_some {dl : TargetDataLayout} {size offset s : Nat}
    (h : checkedAdd dl size offset = some s) : s = size + offset := by
  rw [checkedAdd] at h
  split at h
  · exact (Option.some.inj h).symm
  · cases h

def Integer.align : Integer → AbiAndPrefAlign
  | .i8 => dl.i8Align
  | .i16 => dl.i16Align
  | .i32 => dl.i32Align
  | .i64 => dl.i64Align
  | .i128 => dl.i128Align

def Integer.forAlign (wanted : Align) : Option Integer :=
  [Integer.i8, .i16, .i32, .i64, .i128].find? fun candidate =>
    wanted = (candidate.align dl).abi && wanted.bytes = candidate.size

theorem Integer.size_of_forAlign {dl : TargetDataLayout} {wanted : Align} {i : Integer}
    (h : Integer.forAlign dl wanted = some i) : i.size = wanted.bytes := by
  have := List.find?_some h
  simp only [Bool.and_eq_true, decide_eq_true_eq] at this
  exact this.2.symm

def Primitive.size (dl : TargetDataLayout) : Primitive → Nat
  | .int i _ => i.size
  | .float .f32 => 4
  | .float .f64 => 8
  | .pointer => dl.pointerSize.size

def Primitive.align (dl : TargetDataLayout) : Primitive → AbiAndPrefAlign
  | .int i _ => i.align dl
  | .float .f32 => dl.f32Align
  | .float .f64 => dl.f64Align
  | .pointer => dl.pointerAlign

def Primitive.bits (p : Primitive) : Nat := 8 * p.size dl

end

theorem Integer.bits_le (i : Integer) : i.bits ≤ 128 := by
  cases i <;> decide

theorem Primitive.bits_le (dl : TargetDataLayout) (p : Primitive) : p.bits dl ≤ 128 := by
  rcases p with i | f | _
  · exact i.bits_le
  · cases f <;> rw [bits, size] <;> decide
  · rw [bits, size]
    cases dl.pointerSize <;> decide

/-- `Scalar`: a primitive and the range of its valid values, which may wrap around. -/
structure Scalar where
  value : Primitive
  validStart : Nat
  validEnd : Nat
deriving DecidableEq

namespace Scalar

/-- `wrapping_range_contains` for the valid range. -/
def Contains (s : Scalar) (x : Nat) : Prop :=
  if s.validStart ≤ s.validEnd then s.validStart ≤ x ∧ x ≤ s.validEnd
  else s.validStart ≤ x ∨ x ≤ s.validEnd

instance (s : Scalar) (x : Nat) : Decidable (s.Contains x) := by
  unfold Contains
  infer_instance

structure InRange (dl : TargetDataLayout) (s : Scalar) : Prop where
  start_lt : s.validStart < 2 ^ s.value.bits dl
  end_lt : s.validEnd < 2 ^ s.value.bits dl

/-- `scalar_unit`: every value is valid. -/
def unit (dl : TargetDataLayout) (value : Primitive) : Scalar :=
  ⟨value, 0, 2 ^ value.bits dl - 1⟩

end Scalar

/-! ## Niches -/

structure Niche where
  offset : Nat
  scalar : Scalar

namespace Niche

section
variable (dl : TargetDataLayout)

/-- `Niche::available`. The sums and differences wrap around, and the mask keeps the low bits. -/
def available (n : Niche) : Nat :=
  let nicheStart := (n.scalar.validEnd + 1) % 2 ^ 128
  ((n.scalar.validStart + 2 ^ 128 - nicheStart) % 2 ^ 128) % 2 ^ n.scalar.value.bits dl

def fromScalar (offset : Nat) (scalar : Scalar) : Option Niche :=
  let niche : Niche := ⟨offset, scalar⟩
  if niche.available dl > 0 then some niche else none

/-- `Niche::reserve`. Its assertions hold: `count` is positive where it is called, and a primitive
has at most 128 bits (`Primitive.bits_le`). -/
def reserve (n : Niche) (count : Nat) : Option (Nat × Scalar) :=
  let v := n.scalar
  let maxValue := 2 ^ v.value.bits dl - 1
  if count > maxValue then none
  else
    let start := ((v.validEnd + 1) % 2 ^ 128) % (maxValue + 1)
    let stop := ((v.validEnd + count) % 2 ^ 128) % (maxValue + 1)
    if v.Contains stop then none else some (start, { v with validEnd := stop })

end

variable {dl : TargetDataLayout} {n : Niche} {count start : Nat} {s : Scalar}

theorem mod_mod_bits (x : Nat) (p : Primitive) : x % 2 ^ 128 % 2 ^ p.bits dl = x % 2 ^ p.bits dl :=
  Nat.mod_mod_of_dvd x (pow_dvd_pow 2 (p.bits_le dl))

theorem reserve_eq_some (h : n.reserve dl count = some (start, s)) :
    count < 2 ^ n.scalar.value.bits dl ∧
      start = (n.scalar.validEnd + 1) % 2 ^ n.scalar.value.bits dl ∧
      s = { n.scalar with validEnd := (n.scalar.validEnd + count) % 2 ^ n.scalar.value.bits dl } ∧
      ¬ n.scalar.Contains ((n.scalar.validEnd + count) % 2 ^ n.scalar.value.bits dl) := by
  have hpos := Nat.two_pow_pos (n.scalar.value.bits dl)
  rw [reserve] at h
  dsimp only at h
  rw [Nat.sub_add_cancel hpos, mod_mod_bits, mod_mod_bits] at h
  split at h
  · cases h
  · split at h
    · cases h
    · rename_i hcount hstop
      cases h
      exact ⟨by omega, rfl, rfl, hstop⟩

/-- The values that are set aside lie outside of the valid range. -/
theorem reserve_outside (hs : n.scalar.InRange dl) (h : n.reserve dl count = some (start, s))
    {k : Nat} (hk : k < count) :
    ¬ n.scalar.Contains ((start + k) % 2 ^ n.scalar.value.bits dl) := by
  obtain ⟨hcount, rfl, -, hstop⟩ := reserve_eq_some h
  have hmem : ∀ j, j < 2 ^ n.scalar.value.bits dl →
      (¬ n.scalar.Contains ((n.scalar.validEnd + j) % 2 ^ n.scalar.value.bits dl) ↔
        0 < j ∧ j ≤ WrapRange.gap (2 ^ n.scalar.value.bits dl) n.scalar.validStart
          n.scalar.validEnd) := by
    intro j hj
    refine (WrapRange.not_mem_iff hs.start_lt hs.end_lt (Nat.mod_lt _ (by omega))).trans ?_
    rw [WrapRange.dist_add hs.end_lt hj]
  have hlast := ((hmem count hcount).mp hstop).2
  rw [Nat.mod_add_mod, add_assoc]
  exact (hmem (1 + k) (by omega)).mpr ⟨by omega, by omega⟩

end Niche

end Tortis.Layout
