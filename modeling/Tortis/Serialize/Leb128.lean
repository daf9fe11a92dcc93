import Tortis.Lib.Outcome
import Mathlib.Data.Nat.Bitwise
import Mathlib.Tactic.Ring

/-!
# The LEB128 integers of the metadata encoding

`libserialize/leb128.rs`. Unsigned integers are written by one function per type, all made from one
body with the type's width and its `leb128_size!`; signed integers of every type go through the
same 128-bit writer and reader. A `Vec<u8>` is the list of its bytes.
-/

namespace Tortis.Serialize

open List Bool

inductive PointerWidth where
  | w32
  | w64

/-- The number of bits of a `usize`. -/
def PointerWidth.bits : PointerWidth → Nat
  | .w32 => 32
  | .w64 => 64

def usizeLeb128Size : PointerWidth → Nat
  | .w32 => 5
  | .w64 => 10

/-- The types the unsigned functions are made for. -/
inductive UIntTy where
  | u16
  | u32
  | u64
  | u128
  | usize

/-- The number of bits of an unsigned type. -/
def UIntTy.bits (ptr : PointerWidth) : UIntTy → Nat
  | .u16 => 16
  | .u32 => 32
  | .u64 => 64
  | .u128 => 128
  | .usize => ptr.bits

section
variable (ptr : PointerWidth)

def leb128Size : UIntTy → Nat
  | .u16 => 3
  | .u32 => 5
  | .u64 => 10
  | .u128 => 19
  | .usize => usizeLeb128Size ptr

def writeToVec (vec : List UInt8) (byte : UInt8) : List UInt8 :=
  vec ++ [byte]

/-! ## Unsigned integers -/

/-- The loop of `impl_write_unsigned_leb128!`, with at most `size` rounds left. -/
def writeUnsignedLoop {w : Nat} : Nat → List UInt8 → BitVec w → List UInt8
  | 0, out, _ => out
  | size + 1, out, value =>
    let byte : UInt8 := ⟨(value &&& 0x7F#w).setWidth 8⟩
    let value := value >>> 7
    let byte := if value != 0 then byte ||| 0x80 else byte
    let out := writeToVec out byte
    if value == 0 then out else writeUnsignedLoop size out value

/-- The functions made by `impl_write_unsigned_leb128!`. -/
def writeUnsigned (ty : UIntTy) (out : List UInt8) (value : BitVec (ty.bits ptr)) : List UInt8 :=
  writeUnsignedLoop (leb128Size ptr ty) out value

/-- The loop of `impl_read_unsigned_leb128!`, with at most `size` rounds left. A byte beyond the
slice takes the position past its end, which the assertion after the loop rejects. -/
def readUnsignedLoop {w : Nat} (slice : List UInt8) :
    Nat → BitVec w → (shift position : Nat) → Outcome (BitVec w × Nat)
  | 0, result, _, position => .ok (result, position)
  | size + 1, result, shift, position =>
    match slice[position]? with
    | none => .error (.panic "assertion failed: position <= slice.len()")
    | some byte =>
      let position := position + 1
      let result := result ||| (byte &&& 0x7F).toBitVec.setWidth w <<< shift
      if byte &&& 0x80 == 0 then .ok (result, position)
      else readUnsignedLoop slice size result (shift + 7) position

/-- The functions made by `impl_read_unsigned_leb128!`. -/
def readUnsigned (ty : UIntTy) (slice : List UInt8) : Outcome (BitVec (ty.bits ptr) × Nat) :=
  readUnsignedLoop slice (leb128Size ptr ty) 0 0 0

end

/-! ## Signed integers -/

section
variable (value : BitVec 128)

/-- The distance of a value to the nearer of 0 and -1, which each round of the writer divides. -/
def magnitude : Nat :=
  (if value.toInt < 0 then -value.toInt - 1 else value.toInt).toNat

/-- Whether the writer goes on after the byte `byte`, `value` being what is left. -/
def more (byte : UInt8) : Bool :=
  !((value == 0 && byte &&& 0x40 == 0) || (value == -1 && byte &&& 0x40 != 0))

theorem toInt_sshiftRight_seven : (value.sshiftRight 7).toInt = value.toInt / 128 := by
  rw [BitVec.toInt_sshiftRight, Int.shiftRight_eq_div_pow]
  rfl

theorem low_toNat : ((⟨value.setWidth 8⟩ : UInt8) &&& 0x7f).toNat = value.toNat % 128 := by
  rw [UInt8.toNat_and]
  have : (0x7f : UInt8).toNat = 2 ^ 7 - 1 := rfl
  rw [this, Nat.and_two_pow_sub_one_eq_mod]
  simp [UInt8.toNat]

theorem and_eq_zero_iff {b m : UInt8} {k : Nat} (hm : m.toNat = 2 ^ k) :
    b &&& m = 0 ↔ b.toNat.testBit k = false := by
  rw [← UInt8.toNat_inj, UInt8.toNat_and, hm, Nat.and_two_pow]
  cases b.toNat.testBit k <;> simp

theorem and_beq_zero (b : UInt8) {m : UInt8} {k : Nat} (hm : m.toNat = 2 ^ k) :
    (b &&& m == 0) = !b.toBitVec.getLsbD k := by
  rw [Bool.eq_iff_iff, beq_iff_eq, and_eq_zero_iff hm, not_eq_true']
  rfl

theorem and_0x40 (b : UInt8) : (b &&& 0x40 == 0) = !b.toBitVec.getLsbD 6 := and_beq_zero b rfl

theorem and_0x80 (b : UInt8) : (b &&& 0x80 == 0) = !b.toBitVec.getLsbD 7 := and_beq_zero b rfl

theorem toInt_emod : value.toInt % 128 = (value.toNat % 128 : Nat) := by
  rw [BitVec.toInt_eq_toNat_cond]
  split <;> omega

theorem more_eq : more (value.sshiftRight 7) ((⟨value.setWidth 8⟩ : UInt8) &&& 0x7f)
      = !decide (-64 ≤ value.toInt ∧ value.toInt < 64) := by
  have hlow := low_toNat value
  have hmod := toInt_emod value
  have hbit : ((⟨value.setWidth 8⟩ : UInt8) &&& 0x7f) &&& 0x40 = 0 ↔ value.toNat % 128 < 64 := by
    rw [← hlow]
    generalize ((⟨value.setWidth 8⟩ : UInt8) &&& 0x7f) = b at hlow
    rw [@and_eq_zero_iff b 0x40 6 rfl, Nat.testBit_eq_decide_div_mod_eq, decide_eq_false_iff_not]
    omega
  have h0 : value.sshiftRight 7 = 0 ↔ value.toInt / 128 = 0 := by
    rw [← BitVec.toInt_inj, toInt_sshiftRight_seven]
    rfl
  have h1 : value.sshiftRight 7 = -1 ↔ value.toInt / 128 = -1 := by
    rw [← BitVec.toInt_inj, toInt_sshiftRight_seven]
    rfl
  rw [more, Bool.eq_iff_iff]
  simp only [not_eq_true', or_eq_false_iff, and_eq_false_iff, beq_eq_false_iff_ne,
    bne_eq_false_iff_eq, decide_eq_false_iff_not, ne_eq, h0, h1, hbit]
  omega

end

/-- `write_signed_leb128_to`; the callback's state is passed through. -/
def writeSignedLeb128To {σ : Type} (value : BitVec 128) (write : σ → UInt8 → σ) (s : σ) : σ :=
  let byte : UInt8 := ⟨value.setWidth 8⟩ &&& 0x7f
  let more := more (value.sshiftRight 7) byte
  let byte := if more then byte ||| 0x80 else byte
  let s := write s byte
  if _h : more then writeSignedLeb128To (value.sshiftRight 7) write s else s
termination_by magnitude value
decreasing_by
  have h : Serialize.more (value.sshiftRight 7) (⟨value.setWidth 8⟩ &&& 0x7f) = true := _h
  rw [more_eq] at h
  simp only [not_eq_true', decide_eq_false_iff_not] at h
  simp only [magnitude, toInt_sshiftRight_seven]
  split <;> split <;> omega

def writeSignedLeb128 (out : List UInt8) (value : BitVec 128) : List UInt8 :=
  writeSignedLeb128To value writeToVec out

/-- The loop of `read_signed_leb128`, `rest` being the data from the position on. -/
def readSignedLoop :
    (rest : List UInt8) → BitVec 128 → (shift position : Nat) →
      Outcome (BitVec 128 × Nat × UInt8 × Nat)
  | [], _, _, _ => .error (.panic "index out of bounds")
  | byte :: rest, result, shift, position =>
    if 128 ≤ shift then .error (.panic "attempt to shift left with overflow")
    else
      let position := position + 1
      let result := result ||| (byte &&& 0x7F).toBitVec.setWidth 128 <<< shift
      let shift := shift + 7
      if byte &&& 0x80 == 0 then .ok (result, shift, byte, position)
      else readSignedLoop rest result shift position

def readSignedLeb128 (data : List UInt8) (startPosition : Nat) : Outcome (BitVec 128 × Nat) := do
  let (result, shift, byte, position) ←
    readSignedLoop (data.drop startPosition) 0 0 startPosition
  let result :=
    if shift < 64 && byte &&& 0x40 != 0 then result ||| -((1 : BitVec 128) <<< shift) else result
  .ok (result, position - startPosition)

/-! ## What the unsigned readers return -/

section unsigned
variable {w : Nat}

section
variable (value : BitVec w)

/-- The byte of the low seven bits of a value. -/
def lowBits : UInt8 :=
  ⟨(value &&& 0x7F#w).setWidth 8⟩

theorem writeUnsignedLoop_succ (size : Nat) (out : List UInt8) (value : BitVec w) :
    writeUnsignedLoop (size + 1) out value =
      if value >>> 7 = 0 then out ++ [lowBits value]
      else writeUnsignedLoop size (out ++ [lowBits value ||| 0x80]) (value >>> 7) := by
  by_cases h : value >>> 7 = 0
  · simp only [writeUnsignedLoop, writeToVec, lowBits, h, bne_self_eq_false, beq_self_eq_true,
      false_eq_true, if_true, if_false]
  · simp only [writeUnsignedLoop, writeToVec, lowBits, h, bne_iff_ne, beq_iff_eq, ne_eq,
      not_false_eq_true, if_true, if_false]

theorem writeUnsignedLoop_append (size : Nat) (out : List UInt8) (value : BitVec w) :
    writeUnsignedLoop size out value = out ++ writeUnsignedLoop size [] value := by
  induction size generalizing out value with
  | zero => exact (append_nil _).symm
  | succ size ih =>
    simp only [writeUnsignedLoop_succ]
    split
    · simp
    · rw [ih (out ++ _), ih ([] ++ _)]
      simp

theorem length_writeUnsignedLoop (size : Nat) (value : BitVec w) :
    (writeUnsignedLoop size [] value).length ≤ size := by
  induction size generalizing value with
  | zero => exact le_rfl
  | succ size ih =>
    rw [writeUnsignedLoop_succ]
    split
    · simp
    · rw [writeUnsignedLoop_append]
      have := ih (value >>> 7)
      simp
      omega

theorem getLsbD_lowBits (hw : 7 ≤ w) (i : Nat) :
    (lowBits value).toBitVec.getLsbD i = (decide (i < 7) && value.getLsbD i) := by
  have h127 : Nat.testBit 127 i = decide (i < 7) := Nat.testBit_two_pow_sub_one 7 i
  simp only [lowBits, BitVec.getLsbD_setWidth, BitVec.getLsbD_and, BitVec.getLsbD_ofNat, h127]
  by_cases hi : i < 7
  · simp [hi, show i < 8 by omega, show i < w by omega]
  · simp [hi]

theorem getLsbD_payload (b : UInt8) (i : Nat) :
    (b &&& 0x7F).toBitVec.getLsbD i = (decide (i < 7) && b.toBitVec.getLsbD i) := by
  have h127 : Nat.testBit 127 i = decide (i < 7) := Nat.testBit_two_pow_sub_one 7 i
  have : (0x7F : UInt8).toBitVec = 127#8 := rfl
  rw [UInt8.toBitVec_and, BitVec.getLsbD_and, this, BitVec.getLsbD_ofNat, h127]
  by_cases hi : i < 7
  · simp [hi, show i < 8 by omega]
  · simp [hi]

theorem or_0x80_payload (b : UInt8) : (b ||| 0x80) &&& 0x7F = b &&& 0x7F := by
  have h7F : (0x7F : UInt8).toNat = 2 ^ 7 - 1 := rfl
  have h80 : (0x80 : UInt8).toNat = 2 ^ 7 := rfl
  rw [← UInt8.toNat_inj, UInt8.toNat_and, UInt8.toNat_and, UInt8.toNat_or, h7F, h80,
    Nat.and_two_pow_sub_one_eq_mod, Nat.and_two_pow_sub_one_eq_mod, Nat.or_mod_two_pow,
    Nat.mod_self, Nat.or_zero]

theorem or_0x80_and_0x80 (b : UInt8) : ((b ||| 0x80) &&& 0x80 == 0) = false := by
  have h80 : (0x80 : UInt8).toBitVec.getLsbD 7 = true := rfl
  rw [and_0x80, UInt8.toBitVec_or, BitVec.getLsbD_or, h80, Bool.or_true]
  rfl

theorem lowBits_and_0x80 (hw : 7 ≤ w) : (lowBits value &&& 0x80 == 0) = true := by
  rw [and_0x80, getLsbD_lowBits value hw]
  simp

theorem payload_or_rest (hw : 7 ≤ w) :
    (lowBits value &&& 0x7F).toBitVec.setWidth w ||| (value >>> 7) <<< 7 = value := by
  refine BitVec.eq_of_getLsbD_eq fun i hi => ?_
  rw [BitVec.getLsbD_or, BitVec.getLsbD_setWidth, getLsbD_payload, getLsbD_lowBits value hw,
    BitVec.getLsbD_shiftLeft, BitVec.getLsbD_ushiftRight]
  by_cases h7 : i < 7
  · simp [h7, hi]
  · simp [h7, hi, show 7 + (i - 7) = i by omega]

end

theorem readUnsignedLoop_succ {slice : List UInt8} {position : Nat} {byte : UInt8}
    (h : slice[position]? = some byte) (size : Nat) (result : BitVec w) (shift : Nat) :
    readUnsignedLoop slice (size + 1) result shift position =
      if byte &&& 0x80 == 0 then
        .ok (result ||| (byte &&& 0x7F).toBitVec.setWidth w <<< shift, position + 1)
      else
        readUnsignedLoop slice size (result ||| (byte &&& 0x7F).toBitVec.setWidth w <<< shift)
          (shift + 7) (position + 1) := by
  rw [readUnsignedLoop, h]

/-- The reader's loop, started at the first byte of a value the writer's loop has written, adds the
value to the result and stops behind its last byte. -/
theorem readUnsignedLoop_write (hw : 7 ≤ w) (pre suf : List UInt8) (size : Nat)
    (value result : BitVec w) (shift : Nat) (hsize : value.toNat < 2 ^ (7 * size)) (h0 : 0 < size) :
    readUnsignedLoop (pre ++ writeUnsignedLoop size [] value ++ suf) size result shift pre.length =
      .ok (result ||| value <<< shift, pre.length + (writeUnsignedLoop size [] value).length) := by
  induction size generalizing pre value result shift with
  | zero => omega
  | succ size ih =>
    have hsplit := payload_or_rest value hw
    have hdiv : (value >>> 7).toNat = value.toNat / 128 := by
      rw [BitVec.toNat_ushiftRight, Nat.shiftRight_eq_div_pow]
    rw [writeUnsignedLoop_succ]
    by_cases hv : value >>> 7 = 0
    · -- the last byte holds the whole value
      have hlast : (lowBits value &&& 0x7F).toBitVec.setWidth w = value := by
        rw [hv] at hsplit
        simpa using hsplit
      have hget : (pre ++ [lowBits value] ++ suf)[pre.length]? = some (lowBits value) := by simp
      rw [if_pos hv, nil_append, readUnsignedLoop_succ hget, if_pos (lowBits_and_0x80 value hw),
        hlast]
      rfl
    · -- a byte with the continuation bit, and the rest of the value
      have hne : value.toNat / 128 ≠ 0 := fun h => hv (BitVec.toNat_inj.1 (by simpa [hdiv] using h))
      have hpos : 0 < size := by
        rcases size.eq_zero_or_pos with rfl | h
        · omega
        · exact h
      have hrest : (value >>> 7).toNat < 2 ^ (7 * size) := by
        have : 2 ^ (7 * (size + 1)) = 128 * 2 ^ (7 * size) := by ring
        omega
      have hget : (pre ++ ([lowBits value ||| 0x80] ++ writeUnsignedLoop size [] (value >>> 7)) ++
          suf)[pre.length]? = some (lowBits value ||| 0x80) := by simp
      have := ih (pre ++ [lowBits value ||| 0x80]) (value >>> 7)
        (result ||| (lowBits value &&& 0x7F).toBitVec.setWidth w <<< shift) (shift + 7) hrest hpos
      rw [if_neg hv, nil_append, writeUnsignedLoop_append, readUnsignedLoop_succ hget,
        or_0x80_and_0x80, or_0x80_payload]
      rw [length_append, append_assoc pre] at this
      refine this.trans ?_
      rw [BitVec.or_assoc, add_comm shift 7, BitVec.shiftLeft_add, ← BitVec.shiftLeft_or_distrib,
        hsplit, length_append, add_assoc]

end unsigned

section
variable (ptr : PointerWidth)

section
variable (ty : UIntTy)

theorem seven_le_bits : 7 ≤ ty.bits ptr := by
  cases ptr <;> cases ty <;> decide

theorem bits_le_leb128Size : ty.bits ptr ≤ 7 * leb128Size ptr ty ∧ 0 < leb128Size ptr ty := by
  cases ptr <;> cases ty <;> decide

theorem writeUnsigned_append (out : List UInt8) (value : BitVec (ty.bits ptr)) :
    writeUnsigned ptr ty out value = out ++ writeUnsigned ptr ty [] value :=
  writeUnsignedLoop_append _ out value

theorem length_writeUnsigned_le (value : BitVec (ty.bits ptr)) :
    (writeUnsigned ptr ty [] value).length ≤ leb128Size ptr ty :=
  length_writeUnsignedLoop _ value

theorem readUnsigned_writeUnsigned (value : BitVec (ty.bits ptr)) (suf : List UInt8) :
    readUnsigned ptr ty (writeUnsigned ptr ty [] value ++ suf) =
      .ok (value, (writeUnsigned ptr ty [] value).length) := by
  obtain ⟨hsize, hpos⟩ := bits_le_leb128Size ptr ty
  have hv : value.toNat < 2 ^ (7 * leb128Size ptr ty) :=
    value.isLt.trans_le (Nat.pow_le_pow_right (by omega) hsize)
  have := readUnsignedLoop_write (seven_le_bits ptr ty) [] suf _ value 0 0 hv hpos
  simpa [readUnsigned, writeUnsigned] using this

end

end

/-! ## What the signed reader returns -/

section signed
variable {v : BitVec 128}

/-- A value that one byte holds, sign included. -/
def Whole (v : BitVec 128) : Prop :=
  -64 ≤ v.toInt ∧ v.toInt < 64

instance (v : BitVec 128) : Decidable (Whole v) := inferInstanceAs (Decidable (_ ∧ _))

theorem signed_induction {P : BitVec 128 → Prop} (whole : ∀ v, Whole v → P v)
    (round : ∀ v, ¬Whole v → P (v.sshiftRight 7) → P v) (v : BitVec 128) : P v := by
  induction h : magnitude v using Nat.strongRecOn generalizing v with
  | ind n ih =>
    by_cases hv : Whole v
    · exact whole v hv
    · refine round v hv (ih (magnitude (v.sshiftRight 7)) ?_ _ rfl)
      rw [← h]
      simp only [Whole] at hv
      simp only [magnitude, toInt_sshiftRight_seven]
      split <;> split <;> omega

theorem low_eq_lowBits (v : BitVec 128) : (⟨v.setWidth 8⟩ : UInt8) &&& 0x7f = lowBits v := by
  simp [lowBits]

theorem writeSignedLeb128_eq (out : List UInt8) (v : BitVec 128) :
    writeSignedLeb128 out v =
      if Whole v then out ++ [lowBits v]
      else writeSignedLeb128 (out ++ [lowBits v ||| 0x80]) (v.sshiftRight 7) := by
  rw [writeSignedLeb128, writeSignedLeb128To]
  have hmore := more_eq v
  rw [low_eq_lowBits] at hmore
  simp only [low_eq_lowBits, writeToVec, hmore]
  by_cases h : Whole v
  · have h' : -64 ≤ v.toInt ∧ v.toInt < 64 := h
    simp [h, h']
  · have h' : ¬(-64 ≤ v.toInt ∧ v.toInt < 64) := h
    rw [if_neg h, decide_eq_false h']
    rfl

theorem writeSignedLeb128_append (out : List UInt8) (v : BitVec 128) :
    writeSignedLeb128 out v = out ++ writeSignedLeb128 [] v := by
  induction v using signed_induction generalizing out with
  | whole v hv => simp [writeSignedLeb128_eq _ v, hv]
  | round v hv ih =>
    rw [writeSignedLeb128_eq out, writeSignedLeb128_eq [], if_neg hv, if_neg hv, ih (out ++ _),
      ih ([] ++ _)]
    simp

theorem writeSignedLeb128_whole (hv : Whole v) : writeSignedLeb128 [] v = [lowBits v] := by
  rw [writeSignedLeb128_eq, if_pos hv, nil_append]

theorem writeSignedLeb128_round (hv : ¬Whole v) :
    writeSignedLeb128 [] v = (lowBits v ||| 0x80) :: writeSignedLeb128 [] (v.sshiftRight 7) := by
  rw [writeSignedLeb128_eq, if_neg hv, writeSignedLeb128_append]
  rfl

theorem length_writeSignedLeb128_pos (v : BitVec 128) : 0 < (writeSignedLeb128 [] v).length := by
  by_cases hv : Whole v
  · simp [writeSignedLeb128_whole hv]
  · simp [writeSignedLeb128_round hv]

theorem length_writeSignedLeb128_le (v : BitVec 128) (k : Nat) :
    (writeSignedLeb128 [] v).length ≤ k + 1 ↔
      -2 ^ (7 * k + 6) ≤ v.toInt ∧ v.toInt < 2 ^ (7 * k + 6) := by
  induction v using signed_induction generalizing k with
  | whole v hv =>
    have hk : (2 : Int) ^ (7 * k + 6) = 64 * 2 ^ (7 * k) := by ring
    have hpos : (0 : Int) < 2 ^ (7 * k) := Int.pow_pos (by omega)
    simp only [Whole] at hv
    rw [writeSignedLeb128_whole hv, length_singleton]
    omega
  | round v hv ih =>
    have hpos := length_writeSignedLeb128_pos (v.sshiftRight 7)
    rw [writeSignedLeb128_round hv, length_cons]
    simp only [Whole] at hv
    cases k with
    | zero =>
      omega
    | succ k =>
      have hk : (2 : Int) ^ (7 * (k + 1) + 6) = 128 * 2 ^ (7 * k + 6) := by ring
      rw [Nat.add_le_add_iff_right, ih k, toInt_sshiftRight_seven, hk]
      omega

theorem getLsbD_of_sign (h : v.toInt = 0 ∨ v.toInt = -1) {i : Nat} (hi : i < 128) :
    v.getLsbD i = decide (v.toInt < 0) := by
  rcases h with h | h
  · have : v = 0 := BitVec.toInt_inj.1 h
    subst this
    simp
  · have : v = -1#128 := BitVec.toInt_inj.1 h
    rw [h, this, BitVec.neg_one_eq_allOnes, BitVec.getLsbD_allOnes, decide_eq_true hi]
    rfl

section
variable (v : BitVec 128)

theorem getLsbD_sign {i : Nat} (hi : i < 128)
    (h : 7 * (writeSignedLeb128 [] v).length ≤ i + 1) : v.getLsbD i = decide (v.toInt < 0) := by
  induction v using signed_induction generalizing i with
  | whole v hv =>
    have hdiv : (v.sshiftRight 6).toInt = v.toInt / 64 := by
      rw [BitVec.toInt_sshiftRight, Int.shiftRight_eq_div_pow]
      rfl
    rw [writeSignedLeb128_whole hv, length_singleton] at h
    simp only [Whole] at hv
    have := getLsbD_of_sign (v := v.sshiftRight 6) (by omega) (show i - 6 < 128 by omega)
    rw [hdiv, BitVec.getLsbD_sshiftRight] at this
    simp only [show ¬128 ≤ i - 6 by omega, show 6 + (i - 6) = i by omega, hi, decide_false,
      Bool.not_false, Bool.true_and, if_true] at this
    rw [this, decide_eq_decide]
    omega
  | round v hv ih =>
    have hpos := length_writeSignedLeb128_pos (v.sshiftRight 7)
    rw [writeSignedLeb128_round hv, length_cons] at h
    have := ih (i := i - 7) (by omega) (by omega)
    rw [BitVec.getLsbD_sshiftRight, toInt_sshiftRight_seven] at this
    simp only [show ¬128 ≤ i - 7 by omega, show 7 + (i - 7) = i by omega, hi, decide_false,
      Bool.not_false, Bool.true_and, if_true] at this
    rw [this, decide_eq_decide]
    omega

/-- The low `n` bits of a value. -/
def truncated (n : Nat) : BitVec 128 :=
  (v.setWidth n).setWidth 128

theorem getLsbD_truncated {n i : Nat} (hi : i < 128) :
    (truncated v n).getLsbD i = (decide (i < n) && v.getLsbD i) := by
  simp [truncated, hi]

theorem payload_or_truncated (n : Nat) :
    (lowBits v &&& 0x7F).toBitVec.setWidth 128 ||| (truncated (v.sshiftRight 7) n) <<< 7 =
      truncated v (n + 7) := by
  refine BitVec.eq_of_getLsbD_eq fun i hi => ?_
  rw [BitVec.getLsbD_or, BitVec.getLsbD_setWidth, getLsbD_payload, getLsbD_lowBits v (by omega),
    BitVec.getLsbD_shiftLeft, getLsbD_truncated v hi, getLsbD_truncated _ (by omega),
    BitVec.getLsbD_sshiftRight]
  by_cases h7 : i < 7
  · simp [h7, hi, show i < n + 7 by omega]
  · have hn : i - 7 < n ↔ i < n + 7 := by omega
    simp [h7, hi, hn, show 7 + (i - 7) = i by omega, show ¬128 ≤ i - 7 by omega]

theorem payload_eq_truncated : (lowBits v &&& 0x7F).toBitVec.setWidth 128 = truncated v 7 := by
  have := payload_or_truncated v 0
  have h0 : truncated (v.sshiftRight 7) 0 = 0#128 := by
    refine BitVec.eq_of_getLsbD_eq fun i hi => ?_
    rw [getLsbD_truncated _ hi]
    simp
  rwa [h0, BitVec.zero_shiftLeft, BitVec.or_zero] at this

/-- The reader's loop, started at the first byte of a value the writer has written, adds the bits
the bytes hold to the result and stops behind the last byte, which has the sign. -/
theorem readSignedLoop_write (v result : BitVec 128) (suf : List UInt8) (shift position : Nat)
    (h : shift + 7 * (writeSignedLeb128 [] v).length < 135) :
    ∃ last : UInt8, (last &&& 0x40 != 0) = decide (v.toInt < 0) ∧
      readSignedLoop (writeSignedLeb128 [] v ++ suf) result shift position =
        .ok (result ||| truncated v (7 * (writeSignedLeb128 [] v).length) <<< shift,
          shift + 7 * (writeSignedLeb128 [] v).length, last,
          position + (writeSignedLeb128 [] v).length) := by
  induction v using signed_induction generalizing result shift position with
  | whole v hv =>
    have hsign := getLsbD_sign v (i := 6) (by omega) (by simp [writeSignedLeb128_whole hv])
    rw [writeSignedLeb128_whole hv, length_singleton] at h ⊢
    refine ⟨lowBits v, ?_, ?_⟩
    · rw [bne, and_0x40, getLsbD_lowBits v (by omega), hsign]
      simp
    · simp only [singleton_append, readSignedLoop, if_neg (show ¬128 ≤ shift by omega),
        lowBits_and_0x80 v (by omega), if_true, payload_eq_truncated]
  | round v hv ih =>
    rw [writeSignedLeb128_round hv, length_cons] at h ⊢
    obtain ⟨last, hlast, hread⟩ := ih
      (result ||| (lowBits v &&& 0x7F).toBitVec.setWidth 128 <<< shift) (shift + 7) (position + 1)
      (by omega)
    refine ⟨last, ?_, ?_⟩
    · rw [hlast, toInt_sshiftRight_seven, decide_eq_decide]
      omega
    · simp only [cons_append, readSignedLoop, if_neg (show ¬128 ≤ shift by omega),
        or_0x80_and_0x80, or_0x80_payload, false_eq_true, if_false]
      rw [hread, BitVec.or_assoc, add_comm shift 7, BitVec.shiftLeft_add,
        ← BitVec.shiftLeft_or_distrib, payload_or_truncated, mul_add]
      congr 3
      · omega
      · congr 1
        omega

/-- What the signed reader makes of a value's bytes: the bits they hold, and above them the sign if
they end below bit 64. -/
def decoded : BitVec 128 :=
  let bits := 7 * (writeSignedLeb128 [] v).length
  if bits < 64 && decide (v.toInt < 0) then truncated v bits ||| -((1 : BitVec 128) <<< bits)
  else truncated v bits

theorem length_writeSignedLeb128_le_nineteen : (writeSignedLeb128 [] v).length ≤ 19 := by
  have hlo := BitVec.le_toInt v
  have hhi := BitVec.toInt_lt (x := v)
  refine (length_writeSignedLeb128_le v 18).2 ⟨?_, ?_⟩
  · omega
  · omega

theorem readSignedLeb128_spec (pre suf : List UInt8) :
    readSignedLeb128 (pre ++ writeSignedLeb128 [] v ++ suf) pre.length =
      .ok (decoded v, (writeSignedLeb128 [] v).length) := by
  have hlen := length_writeSignedLeb128_le_nineteen v
  obtain ⟨last, hlast, hread⟩ := readSignedLoop_write v 0 suf 0 pre.length (by omega)
  rw [readSignedLeb128, append_assoc, drop_left, hread, Outcome.ok_bind]
  simp only [hlast, zero_add, decoded, Nat.add_sub_cancel_left]
  have h0 : ∀ x : BitVec 128, (0 : BitVec 128) ||| x <<< 0 = x := by simp
  rw [h0]

theorem getLsbD_neg_one_shiftLeft {n i : Nat} (hi : i < 128) :
    (-((1 : BitVec 128) <<< n)).getLsbD i = decide (n ≤ i) := by
  have h : (1 : BitVec 128) = 1#128 := rfl
  rw [h, ← BitVec.shiftLeft_neg, BitVec.neg_one_eq_allOnes, BitVec.getLsbD_shiftLeft,
    BitVec.getLsbD_allOnes]
  by_cases hn : n ≤ i
  · simp [hn, hi, show ¬i < n by omega, show i - n < 128 by omega]
  · simp [hn, hi]

/-- The bits of what is read: those of the value, except that the sign is lost above the bytes'
bits when they reach bit 64. -/
theorem getLsbD_decoded {i : Nat} (hi : i < 128) :
    (decoded v).getLsbD i =
      (v.getLsbD i && (decide (i < 7 * (writeSignedLeb128 [] v).length) ||
        decide (7 * (writeSignedLeb128 [] v).length < 64))) := by
  have hsign := @getLsbD_sign v i hi
  simp only [decoded, and_eq_true, decide_eq_true_eq]
  generalize 7 * (writeSignedLeb128 [] v).length = n at hsign ⊢
  by_cases hn : i < n
  · have hb : (if n < 64 ∧ v.toInt < 0 then truncated v n ||| -((1 : BitVec 128) <<< n)
        else truncated v n).getLsbD i = v.getLsbD i := by
      split
      · rw [BitVec.getLsbD_or, getLsbD_truncated v hi, getLsbD_neg_one_shiftLeft hi]
        simp [hn]
      · rw [getLsbD_truncated v hi]
        simp [hn]
    rw [hb, decide_eq_true hn, Bool.true_or, Bool.and_true]
  · rw [hsign (by omega)]
    by_cases h64 : n < 64 ∧ v.toInt < 0
    · rw [if_pos h64, BitVec.getLsbD_or, getLsbD_truncated v hi, getLsbD_neg_one_shiftLeft hi]
      simp [hn, h64, show n ≤ i by omega]
    · rw [if_neg h64, getLsbD_truncated v hi]
      by_cases hneg : v.toInt < 0
      · simp [hn, show ¬n < 64 from fun h => h64 ⟨h, hneg⟩]
      · simp [hn, hneg]

theorem setWidth_decoded {w : Nat} (hw : w ≤ 64) : (decoded v).setWidth w = v.setWidth w := by
  refine BitVec.eq_of_getLsbD_eq fun i hi => ?_
  rw [BitVec.getLsbD_setWidth, BitVec.getLsbD_setWidth, getLsbD_decoded v (by omega)]
  by_cases h : 7 * (writeSignedLeb128 [] v).length < 64
  · simp [h]
  · simp [h, hi, show i < 7 * (writeSignedLeb128 [] v).length by omega]

/-- The whole value is right exactly when it is not negative, or its bytes end below bit 64, or they
hold all of its bits. -/
theorem decoded_eq_self_iff :
    decoded v = v ↔ 0 ≤ v.toInt ∨ 7 * (writeSignedLeb128 [] v).length < 64 ∨
      128 ≤ 7 * (writeSignedLeb128 [] v).length := by
  have hsign := @getLsbD_sign v
  have hbit := @getLsbD_decoded v
  generalize 7 * (writeSignedLeb128 [] v).length = n at hsign hbit ⊢
  constructor
  · intro h
    by_contra hc
    have hn : n < 128 := by omega
    have hb := hbit hn
    rw [h, hsign hn (by omega)] at hb
    simp [show v.toInt < 0 by omega, show ¬n < 64 by omega] at hb
  · intro h
    refine BitVec.eq_of_getLsbD_eq fun i hi => ?_
    rw [hbit hi]
    by_cases hn : i < n
    · simp [hn]
    · rcases h with h | h | h
      · simp [hsign hi (by omega), show ¬v.toInt < 0 by omega]
      · simp [h]
      · omega

theorem decoded_eq_self_iff_toInt : decoded v = v ↔ -2 ^ 62 ≤ v.toInt ∨ v.toInt < -2 ^ 125 := by
  have h9 := length_writeSignedLeb128_le v 8
  have h18 := length_writeSignedLeb128_le v 17
  rw [decoded_eq_self_iff]
  omega

end

end signed

end Tortis.Serialize
