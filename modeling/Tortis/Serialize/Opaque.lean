import Tortis.Serialize.Leb128

/-!
# The opaque metadata encoding

`libserialize/opaque.rs`: `Encoder` appends the bytes of one primitive after the other to its data,
`Decoder` reads them back from a position. The encoder's methods cannot fail (`Error = !`) and the
decoder's return no `Err`; where the decoder's code indexes, slices or unwraps, the model may panic.
The two float types, whose bits go through `emit_u32` and `emit_u64`, are left out.
-/

namespace Tortis.Serialize

open Outcome List

def asBytes (v : String) : List UInt8 :=
  v.toByteArray.data.toList

/-- A `str`, whose length is a `usize`. -/
structure Str (ptr : PointerWidth) where
  /-- The string. -/
  val : String
  length_lt : (asBytes val).length < 2 ^ ptr.bits

/-! ## The encoder -/

structure Encoder where
  /-- The bytes written so far. -/
  data : List UInt8

namespace Encoder

def emitRawBytes (e : Encoder) (s : List UInt8) : Encoder :=
  ⟨e.data ++ s⟩

section
variable (ptr : PointerWidth)

def writeUleb128 (ty : UIntTy) (e : Encoder) (v : BitVec (ty.bits ptr)) : Encoder :=
  ⟨writeUnsigned ptr ty e.data v⟩

/-- `write_sleb128!`, the cast to `i128` included. -/
def writeSleb128 {w : Nat} (e : Encoder) (v : BitVec w) : Encoder :=
  ⟨writeSignedLeb128 e.data (v.signExtend 128)⟩

section
variable (e : Encoder)

def emitUnit : Encoder := e

def emitUsize (v : BitVec ptr.bits) : Encoder :=
  writeUleb128 ptr .usize e v

def emitU128 (v : BitVec 128) : Encoder :=
  writeUleb128 ptr .u128 e v

def emitU64 (v : BitVec 64) : Encoder :=
  writeUleb128 ptr .u64 e v

def emitU32 (v : BitVec 32) : Encoder :=
  writeUleb128 ptr .u32 e v

def emitU16 (v : BitVec 16) : Encoder :=
  writeUleb128 ptr .u16 e v

def emitU8 (v : UInt8) : Encoder :=
  ⟨e.data ++ [v]⟩

def emitIsize (v : BitVec ptr.bits) : Encoder :=
  e.writeSleb128 v

def emitI128 (v : BitVec 128) : Encoder :=
  e.writeSleb128 v

def emitI64 (v : BitVec 64) : Encoder :=
  e.writeSleb128 v

def emitI32 (v : BitVec 32) : Encoder :=
  e.writeSleb128 v

def emitI16 (v : BitVec 16) : Encoder :=
  e.writeSleb128 v

def emitI8 (v : BitVec 8) : Encoder :=
  e.emitU8 ⟨v⟩

def emitBool (v : Bool) : Encoder :=
  e.emitU8 (if v then 1 else 0)

def emitChar (v : Char) : Encoder :=
  e.emitU32 ptr v.val.toBitVec

def emitStr (v : Str ptr) : Encoder :=
  (e.emitUsize ptr (BitVec.ofNat _ (asBytes v.val).length)).emitRawBytes (asBytes v.val)

end

end

end Encoder

/-! ## The decoder -/

structure Decoder where
  /-- All the data. -/
  data : List UInt8
  /-- Where the next read starts. -/
  position : Nat
deriving DecidableEq

namespace Decoder

def advance (d : Decoder) (bytes : Nat) : Decoder :=
  { d with position := d.position + bytes }

section
variable (ptr : PointerWidth)

def readUleb128 (ty : UIntTy) (d : Decoder) :
    Outcome (BitVec (ty.bits ptr) × Decoder) := do
  assert (d.position ≤ d.data.length) "slice index starts past the end"
  let (value, bytesRead) ← readUnsigned ptr ty (d.data.drop d.position)
  .ok (value, d.advance bytesRead)

/-- `read_sleb128!`, the cast to the type of `w` bits included. -/
def readSleb128 (w : Nat) (d : Decoder) : Outcome (BitVec w × Decoder) := do
  let (value, bytesRead) ← readSignedLeb128 d.data d.position
  .ok (value.setWidth w, d.advance bytesRead)

section
variable (d : Decoder)

def readNil : Outcome (Unit × Decoder) :=
  .ok ((), d)

def readU128 : Outcome (BitVec 128 × Decoder) :=
  readUleb128 ptr .u128 d

def readU64 : Outcome (BitVec 64 × Decoder) :=
  readUleb128 ptr .u64 d

def readU32 : Outcome (BitVec 32 × Decoder) :=
  readUleb128 ptr .u32 d

def readU16 : Outcome (BitVec 16 × Decoder) :=
  readUleb128 ptr .u16 d

def readU8 : Outcome (UInt8 × Decoder) := do
  let value ← expect "index out of bounds" d.data[d.position]?
  .ok (value, d.advance 1)

def readUsize : Outcome (BitVec ptr.bits × Decoder) :=
  readUleb128 ptr .usize d

def readI128 : Outcome (BitVec 128 × Decoder) :=
  readSleb128 128 d

def readI64 : Outcome (BitVec 64 × Decoder) :=
  readSleb128 64 d

def readI32 : Outcome (BitVec 32 × Decoder) :=
  readSleb128 32 d

def readI16 : Outcome (BitVec 16 × Decoder) :=
  readSleb128 16 d

/-- `read_i8`, which reads the byte itself rather than through `read_u8`. -/
def readI8 : Outcome (BitVec 8 × Decoder) := do
  let asU8 ← expect "index out of bounds" d.data[d.position]?
  .ok (asU8.toBitVec, d.advance 1)

def readIsize : Outcome (BitVec ptr.bits × Decoder) :=
  readSleb128 ptr.bits d

def readBool : Outcome (Bool × Decoder) := do
  let (value, d) ← d.readU8
  .ok (value != 0, d)

def fromU32 (bits : BitVec 32) : Option Char :=
  if h : bits.toNat.isValidChar then some ⟨⟨bits⟩, h⟩ else none

def readChar : Outcome (Char × Decoder) := do
  let (bits, d) ← d.readU32 ptr
  let c ← unwrap (fromU32 bits)
  .ok (c, d)

/-- `str::from_utf8`: the string that has these bytes, if they are UTF-8. -/
def fromUtf8 (bytes : List UInt8) : Option { s : String // asBytes s = bytes } :=
  if h : (ByteArray.mk bytes.toArray).IsValidUTF8 then some ⟨String.ofByteArray _ h, rfl⟩ else none

def readStr : Outcome (Str ptr × Decoder) := do
  let (len, d) ← d.readUsize ptr
  assert (d.position + len.toNat ≤ d.data.length) "slice index out of range"
  let s ← unwrap (fromUtf8 ((d.data.drop d.position).take len.toNat))
  let length_lt := by
    rw [s.2]
    exact (length_take_le _ _).trans_lt len.isLt
  .ok (⟨s.1, length_lt⟩, d.advance len.toNat)

end

end

end Decoder

/-! ## Sequences of primitives -/

/-- The primitive types that are encoded without loss. -/
inductive Prim where
  | unit | u8 | u16 | u32 | u64 | u128 | usize | i8 | i16 | i32 | i64 | isize | bool | char | str

/-- A value of a primitive type. -/
inductive Value (ptr : PointerWidth) where
  | unit
  | u8 (v : UInt8)
  | u16 (v : BitVec 16)
  | u32 (v : BitVec 32)
  | u64 (v : BitVec 64)
  | u128 (v : BitVec 128)
  | usize (v : BitVec ptr.bits)
  | i8 (v : BitVec 8)
  | i16 (v : BitVec 16)
  | i32 (v : BitVec 32)
  | i64 (v : BitVec 64)
  | isize (v : BitVec ptr.bits)
  | bool (v : Bool)
  | char (v : Char)
  | str (v : Str ptr)

def Value.prim {ptr : PointerWidth} : Value ptr → Prim
  | .unit => .unit
  | .u8 _ => .u8
  | .u16 _ => .u16
  | .u32 _ => .u32
  | .u64 _ => .u64
  | .u128 _ => .u128
  | .usize _ => .usize
  | .i8 _ => .i8
  | .i16 _ => .i16
  | .i32 _ => .i32
  | .i64 _ => .i64
  | .isize _ => .isize
  | .bool _ => .bool
  | .char _ => .char
  | .str _ => .str

/-- The encoder's method for a value. -/
def Encoder.emit {ptr : PointerWidth} (e : Encoder) : Value ptr → Encoder
  | .unit => e.emitUnit
  | .u8 v => e.emitU8 v
  | .u16 v => e.emitU16 ptr v
  | .u32 v => e.emitU32 ptr v
  | .u64 v => e.emitU64 ptr v
  | .u128 v => e.emitU128 ptr v
  | .usize v => e.emitUsize ptr v
  | .i8 v => e.emitI8 v
  | .i16 v => e.emitI16 v
  | .i32 v => e.emitI32 v
  | .i64 v => e.emitI64 v
  | .isize v => e.emitIsize ptr v
  | .bool v => e.emitBool v
  | .char v => e.emitChar ptr v
  | .str v => e.emitStr ptr v

/-- The decoder's method for a type. -/
def Decoder.read (ptr : PointerWidth) (d : Decoder) : Prim → Outcome (Value ptr × Decoder)
  | .unit => do let (_, d) ← d.readNil; .ok (.unit, d)
  | .u8 => do let (v, d) ← d.readU8; .ok (.u8 v, d)
  | .u16 => do let (v, d) ← d.readU16 ptr; .ok (.u16 v, d)
  | .u32 => do let (v, d) ← d.readU32 ptr; .ok (.u32 v, d)
  | .u64 => do let (v, d) ← d.readU64 ptr; .ok (.u64 v, d)
  | .u128 => do let (v, d) ← d.readU128 ptr; .ok (.u128 v, d)
  | .usize => do let (v, d) ← d.readUsize ptr; .ok (.usize v, d)
  | .i8 => do let (v, d) ← d.readI8; .ok (.i8 v, d)
  | .i16 => do let (v, d) ← d.readI16; .ok (.i16 v, d)
  | .i32 => do let (v, d) ← d.readI32; .ok (.i32 v, d)
  | .i64 => do let (v, d) ← d.readI64; .ok (.i64 v, d)
  | .isize => do let (v, d) ← d.readIsize ptr; .ok (.isize v, d)
  | .bool => do let (v, d) ← d.readBool; .ok (.bool v, d)
  | .char => do let (v, d) ← d.readChar ptr; .ok (.char v, d)
  | .str => do let (v, d) ← d.readStr ptr; .ok (.str v, d)

/-- The values of a sequence are encoded one after the other. -/
def Encoder.emitAll {ptr : PointerWidth} (e : Encoder) (vs : List (Value ptr)) : Encoder :=
  vs.foldl Encoder.emit e

/-- The values of a sequence of types are decoded one after the other. -/
def Decoder.readAll (ptr : PointerWidth) (d : Decoder) :
    List Prim → Outcome (List (Value ptr) × Decoder)
  | [] => .ok ([], d)
  | ty :: tys => do
    let (v, d) ← d.read ptr ty
    let (vs, d) ← d.readAll ptr tys
    .ok (v :: vs, d)

/-! ## What is read back -/

section
variable {ptr : PointerWidth}

section
variable (e : Encoder)

/-- A decoder that has read the encoder's bytes, and what is behind them. -/
def after (suf : List UInt8) : Decoder :=
  ⟨e.data ++ suf, e.data.length⟩

/-- From the end of what `e` has written, `read` returns `v` and comes to the end of what `e'` has
written, whatever follows. -/
def Reads {α : Type} (read : Decoder → Outcome (α × Decoder)) (e e' : Encoder) (v : α) : Prop :=
  ∃ bytes, e'.data = e.data ++ bytes ∧
    ∀ suf, read (after e (bytes ++ suf)) = .ok (v, after e' suf)

theorem advance_after {e e' : Encoder} {bytes : List UInt8} (suf : List UInt8)
    (h : e'.data = e.data ++ bytes) :
    (after e (bytes ++ suf)).advance bytes.length = after e' suf := by
  simp [after, Decoder.advance, h]

theorem reads_uleb128 (ty : UIntTy) (v : BitVec (ty.bits ptr)) :
    Reads (Decoder.readUleb128 ptr ty) e (e.writeUleb128 ptr ty v) v := by
  refine ⟨writeUnsigned ptr ty [] v, writeUnsigned_append ptr ty e.data v, fun suf => ?_⟩
  have hread := readUnsigned_writeUnsigned ptr ty v suf
  have hadv := @advance_after _ (e.writeUleb128 ptr ty v) _ suf
    (writeUnsigned_append ptr ty e.data v)
  have hle : (after e (writeUnsigned ptr ty [] v ++ suf)).position ≤
      (after e (writeUnsigned ptr ty [] v ++ suf)).data.length := by simp [after]
  have hdrop : (after e (writeUnsigned ptr ty [] v ++ suf)).data.drop
      (after e (writeUnsigned ptr ty [] v ++ suf)).position = writeUnsigned ptr ty [] v ++ suf := by
    simp [after]
  rw [Decoder.readUleb128, hdrop, hread, assert, if_pos (decide_eq_true hle),
    ok_bind, ok_bind, ← hadv]

theorem readSleb128_after (w : Nat) (e : Encoder) (x : BitVec 128) (suf : List UInt8) :
    Decoder.readSleb128 w (after e (writeSignedLeb128 [] x ++ suf)) =
      .ok ((decoded x).setWidth w, after ⟨writeSignedLeb128 e.data x⟩ suf) := by
  have hread := readSignedLeb128_spec x e.data suf
  have hadv := @advance_after _ ⟨writeSignedLeb128 e.data x⟩ _ suf
    (writeSignedLeb128_append e.data x)
  rw [append_assoc] at hread
  rw [Decoder.readSleb128, ← hadv]
  simp only [after] at hread ⊢
  rw [hread, ok_bind]

theorem reads_sleb128 {w : Nat} (hw : w ≤ 64) (v : BitVec w) :
    Reads (Decoder.readSleb128 w) e (e.writeSleb128 v) v := by
  refine ⟨writeSignedLeb128 [] (v.signExtend 128), writeSignedLeb128_append e.data _, fun suf => ?_⟩
  have hv : (v.signExtend 128).setWidth w = v := by
    refine BitVec.eq_of_getLsbD_eq fun i hi => ?_
    rw [BitVec.getLsbD_setWidth, BitVec.getLsbD_signExtend]
    simp [hi, show i < 128 by omega]
  rw [readSleb128_after, setWidth_decoded _ hw, hv]
  rfl

theorem reads_byte (v : UInt8) : Reads Decoder.readU8 e (e.emitU8 v) v := by
  refine ⟨[v], rfl, fun suf => ?_⟩
  simp [Decoder.readU8, after, Encoder.emitU8, Decoder.advance]

theorem reads_i8 (v : BitVec 8) : Reads Decoder.readI8 e (e.emitI8 v) v := by
  refine ⟨[⟨v⟩], rfl, fun suf => ?_⟩
  simp [Decoder.readI8, after, Encoder.emitI8, Encoder.emitU8, Decoder.advance]

theorem Reads.bind {α β : Type} {read : Decoder → Outcome (α × Decoder)} {e e' : Encoder} {a : α}
    (h : Reads read e e' a) {f : α × Decoder → Outcome (β × Decoder)} {b : β}
    (hf : ∀ d, f (a, d) = .ok (b, d)) : Reads (fun d => read d >>= f) e e' b := by
  obtain ⟨bytes, hdata, hread⟩ := h
  refine ⟨bytes, hdata, fun suf => ?_⟩
  show read _ >>= f = _
  rw [hread, ok_bind, hf]

theorem reads_bool (v : Bool) : Reads Decoder.readBool e (e.emitBool v) v :=
  (reads_byte e (if v then 1 else 0)).bind fun d => by cases v <;> rfl

theorem fromU32_val (c : Char) : Decoder.fromU32 c.val.toBitVec = some c := by
  exact dif_pos c.valid

theorem reads_char (v : Char) : Reads (Decoder.readChar ptr) e (e.emitChar ptr v) v :=
  (reads_uleb128 e .u32 v.val.toBitVec).bind fun d => by simp [fromU32_val]

theorem fromUtf8_asBytes (s : String) : Decoder.fromUtf8 (asBytes s) = some ⟨s, rfl⟩ :=
  dif_pos s.isValidUTF8

theorem unwrap_fromUtf8 (v : Str ptr) {bytes : List UInt8} (hb : bytes = asBytes v.val)
    (d : Decoder) (h : ∀ s : { s : String // asBytes s = bytes },
      (asBytes s.1).length < 2 ^ ptr.bits) : (unwrap (Decoder.fromUtf8 bytes) >>= fun s =>
      (.ok (⟨s.1, h s⟩, d) : Outcome (Str ptr × Decoder))) = .ok (v, d) := by
  subst hb
  rw [fromUtf8_asBytes]
  rfl

theorem reads_str (v : Str ptr) : Reads (Decoder.readStr ptr) e (e.emitStr ptr v) v := by
  let len : BitVec ptr.bits := BitVec.ofNat ptr.bits (asBytes v.val).length
  have hlen : len.toNat = (asBytes v.val).length := by
    rw [BitVec.toNat_ofNat, Nat.mod_eq_of_lt v.length_lt]
  obtain ⟨bytes, hdata, hread⟩ : Reads (Decoder.readUsize ptr) e (e.emitUsize ptr len) len :=
    reads_uleb128 e .usize len
  refine ⟨bytes ++ asBytes v.val, ?_, fun suf => ?_⟩
  · rw [← append_assoc, ← hdata]
    rfl
  · have hadv := @advance_after (e.emitUsize ptr len) (e.emitStr ptr v) (asBytes v.val) suf rfl
    rw [← hlen] at hadv
    have hle : (after (e.emitUsize ptr len) (asBytes v.val ++ suf)).position + len.toNat ≤
        (after (e.emitUsize ptr len) (asBytes v.val ++ suf)).data.length := by
      simp [after, hlen]
    rw [Decoder.readStr, append_assoc, hread, ok_bind]
    dsimp only
    rw [assert, if_pos (decide_eq_true hle), ok_bind, ← hadv]
    refine unwrap_fromUtf8 v ?_ _ _
    simp [after, hlen]

theorem reads_emit (v : Value ptr) : Reads (fun d => Decoder.read ptr d v.prim) e (e.emit v) v := by
  cases v with
  | unit => exact ⟨[], by simp [Encoder.emit, Encoder.emitUnit], fun suf => rfl⟩
  | u8 v => exact (reads_byte e v).bind fun _ => rfl
  | u16 v => exact (reads_uleb128 e .u16 v).bind fun _ => rfl
  | u32 v => exact (reads_uleb128 e .u32 v).bind fun _ => rfl
  | u64 v => exact (reads_uleb128 e .u64 v).bind fun _ => rfl
  | u128 v => exact (reads_uleb128 e .u128 v).bind fun _ => rfl
  | usize v => exact (reads_uleb128 e .usize v).bind fun _ => rfl
  | i8 v => exact (reads_i8 e v).bind fun _ => rfl
  | i16 v => exact (reads_sleb128 e (by omega) v).bind fun _ => rfl
  | i32 v => exact (reads_sleb128 e (by omega) v).bind fun _ => rfl
  | i64 v => exact (reads_sleb128 e (by omega) v).bind fun _ => rfl
  | isize v => exact (reads_sleb128 e (by cases ptr <;> decide) v).bind fun _ => rfl
  | bool v => exact (reads_bool e v).bind fun _ => rfl
  | char v => exact (reads_char e v).bind fun _ => rfl
  | str v => exact (reads_str e v).bind fun _ => rfl

theorem reads_emitAll (vs : List (Value ptr)) :
    Reads (fun d => d.readAll ptr (vs.map Value.prim)) e (e.emitAll vs) vs := by
  induction vs generalizing e with
  | nil => exact ⟨[], by simp [Encoder.emitAll], fun suf => rfl⟩
  | cons v vs ih =>
    obtain ⟨bytes1, hdata1, hread1⟩ := reads_emit e v
    obtain ⟨bytes2, hdata2, hread2⟩ := ih (e.emit v)
    refine ⟨bytes1 ++ bytes2, ?_, fun suf => ?_⟩
    · rw [← append_assoc, ← hdata1, ← hdata2]
      rfl
    · have h1 := hread1 (bytes2 ++ suf)
      have h2 := hread2 suf
      simp only [map_cons, Decoder.readAll, append_assoc]
      simp only at h1 h2
      rw [h1, ok_bind]
      simp only [h2, ok_bind]
      rfl

end

end

/-- A 128-bit signed integer is read back, by the reader and by the decoder, exactly when it is at
least -2⁶² or below -2¹²⁵: the reader extends the sign of what ends below bit 64 only, and the 19
bytes of the values beyond 126 bits hold all bits. -/
theorem readI128_emitI128_iff (v : BitVec 128) (p s : List UInt8) :
    readSignedLeb128 (p ++ writeSignedLeb128 [] v ++ s) p.length =
        .ok (v, (writeSignedLeb128 [] v).length) ∧
      (let data := (Encoder.emitI128 ⟨p⟩ v).data
       Decoder.readI128 ⟨data ++ s, p.length⟩ = .ok (v, ⟨data ++ s, data.length⟩)) ↔
    -2 ^ 62 ≤ v.toInt ∨ v.toInt < -2 ^ 125 := by
  have hdata : (Encoder.emitI128 ⟨p⟩ v).data = p ++ writeSignedLeb128 [] v := by
    rw [Encoder.emitI128, Encoder.writeSleb128, BitVec.signExtend_eq, writeSignedLeb128_append]
  have hread := readSleb128_after 128 ⟨p⟩ v s
  rw [BitVec.setWidth_eq, writeSignedLeb128_append p] at hread
  simp only [after, ← append_assoc] at hread
  rw [← decoded_eq_self_iff_toInt, readSignedLeb128_spec]
  simp only [hdata, Decoder.readI128, hread]
  simp

/-- -2⁶² - 1 takes ten bytes and is read as 2⁷⁰ - 2⁶² - 1. -/
theorem readI128_emitI128_sample :
    let v := BitVec.ofInt 128 (-2 ^ 62 - 1)
    let data := (Encoder.emitI128 ⟨[]⟩ v).data
    data.length = 10 ∧
      Decoder.readI128 ⟨data, 0⟩ = .ok (BitVec.ofInt 128 (2 ^ 70 - 2 ^ 62 - 1), ⟨data, 10⟩) ∧
      readSignedLeb128 data 0 ≠ .ok (v, data.length) := by
  with_unfolding_all decide

/-- Any sequence of primitive values is decoded from position 0 to the same values, and the
decoder ends at the end of the data. An unsigned value takes at most `leb128_size!` bytes. -/
theorem readAll_emitAll (ptr : PointerWidth) (vs : List (Value ptr)) :
    let data := (Encoder.emitAll ⟨[]⟩ vs).data
    Decoder.readAll ptr ⟨data, 0⟩ (vs.map Value.prim) = .ok (vs, ⟨data, data.length⟩) ∧
      ∀ (e : Encoder) (ty : UIntTy) (v : BitVec (ty.bits ptr)),
        (e.writeUleb128 ptr ty v).data.length ≤ e.data.length + leb128Size ptr ty := by
  refine ⟨?_, fun e ty v => ?_⟩
  · obtain ⟨bytes, hdata, hread⟩ := reads_emitAll ⟨[]⟩ vs
    have h := hread []
    simpa [after, hdata] using h
  · have := length_writeUnsigned_le ptr ty v
    rw [Encoder.writeUleb128, writeUnsigned_append, length_append]
    omega

end Tortis.Serialize
