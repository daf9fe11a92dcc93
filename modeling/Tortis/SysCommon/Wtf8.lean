import Tortis.SysCommon.CodePoint

/-!
# Strings of code points

`Wtf8` and `Wtf8Buf` of `libstd/sys_common/wtf8.rs`, and `DecodeUtf16` in `libcore/char/decode.rs`.
A `str` and a `String` are given by their bytes. `push_code_point_unchecked` and `EncodeWide` make a
`char` of a code point that may be a surrogate, only to encode it; here the number is encoded.
-/

namespace Tortis.SysCommon

open Str

/-! ## Decoding units -/

structure DecodeUtf16 where
  iter : List UInt16
  buf : Option UInt16
deriving DecidableEq

/-- `match self.buf.take() { Some(buf) => buf, None => self.iter.next()? }`. -/
def DecodeUtf16.take (self : DecodeUtf16) : Option (UInt16 × DecodeUtf16) :=
  match self.buf, self.iter with
  | some buf, iter => some (buf, ⟨iter, none⟩)
  | none, u :: iter => some (u, ⟨iter, none⟩)
  | none, [] => none

/-- `DecodeUtf16::next`. An error is the unpaired surrogate. -/
def DecodeUtf16.next (self : DecodeUtf16) : Outcome (Option (Except UInt16 Char × DecodeUtf16)) :=
  match self.take with
  | none => .ok none
  | some (u, self) =>
    if u < 0xD800 ∨ 0xDFFF < u then do
      let ch ← fromU32Unchecked u.toNat
      .ok (some (.ok ch, self))
    else if 0xDC00 ≤ u then .ok (some (.error u, self))
    else match self.iter with
      | [] => .ok (some (.error u, self))
      | u2 :: iter =>
        if u2 < 0xDC00 ∨ 0xDFFF < u2 then .ok (some (.error u, ⟨iter, some u2⟩))
        else do
          let c := ((u - 0xD800).toNat <<< 10 ||| (u2 - 0xDC00).toNat) + 0x10000
          let ch ← fromU32Unchecked c
          .ok (some (.ok ch, ⟨iter, none⟩))

/-! ## Slices -/

/-- `&bytes[start..stop]`. -/
def slice (bytes : List UInt8) (start stop : Nat) : Outcome (List UInt8) := do
  Outcome.assert (start ≤ stop && stop ≤ bytes.length) "slice index out of range"
  .ok ((bytes.take stop).drop start)

/-- `bytes[start..stop].copy_from_slice(src)`. -/
def copyFromSlice (bytes : List UInt8) (start stop : Nat) (src : List UInt8) :
    Outcome (List UInt8) := do
  let dst ← slice bytes start stop
  Outcome.assert (dst.length == src.length)
    "destination and source slices have different lengths"
  .ok (bytes.take start ++ src ++ bytes.drop stop)

def UTF8_REPLACEMENT_CHARACTER : List UInt8 := encodeChar '\uFFFD'

/-! ## Surrogates -/

def decodeSurrogate (secondByte thirdByte : UInt8) : UInt16 :=
  (0xD800 : UInt16) ||| (secondByte.toUInt16 &&& 0x3F) <<< 6 ||| thirdByte.toUInt16 &&& 0x3F

def decodeSurrogatePair (lead trail : UInt16) : Outcome Char :=
  fromU32Unchecked (0x10000 + ((lead - 0xD800).toNat <<< 10 ||| (trail - 0xDC00).toNat))

/-! ## `Wtf8` -/

structure Wtf8 where
  bytes : List UInt8

namespace Wtf8

section
variable (self : Wtf8)

def len : Nat := self.bytes.length

def isCodePointBoundary (slice : Wtf8) (index : Nat) : Bool :=
  if index == slice.len then true
  else match slice.bytes[index]? with
    | none => false
    | some b => b < 128 || 192 ≤ b

/-- `(iter.next(), iter.next())` if they are the last two bytes of a surrogate. -/
def surrogateBytes : List UInt8 → Option (UInt8 × UInt8)
  | b2 :: b3 :: _ => if 0xA0 ≤ b2 then some (b2, b3) else none
  | _ => none

def nextSurrogateLoop : Nat → List UInt8 → Nat → Outcome (Option (Nat × UInt16))
  | 0, _, _ => .error .outOfFuel
  | _ + 1, [], _ => .ok none
  | n + 1, b :: iter, pos =>
    if b < 0x80 then nextSurrogateLoop n iter (pos + 1)
    else if b < 0xE0 then nextSurrogateLoop n (iter.drop 1) (pos + 2)
    else if b = 0xED then
      match surrogateBytes iter with
      | some (b2, b3) => .ok (some (pos, decodeSurrogate b2 b3))
      | none => nextSurrogateLoop n (iter.drop 2) (pos + 3)
    else if b < 0xF0 then nextSurrogateLoop n (iter.drop 2) (pos + 3)
    else nextSurrogateLoop n (iter.drop 3) (pos + 4)

def nextSurrogate (pos : Nat) : Outcome (Option (Nat × UInt16)) := do
  let iter ← slice self.bytes pos self.len
  nextSurrogateLoop (self.len + 1) iter pos

def finalLeadSurrogate : Option UInt16 :=
  let len := self.len
  if len < 3 then none
  else match self.bytes.drop (len - 3) with
    | [b1, b2, b3] =>
      if b1 = 0xED ∧ 0xA0 ≤ b2 ∧ b2 ≤ 0xAF then some (decodeSurrogate b2 b3) else none
    | _ => none

def initialTrailSurrogate : Option UInt16 :=
  let len := self.len
  if len < 3 then none
  else match self.bytes.take 3 with
    | [b1, b2, b3] =>
      if b1 = 0xED ∧ 0xB0 ≤ b2 ∧ b2 ≤ 0xBF then some (decodeSurrogate b2 b3) else none
    | _ => none

def asStr : Outcome (Option (List UInt8)) := do
  match ← self.nextSurrogate 0 with
  | none => .ok (some self.bytes)
  | some _ => .ok none

end

inductive Cow where
  | borrowed (bytes : List UInt8)
  | owned (bytes : List UInt8)

def Cow.bytes : Cow → List UInt8
  | .borrowed bytes => bytes
  | .owned bytes => bytes

def toStringLossyLoop (self : Wtf8) : Nat → List UInt8 → Nat → Outcome (List UInt8)
  | 0, _, _ => .error .outOfFuel
  | n + 1, utf8Bytes, pos => do
    match ← self.nextSurrogate pos with
    | some (surrogatePos, _) => do
      let part ← slice self.bytes pos surrogatePos
      toStringLossyLoop self n (utf8Bytes ++ part ++ UTF8_REPLACEMENT_CHARACTER) (surrogatePos + 3)
    | none => do
      let part ← slice self.bytes pos self.len
      .ok (utf8Bytes ++ part)

def toStringLossy (self : Wtf8) : Outcome Cow := do
  match ← self.nextSurrogate 0 with
  | none => .ok (.borrowed self.bytes)
  | some (surrogatePos, _) => do
    let part ← slice self.bytes 0 surrogatePos
    let utf8Bytes ← toStringLossyLoop self (self.len + 1) (part ++ UTF8_REPLACEMENT_CHARACTER)
      (surrogatePos + 3)
    .ok (.owned utf8Bytes)

/-- `Wtf8CodePoints::next`. -/
def nextOf (bytes : List UInt8) : Outcome (Option (CodePoint × List UInt8)) :=
  match nextCodePoint bytes with
  | none => .ok none
  | some (c, bytes) => do
    let codePoint ← CodePoint.fromU32Unchecked c
    .ok (some (codePoint, bytes))

/-- The code points an iterator over them gives. -/
def collect : Nat → List UInt8 → Outcome (List CodePoint)
  | 0, _ => .error .outOfFuel
  | n + 1, bytes => do
    match ← nextOf bytes with
    | none => .ok []
    | some (c, bytes) => do
      let cs ← collect n bytes
      .ok (c :: cs)

/-- `Wtf8::code_points`, run to its end. -/
def codePoints (self : Wtf8) : Outcome (List CodePoint) := collect (self.len + 1) self.bytes

end Wtf8

/-! ## `EncodeWide` -/

structure EncodeWide where
  codePoints : List UInt8
  extra : UInt16
deriving DecidableEq

def EncodeWide.next (self : EncodeWide) : Outcome (Option (UInt16 × EncodeWide)) :=
  if self.extra ≠ 0 then .ok (some (self.extra, { self with extra := 0 }))
  else do
    match ← Wtf8.nextOf self.codePoints with
    | none => .ok none
    | some (codePoint, codePoints) =>
      let buf := encodeUtf16 codePoint.value
      let extra := if buf.length = 2 then buf.getD 1 0 else self.extra
      .ok (some (buf.getD 0 0, ⟨codePoints, extra⟩))

/-- The units the iterator gives. -/
def EncodeWide.collect : Nat → EncodeWide → Outcome (List UInt16)
  | 0, _ => .error .outOfFuel
  | n + 1, self => do
    match ← self.next with
    | none => .ok []
    | some (u, self) => do
      let us ← collect n self
      .ok (u :: us)

/-- `Wtf8::encode_wide`, run to its end. -/
def Wtf8.encodeWide (self : Wtf8) : Outcome (List UInt16) :=
  EncodeWide.collect (self.len + 1) ⟨self.bytes, 0⟩

/-! ## `Wtf8Buf` -/

structure Wtf8Buf where
  bytes : List UInt8

namespace Wtf8Buf

section
variable (self : Wtf8Buf)

def asSlice : Wtf8 := ⟨self.bytes⟩

def new : Wtf8Buf := ⟨[]⟩

def fromStr (str : List UInt8) : Wtf8Buf := ⟨str⟩

def pushCodePointUnchecked (codePoint : CodePoint) : Wtf8Buf :=
  ⟨self.bytes ++ encodeUtf8 codePoint.value⟩

def pushChar (c : Char) : Wtf8Buf :=
  self.pushCodePointUnchecked (CodePoint.fromChar c)

def pushStr (other : List UInt8) : Wtf8Buf := ⟨self.bytes ++ other⟩

/-- The body of the loop of `from_wide`. -/
def pushItem (string : Wtf8Buf) : Except UInt16 Char → Outcome Wtf8Buf
  | .ok ch => .ok (string.pushChar ch)
  | .error surrogate => do
    let codePoint ← CodePoint.fromU32Unchecked surrogate.toNat
    .ok (string.pushCodePointUnchecked codePoint)

def fromWideLoop : Nat → DecodeUtf16 → Wtf8Buf → Outcome Wtf8Buf
  | 0, _, _ => .error .outOfFuel
  | n + 1, units, string => do
    match ← units.next with
    | none => .ok string
    | some (item, units) => do
      let string ← string.pushItem item
      fromWideLoop n units string

def fromWide (v : List UInt16) : Outcome Wtf8Buf := fromWideLoop (v.length + 1) ⟨v, none⟩ new

/-- What is left without the surrogate at the end. -/
def withoutLead : Wtf8Buf := ⟨self.bytes.take (self.asSlice.len - 3)⟩

def pushWtf8 (other : Wtf8) : Outcome Wtf8Buf :=
  match self.asSlice.finalLeadSurrogate, other.initialTrailSurrogate with
  | some lead, some trail => do
    let otherWithoutTrailSurrogate := other.bytes.drop 3
    let c ← decodeSurrogatePair lead trail
    .ok ⟨(self.withoutLead.pushChar c).bytes ++ otherWithoutTrailSurrogate⟩
  | _, _ => .ok ⟨self.bytes ++ other.bytes⟩

def push (codePoint : CodePoint) : Outcome Wtf8Buf :=
  match if 0xDC00 ≤ codePoint.value ∧ codePoint.value ≤ 0xDFFF then
      self.asSlice.finalLeadSurrogate else none with
  | some lead => do
    let c ← decodeSurrogatePair lead (UInt16.ofNat codePoint.value)
    .ok (self.withoutLead.pushChar c)
  | none => .ok (self.pushCodePointUnchecked codePoint)

def extend (iter : List CodePoint) : Outcome Wtf8Buf := iter.foldlM push self

def fromIter (iter : List CodePoint) : Outcome Wtf8Buf := new.extend iter

def truncate (newLen : Nat) : Outcome Wtf8Buf := do
  Outcome.assert (self.asSlice.isCodePointBoundary newLen)
    "assertion failed: is_code_point_boundary(self, new_len)"
  .ok ⟨self.bytes.take newLen⟩

def intoString : Outcome (Except Wtf8Buf (List UInt8)) := do
  match ← self.asSlice.nextSurrogate 0 with
  | none => .ok (.ok self.bytes)
  | some _ => .ok (.error self)

end

def intoStringLossyLoop : Nat → Wtf8Buf → Nat → Outcome (List UInt8)
  | 0, _, _ => .error .outOfFuel
  | n + 1, self, pos => do
    match ← self.asSlice.nextSurrogate pos with
    | some (surrogatePos, _) => do
      let pos := surrogatePos + 3
      let bytes ← copyFromSlice self.bytes surrogatePos pos UTF8_REPLACEMENT_CHARACTER
      intoStringLossyLoop n ⟨bytes⟩ pos
    | none => .ok self.bytes

def intoStringLossy (self : Wtf8Buf) : Outcome (List UInt8) :=
  intoStringLossyLoop (self.bytes.length + 1) self 0

end Wtf8Buf

end Tortis.SysCommon
