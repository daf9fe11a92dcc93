import Tortis.Lib.PrefixCode
import Mathlib.Algebra.Ring.Nat

/-!
# Encoding and decoding code points

`encode_utf8` in `libcore/char/methods.rs`, into a buffer of four bytes, and `next_code_point` and
`next_code_point_reverse` in `libcore/str/mod.rs`. A code point is a number, as the functions are
also used for surrogates; `u32` does not overflow. An iterator over bytes is the list of those that
are left.
-/

namespace Tortis.Str

/-! ## Encoding -/

/-- `TAG_CONT`, and `TAG_CONT_U8` in `libcore/str/mod.rs`. -/
def TAG_CONT : UInt8 := 0b1000_0000

def TAG_TWO_B : UInt8 := 0b1100_0000

def TAG_THREE_B : UInt8 := 0b1110_0000

def TAG_FOUR_B : UInt8 := 0b1111_0000

def MAX_ONE_B : Nat := 0x80

def MAX_TWO_B : Nat := 0x800

def MAX_THREE_B : Nat := 0x10000

def encodeUtf8 (code : Nat) : List UInt8 :=
  if code < MAX_ONE_B then [UInt8.ofNat code]
  else if code < MAX_TWO_B then
    [UInt8.ofNat (code >>> 6 &&& 0x1F) ||| TAG_TWO_B, UInt8.ofNat (code &&& 0x3F) ||| TAG_CONT]
  else if code < MAX_THREE_B then
    [UInt8.ofNat (code >>> 12 &&& 0x0F) ||| TAG_THREE_B,
      UInt8.ofNat (code >>> 6 &&& 0x3F) ||| TAG_CONT, UInt8.ofNat (code &&& 0x3F) ||| TAG_CONT]
  else
    [UInt8.ofNat (code >>> 18 &&& 0x07) ||| TAG_FOUR_B,
      UInt8.ofNat (code >>> 12 &&& 0x3F) ||| TAG_CONT,
      UInt8.ofNat (code >>> 6 &&& 0x3F) ||| TAG_CONT, UInt8.ofNat (code &&& 0x3F) ||| TAG_CONT]

/-! ## Decoding -/

def CONT_MASK : UInt8 := 0b0011_1111

def utf8FirstByte (byte : UInt8) (width : UInt8) : Nat := (byte &&& (0x7F >>> width)).toNat

def utf8AccContByte (ch : Nat) (byte : UInt8) : Nat := ch <<< 6 ||| (byte &&& CONT_MASK).toNat

def utf8IsContByte (byte : UInt8) : Bool := byte &&& ~~~CONT_MASK == TAG_CONT

/-- `next` of an iterator over bytes, with `unwrap_or_0`. -/
def nextOr0 : List UInt8 → UInt8 × List UInt8
  | [] => (0, [])
  | b :: bytes => (b, bytes)

def nextBack (bytes : List UInt8) : Option (UInt8 × List UInt8) :=
  bytes.getLast?.map fun b => (b, bytes.dropLast)

/-- `next_back` with `unwrap_or_0`. -/
def nextBackOr0 (bytes : List UInt8) : UInt8 × List UInt8 := (nextBack bytes).getD (0, bytes)

def nextCodePoint : List UInt8 → Option (Nat × List UInt8)
  | [] => none
  | x :: bytes =>
    if x < 128 then some (x.toNat, bytes)
    else
      let init := utf8FirstByte x 2
      let (y, bytes) := nextOr0 bytes
      let ch := utf8AccContByte init y
      if 0xE0 ≤ x then
        let (z, bytes) := nextOr0 bytes
        let yz := utf8AccContByte (y &&& CONT_MASK).toNat z
        let ch := init <<< 12 ||| yz
        if 0xF0 ≤ x then
          let (w, bytes) := nextOr0 bytes
          let ch := (init &&& 7) <<< 18 ||| utf8AccContByte yz w
          some (ch, bytes)
        else some (ch, bytes)
      else some (ch, bytes)

def nextCodePointReverse (bytes : List UInt8) : Option (Nat × List UInt8) :=
  match nextBack bytes with
  | none => none
  | some (w, bytes) =>
    if w < 128 then some (w.toNat, bytes)
    else
      let (z, bytes) := nextBackOr0 bytes
      let ch := utf8FirstByte z 2
      if utf8IsContByte z then
        let (y, bytes) := nextBackOr0 bytes
        let ch := utf8FirstByte y 3
        if utf8IsContByte y then
          let (x, bytes) := nextBackOr0 bytes
          let ch := utf8FirstByte x 4
          let ch := utf8AccContByte ch y
          some (utf8AccContByte (utf8AccContByte ch z) w, bytes)
        else some (utf8AccContByte (utf8AccContByte ch z) w, bytes)
      else some (utf8AccContByte ch w, bytes)

/-! ## Bytes as numbers -/

section
variable (b : UInt8)

theorem and_mask : (b &&& CONT_MASK).toNat = b.toNat % 64 := by
  exact Nat.and_two_pow_sub_one_eq_mod b.toNat 6

theorem utf8AccContByte_eq (ch : Nat) (b : UInt8) :
    utf8AccContByte ch b = ch * 64 + b.toNat % 64 := by
  rw [utf8AccContByte, and_mask, ← Nat.shiftLeft_add_eq_or_of_lt (Nat.mod_lt _ (by decide)),
    Nat.shiftLeft_eq]

theorem utf8FirstByte_two : utf8FirstByte b 2 = b.toNat % 32 := by
  exact Nat.and_two_pow_sub_one_eq_mod b.toNat 5

theorem utf8FirstByte_three : utf8FirstByte b 3 = b.toNat % 16 := by
  exact Nat.and_two_pow_sub_one_eq_mod b.toNat 4

theorem utf8FirstByte_four : utf8FirstByte b 4 = b.toNat % 8 := by
  exact Nat.and_two_pow_sub_one_eq_mod b.toNat 3

theorem cont_iff : b &&& ~~~CONT_MASK = TAG_CONT ↔ 0x80 ≤ b.toNat ∧ b.toNat < 0xC0 := by
  have hlt := b.toNat_lt
  have hhigh : (b.toNat &&& 0xC0) / 2 ^ 6 = b.toNat / 2 ^ 6 % 2 ^ 2 := by
    rw [Nat.and_div_two_pow]
    exact Nat.and_two_pow_sub_one_eq_mod _ 2
  have hlow : (b.toNat &&& 0xC0) % 2 ^ 6 = 0 := by
    rw [Nat.and_mod_two_pow]
    exact Nat.and_zero _
  have hmask : (~~~CONT_MASK).toNat = 0xC0 := rfl
  have htag : TAG_CONT.toNat = 0x80 := rfl
  rw [← UInt8.toNat_inj, UInt8.toNat_and, hmask, htag]
  omega

theorem utf8IsContByte_iff : utf8IsContByte b = true ↔ 0x80 ≤ b.toNat ∧ b.toNat < 0xC0 := by
  rw [utf8IsContByte, beq_iff_eq, cont_iff]

end

variable {c i : Nat} {tag : UInt8}

theorem toNat_tag {x a : Nat} (hx : x < 2 ^ i) (htag : tag.toNat = 2 ^ i * a)
    (ha : 0 < a) : (UInt8.ofNat x ||| tag).toNat = tag.toNat + x := by
  have hle : 2 ^ i ≤ tag.toNat := htag ▸ Nat.le_mul_of_pos_right _ ha
  have hlt : x < 256 := lt_of_lt_of_le hx (hle.trans tag.toNat_lt.le)
  rw [UInt8.toNat_or, UInt8.toNat_ofNat_of_lt' hlt, Nat.or_comm, htag,
    Nat.two_pow_add_eq_or_of_lt hx]

theorem toNat_cont (x : Nat) : (UInt8.ofNat (x &&& 0x3F) ||| TAG_CONT).toNat = 0x80 + x % 64 := by
  have hmod : x &&& 0x3F = x % 64 := Nat.and_two_pow_sub_one_eq_mod x 6
  have hlt : x % 64 < 2 ^ 6 := Nat.mod_lt x (by decide)
  rw [hmod]
  exact toNat_tag hlt (show TAG_CONT.toNat = 2 ^ 6 * 2 from rfl) (by decide)

/-! ## The shape of an encoding -/

inductive Shape (c : Nat) : List UInt8 → Prop where
  | one {x : UInt8} : x.toNat = c → c < 0x80 → Shape c [x]
  | two {x y : UInt8} : x.toNat = 0xC0 + c / 64 → y.toNat = 0x80 + c % 64 → 0x80 ≤ c →
    c < 0x800 → Shape c [x, y]
  | three {x y z : UInt8} : x.toNat = 0xE0 + c / 4096 → y.toNat = 0x80 + c / 64 % 64 →
    z.toNat = 0x80 + c % 64 → 0x800 ≤ c → c < 0x10000 → Shape c [x, y, z]
  | four {x y z w : UInt8} : x.toNat = 0xF0 + c / 262144 → y.toNat = 0x80 + c / 4096 % 64 →
    z.toNat = 0x80 + c / 64 % 64 → w.toNat = 0x80 + c % 64 → 0x10000 ≤ c → c < 0x200000 →
    Shape c [x, y, z, w]

theorem lead_bits {j : Nat} (h : c / 2 ^ i < 2 ^ j) : c >>> i &&& (2 ^ j - 1) = c / 2 ^ i := by
  rw [Nat.shiftRight_eq_div_pow, Nat.and_two_pow_sub_one_eq_mod, Nat.mod_eq_of_lt h]

theorem toNat_lead {j a : Nat} (h : c / 2 ^ i < 2 ^ j) (htag : tag.toNat = 2 ^ j * a) (ha : 0 < a) :
    (UInt8.ofNat (c >>> i &&& (2 ^ j - 1)) ||| tag).toNat = tag.toNat + c / 2 ^ i := by
  rw [lead_bits h, toNat_tag h htag ha]

theorem shape_encodeUtf8 (hc : c < 0x200000) : Shape c (encodeUtf8 c) := by
  have hshift6 : c >>> 6 = c / 64 := Nat.shiftRight_eq_div_pow c 6
  have hshift12 : c >>> 12 = c / 4096 := Nat.shiftRight_eq_div_pow c 12
  rw [encodeUtf8, MAX_ONE_B, MAX_TWO_B, MAX_THREE_B]
  split
  · next h => exact .one (UInt8.toNat_ofNat_of_lt' (lt_trans h (by decide))) h
  split
  · next h1 h2 =>
    exact .two (toNat_lead (i := 6) (j := 5) (a := 6) (by omega) rfl (by decide)) (toNat_cont c)
      (Nat.not_lt.1 h1) h2
  split
  · next _ h2 h3 =>
    refine .three (toNat_lead (i := 12) (j := 4) (a := 14) (by omega) rfl (by decide)) ?_
      (toNat_cont c) (Nat.not_lt.1 h2) h3
    rw [toNat_cont, hshift6]
  · next _ _ h3 =>
    refine .four (toNat_lead (i := 18) (j := 3) (a := 30) (by omega) rfl (by decide)) ?_ ?_
      (toNat_cont c) (Nat.not_lt.1 h3) hc
    · rw [toNat_cont, hshift12]
    · rw [toNat_cont, hshift6]

theorem Shape.unique {l l' : List UInt8} (h : Shape c l) (h' : Shape c l') : l = l' := by
  have heq : ∀ {a b : UInt8} {n : Nat}, a.toNat = n → b.toNat = n → a = b :=
    fun ha hb => UInt8.toNat_inj.1 (ha.trans hb.symm)
  cases h with
  | one hx hc =>
    cases h' with
    | one hx' => rw [heq hx hx']
    | two | three | four => omega
  | two hx hy h1 h2 =>
    cases h' with
    | two hx' hy' => rw [heq hx hx', heq hy hy']
    | one | three | four => omega
  | three hx hy hz h1 h2 =>
    cases h' with
    | three hx' hy' hz' => rw [heq hx hx', heq hy hy', heq hz hz']
    | one | two | four => omega
  | four hx hy hz hw h1 h2 =>
    cases h' with
    | four hx' hy' hz' hw' => rw [heq hx hx', heq hy hy', heq hz hz', heq hw hw']
    | one | two | three => omega

variable {l : List UInt8}

theorem Shape.eq (h : Shape c l) : l = encodeUtf8 c := by
  refine h.unique (shape_encodeUtf8 ?_)
  cases h <;> omega

theorem Shape.ne_nil (h : Shape c l) : l ≠ [] := by
  cases h <;> exact List.cons_ne_nil _ _

/-! ## Decoding an encoding -/

section
variable {x y z w : UInt8} {rest : List UInt8}

theorem nextCodePoint_one (h : x.toNat < 0x80) : nextCodePoint (x :: rest) = some (x.toNat, rest) :=
  if_pos (UInt8.lt_iff_toNat_lt.2 h)

theorem nextCodePoint_two (h : 0x80 ≤ x.toNat) (h' : x.toNat < 0xE0) :
    nextCodePoint (x :: y :: rest) = some (x.toNat % 32 * 64 + y.toNat % 64, rest) := by
  have h1 : ¬ x < 128 := fun hlt => Nat.not_lt.2 h (UInt8.lt_iff_toNat_lt.1 hlt)
  have h2 : ¬ 0xE0 ≤ x := fun hle => Nat.not_le.2 h' (UInt8.le_iff_toNat_le.1 hle)
  simp only [nextCodePoint, nextOr0, h1, h2, if_false, utf8FirstByte_two, utf8AccContByte_eq]

theorem nextCodePoint_three (h : 0xE0 ≤ x.toNat) (h' : x.toNat < 0xF0) :
    nextCodePoint (x :: y :: z :: rest) =
      some (x.toNat % 32 * 4096 + (y.toNat % 64 * 64 + z.toNat % 64), rest) := by
  have h1 : ¬ x < 128 := fun hlt => by
    have := UInt8.lt_iff_toNat_lt.1 hlt
    change x.toNat < 128 at this
    omega
  have h2 : 0xE0 ≤ x := UInt8.le_iff_toNat_le.2 h
  have h3 : ¬ 0xF0 ≤ x := fun hle => Nat.not_le.2 h' (UInt8.le_iff_toNat_le.1 hle)
  have hyz : y.toNat % 64 * 64 + z.toNat % 64 < 2 ^ 12 := by omega
  simp only [nextCodePoint, nextOr0, h1, h2, h3, if_false, if_true, utf8FirstByte_two,
    utf8AccContByte_eq, and_mask]
  rw [← Nat.shiftLeft_add_eq_or_of_lt hyz, Nat.shiftLeft_eq]

theorem nextCodePoint_four (h : 0xF0 ≤ x.toNat) : nextCodePoint (x :: y :: z :: w :: rest) =
      some (x.toNat % 8 * 262144 + ((y.toNat % 64 * 64 + z.toNat % 64) * 64 + w.toNat % 64),
        rest) := by
  have h1 : ¬ x < 128 := fun hlt => by
    have := UInt8.lt_iff_toNat_lt.1 hlt
    change x.toNat < 128 at this
    omega
  have h2 : 0xE0 ≤ x := UInt8.le_iff_toNat_le.2 (le_trans (by decide) h)
  have h3 : 0xF0 ≤ x := UInt8.le_iff_toNat_le.2 h
  have hyzw : (y.toNat % 64 * 64 + z.toNat % 64) * 64 + w.toNat % 64 < 2 ^ 18 := by omega
  have hinit : x.toNat % 32 &&& 7 = x.toNat % 8 := by
    refine (Nat.and_two_pow_sub_one_eq_mod _ 3).trans ?_
    omega
  simp only [nextCodePoint, nextOr0, h1, h2, h3, if_false, if_true, utf8FirstByte_two,
    utf8AccContByte_eq, and_mask, hinit]
  rw [← Nat.shiftLeft_add_eq_or_of_lt hyzw, Nat.shiftLeft_eq]

theorem Shape.next {c : Nat} {l : List UInt8} (h : Shape c l) (rest : List UInt8) :
    nextCodePoint (l ++ rest) = some (c, rest) := by
  cases h with
  | one hx hc =>
    subst hx
    exact nextCodePoint_one hc
  | two hx hy h1 h2 =>
    refine (nextCodePoint_two (by omega) (by omega)).trans ?_
    congr 2
    omega
  | three hx hy hz h1 h2 =>
    refine (nextCodePoint_three (by omega) (by omega)).trans ?_
    congr 2
    omega
  | four hx hy hz hw h1 h2 =>
    refine (nextCodePoint_four (by omega)).trans ?_
    congr 2
    omega

end

theorem nextBack_concat (bytes : List UInt8) (b : UInt8) :
    nextBack (bytes ++ [b]) = some (b, bytes) := by
  rw [nextBack, List.getLast?_concat, List.dropLast_concat]
  rfl

theorem nextBackOr0_concat (bytes : List UInt8) (b : UInt8) :
    nextBackOr0 (bytes ++ [b]) = (b, bytes) := by
  rw [nextBackOr0, nextBack_concat]
  rfl

theorem Shape.nextReverse {c : Nat} (h : Shape c l) (rest : List UInt8) :
    nextCodePointReverse (rest ++ l) = some (c, rest) := by
  have hcont : ∀ {b : UInt8} {n : Nat}, b.toNat = 0x80 + n % 64 → utf8IsContByte b = true :=
    fun hb => (utf8IsContByte_iff _).2 (by omega)
  have hlarge : ∀ {b : UInt8}, 0x80 ≤ b.toNat → ¬ b < 128 :=
    fun hb hlt => Nat.not_lt.2 hb (UInt8.lt_iff_toNat_lt.1 hlt)
  have hlead : ∀ {b : UInt8}, 0xC0 ≤ b.toNat → ¬ utf8IsContByte b = true :=
    fun hb h => Nat.not_lt.2 hb ((utf8IsContByte_iff _).1 h).2
  cases h with
  | @one x hx hc =>
    have hlt : x < 128 := UInt8.lt_iff_toNat_lt.2 (by rw [hx]; exact hc)
    rw [nextCodePointReverse, nextBack_concat]
    dsimp only
    rw [if_pos hlt, hx]
  | @two x y hx hy h1 h2 =>
    have hl : rest ++ [x, y] = rest ++ [x] ++ [y] := by simp
    rw [hl, nextCodePointReverse, nextBack_concat]
    dsimp only
    rw [if_neg (hlarge (by omega)), nextBackOr0_concat]
    rw [if_neg (@hlead x (by omega)), utf8FirstByte_two, utf8AccContByte_eq, hx, hy]
    congr 2
    omega
  | @three x y z hx hy hz h1 h2 =>
    have hl : rest ++ [x, y, z] = rest ++ [x] ++ [y] ++ [z] := by simp
    rw [hl, nextCodePointReverse, nextBack_concat]
    dsimp only
    rw [if_neg (hlarge (by omega)), nextBackOr0_concat]
    rw [if_pos (hcont hy), nextBackOr0_concat]
    rw [if_neg (@hlead x (by omega)), utf8FirstByte_three, utf8AccContByte_eq, utf8AccContByte_eq, hx, hy,
      hz]
    congr 2
    omega
  | @four x y z w hx hy hz hw h1 h2 =>
    have hl : rest ++ [x, y, z, w] = rest ++ [x] ++ [y] ++ [z] ++ [w] := by simp
    rw [hl, nextCodePointReverse, nextBack_concat]
    dsimp only
    rw [if_neg (hlarge (by omega)), nextBackOr0_concat]
    rw [if_pos (hcont hz), nextBackOr0_concat]
    rw [if_pos (hcont hy), nextBackOr0_concat, utf8FirstByte_four]
    rw [utf8AccContByte_eq, utf8AccContByte_eq, utf8AccContByte_eq, hx, hy, hz, hw]
    congr 2
    omega

end Tortis.Str
