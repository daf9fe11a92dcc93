import Tortis.Str.Chars

/-!
# Searching a slice for a byte

`memchr` and `memrchr` in `libcore/slice/memchr.rs`, for a slice at any address. Both read two words
at a time where these are aligned, and leave the words at which the search has to look closer to a
search byte by byte. A word may be left to it for no reason, but no word with the byte is passed
(`not_mem_of_clear`).
-/

namespace Tortis.Slice

open Outcome List Option
open Str (word land_block)

inductive PointerWidth where
  | w32
  | w64

/-- What the searches depend on. -/
structure Target where
  pointerWidth : PointerWidth
  bigEndian : Bool

section
variable (t : Target)

def Target.usizeBytes : Nat :=
  match t.pointerWidth with
  | .w32 => 4
  | .w64 => 8

def LO_U64 : Nat := 0x01010101_01010101

def HI_U64 : Nat := 0x80808080_80808080

def Target.LO_USIZE : Nat := LO_U64 % 2 ^ (8 * t.usizeBytes)

def Target.HI_USIZE : Nat := HI_U64 % 2 ^ (8 * t.usizeBytes)

/-- `wrapping_sub` of numbers below `m`. -/
def wrappingSub (m x y : Nat) : Nat := (x + m - y) % m

def containsZeroByte (x : Nat) : Bool :=
  wrappingSub (2 ^ (8 * t.usizeBytes)) x t.LO_USIZE &&& (2 ^ (8 * t.usizeBytes) - 1 - x) &&&
    t.HI_USIZE != 0

def repeatByte (b : UInt8) : Nat := b.toNat * ((2 ^ (8 * t.usizeBytes) - 1) / 255)

/-- `align_offset` of a pointer to bytes. -/
def alignOffset (p a : Nat) : Nat :=
  let pmoda := p &&& (a - 1)
  if pmoda = 0 then 0 else a - pmoda

/-- `align_to_offsets`, for a slice of this length. -/
def alignToOffsets (sizeOfT sizeOfU len : Nat) : Nat × Nat :=
  let gcd := Nat.gcd sizeOfT sizeOfU
  let ts := sizeOfU / gcd
  let us := sizeOfT / gcd
  (len / ts * us, len % ts)

/-- `align_to` of a slice of bytes: the lengths of the three parts. -/
def alignTo (addr alignOfU sizeOfU len : Nat) : Nat × Nat × Nat :=
  let offset := alignOffset addr alignOfU
  if len < offset then (len, 0, 0)
  else
    let (usLen, tsLen) := alignToOffsets 1 sizeOfU (len - offset)
    (offset, usLen, tsLen)

/-- `&text[start..end]`. -/
def slice (text : List UInt8) (first last : Nat) : Outcome (List UInt8) := do
  assert (first ≤ last ∧ last ≤ text.length) "slice index out of range"
  .ok ((text.take last).drop first)

def position (x : UInt8) (text : List UInt8) : Option Nat := text.findIdx? (· == x)

def rposition (x : UInt8) (text : List UInt8) : Option Nat :=
  (position x text.reverse).map fun i => text.length - 1 - i

/-- `*(ptr.offset(index) as *const usize)`, which must be aligned and in the slice. -/
def readWord (addr : Nat) (text : List UInt8) (index : Int) : Outcome Nat := do
  assert (0 ≤ index ∧ index + t.usizeBytes ≤ text.length) "read out of bounds"
  assert ((addr + index) % t.usizeBytes = 0) "unaligned read"
  let bytes := (text.drop index.toNat).take t.usizeBytes
  .ok (word (if t.bigEndian then bytes.reverse else bytes))

end

section
variable (t : Target) (addr : Nat) (x : UInt8) (text : List UInt8)

def memchrLoop : Nat → Nat → Outcome Nat
  | 0, _ => .error .outOfFuel
  | n + 1, offset =>
    if offset ≤ text.length - 2 * t.usizeBytes then do
      let u ← readWord t addr text offset
      let v ← readWord t addr text (offset + t.usizeBytes)
      let zu := containsZeroByte t (u ^^^ repeatByte t x)
      let zv := containsZeroByte t (v ^^^ repeatByte t x)
      if zu || zv then .ok offset else memchrLoop n (offset + t.usizeBytes * 2)
    else .ok offset

/-- The search of `memchr` behind the unaligned part. -/
def memchrBody (offset : Nat) : Outcome (Option Nat) := do
  let len := text.length
  let offset ←
    if 2 * t.usizeBytes ≤ len then memchrLoop t addr x text (len + 1) offset else .ok offset
  let rest ← slice text offset len
  .ok ((position x rest).map fun i => offset + i)

def memchr : Outcome (Option Nat) := do
  let len := text.length
  let offset := alignOffset addr t.usizeBytes
  if 0 < offset then do
    let offset := min offset len
    let head ← slice text 0 offset
    match position x head with
    | some index => .ok (some index)
    | none => memchrBody t addr x text offset
  else memchrBody t addr x text offset

def memrchrLoop (minAlignedOffset : Nat) : Nat → Nat → Outcome Nat
  | 0, _ => .error .outOfFuel
  | n + 1, offset =>
    if minAlignedOffset < offset then do
      let u ← readWord t addr text (offset - 2 * t.usizeBytes)
      let v ← readWord t addr text (offset - t.usizeBytes)
      let zu := containsZeroByte t (u ^^^ repeatByte t x)
      let zv := containsZeroByte t (v ^^^ repeatByte t x)
      if zu || zv then .ok offset
      else do
        assert (2 * t.usizeBytes ≤ offset) "attempt to subtract with overflow"
        memrchrLoop minAlignedOffset n (offset - 2 * t.usizeBytes)
    else .ok offset

def memrchr : Outcome (Option Nat) := do
  let len := text.length
  let (pre, _, suffix) := alignTo addr t.usizeBytes (2 * t.usizeBytes) len
  let (minAlignedOffset, maxAlignedOffset) := (pre, len - suffix)
  let offset := maxAlignedOffset
  let tail ← slice text offset len
  match rposition x tail with
  | some index => .ok (some (offset + index))
  | none => do
    let offset ← memrchrLoop t addr x text minAlignedOffset (len + 1) offset
    let head ← slice text 0 offset
    .ok (rposition x head)

end

/-! ## Words -/

section
variable {t : Target} {x b : UInt8} {bytes : List UInt8}

theorem word_lt : ∀ bytes : List UInt8, word bytes < 2 ^ (8 * bytes.length)
  | [] => by decide
  | b :: bytes => by
    have hword := word_lt bytes
    have hb := b.toNat_lt
    rw [word, length_cons, Nat.mul_succ, Nat.pow_add]
    omega

theorem xor_block {a b c d : Nat} {i : Nat} (hb : b < 2 ^ i) (hd : d < 2 ^ i) :
    (2 ^ i * a + b) ^^^ (2 ^ i * c + d) = 2 ^ i * (a ^^^ c) + (b ^^^ d) := by
  refine Nat.eq_of_testBit_eq fun j => ?_
  rw [Nat.testBit_xor, Nat.testBit_two_pow_mul_add _ hb, Nat.testBit_two_pow_mul_add _ hd,
    Nat.testBit_two_pow_mul_add _ (Nat.xor_lt_two_pow hb hd)]
  split
  · rw [Nat.testBit_xor]
  · rw [Nat.testBit_xor]

theorem word_xor (x : UInt8) : ∀ bytes : List UInt8,
    word bytes ^^^ word (bytes.map fun _ => x) = word (bytes.map (· ^^^ x))
  | [] => Nat.xor_self 0
  | b :: bytes => by
    rw [map_cons, map_cons, word, word, word, xor_block b.toNat_lt x.toNat_lt,
      word_xor x bytes, UInt8.toNat_xor]

theorem LO_USIZE_eq (t : Target) : t.LO_USIZE = word (replicate t.usizeBytes 1) := by
  obtain ⟨_ | _, _ | _⟩ := t <;> decide

theorem HI_USIZE_eq (t : Target) : t.HI_USIZE = word (replicate t.usizeBytes 0x80) := by
  obtain ⟨_ | _, _ | _⟩ := t <;> decide

theorem word_replicate (b : UInt8) : ∀ n : Nat,
    word (replicate n b) = b.toNat * word (replicate n 1)
  | 0 => rfl
  | n + 1 => by
    have hone : (1 : UInt8).toNat = 1 := rfl
    rw [replicate_succ, replicate_succ, word, word, word_replicate b n, hone,
      Nat.mul_add, Nat.mul_one, Nat.mul_left_comm]

theorem repeatByte_eq (t : Target) (b : UInt8) :
    repeatByte t b = word (replicate t.usizeBytes b) := by
  have hones : (2 ^ (8 * t.usizeBytes) - 1) / 255 = word (replicate t.usizeBytes 1) := by
    obtain ⟨_ | _, _ | _⟩ := t <;> decide
  rw [repeatByte, hones, ← word_replicate]

theorem mul_add_mod {m a r : Nat} (h : r < 2 ^ 8) :
    (2 ^ 8 * a + r) % (2 ^ 8 * m) = 2 ^ 8 * (a % m) + r := by
  rw [Nat.mod_mul, Nat.mul_add_mod, Nat.mod_eq_of_lt h, Nat.mul_add_div (by decide),
    Nat.div_eq_of_lt h, add_zero, add_comm]

/-- The borrow leaves a byte that is not zero as it finds it, one less, and sets the highest bit of
the first byte that is zero. -/
theorem not_mem_zero_of_land (bytes : List UInt8)
    (h : wrappingSub (2 ^ (8 * bytes.length)) (word bytes) (word (bytes.map fun _ => 1)) &&&
      (2 ^ (8 * bytes.length) - 1 - word bytes) &&& word (bytes.map fun _ => 0x80) = 0) :
    0 ∉ bytes := by
  induction bytes with
  | nil => exact not_mem_nil
  | cons b bytes ih =>
    have hword := word_lt bytes
    have hones := word_lt (bytes.map fun _ => 1)
    have hb := b.toNat_lt
    rw [length_map] at hones
    have hpow : 2 ^ (8 * (b :: bytes).length) = 2 ^ 8 * 2 ^ (8 * bytes.length) := by
      rw [length_cons, Nat.mul_succ, pow_add, mul_comm]
    rw [wrappingSub] at h ih
    rw [hpow, map_cons, map_cons, word, word, word] at h
    generalize word bytes = w at h ih hword
    generalize word (bytes.map fun _ => 1) = ones at h ih hones
    generalize 2 ^ (8 * bytes.length) = m at h ih hword hones
    have hnot : 2 ^ 8 * m - 1 - (2 ^ 8 * w + b.toNat) = 2 ^ 8 * (m - 1 - w) + (255 - b.toNat) := by
      omega
    rw [hnot] at h
    by_cases hzero : b.toNat = 0
    · have hsub : 2 ^ 8 * w + b.toNat + 2 ^ 8 * m - (2 ^ 8 * ones + (1 : UInt8).toNat) =
          2 ^ 8 * (w + m - ones - 1) + 255 := by
        have hone : (1 : UInt8).toNat = 1 := rfl
        omega
      rw [hsub, mul_add_mod (by decide), land_block (by decide) (by omega),
        land_block (Nat.and_lt_two_pow _ (by omega)) (by decide), hzero] at h
      have hlow := (Nat.add_eq_zero_iff.1 h).2
      exact absurd hlow (by decide)
    · have hsub : 2 ^ 8 * w + b.toNat + 2 ^ 8 * m - (2 ^ 8 * ones + (1 : UInt8).toNat) =
          2 ^ 8 * (w + m - ones) + (b.toNat - 1) := by
        have hone : (1 : UInt8).toNat = 1 := rfl
        omega
      rw [hsub, mul_add_mod (by omega), land_block (by omega) (by omega),
        land_block (Nat.and_lt_two_pow _ (by omega)) (by decide)] at h
      have hhigh := (Nat.mul_eq_zero.1 (Nat.add_eq_zero_iff.1 h).1).resolve_left (by decide)
      rw [mem_cons, not_or]
      exact ⟨fun heq => hzero (heq ▸ rfl), ih hhigh⟩

theorem not_mem_of_clear (hlen : bytes.length = t.usizeBytes)
    (h : containsZeroByte t (word bytes ^^^ repeatByte t x) = false) : x ∉ bytes := by
  have hzero : 0 ∉ bytes.map (· ^^^ x) := by
    refine not_mem_zero_of_land _ ?_
    rw [map_const', map_const', length_map, hlen, ← LO_USIZE_eq, ← HI_USIZE_eq,
      ← word_xor, map_const', hlen, ← repeatByte_eq]
    simpa [containsZeroByte] using h
  intro hx
  refine hzero (mem_map.2 ⟨x, hx, UInt8.xor_self⟩)

end

/-! ## Places -/

section
variable {t : Target} {addr i j n : Nat} {x : UInt8} {text : List UInt8}

theorem usizeBytes_pos (t : Target) : 0 < t.usizeBytes := by
  obtain ⟨_ | _, _ | _⟩ := t <;> decide

theorem alignOffset_spec (t : Target) (addr : Nat) : alignOffset addr t.usizeBytes < t.usizeBytes ∧
      t.usizeBytes ∣ addr + alignOffset addr t.usizeBytes := by
  have hmod : addr &&& (t.usizeBytes - 1) = addr % t.usizeBytes := by
    obtain ⟨_ | _, _⟩ := t
    · exact Nat.and_two_pow_sub_one_eq_mod addr 2
    · exact Nat.and_two_pow_sub_one_eq_mod addr 3
  have hlt := Nat.mod_lt addr (usizeBytes_pos t)
  have hdiv := Nat.mod_add_div addr t.usizeBytes
  rw [alignOffset, hmod]
  split
  · next hzero => exact ⟨usizeBytes_pos t, Nat.dvd_of_mod_eq_zero hzero⟩
  · next hne =>
    refine ⟨by omega, addr / t.usizeBytes + 1, ?_⟩
    rw [mul_add, mul_one]
    omega

theorem readWord_spec (text : List UInt8) (index : Int) (hindex : index = i) (h : i + t.usizeBytes ≤ text.length)
    (hdvd : t.usizeBytes ∣ addr + i) : ∃ w, readWord t addr text index = .ok w ∧
      (containsZeroByte t (w ^^^ repeatByte t x) = false →
        x ∉ (text.drop i).take t.usizeBytes) := by
  subst hindex
  have haligned : (addr + i : Int) % t.usizeBytes = 0 := by
    exact_mod_cast Nat.mod_eq_zero_of_dvd hdvd
  have hlen : ((text.drop i).take t.usizeBytes).length = t.usizeBytes := by
    rw [length_take, length_drop]
    omega
  refine ⟨word (if t.bigEndian then ((text.drop i).take t.usizeBytes).reverse
    else (text.drop i).take t.usizeBytes), ?_, fun hclear => ?_⟩
  · rw [readWord, bind_of_assert ⟨by omega, by omega⟩, bind_of_assert haligned, Int.toNat_natCast]
  · split at hclear
    · rw [← mem_reverse]
      exact not_mem_of_clear (by rw [length_reverse, hlen]) hclear
    · exact not_mem_of_clear hlen hclear

theorem slice_from (h : i ≤ text.length) : slice text i text.length = .ok (text.drop i) := by
  rw [slice, bind_of_assert ⟨h, le_rfl⟩, take_length]

theorem slice_to (h : i ≤ text.length) : slice text 0 i = .ok (text.take i) := by
  rw [slice, bind_of_assert ⟨Nat.zero_le i, h⟩, drop_zero]

theorem position_none (h : x ∉ text) : position x text = none := by
  rw [position, findIdx?_eq_none_iff]
  exact fun y hy => beq_false_of_ne fun heq => h (heq ▸ hy)

theorem position_drop (h : x ∉ text.take i) (hi : i ≤ text.length) :
    position x text = (position x (text.drop i)).map fun k => i + k := by
  conv_lhs => rw [← take_append_drop i text]
  rw [position, findIdx?_append, ← position, position_none h, none_or, ← position,
    length_take, min_eq_left hi]
  simp only [add_comm]

theorem rposition_append (l m : List UInt8) : rposition x (l ++ m) =
    ((rposition x m).map fun k => l.length + k).or (rposition x l) := by
  rw [rposition, position, reverse_append, findIdx?_append, ← position, ← position,
    rposition, rposition]
  cases hm : position x m.reverse with
  | some k =>
    rw [position, findIdx?_eq_some_iff_getElem] at hm
    obtain ⟨hlt, -⟩ := hm
    rw [length_reverse] at hlt
    simp only [some_or, map_some, length_append, Option.some.injEq]
    omega
  | none =>
    cases hl : position x l.reverse with
    | none => rfl
    | some k =>
      simp only [none_or, map_some, map_none, length_append, length_reverse, Option.some.injEq]
      omega

/-! ## The loops -/

theorem memchrLoop_spec (hlen : 2 * t.usizeBytes ≤ text.length) : ∀ {n i : Nat},
    i ≤ text.length → text.length < i + n → t.usizeBytes ∣ addr + i → x ∉ text.take i →
      ∃ j, memchrLoop t addr x text n i = .ok j ∧ j ≤ text.length ∧ x ∉ text.take j
  | 0, i, hi, hn, _, _ => by omega
  | n + 1, i, hi, hn, hdvd, hclear => by
    have hpos := usizeBytes_pos t
    rw [memchrLoop]
    split
    · next hle =>
      have hdvd' : t.usizeBytes ∣ addr + (i + t.usizeBytes) := by
        rw [← add_assoc]
        exact (Nat.dvd_add_self_right).2 hdvd
      obtain ⟨u, hu, hzu⟩ := readWord_spec (x := x) text i rfl (by omega) hdvd
      obtain ⟨v, hv, hzv⟩ := readWord_spec (x := x) text (i + t.usizeBytes) rfl (by omega) hdvd'
      rw [hu, ok_bind, hv, ok_bind]
      dsimp only
      split
      · exact ⟨i, rfl, hi, hclear⟩
      · next hzero =>
        rw [Bool.or_eq_true, not_or, Bool.not_eq_true, Bool.not_eq_true] at hzero
        have hblock : x ∉ text.take (i + t.usizeBytes * 2) := by
          rw [Nat.mul_two, ← add_assoc, take_add, take_add, mem_append, mem_append, not_or, not_or]
          exact ⟨⟨hclear, hzu hzero.1⟩, hzv hzero.2⟩
        refine memchrLoop_spec hlen (by omega) (by omega) ?_ hblock
        rw [Nat.mul_two, ← add_assoc, ← add_assoc]
        exact (Nat.dvd_add_self_right).2 ((Nat.dvd_add_self_right).2 hdvd)
    · exact ⟨i, rfl, hi, hclear⟩

theorem memchrBody_eq (hi : i ≤ text.length)
    (hdvd : 2 * t.usizeBytes ≤ text.length → t.usizeBytes ∣ addr + i) (hclear : x ∉ text.take i) :
    memchrBody t addr x text i = .ok (position x text) := by
  rw [memchrBody]
  dsimp only
  split
  · next hlen =>
    obtain ⟨j, hj, hle, hskip⟩ :=
      memchrLoop_spec (n := text.length + 1) hlen hi (by omega) (hdvd hlen) hclear
    rw [hj, ok_bind, slice_from hle, ok_bind, ← position_drop hskip hle]
  · rw [ok_bind, slice_from hi, ok_bind, ← position_drop hclear hi]

theorem memchr_eq (t : Target) (addr : Nat) (x : UInt8) (text : List UInt8) :
    memchr t addr x text = .ok (position x text) := by
  obtain ⟨hlt, hdvd⟩ := alignOffset_spec t addr
  rw [memchr]
  dsimp only
  split
  · next hpos =>
    have hle := min_le_right (alignOffset addr t.usizeBytes) text.length
    rw [slice_to hle, ok_bind]
    split
    · next index hhead =>
      conv_rhs => rw [← take_append_drop (min (alignOffset addr t.usizeBytes) text.length) text]
      rw [position, findIdx?_append, ← position, hhead, some_or]
    · next hnone =>
      refine memchrBody_eq hle (fun hlen => ?_) fun hmem => ?_
      · rwa [min_eq_left (by omega)]
      · rw [position, findIdx?_eq_none_iff] at hnone
        exact Bool.false_ne_true ((hnone x hmem).symm.trans (beq_self_eq_true x))
  · next hzero =>
    have hzero' : alignOffset addr t.usizeBytes = 0 := Nat.eq_zero_of_not_pos hzero
    rw [hzero'] at hdvd ⊢
    exact memchrBody_eq (Nat.zero_le _) (fun _ => hdvd) not_mem_nil

theorem memrchrLoop_spec {m : Nat} : ∀ {n k : Nat},
    k < n → (k ≠ 0 → t.usizeBytes ∣ addr + m) → m + 2 * t.usizeBytes * k ≤ text.length →
    x ∉ text.drop (m + 2 * t.usizeBytes * k) →
      ∃ j, memrchrLoop t addr x text m n (m + 2 * t.usizeBytes * k) = .ok j ∧
        j ≤ text.length ∧ x ∉ text.drop j
  | 0, k, hn, _, _, _ => by omega
  | n + 1, 0, hn, _, hle, hclear => by
    rw [memrchrLoop, if_neg (by omega)]
    exact ⟨_, rfl, hle, hclear⟩
  | n + 1, k + 1, hn, hdvd, hle, hclear => by
    have hpos := usizeBytes_pos t
    have hsucc : m + 2 * t.usizeBytes * (k + 1) =
        m + 2 * t.usizeBytes * k + t.usizeBytes + t.usizeBytes := by
      rw [Nat.mul_succ]
      omega
    have hu' : t.usizeBytes ∣ addr + (m + 2 * t.usizeBytes * k) := by
      rw [← Nat.add_assoc, Nat.mul_right_comm, Nat.mul_comm _ t.usizeBytes]
      exact Nat.dvd_add (hdvd k.succ_ne_zero) (Nat.dvd_mul_right _ _)
    have hv' : t.usizeBytes ∣ addr + (m + 2 * t.usizeBytes * k + t.usizeBytes) := by
      rw [← add_assoc]
      exact (Nat.dvd_add_self_right).2 hu'
    rw [hsucc] at hle hclear ⊢
    generalize hoffset : m + 2 * t.usizeBytes * k = i at *
    obtain ⟨u, hu, hzu⟩ := readWord_spec (x := x) text
      (((i + t.usizeBytes + t.usizeBytes : Nat) : Int) - 2 * t.usizeBytes)
      (by omega) (by omega) hu'
    obtain ⟨v, hv, hzv⟩ := readWord_spec (x := x) text
      (((i + t.usizeBytes + t.usizeBytes : Nat) : Int) - t.usizeBytes)
      (by omega) (by omega) hv'
    rw [memrchrLoop, if_pos (by omega), hu, ok_bind, hv, ok_bind]
    dsimp only
    split
    · exact ⟨_, rfl, hle, hclear⟩
    · next hzero =>
      rw [Bool.or_eq_true, not_or, Bool.not_eq_true, Bool.not_eq_true] at hzero
      have hback : i + t.usizeBytes + t.usizeBytes - 2 * t.usizeBytes = i := by omega
      rw [bind_of_assert (by omega), hback]
      have hblock : x ∉ text.drop i := by
        rw [← take_append_drop t.usizeBytes (text.drop i), drop_drop,
          ← take_append_drop t.usizeBytes (text.drop (i + t.usizeBytes)), drop_drop,
          mem_append, mem_append, not_or, not_or]
        exact ⟨hzu hzero.1, hzv hzero.2, hclear⟩
      subst hoffset
      exact memrchrLoop_spec (by omega) (fun _ => hdvd k.succ_ne_zero) (by omega) hblock

theorem alignTo_spec (t : Target) (addr len : Nat) : ∃ m mid suffix k,
    alignTo addr t.usizeBytes (2 * t.usizeBytes) len = (m, mid, suffix) ∧
      m + 2 * t.usizeBytes * k + suffix = len ∧ (k ≠ 0 → t.usizeBytes ∣ addr + m) := by
  obtain ⟨hlt, hdvd⟩ := alignOffset_spec t addr
  rw [alignTo]
  dsimp only
  split
  · exact ⟨len, 0, 0, 0, rfl, by omega, by simp⟩
  · next hle =>
    refine ⟨_, _, _, (len - alignOffset addr t.usizeBytes) / (2 * t.usizeBytes), rfl, ?_,
      fun _ => hdvd⟩
    have hdiv := Nat.div_add_mod (len - alignOffset addr t.usizeBytes) (2 * t.usizeBytes)
    rw [alignToOffsets, Nat.gcd_one_left, Nat.div_one]
    omega

theorem memrchr_eq (t : Target) (addr : Nat) (x : UInt8) (text : List UInt8) :
    memrchr t addr x text = .ok (rposition x text) := by
  obtain ⟨m, mid, suffix, k, halign, hlen, hdvd⟩ := alignTo_spec t addr text.length
  have hmax : text.length - suffix = m + 2 * t.usizeBytes * k := by omega
  have hle : m + 2 * t.usizeBytes * k ≤ text.length := by omega
  rw [memrchr]
  dsimp only
  rw [halign]
  dsimp only
  rw [hmax, slice_from hle, ok_bind]
  have hsplit : ∀ j, j ≤ text.length → rposition x text =
      ((rposition x (text.drop j)).map fun k => j + k).or (rposition x (text.take j)) := by
    intro j hj
    have happend := rposition_append (x := x) (text.take j) (text.drop j)
    rwa [take_append_drop, length_take, min_eq_left hj] at happend
  split
  · next index htail =>
    rw [hsplit _ hle, htail]
    rfl
  · next hnone =>
    have hclear : x ∉ text.drop (m + 2 * t.usizeBytes * k) := by
      intro hmem
      rw [rposition, map_eq_none_iff, position, findIdx?_eq_none_iff] at hnone
      have hne := hnone x (mem_reverse.2 hmem)
      exact Bool.false_ne_true (hne.symm.trans (beq_self_eq_true x))
    have hk : k ≤ 2 * t.usizeBytes * k :=
      Nat.le_mul_of_pos_left k (Nat.mul_pos Nat.two_pos (usizeBytes_pos t))
    obtain ⟨j, hj, hj', hskip⟩ := memrchrLoop_spec (n := text.length + 1) (by omega) hdvd hle hclear
    have hskip' : rposition x (text.drop j) = none := by
      rw [rposition, position_none fun h => hskip (mem_reverse.1 h)]
      rfl
    rw [hj, ok_bind, slice_to hj', ok_bind, hsplit j hj', hskip']
    rfl

/-- The first place of the byte, if it has one. -/
def IsFirst (x : UInt8) (text : List UInt8) : Option Nat → Prop
  | some i => text[i]? = some x ∧ ∀ j, j < i → text[j]? ≠ some x
  | none => x ∉ text

/-- The last place of the byte, if it has one. -/
def IsLast (x : UInt8) (text : List UInt8) : Option Nat → Prop
  | some i => text[i]? = some x ∧ ∀ j, i < j → text[j]? ≠ some x
  | none => x ∉ text

theorem position_isFirst (x : UInt8) (text : List UInt8) : IsFirst x text (position x text) := by
  cases h : position x text with
  | none =>
    intro hmem
    rw [position, findIdx?_eq_none_iff] at h
    exact Bool.false_ne_true ((h x hmem).symm.trans (beq_self_eq_true x))
  | some i =>
    rw [position, findIdx?_eq_some_iff_getElem] at h
    obtain ⟨hi, heq, hfirst⟩ := h
    refine ⟨?_, fun j hj hsome => ?_⟩
    · rw [getElem?_eq_getElem hi, beq_iff_eq.1 heq]
    · obtain ⟨hlt, hx⟩ := List.getElem?_eq_some_iff.1 hsome
      exact hfirst j hj (beq_iff_eq.2 hx)

theorem rposition_isLast (x : UInt8) (text : List UInt8) : IsLast x text (rposition x text) := by
  have hfirst := position_isFirst x text.reverse
  rw [rposition]
  cases h : position x text.reverse with
  | none =>
    rw [h] at hfirst
    exact fun hmem => hfirst (mem_reverse.2 hmem)
  | some i =>
    rw [h] at hfirst
    obtain ⟨hsome, hfirst⟩ := hfirst
    have hi := (List.getElem?_eq_some_iff.1 hsome).1
    rw [length_reverse] at hi
    refine ⟨?_, fun j hj hsome' => ?_⟩
    · rwa [getElem?_reverse hi] at hsome
    · have hj' := (List.getElem?_eq_some_iff.1 hsome').1
      dsimp only at hj
      refine hfirst (text.length - 1 - j) (by omega) ?_
      rw [getElem?_reverse (by omega), ← hsome']
      congr 1
      omega

/-- `memchr` finds the first place of a byte and `memrchr` the last one, at any address; and both
return, so all words they read are aligned and in the slice. -/
theorem memchr_memrchr_exact (t : Target) (addr : Nat) (x : UInt8) (text : List UInt8) :
    (∃ r, memchr t addr x text = .ok r ∧ IsFirst x text r) ∧
      ∃ r, memrchr t addr x text = .ok r ∧ IsLast x text r :=
  ⟨⟨_, memchr_eq t addr x text, position_isFirst x text⟩,
    ⟨_, memrchr_eq t addr x text, rposition_isLast x text⟩⟩

end

end Tortis.Slice
