import Mathlib.Data.Nat.Bitwise
import Tortis.Str.Validation

/-!
# Valid strings

Where the scan meets an ASCII byte it skips ASCII bytes only, some of them two words at a time, and
reads no word that is not in the slice.

`run_utf8_validation` accepts the encodings of sequences of scalar values and says how far another
slice is one, and `Chars` gives the sequence of a valid slice back, from both of its ends.
-/

namespace Tortis.Str

open PrefixCode Outcome List

/-! ## Words -/

theorem land_block {a b c d : Nat} {i : Nat} (hb : b < 2 ^ i) (hd : d < 2 ^ i) :
    (2 ^ i * a + b) &&& (2 ^ i * c + d) = 2 ^ i * (a &&& c) + (b &&& d) := by
  refine Nat.eq_of_testBit_eq fun j => ?_
  rw [Nat.testBit_and, Nat.testBit_two_pow_mul_add _ hb, Nat.testBit_two_pow_mul_add _ hd,
    Nat.testBit_two_pow_mul_add _ (Nat.and_lt_two_pow b hd)]
  split
  · rw [Nat.testBit_and]
  · rw [Nat.testBit_and]

theorem high_bit {b : UInt8} (h : b.toNat &&& 0x80 = 0) : b.toNat < 0x80 := by
  have hlt := b.toNat_lt
  rw [show (0x80 : Nat) = 2 ^ 7 from rfl, Nat.and_two_pow, Nat.testBit_eq_decide_div_mod_eq] at h
  by_contra hge
  rw [decide_eq_true (by omega)] at h
  cases h

theorem ascii_of_land : ∀ {bytes : List UInt8},
    word bytes &&& word (bytes.map fun _ => 0x80) = 0 → ∀ b ∈ bytes, b.toNat < 0x80
  | [], _, b, hb => absurd hb not_mem_nil
  | c :: bytes, h, b, hb => by
    rw [map_cons, word, word, land_block c.toNat_lt (by decide)] at h
    obtain ⟨hmul, hlow⟩ := Nat.add_eq_zero_iff.1 h
    rcases mem_cons.1 hb with rfl | hb
    · exact high_bit hlow
    · refine ascii_of_land ?_ b hb
      exact (Nat.mul_eq_zero.1 hmul).resolve_left (by decide)

theorem ascii_of_word {bytes : List UInt8} (hlen : bytes.length = USIZE_BYTES)
    (h : containsNonascii (word bytes) = false) : ∀ b ∈ bytes, b.toNat < 0x80 := by
  refine ascii_of_land ?_
  have hmask : word (bytes.map fun _ => 0x80) = NONASCII_MASK := by
    rw [map_const', hlen]
    rfl
  rw [hmask]
  simpa [containsNonascii] using h

/-! ## Skipping -/

/-- The bytes from the one place up to the other one are ASCII. -/
def Ascii (v : List UInt8) (i j : Nat) : Prop :=
  i ≤ j ∧ ∀ k, i ≤ k → k < j → ∃ b, v[k]? = some b ∧ b.toNat < 0x80

section
variable {v : List UInt8} {i j k n : Nat}

theorem Ascii.refl (v : List UInt8) (i : Nat) : Ascii v i i :=
  ⟨le_rfl, fun _ hk hk' => absurd hk' (Nat.not_lt.2 hk)⟩

theorem Ascii.trans (h : Ascii v i j) (h' : Ascii v j k) : Ascii v i k := by
  refine ⟨h.1.trans h'.1, fun m hm hm' => ?_⟩
  rcases lt_or_ge m j with hlt | hge
  · exact h.2 m hm hlt
  · exact h'.2 m hge hm'

theorem Ascii.le_length (h : Ascii v i j) (hi : i ≤ v.length) : j ≤ v.length := by
  rcases Nat.eq_or_lt_of_le h.1 with rfl | hlt
  · exact hi
  · obtain ⟨b, hb, -⟩ := h.2 (j - 1) (by omega) (by omega)
    have := List.getElem?_eq_some_iff.1 hb |>.1
    omega

theorem Ascii.single {b : UInt8} (hb : v[i]? = some b) (h : b.toNat < 0x80) :
    Ascii v i (i + 1) := by
  refine ⟨Nat.le_succ i, fun k hk hk' => ⟨b, ?_, h⟩⟩
  rwa [le_antisymm (Nat.le_of_lt_succ hk') hk]

theorem readWord_spec (h : i + USIZE_BYTES ≤ v.length) :
    ∃ w, readWord v i = .ok w ∧ (containsNonascii w = false → Ascii v i (i + USIZE_BYTES)) := by
  refine ⟨word ((v.drop i).take USIZE_BYTES), ?_, fun hw => ⟨Nat.le_add_right _ _, ?_⟩⟩
  · rw [readWord, assert, if_pos (decide_eq_true h), ok_bind]
  · intro k hk hk'
    have hlt : k < v.length := lt_of_lt_of_le hk' h
    have hlen : ((v.drop i).take USIZE_BYTES).length = USIZE_BYTES := by
      rw [length_take, length_drop]
      omega
    have hget : ((v.drop i).take USIZE_BYTES)[k - i]? = v[k]? := by
      rw [getElem?_take, if_pos (by omega), getElem?_drop, Nat.add_sub_cancel' hk]
    rw [getElem?_eq_getElem hlt] at hget ⊢
    exact ⟨_, rfl, ascii_of_word hlen hw _ (mem_of_getElem? hget)⟩

theorem skipBlocks_spec : ∀ {n i : Nat}, i ≤ v.length → v.length < i + n →
    ∃ j, skipBlocks v (blocksEnd v.length) n i = .ok j ∧ Ascii v i j
  | 0, i, hi, hn => by omega
  | n + 1, i, hi, hn => by
    rw [skipBlocks]
    split
    · next hlt =>
      have hin : i + 2 * USIZE_BYTES ≤ v.length := by
        rw [blocksEnd] at hlt
        split at hlt <;> omega
      rw [USIZE_BYTES] at hin
      obtain ⟨zu, hu, hzu⟩ := @readWord_spec v i (by rw [USIZE_BYTES]; omega)
      obtain ⟨zv, hv, hzv⟩ := @readWord_spec v (i + USIZE_BYTES) (by rw [USIZE_BYTES]; omega)
      rw [hu, ok_bind, hv, ok_bind]
      split
      · exact ⟨i, rfl, .refl v i⟩
      · next hclear =>
        rw [Bool.or_eq_true, not_or, Bool.not_eq_true, Bool.not_eq_true] at hclear
        have hblock : Ascii v i (i + 2 * USIZE_BYTES) := (hzu hclear.1).trans (hzv hclear.2)
        obtain ⟨j, hj, hskip⟩ := @skipBlocks_spec n (i + 2 * 8) hin (by omega)
        exact ⟨j, hj, hblock.trans hskip⟩
    · exact ⟨i, rfl, .refl v i⟩

theorem skipBytes_spec : ∀ {n i : Nat}, i ≤ v.length → v.length < i + n →
    ∃ j, skipBytes v n i = .ok j ∧ Ascii v i j ∧
      ∀ b, v[i]? = some b → b.toNat < 0x80 → i < j
  | 0, i, hi, hn => by omega
  | n + 1, i, hi, hn => by
    rw [skipBytes]
    split
    · next b hb =>
      split
      · next hlt =>
        have hi' : i + 1 ≤ v.length := (List.getElem?_eq_some_iff.1 hb).1
        obtain ⟨j, hj, hskip, -⟩ := @skipBytes_spec n (i + 1) hi' (by omega)
        refine ⟨j, hj, (Ascii.single hb (UInt8.lt_iff_toNat_lt.1 hlt)).trans hskip, fun _ _ _ => ?_⟩
        exact hskip.1
      · next hge =>
        refine ⟨i, rfl, .refl v i, fun b' hb' hlt => ?_⟩
        rw [hb] at hb'
        cases hb'
        exact absurd (UInt8.lt_iff_toNat_lt.2 hlt) hge
    · next hnone =>
      refine ⟨i, rfl, .refl v i, fun b hb => ?_⟩
      rw [hnone] at hb
      cases hb

theorem skipAscii_spec {align : BitVec 64} {b : UInt8} (hb : v[i]? = some b) (h : b.toNat < 0x80) :
    ∃ j, skipAscii align v i = .ok j ∧ i < j ∧ Ascii v i j := by
  have hi : i < v.length := (List.getElem?_eq_some_iff.1 hb).1
  rw [skipAscii]
  split
  · obtain ⟨j, hj, hblocks⟩ := @skipBlocks_spec v (v.length + 1) i hi.le (by omega)
    rw [hj, ok_bind]
    obtain ⟨k, hk, hbytes, hfirst⟩ := @skipBytes_spec v (v.length + 1) j (hblocks.le_length hi.le)
      (by omega)
    refine ⟨k, hk, ?_, hblocks.trans hbytes⟩
    rcases Nat.eq_or_lt_of_le hblocks.1 with rfl | hlt
    · exact hfirst b hb h
    · exact lt_of_lt_of_le hlt hbytes.1
  · exact ⟨i + 1, rfl, Nat.lt_succ_self i, .single hb h⟩

theorem Ascii.encoded (h : Ascii v i j) (hi : Encoded encodeChar (v.take i)) :
    Encoded encodeChar (v.take j) := by
  obtain ⟨hle, hascii⟩ := h
  induction j, hle using Nat.le_induction with
  | base => exact hi
  | succ j hij ih =>
    obtain ⟨b, hb, hlt⟩ := hascii j hij (Nat.lt_succ_self j)
    obtain ⟨c, hc⟩ := (WellFormed.one hlt).exists_char
    have hlast : Encoded encodeChar [b] := ⟨[c], by rw [flatMap_singleton, hc]⟩
    rw [take_add_one, hb]
    exact (ih fun k hk hk' => hascii k hk (Nat.lt_succ_of_lt hk')).append hlast

end

end Tortis.Str

/-! ## Valid strings -/

namespace Tortis.Str

open PrefixCode Outcome List

/-! ## Validation -/

/-- What validation says about a slice. -/
def Reports (v : List UInt8) : Except Utf8Error Unit → Prop
  | .ok () => Encoded encodeChar v
  | .error e => e.validUpTo < v.length ∧ Encoded encodeChar (v.take e.validUpTo) ∧
    Stuck encodeChar (v.drop e.validUpTo) ∧ Failure (v.drop e.validUpTo) e.errorLen

variable {v : List UInt8}

theorem encoded_next {index : Nat} {c : Char}
    (h : Encoded encodeChar (v.take index)) (hc : encodeChar c <+: v.drop index) :
    Encoded encodeChar (v.take (index + (encodeChar c).length)) := by
  rw [take_add, ← prefix_iff_eq_take.1 hc]
  exact h.append ⟨[c], flatMap_singleton _ _⟩

theorem validationLoop_spec (align : BitVec 64) : ∀ {n index : Nat},
    index ≤ v.length → v.length < index + n → Encoded encodeChar (v.take index) →
      ∃ r, validationLoop align v n index = .ok r ∧ Reports v r
  | 0, index, hle, hn, _ => by omega
  | n + 1, index, hle, hn, henc => by
    rw [validationLoop]
    rcases Nat.eq_or_lt_of_le hle with rfl | hlt
    · rw [getElem?_eq_none le_rfl]
      rw [take_length] at henc
      exact ⟨.ok (), rfl, henc⟩
    have hfirst : v[index]? = some v[index] := getElem?_eq_getElem hlt
    rw [hfirst]
    dsimp only
    split
    · next hge =>
      have hread := multibyte_spec (drop_eq_getElem_cons hlt) (UInt8.le_iff_toNat_le.1 hge)
      generalize multibyte v index v[index] = r at hread ⊢
      cases hread with
      | @next c hc =>
        have hbound := hc.length_le
        rw [length_drop] at hbound
        have hpos := length_pos_of_ne_nil (shape_encodeChar c).ne_nil
        exact validationLoop_spec align (by omega) (by omega) (encoded_next henc hc)
      | @failed errorLen hstuck hfail =>
        exact ⟨.error ⟨index, errorLen⟩, rfl, hlt, henc, hstuck, hfail⟩
    · next hlow =>
      have hlow' : v[index].toNat < 0x80 := by
        exact Nat.lt_of_not_le hlow
      obtain ⟨j, hj, hij, hascii⟩ := @skipAscii_spec v index align _ hfirst hlow'
      rw [hj, ok_bind]
      exact validationLoop_spec align (hascii.le_length hle) (by omega) (hascii.encoded henc)

theorem runUtf8Validation_reports (align : BitVec 64) (v : List UInt8) :
    ∃ r, runUtf8Validation align v = .ok r ∧ Reports v r :=
  validationLoop_spec align (Nat.zero_le _) (by omega) .nil

theorem Reports.longest {e : Utf8Error} (h : Reports v (.error e)) {n : Nat}
    (hn : n ≤ v.length) (henc : Encoded encodeChar (v.take n)) : n ≤ e.validUpTo := by
  obtain ⟨hlt, ⟨cs, hcs⟩, hstuck, -⟩ := h
  have hv : cs.flatMap encodeChar ++ v.drop e.validUpTo = v := by
    rw [hcs, take_append_drop]
  have hlen : (cs.flatMap encodeChar).length = e.validUpTo := by
    rw [hcs, length_take, min_eq_left hlt.le]
  rw [← hlen]
  exact prefixFree_encodeChar.longest hstuck (hv.symm ▸ hn) (hv.symm ▸ henc)

theorem Reports.ok_iff {r : Except Utf8Error Unit} (h : Reports v r) :
    r = .ok () ↔ Encoded encodeChar v := by
  cases r with
  | ok u => exact iff_of_true rfl h
  | error e =>
    refine iff_of_false nofun fun henc => ?_
    have hle := h.longest le_rfl (by rwa [take_length])
    exact Nat.not_lt.2 hle h.1

/-! ## `Chars` -/

/-- `from_u32_unchecked`, which must not be called with another number. -/
def fromU32Unchecked (i : Nat) : Outcome Char := do
  assert (decide i.isValidChar) "not a scalar value"
  .ok (Char.ofNat i)

structure Chars where
  iter : List UInt8

/-- The two ways to advance a double-ended iterator. -/
inductive End where
  | front
  | back
deriving DecidableEq

/-- What `next_code_point` and `next_code_point_reverse` return as a character. -/
def Chars.advance (iter : List UInt8) : Option (Nat × List UInt8) → Outcome (Option Char × Chars)
  | none => .ok (none, ⟨iter⟩)
  | some (ch, iter) => do
    let c ← fromU32Unchecked ch
    .ok (some c, ⟨iter⟩)

def Chars.next (self : Chars) : Outcome (Option Char × Chars) :=
  advance self.iter (nextCodePoint self.iter)

def Chars.nextBack (self : Chars) : Outcome (Option Char × Chars) :=
  advance self.iter (nextCodePointReverse self.iter)

/-- The calls of `next` and `next_back` in an order. -/
def Chars.run : List End → Chars → Outcome (List (Option Char) × Chars)
  | [], self => .ok ([], self)
  | e :: ends, self => do
    let (c, self) ← match e with
      | .front => self.next
      | .back => self.nextBack
    let (cs, self) ← run ends self
    .ok (c :: cs, self)

/-- A list that is taken from at its two ends. -/
def takes {α : Type} : List End → List α → List (Option α) × List α
  | [], l => ([], l)
  | .front :: ends, l =>
    let (as, rest) := takes ends l.tail
    (l.head? :: as, rest)
  | .back :: ends, l =>
    let (as, rest) := takes ends l.dropLast
    (l.getLast? :: as, rest)

/-- What the calls at one end gave. -/
def given {α : Type} (e : End) (ends : List End) (as : List (Option α)) : List α :=
  (ends.zip as).filterMap fun p => if p.1 = e then p.2 else none

theorem takes_split {α : Type} : ∀ (ends : List End) (l : List α),
    given .front ends (takes ends l).1 ++ (takes ends l).2 ++
      (given .back ends (takes ends l).1).reverse = l
  | [], l => by simp [takes, given]
  | .front :: ends, l => by
    have ih := takes_split ends l.tail
    cases l with
    | nil => simpa [takes, given] using ih
    | cons a l => simpa [takes, given] using ih
  | .back :: ends, l => by
    have ih := takes_split ends l.dropLast
    rcases eq_nil_or_concat' l with rfl | ⟨l, a, rfl⟩
    · simpa [takes, given] using ih
    · rw [dropLast_concat] at ih
      simp only [takes, given, dropLast_concat, getLast?_concat, zip_cons_cons, filterMap_cons]
      simp only [given] at ih
      simp [← append_assoc, ih]

theorem fromU32Unchecked_toNat (c : Char) : fromU32Unchecked c.toNat = .ok c := by
  have hvalid : c.toNat.isValidChar := c.valid
  rw [fromU32Unchecked, assert, if_pos (decide_eq_true hvalid), ok_bind, Char.ofNat_toNat]

theorem next_encoded (l : List Char) : Chars.next ⟨l.flatMap encodeChar⟩ =
    .ok (l.head?, ⟨l.tail.flatMap encodeChar⟩) := by
  cases l with
  | nil => rfl
  | cons c l =>
    rw [Chars.next, flatMap_cons, (shape_encodeChar c).next, Chars.advance, fromU32Unchecked_toNat]
    rfl

theorem nextBack_encoded (l : List Char) : Chars.nextBack ⟨l.flatMap encodeChar⟩ =
    .ok (l.getLast?, ⟨l.dropLast.flatMap encodeChar⟩) := by
  rcases eq_nil_or_concat' l with rfl | ⟨l, c, rfl⟩
  · rfl
  · rw [Chars.nextBack, flatMap_append, flatMap_singleton,
      (shape_encodeChar c).nextReverse, Chars.advance, fromU32Unchecked_toNat,
      getLast?_concat, dropLast_concat]
    rfl

theorem run_encoded : ∀ (ends : List End) (l : List Char), Chars.run ends ⟨l.flatMap encodeChar⟩ =
    .ok ((takes ends l).1, ⟨(takes ends l).2.flatMap encodeChar⟩)
  | [], l => rfl
  | .front :: ends, l => by
    rw [Chars.run, next_encoded, ok_bind]
    dsimp only
    rw [run_encoded ends]
    rfl
  | .back :: ends, l => by
    rw [Chars.run, nextBack_encoded, ok_bind]
    dsimp only
    rw [run_encoded ends]
    rfl

/-- Validation accepts the encodings of sequences of scalar values, and about another slice it
reports the longest part that is one and what rules out that it goes on; and the calls of `next` and
`next_back` on a valid slice give its scalar values. -/
theorem validation_and_decoding_exact :
    (∀ (align : BitVec 64) (v : List UInt8), ∃ r, runUtf8Validation align v = .ok r ∧
      (r = .ok () ↔ ∃ cs : List Char, cs.flatMap encodeChar = v) ∧ ∀ e, r = .error e →
        (e.validUpTo ≤ v.length ∧ Encoded encodeChar (v.take e.validUpTo) ∧
          ∀ n, n ≤ v.length → Encoded encodeChar (v.take n) → n ≤ e.validUpTo) ∧
        (e.errorLen = none ↔ ProperPrefix encodeChar (v.drop e.validUpTo)) ∧
        Failure (v.drop e.validUpTo) e.errorLen) ∧
    ∀ (cs : List Char) (ends : List End), ∃ results rest,
      Chars.run ends ⟨cs.flatMap encodeChar⟩ = .ok (results, ⟨rest.flatMap encodeChar⟩) ∧
      (results, rest) = takes ends cs ∧
      given .front ends results ++ rest ++ (given .back ends results).reverse = cs := by
  refine ⟨fun align v => ?_, fun cs ends => ?_⟩
  · obtain ⟨r, hr, hreports⟩ := runUtf8Validation_reports align v
    refine ⟨r, hr, hreports.ok_iff, ?_⟩
    rintro e rfl
    have hlongest : ∀ n, n ≤ v.length → Encoded encodeChar (v.take n) → n ≤ e.validUpTo :=
      fun n hn => hreports.longest hn
    obtain ⟨hlt, henc, -, hfail⟩ := hreports
    refine ⟨⟨hlt.le, henc, hlongest⟩, ?_, hfail⟩
    cases hlen : e.errorLen with
    | none =>
      rw [hlen] at hfail
      exact iff_of_true rfl hfail
    | some k =>
      rw [hlen] at hfail
      exact iff_of_false nofun hfail.1
  · exact ⟨_, _, run_encoded ends cs, rfl, takes_split ends cs⟩

end Tortis.Str
