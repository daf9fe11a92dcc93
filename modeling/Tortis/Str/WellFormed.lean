import Tortis.Str.Encoding

/-!
# Well-formed byte sequences

The encodings of the Unicode scalar values, byte by byte (`WellFormed`), and what the parts of an
encoding look like. Where a list of bytes does not start with an encoding, `Failure` says what is
reported about it.
-/

namespace Tortis.Str

open PrefixCode List

def encodeChar (c : Char) : List UInt8 := encodeUtf8 c.toNat

theorem shape_encodeChar (c : Char) : Shape c.toNat (encodeChar c) := by
  refine shape_encodeUtf8 ?_
  have hc : c.toNat < 0xD800 ∨ 0xDFFF < c.toNat ∧ c.toNat < 0x110000 := c.valid
  omega

theorem prefixFree_encodeChar : PrefixFree encodeChar :=
  .of_decode (fun l => (nextCodePoint l).map fun p => (Char.ofNat p.1, p.2))
    (fun c => (shape_encodeChar c).ne_nil) fun c l => by
      rw [(shape_encodeChar c).next, Option.map_some, Char.ofNat_toNat]

def Cont (b : UInt8) : Prop := 0x80 ≤ b.toNat ∧ b.toNat < 0xC0

/-- The first two bytes of an encoding of three bytes. -/
def Lead3 (x y : UInt8) : Prop :=
  0xE0 ≤ x.toNat ∧ x.toNat ≤ 0xEF ∧ Cont y ∧ (x.toNat = 0xE0 → 0xA0 ≤ y.toNat) ∧
    (x.toNat = 0xED → y.toNat < 0xA0)

/-- The first two bytes of an encoding of four bytes. -/
def Lead4 (x y : UInt8) : Prop :=
  0xF0 ≤ x.toNat ∧ x.toNat ≤ 0xF4 ∧ Cont y ∧ (x.toNat = 0xF0 → 0x90 ≤ y.toNat) ∧
    (x.toNat = 0xF4 → y.toNat < 0x90)

/-- The encodings. -/
inductive WellFormed : List UInt8 → Prop where
  | one {x : UInt8} : x.toNat < 0x80 → WellFormed [x]
  | two {x y : UInt8} : 0xC2 ≤ x.toNat → x.toNat < 0xE0 → Cont y → WellFormed [x, y]
  | three {x y z : UInt8} : Lead3 x y → Cont z → WellFormed [x, y, z]
  | four {x y z w : UInt8} : Lead4 x y → Cont z → Cont w → WellFormed [x, y, z, w]

/-- The numbers of the scalar values. -/
def IsScalar (n : Nat) : Prop := n < 0xD800 ∨ 0xDFFF < n ∧ n < 0x110000

variable {n : Nat} {l : List UInt8}

theorem Shape.wellFormed (h : Shape n l) (hn : IsScalar n) : WellFormed l := by
  rw [IsScalar] at hn
  cases h with
  | one hx h => exact .one (by omega)
  | two hx hy h h' => exact .two (by omega) (by omega) ⟨by omega, by omega⟩
  | three hx hy hz h h' =>
    exact .three ⟨by omega, by omega, ⟨by omega, by omega⟩, by omega, by omega⟩
      ⟨by omega, by omega⟩
  | four hx hy hz hw h h' =>
    exact .four ⟨by omega, by omega, ⟨by omega, by omega⟩, by omega, by omega⟩
      ⟨by omega, by omega⟩ ⟨by omega, by omega⟩

theorem wellFormed_encodeChar (c : Char) : WellFormed (encodeChar c) :=
  (shape_encodeChar c).wellFormed c.valid

theorem toNat_ofNat (h : IsScalar n) : (Char.ofNat n).toNat = n := by
  have hvalid : n.isValidChar := h
  rw [Char.ofNat, dif_pos hvalid]
  rfl

theorem exists_encodeChar (hn : IsScalar n) (h : Shape n l) : ∃ c : Char, encodeChar c = l := by
  refine ⟨Char.ofNat n, ?_⟩
  rw [encodeChar, toNat_ofNat hn, h.eq]

theorem WellFormed.exists_char (h : WellFormed l) : ∃ c : Char, encodeChar c = l := by
  have hscalar : ∀ {n : Nat}, (n < 0xD800 ∨ 0xDFFF < n ∧ n < 0x110000) → Shape n l →
      ∃ c : Char, encodeChar c = l := fun hn => exists_encodeChar hn
  cases h with
  | @one x h => exact hscalar (n := x.toNat) (by omega) (.one rfl h)
  | @two x y h h' hy =>
    obtain ⟨hy1, hy2⟩ := hy
    exact hscalar (n := (x.toNat - 0xC0) * 64 + (y.toNat - 0x80)) (by omega)
      (.two (by omega) (by omega) (by omega) (by omega))
  | @three x y z h hz =>
    obtain ⟨hx1, hx2, ⟨hy1, hy2⟩, hx3, hx4⟩ := h
    obtain ⟨hz1, hz2⟩ := hz
    exact hscalar (n := (x.toNat - 0xE0) * 4096 + (y.toNat - 0x80) * 64 + (z.toNat - 0x80))
      (by omega) (.three (by omega) (by omega) (by omega) (by omega) (by omega))
  | @four x y z w h hz hw =>
    obtain ⟨hx1, hx2, ⟨hy1, hy2⟩, hx3, hx4⟩ := h
    obtain ⟨hz1, hz2⟩ := hz
    obtain ⟨hw1, hw2⟩ := hw
    exact hscalar (n := (x.toNat - 0xF0) * 262144 + (y.toNat - 0x80) * 4096 +
      (z.toNat - 0x80) * 64 + (w.toNat - 0x80)) (by omega)
      (.four (by omega) (by omega) (by omega) (by omega) (by omega) (by omega))

/-! ## Parts of an encoding -/

/-- The list can be continued to an encoding. -/
def Begins (l : List UInt8) : Prop := ∃ m, WellFormed (l ++ m)

theorem begins_iff : Begins l ↔ ∃ c : Char, l <+: encodeChar c := by
  constructor
  · rintro ⟨m, hm⟩
    obtain ⟨c, hc⟩ := hm.exists_char
    exact ⟨c, m, hc.symm⟩
  · rintro ⟨c, m, hm⟩
    exact ⟨m, hm ▸ wellFormed_encodeChar c⟩

variable {l m : List UInt8}

theorem properPrefix_of (h : WellFormed (l ++ m)) (hm : m ≠ []) : ProperPrefix encodeChar l := by
  obtain ⟨c, hc⟩ := h.exists_char
  refine ⟨c, ⟨m, hc.symm⟩, fun hl => hm ?_⟩
  rw [hc] at hl
  exact append_right_eq_self.1 hl.symm

section
variable {x y z w : UInt8} {l m : List UInt8}

theorem WellFormed.first (h : WellFormed (x :: l)) (hx : 0x80 ≤ x.toNat) :
    0xC2 ≤ x.toNat ∧ x.toNat ≤ 0xF4 := by
  cases h with
  | one h => omega
  | two h h' _ => omega
  | three h _ =>
    obtain ⟨h1, h2, -⟩ := h
    omega
  | four h _ _ =>
    obtain ⟨h1, h2, -⟩ := h
    omega

theorem WellFormed.second (h : WellFormed (x :: y :: l)) :
    (0xC2 ≤ x.toNat ∧ x.toNat < 0xE0 ∧ Cont y) ∨ Lead3 x y ∨ Lead4 x y := by
  cases h with
  | two h h' hy => exact .inl ⟨h, h', hy⟩
  | three h _ => exact .inr (.inl h)
  | four h _ _ => exact .inr (.inr h)

theorem WellFormed.third (h : WellFormed (x :: y :: z :: l)) : Cont z := by
  cases h with
  | three _ hz => exact hz
  | four _ hz _ => exact hz

theorem WellFormed.fourth (h : WellFormed (x :: y :: z :: w :: l)) : Cont w := by
  cases h with
  | four _ _ hw => exact hw

theorem Begins.first (h : Begins (x :: l)) (hx : 0x80 ≤ x.toNat) :
    0xC2 ≤ x.toNat ∧ x.toNat ≤ 0xF4 := by
  obtain ⟨m, hm⟩ := h
  exact hm.first hx

theorem Begins.second (h : Begins (x :: y :: l)) :
    (0xC2 ≤ x.toNat ∧ x.toNat < 0xE0 ∧ Cont y) ∨ Lead3 x y ∨ Lead4 x y := by
  obtain ⟨m, hm⟩ := h
  exact hm.second

theorem Begins.third (h : Begins (x :: y :: z :: l)) : Cont z := by
  obtain ⟨m, hm⟩ := h
  exact hm.third

theorem Begins.fourth (h : Begins (x :: y :: z :: w :: l)) : Cont w := by
  obtain ⟨m, hm⟩ := h
  exact hm.fourth

end

/-! ## Failures -/

/-- What is reported about a list that does not start with an encoding: nothing, when it is a part
of one, and else the length of its longest part that is a single byte or part of an encoding. -/
def Failure (l : List UInt8) : Option Nat → Prop
  | none => ProperPrefix encodeChar l
  | some k => ¬ ProperPrefix encodeChar l ∧ 1 ≤ k ∧ k ≤ l.length ∧
    (k = 1 ∨ ProperPrefix encodeChar (l.take k)) ∧
    ∀ j, j ≤ l.length → ProperPrefix encodeChar (l.take j) → j ≤ k

theorem Failure.unique {k k' : Option Nat} (h : Failure l k) (h' : Failure l k') : k = k' := by
  cases k with
  | none =>
    cases k' with
    | none => rfl
    | some k' => exact absurd h h'.1
  | some k =>
    cases k' with
    | none => exact absurd h' h.1
    | some k' =>
      obtain ⟨-, hpos, hle, hgood, hmax⟩ := h
      obtain ⟨-, hpos', hle', hgood', hmax'⟩ := h'
      have hkk : k ≤ k' := hgood.elim (fun heq => heq ▸ hpos') (hmax' k hle)
      have hkk' : k' ≤ k := hgood'.elim (fun heq => heq ▸ hpos) (hmax k' hle')
      rw [le_antisymm hkk hkk']

theorem stuck_of_properPrefix (h : ProperPrefix encodeChar l) : Stuck encodeChar l := by
  obtain ⟨c, hp, hne⟩ := h
  intro d hd
  obtain rfl := prefixFree_encodeChar.eq_of_isPrefix d c (hd.trans hp)
  exact hne (hp.eq_of_length_le hd.length_le)

theorem Begins.of_isPrefix (h : Begins m) (hp : l <+: m) : Begins l := by
  obtain ⟨c, hc⟩ := begins_iff.1 h
  exact begins_iff.2 ⟨c, hp.trans hc⟩

theorem begins_of_properPrefix (h : ProperPrefix encodeChar l) : Begins l := by
  obtain ⟨c, hc, -⟩ := h
  exact begins_iff.2 ⟨c, hc⟩

theorem failure_some {x : UInt8} {k : Nat} (hx : 0x80 ≤ x.toNat) (hk : 1 ≤ k)
    (hlen : k ≤ (x :: l).length) (hgood : k = 1 ∨ ProperPrefix encodeChar ((x :: l).take k))
    (hbad : ¬ Begins ((x :: l).take (k + 1))) :
    Stuck encodeChar (x :: l) ∧ Failure (x :: l) (some k) := by
  refine ⟨fun c hc => ?_, fun hp => ?_, hk, hlen, hgood, fun j _ hj => ?_⟩
  · rcases lt_or_ge k (encodeChar c).length with hlt | hge
    · -- the encoding would begin with the bytes that cannot begin one
      refine hbad (begins_iff.2 ⟨c, ?_⟩)
      rw [prefix_iff_eq_take.1 hc]
      exact take_prefix_take_left hlt
    · have hc' : encodeChar c <+: (x :: l).take k := by
        rw [prefix_take_iff]
        exact ⟨hc, hge⟩
      rcases hgood with rfl | hgood
      · have hwf := wellFormed_encodeChar c
        have hone : encodeChar c = [x] := by
          refine hc'.eq_of_length ?_
          have := length_pos_of_ne_nil ((shape_encodeChar c).ne_nil)
          simp only [take_succ_cons, take_zero, length_singleton]
          omega
        rw [hone] at hwf
        cases hwf with
        | one h => omega
      · exact stuck_of_properPrefix hgood c hc'
  · exact hbad ((begins_of_properPrefix hp).of_isPrefix ( take_prefix _ _))
  · refine Nat.le_of_not_lt fun hlt => hbad ((begins_of_properPrefix hj).of_isPrefix ?_)
    exact take_prefix_take_left hlt

end Tortis.Str
