import Tortis.Str.Chars
import Mathlib.Data.List.Chain

/-!
# Code points and 16-bit units

`CodePoint` of `libstd/sys_common/wtf8.rs`, `encode_utf16` in `libcore/char/methods.rs` and
`DecodeUtf16` in `libcore/char/decode.rs`. A sequence of 16-bit units is written with code points in
one way only, when no lead surrogate is directly followed by a trail surrogate (`wide_injective`).
-/

namespace Tortis.SysCommon

open PrefixCode Str List

structure CodePoint where
  value : Nat
  bound : value ≤ 0x10FFFF

namespace CodePoint

/-- `CodePoint::from_u32_unchecked`, which must not be called with another number. -/
def fromU32Unchecked (value : Nat) : Outcome CodePoint :=
  if h : value ≤ 0x10FFFF then .ok ⟨value, h⟩ else .error (.panic "not a code point")

def fromChar (value : Char) : CodePoint where
  value := value.toNat
  bound := by
    have hc : value.toNat < 0xD800 ∨ 0xDFFF < value.toNat ∧ value.toNat < 0x110000 := value.valid
    omega

section
variable (self : CodePoint)

def toChar : Option Char :=
  if 0xD800 ≤ self.value ∧ self.value ≤ 0xDFFF then none else some (Char.ofNat self.value)

def toCharLossy : Char := self.toChar.getD '\uFFFD'

def encode : List UInt8 := encodeUtf8 self.value

def IsLead : Prop := 0xD800 ≤ self.value ∧ self.value ≤ 0xDBFF

def IsTrail : Prop := 0xDC00 ≤ self.value ∧ self.value ≤ 0xDFFF

def IsSurrogate : Prop := 0xD800 ≤ self.value ∧ self.value ≤ 0xDFFF

end

instance : DecidablePred IsSurrogate := fun c =>
  inferInstanceAs (Decidable (0xD800 ≤ c.value ∧ c.value ≤ 0xDFFF))

theorem ext_value {c d : CodePoint} (h : c.value = d.value) : c = d := by
  cases c
  cases d
  cases h
  rfl

theorem shape (c : CodePoint) : Shape c.value c.encode :=
  shape_encodeUtf8 (lt_of_le_of_lt c.bound (by decide))

theorem fromU32Unchecked_value (c : CodePoint) : fromU32Unchecked c.value = .ok c := by
  rw [fromU32Unchecked, dif_pos c.bound]

theorem not_isSurrogate_fromChar (c : Char) : ¬ (fromChar c).IsSurrogate := by
  have hc : c.toNat < 0xD800 ∨ 0xDFFF < c.toNat ∧ c.toNat < 0x110000 := c.valid
  change ¬ (0xD800 ≤ c.toNat ∧ c.toNat ≤ 0xDFFF)
  omega

theorem toChar_of_isSurrogate {c : CodePoint} (h : c.IsSurrogate) : c.toChar = none := if_pos h

theorem toChar_spec {c : CodePoint} (h : ¬ c.IsSurrogate) :
    ∃ ch, c.toChar = some ch ∧ fromChar ch = c := by
  refine ⟨Char.ofNat c.value, if_neg h, ext_value ?_⟩
  have hbound := c.bound
  rw [IsSurrogate] at h
  exact toNat_ofNat (by rw [IsScalar]; omega)

end CodePoint

theorem prefixFree_encode : PrefixFree CodePoint.encode :=
  .of_decode (fun l => (nextCodePoint l).bind fun p =>
      (CodePoint.fromU32Unchecked p.1).toOption.map fun c => (c, p.2))
    (fun c => c.shape.ne_nil) fun c l => by
      rw [c.shape.next, Option.bind_some, c.fromU32Unchecked_value]
      rfl

section
variable (cs : List CodePoint)

def encodeAll : List UInt8 := cs.flatMap CodePoint.encode

@[simp] theorem encodeAll_nil : encodeAll [] = [] := rfl

@[simp] theorem encodeAll_cons (c : CodePoint) (cs : List CodePoint) :
    encodeAll (c :: cs) = c.encode ++ encodeAll cs := flatMap_cons

@[simp] theorem encodeAll_append (cs ds : List CodePoint) :
    encodeAll (cs ++ ds) = encodeAll cs ++ encodeAll ds := flatMap_append

theorem encodeAll_injective {cs ds : List CodePoint} (h : encodeAll cs = encodeAll ds) : cs = ds :=
  prefixFree_encode.flatMap_injective h

theorem encodeAll_map_fromChar (cs : List Char) :
    encodeAll (cs.map CodePoint.fromChar) = cs.flatMap encodeChar := by
  rw [encodeAll, flatMap_map]
  rfl

/-! ## Units -/

/-- `encode_utf16`, into a buffer of two units. -/
def encodeUtf16 (code : Nat) : List UInt16 :=
  if code &&& 0xFFFF = code then [UInt16.ofNat code]
  else
    let code := code - 0x10000
    [(0xD800 : UInt16) ||| UInt16.ofNat (code >>> 10), (0xDC00 : UInt16) ||| (UInt16.ofNat code &&& 0x3FF)]

inductive Units (c : Nat) : List UInt16 → Prop where
  | one {u : UInt16} : u.toNat = c → Units c [u]
  | two {u v : UInt16} : u.toNat = 0xD800 + (c - 0x10000) / 1024 →
    v.toNat = 0xDC00 + (c - 0x10000) % 1024 → 0x10000 ≤ c → c < 0x110000 → Units c [u, v]

theorem unit_tag {x i a : Nat} {tag u : UInt16} (hu : u.toNat = x) (hx : x < 2 ^ i)
    (htag : tag.toNat = 2 ^ i * a) : (tag ||| u).toNat = tag.toNat + x := by
  rw [UInt16.toNat_or, hu, htag, Nat.two_pow_add_eq_or_of_lt hx]

theorem units_encodeUtf16 {c : Nat} (hc : c ≤ 0x10FFFF) : Units c (encodeUtf16 c) := by
  have hmask : ∀ n : Nat, n &&& 0xFFFF = n % 65536 := fun n => Nat.and_two_pow_sub_one_eq_mod n 16
  rw [encodeUtf16, hmask]
  split
  · next h => exact .one (UInt16.toNat_ofNat_of_lt' (by change c < 65536; omega))
  · next h =>
    refine .two ?_ ?_ (by omega) (by omega)
    · rw [Nat.shiftRight_eq_div_pow]
      refine unit_tag (i := 10) (a := 54) (UInt16.toNat_ofNat_of_lt' ?_) (by omega) rfl
      change (c - 0x10000) / 2 ^ 10 < 65536
      omega
    · refine unit_tag (i := 10) (a := 55) ?_ (Nat.mod_lt _ (by decide)) rfl
      rw [UInt16.toNat_and, UInt16.toNat_ofNat']
      refine (Nat.and_two_pow_sub_one_eq_mod _ 10).trans ?_
      omega

theorem Units.eq {c : Nat} {l l' : List UInt16} (h : Units c l) (h' : Units c l') : l = l' := by
  have heq : ∀ {a b : UInt16} {n : Nat}, a.toNat = n → b.toNat = n → a = b :=
    fun ha hb => UInt16.toNat_inj.1 (ha.trans hb.symm)
  have hlt : ∀ u : UInt16, u.toNat < 65536 := fun u => u.toNat_lt
  cases h with
  | @one u hu =>
    have := hlt u
    cases h' with
    | one hu' => rw [heq hu hu']
    | two => omega
  | two hu hv h1 h2 =>
    cases h' with
    | @one u' hu' =>
      have := hlt u'
      omega
    | two hu' hv' => rw [heq hu hu', heq hv hv']

def CodePoint.units (c : CodePoint) : List UInt16 := encodeUtf16 c.value

theorem CodePoint.units_spec (c : CodePoint) : Units c.value c.units := units_encodeUtf16 c.bound

def wide : List UInt16 := cs.flatMap CodePoint.units

@[simp] theorem wide_nil : wide [] = [] := rfl

@[simp] theorem wide_cons (c : CodePoint) (cs : List CodePoint) :
    wide (c :: cs) = c.units ++ wide cs := flatMap_cons

@[simp] theorem wide_append (cs ds : List CodePoint) : wide (cs ++ ds) = wide cs ++ wide ds :=
  flatMap_append

/-! ## Sequences without a pair of surrogates -/

/-- The two code points are not a lead and a trail surrogate. -/
def Unpaired (c d : CodePoint) : Prop := ¬ (c.IsLead ∧ d.IsTrail)

/-- No lead surrogate is directly followed by a trail surrogate. -/
def NoPair : Prop := cs.IsChain Unpaired

end

def TrailUnit (u : UInt16) : Prop := 0xDC00 ≤ u.toNat ∧ u.toNat ≤ 0xDFFF

theorem isTrail_of_wide {cs : List CodePoint} {u : UInt16} {r : List UInt16}
    (h : wide cs = u :: r) (hu : TrailUnit u) : ∃ c ds, cs = c :: ds ∧ c.IsTrail := by
  cases cs with
  | nil => cases h
  | cons c cs =>
    refine ⟨c, cs, rfl, ?_⟩
    rw [wide_cons] at h
    obtain ⟨hu1, hu2⟩ := hu
    have hunits := c.units_spec
    generalize c.units = l at h hunits
    cases hunits with
    | one heq =>
      cases h
      exact ⟨by omega, by omega⟩
    | two heq _ _ _ =>
      cases h
      omega

theorem wide_injective : ∀ {cs ds : List CodePoint}, NoPair cs → NoPair ds → wide cs = wide ds →
    cs = ds := by
  have hne : ∀ c : CodePoint, c.units ≠ [] := fun c => by
    have hunits := c.units_spec
    generalize c.units = l at hunits
    cases hunits <;> exact cons_ne_nil _ _
  -- one unit against two of them: the first one would be a lead surrogate before a trail surrogate
  have hclash : ∀ {c d : CodePoint} {u v : UInt16} {cs : List CodePoint} {r : List UInt16},
      NoPair (c :: cs) → u.toNat = c.value → wide cs = v :: r →
      u.toNat = 0xD800 + (d.value - 0x10000) / 1024 →
      v.toNat = 0xDC00 + (d.value - 0x10000) % 1024 → False := fun {c d u v cs r} hc hu hr hu' hv => by
    have hd := d.bound
    obtain ⟨e, es, rfl, he⟩ := isTrail_of_wide hr ⟨by omega, by omega⟩
    exact (isChain_cons_cons.1 hc).1 ⟨⟨by omega, by omega⟩, he⟩
  intro cs
  induction cs with
  | nil =>
    intro ds _ _ h
    cases ds with
    | nil => rfl
    | cons d ds =>
      exact absurd (append_eq_nil_iff.1 h.symm).1 (hne d)
  | cons c cs ih =>
    intro ds hcs hds h
    cases ds with
    | nil =>
      exact absurd (append_eq_nil_iff.1 h).1 (hne c)
    | cons d ds =>
      rw [wide_cons, wide_cons] at h
      have hc := c.units_spec
      have hd := d.units_spec
      generalize c.units = l at h hc
      generalize d.units = m at h hd
      cases hc with
      | one hu =>
        cases hd with
        | one hu' =>
          simp only [cons_append, nil_append, List.cons.injEq] at h
          obtain ⟨rfl, htail⟩ := h
          have hrest : cs = ds := ih hcs.tail hds.tail htail
          rw [CodePoint.ext_value (hu.symm.trans hu'), hrest]
        | two hu' hv' _ _ =>
          simp only [cons_append, nil_append, List.cons.injEq] at h
          obtain ⟨rfl, htail⟩ := h
          exact (hclash hcs hu htail hu' hv').elim
      | two hu hv h1 h2 =>
        cases hd with
        | one hu' =>
          simp only [cons_append, nil_append, List.cons.injEq] at h
          obtain ⟨rfl, htail⟩ := h
          exact (hclash hds hu' htail.symm hu hv).elim
        | two hu' hv' h1' h2' =>
          simp only [cons_append, nil_append, List.cons.injEq] at h
          obtain ⟨rfl, rfl, htail⟩ := h
          have heq : c.value = d.value := by omega
          have hrest : cs = ds := ih hcs.tail hds.tail htail
          rw [CodePoint.ext_value heq, hrest]

end Tortis.SysCommon
