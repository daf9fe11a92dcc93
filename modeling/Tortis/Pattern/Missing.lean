import Tortis.Lib.Intervals
import Tortis.Lib.List
import Tortis.Layout.Enum
import Tortis.Pattern.Constructors

/-!
# The constructors that are missing

What `MissingConstructors::iter` yields for an integer type or `char`. The bits of a signed type are
taken to unsigned numbers in the same order by flipping the sign bit (`enc_eq`), each constructor is
an interval of them (`fromCtor_spec`), and the loops cut one interval after the other out of the
pieces (`subtractFrom_spec`).
-/

namespace Tortis.Pattern

open Outcome List IntRange Constructor Segment Ty Tiles

open Layout (TargetDataLayout Integer)

/-! ## What constructors cover -/

section
variable (dl : TargetDataLayout)

/-- The number of bits of the constants of a type. -/
def Ty.width (ty : Ty) : Nat := 8 * (ty.size dl).getD 0

/-- The number that bits stand for in a type, negative when the sign bit of a signed type is set. -/
def Ty.toInt : Ty → Nat → Int
  | .int ity, x =>
    if x < 2 ^ ((ity.toInteger dl).bits - 1) then x else (x : Int) - 2 ^ (ity.toInteger dl).bits
  | _, x => x

/-- The bits of the values of a type: for `char` the scalar values. -/
def Ty.IsValue : Ty → Nat → Prop
  | .char, x => x ≤ 0xD7FF ∨ 0xE000 ≤ x ∧ x ≤ 0x10FFFF
  | ty, x => x < 2 ^ ty.width dl

end

section
variable (cx : MatchCheckCtxt)

def Const.eval (c : Const) : ConstValue :=
  match c.val with
  | .unevaluated defId => cx.constEval defId
  | val => val

/-- The values a constructor covers, in the order of the type. -/
def Constructor.Covers : Constructor → Nat → Prop
  | .constantValue c, x => ∃ size, c.eval cx = .raw x size
  | .constantRange lo hi ty stop, x => x < 2 ^ ty.width cx.dl ∧
      ty.toInt cx.dl lo ≤ ty.toInt cx.dl x ∧ (ty.toInt cx.dl x < ty.toInt cx.dl hi ∨
        stop = .included ∧ ty.toInt cx.dl x = ty.toInt cx.dl hi)
  | _, _ => False

/-- A constant or a range of a type. -/
def Constructor.OfType (ty : Ty) : Constructor → Prop
  | .constantValue c => c.ty = ty ∧ ∀ data size, c.eval cx = .raw data size →
      ty.size cx.dl = some size ∧ data < 2 ^ (8 * size)
  | .constantRange lo hi ty' _ => ty' = ty ∧ lo < 2 ^ ty.width cx.dl ∧ hi < 2 ^ ty.width cx.dl
  | _ => False

/-- A value or an inclusive range of a type with at least two values. -/
def Constructor.IsPiece (ty : Ty) : Constructor → Prop
  | .constantValue c => c.ty = ty ∧ ∃ data size, c.val = .raw data size ∧
      ty.size cx.dl = some size ∧ data < 2 ^ (8 * size)
  | .constantRange lo hi ty' stop => ty' = ty ∧ stop = .included ∧ lo < 2 ^ ty.width cx.dl ∧
      hi < 2 ^ ty.width cx.dl ∧ ty.toInt cx.dl lo < ty.toInt cx.dl hi
  | _ => False

end

/-! ## Bits and their order -/

theorem xor_two_pow {n x : Nat} (hx : x < 2 ^ n) : x ^^^ 2 ^ n = x + 2 ^ n := by
  have hor : 2 ^ n + x = 2 ^ n ||| x := by
    simpa using Nat.two_pow_add_eq_or_of_lt hx 1
  rw [add_comm, hor]
  refine Nat.eq_of_testBit_eq fun i => ?_
  by_cases hi : n = i
  · subst hi
    simp [Nat.testBit_lt_two_pow hx]
  · simp [hi]

theorem xor_two_pow_of_le {n x : Nat} (hn : 2 ^ n ≤ x) (hx : x < 2 ^ (n + 1)) :
    x ^^^ 2 ^ n = x - 2 ^ n := by
  have hlt : x - 2 ^ n < 2 ^ n := by
    omega
  have hback := xor_two_pow hlt
  rw [Nat.sub_add_cancel hn] at hback
  calc x ^^^ 2 ^ n = (x - 2 ^ n) ^^^ 2 ^ n ^^^ 2 ^ n := by rw [hback]
    _ = x - 2 ^ n := by rw [Nat.xor_assoc, Nat.xor_self, Nat.xor_zero]

theorem truncate_eq {size x : Nat} (hs : size ≠ 0) (hle : 8 * size ≤ 128) :
    truncate x size = x % 2 ^ (8 * size) := by
  have hsum : 8 * size + (128 - 8 * size) = 128 := Nat.add_sub_cancel' hle
  have hpow : 2 ^ 128 = 2 ^ (8 * size) * 2 ^ (128 - 8 * size) := by
    rw [← pow_add, hsum]
  rw [truncate, if_neg hs, Nat.shiftLeft_eq, hpow, Nat.mul_mod_mul_right, Nat.shiftRight_eq_div_pow,
    Nat.mul_div_cancel _ (Nat.two_pow_pos _)]

section
variable {cx : MatchCheckCtxt} {ty : Ty}

section
variable (dl : TargetDataLayout)

/-- The biased bits of a value. -/
def enc (ty : Ty) (x : Nat) : Nat := x ^^^ signedBias dl ty

@[simp] theorem enc_enc (ty : Ty) (x : Nat) : enc dl ty (enc dl ty x) = x := by
  rw [enc, enc, Nat.xor_assoc, Nat.xor_self, Nat.xor_zero]

theorem size_eq (hty : isIntegral ty) (dl : TargetDataLayout) :
    ∃ size, ty.size dl = some size ∧ size ≠ 0 ∧ 8 * size ≤ 128 ∧ ty.width dl = 8 * size ∧
      integralSizeAndSignedBias dl ty = some (size, signedBias dl ty) := by
  cases ty with
  | char => exact ⟨4, rfl, by decide, by decide, rfl, rfl⟩
  | int ity => exact ⟨_, rfl, (Nat.two_pow_pos _).ne', Integer.bits_le _, rfl, rfl⟩
  | uint uty => exact ⟨_, rfl, (Nat.two_pow_pos _).ne', Integer.bits_le _, rfl, rfl⟩
  | _ => cases hty

theorem enc_eq (ty : Ty) {x : Nat} (hx : x < 2 ^ ty.width dl) :
    (enc dl ty x : Int) = ty.toInt dl x + signedBias dl ty := by
  cases ty with
  | int ity =>
    have hpos : 0 < (ity.toInteger dl).bits := mul_pos (by decide) (Nat.two_pow_pos _)
    obtain ⟨n, hn⟩ := Nat.exists_eq_succ_of_ne_zero hpos.ne'
    have hx' : x < 2 ^ (n + 1) := by
      rw [← Nat.succ_eq_add_one, ← hn]
      exact hx
    simp only [enc, signedBias, toInt, hn, Nat.succ_eq_add_one, Nat.add_sub_cancel,
      Nat.one_shiftLeft]
    split
    · next hlt =>
      rw [xor_two_pow hlt]
      push_cast
      ring
    · next hge =>
      rw [xor_two_pow_of_le (Nat.le_of_not_lt hge) hx', Nat.cast_sub (Nat.le_of_not_lt hge)]
      push_cast
      ring
  | _ => simp [enc, signedBias, toInt]

theorem enc_lt (ty : Ty) {x : Nat} (hx : x < 2 ^ ty.width dl) : enc dl ty x < 2 ^ ty.width dl := by
  refine Nat.xor_lt_two_pow hx ?_
  cases ty with
  | int ity =>
    rw [signedBias, Nat.one_shiftLeft]
    exact Nat.pow_lt_pow_right (by decide)
      (Nat.sub_lt (mul_pos (by decide) (Nat.two_pow_pos _)) one_pos)
  | _ => exact Nat.two_pow_pos _

theorem enc_le_enc (ty : Ty) {x y : Nat} (hx : x < 2 ^ ty.width dl)
    (hy : y < 2 ^ ty.width dl) : enc dl ty x ≤ enc dl ty y ↔ ty.toInt dl x ≤ ty.toInt dl y := by
  have h1 := enc_eq dl ty hx
  have h2 := enc_eq dl ty hy
  omega

end

/-! ## Constructors as intervals -/

theorem checkRaw_ok {data size : Nat} (hs : size ≠ 0) (hle : 8 * size ≤ 128)
    (hd : data < 2 ^ (8 * size)) : checkRaw data size size = .ok () := by
  rw [checkRaw, bind_of_assert rfl, bind_of_assert hs, truncate_eq hs hle, Nat.mod_eq_of_lt hd]
  simp [assert]

theorem enc_inj {dl : TargetDataLayout} {x y : Nat} : enc dl ty x = enc dl ty y ↔ x = y := by
  constructor
  · intro h
    simpa using congrArg (enc dl ty) h
  · exact fun h => h ▸ rfl

theorem fromConst_raw (hty : isIntegral ty) {c : Const} (hc : c.ty = ty)
    {data size : Nat} (hval : c.eval cx = .raw data size) (hsize : ty.size cx.dl = some size)
    (hd : data < 2 ^ (8 * size)) :
    fromConst cx c = .ok (some ⟨enc cx.dl ty data, enc cx.dl ty data, ty⟩) := by
  obtain ⟨size', hsize', hs, hle, -, hbias⟩ := size_eq hty cx.dl
  obtain rfl : size = size' := Option.mem_unique hsize hsize'
  have hcheck := checkRaw_ok hs hle hd
  obtain ⟨ty', val⟩ := c
  obtain rfl : ty' = ty := hc
  cases val with
  | raw data' size' =>
    cases hval
    simp [fromConst, hbias, hcheck, enc]
  | unevaluated defId =>
    have hval : cx.constEval defId = .raw data size := hval
    simp [fromConst, hbias, Const.tryEvalBits, hval, hcheck, enc]
  | other id => cases hval

theorem fromConst_none (hty : isIntegral ty) {c : Const} (hc : c.ty = ty)
    (hval : ∀ data size, c.eval cx ≠ .raw data size) : fromConst cx c = .ok none := by
  obtain ⟨size, -, -, -, -, hbias⟩ := size_eq hty cx.dl
  obtain ⟨ty', val⟩ := c
  obtain rfl : ty' = ty := hc
  cases val with
  | raw data size' => exact absurd rfl (hval data size')
  | unevaluated defId =>
    cases hev : cx.constEval defId with
    | raw data size' => exact absurd hev (hval data size')
    | unevaluated _ | other _ => simp [fromConst, hbias, Const.tryEvalBits, hev]
  | other id => simp [fromConst, hbias, Const.tryEvalBits]

theorem fromRange_eq (hty : isIntegral ty) {lo hi : Nat} {stop : RangeEnd}
    (hlt : enc cx.dl ty lo < enc cx.dl ty hi ∨ enc cx.dl ty lo = enc cx.dl ty hi ∧
      stop = .included) : fromRange cx lo hi ty stop = .ok (some ⟨enc cx.dl ty lo,
      enc cx.dl ty hi - (if stop = .excluded then 1 else 0), ty⟩) := by
  have hguard : ¬ (enc cx.dl ty lo > enc cx.dl ty hi ∨
      enc cx.dl ty lo = enc cx.dl ty hi ∧ stop = .excluded) := by
    rintro (h | ⟨h, rfl⟩)
    · omega
    · rcases hlt with hlt | ⟨-, hlt⟩
      · omega
      · cases hlt
  have hsub : u128Sub (enc cx.dl ty hi) (if stop = .excluded then 1 else 0) =
      .ok (enc cx.dl ty hi - (if stop = .excluded then 1 else 0)) := by
    rw [u128Sub, if_pos]
    cases stop with
    | included => exact Nat.zero_le _
    | excluded =>
      rcases hlt with hlt | ⟨-, hlt⟩
      · exact Nat.succ_le_of_lt (Nat.zero_lt_of_lt hlt)
      · cases hlt
  rw [fromRange, if_pos hty]
  simp only [← enc.eq_def]
  rw [if_neg hguard, hsub]
  rfl

theorem covers_range {lo hi : Nat} {stop : RangeEnd} (hlo : lo < 2 ^ ty.width cx.dl)
    (hhi : hi < 2 ^ ty.width cx.dl) (x : Nat) :
    (constantRange lo hi ty stop).Covers cx x ↔ x < 2 ^ ty.width cx.dl ∧
      enc cx.dl ty lo ≤ enc cx.dl ty x ∧ (enc cx.dl ty x < enc cx.dl ty hi ∨
        stop = .included ∧ enc cx.dl ty x = enc cx.dl ty hi) := by
  refine and_congr_right fun hx => ?_
  have h1 := enc_eq cx.dl ty hx
  have h2 := enc_eq cx.dl ty hlo
  have h3 := enc_eq cx.dl ty hhi
  have hle : ty.toInt cx.dl lo ≤ ty.toInt cx.dl x ↔ enc cx.dl ty lo ≤ enc cx.dl ty x := by omega
  have hlt : ty.toInt cx.dl x < ty.toInt cx.dl hi ↔ enc cx.dl ty x < enc cx.dl ty hi := by omega
  have heq : ty.toInt cx.dl x = ty.toInt cx.dl hi ↔ enc cx.dl ty x = enc cx.dl ty hi := by omega
  rw [hle, hlt, heq]

variable {c : Constructor}

theorem fromCtor_spec (hty : isIntegral ty) (hc : c.OfType cx ty) :
    (fromCtor cx c = .ok none ∧ ∀ x, ¬ c.Covers cx x) ∨
    ∃ lo hi, fromCtor cx c = .ok (some ⟨lo, hi, ty⟩) ∧ lo ≤ hi ∧ hi < 2 ^ ty.width cx.dl ∧
      ∀ x, c.Covers cx x ↔ x < 2 ^ ty.width cx.dl ∧ Segment.Mem (enc cx.dl ty x) (lo, hi) := by
  cases c with
  | constantValue c =>
    obtain ⟨hct, hraw⟩ := hc
    cases hval : c.eval cx with
    | raw data size =>
      obtain ⟨hsize, hd⟩ := hraw data size hval
      have hwidth : ty.width cx.dl = 8 * size := by simp [width, hsize]
      refine .inr ⟨_, _, fromConst_raw hty hct hval hsize hd, le_rfl,
        enc_lt cx.dl ty (hwidth ▸ hd), fun x => ?_⟩
      simp only [Constructor.Covers, hval, Segment.Mem, ConstValue.raw.injEq, exists_and_left,
        exists_eq', and_true]
      constructor
      · rintro rfl
        exact ⟨hwidth ▸ hd, le_rfl, le_rfl⟩
      · exact fun h => enc_inj.1 (le_antisymm h.2.1 h.2.2)
    | unevaluated _ | other _ =>
      refine .inl ⟨fromConst_none hty hct (by simp [hval]), fun x hx => ?_⟩
      simp [Constructor.Covers, hval] at hx
  | constantRange lo hi ty' stop =>
    obtain ⟨rfl, hlo, hhi⟩ := hc
    have hcov : ∀ x, (constantRange lo hi ty' stop).Covers cx x ↔ _ := covers_range hlo hhi
    by_cases hlt : enc cx.dl ty' lo < enc cx.dl ty' hi ∨
        enc cx.dl ty' lo = enc cx.dl ty' hi ∧ stop = .included
    · have hbound := enc_lt cx.dl ty' hhi
      refine .inr ⟨_, _, fromRange_eq hty hlt, ?_, (Nat.sub_le _ _).trans_lt hbound, fun x => ?_⟩
      · cases stop <;> simp at hlt ⊢ <;> omega
      · rw [hcov, Segment.Mem]
        cases stop <;> simp at hlt ⊢ <;> omega
    · refine .inl ⟨?_, fun x hx => ?_⟩
      · rw [fromCtor, fromRange, if_pos hty]
        simp only [← enc.eq_def]
        cases stop <;> simp at hlt ⊢ <;> omega
      · have := (hcov x).1 hx
        cases stop <;> simp at hlt this <;> omega
  | _ => exact hc.elim

/-- A constructor is a value or a range of the type and stands for an interval of biased bits. -/
structure Encodes (cx : MatchCheckCtxt) (ty : Ty) (c : Constructor) (i : Segment) : Prop where
  ofType : c.OfType cx ty
  piece : c.IsPiece cx ty
  fromCtor : fromCtor cx c = .ok (some ⟨i.1, i.2, ty⟩)
  lt : i.2 < 2 ^ ty.width cx.dl

variable {i : Segment}

section
variable (hty : isIntegral ty)
include hty

theorem Encodes.covers_iff (h : Encodes cx ty c i) (x : Nat) :
    c.Covers cx x ↔ x < 2 ^ ty.width cx.dl ∧ Segment.Mem (enc cx.dl ty x) i := by
  rcases fromCtor_spec hty h.ofType with ⟨hnone, -⟩ | ⟨lo, hi, hsome, -, -, hcov⟩
  · rw [h.fromCtor] at hnone
    cases hnone
  · rw [h.fromCtor] at hsome
    cases hsome
    exact hcov x

theorem encodes_range {lo hi : Nat} (hlt : lo < hi) (hhi : hi < 2 ^ ty.width cx.dl) :
    Encodes cx ty (.constantRange (enc cx.dl ty lo) (enc cx.dl ty hi) ty .included) (lo, hi) := by
  have hlo := enc_lt cx.dl ty (hlt.trans hhi)
  have hhi' := enc_lt cx.dl ty hhi
  have horder := enc_le_enc cx.dl ty hhi' hlo
  rw [enc_enc, enc_enc] at horder
  refine ⟨⟨rfl, hlo, hhi'⟩, ⟨rfl, rfl, hlo, hhi', by omega⟩, ?_, hhi⟩
  have := @fromRange_eq cx ty hty (enc cx.dl ty lo) (enc cx.dl ty hi) .included
    (.inl (by simpa using hlt))
  simpa [fromCtor] using this

theorem rangeToCtor_spec {lo hi : Nat} (hle : lo ≤ hi) (hhi : hi < 2 ^ ty.width cx.dl) :
    ∃ c, rangeToCtor cx ty lo hi = .ok c ∧ Encodes cx ty c (lo, hi) := by
  obtain ⟨size, hsize, hs, hbits, hwidth, -⟩ := size_eq hty cx.dl
  rcases hle.eq_or_lt with rfl | hlt
  · have hd : enc cx.dl ty lo < 2 ^ (8 * size) := hwidth ▸ enc_lt cx.dl ty hhi
    have hrun : Const.fromBits cx.dl (lo ^^^ signedBias cx.dl ty) ty =
        .ok ⟨ty, .raw (enc cx.dl ty lo) size⟩ := by
      rw [Const.fromBits, hsize, expect_some, ok_bind, ← enc.eq_def,
        truncate_eq hs hbits, Nat.mod_eq_of_lt hd]
      simp [assert]
    refine ⟨.constantValue ⟨ty, .raw (enc cx.dl ty lo) size⟩, ?_, ⟨rfl, ?_⟩,
      ⟨rfl, _, _, rfl, hsize, hd⟩, ?_, hhi⟩
    · simp [rangeToCtor, hrun]
    · rintro data size' h
      cases h
      exact ⟨hsize, hd⟩
    · rw [fromCtor, fromConst_raw hty rfl rfl hsize hd, enc_enc]
  · exact ⟨_, by rw [rangeToCtor, if_neg hlt.ne]; rfl, encodes_range hty hlt hhi⟩

/-! ## The loops -/

theorem lowerSection_spec {a b c d : Nat} (hd : d < 2 ^ ty.width cx.dl) (had : a ≤ d) :
    ∃ low, lowerSection cx ⟨a, b, ty⟩ ⟨c, d, ty⟩ = .ok low ∧
      List.Forall₂ (Encodes cx ty) low (if c < a then [(c, a - 1)] else []) := by
  by_cases hca : c < a
  · obtain ⟨p, hp, hpe⟩ := @rangeToCtor_spec cx ty hty _ _ (Nat.le_sub_one_of_lt hca)
      ((Nat.sub_le a 1).trans_lt (had.trans_lt hd))
    have hsub : u128Sub a 1 = .ok (a - 1) := if_pos (Nat.succ_le_of_lt (Nat.zero_lt_of_lt hca))
    refine ⟨[p], by simp [lowerSection, hca, hsub, hp], ?_⟩
    rw [if_pos hca]
    exact .cons hpe .nil
  · exact ⟨[], if_neg hca, by rw [if_neg hca]; exact .nil⟩

theorem upperSection_spec {a b c d : Nat}
    (hd : d < 2 ^ ty.width cx.dl) : ∃ up, upperSection cx ⟨a, b, ty⟩ ⟨c, d, ty⟩ = .ok up ∧
      List.Forall₂ (Encodes cx ty) up (if b < d then [(b + 1, d)] else []) := by
  by_cases hbd : b < d
  · have hbits : 2 ^ ty.width cx.dl ≤ 2 ^ 128 := by
      obtain ⟨size, -, -, hle, hwidth, -⟩ := size_eq hty cx.dl
      exact Nat.pow_le_pow_right (by decide) (hwidth ▸ hle)
    obtain ⟨p, hp, hpe⟩ := @rangeToCtor_spec cx ty hty _ _ hbd hd
    have hadd : u128Add b 1 = .ok (b + 1) :=
      if_pos ((Nat.succ_le_of_lt hbd).trans_lt (hd.trans_le hbits))
    refine ⟨[p], by simp [upperSection, hbd, hadd, hp], ?_⟩
    rw [if_pos hbd]
    exact .cons hpe .nil
  · exact ⟨[], if_neg hbd, by rw [if_neg hbd]; exact .nil⟩

theorem subtractStep_spec {a b : Nat} {r : Constructor}
    (hr : Encodes cx ty r i) (hi : i.1 ≤ i.2) (remaining : List Constructor) :
    ∃ new, subtractStep cx ⟨a, b, ty⟩ remaining r = .ok (remaining ++ new) ∧
      List.Forall₂ (Encodes cx ty) new (cut (a, b) i) := by
  obtain ⟨c, d⟩ := i
  rw [subtractStep, hr.fromCtor, ok_bind]
  by_cases hout : a > d ∨ c > b
  · obtain ⟨p, hp, hpe⟩ := rangeToCtor_spec hty hi hr.lt
    refine ⟨[p], by simp [hout, hp], ?_⟩
    rw [Segment.cut, if_pos hout]
    exact .cons hpe .nil
  · have had : a ≤ d := Nat.le_of_not_lt fun h => hout (.inl h)
    obtain ⟨low, hlow, hlowe⟩ := @lowerSection_spec cx ty hty a b c d hr.lt had
    obtain ⟨up, hup, hupe⟩ := @upperSection_spec cx ty hty a b c d hr.lt
    refine ⟨low ++ up, by simp [hout, hlow, hup], ?_⟩
    rw [Segment.cut, if_neg hout]
    exact rel_append hlowe hupe

end

variable {l : List Segment}

theorem subtractFrom_spec (hty : isIntegral ty) {a b : Nat}
    {ranges : List Constructor} (h : List.Forall₂ (Encodes cx ty) ranges l) (hl : ∀ i ∈ l, i.1 ≤ i.2) :
    ∃ out, subtractFrom cx ⟨a, b, ty⟩ ranges = .ok out ∧
      List.Forall₂ (Encodes cx ty) out (l.flatMap (cut (a, b))) := by
  have key : ∀ remaining, ∃ new,
      ranges.foldlM (subtractStep cx ⟨a, b, ty⟩) remaining = .ok (remaining ++ new) ∧
        List.Forall₂ (Encodes cx ty) new (l.flatMap (cut (a, b))) := by
    induction h with
    | nil => exact fun remaining => ⟨[], by simp, .nil⟩
    | @cons r i ranges l hr _ ih =>
      intro remaining
      obtain ⟨new, hnew, he⟩ := subtractStep_spec (a := a) (b := b) hty hr (hl i (.head _)) remaining
      obtain ⟨rest, hrest, hes⟩ := ih (fun j hj => hl j (.tail _ hj)) (remaining ++ new)
      refine ⟨new ++ rest, ?_, ?_⟩
      · rw [foldlM_cons, hnew, ok_bind, hrest, append_assoc]
      · exact rel_append he hes
  obtain ⟨out, hout, he⟩ := key []
  exact ⟨out, hout, he⟩

/-- The interval of a constructor holds a biased number. -/
def UsedAt (cx : MatchCheckCtxt) (c : Constructor) (y : Nat) : Prop :=
  ∃ iv, fromCtor cx c = .ok (some iv) ∧ Segment.Mem y (iv.lo, iv.hi)

section
variable (hty : isIntegral ty)
include hty

theorem refine_spec {self other : Constructor}
    (hself : Encodes cx ty self i) (hot : other.OfType cx ty) {refined : List Constructor} {S : Nat → Prop} (he : List.Forall₂ (Encodes cx ty) refined l) (hl : Tiles S l)
    (hS : ∀ y, S y → Segment.Mem y i) : ∃ refined' l', self.refine cx other refined = .ok refined' ∧
      List.Forall₂ (Encodes cx ty) refined' l' ∧ Tiles (fun y => S y ∧ ¬ UsedAt cx other y) l' := by
  by_cases heq : other = self
  · refine ⟨[], [], if_pos heq, .nil, nil.congr fun y => ?_⟩
    simp only [false_iff, not_and, not_not]
    exact fun hy => ⟨_, heq ▸ hself.fromCtor, hS y hy⟩
  rw [refine, if_neg heq]
  rcases fromCtor_spec hty hot with ⟨hnone, -⟩ | ⟨a, b, hsome, hab, -, -⟩
  · refine ⟨refined, l, by simp [hnone], he, hl.congr fun y => ?_⟩
    simp [UsedAt, hnone]
  · obtain ⟨out, hout, hoe⟩ := subtractFrom_spec (a := a) (b := b) hty he hl.le
    refine ⟨out, _, by simp [hsome, hout], hoe, (hl.cut hab).congr fun y => ?_⟩
    simp [UsedAt, hsome]

theorem subtractCtorsLoop_spec {self : Constructor} (hself : Encodes cx ty self i) :
    ∀ (others refined : List Constructor) (l : List Segment) (S : Nat → Prop),
      (∀ c ∈ others, c.OfType cx ty) → List.Forall₂ (Encodes cx ty) refined l → Tiles S l →
      (∀ y, S y → Segment.Mem y i) → ∃ out l', self.subtractCtorsLoop cx others refined = .ok out ∧
        List.Forall₂ (Encodes cx ty) out l' ∧
        Tiles (fun y => S y ∧ ∀ c ∈ others, ¬ UsedAt cx c y) l' := by
  intro others
  induction others with
  | nil => exact fun refined l S _ he hl _ => ⟨refined, l, rfl, he, by simpa using hl⟩
  | cons other others ih =>
    intro refined l S hot he hl hS
    obtain ⟨refined', l1, hrun, he', hl'⟩ := refine_spec hty hself (hot other (.head _)) he hl hS
    rw [subtractCtorsLoop, hrun, ok_bind]
    by_cases hempty : refined'.isEmpty
    · obtain rfl := isEmpty_iff.1 hempty
      cases he'
      refine ⟨[], [], rfl, .nil, hl'.congr fun y => ?_⟩
      constructor
      · exact fun hy => absurd ((hl'.mem_iff y).2 hy) (by simp)
      · exact fun hy => ⟨hy.1, hy.2 other (.head _)⟩
    · obtain ⟨out, l2, hout, hoe, hl2⟩ := ih refined' l1 _ (fun c hc => hot c (.tail _ hc)) he' hl'
        fun y hy => hS y hy.1
      refine ⟨out, l2, by rw [if_neg hempty, hout], hoe, hl2.congr fun y => ?_⟩
      simp [and_assoc]

theorem iter_spec {used : List Constructor}
    (hused : ∀ c ∈ used, c.OfType cx ty) {all : List Constructor}
    (h : List.Forall₂ (Encodes cx ty) all l) {S : Nat → Prop} (hl : Tiles S l) :
    ∃ out l', MissingConstructors.iter cx ⟨all, used⟩ = .ok out ∧
      List.Forall₂ (Encodes cx ty) out l' ∧
      Tiles (fun y => S y ∧ ∀ c ∈ used, ¬ UsedAt cx c y) l' := by
  have key : ∃ outs l', all.mapM (fun reqCtor => reqCtor.subtractCtors cx used) = .ok outs ∧
      List.Forall₂ (Encodes cx ty) outs.flatten l' ∧
      Tiles (fun y => S y ∧ ∀ c ∈ used, ¬ UsedAt cx c y) l' := by
    induction h generalizing S with
    | nil => exact ⟨[], [], rfl, .nil, nil.congr fun y => by simp [← hl.mem_iff]⟩
    | @cons c i all l hc _ ih =>
      have htail : Tiles (fun y => ∃ j ∈ l, Segment.Mem y j) l :=
        ⟨fun j hj => hl.le j (.tail _ hj), (pairwise_cons.1 hl.apart).2, fun _ => Iff.rfl⟩
      obtain ⟨outs, l2, hrun, he, hl2⟩ := ih htail
      obtain ⟨out, l1, hsub, he1, hl1⟩ := subtractCtorsLoop_spec hty hc used [c] [i]
        (fun y => Segment.Mem y i) hused (.cons hc .nil) (singleton (hl.le i (.head _)))
        fun _ => id
      refine ⟨out :: outs, l1 ++ l2, ?_, rel_append he1 he, (hl1.append hl2 ?_).congr ?_⟩
      · rw [mapM_cons, subtractCtors, hsub, ok_bind, hrun]
        rfl
      · rintro y ⟨⟨hi, -⟩, ⟨j, hj, hyj⟩, -⟩
        exact (pairwise_cons.1 hl.apart).1 j hj y ⟨hi, hyj⟩
      · intro y
        rw [← hl.mem_iff y, ← or_and_right]
        simp only [mem_cons, or_and_right, exists_or, exists_eq_left]
  obtain ⟨outs, l', hrun, he, hl'⟩ := key
  exact ⟨outs.flatten, l', by simp [MissingConstructors.iter, hrun], he, hl'⟩

end

theorem tiles_all {w : Nat} : Tiles (fun y => y < 2 ^ w) [(0, 2 ^ w - 1)] :=
  (Tiles.singleton (Nat.zero_le _)).congr fun y => by
    have := Nat.two_pow_pos w
    simp only [Segment.Mem]
    omega

theorem allConstructors_spec (hty : isIntegral ty) (n : Nat) :
    ∃ all l, allConstructors cx ⟨ty, n⟩ = .ok all ∧ List.Forall₂ (Encodes cx ty) all l ∧
      Tiles (fun y => enc cx.dl ty y < 2 ^ ty.width cx.dl ∧ ty.IsValue cx.dl (enc cx.dl ty y)) l := by
  have henc : ∀ y, enc cx.dl ty y < 2 ^ ty.width cx.dl ↔ y < 2 ^ ty.width cx.dl := fun y =>
    ⟨fun h => by simpa using enc_lt cx.dl ty h, enc_lt cx.dl ty⟩
  cases ty with
  | char =>
    have hid : ∀ y, enc cx.dl .char y = y := fun y => by simp [enc, signedBias]
    have hw : 2 ^ char.width cx.dl = 4294967296 := rfl
    have h1 := @encodes_range cx .char hty 0 0xD7FF (by decide) (by rw [hw]; decide)
    have h2 := @encodes_range cx .char hty 0xE000 0x10FFFF (by decide) (by rw [hw]; decide)
    rw [hid, hid] at h1 h2
    refine ⟨_, [(0, 0xD7FF), (0xE000, 0x10FFFF)], rfl, .cons h1 (.cons h2 .nil), ?_⟩
    refine ((singleton (i := (0, 0xD7FF)) (by decide)).append
      (singleton (i := (0xE000, 0x10FFFF)) (by decide)) ?_).congr fun y => ?_
    · simp only [Segment.Mem]
      omega
    · simp only [hid, hw, Ty.IsValue, Segment.Mem]
      omega
  | int ity =>
    have hpos : 0 < (ity.toInteger cx.dl).bits := mul_pos (by decide) (Nat.two_pow_pos _)
    obtain ⟨m, hm⟩ := Nat.exists_eq_succ_of_ne_zero hpos.ne'
    have hpow := Nat.two_pow_pos m
    have hwidth : (int ity).width cx.dl = m + 1 := hm
    have hbias : signedBias cx.dl (.int ity) = 2 ^ m := by
      rw [signedBias, hm, Nat.one_shiftLeft]
      rfl
    have hmin : enc cx.dl (.int ity) 0 = 2 ^ m := by rw [enc, hbias, Nat.zero_xor]
    have hmax : enc cx.dl (.int ity) (2 ^ (m + 1) - 1) = 2 ^ m - 1 := by
      rw [enc, hbias, xor_two_pow_of_le] <;> omega
    have hrange := @encodes_range cx (.int ity) hty 0 (2 ^ (m + 1) - 1) (by omega)
      (by rw [hwidth]; omega)
    rw [hmin, hmax] at hrange
    refine ⟨_, [(0, 2 ^ (m + 1) - 1)], ?_, .cons hrange .nil, tiles_all.congr fun y => ?_⟩
    · have hsub : u128Sub (2 ^ m) 1 = .ok (2 ^ m - 1) := if_pos hpow
      simp [allConstructors, hm, Nat.one_shiftLeft, hsub]
    · rw [← hwidth]
      exact (and_self_iff.trans (henc y)).symm
  | uint uty =>
    have hid : ∀ y, enc cx.dl (.uint uty) y = y := fun y => by simp [enc, signedBias]
    have hmax : truncate (2 ^ 128 - 1) (uty.toInteger cx.dl).size =
        2 ^ (uint uty).width cx.dl - 1 := by
      simp only [width, Ty.size, Option.getD_some]
      cases uty.toInteger cx.dl <;> rfl
    have hone : 1 < 2 ^ (uint uty).width cx.dl :=
      Nat.one_lt_two_pow (mul_pos (by decide) (Nat.two_pow_pos _)).ne'
    have hrange := @encodes_range cx (.uint uty) hty 0 (2 ^ (uint uty).width cx.dl - 1)
      (by omega) (by omega)
    rw [hid, hid, ← hmax] at hrange
    refine ⟨_, _, rfl, .cons hrange .nil, ?_⟩
    rw [hmax]
    exact tiles_all.congr fun y => (and_self_iff.trans (henc y)).symm
  | _ => cases hty

theorem isValue_lt (hty : isIntegral ty) {x : Nat} (hx : ty.IsValue cx.dl x) :
    x < 2 ^ ty.width cx.dl := by
  cases ty with
  | char =>
    have hw : 2 ^ char.width cx.dl = 4294967296 := rfl
    simp only [Ty.IsValue] at hx
    omega
  | int _ | uint _ => exact hx
  | _ => cases hty

theorem usedAt_enc (hty : isIntegral ty) (hc : c.OfType cx ty) {x : Nat}
    (hx : x < 2 ^ ty.width cx.dl) : UsedAt cx c (enc cx.dl ty x) ↔ c.Covers cx x := by
  rcases fromCtor_spec hty hc with ⟨hnone, hcov⟩ | ⟨lo, hi, hsome, -, -, hcov⟩
  · simp [UsedAt, hnone, hcov]
  · simp [UsedAt, hsome, hcov, hx]

/-- For every integer type and `char` and every list of constants and ranges of the type that are
used, the iteration ends without a panic; it yields values and inclusive ranges of the type; no two
of them cover the same value; and together they cover the values of the type that no constructor of
the list covers. -/
theorem missing_exact (hty : isIntegral ty) {used : List Constructor}
    (hused : ∀ c ∈ used, c.OfType cx ty) (maxSliceLength : Nat) :
    ∃ all missing, allConstructors cx ⟨ty, maxSliceLength⟩ = .ok all ∧
      MissingConstructors.iter cx ⟨all, used⟩ = .ok missing ∧ (∀ c ∈ missing, c.IsPiece cx ty) ∧
      missing.Pairwise (fun c c' => ∀ x, ¬ (c.Covers cx x ∧ c'.Covers cx x)) ∧
      ∀ x, (∃ c ∈ missing, c.Covers cx x) ↔ ty.IsValue cx.dl x ∧ ∀ c ∈ used, ¬ c.Covers cx x := by
  obtain ⟨all, l, hall, hae, hl⟩ := @allConstructors_spec cx ty hty maxSliceLength
  obtain ⟨out, l', hout, he, hl'⟩ := iter_spec hty hused hae hl
  refine ⟨all, out, hall, hout, ?_, ?_, fun x => ?_⟩
  · intro c hc
    obtain ⟨i, -, hi⟩ := forall₂_exists_right he hc
    exact hi.piece
  · have hapart := hl'.apart
    clear hout hl'
    induction he with
    | nil => exact .nil
    | @cons c i out l' hc he ih =>
      obtain ⟨hi, hapart⟩ := pairwise_cons.1 hapart
      refine pairwise_cons.2 ⟨fun c' hc' x hx => ?_, ih hapart⟩
      obtain ⟨j, hj, hje⟩ := forall₂_exists_right he hc'
      exact hi j hj _ ⟨((hc.covers_iff hty x).1 hx.1).2, ((hje.covers_iff hty x).1 hx.2).2⟩
  · have hpieces : (∃ c ∈ out, c.Covers cx x) ↔
        x < 2 ^ ty.width cx.dl ∧ ∃ i ∈ l', Segment.Mem (enc cx.dl ty x) i := by
      constructor
      · rintro ⟨c, hc, hx⟩
        obtain ⟨i, hi, hie⟩ := forall₂_exists_right he hc
        obtain ⟨hlt, hmem⟩ := (hie.covers_iff hty x).1 hx
        exact ⟨hlt, i, hi, hmem⟩
      · rintro ⟨hlt, i, hi, hmem⟩
        obtain ⟨c, hc, hie⟩ := forall₂_exists_left he hi
        exact ⟨c, hc, (hie.covers_iff hty x).2 ⟨hlt, hmem⟩⟩
    rw [hpieces, hl'.mem_iff, enc_enc]
    constructor
    · rintro ⟨hlt, ⟨-, hval⟩, hfree⟩
      exact ⟨hval, fun c hc => mt (usedAt_enc hty (hused c hc) hlt).2 (hfree c hc)⟩
    · rintro ⟨hval, hfree⟩
      have hlt := isValue_lt hty hval
      exact ⟨hlt, ⟨hlt, hval⟩, fun c hc => mt (usedAt_enc hty (hused c hc) hlt).1 (hfree c hc)⟩

/-- A context in which no type is empty and no constant is left to be evaluated. -/
def plainCtxt : MatchCheckCtxt := ⟨Layout.Sample.target, fun _ => false, false, fun _ => .other 0⟩

/-- What is missing of `i8` when the negative numbers and `127` are used. -/
theorem missing_exact_i8 : ∃ all missing, allConstructors plainCtxt ⟨.int .i8, 0⟩ = .ok all ∧
    MissingConstructors.iter plainCtxt ⟨all, [.constantRange 0x80 0 (.int .i8) .excluded,
      .constantValue ⟨.int .i8, .raw 0x7F 1⟩]⟩ = .ok missing ∧
    ∀ c ∈ missing, c.IsPiece plainCtxt (.int .i8) := by
  have hused : ∀ c ∈ [.constantRange 0x80 0 (.int .i8) .excluded,
      .constantValue ⟨.int .i8, .raw 0x7F 1⟩], Constructor.OfType plainCtxt (.int .i8) c := by
    intro c hc
    rcases mem_cons.1 hc with rfl | hc
    · exact ⟨rfl, by decide, by decide⟩
    · rw [mem_singleton.1 hc]
      refine ⟨rfl, fun data size h => ?_⟩
      cases h
      exact ⟨rfl, by decide⟩
  obtain ⟨all, missing, hall, hmissing, hpiece, -⟩ := missing_exact rfl hused 0
  exact ⟨all, missing, hall, hmissing, hpiece⟩

end

end Tortis.Pattern
