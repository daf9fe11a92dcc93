import Tortis.Layout.Enum

/-!
# Discriminants of enums

The discriminants of an enum count up from the last explicit one, in the two functions that compute
them (`discriminants`, `discriminant_for_variant`). The integer that `repr_discr` chooses for the
tag holds the discriminant of every inhabited variant, so that what is written into the tag, which
may be narrower than the type of the discriminant, gives back the discriminant when it is read
(`tag_roundtrip`).
-/

namespace Tortis.Layout

open List Integer AdtDef

variable {dl : TargetDataLayout} {d : AdtDef}

/-! ## Two's complement -/

theorem Integer.bits_le_bits {i j : Integer} (h : i.rank ≤ j.rank) : i.bits ≤ j.bits :=
  Nat.mul_le_mul_left 8 (Nat.pow_le_pow_right two_pos h)

section
variable (i : Integer)

theorem Integer.two_pow_bits : 2 ^ i.bits = 2 ^ (i.bits - 1) + 2 ^ (i.bits - 1) := by
  cases i <;> rfl

theorem Integer.two_pow_bits_dvd : ((2 ^ i.bits : Nat) : Int) ∣ (2 ^ 128 : Nat) :=
  Int.natCast_dvd_natCast.2 (pow_dvd_pow 2 i.bits_le)

theorem truncate_asU128 (y : Int) :
    (truncate (asU128 y) i.size : Int) = y % (2 ^ i.bits : Nat) := by
  have hpos : 0 ≤ y % ((2 ^ 128 : Nat) : Int) := Int.emod_nonneg _ (by decide)
  rw [truncate, asU128, Int.natCast_mod, ← bits]
  rw [show (2 : Int) ^ 128 = ((2 ^ 128 : Nat) : Int) by norm_num, Int.toNat_of_nonneg hpos,
    Int.emod_emod_of_dvd _ i.two_pow_bits_dvd]

theorem emod_signExtend (val : Nat) :
    signExtend val i.size % (2 ^ i.bits : Nat) = val % (2 ^ i.bits : Nat) :=
  Int.bmod_emod

end

theorem bmod_eq_of_emod_eq {i : Integer} {x y : Int} (hle : -(2 ^ (i.bits - 1) : Nat) ≤ x)
    (hlt : x < (2 ^ (i.bits - 1) : Nat)) (h : y % (2 ^ i.bits : Nat) = x % (2 ^ i.bits : Nat)) :
    Int.bmod y (2 ^ i.bits) = x := by
  have hbits := i.two_pow_bits
  rw [← Int.emod_bmod, h, Int.emod_bmod]
  exact Int.bmod_eq_of_le_mul_two (by omega) (by omega)

/-! ## Counting up -/

theorem discrAdd_fst {repr : ReprOptions} {val n : Nat}
    (hval : val < 2 ^ (fromAttr dl repr.discrType).bits)
    (hn : n ≤ 2 ^ (fromAttr dl repr.discrType).bits) :
    (discrAdd dl repr val n).1 = (val + n) % 2 ^ (fromAttr dl repr.discrType).bits := by
  unfold discrAdd
  dsimp only
  generalize fromAttr dl repr.discrType = int at *
  have hbits := int.two_pow_bits
  have hcast : (2 : Int) ^ int.bits = (2 ^ int.bits : Nat) := by norm_num
  have hcast' : (2 : Int) ^ (int.bits - 1) = (2 ^ (int.bits - 1) : Nat) := by norm_num
  split
  · have hext := emod_signExtend int val
    rw [← Int.natCast_inj, truncate_asU128, Int.natCast_mod, Int.natCast_add, ← Int.emod_add_emod,
      ← hext, Int.emod_add_emod, hcast']
    split
    · -- the value after the wrap is smaller by the number of values of the type
      rw [show -((2 ^ (int.bits - 1) : Nat) : Int) +
        (n - ((2 ^ (int.bits - 1) : Nat) - 1 - signExtend val int.size) - 1) =
        signExtend val int.size + n - (2 ^ int.bits : Nat) by omega, Int.sub_emod_right]
    · rfl
  · split
    · rename_i hoflo
      have hoflo' := of_decide_eq_true hoflo
      rw [Nat.mod_eq_sub_mod (by omega), Nat.mod_eq_of_lt (by omega)]
      omega
    · rename_i hoflo
      have hoflo' := of_decide_eq_false (Bool.not_eq_true _ ▸ hoflo)
      rw [Nat.mod_eq_of_lt (by omega)]
      omega

/-- How far a variant is from the last explicit discriminant. -/
def VariantDiscr.distance : VariantDiscr → Nat
  | .explicit _ => 0
  | .relative distance => distance

theorem variantDiscrs_getElem : ∀ {vs : List VariantDef} {start k : Nat} {x : VariantDiscr},
    (variantDiscrs start vs)[k]? = some x →
    (∃ val, x = .explicit val ∧ ∃ v ∈ vs, v.disrExpr = some val) ∨ (k = 0 ∧ x = .relative start) ∨
    ∃ j y, k = j + 1 ∧ (variantDiscrs start vs)[j]? = some y ∧ x = .relative (y.distance + 1)
  | [], _, _, _, h => nomatch h
  | v :: vs, start, k, x, h => by
    cases hv : v.disrExpr <;> simp only [variantDiscrs, hv] at h ⊢ <;> cases k
    case some.zero val =>
      cases h
      exact .inl ⟨val, rfl, v, .head _, hv⟩
    case none.zero =>
      cases h
      exact .inr (.inl ⟨rfl, rfl⟩)
    case some.succ | none.succ =>
      rcases variantDiscrs_getElem h with ⟨val, hx, w, hw, hval⟩ | ⟨rfl, rfl⟩ | ⟨j, y, rfl, hy, hx⟩
      · exact .inl ⟨val, hx, w, .tail _ hw, hval⟩
      · exact .inr (.inr ⟨0, _, rfl, rfl, rfl⟩)
      · exact .inr (.inr ⟨j + 1, y, rfl, hy, hx⟩)

theorem variantDiscrs_length : ∀ (vs : List VariantDef) (start : Nat),
    (variantDiscrs start vs).length = vs.length
  | [], _ => rfl
  | ⟨_, some _⟩ :: vs, _ | ⟨_, none⟩ :: vs, _ => congrArg Nat.succ (variantDiscrs_length vs _)

theorem discriminantsFrom_getElem (dl : TargetDataLayout) (repr : ReprOptions) :
    ∀ (l : List VariantDiscr) (prev : Option Nat) {k : Nat} {x : VariantDiscr}, l[k]? = some x →
    (discriminantsFrom dl repr prev l)[k]? = some (discrAfter dl repr
      (if k = 0 then prev else (discriminantsFrom dl repr prev l)[k - 1]?) x)
  | [], _, _, _, h => nomatch h
  | y :: l, prev, 0, x, h => by
    cases h
    rfl
  | y :: l, prev, k + 1, x, h => by
    have ih := discriminantsFrom_getElem dl repr l (some (discrAfter dl repr prev y))
      (k := k) h
    unfold discriminantsFrom
    rw [getElem?_cons_succ, ih]
    cases k <;> rfl

namespace AdtDef

/-- What the source language promises of an enum's discriminants: explicit ones are values of their
type, and no two are equal. -/
structure DiscrsOk (dl : TargetDataLayout) (d : AdtDef) : Prop where
  explicit_lt : ∀ v ∈ d.variants, ∀ val, v.disrExpr = some val → val < 2 ^ (d.discrInteger dl).bits
  nodup : (d.discriminants dl).Nodup

section
variable (h : d.DiscrsOk dl)
include h

theorem discriminants_run : ∀ {k : Nat} {x : VariantDiscr}, d.discrs[k]? = some x →
    ∃ s b, k = s + x.distance ∧ b < 2 ^ (d.discrInteger dl).bits ∧
      (∀ j ≤ x.distance, (d.discriminants dl)[s + j]? =
        some ((b + j) % 2 ^ (d.discrInteger dl).bits)) ∧ (d.discrs[s]? = some (.explicit b) ∨
        (s = 0 ∧ d.discrs[0]? = some (.relative 0) ∧ b = 0)) := by
  intro k
  induction k using Nat.strongRecOn with
  | ind k ih =>
    intro x hx
    have hval := discriminantsFrom_getElem dl d.repr _ none hx
    rcases variantDiscrs_getElem hx with ⟨val, rfl, v, hv, hval'⟩ | ⟨rfl, rfl⟩ | ⟨j, y, rfl, hy, rfl⟩
    · have hlt := h.explicit_lt v hv val hval'
      refine ⟨k, val, rfl, hlt, fun j hj => ?_, .inl hx⟩
      cases Nat.le_zero.1 hj
      rw [add_zero, add_zero, Nat.mod_eq_of_lt hlt]
      exact hval
    · refine ⟨0, 0, rfl, Nat.two_pow_pos _, fun j hj => ?_, .inr ⟨rfl, hx, rfl⟩⟩
      cases Nat.le_zero.1 hj
      exact hval
    · obtain ⟨s, b, rfl, hb, hrun, hstart⟩ := ih j (by omega) hy
      refine ⟨s, b, rfl, hb, fun i hi => ?_, hstart⟩
      rcases lt_or_eq_of_le hi with hi | rfl
      · exact hrun i (Nat.le_of_lt_succ hi)
      · have hprev := hrun y.distance le_rfl
        have hpos := Nat.two_pow_pos (d.discrInteger dl).bits
        rw [if_neg (by omega), Nat.add_sub_cancel] at hval
        unfold discriminants at hprev ⊢
        rw [hprev] at hval
        refine hval.trans (congrArg some ?_)
        refine (discrAdd_fst (Nat.mod_lt _ hpos) hpos).trans ?_
        rw [← discrInteger, Nat.mod_add_mod, add_assoc]
        rfl

theorem lt_of_nodup {s b n : Nat} (hrun : ∀ j ≤ n, (d.discriminants dl)[s + j]? =
      some ((b + j) % 2 ^ (d.discrInteger dl).bits)) : n < 2 ^ (d.discrInteger dl).bits := by
  by_contra hle
  have h0 := hrun 0 (Nat.zero_le _)
  have h1 := hrun (2 ^ (d.discrInteger dl).bits) (by omega)
  rw [Nat.add_mod_right, ← add_zero b, ← h0] at h1
  obtain ⟨hlt, -⟩ := List.getElem?_eq_some_iff.1 h0
  have heq := (List.getElem?_inj hlt h.nodup).1 h1.symm
  have := Nat.two_pow_pos (d.discrInteger dl).bits
  omega

theorem discriminants_lt {k val : Nat} (hk : k < d.variants.length)
    (hval : (d.discriminants dl)[k]? = some val) : val < 2 ^ (d.discrInteger dl).bits := by
  have hk' : k < d.discrs.length := by rwa [discrs, variantDiscrs_length]
  obtain ⟨s, b, hks, -, hrun, -⟩ := d.discriminants_run h (getElem?_eq_getElem hk')
  have hlast := hrun _ le_rfl
  rw [← hks, hval] at hlast
  rw [Option.some.inj hlast]
  exact Nat.mod_lt _ (Nat.two_pow_pos _)

theorem discriminants_getElem {k : Nat} (hk : k < d.variants.length) :
    (d.discriminants dl)[k]? = some (d.discriminantForVariant dl k) := by
  have hk' : k < d.discrs.length := by rwa [discrs, variantDiscrs_length]
  have hx := getElem?_eq_getElem hk'
  obtain ⟨s, b, hks, hb, hrun, hstart⟩ := d.discriminants_run h hx
  have hdist := lt_of_nodup h hrun
  have hdef : ∃ val, d.discriminantDefForVariant k = (val, d.discrs[k].distance) ∧
      val.getD 0 = b := by
    rw [discriminantDefForVariant, hx]
    have hsub : k - d.discrs[k].distance = s := by omega
    cases hd : d.discrs[k] with
    | explicit val =>
      rw [hd] at hsub hx
      cases hsub
      rcases hstart with hstart | ⟨hs, hstart, -⟩
      · cases hx.symm.trans hstart
        exact ⟨some b, rfl, rfl⟩
      · have hk0 : k = 0 := hs
        subst hk0
        cases hx.symm.trans hstart
    | relative r =>
      rw [hd] at hsub
      dsimp only [VariantDiscr.distance] at hsub ⊢
      rw [hsub]
      rcases hstart with hstart | ⟨rfl, hstart, rfl⟩
      · exact ⟨some b, by rw [hstart], rfl⟩
      · exact ⟨none, by rw [hstart], rfl⟩
  obtain ⟨val, hdef, hval⟩ := hdef
  have hadd := discrAdd_fst hb (le_of_lt hdist)
  have hlast := hrun _ le_rfl
  rw [discriminantForVariant, hdef]
  dsimp only
  rw [hval, hadd, ← discrInteger, ← hlast, ← hks]

theorem discriminants_eq_index (hno : ∀ p ∈ d.discrs.zipIdx, p.1 = VariantDiscr.relative p.2)
    {k : Nat} (hk : k < d.variants.length) : d.discriminantForVariant dl k = k := by
  have hk' : k < d.discrs.length := by rwa [discrs, variantDiscrs_length]
  have hx := getElem?_eq_getElem hk'
  have hrel : ∀ {j : Nat} {x}, d.discrs[j]? = some x → x = .relative j := fun {j x} hj =>
    hno (x, j) (mem_zipIdx_iff_getElem?.2 hj)
  obtain ⟨s, b, hks, hb, hrun, hstart⟩ := d.discriminants_run h hx
  rw [hrel hx] at hks hrun
  dsimp only [VariantDiscr.distance] at hks hrun
  have hlast := hrun _ le_rfl
  have hlt := lt_of_nodup h hrun
  obtain rfl : s = 0 := by omega
  rcases hstart with hstart | ⟨-, -, rfl⟩
  · cases hrel hstart
  · rw [zero_add, discriminants_getElem h hk, Nat.mod_eq_of_lt hlt] at hlast
    exact Option.some.inj hlast

end

end AdtDef

/-! ## Tags -/

theorem asI128_emod {m : Nat} (h : (m : Int) ∣ (2 ^ 128 : Nat)) (val : Nat) :
    asI128 val % m = val % m := by
  have hbmod : asI128 val % (2 ^ 128 : Nat) = val % (2 ^ 128 : Nat) := Int.bmod_emod
  rw [← Int.emod_emod_of_dvd _ h, hbmod, Int.emod_emod_of_dvd _ h]

theorem discrValue_eq (dl : TargetDataLayout) (repr : ReprOptions) (val : Nat) :
    discrValue dl repr val % (2 ^ (fromAttr dl repr.discrType).bits : Nat) =
      val % (2 ^ (fromAttr dl repr.discrType).bits : Nat) := by
  have h128 := asI128_emod (fromAttr dl repr.discrType).two_pow_bits_dvd val
  rw [discrValue]
  split
  · rw [Int.bmod_emod, h128]
  · exact h128

variable {repr : ReprOptions}

theorem discrValue_of_nonneg (hsigned : repr.discrType.isSigned = true)
    {val : Nat} (hval : val < 2 ^ (fromAttr dl repr.discrType).bits)
    (h : 0 ≤ discrValue dl repr val) : discrValue dl repr val = val := by
  have hmod := discrValue_eq dl repr val
  have hlt : discrValue dl repr val < ((2 ^ (fromAttr dl repr.discrType).bits : Nat) : Int) := by
    have hpos := Nat.two_pow_pos (fromAttr dl repr.discrType).bits
    rw [discrValue, if_pos hsigned]
    have := Int.bmod_lt (x := asI128 val) hpos
    omega
  rwa [Int.emod_eq_of_lt h hlt, Int.emod_eq_of_lt (by omega) (by omega)] at hmod

theorem asI128_bounds (val : Nat) : -2 ^ 127 ≤ asI128 val ∧ asI128 val < 2 ^ 127 := by
  obtain ⟨m, hm⟩ : ∃ m, m = 0x100000000000000000000000000000000 := ⟨_, rfl⟩
  have hpos : 0 < m := by omega
  have hle := @Int.le_bmod val m hpos
  have hlt := @Int.bmod_lt val m hpos
  have hval : asI128 val = Int.bmod val m := by
    rw [hm]
    rfl
  omega

theorem discrValue_bounds (dl : TargetDataLayout) (repr : ReprOptions) (val : Nat) :
    -2 ^ 127 ≤ discrValue dl repr val ∧ discrValue dl repr val < 2 ^ 127 := by
  rw [discrValue]
  split
  · have hpos := Nat.two_pow_pos (fromAttr dl repr.discrType).bits
    have hle := @Int.le_bmod (asI128 val) _ hpos
    have hlt := @Int.bmod_lt (asI128 val) _ hpos
    generalize fromAttr dl repr.discrType = i at *
    cases i <;> norm_num [bits, Integer.size, Integer.rank] at * <;> omega
  · exact asI128_bounds val

theorem discrRange_spec : ∀ (l : List (Nat × VariantDef)) (range : Int × Int),
    (discrRange dl repr l range).1 ≤ range.1 ∧ range.2 ≤ (discrRange dl repr l range).2 ∧
    (-2 ^ 127 ≤ range.1 → range.2 < 2 ^ 127 →
      -2 ^ 127 ≤ (discrRange dl repr l range).1 ∧ (discrRange dl repr l range).2 < 2 ^ 127) ∧
    ∀ p ∈ l, p.2.fields.any (·.abi.isUninhabited) = false →
      (discrRange dl repr l range).1 ≤ discrValue dl repr p.1 ∧
        discrValue dl repr p.1 ≤ (discrRange dl repr l range).2
  | [], range => ⟨Int.le_refl _, Int.le_refl _, fun h1 h2 => ⟨h1, h2⟩, nofun⟩
  | (val, variant) :: l, (min, max) => by
    unfold discrRange
    split
    · rename_i hun
      obtain ⟨h1, h2, hb, h3⟩ := discrRange_spec l (min, max)
      refine ⟨h1, h2, hb, forall_mem_cons.2 ⟨fun h => ?_, h3⟩⟩
      rw [hun] at h
      cases h
    · obtain ⟨h1, h2, hb, h3⟩ := discrRange_spec l
        (if discrValue dl repr val < min then discrValue dl repr val else min,
          if discrValue dl repr val > max then discrValue dl repr val else max)
      have hx := discrValue_bounds dl repr val
      have hmin : (if discrValue dl repr val < min then discrValue dl repr val else min) ≤ min ∧
          (if discrValue dl repr val < min then discrValue dl repr val else min) ≤
            discrValue dl repr val := by
        split <;> omega
      have hmax : max ≤ (if discrValue dl repr val > max then discrValue dl repr val else max) ∧
          discrValue dl repr val ≤
            (if discrValue dl repr val > max then discrValue dl repr val else max) := by
        split <;> omega
      exact ⟨h1.trans hmin.1, hmax.1.trans h2,
        fun hl hu => hb (by split <;> omega) (by split <;> omega), forall_mem_cons.2 ⟨fun _ => ⟨h1.trans hmin.2, hmax.2.trans h2⟩, h3⟩⟩

theorem discrBounds_bounds (dl : TargetDataLayout) (d : AdtDef) :
    -2 ^ 127 ≤ (d.discrBounds dl).1 ∧ (d.discrBounds dl).2 < 2 ^ 127 := by
  unfold discrBounds
  dsimp only
  split
  · decide
  · exact (discrRange_spec _ _).2.2.1 (by decide) (by decide)

variable {v : VariantDef} {k val : Nat}

theorem discrBounds_spec (hv : d.variants[k]? = some v) (hval : (d.discriminants dl)[k]? = some val)
    (hin : v.fields.any (·.abi.isUninhabited) = false) :
    (d.discrBounds dl).1 ≤ discrValue dl d.repr val ∧
      discrValue dl d.repr val ≤ (d.discrBounds dl).2 := by
  have hmem : (val, v) ∈ (d.discriminants dl).zip d.variants := by
    refine mem_iff_getElem?.2 ⟨k, ?_⟩
    rw [getElem?_zip_eq_some]
    exact ⟨hval, hv⟩
  obtain ⟨h1, h2⟩ := (discrRange_spec ((d.discriminants dl).zip d.variants)
    (2 ^ 127 - 1, -2 ^ 127)).2.2.2 _ hmem hin
  unfold discrBounds
  dsimp only
  split
  · rename_i hnone
    rw [hnone] at h1 h2
    exact absurd (h1.trans h2) (by decide)
  · exact ⟨h1, h2⟩

theorem Integer.fitSigned_spec {x : Int} (hle : -2 ^ 127 ≤ x) (hlt : x < 2 ^ 127) :
    -(2 ^ ((fitSigned x).bits - 1) : Nat) ≤ x ∧ x < (2 ^ ((fitSigned x).bits - 1) : Nat) := by
  unfold fitSigned
  split_ifs <;> norm_num [bits, size, Integer.rank] <;> omega

theorem Integer.fitUnsigned_spec {x : Nat} (hlt : x < 2 ^ 128) : x < 2 ^ (fitUnsigned x).bits := by
  unfold fitUnsigned
  split_ifs <;> norm_num [bits, size, Integer.rank] <;> omega

theorem Integer.rank_le_max (a b : Integer) :
    a.rank ≤ (a.max b).rank ∧ b.rank ≤ (a.max b).rank := by
  rw [Integer.max]
  split <;> omega

variable {a b : Integer}

theorem Integer.signed_mono (h : a.rank ≤ b.rank) : 2 ^ (a.bits - 1) ≤ 2 ^ (b.bits - 1) :=
  Nat.pow_le_pow_right Nat.two_pos (Nat.sub_le_sub_right (bits_le_bits h) 1)

theorem Integer.unsigned_mono (h : a.rank ≤ b.rank) : 2 ^ a.bits ≤ 2 ^ b.bits :=
  Nat.pow_le_pow_right two_pos (bits_le_bits h)

/-- What `repr_discr` promises of the tag: a signed one holds every value between the bounds; one
that is not signed has the type of the discriminants, or no discriminant is negative and it holds
the greatest one. -/
def TagHolds (dl : TargetDataLayout) (repr : ReprOptions) (min max : Int) (ity : Integer) :
    Bool → Prop
  | true => repr.discrType.isSigned = true ∧ ∀ x, min ≤ x → x ≤ max →
      -(2 ^ (ity.bits - 1) : Nat) ≤ x ∧ x < (2 ^ (ity.bits - 1) : Nat)
  | false => (repr.int ≠ none ∧ ity = fromAttr dl repr.discrType) ∨
      (repr.int = none ∧ 0 ≤ min ∧ max < (2 ^ ity.bits : Nat))

variable {signed : Bool}

theorem reprDiscr_spec {min max : Int} {ity : Integer}
    (h : reprDiscr dl repr min max = .ok (ity, signed)) (hmin : -2 ^ 127 ≤ min)
    (hmax : max < 2 ^ 127) (hle : min ≤ max) : TagHolds dl repr min max ity signed := by
  have hsigned : ∀ i : Integer, ((fitSigned min).max (fitSigned max)).rank ≤ i.rank →
      ∀ x, min ≤ x → x ≤ max → -(2 ^ (i.bits - 1) : Nat) ≤ x ∧ x < (2 ^ (i.bits - 1) : Nat) := by
    intro i hi x hx hx'
    obtain ⟨h1, h2⟩ := rank_le_max (fitSigned min) (fitSigned max)
    have hlo := (fitSigned_spec hmin (by omega)).1
    have hhi := (fitSigned_spec (by omega) hmax).2
    have := signed_mono (h1.trans hi)
    have := signed_mono (h2.trans hi)
    omega
  unfold reprDiscr at h
  dsimp only at h
  split at h
  · rename_i ty hint
    have hdiscr : repr.discrType = ty := by rw [ReprOptions.discrType, hint]; rfl
    cases hty : ty.isSigned with
    | true =>
      rw [hty, if_pos rfl] at h
      split at h
      · cases h
      · cases h
        exact ⟨hdiscr ▸ hty, hsigned _ (by omega)⟩
    | false =>
      rw [hty, if_neg Bool.false_ne_true] at h
      split at h
      · cases h
      · cases h
        exact .inl ⟨by rw [hint]; exact nofun, by rw [hdiscr]⟩
  · rename_i hint
    have hdiscr : repr.discrType = .signedInt none := by rw [ReprOptions.discrType, hint]; rfl
    split at h
    · rename_i hnonneg
      cases h
      refine .inr ⟨hint, hnonneg, ?_⟩
      have hcast : ∀ x : Int, 0 ≤ x → x < 2 ^ 127 → ((asU128 x : Nat) : Int) = x := by
        intro x hx hx'
        rw [asU128, Int.toNat_of_nonneg (Int.emod_nonneg _ (by decide)),
          Int.emod_eq_of_lt hx (by omega)]
      have hcmin := hcast min hnonneg (by omega)
      have hcmax := hcast max (by omega) hmax
      rw [show Nat.max (asU128 min) (asU128 max) = asU128 max from max_eq_right (by omega)]
      have hfit := fitUnsigned_spec (x := asU128 max) (by omega)
      have hmono := unsigned_mono (rank_le_max
        (fitUnsigned (asU128 max)) (if repr.isC then .i32 else .i8)).1
      omega
    · cases h
      exact ⟨by rw [hdiscr]; rfl, hsigned _ (rank_le_max _ _).1⟩

variable {sts sts' : List LayoutDetails} {l : LayoutDetails} {minIty ity : Integer}

theorem TaggedLayout.tagHolds (h : TaggedLayout dl d l minIty ity signed sts sts')
    (hle : (d.discrBounds dl).1 ≤ (d.discrBounds dl).2) :
    TagHolds dl d.repr (d.discrBounds dl).1 (d.discrBounds dl).2 ity signed := by
  obtain ⟨hmin, hmax⟩ := discrBounds_bounds dl d
  have hholds := reprDiscr_spec h.repr_eq hmin hmax hle
  rcases widenTag_eq_ok h.widen_eq with ⟨rfl, -⟩ | ⟨hrank, -, hint, -, -⟩
  · exact hholds
  · cases signed with
    | true =>
      refine ⟨hholds.1, fun x hx hx' => ?_⟩
      have := signed_mono hrank.le
      have := hholds.2 x hx hx'
      omega
    | false =>
      rcases hholds with ⟨hint', -⟩ | ⟨hint', hnonneg, hlt⟩
      · exact absurd hint hint'
      · have := unsigned_mono hrank.le
        exact .inr ⟨hint', hnonneg, by omega⟩

theorem tag_roundtrip (h : TaggedLayout dl d l minIty ity signed sts sts')
    (hv : d.variants[k]? = some v)
    (hval : (d.discriminants dl)[k]? = some val) (hlt : val < 2 ^ (d.discrInteger dl).bits)
    (hin : v.fields.any (·.abi.isUninhabited) = false) : (if signed then
      truncate (asU128 (signExtend (truncate val ity.size) ity.size)) (d.discrInteger dl).size
      else truncate val ity.size) = val := by
  obtain ⟨hlo, hhi⟩ := discrBounds_spec hv hval hin
  have hholds := h.tagHolds (hlo.trans hhi)
  have htrunc : truncate val ity.size = val % 2 ^ ity.bits := rfl
  cases signed with
  | true =>
    obtain ⟨-, hfits⟩ := hholds
    obtain ⟨hx, hx'⟩ := hfits _ hlo hhi
    have hdiscr : discrValue dl d.repr val % (2 ^ (d.discrInteger dl).bits : Nat) =
      val % (2 ^ (d.discrInteger dl).bits : Nat) := discrValue_eq dl d.repr val
    have hext : signExtend (truncate val ity.size) ity.size % (2 ^ (d.discrInteger dl).bits : Nat) =
        val % (2 ^ (d.discrInteger dl).bits : Nat) := by
      rcases le_total (d.discrInteger dl).bits ity.bits with hbits | hbits
      · -- the tag is at least as wide as the discriminant, and holds its bits
        have hdvd : ((2 ^ (d.discrInteger dl).bits : Nat) : Int) ∣ (2 ^ ity.bits : Nat) :=
          Int.natCast_dvd_natCast.2 (pow_dvd_pow 2 hbits)
        rw [← Int.emod_emod_of_dvd _ hdvd, emod_signExtend, Int.emod_emod_of_dvd _ hdvd, htrunc,
          Int.natCast_mod, Int.emod_emod_of_dvd _ hdvd]
      · -- the tag is narrower, but extending it gives the discriminant
        have hdvd : ((2 ^ ity.bits : Nat) : Int) ∣ (2 ^ (d.discrInteger dl).bits : Nat) :=
          Int.natCast_dvd_natCast.2 (pow_dvd_pow 2 hbits)
        have hmod : ((truncate val ity.size : Nat) : Int) % (2 ^ ity.bits : Nat) =
            discrValue dl d.repr val % (2 ^ ity.bits : Nat) := by
          rw [htrunc, Int.natCast_mod, Int.emod_emod, ← Int.emod_emod_of_dvd _ hdvd, ← hdiscr,
            Int.emod_emod_of_dvd _ hdvd]
        have heq : signExtend (truncate val ity.size) ity.size = discrValue dl d.repr val :=
          bmod_eq_of_emod_eq hx hx' hmod
        rw [heq, hdiscr]
    rw [if_pos rfl, ← Int.natCast_inj, truncate_asU128, hext]
    exact Int.emod_eq_of_lt (by omega) (by omega)
  | false =>
    rw [if_neg Bool.false_ne_true, htrunc]
    refine Nat.mod_eq_of_lt ?_
    rcases hholds with ⟨-, rfl⟩ | ⟨hint, hnonneg, hmax⟩
    · exact hlt
    · have hsigned : d.repr.discrType.isSigned = true := by
        rw [ReprOptions.discrType, hint]
        rfl
      have heq := discrValue_of_nonneg hsigned hlt (hnonneg.trans hlo)
      omega

end Tortis.Layout
