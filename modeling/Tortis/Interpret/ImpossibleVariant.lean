import Tortis.Interpret.Discriminant

/-!
# Writing a variant that is not there

An index that no variant has, or a variant without values and without data, has no encoding in a
layout. `writeDiscriminantIndex_reports_iff` says for which of them `write_discriminant_index`
reports an invalid discriminant: with a niche it never does, since the negation of its check is
taken of the bits of the index.
-/

namespace Tortis.Interpret

open List InterpResult Layout.Sample

open Tortis.Layout (TargetDataLayout AdtDef LayoutDetails Variants DiscriminantKind Primitive)

variable {Tag : Type} {dl : TargetDataLayout} {byteOrder : ByteOrder} {d : AdtDef}
  {layout : LayoutDetails} {a : Allocation Tag} {base k : Nat} {v : Layout.VariantDef}

/-- An index that is not of a variant, or of a variant that is absent from the layout. -/
def Impossible (d : AdtDef) (k : Nat) : Prop :=
  ∀ v, d.variants[k]? = some v → Layout.absent v.fields = true

/-- The impossible variants that are reported: for a layout of one variant, every one but the first
of an enum without variants that are present; for a tag, the indices past the variants; for a
niche, none. -/
def Reported (d : AdtDef) (layout : LayoutDetails) (k : Nat) : Prop :=
  match layout.variants with
  | .single _ => d.presentVariants ≠ [] ∨ k ≠ 0
  | .multiple _ .tag _ _ => d.variants.length ≤ k
  | .multiple _ (.niche ..) _ _ => False

/-! ## Layouts of one variant -/

theorem Impossible.ne_of_present (h : Impossible d k) {i : Nat} (hi : i ∈ d.presentVariants) :
    i ≠ k := by
  rintro rfl
  rw [AdtDef.presentVariants, mem_filter, mem_range] at hi
  obtain ⟨hlt, hpresent⟩ := hi
  rw [getElem?_eq_getElem hlt, Option.any_some, h _ (getElem?_eq_getElem hlt)] at hpresent
  cases hpresent

theorem single_reports {index : Nat} (hvariants : layout.variants = .single index) (cx : InterpCx) :
    writeDiscriminantIndex dl cx d layout k base a = invalidDiscriminant ↔ index ≠ k := by
  rw [writeDiscriminantIndex, hvariants]
  dsimp only
  split
  · rename_i hne
    exact ⟨fun _ => hne, fun _ => rfl⟩
  · rename_i heq
    exact ⟨(by intro h; cases h), fun hne => absurd hne heq⟩

/-! ## Tags -/

theorem tagged_reports (hbo : byteOrder.Lawful) (hd : EnumOk dl d)
    (h : Layout.layoutTagged dl d = .ok layout) (ha : a.WF (dl.interpCx byteOrder))
    (hbase : base + layout.size ≤ a.size) :
    writeDiscriminantIndex dl (dl.interpCx byteOrder) d layout k base a = invalidDiscriminant ↔
      d.variants.length ≤ k := by
  obtain ⟨minIty, ity, signed, sts, sts', htagged⟩ := Layout.layoutTagged_eq_ok h
  constructor
  · intro hwrite
    by_contra hlt
    obtain ⟨v, hv⟩ : ∃ v, d.variants[k]? = some v := ⟨_, getElem?_eq_getElem (Nat.not_le.1 hlt)⟩
    obtain ⟨a', ha', -⟩ := tagged_writes hbo hd htagged hv ha hbase
    rw [ha'] at hwrite
    cases hwrite
  · intro hle
    obtain ⟨start, stop, hvariants⟩ := htagged.variants_eq
    rw [writeDiscriminantIndex, hvariants]
    dsimp only
    rw [if_pos (Nat.not_lt.2 hle)]

/-! ## Niches -/

section
variable {filling : Layout.NicheFilling} {sts : List LayoutDetails} {st : LayoutDetails}
  {offset : Nat}

theorem Impossible.ne_dataful (h : Impossible d k) (hd : EnumOk dl d)
    (hfilling : Layout.nicheFilling dl d = some filling)
    (hniche : Layout.NicheLayout dl d filling layout sts st offset) : k ≠ filling.datafulVariant := by
  rintro rfl
  obtain ⟨i, signed, vd, f, hfacts⟩ := nicheFacts hd hfilling hniche
  have habsent := h vd hfacts.dataful_eq
  rw [Layout.absent, Bool.and_eq_true, all_eq_true] at habsent
  have hzst := Layout.LayoutDetails.size_of_isZst
    (habsent.2 f (mem_of_getElem? hfacts.field_eq))
  have hinside := (hd.niche vd (mem_of_getElem? hfacts.dataful_eq) f
    (mem_of_getElem? hfacts.field_eq) _ hfacts.niche_eq).inside
  have hpos := (Layout.Integer.size_bounds i).1
  rw [hfacts.size_eq] at hinside
  omega

theorem niche_not_reports (hbo : byteOrder.Lawful) (hd : EnumOk dl d)
    (hfilling : Layout.nicheFilling dl d = some filling)
    (hniche : Layout.NicheLayout dl d filling layout sts st offset) (hbad : Impossible d k)
    (hk : k ≤ Layout.variantIdxMax) (ha : a.WF (dl.interpCx byteOrder))
    (hbase : base + layout.size ≤ a.size) :
    writeDiscriminantIndex dl (dl.interpCx byteOrder) d layout k base a ≠ invalidDiscriminant := by
  obtain ⟨i, signed, vd, f, hfacts⟩ := nicheFacts hd hfilling hniche
  have hlen := hd.length_le
  have hcheck : ¬ 2 ^ 64 - 1 - k < d.variants.length := by
    rw [Layout.variantIdxMax] at hk hlen
    omega
  have hne := hbad.ne_dataful hd hfilling hniche
  by_cases hwrites : filling.variantsStart ≤ k ∧ k - filling.variantsStart < 2 ^ (8 * i.size)
  · obtain ⟨a', data, hwrite, -⟩ := niche_writes hbo hfacts hniche hcheck hne hwrites.1 hwrites.2 ha
      hbase
    rw [hwrite]
    intro h; cases h
  rw [writeDiscriminantIndex, hniche.variants_eq, hniche.fields_eq]
  dsimp only
  rw [if_neg hcheck, if_neg hne]
  split
  · intro h; cases h
  have hpanic : (Scalar.fromUint (k - filling.variantsStart) i.size : Outcome (Scalar Tag)) =
      .error (.panic "Unsigned value does not fit") := by
    rw [Scalar.fromUint, Outcome.assert, if_neg (by simpa using fun h => hwrites ⟨by omega, h⟩)]
    rfl
  rw [hfacts.value_eq, hfacts.intTy_eq, lift_ok, ok_bind]
  rw [fromUint_eq_ok.2 ⟨hfacts.start_lt, rfl⟩, lift_ok, ok_bind, hpanic]
  intro h; cases h

end

/-! ## All enums -/

/-- An impossible variant is reported, as an invalid discriminant and before anything is written,
exactly when it is one of `Reported`. -/
theorem writeDiscriminantIndex_reports_iff (dl : TargetDataLayout) (byteOrder : ByteOrder)
    (hbo : byteOrder.Lawful) (d : AdtDef) (hd : EnumOk dl d) (layout : LayoutDetails)
    (h : Layout.layoutEnum dl d = .ok layout) (k : Nat) (hk : k ≤ Layout.variantIdxMax)
    (hbad : Impossible d k) (base : Nat) (a : Allocation Tag) (ha : a.WF (dl.interpCx byteOrder))
    (hbase : base + layout.size ≤ a.size) :
    writeDiscriminantIndex dl (dl.interpCx byteOrder) d layout k base a = invalidDiscriminant ↔
      Reported d layout k := by
  unfold Layout.layoutEnum at h
  split at h
  · rename_i hnone
    cases h
    rw [single_reports rfl, Reported, hnone]
    exact ⟨fun hne => .inr (Ne.symm hne), fun hor => Ne.symm (hor.resolve_left (not_not.2 rfl))⟩
  · rename_i v0 rest hsome
    have hv0 : v0 ∈ d.presentVariants := by rw [hsome]; exact mem_cons_self
    split at h
    · split at h
      · have hvariants := Layout.layoutSingle_variants h
        rw [single_reports hvariants, Reported, hvariants]
        exact ⟨fun _ => .inl (ne_nil_of_mem hv0), fun _ => hbad.ne_of_present hv0⟩
      · cases h
    · split at h
      · rename_i filling hfilling
        obtain ⟨sts, st, offset, hniche⟩ := Layout.layoutNiche_eq_ok h
        have hnot := niche_not_reports hbo hd hfilling hniche hbad hk ha hbase
        rw [Reported, hniche.variants_eq]
        exact ⟨hnot, False.elim⟩
      · obtain ⟨_, _, _, _, _, htagged⟩ := Layout.layoutTagged_eq_ok h
        obtain ⟨_, _, hvariants⟩ := htagged.variants_eq
        rw [tagged_reports hbo hd h ha hbase, Reported, hvariants]

def eightBytes : Allocation Unit := ⟨replicate 8 0, .new, ⟨[0#64], 8⟩, 8, true⟩

theorem eightBytes_wf : eightBytes.WF (Layout.Sample.target.interpCx .reference) :=
  ⟨rfl, rfl, by unfold UndefMask.WF; decide, .nil, forall_mem_nil _, by decide⟩

theorem enumOf_ok {variants : List (List LayoutDetails)} (h : ∀ fields ∈ variants, ∀ f ∈ fields,
      f = reference ∨ f = Layout.neverLayout Layout.Sample.target)
    (hnodup : ((enumOf variants).discriminants Layout.Sample.target).Nodup)
    (hlen : variants.length ≤ Layout.variantIdxMax) :
    EnumOk Layout.Sample.target (enumOf variants) := by
  have hvariant : ∀ v ∈ (enumOf variants).variants,
      v.disrExpr = none ∧ v.fields ∈ variants := by
    intro v hv
    obtain ⟨fields, hfields, rfl⟩ := mem_map.1 hv
    exact ⟨rfl, hfields⟩
  refine ⟨rfl, ⟨?_, hnodup⟩, by simpa [enumOf] using hlen, ?_⟩
  · intro v hv val hval
    rw [(hvariant v hv).1] at hval
    cases hval
  · intro v hv f hf n hn
    obtain rfl | rfl := h v.fields (hvariant v hv).2 f hf
    · cases hn
      exact ⟨by decide, ⟨by decide, by decide⟩, fun _ h => by cases h⟩
    · cases hn

/-- `enum Lone { A(&u8), B(!) }`. -/
def loneEnum : AdtDef :=
  enumOf [[reference], [Layout.neverLayout Layout.Sample.target]]

theorem loneEnum_ok : EnumOk Layout.Sample.target loneEnum :=
  enumOf_ok (by simp) (by decide) (by decide)

/-- Writing `B`, which is absent from a layout of `A` alone, is reported. -/
theorem writeDiscriminantIndex_reports_lone :
    ∃ layout, Layout.layoutEnum Layout.Sample.target loneEnum = .ok layout ∧
      writeDiscriminantIndex Layout.Sample.target (Layout.Sample.target.interpCx .reference) loneEnum
        layout 1 0 eightBytes = invalidDiscriminant := by
  obtain ⟨layout, hlayout⟩ : ∃ layout, Layout.layoutEnum Layout.Sample.target loneEnum =
      .ok layout := ⟨_, rfl⟩
  have hbad : Impossible loneEnum 1 := by
    intro v hv
    cases hv
    rfl
  refine ⟨layout, hlayout, (writeDiscriminantIndex_reports_iff Layout.Sample.target .reference
    ByteOrder.reference_lawful loneEnum loneEnum_ok layout hlayout 1 (by decide) hbad 0 eightBytes
    eightBytes_wf (by cases hlayout; decide)).2 ?_⟩
  cases hlayout
  exact .inl (by decide)

/-- `enum Absent { A(&u8), B, C(!) }`, where `B` is in the niche of `A`. -/
def absentEnum : AdtDef :=
  enumOf [[reference], [], [Layout.neverLayout Layout.Sample.target]]

/-- Writing `C`, which is absent, writes a value that is read back as `A`. -/
theorem writeDiscriminantIndex_absent : EnumOk Layout.Sample.target absentEnum ∧
    Impossible absentEnum 2 ∧
    ∃ layout a', Layout.layoutEnum Layout.Sample.target absentEnum = .ok layout ∧
      writeDiscriminantIndex Layout.Sample.target (Layout.Sample.target.interpCx .reference)
        absentEnum layout 2 0 eightBytes = .ok a' ∧
      readDiscriminant Layout.Sample.target (Layout.Sample.target.interpCx .reference)
        (fun _ : Pointer Unit => false) absentEnum layout 0 a' = .ok (0, 0) := by
  refine ⟨enumOf_ok (by simp) (by decide) (by decide), ?_, _, _, rfl, rfl, rfl⟩
  intro v hv
  cases hv
  rfl

end Tortis.Interpret
