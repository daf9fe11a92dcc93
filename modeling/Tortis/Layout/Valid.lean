import Tortis.Layout.Enum
import Tortis.Lib.List

/-!
# Validity of enum layouts

Every layout with a tag is valid, also when the tag has been widened to the alignment of the first
fields (`layoutTagged_valid`). A layout with a niche takes the size of the variant with data and the
alignment of all variants; it is valid exactly when the alignments of all fields divide that size
(`layoutEnum_valid_iff`).
-/

namespace Tortis.Layout

open List LayoutResult Placing Align Sample

variable {dl : TargetDataLayout} {d : AdtDef}

/-! ## Valid layouts -/

/-- The fields of a variant lie inside of the size, are aligned and do not overlap with each other
or with the tag. On a target whose integers are not more aligned than they are large, zero-sized
fields come after the tag, too. -/
def VariantValid (dl : TargetDataLayout) (size tagSize : Nat) (v : VariantDef)
    (st : LayoutDetails) : Prop :=
  ∃ offsets memoryIndex, st.fields = .arbitrary offsets memoryIndex ∧
    offsets.length = v.fields.length ∧
    (∀ (i : Nat) f o, v.fields[i]? = some f → offsets[i]? = some o →
      o + f.size ≤ size ∧ f.align.abi.bytes ∣ o ∧ (f.size = 0 ∨ tagSize ≤ o) ∧
        ((∀ int : Integer, (int.align dl).abi.bytes ≤ int.size) → tagSize ≤ o)) ∧
    ∀ (i j : Nat) f g o o', i ≠ j → v.fields[i]? = some f → v.fields[j]? = some g →
      offsets[i]? = some o → offsets[j]? = some o' → o + f.size ≤ o' ∨ o' + g.size ≤ o

/-- How many bytes the tag has at the start of a layout. -/
def tagSize (dl : TargetDataLayout) (discr : Scalar) : DiscriminantKind → Nat
  | .tag => discr.value.size dl
  | .niche _ _ _ _ => 0

structure ValidLayout (dl : TargetDataLayout) (d : AdtDef) (l : LayoutDetails) (discr : Scalar)
    (kind : DiscriminantKind) (sts : List LayoutDetails) : Prop where
  size_dvd : l.align.abi.bytes ∣ l.size
  align_ge : ∀ v ∈ d.variants, ∀ f ∈ v.fields, f.align.abi.bytes ≤ l.align.abi.bytes
  variants : List.Forall₂ (VariantValid dl l.size (tagSize dl discr kind)) d.variants sts

/-! ## The layouts of the variants -/

def VariantLayout (dl : TargetDataLayout) (repr : ReprOptions) (kind : StructKind) (v : VariantDef)
    (st : LayoutDetails) : Prop :=
  ∃ offsets, StructLayout dl v.fields repr kind st offsets

variable {repr : ReprOptions} {kind : StructKind}

theorem layoutVariants_spec (hpack : repr.pack = none) :
    ∀ {vs : List VariantDef} {j : Nat} {sts : List LayoutDetails},
    layoutVariants dl repr kind j vs = .ok sts → List.Forall₂ (VariantLayout dl repr kind) vs sts
  | [], j, sts, h => by
    cases h
    exact .nil
  | v :: vs, j, sts, h => by
    obtain ⟨st, hst, h⟩ := bind_eq_ok.1 h
    obtain ⟨rest, hrest, h⟩ := bind_eq_ok.1 h
    cases h
    obtain ⟨offsets, hlaid⟩ := univariant_spec hpack hst
    exact .cons ⟨offsets, hlaid.fields_eq, hlaid.order_eq, hlaid.placement, hlaid.start_le,
      hlaid.leading, hlaid.size_eq, hlaid.align_le⟩ (layoutVariants_spec hpack hrest)

theorem foldl_align_le (sts : List LayoutDetails) : ∀ (init : AbiAndPrefAlign) {p : Nat},
    (sts.foldl (fun align v => align.max v.align) init).abi.pow2 ≤ p ↔
      init.abi.pow2 ≤ p ∧ ∀ st ∈ sts, st.align.abi.pow2 ≤ p := by
  induction sts with
  | nil => simp
  | cons st sts ih =>
    intro init p
    rw [foldl_cons, ih, AbiAndPrefAlign.max_abi_le, forall_mem_cons, and_assoc]

theorem foldl_size_le (sts : List LayoutDetails) : ∀ (init : Nat) {n : Nat},
    sts.foldl (fun size v => Nat.max size v.size) init ≤ n ↔
      init ≤ n ∧ ∀ st ∈ sts, st.size ≤ n := by
  induction sts with
  | nil => simp
  | cons st sts ih =>
    intro init n
    rw [foldl_cons, ih, forall_mem_cons, ← and_assoc]
    exact and_congr_left' Nat.max_le

variable {fields sts : List LayoutDetails} {f l st : LayoutDetails} {offsets : List Nat}
  {i new o old : Nat}

theorem StructLayout.disjoint
    (h : StructLayout dl fields repr kind st offsets) {j : Nat} {g : LayoutDetails} {o' : Nat}
    (hij : i ≠ j) (hf : fields[i]? = some f) (hg : fields[j]? = some g)
    (ho : offsets[i]? = some o) (ho' : offsets[j]? = some o') :
    o + f.size ≤ o' ∨ o' + g.size ≤ o := by
  -- whichever of the two comes first in memory ends before the other
  rcases pairwise_or (inverseMemoryIndex_perm fields repr kind) h.placement.ordered
    (List.getElem?_eq_some_iff.1 hf).1 (List.getElem?_eq_some_iff.1 hg).1 hij with h | h
  · exact .inl (h f o o' hf ho ho')
  · exact .inr (h g o' o hg ho' ho)

/-! ## Layouts with a niche -/

def structAlign (dl : TargetDataLayout) (repr : ReprOptions) (fields : List LayoutDetails) :
    Align :=
  fields.foldl (fun a f => a.max f.align.abi)
    (dl.aggregateAlign.abi.max (repr.align.getD ⟨0⟩))

/-- The size of a struct: its fields one after the other in memory order, rounded up to its
alignment. -/
def structSize (dl : TargetDataLayout) (repr : ReprOptions) (fields : List LayoutDetails) : Nat :=
  alignTo (fieldsEnd fields (inverseMemoryIndex fields repr .alwaysSized) 0)
    (structAlign dl repr fields)

theorem structAlign_le {p : Nat} :
    (structAlign dl repr fields).pow2 ≤ p ↔ dl.aggregateAlign.abi.pow2 ≤ p ∧
      (∀ f ∈ fields, f.align.abi.pow2 ≤ p) ∧ ∀ a, repr.align = some a → a.pow2 ≤ p := by
  have hfold : ∀ (fields : List LayoutDetails) (init : Align),
      (fields.foldl (fun a f => a.max f.align.abi) init).pow2 ≤ p ↔
        init.pow2 ≤ p ∧ ∀ f ∈ fields, f.align.abi.pow2 ≤ p := by
    intro fields
    induction fields with
    | nil => simp
    | cons f fields ih =>
      intro init
      rw [foldl_cons, ih, forall_mem_cons, ← and_assoc]
      exact and_congr_left' Nat.max_le
  have hinit : (dl.aggregateAlign.abi.max (repr.align.getD ⟨0⟩)).pow2 ≤ p ↔
      dl.aggregateAlign.abi.pow2 ≤ p ∧ ∀ a, repr.align = some a → a.pow2 ≤ p := by
    refine Nat.max_le.trans (and_congr_right fun _ => ?_)
    cases repr.align with
    | none => simp
    | some a => simp
  rw [structAlign, hfold, hinit, and_assoc, and_comm (a := ∀ a, _)]

theorem StructLayout.size_eq_structSize (hpack : repr.pack = none)
    (h : StructLayout dl fields repr .alwaysSized st offsets) :
    st.size = structSize dl repr fields := by
  have halign : st.align.abi.pow2 = (structAlign dl repr fields).pow2 := by
    refine eq_of_forall_ge_iff fun p => ?_
    rw [h.align_le, structAlign_le, start_align_le hpack]
    simp
  have hstart : (Placing.start dl fields repr .alwaysSized).offset = 0 := rfl
  rw [h.size_eq, structSize, hstart, alignTo, alignTo, Align.bytes, Align.bytes, halign]

theorem alignTo_zero (a : Align) : alignTo 0 a = 0 := by
  have := a.bytes_pos
  rw [alignTo, zero_add, Nat.mod_eq_of_lt (by omega), Nat.sub_self]

theorem fieldsEnd_zero (h : ∀ f ∈ fields, f.size = 0) : ∀ l : List Nat, fieldsEnd fields l 0 = 0
  | [] => rfl
  | i :: l => by
    rw [fieldsEnd]
    split
    · rename_i f hf
      rw [alignTo_zero, h f (mem_of_getElem? hf), fieldsEnd_zero h l]
    · exact fieldsEnd_zero h l

theorem StructLayout.size_eq_zero (h : StructLayout dl fields repr .alwaysSized st offsets)
    (hzst : fields.all (·.isZst) = true) : st.size = 0 := by
  have hsize : ∀ f ∈ fields, f.size = 0 := fun f hf =>
    LayoutDetails.size_of_isZst (all_eq_true.1 hzst f hf)
  have hstart : (Placing.start dl fields repr .alwaysSized).offset = 0 := rfl
  rw [h.size_eq, hstart, fieldsEnd_zero hsize, alignTo_zero]

variable {v : VariantDef}

theorem StructLayout.variantValid (h : StructLayout dl v.fields repr kind st offsets)
    {size tag : Nat} (hsize : st.size ≤ size)
    (htag : tag ≤ (Placing.start dl v.fields repr kind).offset) :
    VariantValid dl size tag v st := by
  obtain ⟨memoryIndex, hfields⟩ := h.fields_eq
  refine ⟨offsets, memoryIndex, hfields, h.placement.length_eq, fun i f o hf ho => ?_,
    fun i j f g o o' => h.disjoint⟩
  obtain ⟨h1, h2⟩ := h.placement.inside i f o hf ho
  exact ⟨h2.trans hsize, h.placement.aligned i f o hf ho, .inr (htag.trans h1),
    fun _ => htag.trans h1⟩

variable {vs : List VariantDef}

theorem le_of_foldl_align (hpack : repr.pack = none) {p : Nat}
    (h : List.Forall₂ (VariantLayout dl repr .alwaysSized) vs sts)
    (hp : (sts.foldl (fun align v => align.max v.align) dl.aggregateAlign).abi.pow2 = p) :
    (∃ v ∈ vs, ∃ f ∈ v.fields, p ≤ f.align.abi.pow2) ∨ ∀ st ∈ sts, p ≤ st.align.abi.pow2 := by
  by_contra hno
  rw [not_or, not_forall] at hno
  obtain ⟨hfields, st0, hno⟩ := hno
  obtain ⟨hst0, hlt⟩ := Classical.not_imp.1 hno
  obtain ⟨v0, -, offsets0, hlaid0⟩ := forall₂_exists_left h hst0
  obtain ⟨hstart, -, hrepr⟩ := (hlaid0.align_le _).1 le_rfl
  rw [start_align_le hpack] at hstart
  have hle : p ≤ p - 1 := by
    rw [← hp, foldl_align_le]
    refine ⟨by omega, fun st hst => ?_⟩
    obtain ⟨v, hv, offsets, hlaid⟩ := forall₂_exists_left h hst
    rw [hlaid.align_le, start_align_le hpack]
    refine ⟨⟨by omega, nofun⟩, fun f hf => ?_, fun a ha => ?_⟩
    · have : ¬ p ≤ f.align.abi.pow2 := fun hp => hfields ⟨v, hv, f, hf, hp⟩
      omega
    · have := hrepr a ha
      omega
  omega

theorem field_align_le (h : List.Forall₂ (VariantLayout dl repr kind) vs sts) (hv : v ∈ vs) (hf : f ∈ v.fields) :
    f.align.abi.pow2 ≤
      (sts.foldl (fun align v => align.max v.align) dl.aggregateAlign).abi.pow2 := by
  obtain ⟨st, hst, offsets, hlaid⟩ := forall₂_exists_right h hv
  have hle := ((foldl_align_le sts dl.aggregateAlign).1 le_rfl).2 st hst
  exact ((hlaid.align_le _).1 hle).2.1 f hf

variable {index : Nat} {discr : Scalar}

/-- A layout with a niche is valid exactly when the alignments of all fields divide the size of the
variant with data. -/
theorem layoutNiche_valid_iff (hpack : d.repr.pack = none) {filling : NicheFilling}
    (hfilling : nicheFilling dl d = some filling) {dataful : VariantDef}
    (hdataful : d.variants[filling.datafulVariant]? = some dataful)
    (h : layoutNiche dl d filling = .ok l) {kind : DiscriminantKind} (hvariants : l.variants = .multiple discr kind index sts) :
    ValidLayout dl d l discr kind sts ↔ ∀ v ∈ d.variants, ∀ f ∈ v.fields,
      f.align.abi.bytes ∣ structSize dl d.repr dataful.fields := by
  obtain ⟨sts', st, offset, hniche⟩ := layoutNiche_eq_ok h
  cases hniche.variants_eq.symm.trans hvariants
  have hst := hniche.dataful_eq
  have hlaid := layoutVariants_spec hpack hniche.sts_eq
  obtain ⟨offsets, hlaid1⟩ := forall₂_getElem hlaid hdataful hst
  have hsize := hlaid1.size_eq_structSize hpack
  have hmax : ∀ v ∈ d.variants, ∀ f ∈ v.fields, _ := fun v hv f hf => field_align_le hlaid hv hf
  rw [← hsize, ← hniche.size_eq]
  rw [← hniche.align_eq] at hmax
  constructor
  · intro hvalid v hv f hf
    exact (bytes_dvd (hmax v hv f hf)).trans hvalid.size_dvd
  · intro hdvd
    refine ⟨?_, fun v hv f hf => Nat.pow_le_pow_right two_pos (hmax v hv f hf), ?_⟩
    · rw [hniche.align_eq]
      rcases le_of_foldl_align hpack hlaid rfl with ⟨v, hv, f, hf, hle⟩ | hle
      · exact (bytes_dvd hle).trans (hdvd v hv f hf)
      · rw [hniche.size_eq]
        exact (bytes_dvd (hle st (mem_of_getElem? hst))).trans hlaid1.size_dvd
    · obtain ⟨-, -, -, hscan, -⟩ := nicheFilling_eq_some hfilling
      refine forall₂_imp_getElem hlaid fun j v st' hv hst' hvariant => ?_
      obtain ⟨offsets', hlaid'⟩ := hvariant
      refine hlaid'.variantValid ?_ (Nat.zero_le _)
      by_cases hj : j = filling.datafulVariant
      · subst hj
        cases hst.symm.trans hst'
        exact hniche.size_eq.ge
      · rw [hlaid'.size_eq_zero (hscan.other j v hv (by omega)).1]
        exact Nat.zero_le _

/-! ## Layouts with a tag -/

theorem movable_of_not_fixed (h : ¬ (!f.isZst || f.align.abi.bytes ≠ 1) = true) :
    f.size = 0 ∧ f.align.abi.bytes = 1 := by
  simp only [ne_eq, decide_not, Bool.or_eq_true, Bool.not_eq_true', not_or, Bool.not_eq_false,
    decide_eq_false_iff_not, not_not] at h
  exact ⟨LayoutDetails.size_of_isZst h.1, h.2⟩

theorem find_filterMap_getElem {α : Type} (fields : List α) (p : α → Bool) : ∀ order : List Nat,
    (∃ pre i rest f, order = pre ++ i :: rest ∧ fields[i]? = some f ∧ p f = true ∧
      (order.filterMap (fields[·]?)).find? p = some f ∧
      ∀ j ∈ pre, ∀ g, fields[j]? = some g → ¬ p g = true) ∨
    ((order.filterMap (fields[·]?)).find? p = none ∧
      ∀ j ∈ order, ∀ g, fields[j]? = some g → ¬ p g = true)
  | [] => .inr ⟨rfl, nofun⟩
  | i :: order => by
    have ih := find_filterMap_getElem fields p order
    cases hi : fields[i]? with
    | none =>
      rw [filterMap_cons_none hi]
      have hnone : ∀ g, fields[i]? = some g → ¬ p g = true := fun g hg => by simp [hi] at hg
      rcases ih with ⟨pre, j, rest, f, rfl, hf, hp, hfind, hpre⟩ | ⟨hfind, hall⟩
      · exact .inl ⟨i :: pre, j, rest, f, rfl, hf, hp, hfind, forall_mem_cons.2 ⟨hnone, hpre⟩⟩
      · exact .inr ⟨hfind, forall_mem_cons.2 ⟨hnone, hall⟩⟩
    | some f =>
      rw [filterMap_cons_some hi]
      by_cases hp : p f = true
      · exact .inl ⟨[], i, order, f, rfl, hi, hp, find?_cons_of_pos hp, nofun⟩
      · rw [find?_cons_of_neg hp]
        have hnone : ∀ g, fields[i]? = some g → ¬ p g = true := fun g hg => by
          cases hi.symm.trans hg
          exact hp
        rcases ih with ⟨pre, j, rest, f, rfl, hf, hp, hfind, hpre⟩ | ⟨hfind, hall⟩
        · exact .inl ⟨i :: pre, j, rest, f, rfl, hf, hp, hfind, forall_mem_cons.2 ⟨hnone, hpre⟩⟩
        · exact .inr ⟨hfind, forall_mem_cons.2 ⟨hnone, hall⟩⟩

theorem StructLayout.align_le_offset (h : StructLayout dl fields repr kind st offsets)
    (hpos : 0 < (Placing.start dl fields repr kind).offset)
    (hf : fields[i]? = some f) (ho : offsets[i]? = some o) : f.align.abi.bytes ≤ o :=
  have hle := (h.placement.inside i f o hf ho).1
  Nat.le_of_dvd (by omega) (h.placement.aligned i f o hf ho)

variable {a : Align}

/-- A field either starts no earlier than the smallest alignment of the fields that cannot be moved,
or it can be moved and is at the start. -/
theorem StructLayout.fixed_or_leading (h : StructLayout dl fields repr kind st offsets)
    (ha : ∀ f, firstFixed fields st = some f → a.pow2 ≤ f.align.abi.pow2)
    (hpos : 0 < (Placing.start dl fields repr kind).offset) (hf : fields[i]? = some f)
    (ho : offsets[i]? = some o) : a.bytes ≤ o ∨
    (f.size = 0 ∧ f.align.abi.bytes = 1 ∧ o = (Placing.start dl fields repr kind).offset) := by
  have hi : i ∈ inverseMemoryIndex fields repr kind := by
    rw [mem_inverseMemoryIndex]
    exact (List.getElem?_eq_some_iff.1 hf).1
  have hmovable : ∀ pre rest, inverseMemoryIndex fields repr kind = pre ++ rest →
      (∀ j ∈ pre, ∀ g, fields[j]? = some g → ¬ (!g.isZst || g.align.abi.bytes ≠ 1) = true) →
      i ∈ pre → f.size = 0 ∧ f.align.abi.bytes = 1 ∧
        o = (Placing.start dl fields repr kind).offset := by
    intro pre rest heq hpre hi
    have hstart := h.leading pre rest heq
      (fun j hj g hg => movable_of_not_fixed (hpre j hj g hg)) i hi
    obtain ⟨hsize, halign⟩ := movable_of_not_fixed (hpre i hi f hf)
    exact ⟨hsize, halign, Option.mem_unique ho hstart⟩
  have hfirst := find_filterMap_getElem fields (fun f => !f.isZst || f.align.abi.bytes ≠ 1)
    (inverseMemoryIndex fields repr kind)
  rw [firstFixed, h.order_eq] at ha
  rcases hfirst with ⟨pre, k, rest, g, heq, hg, -, hfind, hpre⟩ | ⟨-, hall⟩
  · have hk : k < offsets.length := by
      rw [h.placement.length_eq]
      exact (List.getElem?_eq_some_iff.1 hg).1
    have hok := getElem?_eq_getElem hk
    have hfixed : a.bytes ≤ offsets[k] :=
      (Nat.pow_le_pow_right two_pos (ha g hfind)).trans (h.align_le_offset hpos hg hok)
    rw [heq, mem_append, mem_cons] at hi
    rcases hi with hi | rfl | hi
    · exact .inr (hmovable pre _ heq hpre hi)
    · cases hok.symm.trans ho
      exact .inl hfixed
    · have hordered := h.placement.ordered
      rw [heq, pairwise_append, pairwise_cons] at hordered
      have := hordered.2.1.1 i hi g _ _ hg hok ho
      exact .inl (by omega)
  · exact .inr (hmovable _ [] (append_nil _).symm hall hi)

theorem foldl_startAlign_le : ∀ (l : List (VariantDef × LayoutDetails)) (init : Align) (p : Nat),
    p ≤ (l.foldl (fun a p =>
      match firstFixed p.1.fields p.2 with
      | some f => a.min f.align.abi
      | none => a) init).pow2 ↔
    p ≤ init.pow2 ∧ ∀ q ∈ l, ∀ f, firstFixed q.1.fields q.2 = some f → p ≤ f.align.abi.pow2
  | [], init, p => by simp
  | q :: l, init, p => by
    rw [foldl_cons, foldl_startAlign_le, forall_mem_cons]
    cases hq : firstFixed q.1.fields q.2 with
    | none => simp
    | some f =>
      simp only [Option.some.injEq, forall_eq', ← and_assoc]
      exact and_congr_left' Nat.le_min

theorem moveOffsets_spec : ∀ {offsets offsets' : List Nat},
    moveOffsets old new offsets = .ok offsets' →
    offsets'.length = offsets.length ∧ ∀ (i : Nat) o', offsets'[i]? = some o' →
      ∃ o, offsets[i]? = some o ∧ (o = old ∧ o' = new ∨ old < o ∧ o' = o)
  | [], offsets', h => by
    cases h
    exact ⟨rfl, nofun⟩
  | o :: offsets, offsets', h => by
    obtain ⟨o1, ho1, h⟩ := bind_eq_ok.1 h
    obtain ⟨rest, hrest, h⟩ := bind_eq_ok.1 h
    cases h
    obtain ⟨hlen, hget⟩ := moveOffsets_spec hrest
    refine ⟨by rw [length_cons, length_cons, hlen], ?_⟩
    rintro (_ | i) o' ho'
    · cases ho'
      refine ⟨o, rfl, ?_⟩
      rw [moveOffset] at ho1
      split at ho1
      · obtain ⟨_, heq, h⟩ := bind_eq_ok.1 ho1
        cases h
        exact .inl ⟨by simpa using assertThat_eq_ok.1 heq, rfl⟩
      · rename_i hgt
        cases ho1
        exact .inr ⟨Nat.lt_of_not_ge hgt, rfl⟩
    · exact hget i o' ho'

theorem patchVariants_spec : ∀ {sts sts' : List LayoutDetails},
    patchVariants old new sts = .ok sts' →
    List.Forall₂ (fun st st' => patchVariant old new st = .ok st') sts sts'
  | [], sts', h => by
    cases h
    exact .nil
  | st :: sts, sts', h => by
    obtain ⟨st', hst', h⟩ := bind_eq_ok.1 h
    obtain ⟨rest, hrest, h⟩ := bind_eq_ok.1 h
    cases h
    exact .cons hst' (patchVariants_spec hrest)

theorem StructLayout.variantValid_patch {st' : LayoutDetails}
    (h : StructLayout dl v.fields repr kind st offsets) {size : Nat}
    (ha : ∀ f, firstFixed v.fields st = some f → a.pow2 ≤ f.align.abi.pow2) (hnew : a.bytes = new)
    (hpos : 0 < old) (hlt : old < new) (hstart : old ≤ (Placing.start dl v.fields repr kind).offset)
    (hexact : (∀ int : Integer, (int.align dl).abi.bytes ≤ int.size) →
      (Placing.start dl v.fields repr kind).offset = old)
    (hsize : st.size ≤ size) (hroom : new ≤ size) (hpatch : patchVariant old new st = .ok st') :
    VariantValid dl size new v st' := by
  obtain ⟨memoryIndex, hfields⟩ := h.fields_eq
  rw [patchVariant, hfields] at hpatch
  obtain ⟨offsets', hmove, hpatch⟩ := bind_eq_ok.1 hpatch
  cases hpatch
  obtain ⟨hlen, hget⟩ := moveOffsets_spec hmove
  have hcases : ∀ {i : Nat} {f : LayoutDetails} {o : Nat}, v.fields[i]? = some f →
      offsets[i]? = some o → new ≤ o ∨ (f.size = 0 ∧ f.align.abi.bytes = 1 ∧
        o = (Placing.start dl v.fields repr kind).offset) := fun hf ho =>
    hnew ▸ h.fixed_or_leading ha (by omega) hf ho
  refine ⟨offsets', memoryIndex, rfl, hlen.trans h.placement.length_eq, fun i f o' hf ho' => ?_,
    fun i j f g oi' oj' hij hf hg hoi' hoj' => ?_⟩
  · obtain ⟨o, ho, ⟨rfl, rfl⟩ | ⟨hgt, rfl⟩⟩ := hget i o' ho'
    · rcases hcases hf ho with hge | ⟨hzero, hone, -⟩
      · omega
      · exact ⟨by omega, by rw [hone]; exact one_dvd _, .inr le_rfl, fun _ => le_rfl⟩
    · refine ⟨(h.placement.inside i f _ hf ho).2.trans hsize, h.placement.aligned i f _ hf ho, ?_⟩
      rcases hcases hf ho with hge | ⟨hzero, -, heq⟩
      · exact ⟨.inr hge, fun _ => hge⟩
      · exact ⟨.inl hzero, fun hnatural => by have := hexact hnatural; omega⟩
  · obtain ⟨oi, hoi, hi⟩ := hget i oi' hoi'
    obtain ⟨oj, hoj, hj⟩ := hget j oj' hoj'
    have hdisj := h.disjoint hij hf hg hoi hoj
    have hci := hcases hf hoi
    have hcj := hcases hg hoj
    omega

theorem Placing.start_prefixed_offset (hpack : repr.pack = none)
    (fields : List LayoutDetails) (size : Nat) (align : Align) :
    (Placing.start dl fields repr (.prefixed size align)).offset = alignTo size align := by
  simp only [start, hpack]

theorem alignTo_of_le {int : Integer} (h : a.bytes ≤ int.size) : alignTo int.size a = int.size := by
  have hdvd : a.bytes ∣ int.size := pow_dvd_pow 2 ((Nat.pow_le_pow_iff_right (by decide)).1 h)
  obtain ⟨k, hk⟩ := hdvd
  have hpos := a.bytes_pos
  rw [alignTo, hk]
  rw [Nat.mul_add_mod, Nat.mod_eq_of_lt (by omega), Nat.add_sub_cancel]

variable {signed : Bool} {sts' : List LayoutDetails} {minIty ity : Integer}

theorem TaggedLayout.size_le
    (h : TaggedLayout dl d l minIty ity signed sts sts') (hst : st ∈ sts) : st.size ≤ l.size := by
  have hle := ((foldl_size_le sts 0).1 le_rfl).2 st hst
  rw [h.size_eq]
  exact hle.trans (le_alignTo _ _)

theorem Placing.le_start_prefixed (dl : TargetDataLayout)
    (fields : List LayoutDetails) (size : Nat) (align : Align) :
    size ≤ (Placing.start dl fields repr (.prefixed size align)).offset := by
  exact le_alignTo _ _

theorem TaggedLayout.tag_le (hpack : d.repr.pack = none)
    (h : TaggedLayout dl d l minIty ity signed sts sts')
    (hv : v ∈ d.variants) : ity.size ≤ l.size := by
  have hlaid := layoutVariants_spec hpack h.sts_eq
  have hstart := fun fields => @le_start_prefixed d.repr dl fields minIty.size
    (prefixAlign dl d minIty)
  rcases widenTag_eq_ok h.widen_eq with ⟨rfl, -⟩ | ⟨-, -, -, hbytes, -⟩
  · obtain ⟨st, hst, offsets, hlaid1⟩ := forall₂_exists_right hlaid hv
    exact ((hstart v.fields).trans hlaid1.start_le).trans (h.size_le hst)
  · have hmin := foldl_startAlign_le (l := d.variants.zip sts) ⟨8⟩
    obtain ⟨q, hq, f, hf⟩ : ∃ q ∈ d.variants.zip sts, ∃ f,
        firstFixed q.1.fields q.2 = some f := by
      by_contra hno
      have h8 : 8 ≤ (startAlign d.variants sts).pow2 :=
        (hmin 8).2 ⟨le_rfl, fun q hq f hf => absurd ⟨q, hq, f, hf⟩ hno⟩
      have hle : 2 ^ 8 ≤ ity.size := hbytes ▸ Nat.pow_le_pow_right two_pos h8
      have : ity.size ≤ 16 := by cases ity <;> decide
      omega
    have ha : ity.size ≤ f.align.abi.bytes := by
      rw [hbytes]
      exact Nat.pow_le_pow_right two_pos (((hmin _).1 le_rfl).2 q hq f hf)
    obtain ⟨offsets, hlaid1⟩ := forall₂_zip hlaid hq
    obtain ⟨i, -, hi⟩ := mem_filterMap.1 (mem_of_find?_eq_some hf)
    have hio : i < offsets.length := by
      rw [hlaid1.placement.length_eq]
      exact (List.getElem?_eq_some_iff.1 hi).1
    have hoi := getElem?_eq_getElem hio
    have hpos : 0 < minIty.size := Nat.two_pow_pos _
    have hfixed := hlaid1.align_le_offset (hpos.trans_le (hstart q.1.fields)) hi hoi
    have hin := (hlaid1.placement.inside i f _ hi hoi).2
    have hst := h.size_le (of_mem_zip hq).2
    omega

theorem layoutTagged_valid (hpack : d.repr.pack = none)
    (h : layoutTagged dl d = .ok l) {kind : DiscriminantKind} (hvariants : l.variants = .multiple discr kind index sts) :
    ValidLayout dl d l discr kind sts := by
  obtain ⟨minIty, ity, signed, sts0, sts', htagged⟩ := layoutTagged_eq_ok h
  obtain ⟨_, _, hvariants'⟩ := htagged.variants_eq
  cases hvariants.symm.trans hvariants'
  have hlaid := layoutVariants_spec hpack htagged.sts_eq
  have hstart := fun fields => @le_start_prefixed d.repr dl fields minIty.size
    (prefixAlign dl d minIty)
  refine ⟨htagged.size_eq ▸ dvd_alignTo _ _, fun v hv f hf => ?_, ?_⟩
  · rw [htagged.align_eq]
    exact Nat.pow_le_pow_right two_pos (field_align_le hlaid hv hf)
  · rcases widenTag_eq_ok htagged.widen_eq with ⟨rfl, rfl⟩ | ⟨hrank, hc, -, hbytes, hpatch⟩
    · refine forall₂_imp_getElem hlaid fun j v st hv hst hvariant => ?_
      obtain ⟨offsets, hlaid1⟩ := hvariant
      exact hlaid1.variantValid (htagged.size_le (mem_of_getElem? hst)) (hstart v.fields)
    · have hpos : 0 < minIty.size := Nat.two_pow_pos _
      have hlt : minIty.size < ity.size := Nat.pow_lt_pow_right (by decide) hrank
      have hmin := (foldl_startAlign_le (d.variants.zip sts0) ⟨8⟩ _).1 le_rfl
      refine forall₂_trans_zip hlaid (patchVariants_spec hpatch) fun v st st' hmem hvariant hst' => ?_
      obtain ⟨offsets, hlaid1⟩ := hvariant
      obtain ⟨hv, hst⟩ := of_mem_zip hmem
      refine hlaid1.variantValid_patch (hmin.2 (v, st) hmem) hbytes.symm hpos hlt (hstart v.fields)
        (fun hnatural => ?_) (htagged.size_le hst) (htagged.tag_le hpack hv) hst'
      rw [start_prefixed_offset hpack, prefixAlign, hc]
      exact alignTo_of_le (hnatural minIty)

/-! ## All enums -/

/-- The layout of an enum with several variants is valid exactly when, if the variants are encoded in
a niche, the alignment of every field divides the size of the variant with data. -/
theorem layoutEnum_valid_iff (dl : TargetDataLayout) (d : AdtDef) (hpack : d.repr.pack = none)
    (l : LayoutDetails) (discr : Scalar) (kind : DiscriminantKind) (index : Nat)
    (sts : List LayoutDetails) (h : layoutEnum dl d = .ok l)
    (hvariants : l.variants = .multiple discr kind index sts) : ValidLayout dl d l discr kind sts ↔
      ∀ filling dataful, nicheFilling dl d = some filling →
        d.variants[filling.datafulVariant]? = some dataful → ∀ v ∈ d.variants, ∀ f ∈ v.fields,
          f.align.abi.bytes ∣ structSize dl d.repr dataful.fields := by
  unfold layoutEnum at h
  split at h
  · cases h
    cases hvariants
  split at h
  · split at h
    · cases (layoutSingle_variants h).symm.trans hvariants
    · cases h
  split at h
  · rename_i filling hfilling
    obtain ⟨-, -, -, -, dataful, hdataful, -⟩ := nicheFilling_eq_some hfilling
    rw [layoutNiche_valid_iff hpack hfilling hdataful h hvariants]
    constructor
    · intro hdvd filling' dataful' hfilling' hdataful'
      cases hfilling.symm.trans hfilling'
      cases hdataful.symm.trans hdataful'
      exact hdvd
    · exact fun hdvd => hdvd filling dataful hfilling hdataful
  · rename_i hfilling
    refine ⟨fun _ filling dataful hfilling' => ?_, fun _ => layoutTagged_valid hpack h hvariants⟩
    cases hfilling.symm.trans hfilling'

/-- The layout of `enum E { A(&'static u8), B(Z) }` with a unit struct `Z` of alignment 2. -/
theorem layoutEnum_valid_iff_reference : ∃ l discr kind index sts,
    layoutEnum Sample.target (enumOf [[reference], [zst ⟨1⟩]]) = .ok l ∧
    l.variants = .multiple discr kind index sts ∧
    ValidLayout Sample.target (enumOf [[reference], [zst ⟨1⟩]]) l discr kind sts := by
  refine ⟨_, _, _, _, _, rfl, rfl, ?_⟩
  refine (layoutEnum_valid_iff Sample.target _ rfl _ _ _ _ _ rfl rfl).2 ?_
  rintro filling dataful ⟨⟩ ⟨⟩ v hv f hf
  obtain rfl | rfl : v = ⟨[reference], none⟩ ∨ v = ⟨[zst ⟨1⟩], none⟩ := by
    simpa [enumOf] using hv
  · cases mem_singleton.1 hf
    decide
  · cases mem_singleton.1 hf
    decide

/-- With a `Z` of alignment 16, the size of the enum is 8 and its alignment is 16. -/
theorem layoutEnum_not_valid_overaligned : ∃ l discr kind index sts,
    layoutEnum Sample.target (enumOf [[reference], [zst ⟨4⟩]]) = .ok l ∧
    l.variants = .multiple discr kind index sts ∧ l.size = 8 ∧ l.align.abi.bytes = 16 ∧
    ¬ ValidLayout Sample.target (enumOf [[reference], [zst ⟨4⟩]]) l discr kind
      sts := by
  refine ⟨_, _, _, _, _, rfl, rfl, rfl, rfl, fun h => ?_⟩
  exact absurd h.size_dvd (by decide)

end Tortis.Layout
