import Tortis.Interpret.Access
import Tortis.Layout.Discriminants
import Tortis.Layout.Valid

/-!
# Reading and writing the variant of an enum

`write_discriminant_index` (`interpret/place.rs`) and `read_discriminant` (`interpret/operand.rs`) on
an enum in memory, at an offset of an allocation. A variant that is written is read back, for every
layout that `layout_raw_uncached` computes and every payload that the interpreter's validity check
accepts (`readDiscriminant_writeDiscriminantIndex`).
-/

namespace Tortis.Interpret

open List InterpResult Layout Layout.Integer Outcome AdtDef Layout.Sample

open Layout (TargetDataLayout AdtDef LayoutDetails Variants DiscriminantKind Primitive)

variable {Tag : Type}

/-! ## Machine arithmetic -/

/-- The two operations that discriminants need of `BinOp`. -/
inductive BinOp where
  | add
  | sub

/-- `binary_int_op`, on two values of an integer type: signed operands are extended, the operation
overflows at 128 bits, and the result is truncated. -/
def binaryIntOp (op : BinOp) (l r size : Nat) (signed : Bool) : Nat :=
  let eval (x y : Int) : Int := match op with
    | .add => x + y
    | .sub => x - y
  if signed then
    truncate (asU128 (Int.bmod
      (eval (signExtend l size) (signExtend r size)) (2 ^ 128))) size
  else truncate (asU128 (eval l r)) size

section
variable (dl : TargetDataLayout)

/-- `to_int_ty`: the size and the sign of the integer type with the size of a primitive. -/
def toIntTy : Primitive → Outcome (Nat × Bool)
  | .int i signed => .ok (i.size, signed)
  | .pointer => .ok (dl.pointerSize.size, false)
  | .float _ => .error (.panic "floats do not have an int type")

/-- Code of the layouts that does not fail, in the interpreter. -/
def ofLayout {α : Type} : Layout.LayoutResult α → InterpResult α
  | .ok a => .ok a
  | .error (.panic msg) => .error (.halt (.panic msg))
  | .error (.error _) => .error (.halt (.panic "layout error"))

def invalidDiscriminant {α : Type} : InterpResult α := .error (.error (.ub "InvalidDiscriminant"))

/-! ## Writing and reading -/

section
variable (cx : InterpCx)

/-- `write_discriminant_index`, for an enum at `base`. The interpreter negates the bits of the index
when it compares it with the number of variants. -/
def writeDiscriminantIndex (d : AdtDef)
    (layout : LayoutDetails) (variantIndex base : Nat) (a : Allocation Tag) :
    InterpResult (Allocation Tag) :=
  match layout.variants with
  | .single index => if index ≠ variantIndex then invalidDiscriminant else .ok a
  | .multiple discr .tag discrIndex _ =>
    if ¬ variantIndex < d.variants.length then invalidDiscriminant
    else do
      let size := discr.value.size dl
      let discrVal := truncate (d.discriminantForVariant dl variantIndex) size
      let offset ← ofLayout (layout.fields.offset discrIndex)
      let scalar ← Scalar.fromUint discrVal size
      a.writeScalar cx (base + offset) (.scalar scalar) size
  | .multiple discr (.niche dataful start _ nicheStart) discrIndex _ =>
    if 2 ^ 64 - 1 - variantIndex < d.variants.length then invalidDiscriminant
    else if variantIndex = dataful then .ok a
    else if variantIndex < start then
      .error (.halt (.panic "overflow computing relative variant idx"))
    else do
      let (size, signed) ← toIntTy dl discr.value
      let _ ← (Scalar.fromUint nicheStart size : Outcome (Scalar Tag))
      let _ ← (Scalar.fromUint (variantIndex - start) size : Outcome (Scalar Tag))
      let discrVal := binaryIntOp .add (variantIndex - start) nicheStart size signed
      let offset ← ofLayout (layout.fields.offset discrIndex)
      let scalar ← Scalar.fromUint discrVal size
      a.writeScalar cx (base + offset) (.scalar scalar) size

def variantOfTag (d : AdtDef) (value : Primitive)
    (rawDiscr : ScalarMaybeUndef Tag) : InterpResult (Nat × Nat) :=
  match rawDiscr with
  | .undef => invalidDiscriminant
  | .scalar scalar => do
    let bitsOrPtr ← scalar.toBitsOrPtr cx (value.size dl)
    match bitsOrPtr with
    | .error _ => invalidDiscriminant
    | .ok bits =>
      let signed := match value with
        | .int _ signed => signed
        | _ => false
      let realDiscr := if signed then
          truncate (asU128 (signExtend bits (value.size dl)))
            (d.discrInteger dl).size
        else bits
      match (d.discriminants dl).findIdx? (· = realDiscr) with
      | some index => .ok (realDiscr, index)
      | none => invalidDiscriminant

section
variable (ptrMayBeNull : Pointer Tag → Bool)

/-- The discriminant and the variant that a niche stands for. An abstract pointer is only known not to
be null. -/
def variantOfNiche (d : AdtDef) (value : Primitive) (dataful start stop nicheStart : Nat)
    (rawDiscr : ScalarMaybeUndef Tag) : InterpResult (Nat × Nat) :=
  match rawDiscr with
  | .undef => invalidDiscriminant
  | .scalar scalar => do
    let bitsOrPtr ← scalar.toBitsOrPtr cx (value.size dl)
    match bitsOrPtr with
    | .error ptr =>
      if nicheStart = 0 ∧ start = stop ∧ ptrMayBeNull ptr = false then .ok (dataful, dataful)
      else invalidDiscriminant
    | .ok rawDiscr => do
      let (size, signed) ← toIntTy dl value
      let _ ← (Scalar.fromUint rawDiscr size : Outcome (Scalar Tag))
      let _ ← (Scalar.fromUint nicheStart size : Outcome (Scalar Tag))
      let relative := binaryIntOp .sub rawDiscr nicheStart size signed
      if relative ≤ stop - start then do
        assert (start + relative < 2 ^ 32) "oveflow computing absolute variant idx"
        assert (start + relative < d.variants.length) "assertion failed: variant_index"
        .ok (start + relative, start + relative)
      else .ok (dataful, dataful)

/-- `read_discriminant`, for an enum at `base`: the value of the discriminant and the variant. -/
def readDiscriminant (d : AdtDef) (layout : LayoutDetails) (base : Nat) (a : Allocation Tag) :
    InterpResult (Nat × Nat) :=
  match layout.variants with
  | .single index => .ok (d.discriminantForVariant dl index, index)
  | .multiple discr kind discrIndex _ => do
    let offset ← ofLayout (layout.fields.offset discrIndex)
    let rawDiscr ← a.readScalar cx (base + offset) (discr.value.size dl)
    match kind with
    | .tag => variantOfTag dl cx d discr.value rawDiscr
    | .niche dataful start stop nicheStart =>
      variantOfNiche dl cx ptrMayBeNull d discr.value dataful start stop nicheStart rawDiscr

/-- `visit_scalar` of the validity check, for the bits of a scalar: full ranges accept everything,
and an abstract pointer is accepted where only null is excluded. -/
def ScalarValid (s : Layout.Scalar) :
    ScalarMaybeUndef Tag → Prop
  | .undef => (s.validStart = 0 ∧ s.validEnd = 2 ^ s.value.bits dl - 1) ∨
      s.validEnd + 1 = s.validStart
  | .scalar (.raw data _) => s.Contains data
  | .scalar (.ptr ptr) => ((s.validStart = 0 ∧ s.validEnd = 2 ^ s.value.bits dl - 1) ∨
      s.validEnd + 1 = s.validStart) ∨
    (s.validStart = 1 ∧ s.validEnd = 2 ^ s.value.bits dl - 1 ∧ ptrMayBeNull ptr = false)

/-- The payload of a variant, in memory, holds valid values where its fields have niches. -/
def PayloadValid
    (fields : List LayoutDetails) (st : LayoutDetails) (base : Nat) (a : Allocation Tag) : Prop :=
  ∀ (j : Nat) f n offset, fields[j]? = some f → f.largestNiche = some n →
    st.fields.offset j = .ok offset →
    ∃ val, a.readScalar cx (base + (offset + n.offset)) (n.scalar.value.size dl) = .ok val ∧
      ScalarValid dl ptrMayBeNull n.scalar val

end

end

end

/-- A field's niche is an integer or a pointer inside of the field, with a range of its values. -/
structure NicheOk (dl : TargetDataLayout) (f : LayoutDetails) (n : Layout.Niche) : Prop where
  inside : n.offset + n.scalar.value.size dl ≤ f.size
  inRange : n.scalar.InRange dl
  notFloat : ∀ ty, n.scalar.value ≠ .float ty

/-- An enum as the source language promises it: it is not packed, its discriminants are distinct values
of their type, its variants have indices, and the niches of its fields are valid. -/
structure EnumOk (dl : TargetDataLayout) (d : AdtDef) : Prop where
  pack : d.repr.pack = none
  discrs : d.DiscrsOk dl
  length_le : d.variants.length ≤ variantIdxMax
  niche : ∀ v ∈ d.variants, ∀ f ∈ v.fields, ∀ n, f.largestNiche = some n → NicheOk dl f n

/-! ## Lemmas about the machine arithmetic -/

theorem toIntTy_eq_ok {dl : TargetDataLayout} {value : Primitive} (h : ∀ ty, value ≠ .float ty) :
    ∃ (i : Layout.Integer) (signed : Bool), toIntTy dl value = .ok (i.size, signed) ∧
      value.size dl = i.size := by
  cases value with
  | int i signed => exact ⟨i, signed, rfl, rfl⟩
  | float ty => exact absurd rfl (h ty)
  | pointer =>
    refine ⟨dl.ptrSizedInteger, false, ?_, ?_⟩
    · rw [toIntTy, TargetDataLayout.ptrSizedInteger]
      cases dl.pointerSize <;> rfl
    · rw [Primitive.size, TargetDataLayout.ptrSizedInteger]
      cases dl.pointerSize <;> rfl

section
variable (i : Layout.Integer)

theorem bmod_emod_two_pow (y : Int) :
    Int.bmod y (2 ^ 128) % (2 ^ i.bits : Nat) = y % (2 ^ i.bits : Nat) := by
  have hbmod : Int.bmod y (2 ^ 128) % (2 ^ 128 : Nat) = y % (2 ^ 128 : Nat) := Int.bmod_emod
  rw [← Int.emod_emod_of_dvd _ i.two_pow_bits_dvd, hbmod, Int.emod_emod_of_dvd _ i.two_pow_bits_dvd]

theorem binaryIntOp_add (l r : Nat) (signed : Bool) :
    binaryIntOp .add l r i.size signed = (l + r) % 2 ^ i.bits := by
  rw [← Int.natCast_inj, Int.natCast_mod, Int.natCast_add, binaryIntOp]
  cases signed with
  | true =>
    rw [if_pos rfl, truncate_asU128, bmod_emod_two_pow, Int.add_emod, emod_signExtend,
      emod_signExtend, ← Int.add_emod]
  | false => rw [if_neg Bool.false_ne_true, truncate_asU128]

theorem binaryIntOp_sub (l r : Nat) (signed : Bool) :
    (binaryIntOp .sub l r i.size signed : Int) = (l - r : Int) % (2 ^ i.bits : Nat) := by
  rw [binaryIntOp]
  cases signed with
  | true =>
    rw [if_pos rfl, truncate_asU128, bmod_emod_two_pow, Int.sub_emod, emod_signExtend,
      emod_signExtend, ← Int.sub_emod]
  | false => rw [if_neg Bool.false_ne_true, truncate_asU128]

theorem binaryIntOp_sub_add {l r : Nat} (hl : l < 2 ^ i.bits) (signed : Bool) :
    binaryIntOp .sub ((l + r) % 2 ^ i.bits) r i.size signed = l := by
  rw [← Int.natCast_inj, binaryIntOp_sub, Int.natCast_mod, Int.natCast_add, Int.emod_sub_emod,
    Int.add_sub_cancel]
  exact Int.emod_eq_of_lt (by omega) (by omega)

theorem binaryIntOp_add_sub {l : Nat} (hl : l < 2 ^ i.bits) (r : Nat)
    (signed : Bool) : (r + binaryIntOp .sub l r i.size signed) % 2 ^ i.bits = l := by
  rw [← Int.natCast_inj, Int.natCast_mod, Int.natCast_add, binaryIntOp_sub, Int.add_emod_emod,
    show (r : Int) + (l - r) = l by omega]
  exact Int.emod_eq_of_lt (by omega) (by omega)

end

/-! ## Lemmas about the memory -/

section
variable {cx : InterpCx} {a : Allocation Tag} {off size : Nat}

theorem writeScalar_raw (hbo : cx.byteOrder.Lawful) (h : a.WF cx) (hin : off + size ≤ a.size)
    (hpos : 1 ≤ size) (hle : size ≤ 16) {data : Nat} (hdata : data < 2 ^ (8 * size)) :
    ∃ a', a.writeScalar cx off (.scalar (.raw data size)) size = .ok a' := by
  obtain ⟨a1, ha1, -⟩ := Allocation.getBytesMut_spec h hin
  have hfit : data < 256 ^ size := by rwa [show 256 = 2 ^ 8 by rfl, ← pow_mul]
  have hbits : (Scalar.raw data size : Scalar Tag).toBitsOrPtr cx size = .ok (.ok data) := by
    simp [Scalar.toBitsOrPtr, assert, show size ≠ 0 by omega]
  refine ⟨a1.setBytes off (encode cx.endian size data), ?_⟩
  refine bind_eq_ok.2 ⟨_, lift_eq_ok.2 hbits, ?_⟩
  refine bind_eq_ok.2 ⟨a1, lift_eq_ok.2 ha1, ?_⟩
  exact bind_eq_ok.2 ⟨_, lift_eq_ok.2 (hbo.write_eq _ _ _ hpos hle hfit), rfl⟩

variable {s : Scalar Tag}

theorem fromUint_eq_ok {i : Nat} :
    Scalar.fromUint i size = .ok s ↔ i < 2 ^ (8 * size) ∧ s = .raw i size := by
  rw [Scalar.fromUint, assert]
  split
  · rename_i hlt
    simp [of_decide_eq_true hlt, eq_comm]
  · rename_i hge
    simp only [decide_eq_true_eq] at hge
    simp [hge]

theorem readScalar_cases (h : a.readScalar cx off size = .ok (.scalar s)) :
    (∃ data, s = .raw data size ∧ data < 2 ^ (8 * size)) ∨
      ∃ ptr, s = .ptr ptr ∧ size = cx.pointerSize := by
  obtain ⟨bytes, -, h⟩ := bind_eq_ok.1 h
  split at h
  · cases h
  · cases h
  · obtain ⟨bits, -, h⟩ := bind_eq_ok.1 h
    split at h
    · obtain ⟨_, -, h⟩ := bind_eq_ok.1 h
      obtain ⟨r, hr, h⟩ := bind_eq_ok.1 h
      cases h
      obtain ⟨hlt, rfl⟩ := fromUint_eq_ok.1 (lift_eq_ok.1 hr)
      exact .inl ⟨bits, rfl, hlt⟩
    · rename_i hsize
      split at h
      · cases h
        exact .inr ⟨_, rfl, not_not.1 hsize⟩
      · obtain ⟨r, hr, h⟩ := bind_eq_ok.1 h
        cases h
        obtain ⟨hlt, rfl⟩ := fromUint_eq_ok.1 (lift_eq_ok.1 hr)
        exact .inl ⟨bits, rfl, hlt⟩

theorem writeScalar_raw_read (hbo : cx.byteOrder.Lawful) (h : a.WF cx) (hin : off + size ≤ a.size)
    (hpos : 1 ≤ size) (hle : size ≤ 16) {data : Nat} (hdata : data < 2 ^ (8 * size)) :
    ∃ a', a.writeScalar cx off (.scalar (.raw data size)) size = .ok a' ∧
      a'.readScalar cx off size = .ok (.scalar (.raw data size)) := by
  obtain ⟨a', ha'⟩ := writeScalar_raw hbo h hin hpos hle hdata
  exact ⟨a', ha', (Allocation.readScalar_writeScalar hbo h ha').1⟩

theorem toBitsOrPtr_raw (hpos : 1 ≤ size) (data : Nat) :
    (Scalar.raw data size : Scalar Tag).toBitsOrPtr cx size = .ok (.ok data) := by
  simp [Scalar.toBitsOrPtr, assert, show size ≠ 0 by omega]

end

theorem Layout.Integer.size_bounds (i : Layout.Integer) : 1 ≤ i.size ∧ i.size ≤ 16 := by
  cases i <;> decide

variable {dl : TargetDataLayout} {byteOrder : ByteOrder} {d : AdtDef} {layout : LayoutDetails}
  {ptrMayBeNull : Pointer Tag → Bool} {a : Allocation Tag} {base k : Nat} {v : Layout.VariantDef}

/-! ## Tags -/

theorem tagged_writes {minIty ity : Layout.Integer} {signed : Bool} {sts sts' : List LayoutDetails}
    (hbo : byteOrder.Lawful) (hd : EnumOk dl d)
    (htagged : Layout.TaggedLayout dl d layout minIty ity signed sts sts')
    (hv : d.variants[k]? = some v) (ha : a.WF (dl.interpCx byteOrder))
    (hbase : base + layout.size ≤ a.size) :
    ∃ a', writeDiscriminantIndex dl (dl.interpCx byteOrder) d layout k base a = .ok a' ∧
      a'.readScalar (dl.interpCx byteOrder) (base + 0) ity.size =
        .ok (.scalar (.raw (truncate (d.discriminantForVariant dl k) ity.size) ity.size)) := by
  obtain ⟨start, stop, hvariants⟩ := htagged.variants_eq
  obtain ⟨hk, -⟩ := List.getElem?_eq_some_iff.1 hv
  have hroom := htagged.tag_le hd.pack (mem_of_getElem? hv)
  obtain ⟨hpos, hle⟩ := Layout.Integer.size_bounds ity
  have htrunc : truncate (d.discriminantForVariant dl k) ity.size < 2 ^ (8 * ity.size) :=
    Nat.mod_lt _ (Nat.two_pow_pos _)
  obtain ⟨a', hwrite, hread⟩ := writeScalar_raw_read hbo ha
    (show base + 0 + ity.size ≤ a.size by omega) hpos hle htrunc
  refine ⟨a', ?_, hread⟩
  rw [writeDiscriminantIndex, hvariants, htagged.fields_eq]
  dsimp only
  rw [if_neg (not_not.2 hk)]
  exact bind_eq_ok.2 ⟨0, rfl, bind_eq_ok.2
    ⟨_, lift_eq_ok.2 (fromUint_eq_ok.2 ⟨htrunc, rfl⟩), hwrite⟩⟩

theorem tagged_reads_back (hbo : byteOrder.Lawful) (hd : EnumOk dl d)
    (h : layoutTagged dl d = .ok layout) (hv : d.variants[k]? = some v)
    (hin : v.fields.any (·.abi.isUninhabited) = false) (ha : a.WF (dl.interpCx byteOrder))
    (hbase : base + layout.size ≤ a.size) :
    ∃ a', writeDiscriminantIndex dl (dl.interpCx byteOrder) d layout k base a = .ok a' ∧
      readDiscriminant dl (dl.interpCx byteOrder) ptrMayBeNull d layout base a' =
        .ok (d.discriminantForVariant dl k, k) := by
  obtain ⟨minIty, ity, signed, sts, sts', htagged⟩ := layoutTagged_eq_ok h
  obtain ⟨a', hwrite, hread⟩ := tagged_writes hbo hd htagged hv ha hbase
  obtain ⟨start, stop, hvariants⟩ := htagged.variants_eq
  obtain ⟨hk, -⟩ := List.getElem?_eq_some_iff.1 hv
  have hval := discriminants_getElem hd.discrs hk
  generalize d.discriminantForVariant dl k = val at hval hread ⊢
  have hlt := discriminants_lt hd.discrs hk hval
  refine ⟨a', hwrite, ?_⟩
  rw [readDiscriminant, hvariants, htagged.fields_eq]
  refine bind_eq_ok.2 ⟨0, rfl, bind_eq_ok.2 ⟨_, hread, ?_⟩⟩
  have hback := tag_roundtrip htagged hv hval hlt hin
  have hfind : (d.discriminants dl).findIdx? (· = val) = some k := by
    obtain ⟨hlen, hget⟩ := List.getElem?_eq_some_iff.1 hval
    refine findIdx?_eq_some_iff_getElem.2 ⟨hlen, by simpa using hget, fun j hj heq => ?_⟩
    have hj' := (getElem?_eq_getElem (hj.trans hlen)).trans
      (congrArg some (of_decide_eq_true heq))
    have := (getElem?_inj (hj.trans hlen) hd.discrs.nodup).1 (hj'.trans hval.symm)
    omega
  refine bind_eq_ok.2 ⟨_, lift_eq_ok.2
    (toBitsOrPtr_raw (Layout.Integer.size_bounds ity).1 _), ?_⟩
  dsimp only
  rw [show (Primitive.int ity signed).size dl = ity.size from rfl, hback, hfind]

/-! ## Niches -/

section
variable {filling : Layout.NicheFilling} {sts : List LayoutDetails} {st : LayoutDetails}
  {offset : Nat}

/-- The niche of a layout: it is inside of the enum, there is an integer type with its size, and the
values that are set aside are not valid. -/
structure NicheFacts (dl : TargetDataLayout) (d : AdtDef) (filling : Layout.NicheFilling)
    (layout : LayoutDetails) (offset : Nat) (i : Layout.Integer) (signed : Bool)
    (vd : Layout.VariantDef) (f : LayoutDetails) : Prop where
  dataful_eq : d.variants[filling.datafulVariant]? = some vd
  field_eq : vd.fields[filling.field.index]? = some f
  niche_eq : f.largestNiche = some filling.field.niche
  value_eq : filling.field.scalar.value = filling.field.niche.scalar.value
  intTy_eq : toIntTy dl filling.field.niche.scalar.value = .ok (i.size, signed)
  size_eq : filling.field.niche.scalar.value.size dl = i.size
  inRange : filling.field.niche.scalar.InRange dl
  count_lt : filling.variantsEnd - filling.variantsStart + 1 < 2 ^ i.bits
  start_eq : filling.field.nicheStart = (filling.field.niche.scalar.validEnd + 1) % 2 ^ i.bits
  inside : offset + filling.field.niche.offset + i.size ≤ layout.size
  last_outside : ¬ filling.field.niche.scalar.Contains
    ((filling.field.niche.scalar.validEnd + (filling.variantsEnd - filling.variantsStart + 1)) %
      2 ^ i.bits)
  outside : ∀ k ≤ filling.variantsEnd - filling.variantsStart,
    ¬ filling.field.niche.scalar.Contains ((filling.field.nicheStart + k) % 2 ^ i.bits)

theorem nicheFacts (hd : EnumOk dl d) (hfilling : Layout.nicheFilling dl d = some filling)
    (hniche : Layout.NicheLayout dl d filling layout sts st offset) :
    ∃ i signed vd f, NicheFacts dl d filling layout offset i signed vd f := by
  obtain ⟨-, -, hle, -, vd, hvd, hfind⟩ := nicheFilling_eq_some hfilling
  obtain ⟨j, f, hj, hf, hfn, hreserve⟩ := findNiche_eq_some hfind
  rw [zero_add] at hj
  rw [← hj] at hf
  have hok := hd.niche vd (mem_of_getElem? hvd) f (mem_of_getElem? hf) _ hfn
  obtain ⟨i, signed, hint, hsize⟩ :
      ∃ (i : Layout.Integer) (signed : Bool),
        toIntTy dl filling.field.niche.scalar.value = .ok (i.size, signed) ∧
        filling.field.niche.scalar.value.size dl = i.size := toIntTy_eq_ok hok.notFloat
  have hbits : filling.field.niche.scalar.value.bits dl = i.bits := by
    rw [Primitive.bits, hsize, bits]
  obtain ⟨hcount, hstart, hscalar, hstop⟩ := Layout.Niche.reserve_eq_some hreserve
  have houtside : ∀ k < filling.variantsEnd - filling.variantsStart + 1, _ := fun k hk =>
    Layout.Niche.reserve_outside hok.inRange hreserve hk
  rw [hbits] at hcount hstart hstop houtside
  obtain ⟨offsets, hlaid⟩ := forall₂_getElem
    (layoutVariants_spec hd.pack hniche.sts_eq) hvd hniche.dataful_eq
  obtain ⟨memoryIndex, hfields⟩ := hlaid.fields_eq
  have hoffset : offsets[filling.field.index]? = some offset := by
    have h := hniche.offset_eq
    rw [hfields, Layout.FieldPlacement.offset] at h
    split at h
    · rename_i o ho
      cases h
      exact ho
    · cases h
  have hinside := (hlaid.placement.inside _ f offset hf hoffset).2
  have hfit := hok.inside
  exact ⟨i, signed, vd, f, hvd, hf, hfn, by rw [hscalar], hint, hsize, hok.inRange, hcount, hstart,
    by rw [hniche.size_eq]; omega, hstop, fun k hk => houtside k (by omega)⟩

variable {i : Layout.Integer} {signed : Bool}

theorem variantOfNiche_raw {cx : InterpCx} {value : Primitive}
    (hint : toIntTy dl value = .ok (i.size, signed)) (hsize : value.size dl = i.size) {data : Nat}
    (hdata : data < 2 ^ (8 * i.size)) {nicheStart : Nat} (hstart : nicheStart < 2 ^ (8 * i.size))
    {dataful start stop relative : Nat}
    (hrelative : binaryIntOp .sub data nicheStart i.size signed = relative) {r : Nat × Nat}
    (hr : (relative ≤ stop - start ∧ start + relative < 2 ^ 32 ∧
        start + relative < d.variants.length ∧ r = (start + relative, start + relative)) ∨
      (¬ relative ≤ stop - start ∧ r = (dataful, dataful))) :
    variantOfNiche dl cx ptrMayBeNull d value dataful start stop nicheStart
      (.scalar (.raw data i.size)) = .ok r := by
  refine bind_eq_ok.2 ⟨.ok data, lift_eq_ok.2 ?_, ?_⟩
  · rw [hsize]
    exact toBitsOrPtr_raw (Layout.Integer.size_bounds i).1 data
  refine bind_eq_ok.2 ⟨(i.size, signed), lift_eq_ok.2 hint, ?_⟩
  refine bind_eq_ok.2 ⟨_, lift_eq_ok.2
    (fromUint_eq_ok.2 ⟨hdata, rfl⟩), ?_⟩
  refine bind_eq_ok.2 ⟨_, lift_eq_ok.2
    (fromUint_eq_ok.2 ⟨hstart, rfl⟩), ?_⟩
  rw [hrelative]
  rcases hr with ⟨hle, h32, hlen, rfl⟩ | ⟨hgt, rfl⟩
  · rw [if_pos hle]
    have hassert : ∀ {cond : Bool} (msg : String), cond = true →
        (liftM (assert cond msg) : InterpResult Unit) = .ok () := by
      rintro _ msg rfl
      rfl
    exact bind_eq_ok.2 ⟨(), hassert _ (decide_eq_true h32),
      bind_eq_ok.2 ⟨(), hassert _ (decide_eq_true hlen), rfl⟩⟩
  · rw [if_neg hgt]

variable {vd : Layout.VariantDef} {f : LayoutDetails}

theorem NicheFacts.start_lt (h : NicheFacts dl d filling layout offset i signed vd f) :
    filling.field.nicheStart < 2 ^ (8 * i.size) := by
  rw [h.start_eq]
  exact Nat.mod_lt _ (Nat.two_pow_pos _)

/-- The distance of an index from the first variant in the niche is written as bits that many values
past the start of the niche. -/
theorem niche_writes (hbo : byteOrder.Lawful)
    (hfacts : NicheFacts dl d filling layout offset i signed vd f)
    (hniche : Layout.NicheLayout dl d filling layout sts st offset)
    (hcheck : ¬ 2 ^ 64 - 1 - k < d.variants.length) (hk : k ≠ filling.datafulVariant)
    (hle : filling.variantsStart ≤ k) (hrel : k - filling.variantsStart < 2 ^ (8 * i.size))
    (ha : a.WF (dl.interpCx byteOrder)) (hbase : base + layout.size ≤ a.size) :
    ∃ a' data, writeDiscriminantIndex dl (dl.interpCx byteOrder) d layout k base a = .ok a' ∧
      a'.readScalar (dl.interpCx byteOrder) (base + (offset + filling.field.niche.offset)) i.size =
        .ok (.scalar (.raw data i.size)) ∧ data < 2 ^ (8 * i.size) ∧
      data = (k - filling.variantsStart + filling.field.nicheStart) % 2 ^ i.bits := by
  obtain ⟨hpos, hle16⟩ := Layout.Integer.size_bounds i
  have hadd := binaryIntOp_add i (k - filling.variantsStart) filling.field.nicheStart signed
  have hdata : binaryIntOp .add (k - filling.variantsStart) filling.field.nicheStart i.size signed <
      2 ^ (8 * i.size) := by
    rw [hadd]
    exact Nat.mod_lt _ (Nat.two_pow_pos _)
  have hinside := hfacts.inside
  obtain ⟨a', hwrite, hread⟩ := writeScalar_raw_read hbo ha
    (show base + (offset + filling.field.niche.offset) + i.size ≤ a.size by omega) hpos hle16 hdata
  refine ⟨a', _, ?_, hread, hdata, hadd⟩
  rw [writeDiscriminantIndex, hniche.variants_eq, hniche.fields_eq]
  dsimp only
  rw [if_neg hcheck, if_neg hk, if_neg (by omega)]
  refine bind_eq_ok.2 ⟨(i.size, signed), lift_eq_ok.2
    (hfacts.value_eq ▸ hfacts.intTy_eq), ?_⟩
  refine bind_eq_ok.2 ⟨_, lift_eq_ok.2
    (fromUint_eq_ok.2 ⟨hfacts.start_lt, rfl⟩), ?_⟩
  refine bind_eq_ok.2 ⟨_, lift_eq_ok.2
    (fromUint_eq_ok.2 ⟨hrel, rfl⟩), ?_⟩
  refine bind_eq_ok.2 ⟨offset + filling.field.niche.offset, rfl, ?_⟩
  exact bind_eq_ok.2 ⟨_, lift_eq_ok.2 (fromUint_eq_ok.2 ⟨hdata, rfl⟩), hwrite⟩

/-- A variant without data is read back, and what is written for it is not a valid value of the field
with the niche. -/
theorem niche_reads_back (hbo : byteOrder.Lawful) (hd : EnumOk dl d)
    (hfilling : nicheFilling dl d = some filling)
    (hniche : Layout.NicheLayout dl d filling layout sts st offset)
    (hv : d.variants[k]? = some v) (hin : v.fields.any (·.abi.isUninhabited) = false)
    (hk : k ≠ filling.datafulVariant) (ha : a.WF (dl.interpCx byteOrder))
    (hbase : base + layout.size ≤ a.size) :
    ∃ a' data, writeDiscriminantIndex dl (dl.interpCx byteOrder) d layout k base a = .ok a' ∧
      readDiscriminant dl (dl.interpCx byteOrder) ptrMayBeNull d layout base a' =
        .ok (d.discriminantForVariant dl k, k) ∧
      a'.readScalar (dl.interpCx byteOrder) (base + (offset + filling.field.niche.offset))
        (filling.field.niche.scalar.value.size dl) =
          .ok (.scalar (.raw data (filling.field.niche.scalar.value.size dl))) ∧
      ¬ filling.field.niche.scalar.Contains data := by
  obtain ⟨i, signed, vd, f, hfacts⟩ := nicheFacts hd hfilling hniche
  obtain ⟨-, hno, hle, hscan, -⟩ := nicheFilling_eq_some hfilling
  obtain ⟨hklt, -⟩ := List.getElem?_eq_some_iff.1 hv
  have hpresent : absent v.fields = false := by
    rw [absent, hin, Bool.false_and]
  obtain ⟨hk1, hk2⟩ := (hscan.other k v hv (by omega)).2 hpresent
  rw [zero_add] at hk1 hk2
  have hcount := hfacts.count_lt
  have hlen : d.variants.length ≤ 0xFFFFFF00 := hd.length_le
  have hrel : k - filling.variantsStart < 2 ^ (8 * i.size) := by
    rw [← bits]
    omega
  have hindex := discriminants_eq_index hd.discrs hno hklt
  obtain ⟨a', data, hwrite, hread, hdata, heq⟩ := niche_writes hbo hfacts hniche (by omega) hk hk1 hrel
    ha hbase
  refine ⟨a', data, hwrite, ?_, by rw [hfacts.size_eq]; exact hread, ?_⟩
  · have hback := binaryIntOp_sub_add i hrel signed (r := filling.field.nicheStart)
    rw [← heq] at hback
    rw [readDiscriminant, hniche.variants_eq, hniche.fields_eq, hindex]
    refine bind_eq_ok.2 ⟨offset + filling.field.niche.offset, rfl,
      bind_eq_ok.2 ⟨_, by rw [hfacts.value_eq, hfacts.size_eq]; exact hread, ?_⟩⟩
    dsimp only
    rw [hfacts.value_eq]
    have hsum : filling.variantsStart + (k - filling.variantsStart) = k := by omega
    exact variantOfNiche_raw hfacts.intTy_eq hfacts.size_eq hdata hfacts.start_lt hback
      (.inl ⟨by omega, by omega, by omega, by rw [hsum]⟩)
  · rw [heq, add_comm]
    exact hfacts.outside _ (by omega)

theorem dataful_reads_back (hd : EnumOk dl d) (hfilling : Layout.nicheFilling dl d = some filling)
    (hniche : Layout.NicheLayout dl d filling layout sts st offset)
    (hv : d.variants[filling.datafulVariant]? = some v)
    (hpayload : PayloadValid dl (dl.interpCx byteOrder) ptrMayBeNull v.fields st base a) :
    writeDiscriminantIndex dl (dl.interpCx byteOrder) d layout filling.datafulVariant base a = .ok a ∧
      readDiscriminant dl (dl.interpCx byteOrder) ptrMayBeNull d layout base a =
        .ok (d.discriminantForVariant dl filling.datafulVariant, filling.datafulVariant) := by
  obtain ⟨i, signed, vd, f, hfacts⟩ := nicheFacts hd hfilling hniche
  obtain ⟨-, hno, hle, -, -⟩ := nicheFilling_eq_some hfilling
  obtain ⟨hlt, -⟩ := List.getElem?_eq_some_iff.1 hv
  cases hfacts.dataful_eq.symm.trans hv
  obtain ⟨val, hread, hvalid⟩ := hpayload _ f _ offset hfacts.field_eq hfacts.niche_eq
    hniche.offset_eq
  have hlen : d.variants.length ≤ 0xFFFFFF00 := hd.length_le
  have hpos := Nat.two_pow_pos i.bits
  have hcount := hfacts.count_lt
  have hbits : filling.field.niche.scalar.value.bits dl = i.bits := by
    rw [Primitive.bits, hfacts.size_eq, bits]
  -- a range with a niche is not full
  have hfull : ¬ ((filling.field.niche.scalar.validStart = 0 ∧
      filling.field.niche.scalar.validEnd =
        2 ^ filling.field.niche.scalar.value.bits dl - 1) ∨
      filling.field.niche.scalar.validEnd + 1 = filling.field.niche.scalar.validStart) := by
    intro hfull
    refine hfacts.last_outside ?_
    rw [hbits] at hfull
    have := Nat.mod_lt (filling.field.niche.scalar.validEnd +
      (filling.variantsEnd - filling.variantsStart + 1)) hpos
    rw [Layout.Scalar.Contains]
    split <;> omega
  refine ⟨?_, ?_⟩
  · rw [writeDiscriminantIndex, hniche.variants_eq]
    dsimp only
    rw [if_neg (by omega), if_pos rfl]
  · rw [readDiscriminant, hniche.variants_eq, hniche.fields_eq,
      discriminants_eq_index hd.discrs hno hlt]
    refine bind_eq_ok.2 ⟨offset + filling.field.niche.offset, rfl,
      bind_eq_ok.2 ⟨val, by rw [hfacts.value_eq]; exact hread, ?_⟩⟩
    dsimp only
    rw [hfacts.value_eq]
    cases val with
    | undef => exact absurd hvalid hfull
    | scalar s =>
      rcases readScalar_cases hread with ⟨data, rfl, hdata⟩ | ⟨ptr, rfl, hptr⟩
      · rw [hfacts.size_eq] at hdata ⊢
        refine variantOfNiche_raw hfacts.intTy_eq hfacts.size_eq hdata hfacts.start_lt rfl (.inr ⟨?_, rfl⟩)
        intro hrel
        refine hfacts.outside _ hrel ?_
        rw [binaryIntOp_add_sub i hdata]
        exact hvalid
      · rcases hvalid with hvalid | ⟨hone, hmax, hnull⟩
        · exact absurd hvalid hfull
        · -- null is the only value that is set aside
          rw [hbits] at hmax
          have hzero : filling.field.nicheStart = 0 := by
            rw [hfacts.start_eq, hmax, Nat.sub_add_cancel hpos, Nat.mod_self]
          have hlast := hfacts.last_outside
          rw [Layout.Scalar.Contains, hone, hmax, Nat.mod_eq_sub_mod (by omega),
            Nat.mod_eq_of_lt (by omega)] at hlast
          have hcond : filling.field.nicheStart = 0 ∧ filling.variantsStart = filling.variantsEnd ∧
              ptrMayBeNull ptr = false := by
            refine ⟨hzero, ?_, hnull⟩
            by_contra hne
            refine hlast ?_
            rw [if_pos (by omega)]
            omega
          refine bind_eq_ok.2 ⟨.error ptr, lift_eq_ok.2 ?_, if_pos hcond⟩
          simp [Scalar.toBitsOrPtr, assert, hptr]

end

/-! ## All enums -/

/-- What the payload of a variant has to satisfy, by the variant's layout. -/
def VariantPayloadValid (dl : TargetDataLayout) (cx : InterpCx)
    (ptrMayBeNull : Pointer Tag → Bool) (layout : LayoutDetails) (fields : List LayoutDetails)
    (k base : Nat) (a : Allocation Tag) : Prop :=
  match layout.variants with
  | .single _ => True
  | .multiple _ _ _ sts =>
    ∀ st, sts[k]? = some st → PayloadValid dl cx ptrMayBeNull fields st base a

/-- In the place of the niche of a field of the variant with data, there is a value that is not valid
for the field. -/
def NicheInvalid (dl : TargetDataLayout) (cx : InterpCx) (d : AdtDef) (layout : LayoutDetails)
    (k base : Nat) (a : Allocation Tag) : Prop :=
  match layout.variants with
  | .multiple _ (.niche dataful _ _ _) _ sts => k ≠ dataful →
    ∃ vd st, d.variants[dataful]? = some vd ∧ sts[dataful]? = some st ∧
      ∃ (j : Nat) (f : LayoutDetails) (n : Layout.Niche) (offset data : Nat),
        vd.fields[j]? = some f ∧ f.largestNiche = some n ∧ st.fields.offset j = .ok offset ∧
        a.readScalar cx (base + (offset + n.offset)) (n.scalar.value.size dl) =
          .ok (.scalar (.raw data (n.scalar.value.size dl))) ∧
        ¬ n.scalar.Contains data
  | _ => True

/-- An inhabited variant that is written, after its payload, is read back with its discriminant; and
in the niche of a variant with data, the other variants are not valid values. -/
theorem readDiscriminant_writeDiscriminantIndex (dl : TargetDataLayout) (byteOrder : ByteOrder)
    (hbo : byteOrder.Lawful) (ptrMayBeNull : Pointer Tag → Bool) (d : AdtDef) (hd : EnumOk dl d)
    (layout : LayoutDetails) (h : layoutEnum dl d = .ok layout) (k : Nat)
    (v : Layout.VariantDef) (hv : d.variants[k]? = some v)
    (hin : v.fields.any (·.abi.isUninhabited) = false) (base : Nat) (a : Allocation Tag)
    (ha : a.WF (dl.interpCx byteOrder)) (hbase : base + layout.size ≤ a.size)
    (hpayload : VariantPayloadValid dl (dl.interpCx byteOrder) ptrMayBeNull layout v.fields k base
      a) : ∃ a', writeDiscriminantIndex dl (dl.interpCx byteOrder) d layout k base a = .ok a' ∧
      readDiscriminant dl (dl.interpCx byteOrder) ptrMayBeNull d layout base a' =
        .ok (d.discriminantForVariant dl k, k) ∧
      NicheInvalid dl (dl.interpCx byteOrder) d layout k base a' := by
  obtain ⟨hk, -⟩ := List.getElem?_eq_some_iff.1 hv
  have hpresent : k ∈ d.presentVariants := by
    rw [presentVariants, mem_filter, mem_range, hv]
    exact ⟨hk, by simp [absent, hin]⟩
  unfold layoutEnum at h
  split at h
  · rename_i hnone
    rw [hnone] at hpresent
    cases hpresent
  rename_i v0 rest hsome
  rw [hsome] at hpresent
  split at h
  · rename_i hsingle
    rw [Bool.and_eq_true, List.isEmpty_iff] at hsingle
    rw [hsingle.1, mem_singleton] at hpresent
    subst hpresent
    rw [hv] at h
    have hvariants := layoutSingle_variants h
    refine ⟨a, ?_, ?_, ?_⟩
    · rw [writeDiscriminantIndex, hvariants]
      exact if_neg (not_not.2 rfl)
    · rw [readDiscriminant, hvariants]
    · unfold NicheInvalid
      rw [hvariants]
      trivial
  split at h
  · rename_i filling hfilling
    obtain ⟨sts, st, offset, hniche⟩ := layoutNiche_eq_ok h
    unfold NicheInvalid
    rw [hniche.variants_eq]
    by_cases hkd : k = filling.datafulVariant
    · subst hkd
      rw [VariantPayloadValid, hniche.variants_eq] at hpayload
      obtain ⟨hwrite, hread⟩ := dataful_reads_back hd hfilling hniche hv
        (hpayload st hniche.dataful_eq)
      exact ⟨a, hwrite, hread, by simp⟩
    · obtain ⟨a', data, hwrite, hread, hraw, hinvalid⟩ := niche_reads_back hbo hd hfilling hniche hv
        hin hkd ha hbase
      obtain ⟨i, signed, vd, f, hfacts⟩ := nicheFacts hd hfilling hniche
      exact ⟨a', hwrite, hread, fun _ => ⟨vd, st, hfacts.dataful_eq, hniche.dataful_eq, _, f, _,
        offset, data, hfacts.field_eq, hfacts.niche_eq, hniche.offset_eq, hraw, hinvalid⟩⟩
  · obtain ⟨a', hwrite, hread⟩ := tagged_reads_back hbo hd h hv hin ha hbase
    obtain ⟨_, _, _, _, _, htagged⟩ := layoutTagged_eq_ok h
    obtain ⟨_, _, hvariants⟩ := htagged.variants_eq
    refine ⟨a', hwrite, hread, ?_⟩
    unfold NicheInvalid
    rw [hvariants]
    trivial

/-- `None` of an `Option<&u8>` is read back. -/
theorem readDiscriminant_writeDiscriminantIndex_none : ∃ layout a', layoutEnum Layout.Sample.target
      (enumOf [[], [reference]]) = .ok layout ∧
      readDiscriminant Layout.Sample.target (Layout.Sample.target.interpCx .reference)
        (fun _ : Pointer Unit => false) (enumOf [[], [reference]]) layout
        0 a' = .ok (0, 0) := by
  have hvariants : ∀ v ∈ (enumOf [[], [reference]]).variants,
      v = ⟨[], none⟩ ∨ v = ⟨[reference], none⟩ := by
    simp [enumOf]
  have hd : EnumOk Layout.Sample.target (enumOf [[], [reference]]) := by
    refine ⟨rfl, ⟨?_, by decide⟩, by decide, ?_⟩
    · intro v hv val hval
      rcases hvariants v hv with rfl | rfl <;> cases hval
    · intro v hv f hf n hn
      rcases hvariants v hv with rfl | rfl
      · cases hf
      · cases mem_singleton.1 hf
        cases hn
        exact ⟨by decide, ⟨by decide, by decide⟩, fun _ h => by cases h⟩
  obtain ⟨a, ha⟩ : ∃ a : Allocation Unit, a = ⟨replicate 8 0, .new, ⟨[0#64], 8⟩, 8, true⟩ :=
    ⟨_, rfl⟩
  have hwf : a.WF (Layout.Sample.target.interpCx .reference) := by
    rw [ha]
    exact ⟨rfl, rfl, by unfold UndefMask.WF; decide, .nil, forall_mem_nil _, by decide⟩
  obtain ⟨layout, hlayout⟩ : ∃ layout, layoutEnum Layout.Sample.target
      (enumOf [[], [reference]]) = .ok layout := ⟨_, rfl⟩
  obtain ⟨a', -, hread, -⟩ := readDiscriminant_writeDiscriminantIndex Layout.Sample.target .reference
    ByteOrder.reference_lawful (fun _ => false) _ hd layout hlayout 0 ⟨[], none⟩ rfl rfl 0 a hwf
    (by cases hlayout; rw [ha]; decide) (by cases hlayout; intro _ _ _ _ _ _ hf; cases hf)
  exact ⟨layout, a', hlayout, hread⟩

end Tortis.Interpret
