import Tortis.Layout.Univariant

/-!
# Layouts of enums

`layout_raw_uncached` (`librustc/ty/layout.rs`) for enums, given the layouts of the fields. An enum
with one variant that is present is laid out as a struct. Otherwise the variant is either encoded in
values that a field of the only variant with data never has (a niche), or in a tag before the
fields, whose width follows from the discriminants.
-/

namespace Tortis.Layout

open Option LayoutResult Integer

/-! ## Definitions of enums -/

/-- A variant of an enum: the layouts of its fields, and the value of its discriminant expression
(`disr_expr`) as evaluated by `eval_explicit_discr`. -/
structure VariantDef where
  fields : List LayoutDetails
  disrExpr : Option Nat

/-- `AdtDef`, of an enum, with its `layout_scalar_valid_range`. -/
structure AdtDef where
  variants : List VariantDef
  repr : ReprOptions
  scalarValidStart : Option Nat
  scalarValidEnd : Option Nat

inductive VariantDiscr where
  | explicit (val : Nat)
  | relative (distance : Nat)
deriving DecidableEq

def asI128 (x : Nat) : Int := Int.bmod x (2 ^ 128)

def asU128 (x : Int) : Nat := (x % 2 ^ 128).toNat

def truncate (value size : Nat) : Nat := value % 2 ^ (8 * size)

/-- `sign_extend`, as an `i128`: the shifts keep the low bits and copy the highest of them. -/
def signExtend (value size : Nat) : Int := Int.bmod value (2 ^ (8 * size))

namespace AdtDef

/-- The discriminants of the variants, by their distance from the last explicit one. -/
def variantDiscrs : Nat → List VariantDef → List VariantDiscr
  | _, [] => []
  | distance, v :: rest =>
    match v.disrExpr with
    | some val => .explicit val :: variantDiscrs 1 rest
    | none => .relative distance :: variantDiscrs (distance + 1) rest

/-- `VariantDef::discr`, of every variant. -/
def discrs (d : AdtDef) : List VariantDiscr := variantDiscrs 0 d.variants

def discrInteger (dl : TargetDataLayout) (d : AdtDef) : Integer :=
  fromAttr dl d.repr.discrType

end AdtDef

/-- `Discr::checked_add`, for values of the discriminant's type. Integers do not overflow here: `n`
is at most the number of variants. -/
def discrAdd (dl : TargetDataLayout) (repr : ReprOptions) (val n : Nat) : Nat × Bool :=
  let int := fromAttr dl repr.discrType
  if repr.discrType.isSigned then
    let min : Int := -2 ^ (int.bits - 1)
    let max : Int := 2 ^ (int.bits - 1) - 1
    let x := signExtend val int.size
    let oflo : Bool := x > max - n
    let x := if oflo then min + (n - (max - x) - 1) else x + n
    (truncate (asU128 x) int.size, oflo)
  else
    let max : Int := 2 ^ int.bits - 1
    let oflo : Bool := (val : Int) > max - n
    let x : Int := if oflo then n - (max - val) - 1 else val + n
    (x.toNat, oflo)

namespace AdtDef

section
variable (dl : TargetDataLayout)

/-- A discriminant, given the previous one. -/
def discrAfter (repr : ReprOptions) (prev : Option Nat) :
    VariantDiscr → Nat
  | .explicit val => val
  | .relative _ => prev.elim 0 fun d => (discrAdd dl repr d 1).1

def discriminantsFrom (dl : TargetDataLayout) (repr : ReprOptions) :
    Option Nat → List VariantDiscr → List Nat
  | _, [] => []
  | prev, v :: rest =>
    let discr := discrAfter dl repr prev v
    discr :: discriminantsFrom dl repr (some discr) rest

def discriminants (d : AdtDef) : List Nat :=
  discriminantsFrom dl d.repr none d.discrs

/-- `AdtDef::discriminant_def_for_variant`. A distance leads to an explicit discriminant or to the
first variant, so that the loop ends after one more round. -/
def discriminantDefForVariant (d : AdtDef) (variantIndex : Nat) : Option Nat × Nat :=
  match d.discrs[variantIndex]? with
  | some (.explicit val) => (some val, 0)
  | some (.relative distance) =>
    match d.discrs[variantIndex - distance]? with
    | some (.explicit val) => (some val, distance)
    | _ => (none, distance)
  | none => (none, 0)

def discriminantForVariant (d : AdtDef) (variantIndex : Nat) : Nat :=
  let (val, offset) := d.discriminantDefForVariant variantIndex
  (discrAdd dl d.repr (val.getD 0) offset).1

end

end AdtDef

/-! ## Variants that are present -/

/-- A variant is absent if it is uninhabited and only has zero-sized fields. -/
def absent (fields : List LayoutDetails) : Bool :=
  fields.any (·.abi.isUninhabited) && fields.all (·.isZst)

def AdtDef.presentVariants (d : AdtDef) : List Nat :=
  (List.range d.variants.length).filter fun i => (d.variants[i]?).any fun v => !absent v.fields

section
variable (dl : TargetDataLayout)

def neverLayout : LayoutDetails :=
  { variants := .single 0, fields := .union 0, abi := .uninhabited, largestNiche := none,
    align := dl.i8Align, size := 0 }

def narrow (d : AdtDef) (scalar : Scalar) : LayoutResult Scalar := do
  let start := d.scalarValidStart.getD scalar.validStart
  let stop := d.scalarValidEnd.getD scalar.validEnd
  assertThat (scalar.validStart ≤ start) "assertion failed: *scalar.valid_range.start() <= start"
  assertThat (stop ≤ scalar.validEnd) "assertion failed: *scalar.valid_range.end() >= end"
  .ok { scalar with validStart := start, validEnd := stop }

/-- The niche of a narrowed scalar replaces one that is not larger. -/
def replaceNiche (largest : Option Niche) (scalar : Scalar) : Option Niche :=
  match Niche.fromScalar dl 0 scalar, largest with
  | some niche, some largest =>
    if largest.available dl ≤ niche.available dl then some niche else some largest
  | some niche, none => some niche
  | none, largest => largest

/-- An enum with one variant is laid out as a struct. -/
def layoutSingle (d : AdtDef) (v : Nat) (fields : List LayoutDetails) :
    LayoutResult LayoutDetails := do
  let st ← univariant dl fields d.repr .alwaysSized
  let st := { st with variants := .single v }
  match st.abi with
  | .scalar scalar => do
    let scalar ← narrow d scalar
    .ok { st with abi := .scalar scalar, largestNiche := replaceNiche dl st.largestNiche scalar }
  | .scalarPair scalar second => do
    let scalar ← narrow d scalar
    .ok { st with abi := .scalarPair scalar second,
                  largestNiche := replaceNiche dl st.largestNiche scalar }
  | _ => do
    assertThat (d.scalarValidStart.isNone && d.scalarValidEnd.isNone)
      "nonscalar layout for layout_scalar_valid_range type"
    .ok st

end

variable {dl : TargetDataLayout} {d : AdtDef} {l : LayoutDetails}

theorem layoutSingle_variants {v : Nat} {fields : List LayoutDetails}
    (h : layoutSingle dl d v fields = .ok l) : l.variants = .single v := by
  obtain ⟨st, -, h⟩ := bind_eq_ok.1 h
  dsimp only at h
  split at h
  all_goals
    obtain ⟨_, -, h⟩ := bind_eq_ok.1 h
    cases h
    rfl

def layoutVariants (dl : TargetDataLayout) (repr : ReprOptions) (kind : StructKind) :
    Nat → List VariantDef → LayoutResult (List LayoutDetails)
  | _, [] => .ok []
  | j, v :: rest => do
    let st ← univariant dl v.fields repr kind
    let sts ← layoutVariants dl repr kind (j + 1) rest
    .ok ({ st with variants := .single j } :: sts)

/-! ## Niches -/

def variantIdxMax : Nat := 0xFFFFFF00

/-- The loop that looks for one variant with data, and for the range of the others. -/
def scanVariants : Nat → List VariantDef → Option Nat → Nat × Nat → Option Nat × Nat × Nat
  | _, [], dataful, range => (dataful, range)
  | v, variant :: rest, dataful, range =>
    if absent variant.fields then scanVariants (v + 1) rest dataful range
    else if variant.fields.any (!·.isZst) then
      match dataful with
      | none => scanVariants (v + 1) rest (some v) range
      | some _ => (none, range)
    else scanVariants (v + 1) rest dataful (Nat.min range.1 v, v)

/-- What the loop finds: the other variants have no data, and those that are present lie in the
range. -/
structure Scanned (v : Nat) (vs : List VariantDef) (dataful : Option Nat) (range range' : Nat × Nat)
    (i : Nat) : Prop where
  dataful_eq : ∀ i', dataful = some i' → i' = i
  dataful_lt : dataful = some i ∨ i < v + vs.length
  start_le : range'.1 ≤ range.1
  le_stop : range.2 ≤ range'.2
  stop_lt : range' = range ∨ range'.2 < v + vs.length
  other : ∀ k w, vs[k]? = some w → v + k ≠ i →
    w.fields.all (·.isZst) ∧ (absent w.fields = false → range'.1 ≤ v + k ∧ v + k ≤ range'.2)

theorem scanVariants_spec : ∀ {vs : List VariantDef} {v : Nat} {dataful : Option Nat}
    {range range' : Nat × Nat} {i : Nat}, scanVariants v vs dataful range = (some i, range') →
    range.2 ≤ v → Scanned v vs dataful range range' i
  | [], v, dataful, range, range', i, h, _ => by
    obtain ⟨rfl, rfl⟩ := h
    exact ⟨fun i' h => some.inj h.symm, .inl rfl, le_rfl, le_rfl, .inl rfl, nofun⟩
  | variant :: vs, v, dataful, range, range', i, h, hrange => by
    -- what the loop says of the rest, and what is left to say of this variant
    have hcons : ∀ {dataful' : Option Nat} {range1 : Nat × Nat},
        scanVariants (v + 1) vs dataful' range1 = (some i, range') → range1.2 ≤ v + 1 →
        (∀ i', dataful = some i' → dataful' = some i') →
        (dataful' = some i → dataful = some i ∨ i < v + (vs.length + 1)) →
        range1.1 ≤ range.1 → range.2 ≤ range1.2 → (range1 = range ∨ range1.2 < v + (vs.length + 1)) →
        (v ≠ i → variant.fields.all (·.isZst) ∧
          (absent variant.fields = false → range1.1 ≤ v ∧ v ≤ range1.2)) →
        Scanned v (variant :: vs) dataful range range' i := by
      intro dataful' range1 h' hle hdataful hbound hstart hstop hor hthis
      obtain ⟨h1, h2, h3, h4, h5, h6⟩ := scanVariants_spec h' hle
      refine ⟨fun i' hi' => h1 i' (hdataful i' hi'), ?_, h3.trans hstart, hstop.trans h4, ?_, ?_⟩
      · rcases h2 with h2 | h2
        · exact hbound h2
        · exact .inr (by rw [List.length_cons]; omega)
      · rcases h5 with rfl | h5
        · exact hor
        · exact .inr (by rw [List.length_cons]; omega)
      · rintro (_ | k) w hw hne
        · cases hw
          obtain ⟨hzst, hin⟩ := hthis (by simpa using hne)
          exact ⟨hzst, fun habs => ⟨h3.trans (hin habs).1, (hin habs).2.trans h4⟩⟩
        · have := h6 k w hw (by omega)
          rwa [show v + 1 + k = v + (k + 1) by omega] at this
    unfold scanVariants at h
    split at h
    · rename_i habs
      refine hcons h (by omega) (fun _ => id) .inl le_rfl le_rfl (.inl rfl)
        fun _ => ⟨?_, fun h => by simp [habs] at h⟩
      rw [absent, Bool.and_eq_true] at habs
      exact habs.2
    · split at h
      · cases dataful with
        | none =>
          have hi : v = i := (scanVariants_spec h (by omega)).dataful_eq v rfl
          exact hcons h (by omega) nofun (fun _ => .inr (by omega)) le_rfl le_rfl
            (.inl rfl) fun hne => absurd hi hne
        | some i' => cases h
      · rename_i hany
        refine hcons h (by dsimp only; omega) (fun _ => id) .inl (min_le_left _ _) hrange
          (.inr (by dsimp only; omega)) fun _ => ⟨?_, fun _ => ⟨min_le_right _ _, le_rfl⟩⟩
        simpa using hany

/-- The field whose niche has room for the other variants, its niche, the first value that is set
aside, and the scalar with the values set aside. -/
structure NicheField where
  index : Nat
  niche : Niche
  nicheStart : Nat
  scalar : Scalar

/-- The first field whose niche has room. -/
def findNiche (dl : TargetDataLayout) (count : Nat) : Nat → List LayoutDetails → Option NicheField
  | _, [] => none
  | index, field :: rest =>
    match field.largestNiche with
    | none => findNiche dl count (index + 1) rest
    | some niche =>
      match niche.reserve dl count with
      | none => findNiche dl count (index + 1) rest
      | some (start, scalar) => some ⟨index, niche, start, scalar⟩

theorem findNiche_eq_some {count : Nat} :
    ∀ {fields : List LayoutDetails} {index : Nat} {field : NicheField},
    findNiche dl count index fields = some field →
    ∃ j f, field.index = index + j ∧ fields[j]? = some f ∧ f.largestNiche = some field.niche ∧
      field.niche.reserve dl count = some (field.nicheStart, field.scalar)
  | [], _, _, h => nomatch h
  | f :: fields, index, field, h => by
    have hrest : findNiche dl count (index + 1) fields = some field →
        ∃ j g, field.index = index + j ∧ (f :: fields)[j]? = some g ∧
          g.largestNiche = some field.niche ∧
          field.niche.reserve dl count = some (field.nicheStart, field.scalar) := by
      intro h
      obtain ⟨j, g, hj, hg, hniche, hreserve⟩ := findNiche_eq_some h
      exact ⟨j + 1, g, by omega, hg, hniche, hreserve⟩
    rw [findNiche] at h
    split at h
    · exact hrest h
    · rename_i niche hniche
      split at h
      · exact hrest h
      · rename_i hreserve
        cases h
        exact ⟨0, f, rfl, rfl, hniche, hreserve⟩

/-- The variant with data, the range of the others, and the niche. -/
structure NicheFilling where
  datafulVariant : Nat
  variantsStart : Nat
  variantsEnd : Nat
  field : NicheField

/-- Whether an enum's variants are encoded in a niche, and in which. -/
def nicheFilling (dl : TargetDataLayout) (d : AdtDef) : Option NicheFilling :=
  let noExplicitDiscriminants := d.discrs.zipIdx.all fun p => p.1 = .relative p.2
  if !d.repr.inhibitEnumLayoutOpt && noExplicitDiscriminants then
    let (dataful, start, stop) := scanVariants 0 d.variants none (variantIdxMax, 0)
    if start > stop then none
    else do
      let i ← dataful
      let variant ← d.variants[i]?
      let field ← findNiche dl (stop - start + 1) 0 variant.fields
      some ⟨i, start, stop, field⟩
  else none

theorem nicheFilling_eq_some {filling : NicheFilling} (h : nicheFilling dl d = some filling) :
    d.repr.inhibitEnumLayoutOpt = false ∧ (∀ p ∈ d.discrs.zipIdx, p.1 = VariantDiscr.relative p.2) ∧
      filling.variantsStart ≤ filling.variantsEnd ∧
      Scanned 0 d.variants none (variantIdxMax, 0) (filling.variantsStart, filling.variantsEnd)
        filling.datafulVariant ∧ ∃ dataful, d.variants[filling.datafulVariant]? = some dataful ∧
        findNiche dl (filling.variantsEnd - filling.variantsStart + 1) 0 dataful.fields =
          some filling.field := by
  unfold nicheFilling at h
  dsimp only at h
  split at h
  · rename_i hcond
    rw [Bool.and_eq_true, Bool.not_eq_true', List.all_eq_true] at hcond
    generalize hscan : scanVariants 0 d.variants none (variantIdxMax, 0) = scan at h
    obtain ⟨_ | i, start, stop⟩ := scan
    · split at h <;> cases h
    · split at h
      · cases h
      · rename_i hle
        obtain ⟨_, ⟨⟩, h⟩ := bind_eq_some_iff.1 h
        obtain ⟨dataful, hdataful, h⟩ := bind_eq_some_iff.1 h
        obtain ⟨field, hfield, h⟩ := bind_eq_some_iff.1 h
        cases h
        exact ⟨hcond.1, fun p hp => by simpa using hcond.2 p hp, Nat.le_of_not_gt hle,
          scanVariants_spec hscan le_rfl, dataful, hdataful, hfield⟩
  · cases h

/-- The ABI of an enum with a niche: only the niche is known to be initialised. -/
def nicheAbi (dl : TargetDataLayout) (st : List LayoutDetails) (dataful : LayoutDetails)
    (offset : Nat) (nicheScalar : Scalar) : Abi :=
  if st.all (·.abi.isUninhabited) then .uninhabited
  else
    match dataful.abi with
    | .scalar _ => .scalar nicheScalar
    | .scalarPair first second =>
      if offset = 0 then .scalarPair nicheScalar (.unit dl second.value)
      else .scalarPair (.unit dl first.value) nicheScalar
    | _ => .aggregate true

def layoutNiche (dl : TargetDataLayout) (d : AdtDef) (filling : NicheFilling) :
    LayoutResult LayoutDetails := do
  let st ← layoutVariants dl d.repr .alwaysSized 0 d.variants
  let align := st.foldl (fun align v => align.max v.align) dl.aggregateAlign
  match st[filling.datafulVariant]? with
  | none => .error (.panic "index out of bounds")
  | some dataful => do
    let fieldOffset ← dataful.fields.offset filling.field.index
    let offset := fieldOffset + filling.field.niche.offset
    .ok
      { variants := .multiple filling.field.scalar
          (.niche filling.datafulVariant filling.variantsStart filling.variantsEnd
            filling.field.nicheStart) 0 st
        fields := .arbitrary [offset] [0]
        abi := nicheAbi dl st dataful offset filling.field.scalar
        largestNiche := Niche.fromScalar dl offset filling.field.scalar
        align := align
        size := dataful.size }

structure NicheLayout (dl : TargetDataLayout) (d : AdtDef) (filling : NicheFilling)
    (l : LayoutDetails) (sts : List LayoutDetails) (st : LayoutDetails) (offset : Nat) : Prop where
  sts_eq : layoutVariants dl d.repr .alwaysSized 0 d.variants = .ok sts
  dataful_eq : sts[filling.datafulVariant]? = some st
  offset_eq : st.fields.offset filling.field.index = .ok offset
  variants_eq : l.variants = .multiple filling.field.scalar
    (.niche filling.datafulVariant filling.variantsStart filling.variantsEnd
      filling.field.nicheStart) 0 sts
  fields_eq : l.fields = .arbitrary [offset + filling.field.niche.offset] [0]
  align_eq : l.align = sts.foldl (fun align v => align.max v.align) dl.aggregateAlign
  size_eq : l.size = st.size

theorem layoutNiche_eq_ok {filling : NicheFilling} (h : layoutNiche dl d filling = .ok l) :
    ∃ sts st offset, NicheLayout dl d filling l sts st offset := by
  obtain ⟨sts, hsts, h⟩ := bind_eq_ok.1 h
  split at h
  · cases h
  rename_i st hst
  obtain ⟨offset, hoffset, h⟩ := bind_eq_ok.1 h
  cases h
  exact ⟨sts, st, offset, hsts, hst, hoffset, rfl, rfl, rfl, rfl⟩

/-! ## Tags -/

section
variable (dl : TargetDataLayout)

/-- A discriminant as an `i128`; a signed one is extended from its type. -/
def discrValue (repr : ReprOptions) (val : Nat) : Int :=
  if repr.discrType.isSigned then
    Int.bmod (asI128 val) (2 ^ (fromAttr dl repr.discrType).bits)
  else asI128 val

/-- The loop over the discriminants of the inhabited variants. -/
def discrRange (dl : TargetDataLayout) (repr : ReprOptions) :
    List (Nat × VariantDef) → Int × Int → Int × Int
  | [], range => range
  | (val, variant) :: rest, (min, max) =>
    if variant.fields.any (·.abi.isUninhabited) then discrRange dl repr rest (min, max)
    else
      let x := discrValue dl repr val
      discrRange dl repr rest (if x < min then x else min, if x > max then x else max)

section
variable (d : AdtDef)

/-- The least and the greatest discriminant; zero when no variant is inhabited. -/
def AdtDef.discrBounds : Int × Int :=
  let none : Int × Int := (2 ^ 127 - 1, -2 ^ 127)
  let range := discrRange dl d.repr ((d.discriminants dl).zip d.variants) none
  if range = none then (0, 0) else range

def reprDiscr (repr : ReprOptions) (min max : Int) : LayoutResult (Integer × Bool) :=
  let unsignedFit := fitUnsigned (Nat.max (asU128 min) (asU128 max))
  let signedFit := (fitSigned min).max (fitSigned max)
  match repr.int with
  | some ity =>
    let discr := fromAttr dl ity
    let fit := if ity.isSigned then signedFit else unsignedFit
    if discr.rank < fit.rank then
      .error (.panic "Integer::repr_discr: `#[repr]` hint too small for discriminant range")
    else .ok (discr, ity.isSigned)
  | none =>
    let atLeast : Integer := if repr.isC then .i32 else .i8
    if 0 ≤ min then .ok (unsignedFit.max atLeast, false) else .ok (signedFit.max atLeast, true)

/-- The alignment of what follows the tag: of the union of all fields for `repr(C)`. -/
def prefixAlign (minIty : Integer) : Align :=
  if d.repr.isC then
    d.variants.foldl (fun a v => v.fields.foldl (fun a f => a.max f.align.abi) a)
      (minIty.align dl).abi
  else (minIty.align dl).abi

/-- The first field, in memory order, that cannot be moved to make room for a larger tag. -/
def firstFixed (fields : List LayoutDetails) (st : LayoutDetails) : Option LayoutDetails :=
  (st.fields.indexByIncreasingOffset.filterMap (fields[·]?)).find? fun f =>
    !f.isZst || f.align.abi.bytes ≠ 1

/-- The smallest alignment of a field that cannot be moved. -/
def startAlign (variants : List VariantDef) (sts : List LayoutDetails) : Align :=
  (variants.zip sts).foldl (fun a p =>
    match firstFixed p.1.fields p.2 with
    | some f => a.min f.align.abi
    | none => a) ⟨8⟩

/-- The offset of a field after the tag has been widened. -/
def moveOffset (oldItySize newItySize i : Nat) : LayoutResult Nat :=
  if i ≤ oldItySize then do
    assertThat (i = oldItySize) "assertion failed: *i == old_ity_size"
    .ok newItySize
  else .ok i

/-- The offsets of the fields after the tag has been widened. -/
def moveOffsets (oldItySize newItySize : Nat) : List Nat → LayoutResult (List Nat)
  | [] => .ok []
  | i :: rest => do
    let i ← moveOffset oldItySize newItySize i
    let rest ← moveOffsets oldItySize newItySize rest
    .ok (i :: rest)

/-- A variant's first few fields are patched up. -/
def patchVariant (oldItySize newItySize : Nat) (variant : LayoutDetails) :
    LayoutResult LayoutDetails :=
  match variant.fields with
  | .arbitrary offsets memoryIndex => do
    let offsets ← moveOffsets oldItySize newItySize offsets
    .ok { variant with
      fields := .arbitrary offsets memoryIndex
      size := if variant.size ≤ oldItySize then newItySize else variant.size }
  | _ => .error (.panic "impossible case reached")

def patchVariants (oldItySize newItySize : Nat) : List LayoutDetails →
    LayoutResult (List LayoutDetails)
  | [] => .ok []
  | variant :: rest => do
    let variant ← patchVariant oldItySize newItySize variant
    let rest ← patchVariants oldItySize newItySize rest
    .ok (variant :: rest)

/-- The primitive and the offset that every variant with data has as its only field. -/
def commonPrim : List (VariantDef × LayoutDetails) → Option (Primitive × Nat) →
    Option (Primitive × Nat)
  | [], common => common
  | (variant, st) :: rest, common =>
    let offsets := match st.fields with
      | .arbitrary offsets _ => offsets
      | _ => []
    match (variant.fields.zip offsets).filter (!·.1.isZst) with
    | [] => commonPrim rest common
    | [(field, offset)] =>
      match field.abi, common with
      | .scalar s, some pair =>
        if pair = (s.value, offset) then commonPrim rest common else none
      | .scalar s, none => commonPrim rest (some (s.value, offset))
      | _, _ => none
    | _ => none

/-- The ABI of an enum with a tag: a scalar, or a pair of scalars, when it fits. -/
def tagAbi (sts : List LayoutDetails) (tag : Scalar) (align : AbiAndPrefAlign) (size : Nat) : Abi :=
  if sts.all (·.abi.isUninhabited) then .uninhabited
  else if tag.value.size dl = size then .scalar tag
  else
    match commonPrim (d.variants.zip sts) none with
    | some (prim, offset) =>
      let pair := scalarPair dl tag (.unit dl prim)
      if pair.fields = .arbitrary [0, offset] [0, 1] && align = pair.align && size = pair.size
      then pair.abi else .aggregate true
    | none => .aggregate true

/-- The integer that the tag is widened to: as large as the alignment of the first fields. -/
def widerInteger (minIty : Integer) (start : Align) : Integer :=
  if d.repr.isC || d.repr.int.isSome then minIty else (forAlign dl start).getD minIty

/-- The variants after the tag has been widened, if it is. -/
def widenTag (minIty ity : Integer) (sts : List LayoutDetails) :
    LayoutResult (Integer × List LayoutDetails) :=
  if ity.rank ≤ minIty.rank then .ok (minIty, sts)
  else do
    let sts ← patchVariants minIty.size ity.size sts
    .ok (ity, sts)

def layoutTagged : LayoutResult LayoutDetails := do
  let (min, max) := d.discrBounds dl
  assertThat (min ≤ max) "discriminant range"
  let (minIty, signed) ← reprDiscr dl d.repr min max
  let sts ← layoutVariants dl d.repr (.prefixed minIty.size (prefixAlign dl d minIty)) 0 d.variants
  let align := sts.foldl (fun align v => align.max v.align) dl.aggregateAlign
  let size := alignTo (sts.foldl (fun size v => Nat.max size v.size) 0) align.abi
  if size ≥ dl.objSizeBound then .error (.error .sizeOverflow)
  else do
    assertThat (minIty.rank ≤ (d.discrInteger dl).rank)
      "layout decided on a larger discriminant type than typeck"
    let (ity, sts) ← widenTag minIty (widerInteger dl d minIty (startAlign d.variants sts)) sts
    let tag : Scalar :=
      ⟨.int ity signed, asU128 min % 2 ^ ity.bits, asU128 max % 2 ^ ity.bits⟩
    .ok
      { variants := .multiple tag .tag 0 sts
        fields := .arbitrary [0] [0]
        abi := tagAbi dl d sts tag align size
        largestNiche := Niche.fromScalar dl 0 tag
        align := align
        size := size }

end

end

/-- How a layout with a tag comes about. -/
structure TaggedLayout (dl : TargetDataLayout) (d : AdtDef) (l : LayoutDetails) (minIty ity : Integer)
    (signed : Bool) (sts sts' : List LayoutDetails) : Prop where
  repr_eq : reprDiscr dl d.repr (d.discrBounds dl).1 (d.discrBounds dl).2 = .ok (minIty, signed)
  sts_eq : layoutVariants dl d.repr (.prefixed minIty.size (prefixAlign dl d minIty)) 0 d.variants =
    .ok sts
  rank_le : minIty.rank ≤ (d.discrInteger dl).rank
  widen_eq : widenTag minIty (widerInteger dl d minIty (startAlign d.variants sts)) sts =
    .ok (ity, sts')
  variants_eq : ∃ start stop, l.variants = .multiple ⟨.int ity signed, start, stop⟩ .tag 0 sts'
  fields_eq : l.fields = .arbitrary [0] [0]
  align_eq : l.align = sts.foldl (fun align v => align.max v.align) dl.aggregateAlign
  size_eq : l.size = alignTo (sts.foldl (fun size v => Nat.max size v.size) 0) l.align.abi

theorem layoutTagged_eq_ok (h : layoutTagged dl d = .ok l) :
    ∃ minIty ity signed sts sts', TaggedLayout dl d l minIty ity signed sts sts' := by
  unfold layoutTagged at h
  generalize hbounds : d.discrBounds dl = bounds at h
  obtain ⟨-, -, h⟩ := bind_eq_ok.1 h
  obtain ⟨⟨minIty, signed⟩, hrepr, h⟩ := bind_eq_ok.1 h
  obtain ⟨sts, hsts, h⟩ := bind_eq_ok.1 h
  dsimp only at h
  split at h
  · cases h
  · obtain ⟨_, hrank, h⟩ := bind_eq_ok.1 h
    obtain ⟨⟨ity, sts'⟩, hwiden, h⟩ := bind_eq_ok.1 h
    cases h
    exact ⟨minIty, ity, signed, sts, sts', by rw [hbounds]; exact hrepr, hsts,
      by simpa using assertThat_eq_ok.1 hrank, hwiden, ⟨_, _, rfl⟩, rfl, rfl, rfl⟩

theorem widenTag_eq_ok {minIty ity : Integer} {a : Align} {sts sts' : List LayoutDetails}
    (h : widenTag minIty (widerInteger dl d minIty a) sts = .ok (ity, sts')) :
    (ity = minIty ∧ sts' = sts) ∨
      (minIty.rank < ity.rank ∧ d.repr.isC = false ∧ d.repr.int = none ∧ ity.size = a.bytes ∧
        patchVariants minIty.size ity.size sts = .ok sts') := by
  rw [widenTag] at h
  split at h
  · cases h
    exact .inl ⟨rfl, rfl⟩
  · rename_i hrank
    obtain ⟨sts1, hpatch, h⟩ := bind_eq_ok.1 h
    cases h
    refine .inr ⟨by omega, ?_⟩
    rw [widerInteger] at hrank hpatch ⊢
    split at hrank
    · omega
    · rename_i hopt
      rw [if_neg hopt] at hpatch
      rw [Bool.or_eq_true, not_or, Bool.not_eq_true, Bool.not_eq_true, isSome_eq_false_iff,
        isNone_iff_eq_none] at hopt
      rw [hopt.1, hopt.2]
      cases hfor : forAlign dl a with
      | none =>
        rw [hfor] at hrank
        exact absurd le_rfl hrank
      | some i =>
        rw [hfor] at hpatch
        exact ⟨rfl, rfl, by simpa using size_of_forAlign hfor, by simpa using hpatch⟩

/-- `layout_raw_uncached`, for an enum. -/
def layoutEnum (dl : TargetDataLayout) (d : AdtDef) : LayoutResult LayoutDetails :=
  match d.presentVariants with
  | [] => .ok (neverLayout dl)
  | v :: rest =>
    if rest.isEmpty && !d.repr.inhibitEnumLayoutOpt then
      match d.variants[v]? with
      | some variant => layoutSingle dl d v variant.fields
      | none => .error (.panic "index out of bounds")
    else
      match nicheFilling dl d with
      | some filling => layoutNiche dl d filling
      | none => layoutTagged dl d

namespace Sample

/-- The data layout of `x86_64`. -/
def target : TargetDataLayout :=
  { endian := .little, i8Align := .new ⟨0⟩, i16Align := .new ⟨1⟩, i32Align := .new ⟨2⟩,
    i64Align := .new ⟨3⟩, i128Align := .new ⟨3⟩, f32Align := .new ⟨2⟩, f64Align := .new ⟨3⟩,
    pointerSize := .w64, pointerAlign := .new ⟨3⟩, aggregateAlign := ⟨⟨0⟩, ⟨3⟩⟩ }

def nonNull : Scalar := ⟨.pointer, 1, 2 ^ 64 - 1⟩

def reference : LayoutDetails :=
  { variants := .single 0, fields := .union 0, abi := .scalar nonNull,
    largestNiche := some ⟨0, nonNull⟩, align := .new ⟨3⟩, size := 8 }

/-- A struct without fields. -/
def zst (align : Align) : LayoutDetails :=
  { variants := .single 0, fields := .arbitrary [] [], abi := .aggregate true,
    largestNiche := none, align := .new align, size := 0 }

/-- An enum without attributes or discriminants. -/
def enumOf (variants : List (List LayoutDetails)) : AdtDef :=
  { variants := variants.map fun fields => ⟨fields, none⟩
    repr := ⟨none, none, none, false, false, false⟩
    scalarValidStart := none
    scalarValidEnd := none }

end Sample

end Tortis.Layout
