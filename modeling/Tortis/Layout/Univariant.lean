import Tortis.Layout.Abi

/-!
# Layouts of structs

`univariant_uninterned` (`librustc/ty/layout.rs`) lays out the fields of a struct or of one variant
of an enum, in memory order: each field goes to the next offset that its alignment allows. The
result is described by `Placement`: the fields do not overlap, are aligned and lie between the
prefix and the size.
-/

namespace Tortis.Layout

open List AbiAndPrefAlign

/-! ## Layouts -/

inductive FieldPlacement where
  | union (count : Nat)
  | array (stride count : Nat)
  | arbitrary (offsets memoryIndex : List Nat)
deriving DecidableEq

inductive Abi where
  | uninhabited
  | scalar (scalar : Scalar)
  | scalarPair (a b : Scalar)
  | vector (element : Scalar) (count : Nat)
  | aggregate (sized : Bool)

inductive DiscriminantKind where
  | tag
  | niche (datafulVariant nicheVariantsStart nicheVariantsEnd nicheStart : Nat)

mutual

inductive Variants where
  | single (index : Nat)
  | multiple (discr : Scalar) (discrKind : DiscriminantKind) (discrIndex : Nat)
      (variants : List LayoutDetails)

structure LayoutDetails where
  variants : Variants
  fields : FieldPlacement
  abi : Abi
  largestNiche : Option Niche
  align : AbiAndPrefAlign
  size : Nat

end

namespace Abi

def isUnsized : Abi → Bool
  | .aggregate sized => !sized
  | _ => false

def isUninhabited : Abi → Bool
  | .uninhabited => true
  | _ => false

end Abi

namespace LayoutDetails

def isUnsized (l : LayoutDetails) : Bool := l.abi.isUnsized

def isZst (l : LayoutDetails) : Bool :=
  match l.abi with
  | .scalar _ | .scalarPair _ _ | .vector _ _ => false
  | .uninhabited => l.size = 0
  | .aggregate sized => sized && l.size = 0

theorem size_of_isZst {l : LayoutDetails} (h : l.isZst = true) : l.size = 0 := by
  rw [isZst] at h
  split at h <;> simp_all

end LayoutDetails

/-- `LayoutError`, of the layouts of fields that are known. -/
inductive LayoutError where
  | sizeOverflow

/-- Why there is no layout: an error, or a panic. -/
inductive Failure where
  | error (error : LayoutError)
  | panic (msg : String)

/-- `Result<LayoutDetails, LayoutError>`, of code that may also panic. -/
abbrev LayoutResult (α : Type) := Except Failure α

theorem LayoutResult.bind_eq_ok {α β : Type} {x : LayoutResult α} {f : α → LayoutResult β} {b : β} :
    (x >>= f) = .ok b ↔ ∃ a, x = .ok a ∧ f a = .ok b := by
  cases x with
  | error e => exact ⟨nofun, fun ⟨_, h, _⟩ => nomatch h⟩
  | ok a => exact ⟨fun h => ⟨a, rfl, h⟩, fun ⟨_, h, h'⟩ => by cases h; exact h'⟩

/-- `assert!` and `bug!`. -/
def assertThat (cond : Bool) (msg : String) : LayoutResult Unit :=
  if cond then .ok () else .error (.panic msg)

theorem assertThat_eq_ok {cond : Bool} {msg : String} {u : Unit} :
    assertThat cond msg = .ok u ↔ cond = true := by
  cases cond <;> simp [assertThat]

/-! ## Representations -/

/-- `attr::IntType`, by the type's size; `none` is `isize` or `usize`. -/
inductive IntType where
  | signedInt (ity : Option Integer)
  | unsignedInt (ity : Option Integer)

namespace IntType

def isSigned : IntType → Bool
  | .signedInt _ => true
  | .unsignedInt _ => false

end IntType

def Integer.fromAttr (dl : TargetDataLayout) : IntType → Integer
  | .signedInt (some i) | .unsignedInt (some i) => i
  | .signedInt none | .unsignedInt none => dl.ptrSizedInteger

/-- `ReprOptions`, with the flags that layouts of enums read. -/
structure ReprOptions where
  int : Option IntType
  align : Option Align
  pack : Option Align
  isC : Bool
  isSimd : Bool
  isLinear : Bool

namespace ReprOptions

section
variable (repr : ReprOptions)

def discrType : IntType :=
  repr.int.getD (.signedInt none)

def inhibitEnumLayoutOpt : Bool :=
  repr.isC || repr.int.isSome

def inhibitStructFieldReorderingOpt : Bool :=
  repr.pack.any (·.bytes = 1) || (repr.isC || repr.isSimd || repr.isLinear) || repr.int.isSome

end

end ReprOptions

inductive StructKind where
  | alwaysSized
  | maybeUnsized
  | prefixed (size : Nat) (align : Align)
deriving DecidableEq

/-! ## Orders of fields -/

/-- `invert_mapping`. The indices of the map are in bounds (`invertMapping_invertMapping`). -/
def invertMapping (map : List Nat) : List Nat :=
  map.zipIdx.foldl (fun inverse p => inverse.set p.1 p.2) (replicate map.length 0)

namespace FieldPlacement

def count : FieldPlacement → Nat
  | .union count => count
  | .array _ count => count
  | .arbitrary offsets _ => offsets.length

def offset (i : Nat) : FieldPlacement → LayoutResult Nat
  | .union count => do
    assertThat (i < count) "Tried to access a field of a union"
    .ok 0
  | .array stride count => do
    assertThat (i < count) "assertion failed: i < count"
    .ok (stride * i)
  | .arbitrary offsets _ =>
    match offsets[i]? with
    | some offset => .ok offset
    | none => .error (.panic "index out of bounds")

def indexByIncreasingOffset : FieldPlacement → List Nat
  | .arbitrary _ memoryIndex => invertMapping memoryIndex
  | fields => range fields.count

end FieldPlacement

section InvertMapping

variable {map : List Nat} {l : List (Nat × Nat)}

theorem foldl_set_length : ∀ (acc : List Nat),
    (l.foldl (fun inverse p => inverse.set p.1 p.2) acc).length = acc.length := by
  induction l with
  | nil => exact fun _ => rfl
  | cons p l ih => exact fun acc => (ih _).trans length_set

theorem foldl_set_get : ∀ (acc : List Nat), (l.map (·.1)).Nodup → (∀ p ∈ l, p.1 < acc.length) →
    (∀ p ∈ l, (l.foldl (fun inverse p => inverse.set p.1 p.2) acc)[p.1]? = some p.2) ∧ ∀ y,
    (∀ p ∈ l, p.1 ≠ y) → (l.foldl (fun inverse p => inverse.set p.1 p.2) acc)[y]? = acc[y]? := by
  induction l with
  | nil => exact fun acc _ _ => ⟨nofun, fun y _ => rfl⟩
  | cons p l ih =>
    intro acc hnodup hlt
    rw [map_cons, nodup_cons] at hnodup
    obtain ⟨hin, hout⟩ := ih (acc.set p.1 p.2) hnodup.2 fun q hq => by
      rw [length_set]
      exact hlt q (.tail _ hq)
    refine ⟨fun q hq => ?_, fun y hy => ?_⟩
    · rcases mem_cons.1 hq with rfl | hq
      · have hne : ∀ r ∈ l, r.1 ≠ q.1 := fun r hr heq =>
          hnodup.1 (heq ▸ mem_map_of_mem hr)
        rw [foldl_cons, hout _ hne, getElem?_set_self (hlt q (.head _))]
      · exact hin q hq
    · rw [foldl_cons, hout y fun q hq => hy q (.tail _ hq), getElem?_set_ne (hy p (.head _))]

theorem length_invertMapping (map : List Nat) : (invertMapping map).length = map.length := by
  rw [invertMapping, foldl_set_length, length_replicate]

section
variable (hmap : map.Perm (range map.length))
include hmap

theorem getElem?_invertMapping {x y : Nat}
    (h : map[x]? = some y) : (invertMapping map)[y]? = some x := by
  have hfst : map.zipIdx.map (·.1) = map := zipIdx_map_fst 0 map
  have hnodup : map.Nodup := hmap.nodup_iff.2 nodup_range
  have hlt : ∀ p ∈ map.zipIdx, p.1 < (replicate map.length 0).length := by
    intro p hp
    have hmem : p.1 ∈ map := hfst ▸ mem_map_of_mem hp
    rw [length_replicate]
    exact mem_range.1 (hmap.mem_iff.1 hmem)
  have hp : (y, x) ∈ map.zipIdx := mem_zipIdx_iff_getElem?.2 h
  exact (foldl_set_get _ (hfst.symm ▸ hnodup) hlt).1 _ hp

theorem invertMapping_perm : (invertMapping map).Perm (range map.length) := by
  have hlen := length_invertMapping map
  have hsub : range map.length ⊆ invertMapping map := by
    intro x hx
    have hlt : x < map.length := mem_range.1 hx
    exact mem_of_getElem? (getElem?_invertMapping hmap (getElem?_eq_getElem hlt))
  have hsubperm := subperm_of_subset nodup_range hsub
  exact (hsubperm.perm_of_length_le (by rw [hlen, length_range])).symm

theorem invertMapping_invertMapping : invertMapping (invertMapping map) = map := by
  have hinv := invertMapping_perm hmap
  have hlen := length_invertMapping map
  refine ext_getElem? fun x => ?_
  cases hx : map[x]? with
  | some y =>
    have hy := getElem?_invertMapping hmap hx
    exact getElem?_invertMapping (hlen.symm ▸ hinv) hy
  | none =>
    rw [getElem?_eq_none_iff, length_invertMapping, hlen]
    exact getElem?_eq_none_iff.1 hx

end

theorem invertMapping_range (n : Nat) : invertMapping (range n) = range n := by
  have hperm : (range n).Perm (range (range n).length) := by
    rw [length_range]
  refine ext_getElem? fun x => ?_
  rcases lt_or_ge x n with hx | hx
  · have h : (range n)[x]? = some x := getElem?_range hx
    rw [getElem?_invertMapping hperm h, h]
  · rw [getElem?_eq_none (by rwa [length_invertMapping, length_range]),
      getElem?_eq_none (by rwa [length_range])]

end InvertMapping

/-! ## The layout of a struct -/

section
variable (dl : TargetDataLayout)

/-- The niche with the most values; the last of two that have as many. -/
def maxNiche : Option Niche → Option Niche → Option Niche
  | some a, some b => if a.available dl ≤ b.available dl then some b else some a
  | some a, none => some a
  | none, b => b

def scalarPair (dl : TargetDataLayout) (a b : Scalar) : LayoutDetails :=
  let bAlign := b.value.align dl
  let align := ((a.value.align dl).max bAlign).max dl.aggregateAlign
  let bOffset := alignTo (a.value.size dl) bAlign.abi
  { variants := .single 0
    fields := .arbitrary [0, bOffset] [0, 1]
    abi := .scalarPair a b
    largestNiche := maxNiche dl (Niche.fromScalar dl bOffset b) (Niche.fromScalar dl 0 a)
    align := align
    size := alignTo (bOffset + b.value.size dl) align.abi }

/-- Whether `univariant_uninterned` may reorder the fields. -/
def optimizes (repr : ReprOptions) (kind : StructKind) : Bool :=
  !repr.inhibitStructFieldReorderingOpt &&
    match kind with
    | .prefixed _ align => align.bytes = 1
    | _ => true

/-- The alignment of a field in a struct that may be packed. -/
def fieldAlign (pack : Option Align) (f : LayoutDetails) : AbiAndPrefAlign :=
  match pack with
  | some pack => f.align.min (.new pack)
  | none => f.align

section
variable (fields : List LayoutDetails)

/-- The keys that fields are sorted by: zero-sized fields first and then by falling alignment, but
by rising alignment after a prefix. -/
def sortsBefore (pack : Option Align) (kind : StructKind) (x y : Nat) : Bool :=
  match fields[x]?, fields[y]? with
  | some f, some g =>
    let alignF := (fieldAlign pack f).abi.pow2
    let alignG := (fieldAlign pack g).abi.pow2
    match kind with
    | .prefixed _ _ => alignF ≤ alignG
    | _ => (f.isZst && !g.isZst) || (f.isZst == g.isZst && alignG ≤ alignF)
  | _, _ => true

section
variable (repr : ReprOptions)

/-- `inverse_memory_index`: the fields by increasing memory offset. `sort_by_key` is stable, as
`insertionSort` is. -/
def inverseMemoryIndex (kind : StructKind) : List Nat :=
  let indices := range fields.length
  if optimizes repr kind then
    let stop := match kind with
      | .maybeUnsized => fields.length - 1
      | _ => fields.length
    (indices.take stop).insertionSort (fun x y => sortsBefore fields repr.pack kind x y) ++
      indices.drop stop
  else indices

/-- The variables of the loop over the fields. -/
structure Placing where
  offset : Nat
  align : AbiAndPrefAlign
  offsets : List Nat
  largestNiche : Option Niche
  largestNicheAvailable : Nat
  sized : Bool

/-- The largest niche after a field at `offset`. -/
def Placing.niche (dl : TargetDataLayout) (s : Placing) (field : LayoutDetails) (offset : Nat) :
    Option Niche × Nat :=
  match field.largestNiche with
  | some niche =>
    if niche.available dl > s.largestNicheAvailable then
      (some { niche with offset := niche.offset + offset }, niche.available dl)
    else (s.largestNiche, s.largestNicheAvailable)
  | none => (s.largestNiche, s.largestNicheAvailable)

/-- One round of the loop over the fields. -/
def placeField (pack : Option Align) (s : Placing) (i : Nat) : LayoutResult Placing :=
  match fields[i]? with
  | none => .error (.panic "index out of bounds")
  | some field => do
    assertThat s.sized "univariant: field comes after unsized field"
    let offset := alignTo s.offset (fieldAlign pack field).abi
    match checkedAdd dl offset field.size with
    | none => .error (.error .sizeOverflow)
    | some stop =>
      .ok
        { offset := stop
          align := s.align.max (fieldAlign pack field)
          offsets := s.offsets.set i offset
          largestNiche := (s.niche dl field offset).1
          largestNicheAvailable := (s.niche dl field offset).2
          sized := !field.isUnsized }

def placeFields (dl : TargetDataLayout) (fields : List LayoutDetails) (pack : Option Align) :
    List Nat → Placing → LayoutResult Placing
  | [], s => .ok s
  | i :: rest, s => do
    let s ← placeField dl fields pack s i
    placeFields dl fields pack rest s

/-- Newtypes and pairs of scalars have the ABI of their scalars. -/
def univariantAbi (s : Placing) (align : AbiAndPrefAlign) (size : Nat) (optimize : Bool) : Abi :=
  let placed := fields.zip s.offsets
  if s.sized && fields.any (·.abi.isUninhabited) then .uninhabited
  else if s.sized && size > 0 && (placed.filter (·.1.isZst)).all (·.2 = 0) then
    match placed.filter (!·.1.isZst) with
    | [(field, offset)] =>
      if offset = 0 && align.abi = field.align.abi && size = field.size then
        match field.abi with
        | .scalar _ | .vector _ _ => if optimize then field.abi else .aggregate s.sized
        | .scalarPair _ _ => field.abi
        | _ => .aggregate s.sized
      else .aggregate s.sized
    | [(f, i), (g, j)] =>
      match f.abi, g.abi with
      | .scalar a, .scalar b =>
        let pair := if i < j then scalarPair dl a b else scalarPair dl b a
        if pair.fields = .arbitrary [min i j, max i j] [0, 1] && align = pair.align &&
          size = pair.size then pair.abi else .aggregate s.sized
      | _, _ => .aggregate s.sized
    | _ => .aggregate s.sized
  else .aggregate s.sized

/-- Where the fields start, and the alignment before them. -/
def Placing.start (kind : StructKind) : Placing :=
  let align := if repr.pack.isSome then dl.i8Align else dl.aggregateAlign
  let offsets := replicate fields.length 0
  match kind with
  | .prefixed size prefixAlign =>
    let prefixAlign := match repr.pack with
      | some pack => prefixAlign.min pack
      | none => prefixAlign
    ⟨alignTo size prefixAlign, align.max (.new prefixAlign), offsets, none, 0, true⟩
  | _ => ⟨0, align, offsets, none, 0, true⟩

/-- `univariant_uninterned`. -/
def univariant (kind : StructKind) : LayoutResult LayoutDetails := do
  assertThat (!(repr.pack.isSome && repr.align.isSome)) "struct cannot be packed and aligned"
  -- `fields.len() - 1`, where the last field keeps its place
  assertThat (!(optimizes repr kind && kind = .maybeUnsized && fields.isEmpty))
    "attempt to subtract with overflow"
  let order := inverseMemoryIndex fields repr kind
  let s ← placeFields dl fields repr.pack order (.start dl fields repr kind)
  let align := match repr.align with
    | some reprAlign => s.align.max (.new reprAlign)
    | none => s.align
  let size := alignTo s.offset align.abi
  .ok
    { variants := .single 0
      fields := .arbitrary s.offsets
        (if optimizes repr kind then invertMapping order else order)
      abi := univariantAbi dl fields s align size (optimizes repr kind)
      largestNiche := s.largestNiche
      align := align
      size := size }

end

end

end

/-! ## What the layout says -/

theorem inverseMemoryIndex_perm (fields : List LayoutDetails) (repr : ReprOptions)
    (kind : StructKind) : (inverseMemoryIndex fields repr kind).Perm (range fields.length) := by
  have hsort : ∀ (r : Nat → Nat → Prop) [DecidableRel r] (stop : Nat),
      ((range fields.length).take stop).insertionSort r ++
        (range fields.length).drop stop |>.Perm (range fields.length) := by
    intro r _ stop
    refine ((perm_insertionSort r _).append_right _).trans ?_
    rw [take_append_drop]
  unfold inverseMemoryIndex
  split
  · exact hsort _ _
  · exact .refl _

theorem mem_inverseMemoryIndex {fields : List LayoutDetails} {repr : ReprOptions}
    {kind : StructKind} {i : Nat} : i ∈ inverseMemoryIndex fields repr kind ↔ i < fields.length :=
  (inverseMemoryIndex_perm ..).mem_iff.trans mem_range

variable {order : List Nat}

theorem pairwise_or {R : Nat → Nat → Prop} {n : Nat}
    (hperm : order.Perm (range n)) (h : order.Pairwise R) {i j : Nat} (hi : i < n) (hj : j < n)
    (hij : i ≠ j) : R i j ∨ R j i := by
  have hmem : ∀ {k : Nat}, k < n → k ∈ order := fun hk => hperm.mem_iff.2 (mem_range.2 hk)
  have : Std.Symm fun x y => R x y ∨ R y x := ⟨fun _ _ => Or.symm⟩
  exact (h.imp (S := fun x y => R x y ∨ R y x) .inl).forall (hmem hi) (hmem hj) hij

theorem forall_order_iff {fields : List LayoutDetails}
    (hperm : order.Perm (range fields.length)) {p : LayoutDetails → Prop} :
    (∀ i ∈ order, ∀ f, fields[i]? = some f → p f) ↔ ∀ f ∈ fields, p f := by
  constructor
  · intro h f hf
    obtain ⟨i, hi⟩ := mem_iff_getElem?.1 hf
    have hlt := (List.getElem?_eq_some_iff.1 hi).1
    exact h i (hperm.mem_iff.2 (mem_range.2 hlt)) f hi
  · exact fun h i _ f hf => h f (mem_of_getElem? hf)

theorem indexByIncreasingOffset_memoryIndex (fields : List LayoutDetails) (repr : ReprOptions)
    (kind : StructKind) (offsets : List Nat) :
    FieldPlacement.indexByIncreasingOffset (.arbitrary offsets
      (if optimizes repr kind then invertMapping (inverseMemoryIndex fields repr kind)
        else inverseMemoryIndex fields repr kind)) = inverseMemoryIndex fields repr kind := by
  have hperm := inverseMemoryIndex_perm fields repr kind
  have hlen : (inverseMemoryIndex fields repr kind).length = fields.length := by
    rw [hperm.length_eq, length_range]
  split
  · exact invertMapping_invertMapping (hlen.symm ▸ hperm)
  · rename_i hopt
    unfold inverseMemoryIndex
    rw [if_neg hopt]
    exact invertMapping_range _

/-- The fields lie between two bounds, are aligned, and follow each other in the given order. -/
structure Placement (fields : List LayoutDetails) (order offsets : List Nat) (start stop : Nat) :
    Prop where
  length_eq : offsets.length = fields.length
  inside : ∀ (i : Nat) f o, fields[i]? = some f → offsets[i]? = some o →
    start ≤ o ∧ o + f.size ≤ stop
  aligned : ∀ (i : Nat) f o, fields[i]? = some f → offsets[i]? = some o → f.align.abi.bytes ∣ o
  ordered : order.Pairwise fun i j => ∀ f o o', fields[i]? = some f → offsets[i]? = some o →
    offsets[j]? = some o' → o + f.size ≤ o'

/-- What a part of the loop over the fields does. -/
structure PlacedOver (fields : List LayoutDetails) (l : List Nat) (s s' : Placing) : Prop where
  length_eq : s'.offsets.length = s.offsets.length
  offset_le : s.offset ≤ s'.offset
  other : ∀ i ∉ l, s'.offsets[i]? = s.offsets[i]?
  inside : ∀ i ∈ l, ∀ f o, fields[i]? = some f → s'.offsets[i]? = some o →
    s.offset ≤ o ∧ o + f.size ≤ s'.offset ∧ f.align.abi.bytes ∣ o
  ordered : l.Pairwise fun i j => ∀ f o o', fields[i]? = some f → s'.offsets[i]? = some o →
    s'.offsets[j]? = some o' → o + f.size ≤ o'
  align_le : ∀ p, s'.align.abi.pow2 ≤ p ↔
    s.align.abi.pow2 ≤ p ∧ ∀ i ∈ l, ∀ f, fields[i]? = some f → f.align.abi.pow2 ≤ p

variable {dl : TargetDataLayout} {fields : List LayoutDetails}

theorem placeField_eq_ok {s s' : Placing} {i : Nat} (h : placeField dl fields none s i = .ok s') :
    ∃ f, fields[i]? = some f ∧ s'.offset = alignTo s.offset f.align.abi + f.size ∧
      s'.align = s.align.max f.align ∧
      s'.offsets = s.offsets.set i (alignTo s.offset f.align.abi) := by
  rw [placeField] at h
  split at h
  · cases h
  · rename_i f hf
    obtain ⟨-, -, h⟩ := LayoutResult.bind_eq_ok.1 h
    dsimp only at h
    split at h
    · cases h
    · rename_i stop hstop
      cases h
      exact ⟨f, hf, checkedAdd_eq_some hstop, rfl, rfl⟩

theorem placeFields_spec : ∀ {l : List Nat} {s s' : Placing},
    placeFields dl fields none l s = .ok s' → l.Nodup → (∀ i ∈ l, i < fields.length) →
    s.offsets.length = fields.length → PlacedOver fields l s s'
  | [], s, s', h, _, _, _ => by
    cases h
    exact ⟨rfl, le_rfl, fun _ _ => rfl, nofun, .nil, fun p => by simp⟩
  | i :: l, s, s', h, hnodup, hlt, hsl => by
    obtain ⟨s1, h1, h2⟩ := LayoutResult.bind_eq_ok.1 h
    obtain ⟨f, hf, hoffset, halign, hoffsets⟩ := placeField_eq_ok h1
    rw [nodup_cons] at hnodup
    have hi : i < s.offsets.length := hsl.symm ▸ hlt i (.head _)
    have hlen : s1.offsets.length = s.offsets.length := by rw [hoffsets, length_set]
    have hrest := placeFields_spec h2 hnodup.2 (fun j hj => hlt j (.tail _ hj)) (hlen.trans hsl)
    have hge := le_alignTo s.offset f.align.abi
    have hput : s'.offsets[i]? = some (alignTo s.offset f.align.abi) := by
      rw [hrest.other i hnodup.1, hoffsets, getElem?_set_self hi]
    refine ⟨hrest.length_eq.trans hlen, by have := hrest.offset_le; omega, fun j hj => ?_, ?_, ?_,
      fun p => ?_⟩
    · rw [mem_cons, not_or] at hj
      rw [hrest.other j hj.2, hoffsets, getElem?_set_ne (Ne.symm hj.1)]
    · intro j hj g o hg ho
      rcases mem_cons.1 hj with rfl | hj
      · cases hf.symm.trans hg
        cases hput.symm.trans ho
        have := hrest.offset_le
        exact ⟨hge, by omega, dvd_alignTo _ _⟩
      · obtain ⟨h1, h2, h3⟩ := hrest.inside j hj g o hg ho
        exact ⟨by omega, h2, h3⟩
    · refine pairwise_cons.2 ⟨fun j hj g o o' hg ho ho' => ?_, hrest.ordered⟩
      cases hf.symm.trans hg
      cases hput.symm.trans ho
      have hj' := getElem?_eq_getElem (hlt j (.tail _ hj))
      have := (hrest.inside j hj _ _ hj' ho').1
      omega
    · rw [hrest.align_le, halign, max_abi_le]
      simp only [forall_mem_cons, hf, Option.some.injEq, forall_eq']
      tauto

theorem placeFields_leading : ∀ {pre rest : List Nat} {s s' : Placing},
    placeFields dl fields none (pre ++ rest) s = .ok s' → (pre ++ rest).Nodup →
    (∀ i ∈ pre ++ rest, i < fields.length) → s.offsets.length = fields.length →
    (∀ i ∈ pre, ∀ f, fields[i]? = some f → f.size = 0 ∧ f.align.abi.bytes = 1) →
    ∀ i ∈ pre, s'.offsets[i]? = some s.offset
  | [], _, _, _, _, _, _, _, _, _, hi => nomatch hi
  | j :: pre, rest, s, s', h, hnodup, hlt, hsl, hmovable, i, hi => by
    obtain ⟨s1, h1, h2⟩ := LayoutResult.bind_eq_ok.1 h
    obtain ⟨f, hf, hoffset, -, hoffsets⟩ := placeField_eq_ok h1
    obtain ⟨hsize, halign⟩ := hmovable j (.head _) f hf
    have hstay : alignTo s.offset f.align.abi = s.offset := by
      simp only [alignTo, halign, Nat.sub_self, Nat.mod_one, Nat.sub_zero, add_zero]
    rw [hstay, hsize, add_zero] at hoffset
    rw [hstay] at hoffsets
    rw [cons_append, nodup_cons] at hnodup
    have hlt' : ∀ i ∈ pre ++ rest, i < fields.length := fun k hk => hlt k (.tail _ hk)
    have hsl' : s1.offsets.length = fields.length := by rw [hoffsets, length_set, hsl]
    rcases mem_cons.1 hi with rfl | hi
    · have hi' : i < s.offsets.length := hsl.symm ▸ hlt i (.head _)
      rw [(placeFields_spec h2 hnodup.2 hlt' hsl').other i hnodup.1, hoffsets,
        getElem?_set_self hi']
    · rw [← hoffset]
      exact placeFields_leading h2 hnodup.2 hlt' hsl' (fun k hk => hmovable k (.tail _ hk)) i hi

variable {repr : ReprOptions}

theorem Placing.start_align_le (hpack : repr.pack = none) (kind : StructKind)
    (p : Nat) : (Placing.start dl fields repr kind).align.abi.pow2 ≤ p ↔
      dl.aggregateAlign.abi.pow2 ≤ p ∧
        ∀ size align, kind = .prefixed size align → align.pow2 ≤ p := by
  cases kind with
  | alwaysSized | maybeUnsized => simp [start, hpack]
  | prefixed size align =>
    simp only [start, hpack, Option.isSome_none, Bool.false_eq_true, if_false,
      max_abi_le, AbiAndPrefAlign.new, StructKind.prefixed.injEq, and_imp]
    exact and_congr_right fun _ => ⟨fun h _ _ _ h' => h' ▸ h, fun h => h _ _ rfl rfl⟩

theorem Placing.start_offsets_length (repr : ReprOptions) (kind : StructKind) :
    (Placing.start dl fields repr kind).offsets.length = fields.length := by
  cases kind <;> exact length_replicate

/-- Where the fields end, when each goes to the next offset that its alignment allows. -/
def fieldsEnd (fields : List LayoutDetails) : List Nat → Nat → Nat
  | [], offset => offset
  | i :: rest, offset =>
    match fields[i]? with
    | some f => fieldsEnd fields rest (alignTo offset f.align.abi + f.size)
    | none => fieldsEnd fields rest offset

theorem placeFields_offset : ∀ {l : List Nat} {s s' : Placing},
    placeFields dl fields none l s = .ok s' → s'.offset = fieldsEnd fields l s.offset
  | [], s, s', h => by
    cases h
    rfl
  | i :: l, s, s', h => by
    obtain ⟨s1, h1, h2⟩ := LayoutResult.bind_eq_ok.1 h
    obtain ⟨f, hf, hoffset, -, -⟩ := placeField_eq_ok h1
    rw [placeFields_offset h2, hoffset, fieldsEnd, hf]

/-- A layout of a struct that is not packed: its fields are placed, in memory order, between the
prefix and the size; the size is a multiple of the alignment; and the alignment is the largest that
is asked for. -/
structure StructLayout (dl : TargetDataLayout) (fields : List LayoutDetails) (repr : ReprOptions)
    (kind : StructKind) (st : LayoutDetails) (offsets : List Nat) : Prop where
  fields_eq : ∃ memoryIndex, st.fields = .arbitrary offsets memoryIndex
  order_eq : st.fields.indexByIncreasingOffset = inverseMemoryIndex fields repr kind
  placement : Placement fields (inverseMemoryIndex fields repr kind) offsets
    (Placing.start dl fields repr kind).offset st.size
  start_le : (Placing.start dl fields repr kind).offset ≤ st.size
  leading : ∀ pre rest, inverseMemoryIndex fields repr kind = pre ++ rest →
    (∀ i ∈ pre, ∀ f, fields[i]? = some f → f.size = 0 ∧ f.align.abi.bytes = 1) →
    ∀ i ∈ pre, offsets[i]? = some (Placing.start dl fields repr kind).offset
  size_eq : st.size = alignTo (fieldsEnd fields (inverseMemoryIndex fields repr kind)
    (Placing.start dl fields repr kind).offset) st.align.abi
  align_le : ∀ p, st.align.abi.pow2 ≤ p ↔
    (Placing.start dl fields repr kind).align.abi.pow2 ≤ p ∧
      (∀ f ∈ fields, f.align.abi.pow2 ≤ p) ∧ ∀ a, repr.align = some a → a.pow2 ≤ p

variable {kind : StructKind} {st : LayoutDetails}

theorem univariant_spec (hpack : repr.pack = none) (h : univariant dl fields repr kind = .ok st) :
    ∃ offsets, StructLayout dl fields repr kind st offsets := by
  obtain ⟨-, -, h⟩ := LayoutResult.bind_eq_ok.1 h
  obtain ⟨-, -, h⟩ := LayoutResult.bind_eq_ok.1 h
  obtain ⟨s, hs, h⟩ := LayoutResult.bind_eq_ok.1 h
  cases h
  rw [hpack] at hs
  have hperm := inverseMemoryIndex_perm fields repr kind
  have hmem := @mem_inverseMemoryIndex fields repr kind
  have hnodup := hperm.nodup_iff.2 nodup_range
  have hplaced := placeFields_spec hs hnodup (fun i => hmem.1)
    (Placing.start_offsets_length repr kind)
  have hsize := le_alignTo s.offset (match repr.align with
    | some reprAlign => s.align.max (.new reprAlign)
    | none => s.align).abi
  refine ⟨s.offsets, ⟨_, rfl⟩, indexByIncreasingOffset_memoryIndex _ _ _ _, ⟨hplaced.length_eq.trans
    (Placing.start_offsets_length repr kind), ?_, ?_, hplaced.ordered⟩,
    hplaced.offset_le.trans hsize, ?_, by rw [← placeFields_offset hs], fun p => ?_⟩
  · intro i f o hf ho
    obtain ⟨hlt, -⟩ := List.getElem?_eq_some_iff.1 hf
    obtain ⟨h1, h2, -⟩ := hplaced.inside i (hmem.2 hlt) f o hf ho
    exact ⟨h1, h2.trans hsize⟩
  · intro i f o hf ho
    obtain ⟨hlt, -⟩ := List.getElem?_eq_some_iff.1 hf
    exact (hplaced.inside i (hmem.2 hlt) f o hf ho).2.2
  · intro pre rest heq hmovable
    rw [heq] at hs hnodup hmem
    exact placeFields_leading hs hnodup (fun i => hmem.1) (Placing.start_offsets_length repr kind)
      hmovable
  · have hs := hplaced.align_le p
    rw [forall_order_iff hperm] at hs
    cases repr.align with
    | none => simpa using hs
    | some a =>
      simp only [max_abi_le, hs, AbiAndPrefAlign.new, Option.some.injEq, forall_eq', and_assoc]

theorem StructLayout.size_dvd {offsets : List Nat}
    (h : StructLayout dl fields repr kind st offsets) : st.align.abi.bytes ∣ st.size :=
  h.size_eq ▸ dvd_alignTo _ _

end Tortis.Layout
