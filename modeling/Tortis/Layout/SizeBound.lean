import Tortis.Layout.StructFields

/-!
# Structs at the object size bound

`univariant_uninterned` (`librustc/ty/layout.rs`) checks the end of every field against
`obj_size_bound`, and rounds the end of the last one up to the alignment of the struct without a
check, where the layout of an enum with a tag checks its size after rounding. So a struct whose
fields end close enough to the bound gets a size that is not below it (`univariant_reaches_bound`).
-/

namespace Tortis.Layout

open List LayoutResult Placing Sample

/-! ## Rounding up -/

theorem alignTo_lt_add (size : Nat) (align : Align) : alignTo size align < size + align.bytes := by
  have := align.bytes_pos
  simp only [alignTo]
  omega

theorem alignTo_le {size m : Nat} {align : Align} (h : size ≤ m) (hdvd : align.bytes ∣ m) :
    alignTo size align ≤ m :=
  Nat.le_of_lt_add_of_dvd (Nat.lt_of_lt_of_le (alignTo_lt_add size align) (Nat.add_le_add_right h _))
    (dvd_alignTo size align) hdvd

theorem alignTo_lt_two_pow_iff {size k : Nat} {align : Align} :
    alignTo size align < 2 ^ k ↔ size ≤ 2 ^ k - align.bytes := by
  have hge := le_alignTo size align
  have hlt := alignTo_lt_add size align
  have hk := Nat.two_pow_pos k
  rcases lt_or_ge k align.pow2 with hp | hp
  · have hbytes : 2 ^ k < align.bytes := Nat.pow_lt_pow_right (by omega) hp
    constructor
    · intro h
      obtain ⟨a, ha⟩ := dvd_alignTo size align
      rcases Nat.eq_zero_or_pos a with rfl | ha'
      · omega
      · have := Nat.le_mul_of_pos_right align.bytes ha'
        omega
    · intro h
      obtain rfl : size = 0 := by omega
      exact lt_of_le_of_lt (alignTo_le (le_refl 0) (Nat.dvd_zero _)) hk
  · have hdvd : align.bytes ∣ 2 ^ k := pow_dvd_pow 2 hp
    have hle := Nat.le_of_dvd hk hdvd
    constructor
    · intro h
      have : alignTo size align + align.bytes ≤ 2 ^ k :=
        Nat.le_of_lt_add_of_dvd (Nat.add_lt_add_right h _)
          (Nat.dvd_add_self_right.mpr (dvd_alignTo size align)) hdvd
      omega
    · intro h
      omega

theorem TargetDataLayout.objSizeBound_eq (dl : TargetDataLayout) :
    ∃ k, dl.objSizeBound = 2 ^ k := by
  rw [objSizeBound]
  split <;> exact ⟨_, rfl⟩

/-! ## The loop over the fields -/

section
variable {dl : TargetDataLayout} {fields : List LayoutDetails}

theorem le_fieldsEnd : ∀ (l : List Nat) (offset : Nat), offset ≤ fieldsEnd fields l offset
  | [], _ => le_rfl
  | i :: l, offset => by
    rw [fieldsEnd]
    split
    · have := le_alignTo offset (‹LayoutDetails›).align.abi
      have := le_fieldsEnd l (alignTo offset (‹LayoutDetails›).align.abi + (‹LayoutDetails›).size)
      omega
    · exact le_fieldsEnd l offset

theorem fieldsEnd_le {offsets : List Nat} {limit : Nat} : ∀ {l : List Nat} {offset : Nat},
    offset ≤ limit → (∀ i ∈ l, ∀ f o, fields[i]? = some f → offsets[i]? = some o →
      offset ≤ o ∧ o + f.size ≤ limit ∧ f.align.abi.bytes ∣ o) →
    (∀ i ∈ l, i < offsets.length) →
    (l.Pairwise fun i j => ∀ f o o', fields[i]? = some f → offsets[i]? = some o →
      offsets[j]? = some o' → o + f.size ≤ o') →
    fieldsEnd fields l offset ≤ limit
  | [], _, h, _, _, _ => h
  | i :: l, offset, h, hinside, hlt, hordered => by
    rw [pairwise_cons] at hordered
    rw [fieldsEnd]
    split
    · rename_i f hf
      obtain ⟨o, ho⟩ : ∃ o, offsets[i]? = some o := ⟨_, getElem?_eq_getElem (hlt i (.head _))⟩
      obtain ⟨hstart, hstop, hdvd⟩ := hinside i (.head _) f o hf ho
      have hle := alignTo_le hstart hdvd
      refine fieldsEnd_le (by omega) (fun j hj g o' hg ho' => ?_) (fun j hj => hlt j (.tail _ hj))
        hordered.2
      obtain ⟨-, hstop', hdvd'⟩ := hinside j (.tail _ hj) g o' hg ho'
      have := hordered.1 j hj f o o' hf ho ho'
      exact ⟨by omega, hstop', hdvd'⟩
    · exact fieldsEnd_le h (fun j hj => hinside j (.tail _ hj)) (fun j hj => hlt j (.tail _ hj))
        hordered.2

theorem placeField_result {s : Placing} {i : Nat} {f : LayoutDetails} (hf : fields[i]? = some f)
    (hsized : s.sized = true) : (dl.objSizeBound ≤ alignTo s.offset f.align.abi + f.size ∧
      placeField dl fields none s i = .error (.error .sizeOverflow)) ∨
    (alignTo s.offset f.align.abi + f.size < dl.objSizeBound ∧
      ∃ s', placeField dl fields none s i = .ok s' ∧
        s'.offset = alignTo s.offset f.align.abi + f.size ∧ s'.sized = !f.isUnsized) := by
  rw [placeField, hf]
  dsimp only [fieldAlign]
  rw [hsized, assertThat, if_pos rfl, checkedAdd]
  by_cases hbound : alignTo s.offset f.align.abi + f.size < dl.objSizeBound
  · rw [if_pos hbound]
    exact .inr ⟨hbound, _, rfl, rfl, rfl⟩
  · rw [if_neg hbound]
    exact .inl ⟨Nat.not_lt.mp hbound, rfl⟩

theorem placeFields_result : ∀ {l : List Nat} {s : Placing}, (∀ i ∈ l, i < fields.length) →
    s.sized = true → (∀ i ∈ l.dropLast, ∀ f, fields[i]? = some f → f.isUnsized = false) →
    (l ≠ [] ∧ dl.objSizeBound ≤ fieldsEnd fields l s.offset ∧
      placeFields dl fields none l s = .error (.error .sizeOverflow)) ∨
    ((l = [] ∨ fieldsEnd fields l s.offset < dl.objSizeBound) ∧
      ∃ s', placeFields dl fields none l s = .ok s')
  | [], s, _, _, _ => .inr ⟨.inl rfl, s, rfl⟩
  | i :: l, s, hlt, hsized, hlast => by
    obtain ⟨f, hf⟩ : ∃ f, fields[i]? = some f := ⟨_, getElem?_eq_getElem (hlt i (.head _))⟩
    have hend : fieldsEnd fields (i :: l) s.offset =
        fieldsEnd fields l (alignTo s.offset f.align.abi + f.size) := by
      rw [fieldsEnd, hf]
    have hle := @le_fieldsEnd fields l (alignTo s.offset f.align.abi + f.size)
    rw [hend, placeFields]
    rcases @placeField_result dl _ s i f hf hsized with
      ⟨hbound, hrun⟩ | ⟨hbound, s', hrun, hoffset, hsized'⟩
    · rw [hrun]
      exact .inl ⟨cons_ne_nil _ _, hbound.trans hle, rfl⟩
    · rw [hrun, ← hoffset]
      cases l with
      | nil => exact .inr ⟨.inr (by rwa [fieldsEnd, hoffset]), s', rfl⟩
      | cons j l =>
        rw [hlast i (by simp) f hf] at hsized'
        rcases placeFields_result (fun k hk => hlt k (.tail _ hk)) hsized'
          (fun k hk => hlast k (by simp_all)) with ⟨-, hover, hrest⟩ | ⟨hfits, hrest⟩
        · exact .inl ⟨cons_ne_nil _ _, hover, hrest⟩
        · exact .inr ⟨.inr (hfits.resolve_left (cons_ne_nil _ _)), hrest⟩

end

/-! ## Which structs stay below the bound -/

section
variable {dl : TargetDataLayout} {fields : List LayoutDetails} {repr : ReprOptions}
  {kind : StructKind}

/-- The inputs that `univariant_uninterned` does not take for a bug of the compiler. -/
structure Accepted (fields : List LayoutDetails) (repr : ReprOptions) (kind : StructKind) : Prop where
  pack_or_align : repr.pack = none ∨ repr.align = none
  last : optimizes repr kind = true → kind = .maybeUnsized → fields ≠ []
  unsized : ∀ i ∈ (inverseMemoryIndex fields repr kind).dropLast, ∀ f, fields[i]? = some f →
    f.isUnsized = false

section
variable (dl : TargetDataLayout)

section
variable (fields : List LayoutDetails)

section
variable (repr : ReprOptions)

/-- The alignment of the struct: the largest one that is asked for. -/
def askedAlign (kind : StructKind) : Align :=
  ⟨((Placing.start dl fields repr kind).align.abi.pow2 ::
    ((fields.map fun f => (fieldAlign repr.pack f).abi.pow2) ++
      repr.align.toList.map Align.pow2)).foldr max 0⟩

def structEnd (kind : StructKind) : Nat :=
  fieldsEnd (fields.map (packField repr.pack)) (inverseMemoryIndex fields repr kind)
    (Placing.start dl fields repr kind).offset

/-- The fields can be placed in their memory order, each at a multiple of its alignment, after the
prefix and up to a limit. -/
def Fits (kind : StructKind) (limit : Nat) : Prop :=
  (Placing.start dl fields repr kind).offset ≤ limit ∧
    ∃ offsets, Placement (fields.map (packField repr.pack)) (inverseMemoryIndex fields repr kind)
      offsets (Placing.start dl fields repr kind).offset limit

/-- There is no layout because it would be too large, or its size is below the bound. -/
def StaysBelow (kind : StructKind) : Prop :=
  univariant dl fields repr kind = .error (.error .sizeOverflow) ∨
    ∃ st, univariant dl fields repr kind = .ok st ∧ st.size < dl.objSizeBound

end

end

end

theorem foldr_max_le {l : List Nat} {p : Nat} : l.foldr max 0 ≤ p ↔ ∀ x ∈ l, x ≤ p := by
  induction l with
  | nil => simp
  | cons a l ih => rw [foldr_cons, max_le_iff, ih, forall_mem_cons]

theorem askedAlign_le {p : Nat} : (askedAlign dl fields repr kind).pow2 ≤ p ↔
    (Placing.start dl fields repr kind).align.abi.pow2 ≤ p ∧
      (∀ f ∈ fields, (fieldAlign repr.pack f).abi.pow2 ≤ p) ∧
        ∀ a, repr.align = some a → a.pow2 ≤ p := by
  rw [askedAlign, foldr_max_le]
  simp only [forall_mem_cons, mem_append, or_imp, forall_and, forall_mem_map, Option.mem_toList]

theorem inverseMemoryIndex_eq_nil : inverseMemoryIndex fields repr kind = [] ↔ fields = [] := by
  rw [← length_eq_zero_iff, (inverseMemoryIndex_perm fields repr kind).length_eq,
    length_range, length_eq_zero_iff]

theorem univariant_size {st : LayoutDetails} (h : univariant dl fields repr kind = .ok st) :
    st.size = alignTo (structEnd dl fields repr kind) (askedAlign dl fields repr kind) := by
  obtain ⟨-, -, h⟩ := bind_eq_ok.1 h
  obtain ⟨-, -, h⟩ := bind_eq_ok.1 h
  obtain ⟨s, hs, h⟩ := bind_eq_ok.1 h
  cases h
  have hperm := inverseMemoryIndex_perm fields repr kind
  have hplaced := placeFields_placed hs (hperm.nodup_iff.2 nodup_range)
    (fun i hi => mem_range.1 (hperm.mem_iff.1 hi)) (start_offsets_length repr kind)
  have hend : s.offset = structEnd dl fields repr kind :=
    placeFields_offset ((placeFields_packField _ _).trans hs)
  dsimp only
  congr 1
  refine congrArg Align.mk (eq_of_forall_ge_iff fun p => ?_)
  have hs := hplaced.align_le p
  rw [forall_order_iff (by rwa [List.length_map]), forall_mem_map] at hs
  simp only [packField] at hs
  change _ ↔ (askedAlign dl fields repr kind).pow2 ≤ p
  rw [askedAlign_le]
  cases repr.align with
  | none => simpa using hs
  | some a =>
    simp only [AbiAndPrefAlign.max_abi_le, hs, AbiAndPrefAlign.new, Option.some.injEq,
      forall_eq', and_assoc]

theorem univariant_result (h : Accepted fields repr kind) :
    (fields ≠ [] ∧ dl.objSizeBound ≤ structEnd dl fields repr kind ∧
      univariant dl fields repr kind = .error (.error .sizeOverflow)) ∨
    ((fields = [] ∨ structEnd dl fields repr kind < dl.objSizeBound) ∧
      ∃ st, univariant dl fields repr kind = .ok st) := by
  have hmem : ∀ i ∈ inverseMemoryIndex fields repr kind, i < fields.length := fun i hi =>
    mem_inverseMemoryIndex.1 hi
  have hpack : (!(repr.pack.isSome && repr.align.isSome)) = true := by
    rcases h.pack_or_align with h | h <;> simp [h]
  have hlast : (!(optimizes repr kind && kind = .maybeUnsized && fields.isEmpty)) = true := by
    simpa [or_iff_not_imp_left] using h.last
  have hrun := @placeFields_result dl (fields.map (packField repr.pack))
    (inverseMemoryIndex fields repr kind) (.start dl fields repr kind)
    (by rwa [List.length_map]) (by cases kind <;> rfl) fun i hi f hf => by
      rw [getElem?_map, Option.map_eq_some_iff] at hf
      obtain ⟨g, hg, rfl⟩ := hf
      exact h.unsized i hi g hg
  rw [ne_eq, inverseMemoryIndex_eq_nil, placeFields_packField] at hrun
  rw [univariant, hpack, hlast]
  rcases hrun with ⟨hne, hover, hrun⟩ | ⟨hfits, s, hrun⟩
  · refine .inl ⟨hne, hover, ?_⟩
    dsimp only
    rw [hrun]
    rfl
  · refine .inr ⟨hfits, ?_⟩
    dsimp only
    rw [hrun]
    exact ⟨_, rfl⟩

theorem fits_iff (h : Accepted fields repr kind) {limit : Nat} (hlimit : limit < dl.objSizeBound) :
    Fits dl fields repr kind limit ↔ structEnd dl fields repr kind ≤ limit := by
  have hperm := inverseMemoryIndex_perm fields repr kind
  have hmem := @mem_inverseMemoryIndex fields repr kind
  constructor
  · rintro ⟨hstart, offsets, hplaced⟩
    refine fieldsEnd_le hstart (fun i hi f o hf ho => ?_) (fun i hi => ?_) hplaced.ordered
    · exact ⟨(hplaced.inside i f o hf ho).1, (hplaced.inside i f o hf ho).2,
        hplaced.aligned i f o hf ho⟩
    · rw [hplaced.length_eq, List.length_map]
      exact hmem.1 hi
  · intro hle
    rcases @univariant_result dl fields repr kind h with ⟨-, hover, -⟩ | ⟨-, st, hst⟩
    · omega
    · obtain ⟨-, -, hst⟩ := bind_eq_ok.1 hst
      obtain ⟨-, -, hst⟩ := bind_eq_ok.1 hst
      obtain ⟨s, hs, -⟩ := bind_eq_ok.1 hst
      have hplaced := placeFields_placed hs (hperm.nodup_iff.2 nodup_range)
        (fun i => hmem.1) (start_offsets_length repr kind)
      have hend : s.offset = structEnd dl fields repr kind :=
        placeFields_offset ((placeFields_packField _ _).trans hs)
      have hinside : ∀ (i : Nat) f o, (fields.map (packField repr.pack))[i]? = some f →
          s.offsets[i]? = some o → (Placing.start dl fields repr kind).offset ≤ o ∧
            o + f.size ≤ s.offset ∧ f.align.abi.bytes ∣ o := fun i f o hf ho => by
        have hi := (List.getElem?_eq_some_iff.1 hf).1
        rw [List.length_map] at hi
        exact hplaced.inside i (hmem.2 hi) f o hf ho
      refine ⟨(hplaced.offset_le.trans hend.le).trans hle, s.offsets, ?_,
        fun i f o hf ho => ?_, fun i f o hf ho => (hinside i f o hf ho).2.2, hplaced.ordered⟩
      · rw [hplaced.length_eq, start_offsets_length, List.length_map]
      · obtain ⟨hstart, hstop, -⟩ := hinside i f o hf ho
        exact ⟨hstart, by omega⟩

/-- The layout of a struct stays below the object size bound exactly where its fields do not fit
below the bound at all, or fit with the alignment of the struct left free below it. -/
theorem univariant_below_iff (h : Accepted fields repr kind) : StaysBelow dl fields repr kind ↔
    (fields ≠ [] ∧ ¬ Fits dl fields repr kind (dl.objSizeBound - 1)) ∨
      Fits dl fields repr kind (dl.objSizeBound - (askedAlign dl fields repr kind).bytes) := by
  obtain ⟨k, hk⟩ := dl.objSizeBound_eq
  have hbound : 0 < dl.objSizeBound := hk ▸ Nat.two_pow_pos k
  have halign := (askedAlign dl fields repr kind).bytes_pos
  rw [fits_iff h (by omega), fits_iff h (by omega)]
  rcases @univariant_result dl fields repr kind h with ⟨hne, hover, hrun⟩ | ⟨hfits, st, hrun⟩
  · exact ⟨fun _ => .inl ⟨hne, by omega⟩, fun _ => .inl hrun⟩
  · have hsize := univariant_size hrun
    rw [hk, ← alignTo_lt_two_pow_iff, ← hk, ← hsize]
    constructor
    · rintro (herr | ⟨st', hrun', hlt⟩)
      · cases herr.symm.trans hrun
      · cases hrun.symm.trans hrun'
        exact .inr hlt
    · rintro (⟨hne, hover⟩ | hlt)
      · have := hfits.resolve_left hne
        omega
      · exact .inr ⟨st, hrun, hlt⟩

end

/-- `[u8; len]`. -/
def Sample.bytes (len : Nat) : LayoutDetails :=
  ⟨.single 0, .array 1 len, .aggregate true, none, .new ⟨0⟩, len⟩

def Sample.u16 : LayoutDetails :=
  ⟨.single 0, .union 0, .scalar ⟨.int .i16 false, 0, 2 ^ 16 - 1⟩, none, .new ⟨1⟩, 2⟩

/-- A struct of eight bytes. -/
theorem univariant_below_iff_small :
    StaysBelow Sample.target [u16, bytes 5] ⟨none, none, none, false, false, false⟩
      .alwaysSized ↔
    ([u16, bytes 5] ≠ [] ∧ ¬ Fits Sample.target [u16, bytes 5]
      ⟨none, none, none, false, false, false⟩ .alwaysSized (2 ^ 47 - 1)) ∨
    Fits Sample.target [u16, bytes 5] ⟨none, none, none, false, false, false⟩
      .alwaysSized (2 ^ 47 - 2) := by
  refine univariant_below_iff ⟨.inl rfl, nofun, fun i hi f hf => ?_⟩
  obtain rfl := mem_singleton.1 hi
  cases hf
  rfl

/-- The fields of a struct end one byte below the bound and there is room for no padding: its size
is the bound. -/
theorem univariant_reaches_bound :
    (∀ f ∈ [u16, bytes (2 ^ 47 - 3)], f.size < Sample.target.objSizeBound) ∧
    ¬ StaysBelow Sample.target [u16, bytes (2 ^ 47 - 3)]
      ⟨none, none, none, false, false, false⟩ .alwaysSized := by
  refine ⟨by decide, ?_⟩
  rintro (h | ⟨st, h, hlt⟩)
  · cases h
  · cases h
    exact absurd hlt (by decide)

end Tortis.Layout
