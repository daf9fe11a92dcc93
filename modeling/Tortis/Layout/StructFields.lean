import Tortis.Layout.Enum

/-!
# Fields of a struct never overlap

`univariant_uninterned` (`librustc/ty/layout.rs`) sorts the fields, places them one after another
and writes the offsets back through the sorted order, which `invert_mapping` then inverts. Whatever
the representation and the kind of the struct, the result is sound (`SoundStruct`).
-/

namespace Tortis.Layout

open List LayoutResult Placing Sample

/-! ## The order of the fields, in an array of bytes -/

/-- `FieldPlacement::index_by_increasing_offset` as it is computed: up to 64 fields are inverted in
an array of bytes. -/
def FieldPlacement.sourceIndices : FieldPlacement → List Nat
  | .arbitrary offsets memoryIndex =>
    let count := offsets.length
    let indices := (memoryIndex.take count).zipIdx
    if count ≤ 64 then
      (indices.foldl (fun inverseSmall p => inverseSmall.set p.1 (p.2 % 2 ^ 8))
        (replicate 64 0)).take count
    else
      indices.foldl (fun inverseBig p => inverseBig.set p.1 p.2) (replicate count 0)
  | fields => range fields.count

section SourceIndices

variable {offsets memoryIndex : List Nat}

theorem getElem?_inverseSmall (hperm : memoryIndex.Perm (range memoryIndex.length))
    (hsmall : memoryIndex.length ≤ 64) {x y : Nat} (h : memoryIndex[x]? = some y) :
    (memoryIndex.zipIdx.foldl (fun inverseSmall p => inverseSmall.set p.1 (p.2 % 2 ^ 8))
      (replicate 64 0))[y]? = some x := by
  have hfst : (memoryIndex.zipIdx.map fun p => (p.1, p.2 % 2 ^ 8)).map (·.1) = memoryIndex := by
    rw [map_map]
    exact zipIdx_map_fst 0 memoryIndex
  have hnodup : memoryIndex.Nodup := hperm.nodup_iff.2 nodup_range
  have hlt : ∀ p ∈ memoryIndex.zipIdx.map fun p => (p.1, p.2 % 2 ^ 8),
      p.1 < (replicate 64 0).length := by
    intro p hp
    have hmem : p.1 ∈ memoryIndex := hfst ▸ mem_map_of_mem hp
    have := mem_range.1 (hperm.mem_iff.1 hmem)
    rw [length_replicate]
    omega
  have hx : x < memoryIndex.length := (List.getElem?_eq_some_iff.1 h).1
  have hp : (y, x) ∈ memoryIndex.zipIdx.map fun p => (p.1, p.2 % 2 ^ 8) :=
    mem_map.2 ⟨(y, x), mem_zipIdx_iff_getElem?.2 h, by
      rw [Nat.mod_eq_of_lt (show x < 2 ^ 8 by omega)]⟩
  have hget := (foldl_set_get (replicate 64 0) (hfst.symm ▸ hnodup) hlt).1 _ hp
  rwa [foldl_map] at hget

theorem sourceIndices_eq (hlen : memoryIndex.length = offsets.length)
    (hperm : memoryIndex.Perm (range offsets.length)) :
    FieldPlacement.sourceIndices (.arbitrary offsets memoryIndex) = invertMapping memoryIndex := by
  have htake : memoryIndex.take offsets.length = memoryIndex := by
    rw [← hlen, take_length]
  have hperm' : memoryIndex.Perm (range memoryIndex.length) := hlen.symm ▸ hperm
  rw [FieldPlacement.sourceIndices, htake]
  split
  · rename_i hsmall
    refine ext_getElem? fun y => ?_
    rcases lt_or_ge y offsets.length with hy | hy
    · have hmem : y ∈ memoryIndex := hperm.mem_iff.2 (mem_range.2 hy)
      obtain ⟨x, hx⟩ := mem_iff_getElem?.1 hmem
      rw [getElem?_take_of_lt hy, getElem?_inverseSmall hperm' (hlen ▸ hsmall) hx,
        getElem?_invertMapping hperm' hx]
    · rw [getElem?_take_eq_none hy, getElem?_eq_none (by rwa [length_invertMapping, hlen])]
  · rw [invertMapping, hlen]

end SourceIndices

/-! ## Packed fields -/

variable {dl : TargetDataLayout} {fields : List LayoutDetails} {pack : Option Align}

/-- A field with the alignment that it has in a struct that may be packed. -/
def packField (pack : Option Align) (f : LayoutDetails) : LayoutDetails :=
  { f with align := fieldAlign pack f }

theorem getElem?_packField {i : Nat} {f : LayoutDetails} (h : fields[i]? = some f) :
    (fields.map (packField pack))[i]? = some (packField pack f) := by
  rw [getElem?_map, h, Option.map_some]

theorem placeField_packField (s : Placing) (i : Nat) :
    placeField dl (fields.map (packField pack)) none s i = placeField dl fields pack s i := by
  rw [placeField, placeField, getElem?_map]
  cases fields[i]? with
  | none => rfl
  | some f => rfl

theorem placeFields_packField : ∀ (l : List Nat) (s : Placing),
    placeFields dl (fields.map (packField pack)) none l s = placeFields dl fields pack l s
  | [], _ => rfl
  | i :: l, s => by
    rw [placeFields, placeFields, placeField_packField]
    exact bind_congr fun s' => placeFields_packField l s'

variable {s s' : Placing}

theorem placeFields_placed {l : List Nat}
    (h : placeFields dl fields pack l s = .ok s') (hnodup : l.Nodup)
    (hlt : ∀ i ∈ l, i < fields.length) (hlen : s.offsets.length = fields.length) :
    PlacedOver (fields.map (packField pack)) l s s' := by
  rw [← placeFields_packField] at h
  refine placeFields_spec h hnodup ?_ ?_
  · rwa [length_map]
  · rwa [length_map]

/-! ## The largest niche -/

/-- The niche of a field, moved to where the field is. -/
def NicheOf (fields : List LayoutDetails) (offsets : List Nat) (n : Niche) (i : Nat) : Prop :=
  ∃ f o m, fields[i]? = some f ∧ offsets[i]? = some o ∧ f.largestNiche = some m ∧
    n = { m with offset := m.offset + o }

theorem placeField_offsets {i : Nat} (h : placeField dl fields pack s i = .ok s') :
    ∃ o, s'.offsets = s.offsets.set i o := by
  rw [← placeField_packField] at h
  obtain ⟨f, -, -, -, hoffsets⟩ := placeField_eq_ok h
  exact ⟨_, hoffsets⟩

theorem placeField_niche {i : Nat} (h : placeField dl fields pack s i = .ok s')
    (hi : i < s.offsets.length) {n : Niche} (hn : s'.largestNiche = some n) :
    s.largestNiche = some n ∨ NicheOf fields s'.offsets n i := by
  rw [placeField] at h
  split at h
  · cases h
  · rename_i f hf
    obtain ⟨-, -, h⟩ := bind_eq_ok.1 h
    dsimp only at h
    split at h
    · cases h
    · cases h
      dsimp only [niche] at hn
      split at hn
      · rename_i m hm
        split at hn
        · cases hn
          exact .inr ⟨f, _, m, hf, getElem?_set_self hi, hm, rfl⟩
        · exact .inl hn
      · exact .inl hn

theorem placeFields_niche : ∀ {l : List Nat} {s s' : Placing},
    placeFields dl fields pack l s = .ok s' → l.Nodup → (∀ i ∈ l, i < fields.length) →
    s.offsets.length = fields.length → ∀ {n : Niche}, s'.largestNiche = some n →
    s.largestNiche = some n ∨ ∃ i ∈ l, NicheOf fields s'.offsets n i
  | [], s, s', h, _, _, _, n, hn => by
    cases h
    exact .inl hn
  | i :: l, s, s', h, hnodup, hlt, hlen, n, hn => by
    obtain ⟨s1, h1, h2⟩ := bind_eq_ok.1 h
    obtain ⟨o, hoffsets⟩ := placeField_offsets h1
    rw [nodup_cons] at hnodup
    have hlt' : ∀ j ∈ l, j < fields.length := fun j hj => hlt j (.tail _ hj)
    have hlen' : s1.offsets.length = fields.length := by rw [hoffsets, length_set, hlen]
    have hrest := placeFields_placed h2 hnodup.2 hlt' hlen'
    rcases placeFields_niche h2 hnodup.2 hlt' hlen' hn with hn | ⟨j, hj, hniche⟩
    · rcases placeField_niche h1 (hlen.symm ▸ hlt i (.head _)) hn with hn | hniche
      · exact .inl hn
      · rw [NicheOf, ← hrest.other i hnodup.1] at hniche
        exact .inr ⟨i, .head _, hniche⟩
    · exact .inr ⟨j, .tail _ hj, hniche⟩

/-! ## Sound layouts -/

def NicheInside (dl : TargetDataLayout) (f : LayoutDetails) : Prop :=
  ∀ n, f.largestNiche = some n → n.offset + n.scalar.value.size dl ≤ f.size

def EndsBefore (fields : List LayoutDetails) (offsets : List Nat) (i j : Nat) : Prop :=
  ∀ f o o', fields[i]? = some f → offsets[i]? = some o → offsets[j]? = some o' → o + f.size ≤ o'

/-- What a layout of a struct has to be: the fields lie after the prefix and inside of the size,
are aligned as far as the struct is not packed and do not overlap; the size is a multiple of the
alignment; the memory index and the fields by increasing offset are orders of the fields that
invert each other; and the largest niche lies inside of one field. -/
structure SoundStruct (dl : TargetDataLayout) (fields : List LayoutDetails) (repr : ReprOptions)
    (kind : StructKind) (st : LayoutDetails) (offsets memoryIndex : List Nat) : Prop where
  fields_eq : st.fields = .arbitrary offsets memoryIndex
  length_eq : offsets.length = fields.length
  after_prefix : ∀ size align, kind = .prefixed size align → ∀ o ∈ offsets, size ≤ o
  inside : ∀ (i : Nat) f o, fields[i]? = some f → offsets[i]? = some o → o + f.size ≤ st.size
  aligned : ∀ (i : Nat) f o, fields[i]? = some f → offsets[i]? = some o →
    (fieldAlign repr.pack f).abi.bytes ∣ o
  disjoint : ∀ i j, i < fields.length → j < fields.length → i ≠ j →
    EndsBefore fields offsets i j ∨ EndsBefore fields offsets j i
  size_dvd : st.align.abi.bytes ∣ st.size
  memoryIndex_perm : memoryIndex.Perm (range fields.length)
  memoryIndex_sorts : ∀ (i j m m' : Nat), memoryIndex[i]? = some m → memoryIndex[j]? = some m' →
    m < m' → EndsBefore fields offsets i j
  indices_perm : st.fields.sourceIndices.Perm (range fields.length)
  indices_sorted : st.fields.sourceIndices.Pairwise (EndsBefore fields offsets)
  indices_inverse : ∀ i m : Nat, memoryIndex[i]? = some m ↔ st.fields.sourceIndices[m]? = some i
  niche : ∀ n, st.largestNiche = some n → ∃ (i : Nat) (f : LayoutDetails) (o : Nat),
    fields[i]? = some f ∧ offsets[i]? = some o ∧ o ≤ n.offset ∧
      n.offset + n.scalar.value.size dl ≤ o + f.size

theorem PlacedOver.endsBefore {l : List Nat} (h : PlacedOver (fields.map (packField pack)) l s s') :
    l.Pairwise (EndsBefore fields s'.offsets) := by
  refine h.ordered.imp fun hij f o o' hf ho ho' => ?_
  exact hij (packField pack f) o o' (getElem?_packField hf) ho ho'

theorem Placing.le_start {repr : ReprOptions} {size : Nat} {align : Align} :
    size ≤ (Placing.start dl fields repr (.prefixed size align)).offset :=
  le_alignTo _ _

theorem Placing.start_largestNiche (repr : ReprOptions) (kind : StructKind) :
    (Placing.start dl fields repr kind).largestNiche = none := by
  cases kind <;> rfl

theorem memoryIndex_inverse (fields : List LayoutDetails) (repr : ReprOptions) (kind : StructKind) :
    ∃ memoryIndex, (if optimizes repr kind then invertMapping (inverseMemoryIndex fields repr kind)
        else inverseMemoryIndex fields repr kind) = memoryIndex ∧
      memoryIndex.Perm (range fields.length) ∧
      invertMapping memoryIndex = inverseMemoryIndex fields repr kind := by
  have hperm := inverseMemoryIndex_perm fields repr kind
  have hlen : (inverseMemoryIndex fields repr kind).length = fields.length := by
    rw [hperm.length_eq, length_range]
  refine ⟨_, rfl, ?_, indexByIncreasingOffset_memoryIndex fields repr kind []⟩
  split
  · have := invertMapping_perm (hlen.symm ▸ hperm)
    rwa [hlen] at this
  · exact hperm

theorem getElem?_iff_of_inverse {map inverse : List Nat} (hmap : map.Perm (range map.length))
    (hinv : invertMapping map = inverse) {i m : Nat} : map[i]? = some m ↔ inverse[m]? = some i := by
  subst hinv
  refine ⟨getElem?_invertMapping hmap, fun h => ?_⟩
  have hperm := invertMapping_perm hmap
  rw [← length_invertMapping] at hperm
  have := getElem?_invertMapping hperm h
  rwa [invertMapping_invertMapping hmap] at this

/-- **Fields of a struct never overlap**, whatever its representation and kind. -/
theorem univariant_sound {repr : ReprOptions} {kind : StructKind} {st : LayoutDetails}
    (hfields : ∀ f ∈ fields, NicheInside dl f) (h : univariant dl fields repr kind = .ok st) :
    ∃ offsets memoryIndex, SoundStruct dl fields repr kind st offsets memoryIndex := by
  obtain ⟨-, -, h⟩ := bind_eq_ok.1 h
  obtain ⟨-, -, h⟩ := bind_eq_ok.1 h
  obtain ⟨s, hs, h⟩ := bind_eq_ok.1 h
  obtain ⟨memoryIndex, hmemory, hmperm, hinv⟩ := memoryIndex_inverse fields repr kind
  rw [hmemory] at h
  cases h
  have hperm := inverseMemoryIndex_perm fields repr kind
  have hmem := @mem_inverseMemoryIndex fields repr kind
  have hnodup := hperm.nodup_iff.2 nodup_range
  have hstart : (Placing.start dl fields repr kind).offsets.length = fields.length :=
    start_offsets_length repr kind
  have hplaced := placeFields_placed hs hnodup (fun i => hmem.1) hstart
  have hlen : s.offsets.length = fields.length := hplaced.length_eq.trans hstart
  have hmlen : memoryIndex.length = fields.length := by rw [hmperm.length_eq, length_range]
  have hindices : FieldPlacement.sourceIndices (.arbitrary s.offsets memoryIndex) =
      inverseMemoryIndex fields repr kind := by
    rw [sourceIndices_eq (hmlen.trans hlen.symm) (hlen.symm ▸ hmperm), hinv]
  have hinverse : ∀ i m, memoryIndex[i]? = some m ↔
      (inverseMemoryIndex fields repr kind)[m]? = some i := fun i m =>
    getElem?_iff_of_inverse (hmlen.symm ▸ hmperm) hinv
  -- where a field lies
  have hinside : ∀ (i : Nat) f o, fields[i]? = some f → s.offsets[i]? = some o →
      (Placing.start dl fields repr kind).offset ≤ o ∧ o + f.size ≤ s.offset ∧
        (fieldAlign repr.pack f).abi.bytes ∣ o := by
    intro i f o hf ho
    have hi := hmem.2 (List.getElem?_eq_some_iff.1 hf).1
    exact hplaced.inside i hi _ o (getElem?_packField hf) ho
  refine ⟨s.offsets, memoryIndex, rfl, hlen, ?_, ?_, ?_, ?_, dvd_alignTo _ _, hmperm, ?_, ?_, ?_, ?_,
    ?_⟩
  · rintro size align rfl o ho
    obtain ⟨i, hi⟩ := mem_iff_getElem?.1 ho
    have hlt : i < fields.length := hlen ▸ (List.getElem?_eq_some_iff.1 hi).1
    exact le_start.trans (hinside i _ o (List.getElem?_eq_getElem hlt) hi).1
  · exact fun i f o hf ho => (hinside i f o hf ho).2.1.trans (le_alignTo _ _)
  · exact fun i f o hf ho => (hinside i f o hf ho).2.2
  · exact fun i j hi hj hij => pairwise_or hperm hplaced.endsBefore hi hj hij
  · intro i j m m' hm hm' hlt
    obtain ⟨hmlt, hi⟩ := List.getElem?_eq_some_iff.1 ((hinverse i m).1 hm)
    obtain ⟨hmlt', hj⟩ := List.getElem?_eq_some_iff.1 ((hinverse j m').1 hm')
    have := pairwise_iff_getElem.1 hplaced.endsBefore m m' hmlt hmlt' hlt
    rwa [hi, hj] at this
  · rwa [hindices]
  · rw [hindices]
    exact hplaced.endsBefore
  · rwa [hindices]
  · intro n hn
    rcases placeFields_niche hs hnodup (fun i => hmem.1) hstart hn with hn | ⟨i, -, hniche⟩
    · rw [start_largestNiche] at hn
      cases hn
    · obtain ⟨f, o, m, hf, ho, hm, rfl⟩ := hniche
      have := hfields f (mem_of_getElem? hf) m hm
      exact ⟨i, f, o, hf, ho, by dsimp only; omega, by dsimp only; omega⟩

/-- The layout of `#[repr(packed(2))]` fields after a tag of one byte. -/
theorem univariant_sound_packed : ∃ st offsets memoryIndex,
    univariant Sample.target [reference, zst ⟨3⟩, reference]
      ⟨none, none, some ⟨1⟩, false, false, false⟩ (.prefixed 1 ⟨0⟩) = .ok st ∧
    SoundStruct Sample.target [reference, zst ⟨3⟩, reference]
      ⟨none, none, some ⟨1⟩, false, false, false⟩ (.prefixed 1 ⟨0⟩) st offsets memoryIndex := by
  have hfields : ∀ f ∈ [reference, zst ⟨3⟩, reference],
      NicheInside Sample.target f := by
    intro f hf n hn
    simp only [mem_cons, not_mem_nil, or_false] at hf
    obtain rfl | rfl | rfl := hf
    · cases hn
      exact le_refl 8
    · cases hn
    · cases hn
      exact le_refl 8
  obtain ⟨offsets, memoryIndex, h⟩ := @univariant_sound _ _
    ⟨none, none, some ⟨1⟩, false, false, false⟩ (.prefixed 1 ⟨0⟩) _ hfields rfl
  exact ⟨_, offsets, memoryIndex, rfl, h⟩

end Tortis.Layout
