import Tortis.BorrowCheck.PlacesConflict

/-!
# Values of a type and places in them

Which values the type of a place has, and which projections are well typed on it. A local that is
not initialized in all of its parts is a value as well, so a part may be missing. A place that is
not `Vacant` denotes something in some value of its type (`locate_of_typed`).
-/

namespace Tortis.BorrowCheck

open List Outcome Value

/-! ## Values of a type -/

/-- A context that tells enums from structures and unions. -/
structure ValueCx extends PlaceCx where
  /-- Whether an algebraic data type is an enum. -/
  isEnum : DefId → Bool
  /-- An enum is not a union. -/
  isUnion_of_isEnum : ∀ defId, isEnum defId = true → (adtDef defId).isUnion = false

/-- A type whose values have all their fields at once. -/
def ValueCx.IsStruct (cx : ValueCx) : TyKind → Prop
  | .adt defId _ => cx.isEnum defId = false ∧ (cx.adtDef defId).isUnion = false
  | .array _ _ | .slice _ => False
  | _ => True

/-- The values of a place's type. Fields at the end of a value may be missing, and a scalar may
stand for any part without structure: a primitive value, a union or a part that is not
initialized. -/
inductive HasTy (cx : ValueCx) : PlaceTy → Value → Prop
  | scalar (ty : TyKind) (bits : Nat) : HasTy cx ⟨ty, none⟩ (.scalar bits)
  | aggregate {ty : TyKind} {fields : List Value} (hty : cx.IsStruct ty)
      (h : ∀ (f : Nat) (w : Value), fields[f]? = some w →
        HasTy cx (.fromTy (cx.fieldTy ty none f)) w) :
      HasTy cx ⟨ty, none⟩ (.aggregate fields)
  | variant {defId : DefId} {substs : List TyKind} {variantIndex : Option Nat} {index : Nat}
      {fields : List Value} (henum : cx.isEnum defId = true)
      (hindex : variantIndex = none ∨ variantIndex = some index)
      (h : ∀ (f : Nat) (w : Value), fields[f]? = some w →
        HasTy cx (.fromTy (cx.fieldTy (.adt defId substs) (some index) f)) w) :
      HasTy cx ⟨.adt defId substs, variantIndex⟩ (.variant index fields)
  | array {ty : TyKind} {len : Nat} {elems : List Value} (hlen : elems.length = len)
      (h : ∀ (k : Nat) (w : Value), elems[k]? = some w → HasTy cx (.fromTy ty) w) :
      HasTy cx ⟨.array ty len, none⟩ (.elements elems)
  | slice {ty : TyKind} {elems : List Value}
      (h : ∀ (k : Nat) (w : Value), elems[k]? = some w → HasTy cx (.fromTy ty) w) :
      HasTy cx ⟨.slice ty, none⟩ (.elements elems)

/-- The number of elements that the values of an array type or a slice type can have. -/
def TyKind.HasLength : TyKind → Nat → Prop
  | .array _ len, n => n = len
  | .slice _, _ => True
  | _, _ => False

/-! ## Well-typed places -/

/-- A type has at least as many elements as its projections need; a slice is checked when the
program runs. -/
def TyKind.AtLeast (ty : TyKind) (n : Nat) : Prop :=
  match ty with
  | .array _ len => n ≤ len
  | _ => True

/-- A projection that may stand on a place of some type. -/
def Allowed (cx : ValueCx) (ty : PlaceTy) : ProjectionElem → Prop
  | .deref => False
  | .field _ =>
    match ty.variantIndex with
    | none => cx.IsStruct ty.ty
    | some _ => ∃ defId substs, ty.ty = .adt defId substs ∧ cx.isEnum defId = true
  | .downcast _ =>
    ty.variantIndex = none ∧ ∃ defId substs, ty.ty = .adt defId substs ∧ cx.isEnum defId = true
  | .index _ => ty.variantIndex = none
  | .constantIndex offset minLength false =>
    ty.variantIndex = none ∧ offset < minLength ∧ ty.ty.AtLeast minLength
  | .constantIndex offset minLength true =>
    ty.variantIndex = none ∧ 1 ≤ offset ∧ offset ≤ minLength ∧ ty.ty.AtLeast minLength
  | .subslice lo hi => ty.variantIndex = none ∧ ty.ty.AtLeast (lo + hi)

/-- Projections that are well typed on a place of some type, without dereferences and union fields
and with a subslice only at the end. -/
inductive Typed (cx : ValueCx) : PlaceTy → List ProjectionElem → Prop
  | nil (ty : PlaceTy) : Typed cx ty []
  | cons {ty ty' : PlaceTy} {e : ProjectionElem} {es : List ProjectionElem}
      (hallowed : Allowed cx ty e) (hlast : ∀ lo hi, e = .subslice lo hi → es = [])
      (hty : ty.projectionTy cx.toPlaceCx e = .ok ty') (h : Typed cx ty' es) :
      Typed cx ty (e :: es)

/-- Projections that denote nothing in any value: an index into an array of no elements, or the
subslice of an array that leaves none of its elements. -/
inductive Vacant (cx : ValueCx) : PlaceTy → List ProjectionElem → Prop
  | index {inner : TyKind} {i : Option Nat} {l : Local} {es : List ProjectionElem} :
      Vacant cx ⟨.array inner 0, i⟩ (.index l :: es)
  | subslice {inner : TyKind} {i : Option Nat} {lo hi : Nat} :
      Vacant cx ⟨.array inner (lo + hi), i⟩ [.subslice lo hi]
  | cons {ty ty' : PlaceTy} {e : ProjectionElem} {es : List ProjectionElem}
      (hty : ty.projectionTy cx.toPlaceCx e = .ok ty') (h : Vacant cx ty' es) :
      Vacant cx ty (e :: es)

section
variable {cx : ValueCx} {ty ty' : PlaceTy} {v w : Value} {e : ProjectionElem}
  {es : List ProjectionElem} {index : Local → Nat} {steps : List Step} {n k : Nat}

/-! ## The parts of a value have the projected types -/

/-- A projection that selects an element stands on an array or a slice and leads to the type of its
elements. -/
theorem projectionTy_of_selects (h : ty.projectionTy cx.toPlaceCx e = .ok ty')
    (he : SelectsElem index n e k) :
    ∃ inner, ty' = .fromTy inner ∧ ty.ty.builtinIndex = some inner := by
  cases e with
  | deref | field | downcast | subslice => cases he
  | index l =>
    obtain ⟨inner, hinner, h⟩ := bind_eq_ok.1 h
    exact ⟨inner, (Except.ok.inj h).symm, unwrap_eq_ok.1 hinner⟩
  | constantIndex offset minLength fromEnd =>
    obtain ⟨inner, hinner, h⟩ := bind_eq_ok.1 h
    exact ⟨inner, (Except.ok.inj h).symm, unwrap_eq_ok.1 hinner⟩

variable {inner : TyKind}

theorem HasTy.elems {elems : List Value} (h : HasTy cx ty (.elements elems))
    (hinner : ty.ty.builtinIndex = some inner) : ty.ty.HasLength elems.length ∧
      ∀ (k : Nat) (w : Value), elems[k]? = some w → HasTy cx (.fromTy inner) w := by
  cases h with
  | array hlen h =>
    cases hinner
    exact ⟨hlen, h⟩
  | slice h =>
    cases hinner
    exact ⟨trivial, h⟩

theorem HasTy.project (h : HasTy cx ty v) (hallowed : Allowed cx ty e)
    (hty : ty.projectionTy cx.toPlaceCx e = .ok ty') (hp : v.project index e = some (w, steps)) :
    HasTy cx ty' w := by
  obtain ⟨f, rfl, hw, rfl⟩ | ⟨i, fields, rfl, rfl, rfl, rfl⟩ | ⟨elems, k, rfl, hk, hw, rfl⟩ :=
    project_cases hp
  · cases hty
    cases h with
    | scalar | array | slice => cases hw
    | aggregate hty h => exact h f w hw
    | variant henum hindex h =>
      obtain rfl | rfl := hindex
      · simp [Allowed, ValueCx.IsStruct, henum] at hallowed
      · exact h f w hw
  · cases hty
    cases h with
    | variant henum hindex h => exact .variant henum (.inr rfl) h
  · obtain ⟨inner, rfl, hinner⟩ := projectionTy_of_selects hty hk
    exact (h.elems hinner).2 k w hw

/-! ## Building values around a part -/

/-- Fields of which the last one is given. -/
def fieldsWith (f : Nat) (w : Value) : List Value := replicate f (.scalar 0) ++ [w]

theorem getElem?_fieldsWith (f : Nat) (w : Value) : (fieldsWith f w)[f]? = some w := by
  simp [fieldsWith]

theorem hasTy_fieldsWith {t : Nat → TyKind} {f : Nat} (h : HasTy cx (.fromTy (t f)) w) (g : Nat)
    (u : Value) (hu : (fieldsWith f w)[g]? = some u) : HasTy cx (.fromTy (t g)) u := by
  rw [fieldsWith, getElem?_append] at hu
  split at hu
  · rw [getElem?_replicate] at hu
    split at hu
    · cases hu
      exact .scalar _ _
    · cases hu
  · rename_i hg
    rw [getElem?_singleton] at hu
    split at hu
    · rename_i hfg
      cases hu
      rw [length_replicate] at hg hfg
      have hgf : g = f := by omega
      exact hgf ▸ h
    · cases hu

/-- Elements that are not initialized. -/
def blanks (n : Nat) : List Value := replicate n (.scalar 0)

@[simp] theorem length_blanks (n : Nat) : (blanks n).length = n := length_replicate

theorem hasTy_blanks (ty : TyKind) (n k : Nat) (u : Value) (hu : (blanks n)[k]? = some u) :
    HasTy cx (.fromTy ty) u := by
  rw [blanks, getElem?_replicate] at hu
  split at hu
  · cases hu
    exact .scalar _ _
  · cases hu

theorem hasTy_set {ty : TyKind} {elems : List Value}
    (h : ∀ (k : Nat) (u : Value), elems[k]? = some u → HasTy cx (.fromTy ty) u)
    (hw : HasTy cx (.fromTy ty) w) (i : Nat) (u : Value) (hu : (elems.set k w)[i]? = some u) :
    HasTy cx (.fromTy ty) u := by
  rw [getElem?_set] at hu
  split at hu
  · split at hu
    · cases hu
      exact hw
    · cases hu
  · exact h i u hu

theorem HasTy.of_elems {elems : List Value} (hv : ty.variantIndex = none)
    (hinner : ty.ty.builtinIndex = some inner) (hlen : ty.ty.HasLength elems.length)
    (h : ∀ (k : Nat) (u : Value), elems[k]? = some u → HasTy cx (.fromTy inner) u) :
    HasTy cx ty (.elements elems) := by
  obtain ⟨ty, i⟩ := ty
  subst hv
  cases ty with
  | adt | ref | rawPtr | other => cases hinner
  | array ty len =>
    cases hinner
    exact .array hlen h
  | slice ty =>
    cases hinner
    exact .slice h

theorem project_elements {elems : List Value} (he : SelectsElem index elems.length e k)
    (hw : elems[k]? = some w) : (elements elems).project index e = some (w, [.elem k]) := by
  cases e with
  | deref | field | downcast | subslice => cases he
  | index l =>
    cases he
    simp [project, hw]
  | constantIndex offset minLength fromEnd =>
    cases fromEnd with
    | false =>
      obtain ⟨hle, rfl⟩ := he
      simp [project, hle, hw]
    | true =>
      obtain ⟨hle, hoff, rfl⟩ := he
      simp [project, hle, hoff, hw]

variable {r : Extent}

theorem locate_of_project (hp : v.project index e = some (w, steps))
    (hl : locate index w es = some r) : locate index v (e :: es) = some (r.behind steps) := by
  cases e with
  | subslice lo hi => cases v <;> cases hp
  | deref | field | downcast | index | constantIndex =>
    cases v <;> simp [locate, hp, hl]

/-! ## Places that are not vacant denote something -/

/-- Some part of the value belongs to an extent. -/
def Extent.Nonempty (r : Extent) : Prop := ∃ p, r.Covers p

theorem Extent.covers_append {p : List Step} :
    (r.behind steps).Covers (steps ++ p) ↔ r.Covers p := by
  obtain ⟨path, range⟩ := r
  cases range <;> simp [Extent.behind, Extent.Covers, append_assoc]

theorem Extent.Nonempty.behind (h : r.Nonempty) (steps : List Step) :
    (r.behind steps).Nonempty := by
  obtain ⟨p, hp⟩ := h
  exact ⟨steps ++ p, covers_append.2 hp⟩

theorem Extent.nonempty_whole : Extent.Nonempty ⟨[], none⟩ := ⟨[], prefix_rfl⟩

theorem Extent.nonempty_range {lo hi : Nat} (h : lo < hi) : Extent.Nonempty ⟨[], some (lo, hi)⟩ :=
  ⟨[.elem lo], lo, le_refl lo, h, prefix_rfl⟩

/-- A projection denotes some of `n` elements. -/
def FitsIn (n : Nat) : ProjectionElem → Prop
  | .index _ => 0 < n
  | .constantIndex _ minLength _ => minLength ≤ n
  | .subslice lo hi => lo + hi < n
  | _ => True

theorem FitsIn.mono {m : Nat} (h : FitsIn n e) (hle : n ≤ m) : FitsIn m e := by
  cases e with
  | deref | field | downcast => trivial
  | index l => exact lt_of_lt_of_le h hle
  | constantIndex offset minLength fromEnd => exact le_trans h hle
  | subslice lo hi => exact lt_of_lt_of_le h hle

theorem exists_fitsIn_one (e : ProjectionElem) : ∃ n, FitsIn n e := by
  cases e with
  | deref | field | downcast => exact ⟨0, trivial⟩
  | index l => exact ⟨1, Nat.one_pos⟩
  | constantIndex offset minLength fromEnd => exact ⟨minLength, le_rfl⟩
  | subslice lo hi => exact ⟨lo + hi + 1, Nat.lt_succ_self _⟩

theorem Typed.fitsIn_array {len : Nat} (hty : ty.ty = .array inner len)
    (h : Typed cx ty (e :: es)) (hv : ¬ Vacant cx ty (e :: es)) : FitsIn len e := by
  obtain ⟨ty, i⟩ := ty
  cases hty
  cases h with
  | cons hallowed hlast _ _ =>
    cases e with
    | deref | field | downcast => trivial
    | index l =>
      refine Nat.pos_of_ne_zero ?_
      rintro rfl
      exact hv .index
    | constantIndex offset minLength fromEnd =>
      cases fromEnd with
      | false => exact hallowed.2.2
      | true => exact hallowed.2.2.2
    | subslice lo hi =>
      have hle : lo + hi ≤ len := hallowed.2
      obtain rfl := hlast lo hi rfl
      refine Nat.lt_of_le_of_ne hle ?_
      rintro rfl
      exact hv .subslice

theorem exists_fitsIn {e1 e2 : ProjectionElem} {es1 es2 : List ProjectionElem}
    (hinner : ty.ty.builtinIndex = some inner) (h1 : Typed cx ty (e1 :: es1))
    (h2 : Typed cx ty (e2 :: es2)) (hv1 : ¬ Vacant cx ty (e1 :: es1))
    (hv2 : ¬ Vacant cx ty (e2 :: es2)) : ∃ n, ty.ty.HasLength n ∧ FitsIn n e1 ∧ FitsIn n e2 := by
  cases hty : ty.ty with
  | adt | ref | rawPtr | other =>
    rw [hty] at hinner
    cases hinner
  | array inner len => exact ⟨len, rfl, h1.fitsIn_array hty hv1, h2.fitsIn_array hty hv2⟩
  | slice inner =>
    obtain ⟨n1, hn1⟩ := exists_fitsIn_one e1
    obtain ⟨n2, hn2⟩ := exists_fitsIn_one e2
    exact ⟨max n1 n2, trivial, hn1.mono (le_max_left _ _), hn2.mono (le_max_right _ _)⟩

theorem subslice_or_selects (hinner : ty.ty.builtinIndex = some inner)
    (h : Allowed cx ty e) (hn : FitsIn n e) :
    (∃ lo hi, e = .subslice lo hi) ∨ ∃ k < n, SelectsElem (fun _ => 0) n e k := by
  cases e with
  | deref => exact h.elim
  | field f =>
    obtain ⟨ty, i⟩ := ty
    cases i with
    | none => cases ty <;> first | exact h.elim | cases hinner
    | some i =>
      obtain ⟨_, _, rfl, _⟩ := h
      cases hinner
  | downcast i =>
    obtain ⟨_, _, _, hty, _⟩ := h
    rw [hty] at hinner
    cases hinner
  | index l => exact .inr ⟨0, hn, rfl⟩
  | subslice lo hi => exact .inl ⟨lo, hi, rfl⟩
  | constantIndex offset minLength fromEnd =>
    cases fromEnd with
    | false => exact .inr ⟨offset, lt_of_lt_of_le h.2.1 hn, hn, rfl⟩
    | true =>
      obtain ⟨_, hpos, hoff, _⟩ := h
      have hle : minLength ≤ n := hn
      exact .inr ⟨n - offset, by omega, hle, by omega, rfl⟩

/-- The type of a variant is an enum. -/
def PlaceTy.Sane (cx : ValueCx) (ty : PlaceTy) : Prop :=
  ∀ i, ty.variantIndex = some i → ∃ defId substs, ty.ty = .adt defId substs ∧ cx.isEnum defId = true

theorem PlaceTy.sane_fromTy (ty : TyKind) : PlaceTy.Sane cx (.fromTy ty) := nofun

theorem PlaceTy.Sane.projectionTy (h : ty.Sane cx) (hallowed : Allowed cx ty e)
    (hty : ty.projectionTy cx.toPlaceCx e = .ok ty') : ty'.Sane cx := by
  cases e with
  | deref => exact hallowed.elim
  | field f =>
    cases hty
    exact sane_fromTy _
  | downcast i =>
    cases hty
    exact fun _ _ => hallowed.2
  | index l | constantIndex offset minLength fromEnd =>
    obtain ⟨inner, _, hty⟩ := bind_eq_ok.1 hty
    cases hty
    exact sane_fromTy _
  | subslice lo hi =>
    obtain ⟨ty, i⟩ := ty
    cases ty with
    | adt | ref | rawPtr | other => cases hty
    | array inner len =>
      simp only [PlaceTy.projectionTy] at hty
      split at hty
      · cases hty
      · cases hty
        exact sane_fromTy _
    | slice inner =>
      cases hty
      exact sane_fromTy _

theorem PlaceTy.Sane.variantIndex_eq (h : ty.Sane cx)
    (hinner : ty.ty.builtinIndex = some inner) : ty.variantIndex = none := by
  cases hi : ty.variantIndex with
  | none => rfl
  | some i =>
    obtain ⟨defId, substs, hadt, _⟩ := h i hi
    rw [hadt] at hinner
    cases hinner

theorem HasTy.around (hinner : ty.ty.builtinIndex = none) (hallowed : Allowed cx ty e)
    (hty : ty.projectionTy cx.toPlaceCx e = .ok ty') (hw : HasTy cx ty' w) :
    ∃ v steps, HasTy cx ty v ∧ ∀ index, v.project index e = some (w, steps) := by
  obtain ⟨ty, i⟩ := ty
  cases e with
  | deref => exact hallowed.elim
  | field f =>
    cases hty
    cases i with
    | none =>
      refine ⟨.aggregate (fieldsWith f w), [.field f],
        .aggregate hallowed (hasTy_fieldsWith (t := cx.fieldTy ty none) hw), fun index => ?_⟩
      simp [Value.project, getElem?_fieldsWith]
    | some i =>
      obtain ⟨defId, substs, rfl, henum⟩ := hallowed
      refine ⟨.variant i (fieldsWith f w), [.field f], .variant henum (.inr rfl)
        (hasTy_fieldsWith (t := cx.fieldTy (.adt defId substs) (some i)) hw), fun index => ?_⟩
      simp [Value.project, getElem?_fieldsWith]
  | downcast i =>
    obtain ⟨_, defId, substs, rfl, _⟩ := hallowed
    cases hty
    cases hw with
    | @variant _ _ _ index fields henum hindex h =>
      obtain rfl : i = index := Option.some.inj (hindex.resolve_left nofun)
      refine ⟨.variant i fields, [], ?_, fun index => by simp [Value.project]⟩
      obtain rfl : _ = none := by assumption
      exact .variant henum (.inl rfl) h
  | index l | constantIndex offset minLength fromEnd =>
    obtain ⟨inner, hinner', _⟩ := bind_eq_ok.1 hty
    rw [hinner] at hinner'
    cases hinner'
  | subslice lo hi =>
    cases ty with
    | adt | ref | rawPtr | other => cases hty
    | array | slice => cases hinner

theorem locate_of_typed (h : Typed cx ty es) (hs : ty.Sane cx) (hv : ¬ Vacant cx ty es) :
    ∃ v r, HasTy cx ty v ∧ locate (fun _ => 0) v es = some r ∧ r.Nonempty := by
  induction h with
  | nil ty =>
    obtain ⟨ty, i⟩ := ty
    cases i with
    | none => exact ⟨.scalar 0, _, .scalar _ _, by rw [locate], Extent.nonempty_whole⟩
    | some i =>
      obtain ⟨defId, substs, rfl, henum⟩ := hs i rfl
      exact ⟨.variant i [], _, .variant henum (.inr rfl) nofun, by rw [locate],
        Extent.nonempty_whole⟩
  | @cons ty ty' e es hallowed hlast hty h ih =>
    obtain ⟨w, r, hw, hl, hr⟩ := ih (hs.projectionTy hallowed hty) fun hvac => hv (.cons hty hvac)
    cases hinner : ty.ty.builtinIndex with
    | none =>
      obtain ⟨v, steps, hv', hp⟩ := HasTy.around hinner hallowed hty hw
      exact ⟨v, _, hv', locate_of_project (hp _) hl, hr.behind steps⟩
    | some inner =>
      have htyped : Typed cx ty (e :: es) := .cons hallowed hlast hty h
      have hnone := hs.variantIndex_eq hinner
      obtain ⟨n, hlen, hn, -⟩ := exists_fitsIn hinner htyped htyped hv hv
      obtain ⟨lo, hi, rfl⟩ | ⟨k, hk, hsel⟩ := subslice_or_selects hinner hallowed hn
      · -- the subslice is the last projection
        obtain rfl := hlast lo hi rfl
        have hlt : lo + hi < n := hn
        have hle := le_of_lt hlt
        refine ⟨.elements (blanks n), ⟨[], some (lo, n - hi)⟩,
          .of_elems hnone hinner (by simpa using hlen) (hasTy_blanks _ _), ?_,
          Extent.nonempty_range (by omega)⟩
        simp [locate, hle]
      · obtain ⟨inner', rfl, hinner'⟩ := projectionTy_of_selects hty hsel
        obtain rfl := Option.mem_unique hinner hinner'
        have hset : ((blanks n).set k w).length = n := by simp
        refine ⟨.elements ((blanks n).set k w), _,
          .of_elems hnone hinner (hset.symm ▸ hlen) (hasTy_set (hasTy_blanks _ _) hw),
          locate_of_project (project_elements (hset.symm ▸ hsel) ?_) hl, hr.behind _⟩
        rw [getElem?_set_self (by simpa using hk)]

end

end Tortis.BorrowCheck
