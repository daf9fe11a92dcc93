import Tortis.BorrowCheck.TypedValues

/-!
# Conflicts under the bias to no overlap

`dataflow/impls/borrows.rs` kills a borrow when its place conflicts with the assigned place under
`PlaceConflictBias::NoOverlap`, and for this a conflict must be definite: one of the two places
contains the other in every state. The pairs with an `Index` projection follow the bias, but two
constant indices from different ends, a constant index and a subslice, and two subslices are taken
for equal as soon as they may meet. `placesConflict_noOverlap_iff` says for which places a conflict
is definite all the same.
-/

namespace Tortis.BorrowCheck

open Outcome List TyKind Extent PlaceTy Extent.Disjoint

/-! ## Nested extents -/

/-- Every part of one extent is a part of the other. -/
def Extent.Contains (r₁ r₂ : Extent) : Prop := ∀ p, r₂.Covers p → r₁.Covers p

/-- One of two extents contains the other. -/
def Extent.Nested (r₁ r₂ : Extent) : Prop := r₁.Contains r₂ ∨ r₂.Contains r₁

section
variable {r r₁ r₂ : Extent} {k lo hi lo₁ hi₁ lo₂ hi₂ : Nat}

theorem Extent.Nested.symm (h : r₁.Nested r₂) : r₂.Nested r₁ := Or.symm h

theorem Extent.whole_contains (r : Extent) : Extent.Contains ⟨[], none⟩ r :=
  fun _ _ => nil_prefix

theorem Extent.Contains.behind (h : r₁.Contains r₂) (steps : List Step) :
    (r₁.behind steps).Contains (r₂.behind steps) := by
  intro p hp
  obtain ⟨q, rfl, hq⟩ := covers_behind hp
  exact covers_append.2 (h q hq)

theorem Extent.nested_behind {steps : List Step} :
    (r₁.behind steps).Nested (r₂.behind steps) ↔ r₁.Nested r₂ := by
  have hback : ∀ {r₁ r₂ : Extent}, (r₁.behind steps).Contains (r₂.behind steps) →
      r₁.Contains r₂ := fun h q hq => covers_append.1 (h _ (covers_append.2 hq))
  exact ⟨Or.imp hback hback, Or.imp (·.behind steps) (·.behind steps)⟩

theorem Extent.Disjoint.not_nested (h : r₁.Disjoint r₂) (h1 : r₁.Nonempty) (h2 : r₂.Nonempty) :
    ¬ r₁.Nested r₂ := by
  rintro (hin | hin)
  · obtain ⟨p, hp⟩ := h2
    exact h p ⟨hin p hp, hp⟩
  · obtain ⟨p, hp⟩ := h1
    exact h p ⟨hp, hin p hp⟩

theorem Extent.range_contains (hlo : lo ≤ k) (hhi : k < hi) :
    Extent.Contains ⟨[], some (lo, hi)⟩ (r.behind [.elem k]) := by
  intro p hp
  obtain ⟨q, rfl, -⟩ := covers_behind hp
  exact ⟨k, hlo, hhi, q, rfl⟩

theorem Extent.nested_range (h1 : lo₁ < hi₁) (h2 : lo₂ < hi₂) :
    Extent.Nested ⟨[], some (lo₁, hi₁)⟩ ⟨[], some (lo₂, hi₂)⟩ ↔
      (lo₁ ≤ lo₂ ∧ hi₂ ≤ hi₁) ∨ (lo₂ ≤ lo₁ ∧ hi₁ ≤ hi₂) := by
  have hin : ∀ {lo₁ hi₁ lo₂ hi₂ : Nat}, lo₂ < hi₂ →
      (Extent.Contains ⟨[], some (lo₁, hi₁)⟩ ⟨[], some (lo₂, hi₂)⟩ ↔ lo₁ ≤ lo₂ ∧ hi₂ ≤ hi₁) := by
    intro lo₁ hi₁ lo₂ hi₂ hlt
    constructor
    · intro h
      have hmem : ∀ k, lo₂ ≤ k → k < hi₂ → lo₁ ≤ k ∧ k < hi₁ := by
        intro k hlo hhi
        obtain ⟨k', hlo', hhi', q, hq⟩ := h [.elem k] ⟨k, hlo, hhi, prefix_rfl⟩
        obtain rfl : k' = k := Step.elem.inj (List.cons.inj hq).1
        exact ⟨hlo', hhi'⟩
      have hfirst := hmem lo₂ le_rfl hlt
      have hlast := hmem (hi₂ - 1) (by omega) (by omega)
      omega
    · rintro ⟨hlo, hhi⟩ p ⟨k, hk, hk', hp⟩
      exact ⟨k, by omega, by omega, hp⟩
  rw [Extent.Nested, hin h2, hin h1]

end

/-! ## Pairs of projections -/

/-- Pairs of projections that are judged disjoint under the bias. -/
def Apart : ProjectionElem → ProjectionElem → Prop
  | .field f₁, .field f₂ => f₁ ≠ f₂
  | .downcast v₁, .downcast v₂ => v₁ ≠ v₂
  | .index _, _ | _, .index _ => True
  | .constantIndex o₁ _ false, .constantIndex o₂ _ false
  | .constantIndex o₁ _ true, .constantIndex o₂ _ true => o₁ ≠ o₂
  | .constantIndex o₁ m₁ false, .constantIndex o₂ m₂ true
  | .constantIndex o₂ m₂ true, .constantIndex o₁ m₁ false => o₁ + o₂ < max m₁ m₂
  | .constantIndex o _ false, .subslice lo _ | .subslice lo _, .constantIndex o _ false => o < lo
  | .constantIndex o _ true, .subslice _ hi | .subslice _ hi, .constantIndex o _ true => o ≤ hi
  | _, _ => False

/-- The number of elements that are known to exist, given the minimum length of a constant index. -/
def TyKind.known : TyKind → Nat → Nat
  | .array _ len, _ => len
  | _, minLength => minLength

/-- Pairs of projections of a type that denote nested parts whenever they are not apart: for every
number of elements that the type allows. -/
def Settled (ty : TyKind) : ProjectionElem → ProjectionElem → Prop
  | .constantIndex o₁ _ false, .constantIndex o₂ _ true
  | .constantIndex o₂ _ true, .constantIndex o₁ _ false => ∃ inner, ty = .array inner (o₁ + o₂)
  | .constantIndex o m false, .subslice lo hi | .subslice lo hi, .constantIndex o m false =>
    o + hi < ty.known m ∨ o ≤ lo
  | .constantIndex o m true, .subslice lo hi | .subslice lo hi, .constantIndex o m true =>
    lo + o ≤ ty.known m ∨ o ≤ hi + 1
  | .subslice lo₁ hi₁, .subslice lo₂ hi₂ =>
    (lo₁ ≤ lo₂ ∧ hi₁ ≤ hi₂) ∨ (lo₂ ≤ lo₁ ∧ hi₂ ≤ hi₁)
  | _, _ => True

/-- Every pair of compared projections is settled. -/
inductive AllSettled (cx : ValueCx) : PlaceTy → List ProjectionElem → List ProjectionElem → Prop
  | nil_left (ty : PlaceTy) (access : List ProjectionElem) : AllSettled cx ty [] access
  | nil_right (ty : PlaceTy) (borrow : List ProjectionElem) : AllSettled cx ty borrow []
  | cons {ty ty' : PlaceTy} {b a : ProjectionElem} {borrow access : List ProjectionElem}
      (hsettled : Settled ty.ty b a) (hty : ty.projectionTy cx.toPlaceCx b = .ok ty')
      (h : AllSettled cx ty' borrow access) : AllSettled cx ty (b :: borrow) (a :: access)

def SomeApart (borrow access : List ProjectionElem) : Prop :=
  ∃ x ∈ borrow.zip access, Apart x.1 x.2

section
variable {cx : ValueCx} {ty ty' ty₁ ty₂ : PlaceTy} {base : PlaceBase} {b a e : ProjectionElem}
  {es projBase borrow access : List ProjectionElem}

/-! ## What the code answers for typed places -/

theorem builtinIndex_isSome_iff (hallowed : Allowed cx ty e)
    (hty : ty.projectionTy cx.toPlaceCx e = .ok ty') : ty.ty.builtinIndex.isSome ↔
      (∃ l, e = .index l) ∨ (∃ o m fromEnd, e = .constantIndex o m fromEnd) ∨
        ∃ lo hi, e = .subslice lo hi := by
  obtain ⟨ty, i⟩ := ty
  cases e with
  | deref => exact hallowed.elim
  | field f =>
    simp only [reduceCtorEq, exists_const, or_self, iff_false]
    cases i with
    | none => cases ty <;> simp_all [Allowed, ValueCx.IsStruct, builtinIndex]
    | some i =>
      obtain ⟨_, _, rfl, _⟩ := hallowed
      intro h
      cases h
  | downcast i =>
    simp only [reduceCtorEq, exists_const, or_self, iff_false]
    obtain ⟨_, _, _, rfl, _⟩ := hallowed
    intro h
    cases h
  | index l | constantIndex o m fromEnd =>
    obtain ⟨inner, hinner, _⟩ := bind_eq_ok.1 hty
    simp [unwrap_eq_ok.1 hinner]
  | subslice lo hi =>
    cases ty with
    | adt | ref | rawPtr | other => cases hty
    | array | slice => simp [builtinIndex]

theorem not_field_and_downcast {f v : Nat} (hf : Allowed cx ty (.field f))
    (hv : Allowed cx ty (.downcast v)) : False := by
  obtain ⟨ty, i⟩ := ty
  obtain ⟨hnone, defId, substs, rfl, henum⟩ := hv
  cases hnone
  simp [Allowed, ValueCx.IsStruct, henum] at hf

theorem isUnion_of_field {f : Nat} {defId : DefId} {substs : List TyKind}
    (hf : Allowed cx ty (.field f)) (hadt : ty.ty = .adt defId substs) :
    (cx.adtDef defId).isUnion = false := by
  obtain ⟨ty, i⟩ := ty
  cases hadt
  cases i with
  | none => exact hf.2
  | some i =>
    obtain ⟨_, _, hty, henum⟩ := hf
    cases hty
    exact cx.isUnion_of_isEnum _ henum

/-- What the comparison answers for a pair of projections. -/
def Judged (b a : ProjectionElem) (o : Outcome Overlap) : Prop :=
  (Apart b a ∧ o = .ok .disjoint) ∨ (¬ Apart b a ∧ o = .ok .equalOrDisjoint)

theorem judged_ofSame {same : Prop} [Decidable same] (h : Apart b a ↔ ¬ same) :
    Judged b a (.ok (.ofSame same)) := by
  by_cases hs : same
  · exact .inr ⟨fun hapart => h.1 hapart hs, by simp [Overlap.ofSame, hs]⟩
  · exact .inl ⟨h.2 hs, by simp [Overlap.ofSame, hs]⟩

theorem judged_constantIndexConflict {o1 o2 m : Nat} (ho : o2 ≤ m)
    (h : Apart b a ↔ o1 + o2 < m) : Judged b a (constantIndexConflict o1 o2 m) := by
  rw [constantIndexConflict, if_neg (by omega)]
  exact judged_ofSame (h.trans (by omega))

theorem placeProjectionConflict_judged (hbase : tyFrom cx.toPlaceCx base projBase = .ok ty)
    (hb : Allowed cx ty b) (ha : Allowed cx ty a) (hty1 : ty.projectionTy cx.toPlaceCx b = .ok ty₁)
    (hty2 : ty.projectionTy cx.toPlaceCx a = .ok ty₂) :
    Judged b a (placeProjectionConflict cx.toPlaceCx base projBase b a .noOverlap) := by
  have hkind := (builtinIndex_isSome_iff hb hty1).symm.trans (builtinIndex_isSome_iff ha hty2)
  cases b with
  | deref => exact hb.elim
  | field f1 =>
    cases a with
    | deref => exact ha.elim
    | downcast v => exact (not_field_and_downcast hb ha).elim
    | index | constantIndex | subslice => simp at hkind
    | field f2 =>
      rw [placeProjectionConflict]
      split
      · rename_i heq
        exact .inr ⟨fun hne => hne heq, rfl⟩
      · rename_i hne
        refine .inl ⟨hne, ?_⟩
        rw [hbase, ok_bind]
        split
        · rename_i defId substs hadt
          rw [isUnion_of_field hb hadt, if_neg Bool.false_ne_true]
        · rfl
  | downcast v1 =>
    cases a with
    | deref => exact ha.elim
    | field f => exact (not_field_and_downcast ha hb).elim
    | index | constantIndex | subslice => simp at hkind
    | downcast v2 => exact judged_ofSame Iff.rfl
  | index l =>
    cases a with
    | deref => exact ha.elim
    | field | downcast => simp at hkind
    | index | constantIndex | subslice => exact .inl ⟨trivial, rfl⟩
  | constantIndex o1 m1 end1 =>
    cases a with
    | deref => exact ha.elim
    | field | downcast => simp at hkind
    | index l => cases end1 <;> exact .inl ⟨trivial, rfl⟩
    | constantIndex o2 m2 end2 =>
      cases end1 with
      | false =>
        cases end2 with
        | false => exact judged_ofSame Iff.rfl
        | true =>
          exact judged_constantIndexConflict (le_trans ha.2.2.1 (le_max_right _ _)) Iff.rfl
      | true =>
        cases end2 with
        | false =>
          exact judged_constantIndexConflict (le_trans hb.2.2.1 (le_max_left _ _))
            (by simp only [Apart, Nat.max_comm])
        | true => exact judged_ofSame Iff.rfl
    | subslice lo hi =>
      cases end1 with
      | false => exact judged_ofSame (not_le).symm
      | true => exact judged_ofSame (not_lt).symm
  | subslice lo hi =>
    cases a with
    | deref => exact ha.elim
    | field | downcast => simp at hkind
    | index l => exact .inl ⟨trivial, rfl⟩
    | constantIndex o m fromEnd =>
      cases fromEnd with
      | false => exact judged_ofSame (not_le).symm
      | true => exact judged_ofSame (not_lt).symm
    | subslice => exact .inr ⟨id, rfl⟩

theorem tyFrom_append (hbase : tyFrom cx.toPlaceCx base projBase = .ok ty)
    (hty : ty.projectionTy cx.toPlaceCx e = .ok ty') :
    tyFrom cx.toPlaceCx base (projBase ++ [e]) = .ok ty' := by
  obtain ⟨ty0, hty0, hfold⟩ := bind_eq_ok.1 hbase
  rw [tyFrom, hty0, ok_bind, foldlM_append]
  exact bind_eq_ok.2 ⟨ty, hfold, bind_eq_ok.2 ⟨ty', hty, rfl⟩⟩

theorem projectionTy_eq_of_not_apart (hb : Allowed cx ty b) (ha : Allowed cx ty a)
    (hty1 : ty.projectionTy cx.toPlaceCx b = .ok ty₁)
    (hty2 : ty.projectionTy cx.toPlaceCx a = .ok ty₂) (h : ¬ Apart b a)
    (hsb : ∀ lo hi, b ≠ .subslice lo hi) (hsa : ∀ lo hi, a ≠ .subslice lo hi) : ty₁ = ty₂ := by
  have hkind := (builtinIndex_isSome_iff hb hty1).symm.trans (builtinIndex_isSome_iff ha hty2)
  cases b with
  | deref => exact hb.elim
  | subslice lo hi => exact absurd rfl (hsb lo hi)
  | index l => cases a <;> exact absurd trivial h
  | field f1 =>
    cases a with
    | deref => exact ha.elim
    | downcast v => exact (not_field_and_downcast hb ha).elim
    | index | constantIndex | subslice => simp at hkind
    | field f2 =>
      obtain rfl : f1 = f2 := not_not.1 h
      exact Except.ok.inj (hty1.symm.trans hty2)
  | downcast v1 =>
    cases a with
    | deref => exact ha.elim
    | field f => exact (not_field_and_downcast ha hb).elim
    | index | constantIndex | subslice => simp at hkind
    | downcast v2 =>
      obtain rfl : v1 = v2 := not_not.1 h
      exact Except.ok.inj (hty1.symm.trans hty2)
  | constantIndex o1 m1 end1 =>
    cases a with
    | deref => exact ha.elim
    | field | downcast => simp at hkind
    | index l => exact absurd (by cases end1 <;> trivial) h
    | subslice lo hi => exact absurd rfl (hsa lo hi)
    | constantIndex o2 m2 end2 =>
      exact Except.ok.inj (hty1.symm.trans hty2)

theorem ends_or_same_type (hb : Allowed cx ty b) (ha : Allowed cx ty a)
    (hlast1 : ∀ lo hi, b = .subslice lo hi → borrow = [])
    (hlast2 : ∀ lo hi, a = .subslice lo hi → access = [])
    (hty1 : ty.projectionTy cx.toPlaceCx b = .ok ty₁)
    (hty2 : ty.projectionTy cx.toPlaceCx a = .ok ty₂) (h : ¬ Apart b a) :
    borrow = [] ∨ access = [] ∨ ty₁ = ty₂ := by
  by_cases hsb : ∃ lo hi, b = .subslice lo hi
  · obtain ⟨lo, hi, hsb⟩ := hsb
    exact .inl (hlast1 lo hi hsb)
  · by_cases hsa : ∃ lo hi, a = .subslice lo hi
    · obtain ⟨lo, hi, hsa⟩ := hsa
      exact .inr (.inl (hlast2 lo hi hsa))
    · exact .inr (.inr (projectionTy_eq_of_not_apart hb ha hty1 hty2 h
        (fun lo hi e => hsb ⟨lo, hi, e⟩) fun lo hi e => hsa ⟨lo, hi, e⟩))

@[simp] theorem not_someApart_nil : ¬ SomeApart [] access := nofun

@[simp] theorem not_someApart_nil_right : ¬ SomeApart borrow [] := by cases borrow <;> nofun

theorem someApart_cons : SomeApart (b :: borrow) (a :: access) ↔
    Apart b a ∨ SomeApart borrow access := by
  simp [SomeApart]

theorem compareComponents_end {bias : PlaceConflictBias} (h : borrow = [] ∨ access = []) :
    compareComponents cx.toPlaceCx base bias projBase borrow access = .ok none := by
  rcases h with rfl | rfl
  · rw [compareComponents.eq_2]
    nofun
  · rw [compareComponents.eq_2]
    nofun

theorem compareComponents_eq (hb : Typed cx ty borrow) (ha : Typed cx ty access)
    (hbase : tyFrom cx.toPlaceCx base projBase = .ok ty) : (SomeApart borrow access ∧
      compareComponents cx.toPlaceCx base .noOverlap projBase borrow access = .ok (some false)) ∨
    (¬ SomeApart borrow access ∧
      compareComponents cx.toPlaceCx base .noOverlap projBase borrow access = .ok none) := by
  induction hb generalizing access projBase with
  | nil ty => exact .inr ⟨not_someApart_nil, compareComponents_end (.inl rfl)⟩
  | @cons ty ty₁ b borrow hallowed1 hlast1 hty1 hb ih =>
    cases ha with
    | nil => exact .inr ⟨not_someApart_nil_right, compareComponents_end (.inr rfl)⟩
    | @cons _ ty₂ a access hallowed2 hlast2 hty2 ha =>
      rw [compareComponents, someApart_cons]
      obtain ⟨hapart, ho⟩ | ⟨hapart, ho⟩ :=
        placeProjectionConflict_judged hbase hallowed1 hallowed2 hty1 hty2
      · exact .inl ⟨.inl hapart, by rw [ho, ok_bind]⟩
      · rw [ho, ok_bind]
        simp only [hapart, false_or]
        obtain rfl | rfl | rfl :=
          ends_or_same_type hallowed1 hallowed2 hlast1 hlast2 hty1 hty2 hapart
        · exact .inr ⟨not_someApart_nil, compareComponents_end (.inl rfl)⟩
        · exact .inr ⟨not_someApart_nil_right, compareComponents_end (.inr rfl)⟩
        · exact ih ha (tyFrom_append hbase hty1)

theorem compareRest_eq (h : Typed cx ty es) (hbase : tyFrom cx.toPlaceCx base projBase = .ok ty) :
    compareRest cx.toPlaceCx base .deep projBase es = .ok none := by
  induction h generalizing projBase with
  | nil ty => rw [compareRest]
  | @cons ty ty' e es hallowed hlast hty h ih =>
    rw [compareRest, hbase, ok_bind]
    cases e with
    | deref => exact hallowed.elim
    | field | downcast | index | constantIndex | subslice => exact ih (tyFrom_append hbase hty)

theorem Typed.take_drop (h : Typed cx ty es) (hbase : tyFrom cx.toPlaceCx base projBase = .ok ty)
    (n : Nat) : ∃ ty', tyFrom cx.toPlaceCx base (projBase ++ es.take n) = .ok ty' ∧
      Typed cx ty' (es.drop n) := by
  induction h generalizing projBase n with
  | nil ty => exact ⟨ty, by simpa using hbase, by simpa using .nil ty⟩
  | @cons ty ty' e es hallowed hlast hty h ih =>
    cases n with
    | zero => exact ⟨ty, by simpa using hbase, .cons hallowed hlast hty h⟩
    | succ n =>
      obtain ⟨ty'', hty'', hdrop⟩ := ih (tyFrom_append hbase hty) n
      exact ⟨ty'', by simpa using hty'', hdrop⟩

theorem placesConflict_same_local {l : Local} {ty : TyKind} (hl : cx.localTy l = some ty)
    (hb : Typed cx (.fromTy ty) borrow) (ha : Typed cx (.fromTy ty) access) :
    placesConflict cx.toPlaceCx ⟨.loc l, borrow⟩ ⟨.loc l, access⟩ .noOverlap = .ok true ↔
      ¬ SomeApart borrow access := by
  have hbase : tyFrom cx.toPlaceCx (.loc l) [] = .ok (.fromTy ty) := by
    simp [tyFrom, baseTy, hl, pure, Except.pure]
  rw [placesConflict, borrowConflictsWithPlace]
  split
  · rename_i l₁ l₂ hl1 hl2
    cases borrow <;> cases hl1
    cases access <;> cases hl2
    simp
  · rw [placeComponentsConflict]
    simp only [placeBaseConflict, Overlap.ofSame, decide_true, if_true]
    obtain ⟨hapart, hrun⟩ | ⟨hapart, hrun⟩ := compareComponents_eq hb ha hbase
    · rw [hrun]
      simp [hapart]
    · obtain ⟨ty', hty', hdrop⟩ := hb.take_drop hbase access.length
      rw [hrun, ok_bind]
      simp only [nil_append] at hty'
      simp [compareRest_eq hdrop hty', hapart]

/-! ## Settled pairs denote nested elements -/

/-- The elements that a projection denotes among `n`; an index is not known. -/
def rangeIn (n : Nat) : ProjectionElem → Nat × Nat
  | .constantIndex offset _ false => (offset, offset + 1)
  | .constantIndex offset _ true => (n - offset, n - offset + 1)
  | .subslice lo hi => (lo, n - hi)
  | _ => (0, 0)

def NestedRanges (r₁ r₂ : Nat × Nat) : Prop :=
  (r₁.1 ≤ r₂.1 ∧ r₂.2 ≤ r₁.2) ∨ (r₂.1 ≤ r₁.1 ∧ r₁.2 ≤ r₂.2)

/-- The least number of elements among which a projection denotes some. -/
def needed : ProjectionElem → Nat
  | .constantIndex _ minLength _ => minLength
  | .subslice lo hi => lo + hi + 1
  | _ => 1

variable {n : Nat}

theorem fitsIn_of_needed (h : needed e ≤ n) : FitsIn n e := by
  cases e with
  | deref | field | downcast => trivial
  | index | constantIndex | subslice => exact h

/-- A projection of elements that is not an index. -/
def IsConstant (e : ProjectionElem) : Prop :=
  (∃ o m fromEnd, e = .constantIndex o m fromEnd) ∨ ∃ lo hi, e = .subslice lo hi

variable {inner : TyKind}

theorem TyKind.isArray_array {len n : Nat} :
    (∃ inner', array inner len = .array inner' n) ↔ len = n := by
  constructor
  · rintro ⟨inner', h⟩
    exact (array.inj h).2
  · rintro rfl
    exact ⟨inner, rfl⟩

theorem TyKind.isArray_slice : (∃ inner', TyKind.slice inner = .array inner' n) ↔ False :=
  ⟨nofun, False.elim⟩

variable {i : Option Nat}

theorem settled_array {len : Nat} (hcb : IsConstant b)
    (hca : IsConstant a) (hb : Allowed cx ⟨.array inner len, i⟩ b)
    (ha : Allowed cx ⟨.array inner len, i⟩ a) (hapart : ¬ Apart b a) (hfb : FitsIn len b)
    (hfa : FitsIn len a) :
    Settled (.array inner len) b a ↔ NestedRanges (rangeIn len b) (rangeIn len a) := by
  rcases hcb with ⟨o1, m1, _ | _, rfl⟩ | ⟨lo₁, hi₁, rfl⟩ <;>
    rcases hca with ⟨o2, m2, _ | _, rfl⟩ | ⟨lo₂, hi₂, rfl⟩ <;>
    simp only [Settled, NestedRanges, rangeIn, FitsIn, Allowed, Apart, isArray_array, true_iff,
      known] at * <;> omega

/-- In a slice, which may have any length, a pair is settled exactly when it denotes nested ranges
for the least length and for the one after it. -/
theorem settled_slice (hcb : IsConstant b) (hca : IsConstant a)
    (hb : Allowed cx ⟨.slice inner, i⟩ b) (ha : Allowed cx ⟨.slice inner, i⟩ a)
    (hapart : ¬ Apart b a) : Settled (.slice inner) b a ↔ ∀ n, FitsIn n b → FitsIn n a →
    NestedRanges (rangeIn n b) (rangeIn n a) := by
  constructor
  · intro h n hfb hfa
    rcases hcb with ⟨o1, m1, _ | _, rfl⟩ | ⟨lo₁, hi₁, rfl⟩ <;>
      rcases hca with ⟨o2, m2, _ | _, rfl⟩ | ⟨lo₂, hi₂, rfl⟩ <;>
      simp only [Settled, NestedRanges, rangeIn, FitsIn, Allowed, Apart, isArray_slice,
        known] at * <;> omega
  · intro h
    have hleast := h (max (needed b) (needed a)) (fitsIn_of_needed (le_max_left _ _))
      (fitsIn_of_needed (le_max_right _ _))
    have hnext := h (max (needed b) (needed a) + 1)
      (fitsIn_of_needed (Nat.le_succ_of_le (le_max_left _ _)))
      (fitsIn_of_needed (Nat.le_succ_of_le (le_max_right _ _)))
    rcases hcb with ⟨o1, m1, _ | _, rfl⟩ | ⟨lo₁, hi₁, rfl⟩ <;>
      rcases hca with ⟨o2, m2, _ | _, rfl⟩ | ⟨lo₂, hi₂, rfl⟩ <;>
      simp only [Settled, NestedRanges, rangeIn, needed, Allowed, Apart, isArray_slice,
        known] at * <;> omega

theorem Settled.nestedRanges (h : Settled ty.ty b a) (hlen : ty.ty.HasLength n)
    (hcb : IsConstant b) (hca : IsConstant a) (hb : Allowed cx ty b) (ha : Allowed cx ty a)
    (hapart : ¬ Apart b a) (hfb : FitsIn n b) (hfa : FitsIn n a) :
    NestedRanges (rangeIn n b) (rangeIn n a) := by
  obtain ⟨ty, i⟩ := ty
  cases ty with
  | adt | ref | rawPtr | other => exact hlen.elim
  | array inner len =>
    obtain rfl : n = len := hlen
    exact (settled_array hcb hca hb ha hapart hfb hfa).1 h
  | slice inner => exact (settled_slice hcb hca hb ha hapart).1 h n hfb hfa

/-! ## Settled places are nested -/

variable {index : Local → Nat}

theorem rangeIn_of_selects {n k : Nat} (h : SelectsElem index n e k)
    (hne : ∀ l, e ≠ .index l) : IsConstant e ∧ FitsIn n e ∧ rangeIn n e = (k, k + 1) := by
  cases e with
  | deref | field | downcast | subslice => exact h.elim
  | index l => exact absurd rfl (hne l)
  | constantIndex o m fromEnd =>
    cases fromEnd with
    | false =>
      obtain ⟨hm, rfl⟩ := h
      exact ⟨.inl ⟨_, _, _, rfl⟩, hm, rfl⟩
    | true =>
      obtain ⟨hm, _, rfl⟩ := h
      exact ⟨.inl ⟨_, _, _, rfl⟩, hm, rfl⟩

variable {elems : List Value}

theorem HasTy.hasLength (h : HasTy cx ty (.elements elems)) : ty.ty.HasLength elems.length := by
  cases h with
  | array hlen _ => exact hlen
  | slice _ => trivial

theorem not_index_of_not_apart (h : ¬ Apart b a) : (∀ l, b ≠ .index l) ∧ ∀ l, a ≠ .index l := by
  constructor
  · rintro l rfl
    cases a <;> exact h trivial
  · rintro l rfl
    cases b with
    | constantIndex o m fromEnd => cases fromEnd <;> exact h trivial
    | deref | field | downcast | index | subslice => exact h trivial

variable {v w : Value} {w1 w2 : Value} {index1 index2 : Local → Nat}

theorem project_eq_of_settled
    {steps1 steps2 : List Step} (hv : HasTy cx ty v) (hb : Allowed cx ty b) (ha : Allowed cx ty a)
    (hs : Settled ty.ty b a) (hapart : ¬ Apart b a) (h1 : v.project index1 b = some (w1, steps1))
    (h2 : v.project index2 a = some (w2, steps2)) : w1 = w2 ∧ steps1 = steps2 := by
  obtain ⟨f1, rfl, hw1, rfl⟩ | ⟨v1, fields1, rfl, rfl, rfl, rfl⟩ | ⟨elems, k1, rfl, hk1, hw1, rfl⟩ :=
    project_cases h1
  · obtain ⟨f2, rfl, hw2, rfl⟩ | ⟨v2, fields2, rfl, rfl, rfl, rfl⟩ | ⟨elems, k2, rfl, hk2, hw2, rfl⟩ :=
      project_cases h2
    · obtain rfl : f1 = f2 := not_not.1 hapart
      exact ⟨Option.mem_unique hw1 hw2, rfl⟩
    · exact (not_field_and_downcast hb ha).elim
    · cases hw1
  · obtain ⟨f2, rfl, hw2, rfl⟩ | ⟨v2, fields2, rfl, hv2, rfl, rfl⟩ | ⟨elems, k2, hv2, hk2, hw2, rfl⟩ :=
      project_cases h2
    · exact (not_field_and_downcast ha hb).elim
    · exact ⟨rfl, rfl⟩
    · cases hv2
  · obtain ⟨f2, rfl, hw2, rfl⟩ | ⟨v2, fields2, rfl, hv2, rfl, rfl⟩ | ⟨elems, k2, hv2, hk2, hw2, rfl⟩ :=
      project_cases h2
    · cases hw2
    · cases hv2
    · cases hv2
      obtain ⟨hnb, hna⟩ := not_index_of_not_apart hapart
      obtain ⟨hcb, hfb, hrb⟩ := rangeIn_of_selects hk1 hnb
      obtain ⟨hca, hfa, hra⟩ := rangeIn_of_selects hk2 hna
      have hnested := hs.nestedRanges hv.hasLength hcb hca hb ha hapart hfb hfa
      rw [hrb, hra] at hnested
      simp only [NestedRanges] at hnested
      obtain rfl : k1 = k2 := by omega
      exact ⟨Option.mem_unique hw1 hw2, rfl⟩

theorem NestedRanges.symm {r₁ r₂ : Nat × Nat} (h : NestedRanges r₁ r₂) : NestedRanges r₂ r₁ :=
  Or.symm h

variable {lo hi : Nat}

theorem Extent.contains_empty (h : hi ≤ lo) (r : Extent) : r.Contains ⟨[], some (lo, hi)⟩ := by
  rintro p ⟨k, hlo, hhi, -⟩
  omega

theorem nested_subslice {steps : List Step} {r : Extent} (hne : ∀ l, b ≠ .index l)
    (hp : (Value.elements elems).project index b = some (w, steps))
    (hnested : FitsIn elems.length b → IsConstant b → lo + hi < elems.length →
      NestedRanges (rangeIn elems.length b) (lo, elems.length - hi)) :
    (r.behind steps).Nested ⟨[], some (lo, elems.length - hi)⟩ := by
  obtain ⟨f, rfl, hw, rfl⟩ | ⟨i, fields, rfl, hv, rfl, rfl⟩ | ⟨elems, k, hv, hk, hw, rfl⟩ :=
    project_cases hp
  · cases hw
  · cases hv
  · cases hv
    obtain ⟨hconst, hfits, hrange⟩ := rangeIn_of_selects hk hne
    by_cases hlt : lo + hi < elems.length
    · have hranges := hnested hfits hconst hlt
      rw [hrange] at hranges
      simp only [NestedRanges] at hranges
      exact .inr (range_contains (by omega) (by omega))
    · exact .inl (contains_empty (by omega) _)

theorem nested_subslices {n lo₁ hi₁ lo₂ hi₂ : Nat}
    (h : lo₁ + hi₁ < n → lo₂ + hi₂ < n → NestedRanges (lo₁, n - hi₁) (lo₂, n - hi₂)) :
    Extent.Nested ⟨[], some (lo₁, n - hi₁)⟩ ⟨[], some (lo₂, n - hi₂)⟩ := by
  by_cases h1 : lo₁ + hi₁ < n
  · by_cases h2 : lo₂ + hi₂ < n
    · exact (nested_range (by omega) (by omega)).2 (h h1 h2)
    · exact .inl (contains_empty (by omega) _)
  · exact .inr (contains_empty (by omega) _)

variable {r₁ r₂ : Extent}

theorem nested_of_nil (h : locate index v [] = some r₁) : r₁.Nested r₂ := by
  cases h
  exact .inl (whole_contains r₂)

theorem nested_of_allSettled
    (hb : Typed cx ty borrow) (ha : Typed cx ty access) (hv : HasTy cx ty v)
    (hs : AllSettled cx ty borrow access) (hapart : ¬ SomeApart borrow access)
    (h1 : locate index1 v borrow = some r₁) (h2 : locate index2 v access = some r₂) :
    r₁.Nested r₂ := by
  induction hs generalizing v r₁ r₂ with
  | nil_left ty access => exact nested_of_nil h1
  | nil_right ty borrow => exact (nested_of_nil h2).symm
  | @cons ty ty' b a borrow access hsettled hty _ ih =>
    rw [someApart_cons, not_or] at hapart
    obtain ⟨hne, hrest⟩ := hapart
    obtain ⟨hnb, hna⟩ := not_index_of_not_apart hne
    cases hb with
    | @cons _ ty₁ _ _ hallowed1 hlast1 hty1 hb =>
      cases ha with
      | @cons _ ty₂ _ _ hallowed2 hlast2 hty2 ha =>
        obtain rfl : ty₁ = ty' := Except.ok.inj (hty1.symm.trans hty)
        obtain ⟨elems, lo₁, hi₁, rfl, rfl, rfl, hle1, rfl⟩ | ⟨w1, steps1, r₁, hp1, hl1, rfl⟩ :=
          locate_cons h1
        · obtain ⟨elems, lo₂, hi₂, hveq, rfl, rfl, hle2, rfl⟩ | ⟨w2, steps2, r₂, hp2, hl2, rfl⟩ :=
            locate_cons h2
          · cases hveq
            exact nested_subslices fun hlt1 hlt2 => hsettled.nestedRanges hv.hasLength
              (.inr ⟨_, _, rfl⟩) (.inr ⟨_, _, rfl⟩) hallowed1 hallowed2 hne hlt1 hlt2
          · exact (nested_subslice hna hp2 fun hfits hconst hlt =>
              (hsettled.nestedRanges hv.hasLength (.inr ⟨_, _, rfl⟩) hconst hallowed1 hallowed2 hne
                hlt hfits).symm).symm
        · obtain ⟨elems, lo₂, hi₂, rfl, rfl, rfl, hle2, rfl⟩ | ⟨w2, steps2, r₂, hp2, hl2, rfl⟩ :=
            locate_cons h2
          · exact nested_subslice hnb hp1 fun hfits hconst hlt =>
              hsettled.nestedRanges hv.hasLength hconst (.inr ⟨_, _, rfl⟩) hallowed1 hallowed2 hne
                hfits hlt
          · -- both go on, in the same part
            obtain ⟨rfl, rfl⟩ := project_eq_of_settled hv hallowed1 hallowed2 hsettled hne hp1 hp2
            refine nested_behind.2 ?_
            obtain rfl | rfl | rfl :=
              ends_or_same_type hallowed1 hallowed2 hlast1 hlast2 hty1 hty2 hne
            · exact nested_of_nil hl1
            · exact (nested_of_nil hl2).symm
            · exact ih hb ha (hv.project hallowed1 hty1 hp1) hrest hl1 hl2

/-! ## Places that are not settled are parted in some state -/

theorem exists_elems {n k1 k2 : Nat} (hs : ty.Sane cx)
    (hinner : ty.ty.builtinIndex = some inner) (hlen : ty.ty.HasLength n)
    (hw1 : HasTy cx (.fromTy inner) w1) (hw2 : HasTy cx (.fromTy inner) w2) (hne : k1 ≠ k2)
    (hk1 : k1 < n) (hk2 : k2 < n) :
    ∃ elems : List Value, elems.length = n ∧ HasTy cx ty (.elements elems) ∧
      elems[k1]? = some w1 ∧ elems[k2]? = some w2 := by
  have hlength : (((blanks n).set k1 w1).set k2 w2).length = n := by simp
  refine ⟨((blanks n).set k1 w1).set k2 w2, hlength,
    .of_elems (hs.variantIndex_eq hinner) hinner (hlength.symm ▸ hlen)
      (hasTy_set (hasTy_set (hasTy_blanks _ _) hw1) hw2), ?_, ?_⟩
  · rw [getElem?_set_ne (Ne.symm hne), getElem?_set_self (by simpa using hk1)]
  · rw [getElem?_set_self (by simpa using hk2)]

theorem exists_elems_one {n k : Nat} (hs : ty.Sane cx)
    (hinner : ty.ty.builtinIndex = some inner) (hlen : ty.ty.HasLength n)
    (hw : HasTy cx (.fromTy inner) w) (hk : k < n) :
    ∃ elems : List Value, elems.length = n ∧ HasTy cx ty (.elements elems) ∧
      elems[k]? = some w := by
  have hlength : ((blanks n).set k w).length = n := by simp
  refine ⟨(blanks n).set k w, hlength, .of_elems (hs.variantIndex_eq hinner) hinner
    (hlength.symm ▸ hlen) (hasTy_set (hasTy_blanks _ _) hw), ?_⟩
  rw [getElem?_set_self (by simpa using hk)]

theorem isConstant_of_elements (hinner : ty.ty.builtinIndex = some inner)
    (hallowed : Allowed cx ty e) (hty : ty.projectionTy cx.toPlaceCx e = .ok ty')
    (hne : ∀ l, e ≠ .index l) : IsConstant e := by
  obtain ⟨l, rfl⟩ | h := (builtinIndex_isSome_iff hallowed hty).1 (by rw [hinner]; rfl)
  · exact absurd rfl (hne l)
  · exact h

section
variable (hinner : ty.ty.builtinIndex = some inner) (hs : ty.Sane cx)
  (hb : Typed cx ty (b :: borrow)) (ha : Typed cx ty (a :: access))
  (hvb : ¬ Vacant cx ty (b :: borrow)) (hva : ¬ Vacant cx ty (a :: access)) (hapart : ¬ Apart b a)

include hinner hb ha hvb hva hapart in
theorem exists_not_nestedRanges (hs : ¬ Settled ty.ty b a) :
    ∃ n, ty.ty.HasLength n ∧ FitsIn n b ∧ FitsIn n a ∧
      ¬ NestedRanges (rangeIn n b) (rangeIn n a) := by
  obtain ⟨hnb, hna⟩ := not_index_of_not_apart hapart
  have hfitsb := fun {inner : TyKind} {len : Nat} (hty : ty.ty = .array inner len) =>
    hb.fitsIn_array hty hvb
  have hfitsa := fun {inner : TyKind} {len : Nat} (hty : ty.ty = .array inner len) =>
    ha.fitsIn_array hty hva
  cases hb with
  | cons hallowed1 _ hty1 _ =>
    cases ha with
    | cons hallowed2 _ hty2 _ =>
      have hcb := isConstant_of_elements hinner hallowed1 hty1 hnb
      have hca := isConstant_of_elements hinner hallowed2 hty2 hna
      obtain ⟨ty, i⟩ := ty
      cases ty with
      | adt | ref | rawPtr | other => cases hinner
      | array inner len =>
        refine ⟨len, rfl, hfitsb rfl, hfitsa rfl, fun hnested => hs ?_⟩
        exact (settled_array hcb hca hallowed1 hallowed2 hapart (hfitsb rfl) (hfitsa rfl)).2 hnested
      | slice inner =>
        by_contra hall
        refine hs ((settled_slice hcb hca hallowed1 hallowed2 hapart).2 fun n hfb hfa => ?_)
        by_contra hnested
        exact hall ⟨n, trivial, hfb, hfa, hnested⟩

theorem settled_of_not_elements (hinner : ty.ty.builtinIndex = none) (hb : Allowed cx ty b)
    (ha : Allowed cx ty a) (hty1 : ty.projectionTy cx.toPlaceCx b = .ok ty₁)
    (hty2 : ty.projectionTy cx.toPlaceCx a = .ok ty₂) (hapart : ¬ Apart b a) :
    Settled ty.ty b a ∧ b = a := by
  have hkind1 := builtinIndex_isSome_iff hb hty1
  have hkind2 := builtinIndex_isSome_iff ha hty2
  rw [hinner] at hkind1 hkind2
  cases b with
  | deref => exact hb.elim
  | index | constantIndex | subslice => simp at hkind1
  | field f1 =>
    cases a with
    | deref => exact ha.elim
    | index | constantIndex | subslice => simp at hkind2
    | downcast v => exact (not_field_and_downcast hb ha).elim
    | field f2 => exact ⟨trivial, congrArg _ (not_not.1 hapart)⟩
  | downcast v1 =>
    cases a with
    | deref => exact ha.elim
    | index | constantIndex | subslice => simp at hkind2
    | field f => exact (not_field_and_downcast ha hb).elim
    | downcast v2 => exact ⟨trivial, congrArg _ (not_not.1 hapart)⟩

theorem locate_outside {n lo hi k : Nat} {r : Extent}
    (hs : ty.Sane cx) (hinner : ty.ty.builtinIndex = some inner) (hlen : ty.ty.HasLength n)
    (hlt : lo + hi < n) (hk : k < n) (hsel : SelectsElem (fun _ => 0) n e k)
    (hout : k < lo ∨ n - hi ≤ k) (hw : HasTy cx (.fromTy inner) w)
    (hl : locate (fun _ => 0) w es = some r) (hr : r.Nonempty) :
    ∃ v r₁ r₂, HasTy cx ty v ∧ locate (fun _ => 0) v (e :: es) = some r₁ ∧
      locate (fun _ => 0) v [.subslice lo hi] = some r₂ ∧ ¬ r₁.Nested r₂ := by
  obtain ⟨elems, rfl, hv, hget⟩ := exists_elems_one hs hinner hlen hw hk
  refine ⟨.elements elems, r.behind [.elem k], ⟨[], some (lo, elems.length - hi)⟩, hv,
    locate_of_project (project_elements hsel hget) hl, ?_, ?_⟩
  · have hle := le_of_lt hlt
    simp [locate, hle]
  · exact (of_range hout).not_nested (hr.behind _)
      (nonempty_range (by omega))

include hinner hs hb ha hvb hva hapart in
theorem exists_not_nested_here (hset : ¬ Settled ty.ty b a) : ∃ v r₁ r₂,
    HasTy cx ty v ∧ locate (fun _ => 0) v (b :: borrow) = some r₁ ∧
      locate (fun _ => 0) v (a :: access) = some r₂ ∧ ¬ r₁.Nested r₂ := by
  obtain ⟨n, hlen, hfb, hfa, hnested⟩ := exists_not_nestedRanges hinner hb ha hvb hva hapart hset
  obtain ⟨hnb, hna⟩ := not_index_of_not_apart hapart
  cases hb with
  | @cons _ ty₁ _ _ hallowed1 hlast1 hty1 hb =>
    cases ha with
    | @cons _ ty₂ _ _ hallowed2 hlast2 hty2 ha =>
      obtain ⟨lo₁, hi₁, rfl⟩ | ⟨k1, hk1, hsel1⟩ := subslice_or_selects hinner hallowed1 hfb <;>
        obtain ⟨lo₂, hi₂, rfl⟩ | ⟨k2, hk2, hsel2⟩ := subslice_or_selects hinner hallowed2 hfa
      · -- two subslices
        obtain rfl := hlast1 lo₁ hi₁ rfl
        obtain rfl := hlast2 lo₂ hi₂ rfl
        have hlt1 : lo₁ + hi₁ < n := hfb
        have hlt2 : lo₂ + hi₂ < n := hfa
        have hle1 := le_of_lt hlt1
        have hle2 := le_of_lt hlt2
        refine ⟨.elements (blanks n), ⟨[], some (lo₁, n - hi₁)⟩, ⟨[], some (lo₂, n - hi₂)⟩,
          .of_elems (hs.variantIndex_eq hinner) hinner (by simpa using hlen) (hasTy_blanks _ _),
          by simp [locate, hle1], by simp [locate, hle2], ?_⟩
        rw [nested_range (by omega) (by omega)]
        exact hnested
      · -- a subslice and an element
        obtain rfl := hlast1 lo₁ hi₁ rfl
        have hlt : lo₁ + hi₁ < n := hfb
        obtain ⟨inner', rfl, hinner'⟩ := projectionTy_of_selects hty2 hsel2
        obtain rfl := Option.mem_unique hinner hinner'
        obtain ⟨w, r, hw, hl, hr⟩ := locate_of_typed ha (sane_fromTy _)
          fun hvac => hva (.cons hty2 hvac)
        rw [(rangeIn_of_selects hsel2 hna).2.2] at hnested
        simp only [NestedRanges, rangeIn] at hnested
        obtain ⟨v, r₂, r₁, hv, hl2, hl1, hne⟩ :=
          locate_outside hs hinner hlen hlt hk2 hsel2 (by omega) hw hl hr
        exact ⟨v, r₁, r₂, hv, hl1, hl2, fun h => hne h.symm⟩
      · -- an element and a subslice
        obtain rfl := hlast2 lo₂ hi₂ rfl
        have hlt : lo₂ + hi₂ < n := hfa
        obtain ⟨inner', rfl, hinner'⟩ := projectionTy_of_selects hty1 hsel1
        obtain rfl := Option.mem_unique hinner hinner'
        obtain ⟨w, r, hw, hl, hr⟩ := locate_of_typed hb (sane_fromTy _)
          fun hvac => hvb (.cons hty1 hvac)
        rw [(rangeIn_of_selects hsel1 hnb).2.2] at hnested
        simp only [NestedRanges, rangeIn] at hnested
        exact locate_outside hs hinner hlen hlt hk1 hsel1 (by omega) hw hl hr
      · -- two elements
        obtain ⟨inner1, rfl, hinner1⟩ := projectionTy_of_selects hty1 hsel1
        obtain rfl := Option.mem_unique hinner hinner1
        obtain ⟨inner2, rfl, hinner2⟩ := projectionTy_of_selects hty2 hsel2
        obtain rfl := Option.mem_unique hinner hinner2
        obtain ⟨w1, r₁, hw1, hl1, hr1⟩ := locate_of_typed hb (sane_fromTy _)
          fun hvac => hvb (.cons hty1 hvac)
        obtain ⟨w2, r₂, hw2, hl2, hr2⟩ := locate_of_typed ha (sane_fromTy _)
          fun hvac => hva (.cons hty2 hvac)
        rw [(rangeIn_of_selects hsel1 hnb).2.2, (rangeIn_of_selects hsel2 hna).2.2] at hnested
        have hk : k1 ≠ k2 := by
          rintro rfl
          exact hnested (.inl ⟨le_rfl, le_rfl⟩)
        obtain ⟨elems, rfl, hv, hget1, hget2⟩ := exists_elems hs hinner hlen hw1 hw2 hk hk1 hk2
        refine ⟨.elements elems, _, _, hv, locate_of_project (project_elements hsel1 hget1) hl1,
          locate_of_project (project_elements hsel2 hget2) hl2, ?_⟩
        exact (of_ne fun h => hk (Step.elem.inj h)).not_nested (hr1.behind _)
          (hr2.behind _)

include hs hb ha hvb hva hapart in
theorem exists_around_both (hset : Settled ty.ty b a) (hsb : ∀ lo hi, b ≠ .subslice lo hi) (hsa : ∀ lo hi, a ≠ .subslice lo hi)
    (hty : ty.projectionTy cx.toPlaceCx b = .ok ty') (hw : HasTy cx ty' w) :
    ∃ v steps, HasTy cx ty v ∧ v.project (fun _ => 0) b = some (w, steps) ∧
      v.project (fun _ => 0) a = some (w, steps) := by
  cases hinner : ty.ty.builtinIndex with
  | none =>
    cases hb with
    | cons hallowed1 _ hty1 _ =>
      cases ha with
      | cons hallowed2 _ hty2 _ =>
        obtain ⟨-, rfl⟩ := settled_of_not_elements hinner hallowed1 hallowed2 hty1 hty2 hapart
        obtain ⟨v, steps, hv, hp⟩ := HasTy.around hinner hallowed1 hty hw
        exact ⟨v, steps, hv, hp _, hp _⟩
  | some inner =>
    obtain ⟨n, hlen, hfb, hfa⟩ := exists_fitsIn hinner hb ha hvb hva
    obtain ⟨hnb, hna⟩ := not_index_of_not_apart hapart
    cases hb with
    | cons hallowed1 _ hty1 _ =>
      cases ha with
      | cons hallowed2 _ hty2 _ =>
        obtain ⟨lo, hi, heq⟩ | ⟨k1, hk1, hsel1⟩ := subslice_or_selects hinner hallowed1 hfb
        · exact absurd heq (hsb lo hi)
        obtain ⟨lo, hi, heq⟩ | ⟨k2, hk2, hsel2⟩ := subslice_or_selects hinner hallowed2 hfa
        · exact absurd heq (hsa lo hi)
        obtain ⟨hcb, -, hrb⟩ := rangeIn_of_selects hsel1 hnb
        obtain ⟨hca, -, hra⟩ := rangeIn_of_selects hsel2 hna
        have hnested := hset.nestedRanges hlen hcb hca hallowed1 hallowed2 hapart hfb hfa
        rw [hrb, hra] at hnested
        simp only [NestedRanges] at hnested
        obtain rfl : k1 = k2 := by omega
        obtain ⟨inner', rfl, hinner'⟩ := projectionTy_of_selects hty hsel1
        obtain rfl := Option.mem_unique hinner hinner'
        obtain ⟨elems, rfl, hv, hget⟩ := exists_elems_one hs hinner hlen hw hk1
        exact ⟨.elements elems, _, hv, project_elements hsel1 hget, project_elements hsel2 hget⟩

end

theorem exists_not_nested (hs : ty.Sane cx) (hb : Typed cx ty borrow) (ha : Typed cx ty access)
    (hvb : ¬ Vacant cx ty borrow) (hva : ¬ Vacant cx ty access)
    (hapart : ¬ SomeApart borrow access) (hset : ¬ AllSettled cx ty borrow access) :
    ∃ v r₁ r₂, HasTy cx ty v ∧ locate (fun _ => 0) v borrow = some r₁ ∧
      locate (fun _ => 0) v access = some r₂ ∧ ¬ r₁.Nested r₂ := by
  induction hb generalizing access with
  | nil ty => exact absurd (.nil_left ty access) hset
  | @cons ty ty₁ b borrow hallowed1 hlast1 hty1 hb ih =>
    have hb' : Typed cx ty (b :: borrow) := .cons hallowed1 hlast1 hty1 hb
    have ha' := ha
    cases ha with
    | nil => exact absurd (.nil_right ty _) hset
    | @cons _ ty₂ a access hallowed2 hlast2 hty2 ha =>
      rw [someApart_cons, not_or] at hapart
      obtain ⟨hne, hrest⟩ := hapart
      by_cases hhere : Settled ty.ty b a
      · -- the places go on in one part, where a later pair parts them
        have hlater : ¬ AllSettled cx ty₁ borrow access := fun h => hset (.cons hhere hty1 h)
        obtain rfl | rfl | rfl := ends_or_same_type hallowed1 hallowed2 hlast1 hlast2 hty1 hty2 hne
        · exact absurd (.nil_left _ _) hlater
        · exact absurd (.nil_right _ _) hlater
        have hsb : ∀ lo hi, b ≠ .subslice lo hi := by
          intro lo hi heq
          obtain rfl := hlast1 lo hi heq
          exact hlater (.nil_left _ _)
        have hsa : ∀ lo hi, a ≠ .subslice lo hi := by
          intro lo hi heq
          obtain rfl := hlast2 lo hi heq
          exact hlater (.nil_right _ _)
        obtain ⟨w, r₁, r₂, hw, hl1, hl2, hnested⟩ := ih (hs.projectionTy hallowed1 hty1) ha
          (fun hvac => hvb (.cons hty1 hvac)) (fun hvac => hva (.cons hty2 hvac)) hrest hlater
        obtain ⟨v, steps, hv, hp1, hp2⟩ :=
          exists_around_both hs hb' ha' hvb hva hne hhere hsb hsa hty1 hw
        exact ⟨v, _, _, hv, locate_of_project hp1 hl1, locate_of_project hp2 hl2,
          fun h => hnested (nested_behind.1 h)⟩
      · -- this pair parts them
        cases hinner : ty.ty.builtinIndex with
        | none =>
          exact absurd (settled_of_not_elements hinner hallowed1 hallowed2 hty1 hty2 hne).1 hhere
        | some inner => exact exists_not_nested_here hinner hs hb' ha' hvb hva hne hhere

theorem Vacant.not_covers {r : Extent} (h : Vacant cx ty es) (hes : Typed cx ty es)
    (hv : HasTy cx ty v) (hl : locate index v es = some r) (p : List Step) : ¬ r.Covers p := by
  induction h generalizing v r p with
  | index =>
    obtain ⟨elems, lo, hi, _, heq, _⟩ | ⟨w, steps, r, hp, _, _⟩ := locate_cons hl
    · cases heq
    · cases hv with
      | scalar | aggregate => cases hp
      | array hlen _ =>
        obtain rfl := length_eq_zero_iff.1 hlen
        simp [Value.project] at hp
  | @subslice inner i lo hi =>
    obtain ⟨elems, lo', hi', rfl, heq, _, _, rfl⟩ | ⟨w, steps, r, hp, _, _⟩ := locate_cons hl
    · cases heq
      have hlen : elems.length = lo + hi := hv.hasLength
      rintro ⟨k, hlo, hhi, -⟩
      omega
    · cases v <;> cases hp
  | cons hty h ih =>
    cases hes with
    | cons hallowed hlast hty' hes =>
      obtain rfl := Except.ok.inj (hty.symm.trans hty')
      obtain ⟨elems, lo, hi, _, _, rfl, _⟩ | ⟨w, steps, r, hp, hw, rfl⟩ := locate_cons hl
      · cases h
      · intro hcov
        obtain ⟨q, rfl, hq⟩ := covers_behind hcov
        exact ih hes (hv.project hallowed hty hp) hw q hq

end

/-! ## When a conflict is definite -/

def StateTyped (cx : ValueCx) (state : Local → Value) : Prop :=
  ∀ l ty, cx.localTy l = some ty → HasTy cx (.fromTy ty) (state l)

/-- A conflict of two places under the bias is definite: in every state in which both exist, one of
them contains the other. -/
def Definite (cx : ValueCx) (l₁ l₂ : Local) (borrow access : List ProjectionElem) : Prop :=
  placesConflict cx.toPlaceCx ⟨.loc l₁, borrow⟩ ⟨.loc l₂, access⟩ .noOverlap = .ok true →
    ∀ state : Local → Value, StateTyped cx state →
      ∀ (index₁ index₂ : Local → Nat) (r₁ r₂ : Extent),
        locate index₁ (state l₁) borrow = some r₁ → locate index₂ (state l₂) access = some r₂ →
          l₁ = l₂ ∧ r₁.Nested r₂

section
variable {cx : ValueCx} {ty : TyKind} {l l₁ l₂ : Local} {borrow access : List ProjectionElem}

theorem definite_of_ne (h : l₁ ≠ l₂) : Definite cx l₁ l₂ borrow access := by
  intro hconflict
  rw [placesConflict, borrowConflictsWithPlace] at hconflict
  split at hconflict
  · rename_i m1 m2 hm1 hm2
    obtain rfl : l₁ = m1 := PlaceBase.loc.inj (asLocal_base hm1)
    obtain rfl : l₂ = m2 := PlaceBase.loc.inj (asLocal_base hm2)
    simp [h] at hconflict
  · simp [placeComponentsConflict, placeBaseConflict, Overlap.ofSame, h] at hconflict

theorem allSettled_of_definite (hl : cx.localTy l = some ty) (hb : Typed cx (.fromTy ty) borrow)
    (ha : Typed cx (.fromTy ty) access) (hvb : ¬ Vacant cx (.fromTy ty) borrow)
    (hva : ¬ Vacant cx (.fromTy ty) access) (hapart : ¬ SomeApart borrow access)
    (h : Definite cx l l borrow access) : AllSettled cx (.fromTy ty) borrow access := by
  by_contra hset
  obtain ⟨v, r₁, r₂, hv, hl1, hl2, hnested⟩ :=
    exists_not_nested (sane_fromTy ty) hb ha hvb hva hapart hset
  refine hnested (h ((placesConflict_same_local hl hb ha).2 hapart) (fun m => if m = l then v else
    .scalar 0) (fun m ty' hm => ?_) (fun _ => 0) (fun _ => 0) r₁ r₂ ?_ ?_).2
  · by_cases hml : m = l
    · subst hml
      obtain rfl := Option.mem_unique hl hm
      simpa using hv
    · simp only [hml, if_false]
      exact .scalar ty' 0
  · simpa using hl1
  · simpa using hl2

end

/-- A conflict of two well-typed places under the bias to no overlap is definite exactly when the
places have different locals or a pair of components that are apart (and then there is no
conflict), when one of them is vacant, or when every pair of compared components is settled. -/
theorem placesConflict_noOverlap_iff (cx : ValueCx) (l₁ l₂ : Local) (ty₁ ty₂ : TyKind)
    (borrow access : List ProjectionElem) (h₁ : cx.localTy l₁ = some ty₁)
    (h₂ : cx.localTy l₂ = some ty₂) (hb : Typed cx (.fromTy ty₁) borrow)
    (ha : Typed cx (.fromTy ty₂) access) : Definite cx l₁ l₂ borrow access ↔
      l₁ ≠ l₂ ∨ SomeApart borrow access ∨ Vacant cx (.fromTy ty₁) borrow ∨
        Vacant cx (.fromTy ty₂) access ∨ AllSettled cx (.fromTy ty₁) borrow access := by
  constructor
  · intro h
    by_contra hnot
    simp only [not_or, ne_eq, not_not] at hnot
    obtain ⟨rfl, hapart, hvb, hva, hset⟩ := hnot
    obtain rfl := Option.mem_unique h₁ h₂
    exact hset (allSettled_of_definite h₁ hb ha hvb hva hapart h)
  · intro h
    by_cases hl : l₁ = l₂
    · subst hl
      obtain rfl := Option.mem_unique h₁ h₂
      intro hconflict state hstate index1 index2 r₁ r₂ hr1 hr2
      refine ⟨rfl, ?_⟩
      have hapart := (placesConflict_same_local h₁ hb ha).1 hconflict
      have hv := hstate l₁ ty₁ h₁
      obtain hne | hsome | hvac | hvac | hset := h
      · exact absurd rfl hne
      · exact absurd hsome hapart
      · exact .inr fun p hp => absurd hp (hvac.not_covers hb hv hr1 p)
      · exact .inl fun p hp => absurd hp (hvac.not_covers ha hv hr2 p)
      · exact nested_of_allSettled hb ha hv hset hapart hr1 hr2
    · exact definite_of_ne hl

/-- A body whose locals are arrays of `len` elements. -/
def arrayCx (len : Nat) : ValueCx where
  adtDef := fun _ => ⟨false, false, false⟩
  localTy := fun _ => some (.array .other len)
  staticTy := fun _ => .other
  isMutableStatic := fun _ => false
  fieldTy := fun _ _ _ => .other
  isEnum := fun _ => false
  isUnion_of_isEnum := fun _ _ => rfl

/-- The last of two elements, counted from either end. -/
theorem placesConflict_noOverlap_pair :
    placesConflict (arrayCx 2).toPlaceCx ⟨.loc 0, [.constantIndex 1 2 false]⟩
        ⟨.loc 0, [.constantIndex 1 2 true]⟩ .noOverlap = .ok true ∧
      Definite (arrayCx 2) 0 0 [.constantIndex 1 2 false] [.constantIndex 1 2 true] := by
  have hb : Typed (arrayCx 2) (.fromTy (.array .other 2)) [.constantIndex 1 2 false] :=
    .cons ⟨rfl, Nat.one_lt_two, le_refl 2⟩ nofun rfl (.nil _)
  have ha : Typed (arrayCx 2) (.fromTy (.array .other 2)) [.constantIndex 1 2 true] :=
    .cons ⟨rfl, le_refl 1, Nat.le_succ 1, le_refl 2⟩ nofun rfl (.nil _)
  have hset : AllSettled (arrayCx 2) (.fromTy (.array .other 2)) [.constantIndex 1 2 false]
      [.constantIndex 1 2 true] := .cons ⟨.other, rfl⟩ rfl (.nil_left _ _)
  exact ⟨by decide, (placesConflict_noOverlap_iff (arrayCx 2) 0 0 _ _ _ _ rfl rfl hb ha).2
    (.inr (.inr (.inr (.inr hset))))⟩

/-- The second and the last of five elements conflict under the bias: slice patterns for at least
two elements select both. -/
theorem placesConflict_noOverlap_five :
    ¬ Definite (arrayCx 5) 0 0 [.constantIndex 1 2 false] [.constantIndex 1 2 true] := by
  intro h
  have hv : HasTy (arrayCx 5) (.fromTy (.array .other 5)) (.elements (blanks 5)) :=
    .array rfl (hasTy_blanks _ _)
  have hstate : StateTyped (arrayCx 5) fun _ => .elements (blanks 5) := by
    intro l ty hty
    obtain rfl := Option.some.inj hty
    exact hv
  obtain ⟨-, hnested⟩ := h (by decide) _ hstate (fun _ => 0) (fun _ => 0)
    ⟨[.elem 1], none⟩ ⟨[.elem 4], none⟩ (by decide) (by decide)
  have hparted : Extent.Disjoint ⟨[.elem 1], none⟩ ⟨[.elem 4], none⟩ :=
    @Extent.Disjoint.of_ne ⟨[], none⟩ ⟨[], none⟩ (.elem 1) (.elem 4) (by decide)
  exact hparted.not_nested ⟨[.elem 1], prefix_rfl⟩ ⟨[.elem 4], prefix_rfl⟩ hnested

end Tortis.BorrowCheck
