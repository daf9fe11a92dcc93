import Tortis.Mir.Syntax

/-!
# Conflicts of places

`borrow_check/places_conflict.rs`: whether a borrowed place and an accessed place may overlap. The
types of places (`librustc/mir/tcx.rs`) are modelled as far as the comparison reads them; a `Field`
projection stores its type in the source, which here is looked up in the context. Bases that are
promoted constants are left out, as in the MIR model.

Above the code stands what a place denotes: the node of a local's value that its projections lead
to, or a range of the elements of a node for a final subslice.
-/

namespace Tortis.BorrowCheck

open Outcome

/-! ## The types of places -/

inductive Mutability where
  | mutMutable
  | mutImmutable
deriving DecidableEq

/-- The kinds of types that the comparison of places tells apart. -/
inductive TyKind where
  | adt (defId : DefId) (substs : List TyKind)
  | ref (ty : TyKind) (mutbl : Mutability)
  | rawPtr (ty : TyKind)
  | array (ty : TyKind) (len : Nat)
  | slice (ty : TyKind)
  | other

/-- What the comparison reads of an `AdtDef`. -/
structure AdtDef where
  isUnion : Bool
  isBox : Bool
  hasDtor : Bool

/-- What the comparison reads of the type context and of the body. -/
structure PlaceCx where
  /-- The definition of an algebraic data type. -/
  adtDef : DefId → AdtDef
  /-- The declared types of the body's locals. -/
  localTy : Local → Option TyKind
  /-- The type of a static. -/
  staticTy : DefId → TyKind
  /-- Whether a static is mutable. -/
  isMutableStatic : DefId → Bool
  /-- The type that a `Field` projection stores, for a base type and a variant. -/
  fieldTy : TyKind → Option Nat → Nat → TyKind

structure PlaceTy where
  ty : TyKind
  variantIndex : Option Nat

def PlaceTy.fromTy (ty : TyKind) : PlaceTy := ⟨ty, none⟩

section
variable (cx : PlaceCx)

/-- `builtin_deref` of an explicit dereference. -/
def TyKind.builtinDeref : TyKind → Option TyKind
  | .adt defId substs => if (cx.adtDef defId).isBox then substs.head? else none
  | .ref ty _ => some ty
  | .rawPtr ty => some ty
  | _ => none

def TyKind.builtinIndex : TyKind → Option TyKind
  | .array ty _ | .slice ty => some ty
  | _ => none

def PlaceTy.projectionTy (self : PlaceTy) : ProjectionElem → Outcome PlaceTy
  | .deref => do
    let ty ← expect "deref projection of non-dereferencable ty" (self.ty.builtinDeref cx)
    .ok (.fromTy ty)
  | .index _ | .constantIndex _ _ _ => do
    let ty ← unwrap self.ty.builtinIndex
    .ok (.fromTy ty)
  | .subslice lo hi =>
    match self.ty with
    | .array inner size =>
      if size < lo + hi then .error (.panic "attempt to subtract with overflow")
      else .ok (.fromTy (.array inner (size - lo - hi)))
    | .slice _ => .ok (.fromTy self.ty)
    | _ => .error (.panic "cannot subslice non-array type")
  | .downcast index => .ok ⟨self.ty, some index⟩
  | .field f => .ok (.fromTy (cx.fieldTy self.ty self.variantIndex f))

/-- `PlaceBase::ty`. -/
def baseTy : PlaceBase → Outcome PlaceTy
  | .loc l => do
    let ty ← expect "index out of bounds" (cx.localTy l)
    .ok (.fromTy ty)
  | .static defId => .ok (.fromTy (cx.staticTy defId))

def tyFrom (base : PlaceBase) (projection : List ProjectionElem) :
    Outcome PlaceTy := do
  let ty ← baseTy cx base
  projection.foldlM (PlaceTy.projectionTy cx) ty

end

/-! ## The comparison -/

inductive PlaceConflictBias where
  | overlap
  | noOverlap

inductive ArtificialField where
  | arrayLength
  | shallowBorrow
deriving DecidableEq

inductive AccessDepth where
  | shallow (field : Option ArtificialField)
  | deep
  | drop
deriving DecidableEq

inductive Overlap where
  | arbitrary
  | equalOrDisjoint
  | disjoint

/-- The overlap of two elements of which it is known whether they may be the same. -/
def Overlap.ofSame (same : Bool) : Overlap :=
  if same then .equalOrDisjoint else .disjoint

@[simp] theorem Overlap.ofSame_eq_disjoint {same : Bool} :
    ofSame same = .disjoint ↔ same = false := by
  cases same <;> simp [ofSame]

section
variable (cx : PlaceCx)

def placeBaseConflict : PlaceBase → PlaceBase → Overlap
  | .loc l₁, .loc l₂ => .ofSame (l₁ = l₂)
  | .static d₁, .static d₂ =>
    if d₁ ≠ d₂ then .disjoint
    else if cx.isMutableStatic d₁ then .disjoint
    else .equalOrDisjoint
  | .loc _, .static _ | .static _, .loc _ => .disjoint

/-- The comparison of a constant index from the begin with one from the end. -/
def constantIndexConflict (offsetFromBegin offsetFromEnd minLength : Nat) : Outcome Overlap :=
  if minLength < offsetFromEnd then .error (.panic "attempt to subtract with overflow")
  else .ok (.ofSame (minLength - offsetFromEnd ≤ offsetFromBegin))

def placeProjectionConflict (base : PlaceBase) (projBase : List ProjectionElem)
    (elem₁ elem₂ : ProjectionElem) (bias : PlaceConflictBias) : Outcome Overlap :=
  match elem₁, elem₂ with
  | .deref, .deref => .ok .equalOrDisjoint
  | .field f₁, .field f₂ =>
    if f₁ = f₂ then .ok .equalOrDisjoint
    else do
      let ty ← tyFrom cx base projBase
      match ty.ty with
      | .adt defId _ => .ok (if (cx.adtDef defId).isUnion then .arbitrary else .disjoint)
      | _ => .ok .disjoint
  | .downcast v₁, .downcast v₂ => .ok (.ofSame (v₁ = v₂))
  | .index _, .index _ | .index _, .constantIndex _ _ _ | .index _, .subslice _ _
  | .constantIndex _ _ _, .index _ | .subslice _ _, .index _ =>
    match bias with
    | .overlap => .ok .equalOrDisjoint
    | .noOverlap => .ok .disjoint
  | .constantIndex o₁ _ false, .constantIndex o₂ _ false
  | .constantIndex o₁ _ true, .constantIndex o₂ _ true => .ok (.ofSame (o₁ = o₂))
  | .constantIndex offsetFromBegin m₁ false, .constantIndex offsetFromEnd m₂ true =>
    constantIndexConflict offsetFromBegin offsetFromEnd (max m₁ m₂)
  | .constantIndex offsetFromEnd m₁ true, .constantIndex offsetFromBegin m₂ false =>
    constantIndexConflict offsetFromBegin offsetFromEnd (max m₁ m₂)
  | .constantIndex offset _ false, .subslice lo _ | .subslice lo _, .constantIndex offset _ false =>
    .ok (.ofSame (lo ≤ offset))
  | .constantIndex offset _ true, .subslice _ hi | .subslice _ hi, .constantIndex offset _ true =>
    .ok (.ofSame (hi < offset))
  | .subslice _ _, .subslice _ _ => .ok .equalOrDisjoint
  | _, _ => .error (.panic "mismatched projections in place_element_conflict")

theorem placeProjectionConflict_field {base : PlaceBase} {projBase : List ProjectionElem} (f : Nat)
    {bias : PlaceConflictBias} : placeProjectionConflict cx base projBase (.field f) (.field f) bias =
      .ok .equalOrDisjoint := by
  rw [placeProjectionConflict, if_pos rfl]

/-- The loop over the components that both places have, `projBase` being the borrow's components
before them; an answer ends the function. -/
def compareComponents (cx : PlaceCx) (base : PlaceBase) (bias : PlaceConflictBias) :
    (projBase borrow access : List ProjectionElem) → Outcome (Option Bool)
  | projBase, b :: borrow, a :: access => do
    match ← placeProjectionConflict cx base projBase b a bias with
    | .arbitrary => .ok (some true)
    | .equalOrDisjoint => compareComponents cx base bias (projBase ++ [b]) borrow access
    | .disjoint => .ok (some false)
  | _, _, _ => .ok none

/-- The loop over the components that only the borrow has; an answer ends the function. -/
def compareRest (cx : PlaceCx) (base : PlaceBase) (access : AccessDepth) :
    (projBase rest : List ProjectionElem) → Outcome (Option Bool)
  | _, [] => .ok none
  | projBase, elem :: rest => do
    let baseTy ← tyFrom cx base projBase
    match elem, baseTy.ty, access with
    | _, _, .shallow (some _) => .ok (some false)
    | .deref, _, .shallow none => .ok (some false)
    | .deref, .ref _ .mutImmutable, _ =>
      .error (.panic "Tracking borrow behind shared reference.")
    | .deref, .ref _ .mutMutable, .drop => .ok (some false)
    | .field _, .adt defId _, .drop =>
      if (cx.adtDef defId).hasDtor then .ok (some true)
      else compareRest cx base access (projBase ++ [elem]) rest
    | _, _, _ => compareRest cx base access (projBase ++ [elem]) rest

def placeComponentsConflict (borrow : Place) (borrowKind : BorrowKind)
    (access : Place) (depth : AccessDepth) (bias : PlaceConflictBias) : Outcome Bool :=
  match placeBaseConflict cx borrow.base access.base with
  | .arbitrary => .error (.panic "Two base can't return Arbitrary")
  | .disjoint => .ok false
  | .equalOrDisjoint => do
    match ← compareComponents cx borrow.base bias [] borrow.projection access.projection with
    | some answer => .ok answer
    | none =>
      let common := borrow.projection.take access.projection.length
      match ← compareRest cx borrow.base depth common
          (borrow.projection.drop access.projection.length) with
      | some answer => .ok answer
      | none =>
        .ok !(borrowKind = .shallow && borrow.projection.length < access.projection.length)

def asLocal : Place → Option Local
  | ⟨.loc l, []⟩ => some l
  | _ => none

def borrowConflictsWithPlace (borrow : Place) (borrowKind : BorrowKind)
    (access : Place) (depth : AccessDepth) (bias : PlaceConflictBias) : Outcome Bool :=
  match asLocal borrow, asLocal access with
  | some l₁, some l₂ => .ok (l₁ = l₂)
  | _, _ => placeComponentsConflict cx borrow borrowKind access depth bias

def placesConflict (borrow access : Place) (bias : PlaceConflictBias) : Outcome Bool :=
  borrowConflictsWithPlace cx borrow (.mut true) access .deep bias

end

/-! ## What a place denotes -/

/-- A value, as the tree of its parts. -/
inductive Value where
  | scalar (bits : Nat)
  /-- A structure, a tuple or a closure. -/
  | aggregate (fields : List Value)
  /-- A variant of an enum. -/
  | variant (index : Nat) (fields : List Value)
  /-- An array or a slice. -/
  | elements (elems : List Value)

/-- A step from a value to a part of it. -/
inductive Step where
  | field (f : Nat)
  | elem (k : Nat)
deriving DecidableEq

/-- The part a projection leads to, for the given values of the index variables, with the steps to
it. -/
def Value.project (index : Local → Nat) : Value → ProjectionElem → Option (Value × List Step)
  | .aggregate fields, .field f => fields[f]?.map (·, [.field f])
  | .variant _ fields, .field f => fields[f]?.map (·, [.field f])
  | .variant v fields, .downcast v' => if v = v' then some (.variant v fields, []) else none
  | .elements elems, .index l => elems[index l]?.map (·, [.elem (index l)])
  | .elements elems, .constantIndex offset minLength false =>
    if minLength ≤ elems.length then elems[offset]?.map (·, [.elem offset]) else none
  | .elements elems, .constantIndex offset minLength true =>
    if minLength ≤ elems.length ∧ offset ≤ elems.length then
      elems[elems.length - offset]?.map (·, [.elem (elems.length - offset)])
    else none
  | _, _ => none

/-- What a place denotes: a node of the value, or a range of the elements of a node. -/
structure Extent where
  path : List Step
  range : Option (Nat × Nat)
deriving DecidableEq

/-- The parts of the value that belong to an extent. -/
def Extent.Covers (r : Extent) (p : List Step) : Prop :=
  match r.range with
  | none => r.path <+: p
  | some (lo, hi) => ∃ k, lo ≤ k ∧ k < hi ∧ r.path ++ [.elem k] <+: p

/-- An extent of a part, seen from the value that the steps to the part start at. -/
def Extent.behind (steps : List Step) (r : Extent) : Extent :=
  { r with path := steps ++ r.path }

/-- What projections denote in a value, if all of them exist. A subslice comes last and leaves
`lo` elements in front of it and `hi` behind it. -/
def locate (index : Local → Nat) : Value → List ProjectionElem → Option Extent
  | _, [] => some ⟨[], none⟩
  | .elements elems, [.subslice lo hi] =>
    if lo + hi ≤ elems.length then some ⟨[], some (lo, elems.length - hi)⟩ else none
  | v, e :: es => do
    let (w, steps) ← v.project index e
    let r ← locate index w es
    some (r.behind steps)

/-- Two extents have no part in common. -/
def Extent.Disjoint (r₁ r₂ : Extent) : Prop :=
  ∀ p, ¬(r₁.Covers p ∧ r₂.Covers p)

/-! ## Places that do not conflict are disjoint -/

section
variable {index index₁ index₂ : Local → Nat} {v w : Value} {r r₁ r₂ : Extent} {p : List Step}
  {b a e : ProjectionElem} {es borrow access projBase : List ProjectionElem}
  {cx : PlaceCx} {base : PlaceBase}

variable {steps : List Step}

theorem Extent.covers_behind (h : (r.behind steps).Covers p) :
    ∃ q, p = steps ++ q ∧ r.Covers q := by
  obtain ⟨path, range⟩ := r
  cases range with
  | none =>
    obtain ⟨q, rfl⟩ := h
    exact ⟨path ++ q, by simp [Extent.behind], q, rfl⟩
  | some range =>
    obtain ⟨k, hlo, hhi, q, rfl⟩ := h
    exact ⟨path ++ [.elem k] ++ q, by simp [Extent.behind], k, hlo, hhi, q, rfl⟩

theorem Extent.Disjoint.behind (h : r₁.Disjoint r₂) (steps : List Step) :
    (r₁.behind steps).Disjoint (r₂.behind steps) := by
  intro p hp
  obtain ⟨q1, rfl, hq1⟩ := covers_behind hp.1
  obtain ⟨q2, hq, hq2⟩ := covers_behind hp.2
  rw [List.append_cancel_left hq] at hq1
  exact h q2 ⟨hq1, hq2⟩

theorem Extent.Disjoint.of_ne {s1 s2 : Step} (h : s1 ≠ s2) :
    (r₁.behind [s1]).Disjoint (r₂.behind [s2]) := by
  intro p hp
  obtain ⟨q1, rfl, -⟩ := covers_behind hp.1
  obtain ⟨q2, hq, -⟩ := covers_behind hp.2
  exact h (List.cons.inj hq).1

theorem Extent.Disjoint.symm (h : r₁.Disjoint r₂) : r₂.Disjoint r₁ :=
  fun p hp => h p ⟨hp.2, hp.1⟩

theorem Extent.Disjoint.of_range {k lo hi : Nat} (h : k < lo ∨ hi ≤ k) :
    (r.behind [.elem k]).Disjoint ⟨[], some (lo, hi)⟩ := by
  intro p hp
  obtain ⟨q, rfl, -⟩ := covers_behind hp.1
  obtain ⟨k', hlo, hhi, q', hq⟩ := hp.2
  have : k' = k := Step.elem.inj (List.cons.inj hq).1
  omega

theorem locate_cons (h : locate index v (e :: es) = some r) :
    (∃ elems lo hi, v = .elements elems ∧ e = .subslice lo hi ∧ es = [] ∧ lo + hi ≤ elems.length ∧
      r = ⟨[], some (lo, elems.length - hi)⟩) ∨
    ∃ w steps r', v.project index e = some (w, steps) ∧ locate index w es = some r' ∧
      r = r'.behind steps := by
  rw [locate.eq_def] at h
  split at h
  · contradiction
  · rename_i elems lo hi heq
    obtain ⟨rfl, rfl⟩ := List.cons.inj heq
    split at h
    · rename_i hle
      exact .inl ⟨elems, lo, hi, rfl, rfl, rfl, hle, (Option.some.inj h).symm⟩
    · cases h
  · rename_i v' e' es' _ heq
    obtain ⟨rfl, rfl⟩ := List.cons.inj heq
    obtain ⟨⟨w, steps⟩, hp, h⟩ := Option.bind_eq_some_iff.1 h
    obtain ⟨r', hr, h⟩ := Option.bind_eq_some_iff.1 h
    exact .inr ⟨w, steps, r', hp, hr, (Option.some.inj h).symm⟩

def SelectsElem (index : Local → Nat) (n : Nat) : ProjectionElem → Nat → Prop
  | .index l, k => k = index l
  | .constantIndex offset minLength false, k => minLength ≤ n ∧ k = offset
  | .constantIndex offset minLength true, k => minLength ≤ n ∧ offset ≤ n ∧ k = n - offset
  | _, _ => False

def Value.fields : Value → List Value
  | .aggregate fields => fields
  | .variant _ fields => fields
  | _ => []

theorem project_cases (h : v.project index e = some (w, steps)) :
    (∃ f, e = .field f ∧ v.fields[f]? = some w ∧ steps = [.field f]) ∨
    (∃ n fields, e = .downcast n ∧ v = .variant n fields ∧ w = v ∧ steps = []) ∨
    ∃ elems k, v = .elements elems ∧ SelectsElem index elems.length e k ∧ elems[k]? = some w ∧
      steps = [.elem k] := by
  rw [Value.project.eq_def] at h
  split at h
  · obtain ⟨w', hw, h⟩ := Option.map_eq_some_iff.1 h
    cases h
    exact .inl ⟨_, rfl, hw, rfl⟩
  · obtain ⟨w', hw, h⟩ := Option.map_eq_some_iff.1 h
    cases h
    exact .inl ⟨_, rfl, hw, rfl⟩
  · split at h
    · rename_i heq
      cases h
      exact .inr (.inl ⟨_, _, by rw [heq], rfl, rfl, rfl⟩)
    · cases h
  · obtain ⟨w', hw, h⟩ := Option.map_eq_some_iff.1 h
    cases h
    exact .inr (.inr ⟨_, _, rfl, rfl, hw, rfl⟩)
  · split at h
    · rename_i hle
      obtain ⟨w', hw, h⟩ := Option.map_eq_some_iff.1 h
      cases h
      exact .inr (.inr ⟨_, _, rfl, ⟨hle, rfl⟩, hw, rfl⟩)
    · cases h
  · split at h
    · rename_i hle
      obtain ⟨w', hw, h⟩ := Option.map_eq_some_iff.1 h
      cases h
      exact .inr (.inr ⟨_, _, rfl, ⟨hle.1, hle.2, rfl⟩, hw, rfl⟩)
    · cases h
  · cases h

theorem constantIndexConflict_disjoint {o1 o2 m : Nat}
    (h : constantIndexConflict o1 o2 m = .ok .disjoint) : o1 + o2 < m := by
  rw [constantIndexConflict] at h
  split at h
  · cases h
  · have := Overlap.ofSame_eq_disjoint.1 (Except.ok.inj h)
    simp only [decide_eq_false_iff_not] at this
    omega

theorem selectsElem_ne {n k1 k2 : Nat} (h1 : SelectsElem index₁ n b k1)
    (h2 : SelectsElem index₂ n a k2)
    (h : placeProjectionConflict cx base projBase b a .overlap = .ok .disjoint) : k1 ≠ k2 := by
  cases b with
  | deref | field | subslice | downcast => cases h1
  | index l1 =>
    cases a with
    | deref | field | subslice | downcast => cases h2
    | index l2 | constantIndex o2 m2 end2 => cases h
  | constantIndex o1 m1 end1 =>
    cases a with
    | deref | field | subslice | downcast => cases h2
    | index l2 => cases end1 <;> cases h
    | constantIndex o2 m2 end2 =>
      cases end1 <;> cases end2 <;> simp only [placeProjectionConflict, Except.ok.injEq,
        Overlap.ofSame_eq_disjoint, decide_eq_false_iff_not] at h <;>
        simp only [SelectsElem] at h1 h2
      · omega
      · have := constantIndexConflict_disjoint h
        omega
      · have := constantIndexConflict_disjoint h
        omega
      · omega

theorem selectsElem_range {n k lo hi : Nat} (h1 : SelectsElem index n e k)
    (h : placeProjectionConflict cx base projBase e (.subslice lo hi) .overlap = .ok .disjoint ∨
      placeProjectionConflict cx base projBase (.subslice lo hi) e .overlap = .ok .disjoint) :
    k < lo ∨ n - hi ≤ k := by
  cases e with
  | deref | field | subslice | downcast => cases h1
  | index l => rcases h with h | h <;> cases h
  | constantIndex o m fromEnd =>
    cases fromEnd <;> simp only [placeProjectionConflict, Except.ok.injEq,
      Overlap.ofSame_eq_disjoint, decide_eq_false_iff_not, or_self] at h <;>
      simp only [SelectsElem] at h1 <;> omega

/-- Two projections of one value lead to the same part or to parts behind different steps; those
that are judged disjoint lead to different steps. -/
theorem project_eq_or_ne {w1 w2 : Value} {steps1 steps2 : List Step} {o : Overlap}
    (h1 : v.project index₁ b = some (w1, steps1)) (h2 : v.project index₂ a = some (w2, steps2))
    (h : placeProjectionConflict cx base projBase b a .overlap = .ok o) :
    (o ≠ .disjoint ∧ w1 = w2 ∧ steps1 = steps2) ∨
      ∃ s1 s2, s1 ≠ s2 ∧ steps1 = [s1] ∧ steps2 = [s2] := by
  obtain ⟨f1, rfl, hw1, rfl⟩ | ⟨n1, fields1, rfl, rfl, rfl, rfl⟩ | ⟨elems1, k1, rfl, hk1, hw1, rfl⟩ :=
    project_cases h1
  · obtain ⟨f2, rfl, hw2, rfl⟩ | ⟨n2, fields2, rfl, rfl, rfl, rfl⟩ | ⟨elems2, k2, rfl, _, _, rfl⟩ :=
      project_cases h2
    · by_cases hf : f1 = f2
      · subst hf
        rw [placeProjectionConflict_field] at h
        cases h
        exact .inl ⟨nofun, Option.mem_unique hw1 hw2, rfl⟩
      · exact .inr ⟨_, _, fun hs => hf (Step.field.inj hs), rfl, rfl⟩
    · cases h
    · cases hw1
  · obtain ⟨f2, rfl, _, rfl⟩ | ⟨n2, fields2, rfl, hv, rfl, rfl⟩ | ⟨elems2, k2, hv, _, _, rfl⟩ :=
      project_cases h2
    · cases h
    · cases hv
      rw [placeProjectionConflict] at h
      refine .inl ⟨fun ho => ?_, rfl, rfl⟩
      subst ho
      simp at h
    · cases hv
  · obtain ⟨f2, rfl, hw2, rfl⟩ | ⟨n2, fields2, rfl, hv, rfl, rfl⟩ | ⟨elems2, k2, hv, hk2, hw2, rfl⟩ :=
      project_cases h2
    · cases hw2
    · cases hv
    · cases hv
      by_cases hk : k1 = k2
      · subst hk
        refine .inl ⟨fun ho => ?_, Option.mem_unique hw1 hw2, rfl⟩
        exact selectsElem_ne hk1 hk2 (ho ▸ h) rfl
      · exact .inr ⟨_, _, fun hs => hk (Step.elem.inj hs), rfl, rfl⟩

variable {bias : PlaceConflictBias}

theorem compareComponents_cons
    (h : compareComponents cx base bias projBase (b :: borrow) (a :: access) = .ok (some false)) :
    ∃ o, placeProjectionConflict cx base projBase b a bias = .ok o ∧
      (o = .disjoint ∨ compareComponents cx base bias (projBase ++ [b]) borrow access =
        .ok (some false)) := by
  obtain ⟨o, ho, h⟩ := bind_eq_ok.1 h
  refine ⟨o, ho, ?_⟩
  cases o with
  | arbitrary => cases h
  | equalOrDisjoint => exact .inr h
  | disjoint => exact .inl rfl

theorem compareComponents_nil :
    compareComponents cx base bias projBase [] access ≠ .ok (some false) := by
  cases access <;> nofun

theorem compareComponents_nil_right :
    compareComponents cx base bias projBase borrow [] ≠ .ok (some false) := by
  cases borrow <;> nofun

theorem disjoint_subslice {elems : List Value} {w : Value} {lo hi : Nat}
    (hp : (Value.elements elems).project index e = some (w, steps))
    (h : placeProjectionConflict cx base projBase e (.subslice lo hi) .overlap = .ok .disjoint ∨
      placeProjectionConflict cx base projBase (.subslice lo hi) e .overlap = .ok .disjoint) :
    (r.behind steps).Disjoint ⟨[], some (lo, elems.length - hi)⟩ := by
  obtain ⟨f, _, hw, _⟩ | ⟨n, fields, _, hv, _, _⟩ | ⟨elems', k, hv, hk, _, rfl⟩ := project_cases hp
  · cases hw
  · cases hv
  · cases hv
    exact .of_range (selectsElem_range hk h)

/-- The loop over the common components answers that there is no conflict only when what the places
denote is disjoint. -/
theorem compareComponents_disjoint
    (h : compareComponents cx base .overlap projBase borrow access = .ok (some false))
    (h1 : locate index₁ v borrow = some r₁) (h2 : locate index₂ v access = some r₂) :
    r₁.Disjoint r₂ := by
  induction borrow generalizing projBase access v r₁ r₂ with
  | nil => exact absurd h compareComponents_nil
  | cons b borrow ih =>
    cases access with
    | nil => exact absurd h compareComponents_nil_right
    | cons a access =>
      obtain ⟨o, ho, hrest⟩ := compareComponents_cons h
      obtain ⟨elems1, lo1, hi1, rfl, rfl, rfl, _, rfl⟩ | ⟨w1, steps1, r1', hp1, hl1, rfl⟩ :=
        locate_cons h1
      · -- the borrow ends with a subslice
        have ho : placeProjectionConflict cx base projBase (.subslice lo1 hi1) a .overlap =
            .ok .disjoint := by
          rcases hrest with rfl | hrest
          · exact ho
          · exact absurd hrest compareComponents_nil
        obtain ⟨elems2, lo2, hi2, _, rfl, rfl, _, rfl⟩ | ⟨w2, steps2, r2', hp2, _, rfl⟩ :=
          locate_cons h2
        · cases ho
        · exact (disjoint_subslice hp2 (.inr ho)).symm
      · obtain ⟨elems2, lo2, hi2, rfl, rfl, rfl, _, rfl⟩ | ⟨w2, steps2, r2', hp2, hl2, rfl⟩ :=
          locate_cons h2
        · -- the access ends with a subslice
          rcases hrest with rfl | hrest
          · exact disjoint_subslice hp1 (.inl ho)
          · exact absurd hrest compareComponents_nil_right
        · -- both go on: to the same part, where the rest decides, or to different ones
          obtain ⟨hne, rfl, rfl⟩ | ⟨s1, s2, hs, rfl, rfl⟩ := project_eq_or_ne hp1 hp2 ho
          · exact (ih (hrest.resolve_left hne) hl1 hl2).behind steps1
          · exact .of_ne hs

theorem compareRest_deep {rest : List ProjectionElem} :
    compareRest cx base .deep projBase rest ≠ .ok (some false) := by
  induction rest generalizing projBase with
  | nil => nofun
  | cons e rest ih =>
    intro h
    obtain ⟨ty, _, h⟩ := bind_eq_ok.1 h
    split at h
    all_goals first
      | contradiction
      | exact ih h

theorem asLocal_base {place : Place} {l : Local} (h : asLocal place = some l) :
    place.base = .loc l := by
  rw [asLocal.eq_def] at h
  split at h
  · cases h
    rfl
  · cases h

end

/-- Places that are judged not to conflict share no part of the value: in every state in which both
exist, whatever the values of the index variables at the borrow and at the access. -/
theorem placesConflict_disjoint (cx : PlaceCx) (borrow access : Place) (l₁ l₂ : Local)
    (hb : borrow.base = .loc l₁) (ha : access.base = .loc l₂)
    (h : placesConflict cx borrow access .overlap = .ok false)
    (state : Local → Value) (index₁ index₂ : Local → Nat) (r₁ r₂ : Extent)
    (h₁ : locate index₁ (state l₁) borrow.projection = some r₁)
    (h₂ : locate index₂ (state l₂) access.projection = some r₂) : l₁ ≠ l₂ ∨ r₁.Disjoint r₂ := by
  by_cases hl : l₁ = l₂
  · subst hl
    refine .inr ?_
    rw [placesConflict, borrowConflictsWithPlace] at h
    split at h
    · -- two locals without projections, which are the same
      rename_i m1 m2 hm1 hm2
      have e1 := asLocal_base hm1
      have e2 := asLocal_base hm2
      rw [hb] at e1
      rw [ha] at e2
      cases e1
      cases e2
      simp at h
    · rw [placeComponentsConflict, hb, ha] at h
      simp only [placeBaseConflict, decide_true, Overlap.ofSame, if_true] at h
      obtain ⟨answer, hc, h⟩ := bind_eq_ok.1 h
      cases answer with
      | some answer =>
        cases h
        exact compareComponents_disjoint hc h₁ h₂
      | none =>
        obtain ⟨answer, hr, h⟩ := bind_eq_ok.1 h
        cases answer with
        | some answer =>
          cases h
          exact absurd hr compareRest_deep
        | none => simp at h
  · exact .inl hl

/-- The first and the last of three elements, the last counted from the end with a minimum length of
two. -/
theorem placesConflict_disjoint_first_last :
    (0 : Local) ≠ 0 ∨ Extent.Disjoint ⟨[.elem 0], none⟩ ⟨[.elem 2], none⟩ :=
  placesConflict_disjoint
    { adtDef := fun _ => ⟨false, false, false⟩, localTy := fun _ => some (.slice .other),
      staticTy := fun _ => .other, isMutableStatic := fun _ => false,
      fieldTy := fun _ _ _ => .other }
    ⟨.loc 0, [.constantIndex 0 2 false]⟩ ⟨.loc 0, [.constantIndex 1 2 true]⟩ 0 0 rfl rfl
    (by decide) (fun _ => .elements [.scalar 1, .scalar 2, .scalar 3]) (fun _ => 0)
    (fun _ => 0) ⟨[.elem 0], none⟩ ⟨[.elem 2], none⟩ (by decide) (by decide)

end Tortis.BorrowCheck
