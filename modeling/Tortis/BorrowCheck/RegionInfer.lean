import Tortis.BorrowCheck.ConstraintGraph
import Tortis.DataStructures.BitMatrix

/-!
# Region inference

`borrow_check/nll/region_infer/values.rs`: a value is a set of points of the control-flow graph, of
free regions and of placeholders, kept in one bit matrix each. `Has` reads the value of a row as one
set of elements, and each operation has one lemma that says what it does to this set.

`borrow_check/nll/region_infer/mod.rs`: the regions of a body are grouped into the strongly
connected components of their constraints, each component starts with the elements that its regions
start with, and the values are propagated along the constraints between the components. Values that
a component cannot name are replaced by `'static`. Member constraints are left out: the model is
that of an inference without any.
-/

namespace Tortis.BorrowCheck

open Outcome SparseBitMatrix

abbrev UniverseIndex := Nat

namespace UniverseIndex

def ROOT : UniverseIndex := 0

/-- `MAX`, the largest index of the type. -/
def MAX : UniverseIndex := 0xFFFFFF00

def canName (self other : UniverseIndex) : Bool := other ≤ self

end UniverseIndex

inductive BoundRegion where
  | brAnon (index : Nat)
  | brNamed (defId name : Nat)
  | brEnv
deriving DecidableEq

structure PlaceholderRegion where
  universeIndex : UniverseIndex
  name : BoundRegion
deriving DecidableEq

/-- `PlaceholderIndices`: its two maps are inverse to each other. -/
structure PlaceholderIndices where
  toIndex : FxHashMap PlaceholderRegion Nat
  fromIndex : List PlaceholderRegion
  inverse : ∀ p i, toIndex.get p = some i ↔ fromIndex[i]? = some p

namespace PlaceholderIndices

/-- No placeholders. -/
def empty : PlaceholderIndices := ⟨∅, [], by simp [FxHashMap.get]⟩

def insert (ix : PlaceholderIndices) (p : PlaceholderRegion) : Nat × PlaceholderIndices :=
  match h : ix.toIndex.get p with
  | some i => (i, ix)
  | none =>
    (ix.fromIndex.length,
      { toIndex := AList.insert p ix.fromIndex.length ix.toIndex
        fromIndex := ix.fromIndex ++ [p]
        inverse := fun q i => by
          rw [FxHashMap.get_insert, getElem?_concat_eq_some]
          split
          · rename_i heq
            subst heq
            have hnot : ix.fromIndex[i]? ≠ some q := fun hi => by
              rw [(ix.inverse q i).2 hi] at h
              cases h
            rw [Option.some_inj]
            exact ⟨fun hi => .inr ⟨hi.symm, rfl⟩, fun hi => ((hi.resolve_left hnot).1).symm⟩
          · rename_i hne
            rw [ix.inverse q i]
            exact ⟨.inl, fun hi => hi.resolve_right fun hi => hne hi.2.symm⟩ })

section
variable (ix : PlaceholderIndices)

def lookupIndex (p : PlaceholderRegion) : Outcome Nat :=
  expect "no entry found for key" (ix.toIndex.get p)

def len : Nat := ix.fromIndex.length

/-- `lookup_placeholder`, of an index that is in range. -/
def lookupPlaceholder (i : Fin ix.len) : PlaceholderRegion :=
  ix.fromIndex.get i

end

end PlaceholderIndices

/-- `RegionElement`, with a location given by the index of its point. -/
inductive RegionElement where
  | location (point : Nat)
  | rootUniversalRegion (region : Nat)
  | placeholderRegion (placeholder : PlaceholderRegion)

/-- `LivenessValues` over the regions: the points where each region is live. -/
structure LivenessValues (numPoints : Nat) where
  points : SparseBitMatrix numPoints

namespace LivenessValues

def rows {numPoints : Nat} (l : LivenessValues numPoints) : List Nat := l.points.rowIndices

def addAllPoints {numPoints : Nat} (l : LivenessValues numPoints) (row : Nat) :
    LivenessValues numPoints := ⟨l.points.insertAllIntoRow row⟩

end LivenessValues

/-- `RegionValues`, for a body with `numPoints` points. -/
structure RegionValues (numPoints numUniversalRegions : Nat) (ix : PlaceholderIndices) where
  points : SparseBitMatrix numPoints
  freeRegions : SparseBitMatrix numUniversalRegions
  placeholders : SparseBitMatrix ix.len

namespace RegionValues
variable {numPoints numUniversalRegions : Nat} {ix : PlaceholderIndices}

def new (numPoints numUniversalRegions : Nat) (ix : PlaceholderIndices) :
    RegionValues numPoints numUniversalRegions ix := ⟨.new _, .new _, .new _⟩

section
variable (v : RegionValues numPoints numUniversalRegions ix)

def addFreeRegion (r region : Nat) :
    Outcome (RegionValues numPoints numUniversalRegions ix) := do
  let freeRegions ← v.freeRegions.insert r region
  .ok { v with freeRegions := freeRegions }

def addPlaceholder (r : Nat) (placeholder : PlaceholderRegion) :
    Outcome (RegionValues numPoints numUniversalRegions ix) := do
  let index ← ix.lookupIndex placeholder
  let placeholders ← v.placeholders.insert r index
  .ok { v with placeholders := placeholders }

def addAllPoints (r : Nat) : RegionValues numPoints numUniversalRegions ix :=
  { v with points := v.points.insertAllIntoRow r }

def addRegion (rTo rFrom : Nat) : RegionValues numPoints numUniversalRegions ix :=
  ⟨v.points.unionRows rFrom rTo, v.freeRegions.unionRows rFrom rTo,
    v.placeholders.unionRows rFrom rTo⟩

def contains (v : RegionValues numPoints numUniversalRegions ix) (r : Nat) :
    RegionElement → Outcome Bool
  | .location point => v.points.contains r point
  | .rootUniversalRegion region => v.freeRegions.contains r region
  | .placeholderRegion placeholder => do
    let index ← ix.lookupIndex placeholder
    v.placeholders.contains r index

def mergeLiveness (target source : Nat)
    (values : LivenessValues numPoints) : RegionValues numPoints numUniversalRegions ix :=
  match values.points.row source with
  | some set => { v with points := v.points.unionIntoRow target set }
  | none => v

def placeholdersContainedIn (r : Nat) : List PlaceholderRegion :=
  match v.placeholders.row r with
  | some set => ((List.finRange ix.len).filter (· ∈ set)).map ix.lookupPlaceholder
  | none => []

/-! ## The elements of a value -/

/-- An element is in the value of a row. -/
def Has (r : Nat) : RegionElement → Prop
  | .location point => ∃ e ∈ v.points.bits r, e.val = point
  | .rootUniversalRegion region => ∃ e ∈ v.freeRegions.bits r, e.val = region
  | .placeholderRegion placeholder =>
    ∃ e ∈ v.placeholders.bits r, ix.lookupPlaceholder e = placeholder

end

def IsPoint (numPoints : Nat) : RegionElement → Prop
  | .location point => point < numPoints
  | _ => False

variable {v : RegionValues numPoints numUniversalRegions ix} {r s : Nat} {e : RegionElement}

theorem not_has_new : ¬ (new numPoints numUniversalRegions ix).Has r e := by
  cases e <;> simp [Has, new]

variable {p : PlaceholderRegion}

theorem lookupIndex_eq_ok {i : Nat} : ix.lookupIndex p = .ok i ↔ ix.fromIndex[i]? = some p := by
  rw [PlaceholderIndices.lookupIndex, expect_eq_ok, ix.inverse]

theorem columns_contains {n : Nat} {m : SparseBitMatrix n} {r c : Nat} :
    m.contains r c = .ok true ↔ ∃ e ∈ m.bits r, e.val = c := by
  constructor
  · intro h
    by_cases hc : c < n
    · refine ⟨⟨c, hc⟩, ?_, rfl⟩
      rw [m.contains_eq r ⟨c, hc⟩] at h
      simpa using h
    · rw [SparseBitMatrix.contains, inDomain, dif_neg hc] at h
      cases hrow : m.row r <;> rw [hrow] at h <;> cases h
  · rintro ⟨e, he, rfl⟩
    rw [m.contains_eq]
    simpa using he

theorem contains_eq_true : v.contains r e = .ok true ↔ v.Has r e := by
  cases e with
  | location point => exact columns_contains
  | rootUniversalRegion region => exact columns_contains
  | placeholderRegion p =>
    rw [contains, bind_eq_ok, Has]
    simp only [columns_contains]
    constructor
    · rintro ⟨i, hi, e, he, rfl⟩
      obtain ⟨_, hp⟩ := List.getElem?_eq_some_iff.1 (lookupIndex_eq_ok.1 hi)
      exact ⟨e, he, hp⟩
    · rintro ⟨e, he, hp⟩
      refine ⟨e.val, lookupIndex_eq_ok.2 ?_, e, he, rfl⟩
      rw [← hp]
      exact List.getElem?_eq_getElem e.2

theorem has_addRegion {a b : Nat} :
    (v.addRegion a b).Has s e ↔ v.Has s e ∨ (s = a ∧ v.Has b e) := by
  cases e <;>
  · simp only [Has, addRegion, mem_bits_unionRows]
    constructor
    · rintro ⟨e, he | ⟨rfl, he⟩, hx⟩
      exacts [.inl ⟨e, he, hx⟩, .inr ⟨rfl, e, he, hx⟩]
    · rintro (⟨e, he, hx⟩ | ⟨rfl, e, he, hx⟩)
      exacts [⟨e, .inl he, hx⟩, ⟨e, .inr ⟨rfl, he⟩, hx⟩]

theorem has_addAllPoints :
    (v.addAllPoints r).Has s e ↔ v.Has s e ∨ (s = r ∧ IsPoint numPoints e) := by
  cases e with
  | location point =>
    simp only [Has, addAllPoints, mem_bits_insertAllIntoRow, IsPoint]
    constructor
    · rintro ⟨e, he | rfl, rfl⟩
      exacts [.inl ⟨e, he, rfl⟩, .inr ⟨rfl, e.2⟩]
    · rintro (⟨e, he, rfl⟩ | ⟨rfl, hp⟩)
      exacts [⟨e, .inl he, rfl⟩, ⟨⟨point, hp⟩, .inr rfl, rfl⟩]
  | rootUniversalRegion region => simp [Has, addAllPoints, IsPoint]
  | placeholderRegion p => simp [Has, addAllPoints, IsPoint]

theorem addFreeRegion_spec {region : Nat} (h : region < numUniversalRegions) (r : Nat)
    (v : RegionValues numPoints numUniversalRegions ix) : ∃ v', v.addFreeRegion r region = .ok v' ∧
      ∀ s e, v'.Has s e ↔ v.Has s e ∨ (s = r ∧ e = .rootUniversalRegion region) := by
  obtain ⟨m, hm, hbits⟩ := v.freeRegions.insert_spec r ⟨region, h⟩
  refine ⟨{ v with freeRegions := m }, ?_, fun s e => ?_⟩
  · rw [addFreeRegion, hm]
    rfl
  · cases e with
    | rootUniversalRegion region' =>
      simp only [Has, hbits, RegionElement.rootUniversalRegion.injEq]
      constructor
      · rintro ⟨e, he | ⟨rfl, rfl⟩, rfl⟩
        exacts [.inl ⟨e, he, rfl⟩, .inr ⟨rfl, rfl⟩]
      · rintro (⟨e, he, rfl⟩ | ⟨rfl, rfl⟩)
        exacts [⟨e, .inl he, rfl⟩, ⟨⟨_, h⟩, .inr ⟨rfl, rfl⟩, rfl⟩]
    | location point => simp [Has]
    | placeholderRegion p => simp [Has]

theorem addPlaceholder_spec (h : p ∈ ix.fromIndex) (r : Nat)
    (v : RegionValues numPoints numUniversalRegions ix) : ∃ v', v.addPlaceholder r p = .ok v' ∧
      ∀ s e, v'.Has s e ↔ v.Has s e ∨ (s = r ∧ e = .placeholderRegion p) := by
  obtain ⟨i, hi⟩ := List.getElem?_of_mem h
  obtain ⟨hlt, hp⟩ := List.getElem?_eq_some_iff.1 hi
  obtain ⟨m, hm, hbits⟩ := v.placeholders.insert_spec r ⟨i, hlt⟩
  refine ⟨{ v with placeholders := m }, ?_, fun s e => ?_⟩
  · rw [addPlaceholder, lookupIndex_eq_ok.2 hi, ok_bind, hm]
    rfl
  · cases e with
    | placeholderRegion p' =>
      simp only [Has, hbits, RegionElement.placeholderRegion.injEq]
      constructor
      · rintro ⟨e, he | ⟨rfl, rfl⟩, rfl⟩
        exacts [.inl ⟨e, he, rfl⟩, .inr ⟨rfl, hp⟩]
      · rintro (⟨e, he, rfl⟩ | ⟨rfl, rfl⟩)
        exacts [⟨e, .inl he, rfl⟩, ⟨⟨i, hlt⟩, .inr ⟨rfl, rfl⟩, hp⟩]
    | location point => simp [Has]
    | rootUniversalRegion region => simp [Has]

theorem has_mergeLiveness {target source : Nat} {values : LivenessValues numPoints} :
    (v.mergeLiveness target source values).Has s e ↔
      v.Has s e ∨ (s = target ∧ ∃ p ∈ values.points.bits source, e = .location p.val) := by
  rw [mergeLiveness]
  split
  · rename_i set hset
    have hbits : values.points.bits source = set := by
      rw [bits, hset]
      rfl
    rw [hbits]
    cases e with
    | location point =>
      simp only [Has, mem_bits_unionIntoRow, RegionElement.location.injEq]
      constructor
      · rintro ⟨e, he | ⟨rfl, he⟩, rfl⟩
        exacts [.inl ⟨e, he, rfl⟩, .inr ⟨rfl, e, he, rfl⟩]
      · rintro (⟨e, he, rfl⟩ | ⟨rfl, e, he, rfl⟩)
        exacts [⟨e, .inl he, rfl⟩, ⟨e, .inr ⟨rfl, he⟩, rfl⟩]
    | rootUniversalRegion region => simp [Has]
    | placeholderRegion p => simp [Has]
  · rename_i hnone
    have hbits : values.points.bits source = ∅ := by
      rw [bits, hnone]
      rfl
    simp [hbits]

theorem mem_placeholdersContainedIn :
    p ∈ v.placeholdersContainedIn r ↔ v.Has r (.placeholderRegion p) := by
  rw [placeholdersContainedIn, Has, bits]
  cases v.placeholders.row r with
  | none => simp
  | some set => simp [List.mem_map, List.mem_filter, List.mem_finRange]

end RegionValues

/-! ## Region inference -/

inductive NLLRegionVariableOrigin where
  | freeRegion
  | placeholder (placeholder : PlaceholderRegion)
  | existential (fromForall : Bool)

/-- `RegionVariableOrigin`, with the origins that do not come from NLL taken together. -/
inductive RegionVariableOrigin where
  | nll (origin : NLLRegionVariableOrigin)
  | other

/-- `RegionVariableInfo`: a placeholder's variable is made in the universe of the placeholder. -/
structure RegionVariableInfo where
  origin : RegionVariableOrigin
  universeIndex : UniverseIndex
  placeholder_universe : ∀ p, origin = .nll (.placeholder p) → p.universeIndex = universeIndex

structure RegionDefinition where
  origin : NLLRegionVariableOrigin
  universeIndex : UniverseIndex
  placeholder_universe : ∀ p, origin = .placeholder p → p.universeIndex = universeIndex

def RegionDefinition.new (info : RegionVariableInfo) : RegionDefinition where
  origin := match info.origin with
    | .nll origin => origin
    | .other => .existential false
  universeIndex := info.universeIndex
  placeholder_universe p hp := by
    refine info.placeholder_universe p ?_
    split at hp
    · rename_i origin horigin
      rw [horigin, hp]
    · cases hp

/-- What inference reads of `UniversalRegions`: the region of `'static` and the number of universal
regions. -/
structure UniversalRegions where
  frStatic : RegionVid
  numUniversals : Nat

/-- `RegionInferenceContext`, for a body with `numPoints` points. -/
structure RegionInferenceContext (numPoints : Nat) (universal : UniversalRegions)
    (ix : PlaceholderIndices) where
  definitions : List RegionDefinition
  livenessConstraints : LivenessValues numPoints
  constraints : OutlivesConstraintSet
  constraintGraph : ConstraintGraph
  constraintSccs : Sccs
  sccUniverses : List UniverseIndex
  sccRepresentatives : List RegionVid
  sccValues : RegionValues numPoints universal.numUniversals ix

namespace RegionInferenceContext

def computeSccUniverses (constraintsScc : Sccs) (definitions : List RegionDefinition) :
    Outcome (List UniverseIndex) :=
  definitions.zipIdx.foldlM (fun sccUniverses (definition, regionVid) => do
      let scc ← constraintsScc.scc regionVid
      let sccUniverse ← expect "index out of bounds" sccUniverses[scc]?
      .ok (sccUniverses.set scc (min sccUniverse definition.universeIndex)))
    (List.replicate constraintsScc.numSccs UniverseIndex.MAX)

def computeSccRepresentatives (constraintsScc : Sccs) (definitions : List RegionDefinition) :
    Outcome (List RegionVid) :=
  (List.range definitions.length).foldlM (fun sccRepresentatives regionVid => do
      let scc ← constraintsScc.scc regionVid
      let prevMin ← expect "index out of bounds" sccRepresentatives[scc]?
      .ok (sccRepresentatives.set scc (min regionVid prevMin)))
    (List.replicate constraintsScc.numSccs definitions.length)

variable {numPoints : Nat} {universal : UniversalRegions} {ix : PlaceholderIndices}

def addIncompatibleUniverse (values : RegionValues numPoints universal.numUniversals ix)
    (scc : Nat) : Outcome (RegionValues numPoints universal.numUniversals ix) :=
  (values.addAllPoints scc).addFreeRegion scc universal.frStatic

section
variable (rcx : RegionInferenceContext numPoints universal ix)

/-- One region in the loop of `init_free_and_bound_regions`. -/
def initRegion (variable_ : RegionVid)
    (definition : RegionDefinition) : Outcome (RegionInferenceContext numPoints universal ix) := do
  let scc ← rcx.constraintSccs.scc variable_
  match definition.origin with
  | .freeRegion => do
    let sccValues ← (rcx.sccValues.addAllPoints scc).addFreeRegion scc variable_
    .ok { rcx with
      livenessConstraints := rcx.livenessConstraints.addAllPoints variable_
      sccValues := sccValues }
  | .placeholder placeholder => do
    let sccUniverse ← expect "index out of bounds" rcx.sccUniverses[scc]?
    let sccValues ←
      if sccUniverse.canName placeholder.universeIndex then
        rcx.sccValues.addPlaceholder scc placeholder
      else addIncompatibleUniverse rcx.sccValues scc
    .ok { rcx with sccValues := sccValues }
  | .existential _ => .ok rcx

/-- `init_free_and_bound_regions`. The names of the regions are not modelled. -/
def initFreeAndBoundRegions : Outcome (RegionInferenceContext numPoints universal ix) :=
  rcx.definitions.zipIdx.foldlM (fun rcx (definition, variable_) =>
    initRegion rcx variable_ definition) rcx

/-- The loop over the live regions in `RegionInferenceContext::new`. -/
def mergeLiveRegions (constraintSccs : Sccs) (livenessConstraints : LivenessValues numPoints) :
    Outcome (RegionValues numPoints universal.numUniversals ix) :=
  livenessConstraints.rows.foldlM (fun sccValues region => do
      let scc ← constraintSccs.scc region
      .ok (sccValues.mergeLiveness scc region livenessConstraints))
    (.new numPoints universal.numUniversals ix)

def new (varInfos : List RegionVariableInfo) (universal : UniversalRegions)
    (ix : PlaceholderIndices) (outlivesConstraints : OutlivesConstraintSet)
    (livenessConstraints : LivenessValues numPoints) :
    Outcome (RegionInferenceContext numPoints universal ix) := do
  let definitions := varInfos.map RegionDefinition.new
  let constraintGraph ← ConstraintGraph.new .normal outlivesConstraints definitions.length
  let constraintSccs ← outlivesConstraints.computeSccs constraintGraph universal.frStatic
  let sccValues ← mergeLiveRegions constraintSccs livenessConstraints
  let sccUniverses ← computeSccUniverses constraintSccs definitions
  let sccRepresentatives ← computeSccRepresentatives constraintSccs definitions
  initFreeAndBoundRegions
    { definitions := definitions, livenessConstraints := livenessConstraints
      constraints := outlivesConstraints, constraintGraph := constraintGraph
      constraintSccs := constraintSccs, sccUniverses := sccUniverses
      sccRepresentatives := sccRepresentatives, sccValues := sccValues }

def universeCompatible
    (values : RegionValues numPoints universal.numUniversals ix) (sccB sccA : Nat) :
    Outcome Bool := do
  let universeA ← expect "index out of bounds" rcx.sccUniverses[sccA]?
  let universeB ← expect "index out of bounds" rcx.sccUniverses[sccB]?
  if universeA.canName universeB then .ok true
  else .ok ((values.placeholdersContainedIn sccB).all fun p => universeA.canName p.universeIndex)

/-- The state of the propagation: the values, the components that have been visited, and, for the
record only, the components that have been processed, in order. -/
structure Propagation (numPoints : Nat) (universal : UniversalRegions) (ix : PlaceholderIndices) where
  values : RegionValues numPoints universal.numUniversals ix
  visited : Finset Nat
  processed : List Nat

/-- One successor in the loop of `propagate_constraint_sccs_new`. -/
def propagateSuccessor
    (ifNew : Nat → Propagation numPoints universal ix → Outcome (Propagation numPoints universal ix))
    (sccA : Nat) (st : Propagation numPoints universal ix) (sccB : Nat) :
    Outcome (Propagation numPoints universal ix) := do
  let st ← ifNew sccB st
  let compatible ← rcx.universeCompatible st.values sccB sccA
  if compatible then .ok { st with values := st.values.addRegion sccA sccB }
  else do
    let values ← addIncompatibleUniverse st.values sccA
    .ok { st with values := values }

/-- `propagate_constraint_sccs_new`, with the function that it calls for the successors. -/
def propagateConstraintSccsNew
    (ifNew : Nat → Propagation numPoints universal ix → Outcome (Propagation numPoints universal ix))
    (sccA : Nat) (st : Propagation numPoints universal ix) :
    Outcome (Propagation numPoints universal ix) := do
  let successors ← rcx.constraintSccs.successors sccA
  let st ← successors.foldlM (rcx.propagateSuccessor ifNew sccA) st
  .ok { st with processed := st.processed ++ [sccA] }

def propagateConstraintSccsIfNew (rcx : RegionInferenceContext numPoints universal ix) :
    Nat → Nat → Propagation numPoints universal ix → Outcome (Propagation numPoints universal ix)
  | 0, _, _ => .error .outOfFuel
  | n + 1, sccA, st => do
    assert (sccA < rcx.constraintSccs.numSccs)
      "assertion failed: elem.index() < self.domain_size"
    if sccA ∈ st.visited then .ok st
    else
      rcx.propagateConstraintSccsNew (rcx.propagateConstraintSccsIfNew n) sccA
        { st with visited := insert sccA st.visited }

/-- `propagate_constraints`. It also returns the order in which the components were processed. -/
def propagateConstraints :
    Outcome (RegionInferenceContext numPoints universal ix × List Nat) := do
  let st ← (List.range rcx.constraintSccs.numSccs).foldlM
    (fun st sccIndex =>
      rcx.propagateConstraintSccsIfNew (rcx.constraintSccs.numSccs + 1) sccIndex st)
    ⟨rcx.sccValues, ∅, []⟩
  .ok ({ rcx with sccValues := st.values }, st.processed)

end

/-- A context is constructed and its constraints are propagated. -/
def infer (varInfos : List RegionVariableInfo) (universal : UniversalRegions)
    (ix : PlaceholderIndices) (outlivesConstraints : OutlivesConstraintSet)
    (livenessConstraints : LivenessValues numPoints) :
    Outcome (RegionInferenceContext numPoints universal ix × List Nat) := do
  let rcx ← new varInfos universal ix outlivesConstraints livenessConstraints
  rcx.propagateConstraints

def regionContains (rcx : RegionInferenceContext numPoints universal ix) (r : RegionVid)
    (elem : RegionElement) : Outcome Bool := do
  let scc ← rcx.constraintSccs.scc r
  rcx.sccValues.contains scc elem

end RegionInferenceContext

end Tortis.BorrowCheck
